import EdaBitGen.Scuttlebutt.SmallBinaryFields

/-!
# The batched task of the small binary fields

Each half of a batch adds the proofs of its two gates, with the field's multiplication done on words.
-/

namespace EdaBitGen.MacNCheese

open AssertMultiply

namespace SmallBinaryField

variable {T : Type} [Field T]

theorem peel_injective (F : SmallBinaryField T) : Function.Injective F.peel := fun a b h => by
  rw [← F.fromLowerBits_peel a, h, F.fromLowerBits_peel]

theorem peel_zero (F : SmallBinaryField T) : F.peel 0 = 0 := by
  have h := F.peel_add 0 0
  rwa [add_zero, BitVec.xor_self] at h

theorem add_self (F : SmallBinaryField T) (a : T) : a + a = 0 := by
  apply F.peel_injective
  rw [F.peel_add, BitVec.xor_self, F.peel_zero]
  rfl

theorem sub_eq_add (F : SmallBinaryField T) (a b : T) : a - b = a + b := by
  rw [sub_eq_iff_eq_add, add_assoc, F.add_self, add_zero]

theorem reduce_zero (F : SmallBinaryField T) : F.reduce (0, 0) = 0 := by
  have h := F.reduce_xor (0, 0) (0, 0)
  have hxor : U64x2.xor (0, 0) (0, 0) = (0, 0) := rfl
  rw [hxor] at h
  exact left_eq_add.1 h

theorem peel_lt (F : SmallBinaryField T) (a : T) : (F.peel a).toNat < 2 ^ 63 := by
  have hd := F.degree_le
  have hpow : 2 ^ F.degree ≤ 2 ^ 63 := Nat.pow_le_pow_right (by omega) hd
  have hpos : 0 < 2 ^ F.degree := Nat.two_pow_pos _
  have hmask : (1#64 <<< F.degree - 1#64).toNat = 2 ^ F.degree - 1 := by
    have hshift : (1#64 <<< F.degree).toNat = 2 ^ F.degree := by
      rw [BitVec.toNat_shiftLeft, Nat.shiftLeft_eq, BitVec.toNat_ofNat,
        Nat.mod_eq_of_lt (by omega : 1 < 2 ^ 64), Nat.one_mul, Nat.mod_eq_of_lt (by omega)]
    rw [BitVec.toNat_sub, hshift, BitVec.toNat_ofNat, Nat.mod_eq_of_lt (by omega : 1 < 2 ^ 64)]
    omega
  have hpeel := F.peel_fromLowerBits (F.peel a)
  rw [F.fromLowerBits_peel] at hpeel
  have hand : (F.peel a).toNat ≤ 2 ^ F.degree - 1 := by
    rw [hpeel, BitVec.toNat_and, hmask]
    exact Nat.and_le_right
  omega

end SmallBinaryField

namespace AssertMultiply.SmallBinary

variable {T : Type} [Field T] (F : SmallBinaryField T)

/-! ## The words of a prover's MAC -/

theorem toNat_newSenderPair (u : ZMod 2) (w : T) :
    (newSenderPair F u w).toNat = (if u = 1 then 2 ^ 63 else 0) + (F.peel w).toNat := by
  have hlt := F.peel_lt w
  unfold newSenderPair
  split
  · have hor := Nat.two_pow_add_eq_or_of_lt hlt 1
    rw [BitVec.toNat_or, BitVec.toNat_shiftLeft]
    rw [Nat.mul_one] at hor
    rw [hor]
    rfl
  · simp

theorem shiftRight_newSenderPair (u : ZMod 2) (w : T) :
    newSenderPair F u w >>> 63 = if u = 1 then 1#64 else 0#64 := by
  have hlt := F.peel_lt w
  apply BitVec.eq_of_toNat_eq
  rw [BitVec.toNat_ushiftRight, toNat_newSenderPair, Nat.shiftRight_eq_div_pow]
  split
  · show _ = 1
    omega
  · show _ = 0
    omega

theorem beta_newSenderPair (u : ZMod 2) (w : T) :
    newSenderPair F u w <<< 1 >>> 1 = F.peel w := by
  have hlt := F.peel_lt w
  apply BitVec.eq_of_toNat_eq
  rw [BitVec.toNat_ushiftRight, BitVec.toNat_shiftLeft, toNat_newSenderPair,
    Nat.shiftRight_eq_div_pow, Nat.shiftLeft_eq]
  split <;> omega

theorem andNot_mask [Algebra (ZMod 2) T] (u : ZMod 2) (w : T) :
    F.peel w &&& ~~~(if (if u = 1 then 1#64 else 0#64) = 0 then BitVec.allOnes 64 else 0) =
      F.peel (algebraMap (ZMod 2) T u * w) := by
  have hu : u = 0 ∨ u = 1 := by
    revert u
    decide
  rcases hu with rfl | rfl
  · rw [map_zero, zero_mul, F.peel_zero]
    simp
  · rw [map_one, one_mul, if_pos rfl, if_neg (by decide)]
    exact BitVec.and_allOnes

/-! ## A half of a batch -/

/-- The prover's state as field elements. -/
def proverValue (acu : U64x2 × U64x2) : T × T := (F.reduce acu.1, F.reduce acu.2)

theorem reduce_half (acu : U64x2) (a b χ χ' : T) :
    F.reduce (acu.xor ((U64x2.clmul (F.peel a) (F.peel χ)).xor
      (U64x2.clmul (F.peel b) (F.peel χ')))) = F.reduce acu + (a * χ + b * χ') := by
  rw [F.reduce_xor, F.reduce_xor, ← F.mul_eq, ← F.mul_eq]

theorem proverHalf_eq [Algebra (ZMod 2) T]
    (a b c a' b' c' : ProverMac (ZMod 2) T) (χ χ' : T) (acu : U64x2 × U64x2) :
    proverValue F (proverHalf F
      (newSenderPair F a.x a.beta, newSenderPair F a'.x a'.beta)
      (newSenderPair F b.x b.beta, newSenderPair F b'.x b'.beta)
      (newSenderPair F c.x c.beta, newSenderPair F c'.x c'.beta) (F.peel χ, F.peel χ') acu) =
    proverValue F acu + (proverProof a b c χ + proverProof a' b' c' χ') := by
  have hsum : ∀ a b c : ProverMac (ZMod 2) T,
      F.peel (algebraMap (ZMod 2) T b.x * a.beta) ^^^ F.peel (algebraMap (ZMod 2) T a.x * b.beta) ^^^
        F.peel c.beta =
      F.peel (algebraMap (ZMod 2) T b.x * a.beta + algebraMap (ZMod 2) T a.x * b.beta - c.beta) := by
    intro a b c
    rw [F.sub_eq_add, F.peel_add, F.peel_add]
  unfold proverHalf proverValue proverProof
  simp only [U64x2.shiftRight, U64x2.shiftLeft, U64x2.cmpEq, U64x2.andNot, U64x2.carrylessMul,
    U64x2.unpackHi, U64x2.unpackLo, shiftRight_newSenderPair, beta_newSenderPair, andNot_mask,
    F.reduceVectored_eq, Bool.false_eq_true, if_true, if_false, U64x2.xor, Prod.mk.eta, ← F.mul_eq, hsum]
  exact Prod.ext (reduce_half F acu.1 _ _ _ _) (reduce_half F acu.2 _ _ _ _)

theorem verifierHalf_eq (alpha a b c a' b' c' χ χ' : T) (acu : U64x2) :
    F.reduce (verifierHalf F (F.peel alpha, 0) (F.peel a, F.peel a') (F.peel b, F.peel b')
      (F.peel c, F.peel c') (F.peel χ, F.peel χ') acu) =
    F.reduce acu + (verifierProof alpha a b c χ + verifierProof alpha a' b' c' χ') := by
  have hreduced : ∀ a b c : T, F.reduce (U64x2.xor (U64x2.clmul (F.peel a) (F.peel b))
      (U64x2.clmul (F.peel alpha) (F.peel c))) = a * b - alpha * c := by
    intro a b c
    rw [F.reduce_xor, ← F.mul_eq, ← F.mul_eq, F.sub_eq_add]
  unfold verifierHalf verifierProof
  simp only [U64x2.carrylessMul, U64x2.unpackHi, U64x2.unpackLo, F.reduceVectored_eq,
    Bool.false_eq_true, if_true, if_false, Prod.mk.eta, hreduced]
  rw [F.reduce_xor, F.reduce_xor, ← F.mul_eq, ← F.mul_eq, mul_comm χ, mul_comm χ', add_assoc]

/-! ## A task -/

theorem and_mask (x y : BitVec 64) :
    U64x2.and (x, y) (U64x2.broadcast (1#64 <<< F.degree - 1#64)) =
      (F.peel (F.fromLowerBits x), F.peel (F.fromLowerBits y)) := by
  rw [F.peel_fromLowerBits, F.peel_fromLowerBits]
  rfl

omit [Field T] in
theorem startTask_cons {G S : Type} [AddMonoid S] (proof : G → T → S) (challenges : ℕ → T) (g : G)
    (gates : List G) : startTask proof challenges (g :: gates) =
      proof g (challenges 0) + startTask proof (fun i => challenges (i + 1)) gates := by
  unfold startTask
  rw [List.zipIdx_cons', List.map_cons, List.sum_cons, List.map_map]
  rfl

theorem batches_map {G H : Type} (f : G → H) (gates : List G) : batches (gates.map f) =
    (batches gates).map fun g => (f g.1, f g.2.1, f g.2.2.1, f g.2.2.2) := by
  fun_induction batches gates with
  | case1 => rfl
  | case2 a => rfl
  | case3 a b => rfl
  | case4 a b c => rfl
  | case5 a b c d gates ih => exact congrArg (_ :: ·) ih

theorem padded_map {G H : Type} (f : G → H) (gates : List G) :
    padded (gates.map f) = (padded gates).map f := by
  unfold padded
  rw [batches_map, List.flatMap_map, List.map_flatMap]
  rfl

theorem runBatches_eq {A G S : Type} [AddCommMonoid S]
    (half : U64x2 → U64x2 → U64x2 → U64x2 → A → A) (value : A → S) (words : G → Words)
    (proof : G → T → S)
    (hhalf : ∀ g g' χ χ' acu, value (half ((words g).a, (words g').a) ((words g).b, (words g').b)
      ((words g).c, (words g').c) (F.peel χ, F.peel χ') acu) =
        value acu + (proof g χ + proof g' χ'))
    (quads : List (G × G × G × G)) (random : ℕ → BitVec 64) (acu : A) :
    value (runBatches F half
      (quads.map fun g => (words g.1, words g.2.1, words g.2.2.1, words g.2.2.2)) random acu) =
    value acu + startTask proof (fun i => F.fromLowerBits (random i))
      (quads.flatMap fun g => [g.1, g.2.1, g.2.2.1, g.2.2.2]) := by
  induction quads generalizing random acu with
  | nil => exact (add_zero _).symm
  | cons g quads ih =>
    rw [List.map_cons, runBatches, ih, and_mask, and_mask, hhalf, hhalf, List.flatMap_cons]
    show _ = _ + startTask _ _ (_ :: _ :: _ :: _ :: _)
    rw [startTask_cons, startTask_cons, startTask_cons, startTask_cons]
    simp only [add_assoc]
    rfl

variable [Algebra (ZMod 2) T]

/-- The batched task gives each party what the proofs of the padded gates give. -/
def Agrees (F : SmallBinaryField T) : Prop :=
  ∀ (gates : List (ProverMac (ZMod 2) T × ProverMac (ZMod 2) T × ProverMac (ZMod 2) T))
    (random : ℕ → BitVec 64),
    startTaskProver F random (gates.map (proverWords F)) =
      Task.proverState ⟨padded gates, fun i => F.fromLowerBits (random i)⟩ ∧
    ∀ alpha, startTaskVerifier F alpha random (gates.map fun g =>
        verifierWords F (g.1.tag alpha, g.2.1.tag alpha, g.2.2.tag alpha)) =
      Task.verifierState alpha ⟨padded gates, fun i => F.fromLowerBits (random i)⟩

theorem startTaskProver_eq
    (gates : List (ProverMac (ZMod 2) T × ProverMac (ZMod 2) T × ProverMac (ZMod 2) T))
    (random : ℕ → BitVec 64) : startTaskProver F random (gates.map (proverWords F)) =
      Task.proverState ⟨padded gates, fun i => F.fromLowerBits (random i)⟩ := by
  have hrun := runBatches_eq F (proverHalf F) (proverValue F) (proverWords F)
    (fun g challenge => proverProof g.1 g.2.1 g.2.2 challenge)
    (fun g g' χ χ' acu => proverHalf_eq F g.1 g.2.1 g.2.2 g'.1 g'.2.1 g'.2.2 χ χ' acu)
    (batches gates) random ((0, 0), (0, 0))
  rw [← batches_map] at hrun
  refine hrun.trans ?_
  have hzero : proverValue F ((0, 0), (0, 0)) = 0 := by
    unfold proverValue
    rw [F.reduce_zero]
    rfl
  rw [hzero, zero_add]
  rfl

theorem startTaskVerifier_eq (alpha : T)
    (gates : List (ProverMac (ZMod 2) T × ProverMac (ZMod 2) T × ProverMac (ZMod 2) T))
    (random : ℕ → BitVec 64) : startTaskVerifier F alpha random (gates.map fun g =>
        verifierWords F (g.1.tag alpha, g.2.1.tag alpha, g.2.2.tag alpha)) =
      Task.verifierState alpha ⟨padded gates, fun i => F.fromLowerBits (random i)⟩ := by
  have hrun := runBatches_eq F (verifierHalf F (F.peel alpha, 0)) F.reduce (verifierWords F)
    (fun g challenge => verifierProof alpha g.1 g.2.1 g.2.2 challenge)
    (fun g g' χ χ' acu => verifierHalf_eq F alpha g.1 g.2.1 g.2.2 g'.1 g'.2.1 g'.2.2 χ χ' acu)
    (batches (gates.map fun g => (g.1.tag alpha, g.2.1.tag alpha, g.2.2.tag alpha)))
    random (0, 0)
  rw [← batches_map, List.map_map, F.reduce_zero, zero_add] at hrun
  refine hrun.trans ?_
  unfold Task.verifierState
  rw [← padded_map]
  rfl

theorem agrees : Agrees F := fun gates random =>
  ⟨startTaskProver_eq F gates random, fun alpha => startTaskVerifier_eq F alpha gates random⟩

end AssertMultiply.SmallBinary

end EdaBitGen.MacNCheese
