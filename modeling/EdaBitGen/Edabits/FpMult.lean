import EdaBitGen.Edabits.RandomB2a

/-!
# Products of fixed-point numbers

A product `z` of two field elements is committed to with its bits.  The low bits convert to
`z - 2 ^ f * z_h` and the high bits to the truncated product `z_h`.
-/

namespace EdaBitGen

open Interaction Party

variable {M D G H K : Type} {p : ℕ} [Fact p.Prime]

def twoToThe (p f : ℕ) : ZMod p := (fun res => res * (1 + 1))^[f] 1

/-- How many buckets check a number of conversions. -/
def bestBuckets (numConversions : ℕ) : ℕ :=
  if numConversions < 10322 then 5 else if numConversions < 1048576 then 4 else 3

def selectBestCutAndChooseParameters {σ : Type} (numConversions : ℕ) : Party M G σ (ℕ × ℕ) := do
  assert (1024 ≤ numConversions) "assertion failed: num_conversions >= 1024"
  pure (bestBuckets numConversions, bestBuckets numConversions)

/-! ## The prover -/

namespace ProverConv

/-- A product and its bits. -/
abbrev Product (K : Type) (p : ℕ) := MacProver (ZMod p) (ZMod p) × List (MacProver F2 K)

def lowPart (f : ℕ) (t : TripleProver (ZMod p) (ZMod p)) (z : Product K p) :
    EdabitsProver K (ZMod p) :=
  ⟨z.2.take f, FComProver.sub z.1 (FComProver.affineMultCst (twoToThe p f) t.2.2)⟩

def highPart (f : ℕ) (t : TripleProver (ZMod p) (ZMod p)) (z : Product K p) :
    EdabitsProver K (ZMod p) :=
  ⟨z.2.drop f, t.2.2⟩

def zeroOf (f : ℕ) (t : TripleProver (ZMod p) (ZMod p)) (z : Product K p) :
    MacProver (ZMod p) (ZMod p) :=
  FComProver.sub (FComProver.sub z.1 (lowPart f t z).value)
    (FComProver.affineMultCst (twoToThe p f) t.2.2)

def productOf (t : TripleProver (ZMod p) (ZMod p)) (z : Product K p) :
    TripleProver (ZMod p) (ZMod p) :=
  (t.1, t.2.1, z.1)

variable [Field K] [Algebra F2 K] [CanonicalSerialize M F2] [CanonicalSerialize M (ZMod p)]

def commitProduct (bitSize : ℕ) (t : TripleProver (ZMod p) (ZMod p)) :
    Party M G (ProverConv K (ZMod p)) (Product K p) := do
  let zVal := t.1.value * t.2.1.value
  let zMac ← zoom fe (FComProver.input1 zVal)
  let zBits := ((bitDecomposition zVal).take bitSize).map f2OfBool
  let zBitsMacs ← zoom f2 (FComProver.input zBits)
  pure (⟨zVal, zMac⟩, List.zipWith MacProver.mk zBits zBitsMacs)

variable [FiniteField F2 K] [DecidableEq K] [CanonicalSerialize M K] [CanonicalSerialize M Block]
  [Random D F2] [Random D K] [Random D (ZMod p)] [Random D Block] [GenRange D]
  (C : Primitives M D)

def verifyConversions (edabitsVector : List (EdabitsProver K (ZMod p))) :
    Party M (Stream' D) (ProverConv K (ZMod p)) Unit := do
  let (numBuckets, numCut) ← selectBestCutAndChooseParameters edabitsVector.length
  conv C numBuckets numCut edabitsVector (none : Option (List Unit))

def verifyFpMult (fpmTuples : List (TripleProver (ZMod p) (ZMod p))) (k f : ℕ) :
    Party M (Stream' D) (ProverConv K (ZMod p)) Unit := do
  if fpmTuples.isEmpty then
    pure ()
  else
    assert (1024 ≤ fpmTuples.length) "assertion failed: num_fpmts >= 1024"
    let zs ← fpmTuples.mapM (commitProduct (k + 2 * f))
    flush
    zoom fe (FComProver.quicksilverCheckMultiply (List.zipWith productOf fpmTuples zs))
    verifyConversions C (List.zipWith (lowPart f) fpmTuples zs)
    verifyConversions C (List.zipWith (highPart f) fpmTuples zs)
    zoom fe (FComProver.checkZero C (List.zipWith (zeroOf f) fpmTuples zs))

end ProverConv

/-! ## The verifier -/

namespace VerifierConv

abbrev Product (K : Type) (p : ℕ) := MacVerifier (ZMod p) × List (MacVerifier K)

def lowPart (f : ℕ) (t : TripleVerifier (ZMod p)) (z : Product K p) :
    EdabitsVerifier K (ZMod p) :=
  ⟨z.2.take f, FComVerifier.sub z.1 (FComVerifier.affineMultCst (twoToThe p f) t.2.2)⟩

def highPart (f : ℕ) (t : TripleVerifier (ZMod p)) (z : Product K p) :
    EdabitsVerifier K (ZMod p) :=
  ⟨z.2.drop f, t.2.2⟩

def zeroOf (f : ℕ) (t : TripleVerifier (ZMod p)) (z : Product K p) : MacVerifier (ZMod p) :=
  FComVerifier.sub (FComVerifier.sub z.1 (lowPart f t z).value)
    (FComVerifier.affineMultCst (twoToThe p f) t.2.2)

def productOf (t : TripleVerifier (ZMod p)) (z : Product K p) : TripleVerifier (ZMod p) :=
  (t.1, t.2.1, z.1)

variable [Field K] [Algebra F2 K] [CanonicalSerialize M F2] [CanonicalSerialize M (ZMod p)]

def commitProduct (bitSize : ℕ) : Party M G (VerifierConv K (ZMod p)) (Product K p) := do
  let z ← zoom fe (FComVerifier.input1 (ZMod p))
  let zBits ← zoom f2 (FComVerifier.input F2 bitSize)
  pure (z, zBits)

variable [FiniteField F2 K] [DecidableEq K] [CanonicalSerialize M K] [CanonicalSerialize M Block]
  [Random D F2] [Random D K] [Random D (ZMod p)] [Random D Block] [GenRange D]
  (C : Primitives M D)

def verifyConversions (edabitsVector : List (EdabitsVerifier K (ZMod p))) :
    Party M (Stream' D) (VerifierConv K (ZMod p)) Unit := do
  let (numBuckets, numCut) ← selectBestCutAndChooseParameters edabitsVector.length
  conv C numBuckets numCut edabitsVector (none : Option (List Unit))

def verifyFpMult (fpmTuples : List (TripleVerifier (ZMod p))) (k f : ℕ) :
    Party M (Stream' D) (VerifierConv K (ZMod p)) Unit := do
  if fpmTuples.isEmpty then
    pure ()
  else
    assert (1024 ≤ fpmTuples.length) "assertion failed: num_fpmts >= 1024"
    let zs ← fpmTuples.mapM fun _ => commitProduct (k + 2 * f)
    zoom fe (FComVerifier.quicksilverCheckMultiply (ZMod p) (List.zipWith productOf fpmTuples zs))
    verifyConversions C (List.zipWith (lowPart f) fpmTuples zs)
    verifyConversions C (List.zipWith (highPart f) fpmTuples zs)
    zoom fe (FComVerifier.checkZero C (List.zipWith (zeroOf f) fpmTuples zs))

end VerifierConv

/-! ## The parts of a product -/

theorem twoToThe_eq (p f : ℕ) : twoToThe p f = ((2 ^ f : ℕ) : ZMod p) := by
  induction f with
  | zero => simp [twoToThe]
  | succ f ih =>
    rw [twoToThe, Function.iterate_succ_apply', ← twoToThe, ih, pow_succ]
    push_cast
    ring

/-- The honest truncation of a product. -/
structure Truncates (k f : ℕ) (t : TripleProver (ZMod p) (ZMod p)) : Prop where
  lt_two_pow : t.1.value.val * t.2.1.value.val < 2 ^ (k + 2 * f)
  lt_modulus : t.1.value.val * t.2.1.value.val < p
  truncated : t.2.2.value.val = t.1.value.val * t.2.1.value.val / 2 ^ f

/-- A committed product with its bits. -/
structure IsProduct (w : ℕ) (t : TripleProver (ZMod p) (ZMod p)) (z : ProverConv.Product K p) :
    Prop where
  value : z.1.value = t.1.value * t.2.1.value
  length : z.2.length = w
  bits : Bits.toNat (z.2.map MacProver.value) = (t.1.value * t.2.1.value).val % 2 ^ w

section Parts

variable {k f : ℕ} {t : TripleProver (ZMod p) (ZMod p)} {z : ProverConv.Product K p}

theorem Truncates.val_mul (h : Truncates k f t) :
    (t.1.value * t.2.1.value).val = t.1.value.val * t.2.1.value.val := by
  rw [ZMod.val_mul, Nat.mod_eq_of_lt h.lt_modulus]

theorem value_lowPart (hz : z.1.value = t.1.value * t.2.1.value) :
    (ProverConv.lowPart f t z).value.value =
      t.1.value * t.2.1.value - ((2 ^ f : ℕ) : ZMod p) * t.2.2.value := by
  rw [ProverConv.lowPart, FComProver.sub, FComProver.affineMultCst, hz, twoToThe_eq]

theorem consistent_parts (h : Truncates k f t) (hz : IsProduct (k + 2 * f) t z) :
    ((ProverConv.lowPart f t z).Consistent ∧ (ProverConv.lowPart f t z).bits.length = f) ∧
      (ProverConv.highPart f t z).Consistent ∧
        (ProverConv.highPart f t z).bits.length = k + f := by
  have hval := h.val_mul
  have hbits : Bits.toNat (z.2.map MacProver.value) = t.1.value.val * t.2.1.value.val := by
    rw [hz.bits, hval, Nat.mod_eq_of_lt h.lt_two_pow]
  have hle : f ≤ (z.2.map MacProver.value).length := by
    rw [List.length_map, hz.length]
    omega
  obtain ⟨hlow, hhigh⟩ := Bits.toNat_take_drop hle
  have hzh : t.2.2.value = ((t.1.value.val * t.2.1.value.val / 2 ^ f : ℕ) : ZMod p) := by
    rw [← h.truncated, ZMod.natCast_zmod_val]
  refine ⟨⟨?_, ?_⟩, ?_, ?_⟩
  · rw [EdabitsProver.Consistent, convertBitsToFieldMac_eq, value_lowPart hz.value,
      ProverConv.lowPart, List.map_take, hlow, hbits, hzh]
    have hxy : t.1.value * t.2.1.value =
        ((t.1.value.val * t.2.1.value.val : ℕ) : ZMod p) := by
      rw [← hval, ZMod.natCast_zmod_val]
    rw [hxy, sub_eq_iff_eq_add, ← Nat.cast_mul, ← Nat.cast_add, Nat.mod_add_div]
  · rw [ProverConv.lowPart, List.length_take, hz.length]
    omega
  · rw [EdabitsProver.Consistent, convertBitsToFieldMac_eq, ProverConv.highPart, List.map_drop,
      hhigh, hbits, hzh]
  · rw [ProverConv.highPart, List.length_drop, hz.length]
    omega

theorem value_zeroOf : (ProverConv.zeroOf f t z).value = 0 := by
  simp [ProverConv.zeroOf, ProverConv.lowPart, FComProver.sub, FComProver.affineMultCst]

theorem truncated_of_parts (hp : 2 ^ (k + 2 * f) ≤ p)
    (hlt : t.1.value.val * t.2.1.value.val < p) (hlen : z.2.length = k + 2 * f)
    (hz : z.1.value = t.1.value * t.2.1.value) (hlow : (ProverConv.lowPart f t z).Consistent)
    (hhigh : (ProverConv.highPart f t z).Consistent) :
    t.2.2.value.val = t.1.value.val * t.2.1.value.val / 2 ^ f := by
  set bits := z.2.map MacProver.value with hbits
  have hlen' : bits.length = k + 2 * f := by rw [hbits, List.length_map, hlen]
  have hle : f ≤ bits.length := by omega
  obtain ⟨htake, hdrop⟩ := Bits.toNat_take_drop hle
  have hltN : Bits.toNat bits < 2 ^ (k + 2 * f) := hlen' ▸ Bits.toNat_lt bits
  rw [EdabitsProver.Consistent, convertBitsToFieldMac_eq, value_lowPart hz, ProverConv.lowPart,
    List.map_take, htake] at hlow
  rw [EdabitsProver.Consistent, convertBitsToFieldMac_eq, ProverConv.highPart, List.map_drop,
    hdrop] at hhigh
  have hsum : t.1.value * t.2.1.value = ((Bits.toNat bits : ℕ) : ZMod p) := by
    rw [sub_eq_iff_eq_add.1 hlow, hhigh, ← Nat.cast_mul, ← Nat.cast_add, Nat.mod_add_div]
  have hN : t.1.value.val * t.2.1.value.val = Bits.toNat bits := by
    have hcast := congrArg ZMod.val hsum
    rwa [ZMod.val_mul, Nat.mod_eq_of_lt hlt, ZMod.val_natCast_of_lt (hltN.trans_le hp)] at hcast
  rw [hN, hhigh, ZMod.val_natCast_of_lt]
  exact (Nat.div_le_self _ _).trans_lt (hltN.trans_le hp)

theorem truncated_of_zero (hlt : t.1.value.val * t.2.1.value.val < p)
    (hz : z.1.value = t.1.value * t.2.1.value) (hlow : (ProverConv.lowPart 0 t z).Consistent) :
    t.2.2.value.val = t.1.value.val * t.2.1.value.val / 2 ^ 0 := by
  rw [EdabitsProver.Consistent, convertBitsToFieldMac_eq, value_lowPart hz] at hlow
  have heq : t.2.2.value = t.1.value * t.2.1.value := by
    simpa [ProverConv.lowPart, sub_eq_zero, eq_comm] using hlow
  rw [heq, ZMod.val_mul, Nat.mod_eq_of_lt hlt, pow_zero, Nat.div_one]

end Parts

/-! ## Both sides in step -/

theorem forall_mem_zipWith {A B T : Type} {R : A → B → Prop} {F : A → B → T} {Q : T → Prop}
    {as : List A} {bs : List B} (h : List.Forall₂ R as bs) (hQ : ∀ a b, R a b → Q (F a b)) :
    ∀ c ∈ List.zipWith F as bs, Q c := by
  induction h with
  | nil => simp
  | cons hab _ ih => exact List.forall_mem_cons.2 ⟨hQ _ _ hab, ih⟩

section Keys

theorem zipWith_keys (Δₑ : ZMod p) {α β : Type}
    {F : TripleProver (ZMod p) (ZMod p) → ProverConv.Product K p → α}
    {V : TripleVerifier (ZMod p) → VerifierConv.Product K p → β} {key : α → β}
    {keys : ProverConv.Product K p → VerifierConv.Product K p}
    (h : ∀ t z, V (TripleProver.keys Δₑ t) (keys z) = key (F t z))
    (ts : List (TripleProver (ZMod p) (ZMod p))) (zs : List (ProverConv.Product K p)) :
    List.zipWith V (ts.map (TripleProver.keys Δₑ)) (zs.map keys) =
      (List.zipWith F ts zs).map key := by
  rw [List.zipWith_map, List.map_zipWith]
  simp only [h]

variable [Field K] [Algebra F2 K] (Δ₂ : K) (Δₑ : ZMod p) {f : ℕ}

/-- The keys of a product and its bits. -/
def ProverConv.Product.keys (z : ProverConv.Product K p) : VerifierConv.Product K p :=
  (z.1.key Δₑ, z.2.map (MacProver.key Δ₂))

theorem keys_lowPart (t : TripleProver (ZMod p) (ZMod p)) (z : ProverConv.Product K p) :
    VerifierConv.lowPart f (TripleProver.keys Δₑ t) (z.keys Δ₂ Δₑ) =
      (ProverConv.lowPart f t z).keys Δ₂ Δₑ := by
  simp [VerifierConv.lowPart, ProverConv.lowPart, ProverConv.Product.keys, EdabitsProver.keys,
    TripleProver.keys, List.map_take]

theorem keys_highPart (t : TripleProver (ZMod p) (ZMod p)) (z : ProverConv.Product K p) :
    VerifierConv.highPart f (TripleProver.keys Δₑ t) (z.keys Δ₂ Δₑ) =
      (ProverConv.highPart f t z).keys Δ₂ Δₑ := by
  simp [VerifierConv.highPart, ProverConv.highPart, ProverConv.Product.keys, EdabitsProver.keys,
    TripleProver.keys, List.map_drop]

theorem keys_productOf (t : TripleProver (ZMod p) (ZMod p)) (z : ProverConv.Product K p) :
    VerifierConv.productOf (TripleProver.keys Δₑ t) (z.keys Δ₂ Δₑ) =
      TripleProver.keys Δₑ (ProverConv.productOf t z) := rfl

theorem keys_zeroOf (t : TripleProver (ZMod p) (ZMod p)) (z : ProverConv.Product K p) :
    VerifierConv.zeroOf f (TripleProver.keys Δₑ t) (z.keys Δ₂ Δₑ) =
      (ProverConv.zeroOf f t z).key Δₑ := by
  simp [VerifierConv.zeroOf, ProverConv.zeroOf, VerifierConv.lowPart, ProverConv.lowPart,
    ProverConv.Product.keys, TripleProver.keys]

end Keys

section Input

variable [Field K] [Algebra F2 K] [CanonicalSerialize M F2]

theorem FComProver.input_apply (x : List F2) (s : FComProver F2 K) :
    ∃ (ys : List F2) (ms : List K) (s' : FComProver F2 K), ys.length = x.length ∧
      ∀ g, (FComProver.input x : Party M G _ _) s g =
        Proc.send (CanonicalSerialize.seqToMsg ys) (Proc.pure ((ms, s'), g)) := by
  obtain ⟨rs, s', hlength, hrs⟩ := Silent.mapM (M := M) (G := G)
    (f := fun xi => do
      let r ← (FComProver.random : Party M G (FComProver F2 K) _)
      pure (r.mac, xi - r.value))
    (fun xi s => ⟨_, _, (silent_random (H := G) s).1.bind Silent.pure⟩) x s
  refine ⟨rs.map Prod.snd, [] ++ rs.map Prod.fst, s', by rw [List.length_map, hlength], fun g => ?_⟩
  rw [FComProver.input, FComProver.inputLowLevel, bind_apply, hrs g]
  rfl

theorem FComVerifier.length_of_run_input {n : ℕ} {s s' : FComVerifier K} {g g' : G} {ys : List F2}
    {inbox rest : List M} {ks : List (MacVerifier K)}
    (h : Proc.run ((FComVerifier.input F2 n : Party M G (FComVerifier K) _) s g)
      (CanonicalSerialize.seqToMsg ys :: inbox) = some (((ks, s'), g'), rest)) : ys.length = n := by
  have hrandom : ∀ (_ : ℕ) (s : FComVerifier K), ∃ v s',
      Silent (FComVerifier.random : Party M G (FComVerifier K) _) s v s' := fun _ s => by
    unfold FComVerifier.random
    rw [popVole_eq]
    exact ⟨_, _, (Silent.act Pool.draw).zoom⟩
  obtain ⟨vs, s₁, -, hvs⟩ := Silent.mapM hrandom (List.range n) s
  rw [FComVerifier.input, FComVerifier.inputLowLevel, assert_true rfl, pure_bind,
    hvs.run_bind] at h
  obtain ⟨corrections, s₂, g₂, mid, hread, -⟩ := run_bind_eq_some.1 h
  rw [readSerializableSeq, bind_apply, read_apply, Proc.recv_bind, Proc.run_recv_cons,
    Proc.pure_bind'] at hread
  simp only [CanonicalSerialize.seqOfMsg_seqToMsg] at hread
  obtain ⟨u, s₃, g₃, mid', hassert, -⟩ := run_bind_eq_some.1 hread
  exact (run_assert_eq_some.1 hassert).1

omit [Fact p.Prime] in
theorem length_of_lockstep_input {α β : Type} {n : ℕ} {x : List F2}
    {f : List K → Party M G (ProverConv K (ZMod p)) α}
    {f' : List (MacVerifier K) → Party M H (VerifierConv K (ZMod p)) β}
    {s : ProverConv K (ZMod p)} {t : VerifierConv K (ZMod p)} {g : G} {h : H}
    {R : (α × ProverConv K (ZMod p)) × G → (β × VerifierConv K (ZMod p)) × H → Prop}
    (hrun : Lockstep ((zoom ProverConv.f2 (FComProver.input x) >>= f) s g)
      ((zoom VerifierConv.f2 (FComVerifier.input F2 n) >>= f') t h) R) : x.length = n := by
  obtain ⟨l, r, a, ⟨⟨b, t'⟩, h'⟩, hjoint, -⟩ := hrun
  obtain ⟨ys, ms, s', hlength, hsend⟩ := FComProver.input_apply (M := M) (G := G) x
    (ProverConv.f2.get s)
  have hsent := Proc.joint_sent_left hjoint
  rw [bind_apply, zoom_apply, hsend g] at hsent
  obtain ⟨ks, t₁, h₁, mid, hinput, -⟩ := run_bind_eq_some.1 (Proc.joint_run_right hjoint)
  rw [← hsent] at hinput
  obtain ⟨t₂, hverifier, -⟩ := run_zoom_eq_some.1 hinput
  rw [← hlength]
  exact FComVerifier.length_of_run_input hverifier

end Input

section Step

variable [Field K] [Algebra F2 K] [CanonicalSerialize M F2] [CanonicalSerialize M (ZMod p)]
  {Δ₂ : K} {Δₑ : ZMod p} {k f w : ℕ}

theorem sync_commitProduct (hw : w ≤ numberOfBits p) (t : TripleProver (ZMod p) (ZMod p)) :
    Sync (ConvCorrelated Δ₂ Δₑ)
      (ProverConv.commitProduct w t : Party M G (ProverConv K (ZMod p)) _)
      (VerifierConv.commitProduct w : Party M H (VerifierConv K (ZMod p)) _)
      fun z ks => ks = z.keys Δ₂ Δₑ ∧ IsProduct w t z := by
  unfold ProverConv.commitProduct VerifierConv.commitProduct
  refine (sync_fe (sync_input1 _)).bind fun m kz hkz => ?_
  have hle : w ≤ ((bitDecomposition (t.1.value * t.2.1.value)).map f2OfBool).length := by
    rwa [List.length_map, length_bitDecomposition]
  have hlength : (((bitDecomposition (t.1.value * t.2.1.value)).take w).map f2OfBool).length =
      w := by
    rw [List.map_take, List.length_take, min_eq_left hle]
  refine (sync_inputF2 _ hlength).bind fun ms ks hms => Sync.pure ?_
  obtain ⟨hms, rfl⟩ := hms
  refine ⟨by rw [hkz]; rfl, rfl, ?_, ?_⟩
  · rw [List.length_zipWith, hms, hlength, min_self]
  · rw [values_zipWith_mk (by rw [hms, hlength]), List.map_take, (Bits.toNat_take_drop hle).1,
      toNat_bitDecomposition]

variable [FiniteField F2 K] [DecidableEq K] [CanonicalSerialize M K] [CanonicalSerialize M Block]
  [Random D F2] [Random D K] [Random D (ZMod p)] [Random D Block] [GenRange D]
  (C : Primitives M D)

/-- The batches that are neither too small nor too large for the check of their dabits. -/
structure FpBatch (p num : ℕ) : Prop where
  length : 1024 ≤ num
  parameters : checkParameters p (num * bestBuckets num) (fdabitGamma (num * bestBuckets num))

theorem sync_verifyConversions {m : ℕ} {edabits : List (EdabitsProver K (ZMod p))}
    (hbatch : FpBatch p edabits.length) (he : ∀ x ∈ edabits, x.Consistent ∧ x.bits.length = m) :
    Sync (ConvCorrelated Δ₂ Δₑ)
      (ProverConv.verifyConversions C edabits : Party M (Stream' D) (ProverConv K (ZMod p)) Unit)
      (VerifierConv.verifyConversions C (edabits.map (EdabitsProver.keys Δ₂ Δₑ)) :
        Party M (Stream' D) (VerifierConv K (ZMod p)) Unit) fun _ _ => True := by
  obtain ⟨hlength, hparameters⟩ := hbatch
  have hbuckets : 0 < bestBuckets edabits.length := by
    unfold bestBuckets
    split_ifs <;> norm_num
  unfold ProverConv.verifyConversions VerifierConv.verifyConversions
    selectBestCutAndChooseParameters
  rw [List.length_map, assert_true hlength, assert_true hlength]
  simp only [pure_bind]
  exact sync_conv C _ none he (by omega) hbuckets hparameters

theorem sync_verifyFpMult (hw : k + 2 * f ≤ numberOfBits p)
    {ts : List (TripleProver (ZMod p) (ZMod p))} (hts : ts = [] ∨ FpBatch p ts.length)
    (h : ∀ t ∈ ts, Truncates k f t) :
    Sync (ConvCorrelated Δ₂ Δₑ)
      (ProverConv.verifyFpMult C ts k f : Party M (Stream' D) (ProverConv K (ZMod p)) Unit)
      (VerifierConv.verifyFpMult C (ts.map (TripleProver.keys Δₑ)) k f :
        Party M (Stream' D) (VerifierConv K (ZMod p)) Unit) fun _ _ => True := by
  unfold ProverConv.verifyFpMult VerifierConv.verifyFpMult
  rw [List.isEmpty_map, List.length_map]
  rcases hts with rfl | hbatch
  · exact Sync.pure trivial
  have hne : ¬ts.isEmpty = true := by
    rw [List.isEmpty_iff]
    rintro rfl
    exact absurd hbatch.length (by simp)
  rw [if_neg hne, if_neg hne]
  refine Sync.assert_left hbatch.length (Sync.assert_right hbatch.length ?_)
  have hpairs : List.Forall₂ (fun t _ => Truncates k f t) ts
      (ts.map (TripleProver.keys Δₑ)) :=
    List.forall₂_map_right_iff.2 (List.forall₂_same.2 h)
  refine (Sync.mapM_zipWith (F := fun _ => ProverConv.Product.keys Δ₂ Δₑ)
    (S := fun t z => Truncates k f t ∧ IsProduct (k + 2 * f) t z)
    (fun t _ ht => (sync_commitProduct hw t).mono fun z ks hz => ⟨hz.1, ht, hz.2⟩)
    hpairs).bind fun zs ks hzs => ?_
  obtain ⟨rfl, hproducts⟩ := hzs
  have hlength : zs.length = ts.length := hproducts.length_eq.symm
  rw [zipWith_snd _ hproducts, zipWith_keys Δₑ (keys_productOf Δ₂ Δₑ),
    zipWith_keys Δₑ (keys_lowPart Δ₂ Δₑ), zipWith_keys Δₑ (keys_highPart Δ₂ Δₑ),
    zipWith_keys Δₑ (keys_zeroOf Δ₂ Δₑ)]
  have hmul := forall_mem_zipWith (F := ProverConv.productOf)
    (Q := fun t => t.2.2.value = t.1.value * t.2.1.value) hproducts fun t z h => h.2.value
  have hlow := forall_mem_zipWith (F := ProverConv.lowPart f)
    (Q := fun e => e.Consistent ∧ e.bits.length = f) hproducts
    fun t z h => (consistent_parts h.1 h.2).1
  have hhigh := forall_mem_zipWith (F := ProverConv.highPart f)
    (Q := fun e => e.Consistent ∧ e.bits.length = k + f) hproducts
    fun t z h => (consistent_parts h.1 h.2).2
  have hzero := forall_mem_zipWith (F := ProverConv.zeroOf f) (Q := fun m => m.value = 0) hproducts
    fun _ _ _ => value_zeroOf
  refine Sync.flush_left ((sync_fe (sync_quicksilverCheckMultiply hmul)).bind fun _ _ _ => ?_)
  refine (sync_verifyConversions C (by simpa [hlength] using hbatch) hlow).bind fun _ _ _ => ?_
  refine (sync_verifyConversions C (by simpa [hlength] using hbatch) hhigh).bind fun _ _ _ => ?_
  exact sync_fe (sync_checkZero C hzero)

theorem width_of_sync {t : TripleProver (ZMod p) (ZMod p)}
    {ts : List (TripleProver (ZMod p) (ZMod p))} {post : Unit → Unit → Prop}
    (hsync : Sync (ConvCorrelated Δ₂ Δₑ)
      (ProverConv.verifyFpMult C (t :: ts) k f :
        Party M (Stream' D) (ProverConv K (ZMod p)) Unit)
      (VerifierConv.verifyFpMult C ((t :: ts).map (TripleProver.keys Δₑ)) k f :
        Party M (Stream' D) (VerifierConv K (ZMod p)) Unit) post)
    (hlength : 1024 ≤ (t :: ts).length) : k + 2 * f ≤ numberOfBits p := by
  obtain ⟨d, -⟩ := Random.random_surjective (D := D) (0 : K)
  let s : ProverConv K (ZMod p) := ⟨⟨⟨.const ⟨[⟨0, 0⟩], by simp⟩, [], ⟨0, 0⟩⟩⟩,
    ⟨⟨.const ⟨[⟨0, 0⟩], by simp⟩, [], ⟨0, 0⟩⟩⟩⟩
  have hrun := hsync s _ rfl (Stream'.const d) (Stream'.const d)
  have hlength' : 1024 ≤ ((t :: ts).map (TripleProver.keys Δₑ)).length := by
    rwa [List.length_map]
  unfold ProverConv.verifyFpMult VerifierConv.verifyFpMult at hrun
  rw [assert_true hlength, assert_true hlength', List.map_cons, List.isEmpty_cons,
    List.isEmpty_cons, if_neg Bool.false_ne_true, if_neg Bool.false_ne_true, pure_bind, pure_bind,
    List.mapM_cons, List.mapM_cons, ProverConv.commitProduct, VerifierConv.commitProduct] at hrun
  simp only [bind_assoc] at hrun
  obtain ⟨l, r, a, b, -, -, hrest⟩ := Lockstep.bind_iff
    (sync_fe (sync_input1 (M := M) (t.1.value * t.2.1.value)) s (s.keys Δ₂ Δₑ) rfl (Stream'.const d)
      (Stream'.const d))
  have hinput := length_of_lockstep_input ((hrest _).1 hrun)
  rw [List.length_map, List.length_take, length_bitDecomposition] at hinput
  omega

end Step

/-! ## The property -/

/-- The verifier checks the keys of what the prover proves, honest truncations pass on both sides,
and of the committed products that satisfy what the four checks assert, each has the truncated
product for its result. -/
structure FpMultExact (M D : Type) (p : ℕ) [Fact p.Prime] (K : Type) [Field K] [Algebra F2 K]
    [FiniteField F2 K] [DecidableEq K] [CanonicalSerialize M F2] [CanonicalSerialize M (ZMod p)]
    [CanonicalSerialize M K] [CanonicalSerialize M Block] [Random D F2] [Random D K]
    [Random D (ZMod p)] [Random D Block] [GenRange D] (C : Primitives M D) (k f : ℕ) : Prop where
  same : ∀ (Δ₂ : K) (Δₑ : ZMod p) (t : TripleProver (ZMod p) (ZMod p))
    (z : ProverConv.Product K p),
    VerifierConv.productOf (TripleProver.keys Δₑ t) (z.keys Δ₂ Δₑ) =
        TripleProver.keys Δₑ (ProverConv.productOf t z) ∧
      VerifierConv.lowPart f (TripleProver.keys Δₑ t) (z.keys Δ₂ Δₑ) =
        (ProverConv.lowPart f t z).keys Δ₂ Δₑ ∧
      VerifierConv.highPart f (TripleProver.keys Δₑ t) (z.keys Δ₂ Δₑ) =
        (ProverConv.highPart f t z).keys Δ₂ Δₑ ∧
      VerifierConv.zeroOf f (TripleProver.keys Δₑ t) (z.keys Δ₂ Δₑ) =
        (ProverConv.zeroOf f t z).key Δₑ
  complete : ∀ (Δ₂ : K) (Δₑ : ZMod p) (ts : List (TripleProver (ZMod p) (ZMod p))),
    (ts = [] ∨ FpBatch p ts.length) → (∀ t ∈ ts, Truncates k f t) →
    Sync (ConvCorrelated Δ₂ Δₑ)
      (ProverConv.verifyFpMult C ts k f : Party M (Stream' D) (ProverConv K (ZMod p)) Unit)
      (VerifierConv.verifyFpMult C (ts.map (TripleProver.keys Δₑ)) k f :
        Party M (Stream' D) (VerifierConv K (ZMod p)) Unit) fun _ _ => True
  sound : ∀ (t : TripleProver (ZMod p) (ZMod p)) (z : ProverConv.Product K p),
    t.1.value.val * t.2.1.value.val < 2 ^ (k + 2 * f) → t.1.value.val * t.2.1.value.val < p →
    z.2.length = k + 2 * f → z.1.value = t.1.value * t.2.1.value →
    (ProverConv.lowPart f t z).Consistent → (ProverConv.highPart f t z).Consistent →
    (ProverConv.zeroOf f t z).value = 0 →
    t.2.2.value.val = t.1.value.val * t.2.1.value.val / 2 ^ f

theorem exists_multiple {k f : ℕ} (hf : f ≠ 0) (hp : p < 2 ^ (k + 2 * f)) :
    ∃ N < 2 ^ (k + 2 * f), p ∣ N ∧ ¬p ∣ N / 2 ^ f := by
  have hpos : 0 < p := (Fact.out : p.Prime).pos
  have htwo : 2 ≤ 2 ^ f := by
    calc 2 = 2 ^ 1 := (pow_one 2).symm
      _ ≤ 2 ^ f := Nat.pow_le_pow_right (by norm_num) (by omega)
  by_cases hle : 2 ^ f ≤ p
  · refine ⟨p, hp, dvd_rfl, fun hdvd => ?_⟩
    have hquotient : 0 < p / 2 ^ f := Nat.div_pos hle (by omega)
    exact absurd (Nat.le_of_dvd hquotient hdvd) (not_le.2 (Nat.div_lt_self hpos htwo))
  · -- the first multiple above `2 ^ f`
    have hlow := Nat.lt_mul_div_succ (2 ^ f) hpos
    have hhigh : p * (2 ^ f / p + 1) ≤ 2 ^ f + p := by
      rw [Nat.mul_add, Nat.mul_one]
      exact Nat.add_le_add_right (Nat.mul_div_le _ _) p
    have hdouble : 2 * 2 ^ f ≤ 2 ^ (k + 2 * f) := by
      rw [← pow_succ']
      exact Nat.pow_le_pow_right (by norm_num) (by omega)
    refine ⟨p * (2 ^ f / p + 1), by omega, dvd_mul_right _ _, ?_⟩
    rw [Nat.div_eq_of_lt_le (by omega : 1 * 2 ^ f ≤ _) (by omega), Nat.dvd_one]
    exact (Fact.out : p.Prime).one_lt.ne'

variable [Field K] [Algebra F2 K] [FiniteField F2 K] [DecidableEq K] [CanonicalSerialize M F2]
  [CanonicalSerialize M (ZMod p)] [CanonicalSerialize M K] [CanonicalSerialize M Block]
  [Random D F2] [Random D K] [Random D (ZMod p)] [Random D Block] [GenRange D]
  {C : Primitives M D} {k f : ℕ}

theorem not_fpMultExact (hf : f ≠ 0) (hp : p < 2 ^ (k + 2 * f)) :
    ¬FpMultExact M D p K C k f := by
  intro hexact
  obtain ⟨N, hN, hdvd, hndvd⟩ := exists_multiple hf hp
  let t : TripleProver (ZMod p) (ZMod p) := (⟨0, 0⟩, ⟨0, 0⟩, ⟨((N / 2 ^ f : ℕ) : ZMod p), 0⟩)
  let z : ProverConv.Product K p :=
    (⟨0, 0⟩, (Bits.ofNat (k + 2 * f) N).map fun b => ⟨b, 0⟩)
  have hvalues : z.2.map MacProver.value = Bits.ofNat (k + 2 * f) N := by
    rw [List.map_map]
    exact List.map_id _
  have hbits : Bits.toNat (z.2.map MacProver.value) = N := by
    rw [hvalues, Bits.toNat_ofNat, Nat.mod_eq_of_lt hN]
  have hle : f ≤ (z.2.map MacProver.value).length := by
    rw [hvalues, Bits.length_ofNat]
    omega
  obtain ⟨htake, hdrop⟩ := Bits.toNat_take_drop hle
  have hzero : (0 : ZMod p) * 0 = (0 : ZMod p) := mul_zero 0
  have hresult := hexact.sound t z (by simp [t]) (by simp [t, (Fact.out : p.Prime).pos])
    (by simp [z]) hzero.symm ?_ ?_ value_zeroOf
  · simp only [t, ZMod.val_zero, Nat.zero_mul, Nat.zero_div, ZMod.val_natCast] at hresult
    exact hndvd (Nat.dvd_of_mod_eq_zero hresult)
  · have hcast : ((N : ℕ) : ZMod p) = 0 := (ZMod.natCast_eq_zero_iff N p).2 hdvd
    rw [EdabitsProver.Consistent, convertBitsToFieldMac_eq, value_lowPart hzero.symm,
      ProverConv.lowPart, List.map_take, htake, hbits, sub_eq_iff_eq_add]
    rw [← Nat.cast_mul, ← Nat.cast_add, Nat.mod_add_div, hcast]
    exact hzero
  · rw [EdabitsProver.Consistent, convertBitsToFieldMac_eq, ProverConv.highPart, List.map_drop,
      hdrop, hbits]

/-- The check of truncated products is exact when the bits of a product cannot wrap around, and
without fraction bits as long as the field has as many bits as are read. -/
theorem fpMultExact_iff {num : ℕ} (hbatch : FpBatch p num) :
    FpMultExact M D p K C k f ↔ (f = 0 ∧ k ≤ numberOfBits p) ∨ 2 ^ (k + 2 * f) ≤ p := by
  constructor
  · intro hexact
    by_cases hf : f = 0
    · subst hf
      have hlength := hbatch.length
      obtain ⟨n, rfl⟩ : ∃ n, num = n + 1 := ⟨num - 1, by omega⟩
      let t : TripleProver (ZMod p) (ZMod p) := (⟨0, 0⟩, ⟨0, 0⟩, ⟨0, 0⟩)
      have hts : ∀ t' ∈ List.replicate (n + 1) t, Truncates k 0 t' := fun t' ht' => by
        rw [List.eq_of_mem_replicate ht']
        exact ⟨by simp [t], by simp [t, (Fact.out : p.Prime).pos], by simp [t]⟩
      have hsync := hexact.complete 0 0 (List.replicate (n + 1) t)
        (Or.inr (by rwa [List.length_replicate])) hts
      rw [List.replicate_succ] at hsync
      have hwidth := width_of_sync C hsync (by rwa [List.length_cons, List.length_replicate])
      exact Or.inl ⟨rfl, by omega⟩
    · right
      by_contra hlt
      exact not_fpMultExact hf (not_le.1 hlt) hexact
  · intro hfit
    have hw : k + 2 * f ≤ numberOfBits p := by
      rcases hfit with ⟨rfl, hk⟩ | hle
      · simpa using hk
      · exact (Nat.pow_le_pow_iff_right (by norm_num)).1
          (hle.trans (le_two_pow_numberOfBits p))
    constructor
    · exact fun Δ₂ Δₑ t z => ⟨keys_productOf Δ₂ Δₑ t z, keys_lowPart Δ₂ Δₑ t z,
        keys_highPart Δ₂ Δₑ t z, keys_zeroOf Δ₂ Δₑ t z⟩
    · exact fun Δ₂ Δₑ ts hts h => sync_verifyFpMult C hw hts h
    · intro t z _ hlt hlength hz hlow hhigh _
      rcases hfit with ⟨rfl, -⟩ | hle
      · exact truncated_of_zero hlt hz hlow
      · exact truncated_of_parts hle hlt hlength hz hlow hhigh

/-- Ten bits before the point and ten after it, on `F61p`. -/
theorem fpMultExact_ten :
    let C : Primitives (Msg F40b F61p) (Draw F40b F61p) :=
      ⟨fun _ => .const ⟨0, 0, 0, 0, 0⟩, fun _ => 0⟩
    FpBatch (2 ^ 61 - 1) 1024 ∧
      FpMultExact (Msg F40b F61p) (Draw F40b F61p) (2 ^ 61 - 1) F40b C 10 10 := by
  intro C
  have hbatch : FpBatch (2 ^ 61 - 1) 1024 := ⟨le_rfl, by decide⟩
  exact ⟨hbatch, (fpMultExact_iff hbatch).2 (Or.inr (by decide))⟩

/-- One bit before the point and thirty after it, on `F61p`: the bits of the modulus make the
product zero, with the result `2 ^ 31 - 1`. -/
theorem not_fpMultExact_thirty :
    let C : Primitives (Msg F40b F61p) (Draw F40b F61p) :=
      ⟨fun _ => .const ⟨0, 0, 0, 0, 0⟩, fun _ => 0⟩
    ¬FpMultExact (Msg F40b F61p) (Draw F40b F61p) (2 ^ 61 - 1) F40b C 1 30 :=
  not_fpMultExact (by decide) (by decide)

end EdaBitGen
