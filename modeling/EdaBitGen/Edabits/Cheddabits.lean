import EdaBitGen.Edabits.Completeness
import EdaBitGen.Scuttlebutt.Utils

/-!
# Dabits from masked combinations

The first version of the generation of dabits.  The prover adds random combinations of the dabits to
masks whose lowest bit is known on both sides, and opens the sums: no sum reaches the modulus, so
that the lowest bits of the sums are the sums of the bits.
-/

namespace EdaBitGen

open Interaction Party

def secParamKappa : ℕ := 42

def secParamSV1 : ℕ := 48

/-- The largest sum is a number of the field.  Of no dabit, the subtraction overflows. -/
def checkParamsV1 (p n : ℕ) : Prop :=
  0 < n ∧ n * (2 ^ secParamSV1 + 1) - 1 < p

instance (p n : ℕ) : Decidable (checkParamsV1 p n) := by
  unfold checkParamsV1
  infer_instance

/-- The first `size` bits, the lowest bit of each byte first. -/
def unpackBits (bytes : List (BitVec 8)) (size : ℕ) : List Bool :=
  (bytes.flatMap fun byte => (List.range 8).map byte.getLsbD).take size

def numChallengeBytes (n : ℕ) : ℕ := (n * secParamKappa + 7) / 8

section Assertions

variable {M G σ : Type} {p : ℕ}

/-- What both sides assert about a sum. -/
def checkCombination (n : ℕ) (a₂ : F2) (aₚ : ZMod p) : Party M G σ Unit := do
  assert (aₚ.val % 2 = a₂.val) "assertion failed: a_p as u8 & 1 == a_2"
  assert (n ≤ aₚ.val ∧ aₚ.val < 2 ^ secParamSV1 * n)
    "assertion failed: a_p >= n as u128 && a_p < (1 << SEC_PARAM_S_V1) * n as u128"

variable {n : ℕ}

theorem checkCombination_eq {a₂ : F2} {aₚ : ZMod p} (hparity : aₚ.val % 2 = a₂.val)
    (hrange : n ≤ aₚ.val ∧ aₚ.val < 2 ^ secParamSV1 * n) :
    (checkCombination n a₂ aₚ : Party M G σ Unit) = pure () := by
  rw [checkCombination, assert_true hparity, pure_bind, assert_true hrange]

end Assertions

section Model

variable {M D G K : Type} {p : ℕ} [Fact p.Prime] [Field K] [Algebra F2 K] [FiniteField F2 K]
  [DecidableEq K] [CanonicalSerialize M F2] [CanonicalSerialize M K]
  [CanonicalSerialize M (ZMod p)] [CanonicalSerialize M (BitVec 8)] [Random D K]
  [Random D (ZMod p)] [Random D (BitVec 8)] [GenRange D] (C : Primitives M D)

/-! ## The prover -/

namespace ProverConv

def genDabit : Party M G (ProverConv K (ZMod p)) (DabitProver K (ZMod p)) := do
  let db2 ← zoom f2 FComProver.random
  let dbp ← zoom fe FComProver.random
  let correction := if db2.value = 0 then dbp.value else dbp.value - 1
  let dbp := FComProver.affineAddCst (-correction) dbp
  assert (dbp.value.val = db2.value.val) "assertion failed: dbp.value() == db2.value()"
  writeSerializable correction
  pure ⟨db2, dbp⟩

/-- A random number below `n * 2 ^ 48`, its lowest bit replaced by the random bit. -/
def genMask (n : ℕ) :
    Party M (Stream' D) (ProverConv K (ZMod p)) (DabitProver K (ZMod p)) := do
  let drawn := GenRange.genRange (n * 2 ^ secParamSV1) (← draw)
  let m2 ← zoom f2 FComProver.random
  let mp ← zoom fe FComProver.random
  let mpValAsInt := drawn ^^^ ((1 &&& drawn % 2 ^ 8) ^^^ m2.value.val)
  assert (mpValAsInt < p) "field is large enough"
  let correction := mp.value - (mpValAsInt : ZMod p)
  let mp := FComProver.affineAddCst (-correction) mp
  assert (mp.value.val % 2 = m2.value.val) "assertion failed: mp.value() & 1 == m2.value()"
  writeSerializable correction
  pure ⟨m2, mp⟩

/-- The mask and the dabits that are chosen. -/
def combination (bits : List Bool) (dabits : List (DabitProver K (ZMod p)))
    (mask : DabitProver K (ZMod p)) : DabitProver K (ZMod p) :=
  (bits.zip dabits).foldl (fun acc d =>
    if d.1 then ⟨FComProver.add acc.bit d.2.bit, FComProver.add acc.value d.2.value⟩ else acc) mask

def combinations (n : ℕ) (challengeBits : List Bool)
    (dabits masks : List (DabitProver K (ZMod p))) : List (DabitProver K (ZMod p)) :=
  masks.mapIdx fun j mask => combination (challengeBits.drop (j * n)) dabits mask

/-- The dabits, the masks and the challenge. -/
def commitV1 (n : ℕ) : Party M (Stream' D) (ProverConv K (ZMod p))
    (List (DabitProver K (ZMod p)) × List (DabitProver K (ZMod p)) × List Bool) := do
  assert (checkParamsV1 p n) "assertion failed: check_params_v1::<FE>(n)"
  let dabits ← (List.range n).mapM fun _ => genDabit
  let masks ← (List.range secParamKappa).mapM fun _ => genMask n
  flush
  let challengeBytes ← readSerializableSeq (numChallengeBytes n)
  pure (dabits, masks, unpackBits challengeBytes (n * secParamKappa))

/-- A dabit is zero or one. -/
def binaryTriple (dbp : MacProver (ZMod p) (ZMod p)) : TripleProver (ZMod p) (ZMod p) :=
  (dbp, FComProver.neg (FComProver.affineAddCst (-1) dbp), ⟨0, 0⟩)

/-- The consistency check of the sums and the binary check of the dabits. -/
def checkV1 (n : ℕ) (dabits combos : List (DabitProver K (ZMod p))) :
    Party M (Stream' D) (ProverConv K (ZMod p)) (List (DabitProver K (ZMod p))) := do
  let _ ← combos.mapM fun c => checkCombination n c.bit.value c.value.value
  zoom f2 (FComProver.openMacs C (combos.map DabitProver.bit))
  zoom fe (FComProver.openMacs C (combos.map DabitProver.value))
  zoom fe do
    let _ ← FComProver.pushAndFinalize (dabits.map fun d => binaryTriple d.value)
  pure dabits

def genDabitsV1 (n : ℕ) :
    Party M (Stream' D) (ProverConv K (ZMod p)) (List (DabitProver K (ZMod p))) := do
  let (dabits, masks, challengeBits) ← commitV1 n
  checkV1 C n dabits (combinations n challengeBits dabits masks)

end ProverConv

/-! ## The verifier -/

namespace VerifierConv

def genDabit : Party M G (VerifierConv K (ZMod p)) (DabitVerifier K (ZMod p)) := do
  let db2 ← zoom f2 FComVerifier.random
  let dbp ← zoom fe FComVerifier.random
  let correction : ZMod p ← readSerializable
  let self ← get
  pure ⟨db2, self.fcomFe.affineAddCst (-correction) dbp⟩

def genMask : Party M G (VerifierConv K (ZMod p)) (DabitVerifier K (ZMod p)) := do
  let m2 ← zoom f2 FComVerifier.random
  let mp ← zoom fe FComVerifier.random
  let correction : ZMod p ← readSerializable
  let self ← get
  pure ⟨m2, self.fcomFe.affineAddCst (-correction) mp⟩

def combination (bits : List Bool) (dabits : List (DabitVerifier K (ZMod p)))
    (mask : DabitVerifier K (ZMod p)) : DabitVerifier K (ZMod p) :=
  (bits.zip dabits).foldl (fun acc d =>
    if d.1 then ⟨FComVerifier.add acc.bit d.2.bit, FComVerifier.add acc.value d.2.value⟩
    else acc) mask

def combinations (n : ℕ) (challengeBits : List Bool)
    (dabits masks : List (DabitVerifier K (ZMod p))) : List (DabitVerifier K (ZMod p)) :=
  masks.mapIdx fun j mask => combination (challengeBits.drop (j * n)) dabits mask

def commitV1 (n : ℕ) : Party M (Stream' D) (VerifierConv K (ZMod p))
    (List (DabitVerifier K (ZMod p)) × List (DabitVerifier K (ZMod p)) × List Bool) := do
  assert (checkParamsV1 p n) "assertion failed: check_params_v1::<FE>(n)"
  let dabits ← (List.range n).mapM fun _ => genDabit
  let masks ← (List.range secParamKappa).mapM fun _ => genMask
  let challengeBytes ← (List.range (numChallengeBytes n)).mapM fun _ => random (BitVec 8)
  writeSerializableSeq challengeBytes
  flush
  pure (dabits, masks, unpackBits challengeBytes (n * secParamKappa))

def binaryTriple (self : FComVerifier (ZMod p)) (dbp : MacVerifier (ZMod p)) :
    TripleVerifier (ZMod p) :=
  (dbp, FComVerifier.neg (self.affineAddCst (-1 : ZMod p) dbp), ⟨0⟩)

def checkV1 (n : ℕ) (dabits combos : List (DabitVerifier K (ZMod p))) :
    Party M (Stream' D) (VerifierConv K (ZMod p)) (List (DabitVerifier K (ZMod p))) := do
  let ds2 ← zoom f2 (FComVerifier.openMacs F2 C (combos.map DabitVerifier.bit))
  let dsp ← zoom fe (FComVerifier.openMacs (ZMod p) C (combos.map DabitVerifier.value))
  let _ ← (ds2.zip dsp).mapM fun d => checkCombination n d.1 d.2
  let self ← get
  zoom fe do
    let _ ← FComVerifier.pushAndFinalize (ZMod p)
      (dabits.map fun d => binaryTriple self.fcomFe d.value)
  pure dabits

def genDabitsV1 (n : ℕ) :
    Party M (Stream' D) (VerifierConv K (ZMod p)) (List (DabitVerifier K (ZMod p))) := do
  let (dabits, masks, challengeBits) ← commitV1 n
  checkV1 C n dabits (combinations n challengeBits dabits masks)

end VerifierConv

end Model

/-! ## The sums -/

theorem xor_lowest (x : ℕ) {b : ℕ} (hb : b ≤ 1) :
    x ^^^ ((1 &&& x % 2 ^ 8) ^^^ b) = 2 * (x / 2) + b := by
  have hlow : 1 &&& x % 2 ^ 8 = x % 2 := by
    rw [Nat.and_comm, Nat.and_one_is_mod]
    omega
  have hbit : (x % 2 ^^^ b) / 2 = 0 := by
    rcases Nat.mod_two_eq_zero_or_one x with h | h <;> interval_cases b <;> simp [h]
  have hdiv : (x ^^^ (x % 2 ^^^ b)) / 2 = x / 2 := by
    rw [Nat.xor_div_two, hbit, Nat.xor_zero]
  have hmod : (x ^^^ (x % 2 ^^^ b)) % 2 = b := by
    have hpow := Nat.xor_mod_two_pow (a := x) (b := x % 2 ^^^ b) (n := 1)
    rw [pow_one] at hpow
    rw [hpow]
    rcases Nat.mod_two_eq_zero_or_one x with h | h <;> interval_cases b <;> simp [h]
  rw [hlow]
  omega

section Sums

variable {K : Type} {p : ℕ} [Fact p.Prime] [Field K] {bits : List Bool}
  {dabits : List (DabitProver K (ZMod p))} {mask : DabitProver K (ZMod p)}

/-- How many of the chosen dabits are one. -/
def chosenOnes (bits : List Bool) (dabits : List (DabitProver K (ZMod p))) : ℕ :=
  (bits.zip dabits).countP fun d => d.1 && d.2.bit.value == 1

omit [Fact p.Prime] [Field K] in
variable (bits dabits) in
theorem chosenOnes_le : chosenOnes bits dabits ≤ dabits.length :=
  List.countP_le_length.trans (by rw [List.length_zip]; exact min_le_right _ _)

variable (bits) in
theorem combination_eq (hd : ∀ d ∈ dabits, d.Consistent) {x : ℕ}
    (hvalue : mask.value.value = (x : ZMod p)) (hbit : mask.bit.value = (x : F2)) :
    (ProverConv.combination bits dabits mask).value.value =
        ((x + chosenOnes bits dabits : ℕ) : ZMod p) ∧
      (ProverConv.combination bits dabits mask).bit.value =
        ((x + chosenOnes bits dabits : ℕ) : F2) := by
  unfold ProverConv.combination chosenOnes
  induction bits generalizing dabits mask x with
  | nil => exact ⟨hvalue, hbit⟩
  | cons b bits ih =>
    cases dabits with
    | nil => exact ⟨hvalue, hbit⟩
    | cons d dabits =>
      obtain ⟨hd, hds⟩ := List.forall_mem_cons.1 hd
      rw [List.zip_cons_cons, List.foldl_cons, List.countP_cons]
      cases b with
      | false => simpa using ih hds hvalue hbit
      | true =>
        rcases Parity.eq_zero_or_one d.bit.value with h | h
        · have hzero : d.value.value = 0 := by rw [hd, h]; rfl
          simpa [h] using @ih dabits ⟨FComProver.add mask.bit d.bit,
            FComProver.add mask.value d.value⟩ hds x (by simp [FComProver.add, hzero, hvalue])
            (by simp [FComProver.add, h, hbit])
        · have hone : d.value.value = 1 := by rw [hd, h]; rfl
          have := @ih dabits ⟨FComProver.add mask.bit d.bit, FComProver.add mask.value d.value⟩
            hds (x + 1) (by simp [FComProver.add, hone, hvalue])
            (by simp [FComProver.add, h, hbit])
          simpa [h, add_assoc, add_comm (1 : F2), add_comm (1 : ZMod p)] using this

omit [Field K] in
theorem binaryTriple_value {d : DabitProver K (ZMod p)} (hd : d.Consistent) :
    d.value.value *
      (FComProver.neg (FComProver.affineAddCst (-1) d.value)).value = 0 := by
  rw [FComProver.neg, FComProver.affineAddCst, hd, f2ToFe]
  split_ifs <;> ring

variable [Algebra F2 K] {Δ₂ : K} {Δₑ : ZMod p}

theorem keys_combination :
    (ProverConv.combination bits dabits mask).keys Δ₂ Δₑ =
      VerifierConv.combination bits (dabits.map (DabitProver.keys Δ₂ Δₑ)) (mask.keys Δ₂ Δₑ) := by
  unfold ProverConv.combination VerifierConv.combination
  induction bits generalizing dabits mask with
  | nil => rfl
  | cons b bits ih =>
    cases dabits with
    | nil => rfl
    | cons d dabits =>
      rw [List.map_cons, List.zip_cons_cons, List.zip_cons_cons, List.foldl_cons,
        List.foldl_cons, ih]
      cases b with
      | false => rfl
      | true => simp [DabitProver.keys]

theorem keys_combinations (n : ℕ) {masks : List (DabitProver K (ZMod p))} :
    (ProverConv.combinations n bits dabits masks).map (DabitProver.keys Δ₂ Δₑ) =
      VerifierConv.combinations n bits (dabits.map (DabitProver.keys Δ₂ Δₑ))
        (masks.map (DabitProver.keys Δ₂ Δₑ)) := by
  unfold ProverConv.combinations VerifierConv.combinations
  refine List.ext_getElem? fun i => ?_
  simp [List.getElem?_mapIdx, Option.map_map, Function.comp_def, keys_combination]

end Sums

/-! ## Both sides in step -/

section Step

variable {M D G H K : Type} {p : ℕ} [Fact p.Prime] [Field K] [Algebra F2 K]
  [CanonicalSerialize M (ZMod p)] {Δ₂ : K} {Δₑ : ZMod p}

theorem val_f2ToFe (b : F2) : (f2ToFe b : ZMod p).val = b.val := by
  have hp := (Fact.out : p.Prime).two_le
  have hb := Bits.val_le_one b
  rw [f2ToFe_eq, ZMod.val_natCast_of_lt (by omega)]

theorem keys_corrected (b : MacProver F2 K) (v : MacProver (ZMod p) (ZMod p)) (correction : ZMod p)
    {s : ProverConv K (ZMod p)} {t : VerifierConv K (ZMod p)} (hst : ConvCorrelated Δ₂ Δₑ s t) :
    (⟨b.key Δ₂, t.fcomFe.affineAddCst (-correction) (v.key Δₑ)⟩ : DabitVerifier K (ZMod p)) =
      DabitProver.keys Δ₂ Δₑ ⟨b, FComProver.affineAddCst (-correction) v⟩ := by
  subst hst
  rw [DabitProver.keys, FComProver.key_affineAddCst Δₑ s.fcomFe]
  rfl

theorem sync_genDabit :
    Sync (ConvCorrelated Δ₂ Δₑ) (ProverConv.genDabit : Party M G (ProverConv K (ZMod p)) _)
      (VerifierConv.genDabit : Party M H (VerifierConv K (ZMod p)) _)
      fun d k => k = d.keys Δ₂ Δₑ ∧ d.Consistent := by
  unfold ProverConv.genDabit VerifierConv.genDabit
  refine (sync_f2 sync_random).bind fun b kb hb => (sync_fe sync_random).bind fun v kv hv => ?_
  subst hb hv
  have hvalue : (FComProver.affineAddCst
      (-(if b.value = 0 then v.value else v.value - 1)) v).value = f2ToFe b.value := by
    rw [FComProver.affineAddCst, f2ToFe]
    split_ifs <;> ring
  refine Sync.assert_left (by rw [hvalue, val_f2ToFe]) (Sync.write_readSerializable
    (Sync.get_right fun s t hst => Sync.pure ⟨keys_corrected b v _ hst, hvalue⟩))

/-- A mask: a number that the prover can draw, in both fields. -/
def IsMask (n : ℕ) (m : DabitProver K (ZMod p)) : Prop :=
  ∃ x < n * 2 ^ secParamSV1, m.value.value = (x : ZMod p) ∧ m.bit.value = (x : F2)

theorem sync_genMask [GenRange D] {n : ℕ} (hn : checkParamsV1 p n) :
    Sync (ConvCorrelated Δ₂ Δₑ)
      (ProverConv.genMask n : Party M (Stream' D) (ProverConv K (ZMod p)) _)
      (VerifierConv.genMask : Party M H (VerifierConv K (ZMod p)) _)
      fun m k => k = m.keys Δ₂ Δₑ ∧ IsMask n m := by
  obtain ⟨hpos, hp⟩ := hn
  unfold ProverConv.genMask VerifierConv.genMask
  refine Sync.draw_left fun d => ?_
  have hdrawn : GenRange.genRange (n * 2 ^ secParamSV1) d < n * 2 ^ secParamSV1 :=
    GenRange.genRange_lt d (by positivity)
  generalize GenRange.genRange (n * 2 ^ secParamSV1) d = drawn at hdrawn ⊢
  refine (sync_f2 sync_random).bind fun b kb hb => (sync_fe sync_random).bind fun v kv hv => ?_
  subst hb hv
  rw [xor_lowest drawn (Bits.val_le_one b.value)]
  have hbit := Bits.val_le_one b.value
  have heven : n * 2 ^ secParamSV1 = 2 * (n * 2 ^ 47) := by
    rw [secParamSV1]
    ring
  have hlt : 2 * (drawn / 2) + b.value.val < n * 2 ^ secParamSV1 := by omega
  have hltp : 2 * (drawn / 2) + b.value.val < p := by
    rw [Nat.mul_add] at hp
    omega
  have hvalue : (FComProver.affineAddCst
      (-(v.value - ((2 * (drawn / 2) + b.value.val : ℕ) : ZMod p))) v).value =
        ((2 * (drawn / 2) + b.value.val : ℕ) : ZMod p) := by
    rw [FComProver.affineAddCst]
    ring
  refine Sync.assert_left hltp (Sync.assert_left ?_ (Sync.write_readSerializable
    (Sync.get_right fun s t hst => Sync.pure ⟨keys_corrected b v _ hst, _, hlt, hvalue, ?_⟩)))
  · rw [hvalue, ZMod.val_natCast_of_lt hltp]
    omega
  · have htwo : ((2 : ℕ) : F2) = 0 := ZMod.natCast_self 2
    change b.value = _
    rw [Nat.cast_add, Nat.cast_mul, htwo, zero_mul, zero_add, ZMod.natCast_zmod_val]

variable [CanonicalSerialize M (BitVec 8)] [Random D (BitVec 8)]

/-- Both sides have the same dabits and masks, and the same challenge. -/
structure Committed (Δ₂ : K) (Δₑ : ZMod p) (n : ℕ)
    (a : List (DabitProver K (ZMod p)) × List (DabitProver K (ZMod p)) × List Bool)
    (b : List (DabitVerifier K (ZMod p)) × List (DabitVerifier K (ZMod p)) × List Bool) :
    Prop where
  keys_dabits : b.1 = a.1.map (DabitProver.keys Δ₂ Δₑ)
  keys_masks : b.2.1 = a.2.1.map (DabitProver.keys Δ₂ Δₑ)
  bits : b.2.2 = a.2.2
  length_dabits : a.1.length = n
  length_masks : a.2.1.length = secParamKappa
  consistent : ∀ d ∈ a.1, d.Consistent
  isMask : ∀ m ∈ a.2.1, IsMask n m

theorem sync_commitV1 [GenRange D] {n : ℕ} (hn : checkParamsV1 p n) :
    Sync (ConvCorrelated Δ₂ Δₑ)
      (ProverConv.commitV1 n : Party M (Stream' D) (ProverConv K (ZMod p)) _)
      (VerifierConv.commitV1 n : Party M (Stream' D) (VerifierConv K (ZMod p)) _)
      (Committed Δ₂ Δₑ n) := by
  unfold ProverConv.commitV1 VerifierConv.commitV1
  refine Sync.assert_left hn (Sync.assert_right hn ?_)
  refine (Sync.mapM_map (R := Eq) (fun _ _ _ => sync_genDabit)
    (List.forall₂_refl _)).bind fun dabits ks hdabits => ?_
  obtain ⟨hlength, rfl, hconsistent⟩ := hdabits
  refine (Sync.mapM_map (R := Eq) (fun _ _ _ => sync_genMask hn)
    (List.forall₂_refl _)).bind fun masks ks hmasks => ?_
  obtain ⟨hlength', rfl, hmask⟩ := hmasks
  refine Sync.flush_left ?_
  have hdraw : Draws (EdaBitGen.random (BitVec 8) :
      Party M (Stream' D) (VerifierConv K (ZMod p)) _) fun _ => True :=
    Draws.draw.bind fun _ _ => Draws.pure trivial
  refine Sync.draws_right (Draws.mapM (fun _ => hdraw) (List.range (numChallengeBytes n)))
    fun bytes hbytes => ?_
  refine Sync.read_writeSerializableSeq (by simpa using hbytes.1) (Sync.flush_right
    (Sync.pure ⟨rfl, rfl, rfl, by simpa using hlength, by simpa using hlength', hconsistent,
      hmask⟩))

end Step

section Check

variable {M D K : Type} {p : ℕ} [Fact p.Prime] [Field K] [Algebra F2 K] [DecidableEq K]
  [CanonicalSerialize M F2] [CanonicalSerialize M K] [CanonicalSerialize M (ZMod p)] [Random D K]
  [Random D (ZMod p)] (C : Primitives M D) {Δ₂ : K} {Δₑ : ZMod p} {n : ℕ}
  {dabits combos : List (DabitProver K (ZMod p))}

theorem sync_checkV1 (hd : ∀ d ∈ dabits, d.Consistent)
    (hparity : ∀ c ∈ combos, c.value.value.val % 2 = c.bit.value.val)
    (hrange : ∀ c ∈ combos, n ≤ c.value.value.val ∧ c.value.value.val < 2 ^ secParamSV1 * n) :
    Sync (ConvCorrelated Δ₂ Δₑ)
      (ProverConv.checkV1 C n dabits combos : Party M (Stream' D) (ProverConv K (ZMod p)) _)
      (VerifierConv.checkV1 C n (dabits.map (DabitProver.keys Δ₂ Δₑ))
        (combos.map (DabitProver.keys Δ₂ Δₑ)) : Party M (Stream' D) (VerifierConv K (ZMod p)) _)
      fun ds ks => ds = dabits ∧ ks = dabits.map (DabitProver.keys Δ₂ Δₑ) := by
  have hbits : (combos.map (DabitProver.keys Δ₂ Δₑ)).map DabitVerifier.bit =
      (combos.map DabitProver.bit).map (MacProver.key Δ₂) := by simp [DabitProver.keys]
  have hvalues : (combos.map (DabitProver.keys Δ₂ Δₑ)).map DabitVerifier.value =
      (combos.map DabitProver.value).map (MacProver.key Δₑ) := by simp [DabitProver.keys]
  have hprover : ∀ c ∈ combos, (checkCombination n c.bit.value c.value.value :
      Party M (Stream' D) (ProverConv K (ZMod p)) Unit) = pure () := fun c hc =>
    checkCombination_eq (hparity c hc) (hrange c hc)
  have hverifier : ∀ d ∈ ((combos.map DabitProver.bit).map MacProver.value).zip
      ((combos.map DabitProver.value).map MacProver.value),
      (checkCombination n d.1 d.2 : Party M (Stream' D) (VerifierConv K (ZMod p)) Unit) =
        pure () := by
    intro d hd
    rw [List.map_map, List.map_map, List.zip_map', List.mem_map] at hd
    obtain ⟨c, hc, rfl⟩ := hd
    exact checkCombination_eq (hparity c hc) (hrange c hc)
  unfold ProverConv.checkV1 VerifierConv.checkV1
  rw [mapM_eq_pure hprover, pure_bind, hbits, hvalues]
  refine (sync_f2 (sync_openMacs C _)).bind fun _ ds2 hds2 => ?_
  refine (sync_fe (sync_openMacs C _)).bind fun _ dsp hdsp => ?_
  subst hds2 hdsp
  rw [mapM_eq_pure hverifier, pure_bind]
  refine Sync.get_right fun s t hst => ?_
  have htriples : ((dabits.map (DabitProver.keys Δ₂ Δₑ)).map fun d =>
      VerifierConv.binaryTriple t.fcomFe d.value) =
      (dabits.map fun d => ProverConv.binaryTriple d.value).map (TripleProver.keys Δₑ) := by
    have hfcom : t.fcomFe = s.fcomFe.keys Δₑ := by
      rw [hst]
      rfl
    have hkey : (⟨0, 0⟩ : MacProver (ZMod p) (ZMod p)).key Δₑ = ⟨0⟩ := by simp [MacProver.key]
    rw [List.map_map, List.map_map]
    refine List.map_congr_left fun d _ => ?_
    simp only [Function.comp_apply, VerifierConv.binaryTriple, ProverConv.binaryTriple,
      DabitProver.keys, TripleProver.keys, FComProver.key_neg, hkey,
      FComProver.key_affineAddCst Δₑ s.fcomFe, hfcom]
  have hzero : ∀ t ∈ dabits.map fun d => ProverConv.binaryTriple d.value,
      t.2.2.value = t.1.value * t.2.1.value := by
    intro t ht
    obtain ⟨d, hmem, rfl⟩ := List.mem_map.1 ht
    exact (binaryTriple_value (hd d hmem)).symm
  rw [htriples, FComProver.pushAndFinalize_eq, FComVerifier.pushAndFinalize_eq]
  refine (sync_fe (Sync.flush_left (sync_quicksilverCheckMultiply hzero))).bind fun _ _ _ =>
    Sync.pure ⟨rfl, rfl⟩

omit [Algebra F2 K] [DecidableEq K] in
theorem range_of_run {s s' : ProverConv K (ZMod p)} {g g' : Stream' D} {inbox rest : List M}
    {ds : List (DabitProver K (ZMod p))}
    (h : Proc.run (ProverConv.checkV1 C n dabits combos s g) inbox = some (((ds, s'), g'), rest)) :
    ∀ c ∈ combos, n ≤ c.value.value.val ∧ c.value.value.val < 2 ^ secParamSV1 * n := by
  intro c hc
  obtain ⟨us, s₁, g₁, mid, hloop, -⟩ := run_bind_eq_some.1 h
  obtain ⟨hlength, hsteps⟩ := List.forall₂_iff_get.1 (forall₂_of_run_mapM hloop)
  obtain ⟨i, hi, rfl⟩ := List.getElem_of_mem hc
  obtain ⟨s₂, g₂, mid₂, s₃, g₃, mid₃, hstep⟩ := hsteps i hi (hlength ▸ hi)
  obtain ⟨_, s₄, g₄, mid₄, -, hrange⟩ := run_bind_eq_some.1 hstep
  exact (run_assert_eq_some.1 hrange).1

/-- The sum `c` of a mask and the chosen dabits is a number below the modulus, and its lowest bit is
the sum of the bits. -/
def NoWrap (n : ℕ) (bits : List Bool) (dabits : List (DabitProver K (ZMod p)))
    (mask c : DabitProver K (ZMod p)) : Prop :=
  ∃ x < n * 2 ^ secParamSV1, mask.value.value = (x : ZMod p) ∧ mask.bit.value = (x : F2) ∧
    x + chosenOnes bits dabits < p ∧ c.value.value.val = x + chosenOnes bits dabits ∧
    c.value.value.val % 2 = c.bit.value.val

omit [Algebra F2 K] [DecidableEq K] in
theorem noWrap_combination (hn : checkParamsV1 p n) {bits : List Bool}
    {mask : DabitProver K (ZMod p)} (hlength : dabits.length = n)
    (hd : ∀ d ∈ dabits, d.Consistent) (hmask : IsMask n mask) :
    NoWrap n bits dabits mask (ProverConv.combination bits dabits mask) := by
  obtain ⟨x, hx, hvalue, hbit⟩ := hmask
  obtain ⟨hsum, hsum'⟩ := combination_eq bits hd hvalue hbit
  have hle := chosenOnes_le bits dabits
  have hlt : x + chosenOnes bits dabits < p := by
    obtain ⟨hpos, hp⟩ := hn
    rw [Nat.mul_add] at hp
    omega
  refine ⟨x, hx, hvalue, hbit, hlt, ?_, ?_⟩
  · rw [hsum, ZMod.val_natCast_of_lt hlt]
  · rw [hsum, hsum', ZMod.val_natCast_of_lt hlt, ZMod.val_natCast]

variable [CanonicalSerialize M (BitVec 8)] [Random D (BitVec 8)] [GenRange D]

/-- No sum wraps around, and both sides complete the generation exactly when all sums are in the
range that both sides assert. -/
theorem genDabitsV1_noWrap (hn : checkParamsV1 p n) (s : ProverConv K (ZMod p))
    (g h : Stream' D) :
    Lockstep (ProverConv.commitV1 n s g : Proc M _)
      (VerifierConv.commitV1 n (s.keys Δ₂ Δₑ) h) fun x y =>
        let dabits := x.1.1.1
        let masks := x.1.1.2.1
        let bits := x.1.1.2.2
        let combos := ProverConv.combinations n bits dabits masks
        Committed Δ₂ Δₑ n x.1.1 y.1.1 ∧
        (∀ (j : ℕ) (mask : DabitProver K (ZMod p)), masks[j]? = some mask →
          NoWrap n (bits.drop (j * n)) dabits mask
            (ProverConv.combination (bits.drop (j * n)) dabits mask)) ∧
        (Lockstep (ProverConv.genDabitsV1 C n s g : Proc M _)
            (VerifierConv.genDabitsV1 C n (s.keys Δ₂ Δₑ) h)
            (fun x' y' => x'.1.1 = dabits ∧ y'.1.1 = dabits.map (DabitProver.keys Δ₂ Δₑ)) ↔
          ∀ c ∈ combos, n ≤ c.value.value.val ∧ c.value.value.val < 2 ^ secParamSV1 * n) := by
  have hcommit : Sync (ConvCorrelated Δ₂ Δₑ)
      (ProverConv.commitV1 n : Party M (Stream' D) (ProverConv K (ZMod p)) _)
      (VerifierConv.commitV1 n : Party M (Stream' D) (VerifierConv K (ZMod p)) _)
      (Committed Δ₂ Δₑ n) := sync_commitV1 hn
  refine ((hcommit s _ rfl g h).bind_iff (f := fun x => ProverConv.checkV1 C n x.1.1.1
    (ProverConv.combinations n x.1.1.2.2 x.1.1.1 x.1.1.2.1) x.1.2 x.2)
    (g := fun y => VerifierConv.checkV1 C n y.1.1.1
      (VerifierConv.combinations n y.1.1.2.2 y.1.1.1 y.1.1.2.1) y.1.2 y.2)).mono ?_
  rintro ⟨⟨⟨dabits, masks, bits⟩, s'⟩, g'⟩ ⟨⟨⟨ks, ks', bits'⟩, t'⟩, h'⟩ ⟨⟨hst, hcommitted⟩, hiff⟩
  obtain ⟨hdabits, hmasks, hbits, hlength, -, hconsistent, hmask⟩ := id hcommitted
  dsimp only at hst hdabits hmasks hbits hlength hconsistent hmask hiff
  subst hdabits hmasks hbits
  have hwrap : ∀ (j : ℕ) (mask : DabitProver K (ZMod p)), masks[j]? = some mask →
      NoWrap n (bits'.drop (j * n)) dabits mask
        (ProverConv.combination (bits'.drop (j * n)) dabits mask) := fun j mask hj =>
    noWrap_combination hn hlength hconsistent (hmask mask (List.mem_of_getElem? hj))
  refine ⟨hcommitted, hwrap, (hiff _).trans ⟨?_, ?_⟩⟩
  · rintro ⟨l, r, ⟨⟨ds, s₁⟩, g₁⟩, b, hjoint, -⟩
    exact range_of_run C (Proc.joint_run_left hjoint)
  · intro hrange
    have hparity : ∀ c ∈ ProverConv.combinations n bits' dabits masks,
        c.value.value.val % 2 = c.bit.value.val := by
      intro c hc
      obtain ⟨j, hj⟩ := List.mem_iff_getElem?.1 hc
      rw [ProverConv.combinations, List.getElem?_mapIdx] at hj
      obtain ⟨mask, hmask, rfl⟩ := Option.map_eq_some_iff.1 hj
      obtain ⟨-, -, -, -, -, -, hparity⟩ := hwrap j mask hmask
      exact hparity
    have hcheck := sync_checkV1 C hconsistent hparity hrange s' t' hst g' h'
    rw [keys_combinations] at hcheck
    exact hcheck.mono fun _ _ hxy => hxy.2

end Check

/-- Bytes travel in blocks. -/
instance {K F : Type} : CanonicalSerialize (Msg K F) (BitVec 8) :=
  .ofSeq (fun bytes => .blocks (bytes.map (BitVec.setWidth 128)))
    (fun | .blocks xs => some (xs.map (BitVec.setWidth 8)) | _ => none)
    fun xs => by simp [Function.comp_def]

instance {K F : Type} [Zero K] [Zero F] : Random (Draw K F) (BitVec 8) :=
  ⟨fun d => d.block.setWidth 8, fun x => ⟨⟨0, 0, 0, x.setWidth 128, 0⟩, by simp⟩⟩

/-- One dabit over `F61p`. -/
theorem genDabitsV1_noWrap_one :
    let s : ProverConv F40b F61p :=
      ⟨⟨⟨.const ⟨[⟨1, 0⟩], by simp⟩, [], ⟨0, 0⟩⟩⟩, ⟨⟨.const ⟨[⟨1, 0⟩], by simp⟩, [], ⟨0, 0⟩⟩⟩⟩
    let rng : Stream' (Draw F40b F61p) := .const ⟨1, 0, 0, 0, 5⟩
    Lockstep (ProverConv.commitV1 1 s rng : Proc (Msg F40b F61p) _)
      (VerifierConv.commitV1 1 (s.keys 1 1) rng) fun x y =>
        Committed 1 1 1 x.1.1 y.1.1 ∧
        ∀ (j : ℕ) (mask : DabitProver F40b F61p), x.1.1.2.1[j]? = some mask →
          NoWrap 1 (x.1.1.2.2.drop (j * 1)) x.1.1.1 mask
            (ProverConv.combination (x.1.1.2.2.drop (j * 1)) x.1.1.1 mask) := by
  intro s rng
  let C : Primitives (Msg F40b F61p) (Draw F40b F61p) :=
    ⟨fun _ => .const ⟨0, 0, 0, 0, 0⟩, fun _ => 0⟩
  exact (genDabitsV1_noWrap C (by decide) s rng rng).mono fun _ _ h => ⟨h.1, h.2.1⟩

/-- One dabit that is zero, and masks that are zero: the sums are below the range. -/
theorem not_genDabitsV1_zero :
    let s : ProverConv F40b F61p :=
      ⟨⟨⟨.const ⟨[⟨0, 0⟩], by simp⟩, [], ⟨0, 0⟩⟩⟩, ⟨⟨.const ⟨[⟨0, 0⟩], by simp⟩, [], ⟨0, 0⟩⟩⟩⟩
    let rng : Stream' (Draw F40b F61p) := .const ⟨0, 0, 0, 0, 0⟩
    let C : Primitives (Msg F40b F61p) (Draw F40b F61p) :=
      ⟨fun _ => .const ⟨0, 0, 0, 0, 0⟩, fun _ => 0⟩
    checkParamsV1 (2 ^ 61 - 1) 1 ∧
      ¬Lockstep (ProverConv.genDabitsV1 C 1 s rng : Proc (Msg F40b F61p) _)
        (VerifierConv.genDabitsV1 C 1 (s.keys 1 1) rng) fun _ _ => True := by
  intro s rng C
  refine ⟨by decide, ?_⟩
  rintro ⟨l, r, a, b, hjoint, -⟩
  have hfails : (Proc.joint (ProverConv.genDabitsV1 C 1 s rng : Proc (Msg F40b F61p) _)
      (VerifierConv.genDabitsV1 C 1 (s.keys 1 1) rng)).completes = false := by decide +kernel
  rw [hjoint] at hfails
  cases hfails

end EdaBitGen
