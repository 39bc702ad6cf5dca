import EdaBitGen.Algebra.Bits
import EdaBitGen.Algebra.Parity
import EdaBitGen.Backend.Model
import EdaBitGen.Fields

/-!
# Comparison with public bits

Prover and verifier compare committed bits with public ones on their backends for bits, from the
highest bit down.  The bit that tells whether the comparison fails is not returned but asserted to
be zero.
-/

namespace EdaBitGen

open Interaction Party

/-- How many zero checks are queued at most. -/
def queueCapacity : ℕ := 3_000_000

variable {M D G H K : Type} [Field K] [Algebra F2 K] [CanonicalSerialize M F2]

/-! ## The two sides -/

namespace DietMacAndCheeseProver

/-- One position: whether all bits so far are equal, and whether the comparison has failed. -/
def compareBit (acc : MacProver F2 K × MacProver F2 K) (ab : MacProver F2 K × F2) :
    Party M G (DietMacAndCheeseProver F2 K) (MacProver F2 K × MacProver F2 K) := do
  let (act, r) := acc
  let (a, b) := ab
  let aPlusB := addc a b
  let onePlusAPlusB := addc aPlusB 1
  let actPrime ← mul act onePlusAPlusB
  let rPlusOne := addc r 1
  let p1 := mulc a (b + 1)
  let actTimesP1 ← mul act p1
  let p2 ← mul rPlusOne actTimesP1
  pure (actPrime, add r p2)

/-- The bit that is zero when the comparison holds. -/
def compareWithPublic (a : List (MacProver F2 K)) (b : List F2) :
    Party M G (DietMacAndCheeseProver F2 K) (MacProver F2 K) := do
  assert (a.length = b.length) "assertion failed: a.len() == b.len()"
  -- the bits are in little-endian order
  let acc ← (a.zip b).reverse.foldlM compareBit (inputPublic 1, inputPublic 0)
  pure acc.2

section AssertZero

variable [CanonicalSerialize M K] [CanonicalSerialize M Block] [Random D K] (C : Primitives M D)
  (noBatching : Bool)

def assertZero (value : MacProver F2 K) : Party M G (DietMacAndCheeseProver F2 K) Unit := do
  act fun self => ((), { self with checkZeroList := self.checkZeroList ++ [value] })
  let self ← get
  if self.checkZeroList.length = queueCapacity ∨ noBatching = true then doCheckZero C else pure ()

def lessEqThanWithPublic2 (a : List (MacProver F2 K)) (b : List F2) :
    Party M G (DietMacAndCheeseProver F2 K) Unit := do
  let r ← compareWithPublic a b
  assertZero C noBatching r

end AssertZero

end DietMacAndCheeseProver

namespace DietMacAndCheeseVerifier

def compareBit (acc : MacVerifier K × MacVerifier K) (ab : MacVerifier K × F2) :
    Party M G (DietMacAndCheeseVerifier K) (MacVerifier K × MacVerifier K) := do
  let self ← get
  let (act, r) := acc
  let (a, b) := ab
  let aPlusB := self.addc a b
  let onePlusAPlusB := self.addc aPlusB (1 : F2)
  let actPrime ← mul F2 act onePlusAPlusB
  let rPlusOne := self.addc r (1 : F2)
  let p1 := mulc a (b + 1)
  let actTimesP1 ← mul F2 act p1
  let p2 ← mul F2 rPlusOne actTimesP1
  pure (actPrime, add r p2)

def compareWithPublic (a : List (MacVerifier K)) (b : List F2) :
    Party M G (DietMacAndCheeseVerifier K) (MacVerifier K) := do
  assert (a.length = b.length) "assertion failed: a.len() == b.len()"
  let self ← get
  let acc ← (a.zip b).reverse.foldlM compareBit
    (self.inputPublic (1 : F2), self.inputPublic (0 : F2))
  pure acc.2

section AssertZero

variable [DecidableEq K] [CanonicalSerialize M K] [CanonicalSerialize M Block] [Random D K]
  [Random D Block] (C : Primitives M D) (noBatching : Bool)

def assertZero (value : MacVerifier K) :
    Party M (Stream' D) (DietMacAndCheeseVerifier K) Unit := do
  act fun self => ((), { self with checkZeroList := self.checkZeroList ++ [value] })
  let self ← get
  if self.checkZeroList.length = queueCapacity ∨ noBatching = true then doCheckZero C else pure ()

def lessEqThanWithPublic2 (a : List (MacVerifier K)) (b : List F2) :
    Party M (Stream' D) (DietMacAndCheeseVerifier K) Unit := do
  let r ← compareWithPublic a b
  assertZero C noBatching r

end AssertZero

end DietMacAndCheeseVerifier

/-! ## Products on both sides -/

/-- From correlated states both sides have pushed the triples `ts`, and nothing else has changed. -/
structure Pushed (Δ : K) (s : DietMacAndCheeseProver F2 K) (t : DietMacAndCheeseVerifier K)
    (ts : List (TripleProver F2 K)) (s' : DietMacAndCheeseProver F2 K)
    (t' : DietMacAndCheeseVerifier K) : Prop where
  verifier : t'.verifier = s'.prover.keys Δ
  multProver : s'.stateMultCheck = ts.foldl FComProver.quicksilverPush s.stateMultCheck
  multVerifier : t'.stateMultCheck =
    (ts.map (TripleProver.keys Δ)).foldl t.verifier.quicksilverPush t.stateMultCheck
  zerosProver : s'.checkZeroList = s.checkZeroList
  zerosVerifier : t'.checkZeroList = t.checkZeroList
  products : ∀ tr ∈ ts, tr.2.2.value = tr.1.value * tr.2.1.value

namespace Pushed

variable {Δ : K} {s s₁ s₂ : DietMacAndCheeseProver F2 K} {t t₁ t₂ : DietMacAndCheeseVerifier K}
  {ts ts' : List (TripleProver F2 K)}

omit [CanonicalSerialize M F2] in
theorem refl (h : t.verifier = s.prover.keys Δ) : Pushed Δ s t [] s t :=
  ⟨h, rfl, rfl, rfl, rfl, by simp⟩

theorem trans (hst : t.verifier = s.prover.keys Δ) (h : Pushed Δ s t ts s₁ t₁)
    (h' : Pushed Δ s₁ t₁ ts' s₂ t₂) : Pushed Δ s t (ts ++ ts') s₂ t₂ where
  verifier := h'.verifier
  multProver := by rw [List.foldl_append, ← h.multProver, h'.multProver]
  multVerifier := by
    have hdelta : t₁.verifier.delta = t.verifier.delta := by
      rw [h.verifier, hst, FComProver.keys_delta, FComProver.keys_delta]
    rw [List.map_append, List.foldl_append, ← h.multVerifier, h'.multVerifier,
      quicksilverPush_congr hdelta]
  zerosProver := h'.zerosProver.trans h.zerosProver
  zerosVerifier := h'.zerosVerifier.trans h.zerosVerifier
  products := fun tr htr => (List.mem_append.1 htr).elim (h.products tr) (h'.products tr)

end Pushed

section Step

variable {Δ : K} {s : DietMacAndCheeseProver F2 K} {t : DietMacAndCheeseVerifier K}

theorem lockstep_mul (hst : t.verifier = s.prover.keys Δ) (a b : MacProver F2 K) (g : G) (h : H) :
    Lockstep ((DietMacAndCheeseProver.mul a b : Party M G _ _) s g)
      ((DietMacAndCheeseVerifier.mul F2 (a.key Δ) (b.key Δ) : Party M H _ _) t h) fun x y =>
        x.1.1.value = a.value * b.value ∧ y.1.1 = x.1.1.key Δ ∧
          Pushed Δ s t [(a, b, x.1.1)] x.1.2 y.1.2 := by
  let rel : DietMacAndCheeseProver F2 K → DietMacAndCheeseVerifier K → Prop := fun s' t' =>
    t'.verifier = s'.prover.keys Δ ∧ s'.stateMultCheck = s.stateMultCheck ∧
      t'.stateMultCheck = t.stateMultCheck ∧ s'.checkZeroList = s.checkZeroList ∧
      t'.checkZeroList = t.checkZeroList
  have hinput : Sync rel
      (zoom DietMacAndCheeseProver.lens (FComProver.input1 (a.value * b.value)) : Party M G _ _)
      (zoom DietMacAndCheeseVerifier.lens (FComVerifier.input1 F2) : Party M H _ _)
      fun m k => k = (⟨a.value * b.value, m⟩ : MacProver F2 K).key Δ := by
    refine (sync_input1 (Δ := Δ) (a.value * b.value)).zoom (fun s' t' hrel => hrel.1) ?_
    rintro s' t' p v ⟨-, hrest⟩ hpv
    exact ⟨hpv, hrest⟩
  unfold DietMacAndCheeseProver.mul DietMacAndCheeseVerifier.mul DietMacAndCheeseProver.input
    DietMacAndCheeseVerifier.input
  simp only [bind_assoc, pure_bind]
  rw [bind_apply, bind_apply]
  refine (hinput s t ⟨hst, rfl, rfl, rfl, rfl⟩ g h).bind fun x y hxy => Lockstep.pure ?_
  obtain ⟨⟨hverifier, hmult, hmult', hzeros, hzeros'⟩, hkey⟩ := hxy
  have hdelta : y.1.2.verifier.delta = t.verifier.delta := by
    rw [hverifier, hst, FComProver.keys_delta, FComProver.keys_delta]
  refine ⟨rfl, hkey, hverifier, ?_, ?_, hzeros, hzeros', by simp⟩
  · simp only [List.foldl_cons, List.foldl_nil, hmult]
  · simp only [List.map_cons, List.map_nil, List.foldl_cons, List.foldl_nil, hmult',
      quicksilverPush_congr hdelta, hkey, TripleProver.keys]

/-! ## One position -/

theorem lockstep_compareBit (hst : t.verifier = s.prover.keys Δ) (act r a : MacProver F2 K)
    (b : F2) (g : G) (h : H) :
    Lockstep ((DietMacAndCheeseProver.compareBit (act, r) (a, b) : Party M G _ _) s g)
      ((DietMacAndCheeseVerifier.compareBit (act.key Δ, r.key Δ) (a.key Δ, b) :
        Party M H _ _) t h) fun x y =>
        x.1.1.1.value = act.value * (1 + (b + a.value)) ∧
        x.1.1.2.value = r.value + (1 + r.value) * (act.value * ((b + 1) * a.value)) ∧
        y.1.1 = (x.1.1.1.key Δ, x.1.1.2.key Δ) ∧
        ∃ ts, ts.length = 3 ∧ Pushed Δ s t ts x.1.2 y.1.2 := by
  have haddc : ∀ (x : MacProver F2 K) (c : F2),
      t.addc (x.key Δ) c = (DietMacAndCheeseProver.addc x c).key Δ := fun x c => by
    rw [DietMacAndCheeseProver.addc, FComProver.key_affineAddCst Δ s.prover, ← hst]
    rfl
  have hmulc : DietMacAndCheeseVerifier.mulc (a.key Δ) (b + 1) =
      (DietMacAndCheeseProver.mulc a (b + 1)).key Δ := (FComProver.key_affineMultCst Δ _ _).symm
  unfold DietMacAndCheeseProver.compareBit DietMacAndCheeseVerifier.compareBit
  simp only [bind_apply, get_apply, Proc.pure_bind', haddc, hmulc]
  refine (lockstep_mul hst _ _ g h).bind fun x₁ y₁ ⟨hvalue₁, hkey₁, hpush₁⟩ => ?_
  refine (lockstep_mul hpush₁.verifier _ _ _ _).bind fun x₂ y₂ ⟨hvalue₂, hkey₂, hpush₂⟩ => ?_
  rw [hkey₂]
  refine (lockstep_mul hpush₂.verifier _ _ _ _).bind fun x₃ y₃ ⟨hvalue₃, hkey₃, hpush₃⟩ =>
    Lockstep.pure ⟨hvalue₁, ?_, ?_, _, ?_, (hpush₁.trans hst hpush₂).trans hst hpush₃⟩
  · show r.value + x₃.1.1.value = _
    rw [hvalue₃, hvalue₂]
    rfl
  · rw [hkey₁, hkey₃]
    exact congrArg _ (FComProver.key_add Δ _ _).symm
  · rfl

/-- The higher bits `A` and `B` have been compared: `act` says whether they are equal, and `r`
whether those of `A` are larger. -/
structure Compared (A B : List F2) (act r : F2) : Prop where
  act_eq : act = if Bits.toNat A = Bits.toNat B then 1 else 0
  r_eq : r = if Bits.toNat A ≤ Bits.toNat B then 0 else 1

omit [Field K] [Algebra F2 K] [CanonicalSerialize M F2] in
theorem Compared.cons {A B : List F2} {act r : F2} (h : Compared A B act r) (a b : F2) :
    Compared (a :: A) (b :: B) (act * (1 + (b + a))) (r + (1 + r) * (act * ((b + 1) * a))) := by
  obtain ⟨rfl, rfl⟩ := h
  -- the lowest bit matters only where the higher ones are equal
  rcases lt_trichotomy (Bits.toNat A) (Bits.toNat B) with hlt | heq | hgt
  · have hne : Bits.toNat (a :: A) ≠ Bits.toNat (b :: B) := by
      have := Bits.val_le_one a
      simp only [Bits.toNat_cons]
      omega
    have hle : Bits.toNat (a :: A) ≤ Bits.toNat (b :: B) := by
      have := Bits.val_le_one a
      simp only [Bits.toNat_cons]
      omega
    exact ⟨by simp [hne, hlt.ne, -Bits.toNat_cons], by simp [hle, hlt.le, hlt.ne, -Bits.toNat_cons]⟩
  · rcases Parity.eq_zero_or_one a with rfl | rfl <;> rcases Parity.eq_zero_or_one b with rfl | rfl
    all_goals
      refine ⟨?_, ?_⟩ <;> simp only [Bits.toNat_cons, heq] <;> simp [ZMod.val_one] <;> decide
  · have hne : Bits.toNat (a :: A) ≠ Bits.toNat (b :: B) := by
      have := Bits.val_le_one b
      simp only [Bits.toNat_cons]
      omega
    have hle : ¬Bits.toNat (a :: A) ≤ Bits.toNat (b :: B) := by
      have := Bits.val_le_one b
      simp only [Bits.toNat_cons]
      omega
    exact ⟨by simp [hne, hgt.ne', -Bits.toNat_cons],
      by simp [hle, not_le.2 hgt, hgt.ne', -Bits.toNat_cons]⟩

theorem lockstep_compareBits (hst : t.verifier = s.prover.keys Δ) (ps : List (MacProver F2 K × F2))
    (g : G) (h : H) :
    Lockstep ((ps.reverse.foldlM DietMacAndCheeseProver.compareBit
        (DietMacAndCheeseProver.inputPublic 1, DietMacAndCheeseProver.inputPublic 0) :
        Party M G _ _) s g)
      (((ps.map (Prod.map (MacProver.key Δ) id)).reverse.foldlM
        DietMacAndCheeseVerifier.compareBit (t.inputPublic (1 : F2), t.inputPublic (0 : F2)) :
        Party M H _ _) t h) fun x y =>
        Compared (ps.map fun p => p.1.value) (ps.map Prod.snd) x.1.1.1.value x.1.1.2.value ∧
        y.1.1 = (x.1.1.1.key Δ, x.1.1.2.key Δ) ∧
        ∃ ts, ts.length = 3 * ps.length ∧ Pushed Δ s t ts x.1.2 y.1.2 := by
  induction ps with
  | nil =>
    have hpublic : ∀ c : F2, t.inputPublic c =
        (DietMacAndCheeseProver.inputPublic c : MacProver F2 K).key Δ := fun c => by
      simp only [DietMacAndCheeseVerifier.inputPublic, DietMacAndCheeseProver.inputPublic, hst,
        MacProver.key, FComProver.keys_delta, zero_sub, neg_smul]
    rw [List.map_nil, List.reverse_nil, List.reverse_nil, hpublic, hpublic]
    exact Lockstep.pure ⟨⟨rfl, rfl⟩, rfl, [], rfl, .refl hst⟩
  | cons p ps ih =>
    rw [List.map_cons, List.reverse_cons, List.reverse_cons, List.foldlM_append,
      List.foldlM_append, bind_apply, bind_apply]
    refine ih.bind fun x y hxy => ?_
    obtain ⟨hcompared, hkeys, ts, hlength, hpushed⟩ := hxy
    rw [List.foldlM_cons, List.foldlM_cons, hkeys, bind_apply, bind_apply]
    refine (lockstep_compareBit hpushed.verifier _ _ p.1 p.2 _ _).bind
      fun x' y' hxy' => Lockstep.pure ?_
    obtain ⟨hact, hr, hkeys', ts', hlength', hpushed'⟩ := hxy'
    refine ⟨?_, hkeys', ts ++ ts', ?_, hpushed.trans hst hpushed'⟩
    · rw [hact, hr]
      exact hcompared.cons _ _
    · rw [List.length_append, List.length_cons, hlength, hlength']
      ring

theorem lockstep_compareWithPublic (hst : t.verifier = s.prover.keys Δ)
    (a : List (MacProver F2 K)) (b : List F2) (hab : a.length = b.length) (g : G) (h : H) :
    Lockstep ((DietMacAndCheeseProver.compareWithPublic a b : Party M G _ _) s g)
      ((DietMacAndCheeseVerifier.compareWithPublic (a.map (MacProver.key Δ)) b :
        Party M H _ _) t h) fun x y =>
        (x.1.1.value = 0 ↔ Bits.toNat (a.map MacProver.value) ≤ Bits.toNat b) ∧
        y.1.1 = x.1.1.key Δ ∧
        ∃ ts, ts.length = 3 * a.length ∧ Pushed Δ s t ts x.1.2 y.1.2 := by
  have hvalues : ((a.zip b).map fun p => p.1.value) = a.map MacProver.value := by
    conv_rhs => rw [← List.map_fst_zip hab.le, List.map_map]
    rfl
  have hpublic : (a.zip b).map Prod.snd = b := List.map_snd_zip hab.ge
  have hzip : (a.map (MacProver.key Δ)).zip b =
      (a.zip b).map (Prod.map (MacProver.key Δ) id) := by
    rw [← List.zip_map, List.map_id]
  unfold DietMacAndCheeseProver.compareWithPublic DietMacAndCheeseVerifier.compareWithPublic
  simp only [List.length_map, hab, assert, if_true, bind_apply, get_apply,
    Proc.pure_bind', hzip]
  refine (lockstep_compareBits hst (a.zip b) g h).bind
    fun x y ⟨hcompared, hkeys, ts, hlength, hpushed⟩ => Lockstep.pure ?_
  rw [hvalues, hpublic] at hcompared
  refine ⟨?_, congrArg Prod.snd hkeys, ts, ?_, hpushed⟩
  · rw [hcompared.r_eq]
    split_ifs with hle <;> simp [hle]
  · rw [hlength, List.length_zip, hab, min_self]

end Step

section AssertZero

variable [DecidableEq K] [CanonicalSerialize M K] [CanonicalSerialize M Block] [Random D K]
  [Random D Block] (C : Primitives M D) (noBatching : Bool) {Δ : K}
  {s : DietMacAndCheeseProver F2 K} {t : DietMacAndCheeseVerifier K}

/-- The comparison returns nothing.  The bit it computes is zero exactly when `a` is at most `b`; it
goes to the zero check, as its key does at the verifier, and both sides have pushed three products a
position.  Where the queue is not checked at once, the bit and the key are its last entries. -/
theorem lessEqThanWithPublic2_bit (hst : t.verifier = s.prover.keys Δ)
    (hqueue : t.checkZeroList.length = s.checkZeroList.length)
    (a : List (MacProver F2 K)) (b : List F2) (hab : a.length = b.length) (g : G)
    (h : Stream' D) :
    (DietMacAndCheeseProver.lessEqThanWithPublic2 C noBatching a b : Party M G _ _) =
      DietMacAndCheeseProver.compareWithPublic a b >>=
        DietMacAndCheeseProver.assertZero C noBatching ∧
    DietMacAndCheeseVerifier.lessEqThanWithPublic2 C noBatching (a.map (MacProver.key Δ)) b =
      DietMacAndCheeseVerifier.compareWithPublic (a.map (MacProver.key Δ)) b >>=
        DietMacAndCheeseVerifier.assertZero C noBatching ∧
    Lockstep ((DietMacAndCheeseProver.compareWithPublic a b : Party M G _ _) s g)
      ((DietMacAndCheeseVerifier.compareWithPublic (a.map (MacProver.key Δ)) b :
        Party M (Stream' D) _ _) t h) (fun x y =>
        (x.1.1.value = 0 ↔ Bits.toNat (a.map MacProver.value) ≤ Bits.toNat b) ∧
        y.1.1 = x.1.1.key Δ ∧
        ∃ ts, ts.length = 3 * a.length ∧ Pushed Δ s t ts x.1.2 y.1.2) ∧
    (noBatching = false → s.checkZeroList.length + 1 ≠ queueCapacity →
      Lockstep ((DietMacAndCheeseProver.lessEqThanWithPublic2 C noBatching a b :
          Party M G _ _) s g)
        (DietMacAndCheeseVerifier.lessEqThanWithPublic2 C noBatching
          (a.map (MacProver.key Δ)) b t h) fun x y => ∃ r : MacProver F2 K,
          (r.value = 0 ↔ Bits.toNat (a.map MacProver.value) ≤ Bits.toNat b) ∧
          x.1.2.checkZeroList = s.checkZeroList ++ [r] ∧
          y.1.2.checkZeroList = t.checkZeroList ++ [r.key Δ] ∧
          ∃ ts : List (TripleProver F2 K), ts.length = 3 * a.length ∧
            x.1.2.stateMultCheck = ts.foldl FComProver.quicksilverPush s.stateMultCheck ∧
            y.1.2.stateMultCheck =
              (ts.map (TripleProver.keys Δ)).foldl t.verifier.quicksilverPush
                t.stateMultCheck) := by
  refine ⟨rfl, rfl, lockstep_compareWithPublic hst a b hab g h, fun hbatch hcapacity => ?_⟩
  unfold DietMacAndCheeseProver.lessEqThanWithPublic2
    DietMacAndCheeseVerifier.lessEqThanWithPublic2
  rw [bind_apply, bind_apply]
  refine (lockstep_compareWithPublic hst a b hab g h).bind
    fun x y ⟨hzero, hkey, ts, hlength, hpushed⟩ => ?_
  have hprover :
      ¬((x.1.2.checkZeroList ++ [x.1.1]).length = queueCapacity ∨ noBatching = true) := by
    rw [hpushed.zerosProver, List.length_append, List.length_singleton, hbatch]
    simpa using hcapacity
  have hverifier :
      ¬((y.1.2.checkZeroList ++ [y.1.1]).length = queueCapacity ∨ noBatching = true) := by
    rw [hpushed.zerosVerifier, List.length_append, List.length_singleton, hbatch, hqueue]
    simpa using hcapacity
  unfold DietMacAndCheeseProver.assertZero DietMacAndCheeseVerifier.assertZero
  simp only [bind_apply, act_apply, get_apply, Proc.pure_bind', if_neg hprover, if_neg hverifier]
  refine Lockstep.pure ⟨x.1.1, hzero, ?_, ?_, ts, hlength, hpushed.multProver,
    hpushed.multVerifier⟩
  · rw [hpushed.zerosProver]
  · rw [hpushed.zerosVerifier, hkey]

end AssertZero

/-- The bits `1, 0` against `0, 1`. -/
theorem lessEqThanWithPublic2_bit_two :
    let s : DietMacAndCheeseProver F2 F40b :=
      ⟨⟨⟨.const ⟨[⟨1, 0⟩], by simp⟩, [], ⟨0, 0⟩⟩⟩, [], ⟨0, 0, 1, 1, 0⟩⟩
    let t : DietMacAndCheeseVerifier F40b := ⟨s.prover.keys 1, [], ⟨0, 1, 1, 0⟩⟩
    let rng : Stream' (Draw F40b F61p) := .const ⟨1, 0, 0, 0, 0⟩
    let a : List (MacProver F2 F40b) := [⟨1, 0⟩, ⟨0, 0⟩]
    Lockstep (DietMacAndCheeseProver.compareWithPublic a [0, 1] s rng :
        Proc (Msg F40b F61p) _)
      (DietMacAndCheeseVerifier.compareWithPublic (a.map (MacProver.key 1)) [0, 1] t rng)
      fun x y =>
        (x.1.1.value = 0 ↔ Bits.toNat (a.map MacProver.value) ≤ Bits.toNat [0, 1]) ∧
        y.1.1 = x.1.1.key 1 ∧
        ∃ ts, ts.length = 3 * a.length ∧ Pushed 1 s t ts x.1.2 y.1.2 := by
  intro s t rng a
  let C : Primitives (Msg F40b F61p) (Draw F40b F61p) :=
    ⟨fun _ => .const ⟨0, 0, 0, 0, 0⟩, fun _ => 0⟩
  exact (lessEqThanWithPublic2_bit C false rfl rfl a [0, 1] rfl rng rng).2.2.1

/-- What the call returns does not tell a comparison that holds from one that fails. -/
theorem not_lessEqThanWithPublic2_returns :
    let s : DietMacAndCheeseProver F2 F40b :=
      ⟨⟨⟨.const ⟨[⟨1, 0⟩], by simp⟩, [], ⟨0, 0⟩⟩⟩, [], ⟨0, 0, 1, 1, 0⟩⟩
    let t : DietMacAndCheeseVerifier F40b := ⟨s.prover.keys 1, [], ⟨0, 1, 1, 0⟩⟩
    let C : Primitives (Msg F40b F61p) (Draw F40b F61p) :=
      ⟨fun _ => .const ⟨0, 0, 0, 0, 0⟩, fun _ => 0⟩
    let rng : Stream' (Draw F40b F61p) := .const ⟨1, 0, 0, 0, 0⟩
    ¬∃ bit : Unit → F2, ∀ (a : List (MacProver F2 F40b)) (b : List F2), a.length = b.length →
      Lockstep (DietMacAndCheeseProver.lessEqThanWithPublic2 C false a b s rng :
          Proc (Msg F40b F61p) _)
        (DietMacAndCheeseVerifier.lessEqThanWithPublic2 C false (a.map (MacProver.key 1)) b t rng)
        fun x _ => bit x.1.1 = 0 ↔ Bits.toNat (a.map MacProver.value) ≤ Bits.toNat b := by
  rintro s t C rng ⟨bit, hbit⟩
  obtain ⟨_, _, _, _, _, hholds⟩ := hbit [⟨0, 0⟩] [0] rfl
  obtain ⟨_, _, _, _, _, hfails⟩ := hbit [⟨1, 0⟩] [0] rfl
  have hzero : bit () = 0 := hholds.2 le_rfl
  exact absurd (hfails.1 hzero) (by decide)

end EdaBitGen
