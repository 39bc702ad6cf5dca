import EdaBitGen.Algebra.Roots
import EdaBitGen.HomCom.Correlation

/-!
# The QuickSilver multiplication check

A batch of triples is checked with the powers of one challenge: the sum of `(m_x - Δ x)(m_y - Δ y) +
Δ (m_z - Δ z)` is a polynomial in `Δ` whose coefficient at `Δ²` is the sum of the `x y - z`.  The
batch form and the incremental form of the check are the same programs.
-/

namespace EdaBitGen

open Interaction Party

abbrev TripleProver (PF FE : Type) := MacProver PF FE × MacProver PF FE × MacProver PF FE

abbrev TripleVerifier (FE : Type) := MacVerifier FE × MacVerifier FE × MacVerifier FE

structure StateMultCheckProver (FE : Type) where
  sumA0 : FE
  sumA1 : FE
  chiPower : FE
  chi : FE
  cnt : ℕ

structure StateMultCheckVerifier (FE : Type) where
  sumB : FE
  powerChi : FE
  chi : FE
  cnt : ℕ

variable {M D G H PF FE : Type} [Field PF] [Field FE] [Algebra PF FE]

/-! ## The prover -/

namespace StateMultCheckProver

def init [CanonicalSerialize M FE] {σ : Type} : Party M G σ (StateMultCheckProver FE) := do
  flush
  let chi : FE ← readSerializable
  pure { sumA0 := 0, sumA1 := 0, chiPower := chi, chi := chi, cnt := 0 }

def reset (state : StateMultCheckProver FE) : StateMultCheckProver FE :=
  { sumA0 := 0, sumA1 := 0, chiPower := state.chi, chi := state.chi, cnt := 0 }

end StateMultCheckProver

namespace FComProver

/-- The block VOPE(1): a mask and its MAC. -/
def vope [FiniteField PF FE] : Party M G (FComProver PF FE) (FE × FE) :=
  (List.finRange (FiniteField.degree PF FE)).foldlM (fun acc i => do
    let u ← random
    pure (acc.1 + u.value • makeXI PF FE i, acc.2 + u.mac * makeXI PF FE i)) (0, 0)

/-- The loop over the triples: the sums of `a0` and of `a1` and the power of `chi`. -/
def multSums (chi : FE) (acc : FE × FE × FE) (triples : List (TripleProver PF FE)) :
    FE × FE × FE :=
  triples.foldl (fun acc t =>
    let a0 := t.1.mac * t.2.1.mac
    let a1 := t.2.1.value • t.1.mac + t.1.value • t.2.1.mac - t.2.2.mac
    (acc.1 + a0 * acc.2.2, acc.2.1 + a1 * acc.2.2, acc.2.2 * chi)) acc

def quicksilverCheckMultiply [FiniteField PF FE] [CanonicalSerialize M FE]
    (triples : List (TripleProver PF FE)) : Party M G (FComProver PF FE) Unit := do
  let chi : FE ← readSerializable
  let sums := multSums chi (0, 0, chi) triples
  let mask ← vope
  let u := sums.1 + mask.2
  let v := sums.2.1 + mask.1
  writeSerializable u
  writeSerializable v
  flush

def quicksilverPush (state : StateMultCheckProver FE) (t : TripleProver PF FE) :
    StateMultCheckProver FE :=
  let a0 := t.1.mac * t.2.1.mac
  let a1 := t.2.1.value • t.1.mac + t.1.value • t.2.1.mac - t.2.2.mac
  { state with
    sumA0 := state.sumA0 + a0 * state.chiPower
    sumA1 := state.sumA1 + a1 * state.chiPower
    chiPower := state.chiPower * state.chi
    cnt := state.cnt + 1 }

def quicksilverFinalize [FiniteField PF FE] [CanonicalSerialize M FE]
    (state : StateMultCheckProver FE) :
    Party M G (FComProver PF FE) (ℕ × StateMultCheckProver FE) := do
  let mask ← vope
  let u := state.sumA0 + mask.2
  let v := state.sumA1 + mask.1
  writeSerializable u
  writeSerializable v
  flush
  pure (state.cnt, state.reset)

end FComProver

/-! ## The verifier -/

namespace StateMultCheckVerifier

def init [CanonicalSerialize M FE] [Random D FE] {σ : Type} :
    Party M (Stream' D) σ (StateMultCheckVerifier FE) := do
  let chi ← random FE
  writeSerializable chi
  flush
  pure { sumB := 0, powerChi := chi, chi := chi, cnt := 0 }

def reset (state : StateMultCheckVerifier FE) : StateMultCheckVerifier FE :=
  { sumB := 0, powerChi := state.chi, chi := state.chi, cnt := 0 }

end StateMultCheckVerifier

namespace FComVerifier

/-- The block VOPE(1): the key of the mask. -/
def vope (PF : Type) [Field PF] [Algebra PF FE] [FiniteField PF FE] :
    Party M G (FComVerifier FE) FE :=
  (List.finRange (FiniteField.degree PF FE)).foldlM (fun maskMac i => do
    let v ← random
    pure (maskMac + v.mac * makeXI PF FE i)) 0

/-- The loop over the triples: the sum of `b` and the power of `chi`. -/
def multSums (delta chi : FE) (acc : FE × FE) (triples : List (TripleVerifier FE)) : FE × FE :=
  triples.foldl (fun acc t =>
    let b := t.1.mac * t.2.1.mac + delta * t.2.2.mac
    (acc.1 + b * acc.2, acc.2 * chi)) acc

def quicksilverCheckMultiply (PF : Type) [Field PF] [Algebra PF FE] [FiniteField PF FE]
    [DecidableEq FE] [CanonicalSerialize M FE] [Random D FE] (triples : List (TripleVerifier FE)) :
    Party M (Stream' D) (FComVerifier FE) Unit := do
  let chi ← EdaBitGen.random FE
  writeSerializable chi
  flush
  let self ← get
  let sums := multSums self.delta chi (0, chi) triples
  let maskMac ← vope PF
  let u : FE ← readSerializable
  let v : FE ← readSerializable
  let bPlus := sums.1 + maskMac
  assert (bPlus = u + -self.delta * v) "checkMultiply fails"

def quicksilverPush (self : FComVerifier FE) (state : StateMultCheckVerifier FE)
    (t : TripleVerifier FE) : StateMultCheckVerifier FE :=
  let b := t.1.mac * t.2.1.mac + self.delta * t.2.2.mac
  { state with
    sumB := state.sumB + b * state.powerChi
    powerChi := state.powerChi * state.chi
    cnt := state.cnt + 1 }

def quicksilverFinalize (PF : Type) [Field PF] [Algebra PF FE] [FiniteField PF FE]
    [DecidableEq FE] [CanonicalSerialize M FE] (state : StateMultCheckVerifier FE) :
    Party M G (FComVerifier FE) (ℕ × StateMultCheckVerifier FE) := do
  let self ← get
  let maskMac ← vope PF
  let u : FE ← readSerializable
  let v : FE ← readSerializable
  let bPlus := state.sumB + maskMac
  assert (bPlus = u + -self.delta * v) "checkMultiply fails"
  pure (state.cnt, state.reset)

end FComVerifier

/-! ## The two forms of the check -/

theorem foldl_quicksilverPush_prover (ts : List (TripleProver PF FE))
    (state : StateMultCheckProver FE) :
    ts.foldl FComProver.quicksilverPush state =
      let sums := FComProver.multSums state.chi (state.sumA0, state.sumA1, state.chiPower) ts
      { sumA0 := sums.1, sumA1 := sums.2.1, chiPower := sums.2.2, chi := state.chi,
        cnt := state.cnt + ts.length } := by
  induction ts generalizing state with
  | nil => rfl
  | cons t ts ih =>
    rw [List.foldl_cons, ih, List.length_cons]
    simp [FComProver.quicksilverPush, FComProver.multSums, add_assoc, add_comm 1]

theorem foldl_quicksilverPush_verifier (self : FComVerifier FE) (ts : List (TripleVerifier FE))
    (state : StateMultCheckVerifier FE) :
    ts.foldl self.quicksilverPush state =
      let sums := FComVerifier.multSums self.delta state.chi (state.sumB, state.powerChi) ts
      { sumB := sums.1, powerChi := sums.2, chi := state.chi, cnt := state.cnt + ts.length } := by
  induction ts generalizing state with
  | nil => rfl
  | cons t ts ih =>
    rw [List.foldl_cons, ih, List.length_cons]
    simp [FComVerifier.quicksilverPush, FComVerifier.multSums, add_assoc, add_comm 1]

theorem sumB_foldl_quicksilverPush (self : FComVerifier FE) (chi : FE)
    (ts : List (TripleVerifier FE)) :
    (ts.foldl self.quicksilverPush ⟨0, chi, chi, 0⟩).sumB =
      (FComVerifier.multSums self.delta chi (0, chi) ts).1 := by
  rw [foldl_quicksilverPush_verifier]

theorem quicksilverPush_congr {self self' : FComVerifier FE} (h : self.delta = self'.delta) :
    self.quicksilverPush = self'.quicksilverPush := by
  funext state t
  simp only [FComVerifier.quicksilverPush, h]

theorem reset_foldl_quicksilverPush (self : FComVerifier FE) (chi : FE)
    (ts : List (TripleVerifier FE)) :
    (ts.foldl self.quicksilverPush ⟨0, chi, chi, 0⟩).reset = ⟨0, chi, chi, 0⟩ := by
  rw [foldl_quicksilverPush_verifier]
  rfl

section Forms

variable [FiniteField PF FE] [CanonicalSerialize M FE]

/-- The prover's incremental form: push every triple, then finalize. -/
def FComProver.pushAndFinalize (triples : List (TripleProver PF FE)) :
    Party M G (FComProver PF FE) (ℕ × StateMultCheckProver FE) := do
  let state ← StateMultCheckProver.init
  quicksilverFinalize (triples.foldl quicksilverPush state)

/-- The verifier's incremental form. -/
def FComVerifier.pushAndFinalize (PF : Type) [Field PF] [Algebra PF FE] [FiniteField PF FE]
    [DecidableEq FE] [Random D FE] (triples : List (TripleVerifier FE)) :
    Party M (Stream' D) (FComVerifier FE) (ℕ × StateMultCheckVerifier FE) := do
  let state ← StateMultCheckVerifier.init
  let self ← get
  quicksilverFinalize PF (triples.foldl self.quicksilverPush state)

theorem FComProver.pushAndFinalize_eq (triples : List (TripleProver PF FE)) :
    (do let _ ← pushAndFinalize triples : Party M G (FComProver PF FE) Unit) =
      (do flush; quicksilverCheckMultiply triples) := by
  unfold pushAndFinalize StateMultCheckProver.init quicksilverFinalize quicksilverCheckMultiply
  simp only [bind_assoc, pure_bind, foldl_quicksilverPush_prover]
  simp only [bind_pure_unit]

theorem FComVerifier.pushAndFinalize_eq [DecidableEq FE] [Random D FE]
    (triples : List (TripleVerifier FE)) :
    (do let _ ← pushAndFinalize PF triples : Party M (Stream' D) (FComVerifier FE) Unit) =
      quicksilverCheckMultiply PF triples := by
  unfold pushAndFinalize StateMultCheckVerifier.init quicksilverFinalize quicksilverCheckMultiply
  simp only [bind_assoc, pure_bind, bind_pure_unit]
  funext s g
  simp only [bind_apply, get_apply, Proc.pure_bind']
  simp only [foldl_quicksilverPush_verifier]

end Forms

/-! ## The polynomial in `Δ` -/

/-- The keys of a triple. -/
def TripleProver.keys (Δ : FE) (t : TripleProver PF FE) : TripleVerifier FE :=
  (t.1.key Δ, t.2.1.key Δ, t.2.2.key Δ)

/-- How far a triple is from a product: `x y - z`. -/
def TripleProver.defect (t : TripleProver PF FE) : FE :=
  algebraMap PF FE (t.1.value * t.2.1.value - t.2.2.value)

theorem TripleProver.keys_check (Δ : FE) (t : TripleProver PF FE) :
    (t.keys Δ).1.mac * (t.keys Δ).2.1.mac + Δ * (t.keys Δ).2.2.mac =
      t.1.mac * t.2.1.mac -
        Δ * (t.2.1.value • t.1.mac + t.1.value • t.2.1.mac - t.2.2.mac) + Δ ^ 2 * t.defect := by
  simp only [keys, defect, MacProver.key, Algebra.smul_def, map_sub, map_mul]
  ring

theorem multSums_keys (Δ chi : FE) (ts : List (TripleProver PF FE)) (acc : FE × FE × FE) (d : FE) :
    (FComVerifier.multSums Δ chi (acc.1 - Δ * acc.2.1 + Δ ^ 2 * d, acc.2.2)
        (ts.map (TripleProver.keys Δ))).1 =
      (FComProver.multSums chi acc ts).1 - Δ * (FComProver.multSums chi acc ts).2.1 +
        Δ ^ 2 * (d + acc.2.2 * Roots.hornerSum chi (ts.map TripleProver.defect)) := by
  induction ts generalizing acc d with
  | nil => simp [FComVerifier.multSums, FComProver.multSums, Roots.hornerSum]
  | cons t ts ih =>
    have hstep := ih (acc.1 + t.1.mac * t.2.1.mac * acc.2.2,
      acc.2.1 + (t.2.1.value • t.1.mac + t.1.value • t.2.1.mac - t.2.2.mac) * acc.2.2,
      acc.2.2 * chi) (d + t.defect * acc.2.2)
    simp only [FComVerifier.multSums, FComProver.multSums, List.map_cons, List.foldl_cons,
      Roots.hornerSum] at hstep ⊢
    rw [t.keys_check Δ]
    convert hstep using 2
    · ring_nf
    · ring

theorem multSums_keys_init (Δ chi : FE) (ts : List (TripleProver PF FE)) :
    (FComVerifier.multSums Δ chi (0, chi) (ts.map (TripleProver.keys Δ))).1 =
      (FComProver.multSums chi (0, 0, chi) ts).1 -
        Δ * (FComProver.multSums chi (0, 0, chi) ts).2.1 +
        Δ ^ 2 * Roots.powerSum chi (ts.map TripleProver.defect) := by
  have h := multSums_keys Δ chi ts (0, 0, chi) 0
  rw [Roots.powerSum_eq_mul_hornerSum]
  simpa using h

/-- The verifier's check is a polynomial equation in `Δ`, whose coefficient at `Δ²` is the sum of
the defects with the powers of the challenge. -/
theorem check_iff_quadratic {s : FComProver PF FE} {Δ chi u v : FE}
    {ts : List (TripleProver PF FE)} {mask : FE × FE} :
    ((ts.map (TripleProver.keys Δ)).foldl (s.keys Δ).quicksilverPush ⟨0, chi, chi, 0⟩).sumB +         (mask.2 - Δ * mask.1) = u + -Δ * v ↔
      ((FComProver.multSums chi (0, 0, chi) ts).1 + mask.2 - u) +
        (v - mask.1 - (FComProver.multSums chi (0, 0, chi) ts).2.1) * Δ +
        Roots.powerSum chi (ts.map TripleProver.defect) * Δ ^ 2 = 0 := by
  rw [sumB_foldl_quicksilverPush, FComProver.keys_delta, multSums_keys_init]
  constructor <;> intro h <;> linear_combination h

/-! ## Completeness and soundness -/

theorem sum_defects_eq_zero {triples : List (TripleProver PF FE)}
    (h : ∀ t ∈ triples, t.2.2.value = t.1.value * t.2.1.value) (chi : FE) :
    Roots.powerSum chi (triples.map TripleProver.defect) = 0 := by
  refine Roots.powerSum_eq_zero_of_forall chi (List.forall_mem_map.2 fun t ht => ?_)
  rw [TripleProver.defect, h t ht, sub_self, map_zero]

section Check

variable [FiniteField PF FE]

theorem emits_vope (s : FComProver PF FE) :
    ∃ mask s', Emits (FComProver.vope : Party M G (FComProver PF FE) _) s mask s' ∧
      ∀ Δ : FE, Emits (FComVerifier.vope PF : Party M H _ _) (s.keys Δ) (mask.2 - Δ * mask.1)
        (s'.keys Δ) := by
  unfold FComProver.vope FComVerifier.vope
  suffices ∀ (is : List (Fin (FiniteField.degree PF FE))) (s : FComProver PF FE) (acc : FE × FE),
      ∃ mask s', Emits (is.foldlM (fun acc i => do
          let u ← (FComProver.random : Party M G (FComProver PF FE) _)
          pure (acc.1 + u.value • makeXI PF FE i, acc.2 + u.mac * makeXI PF FE i)) acc)
        s mask s' ∧
      ∀ Δ : FE, Emits (is.foldlM (fun maskMac i => do
          let v ← (FComVerifier.random : Party M H _ _)
          pure (maskMac + v.mac * makeXI PF FE i)) (acc.2 - Δ * acc.1))
        (s.keys Δ) (mask.2 - Δ * mask.1) (s'.keys Δ) by
    simpa using this (List.finRange _) s (0, 0)
  intro is
  induction is with
  | nil => exact fun s acc => ⟨acc, s, Emits.pure, fun Δ => Emits.pure⟩
  | cons i is ih =>
    intro s acc
    obtain ⟨mask, s', hp, hv⟩ := ih ⟨s.pool.draw.2⟩
      (acc.1 + s.pool.draw.1.value • makeXI PF FE i, acc.2 + s.pool.draw.1.mac * makeXI PF FE i)
    refine ⟨mask, s', ?_, fun Δ => ?_⟩
    · rw [List.foldlM_cons]
      exact Emits.bind (Emits.bind (emits_random s) Emits.pure) hp
    · rw [List.foldlM_cons]
      refine Emits.bind (Emits.bind (emits_random_keys s Δ) Emits.pure) ?_
      convert hv Δ using 2
      simp only [MacProver.key, Algebra.smul_def]
      ring

theorem sync_vope {Δ : FE} :
    Sync (Correlated Δ) (FComProver.vope : Party M G (FComProver PF FE) _)
      (FComVerifier.vope PF : Party M H _ _) fun mask k => k = mask.2 - Δ * mask.1 := by
  refine Sync.foldlM (R := Eq) ?_ (List.forall₂_refl _) (by simp)
  rintro mask _ i _ rfl rfl
  refine sync_random.bind fun p v hv => Sync.pure ?_
  simp only [hv, MacProver.key, Algebra.smul_def]
  ring

variable [DecidableEq FE] [CanonicalSerialize M FE]

theorem sync_quicksilverCheckMultiply [Random D FE] {Δ : FE} {triples : List (TripleProver PF FE)}
    (h : ∀ t ∈ triples, t.2.2.value = t.1.value * t.2.1.value) :
    Sync (Correlated Δ)
      (FComProver.quicksilverCheckMultiply triples : Party M G (FComProver PF FE) _)
      (FComVerifier.quicksilverCheckMultiply PF (triples.map (TripleProver.keys Δ)) :
        Party M (Stream' D) _ _) fun _ _ => True := by
  unfold FComProver.quicksilverCheckMultiply FComVerifier.quicksilverCheckMultiply
  refine Sync.random_right fun chi => Sync.read_writeSerializable ?_
  refine Sync.flush_right (Sync.get_right fun s t hst => ?_)
  refine sync_vope.bind fun mask k hk => ?_
  refine Sync.write_readSerializable (Sync.write_readSerializable ?_)
  rw [← bind_pure flush]
  refine Sync.flush_left ?_
  rw [assert_true]
  · exact Sync.pure trivial
  · rw [show t.delta = Δ by rw [hst, FComProver.keys_delta], multSums_keys_init, sum_defects_eq_zero h, hk]
    ring

theorem run_quicksilverFinalize (s : FComProver PF FE) :
    ∃ (mask : FE × FE) (s' : FComProver PF FE), ∀ (Δ : FE) (state : StateMultCheckVerifier FE)
      (h : G) (inbox : List M) r,
      Proc.run (FComVerifier.quicksilverFinalize PF state (s.keys Δ) h) inbox = some r →
      ∃ msg msg' rest u v, inbox = msg :: msg' :: rest ∧
        CanonicalSerialize.ofMsg msg = some u ∧ CanonicalSerialize.ofMsg msg' = some v ∧
        state.sumB + (mask.2 - Δ * mask.1) = u + -Δ * v ∧
        r = ((((state.cnt, state.reset), s'.keys Δ), h), rest) := by
  obtain ⟨mask, s', -, hv⟩ := @emits_vope M G G PF FE _ _ _ _ s
  refine ⟨mask, s', fun Δ state h inbox r hrun => ?_⟩
  obtain ⟨⟨⟨⟨cnt, state'⟩, t⟩, h'⟩, rest'⟩ := r
  unfold FComVerifier.quicksilverFinalize at hrun
  rw [bind_apply, get_apply, Proc.pure_bind', bind_apply, Proc.run_bind, hv Δ, Option.bind_some,
    run_bind_eq_some] at hrun
  obtain ⟨u, s₁, h₁, mid, hu, hrun⟩ := hrun
  obtain ⟨msg, rfl, hmsg, rfl, rfl⟩ := run_readSerializable_eq_some.1 hu
  rw [run_bind_eq_some] at hrun
  obtain ⟨v, s₂, h₂, mid₂, hv', hrun⟩ := hrun
  obtain ⟨msg', rfl, hmsg', rfl, rfl⟩ := run_readSerializable_eq_some.1 hv'
  rw [run_bind_eq_some] at hrun
  obtain ⟨_, s₃, h₃, mid₃, hassert, hrun⟩ := hrun
  obtain ⟨hcheck, rfl, rfl, rfl⟩ := run_assert_eq_some.1 hassert
  simp only [pure_apply, Proc.run_pure, Option.some.injEq] at hrun
  exact ⟨msg, msg', mid₃, u, v, rfl, hmsg, hmsg', hcheck, hrun.symm⟩

/-- If the sum of the defects with the powers of the challenge is not zero, a fixed list of
messages is accepted for at most two `Δ`. -/
theorem quicksilverFinalize_binding (triples : List (TripleProver PF FE)) (inbox : List M)
    (s : FComProver PF FE) (chi : FE) (h : G)
    (hne : Roots.powerSum chi (triples.map TripleProver.defect) ≠ (0 : FE)) :
    {Δ : FE | ∃ r, Proc.run (FComVerifier.quicksilverFinalize PF
      ((triples.map (TripleProver.keys Δ)).foldl (s.keys Δ).quicksilverPush ⟨0, chi, chi, 0⟩)
      (s.keys Δ) h) inbox = some r}.encard ≤ 2 := by
  obtain ⟨mask, _, hmask⟩ := @run_quicksilverFinalize M G PF FE _ _ _ _ _ _ s
  by_cases hacc : ∃ msg msg' rest, ∃ u v : FE, inbox = msg :: msg' :: rest ∧
      CanonicalSerialize.ofMsg msg = some u ∧ CanonicalSerialize.ofMsg msg' = some v
  · obtain ⟨msg, msg', rest, u, v, rfl, hu, hv⟩ := hacc
    refine le_trans (Set.encard_le_encard ?_) (Roots.encard_quadratic_le_two
      (a := (FComProver.multSums chi (0, 0, chi) triples).1 + mask.2 - u)
      (b := v - mask.1 - (FComProver.multSums chi (0, 0, chi) triples).2.1) hne)
    rintro Δ ⟨r, hrun⟩
    obtain ⟨_, _, _, u', v', hinbox, hu', hv', hcheck, -⟩ := hmask Δ _ h _ r hrun
    obtain ⟨rfl, rfl, rfl⟩ : _ ∧ _ ∧ _ := by simpa using hinbox
    obtain rfl : u = u' := by simpa [hu] using hu'
    obtain rfl : v = v' := by simpa [hv] using hv'
    exact check_iff_quadratic.1 hcheck
  · refine (Set.encard_eq_zero.2 (Set.eq_empty_of_forall_notMem ?_)).trans_le zero_le_two
    rintro Δ ⟨r, hrun⟩
    obtain ⟨msg, msg', rest, u, v, hinbox, hu, hv, -⟩ := hmask Δ _ h _ r hrun
    exact hacc ⟨msg, msg', rest, u, v, hinbox, hu, hv⟩

variable [Random D FE]

theorem quicksilverCheckMultiply_binding (triples : List (TripleProver PF FE)) (inbox : List M)
    (s : FComProver PF FE) (h : Stream' D)
    (hne : Roots.powerSum (Random.random h.head) (triples.map TripleProver.defect) ≠ (0 : FE)) :
    {Δ : FE | ∃ r, Proc.run (FComVerifier.quicksilverCheckMultiply PF
      (triples.map (TripleProver.keys Δ)) (s.keys Δ) h) inbox = some r}.encard ≤ 2 := by
  refine le_trans (Set.encard_le_encard ?_)
    (quicksilverFinalize_binding triples inbox s (Random.random h.head) h.tail hne)
  rintro Δ ⟨⟨⟨⟨⟨⟩, t⟩, h'⟩, rest⟩, hrun⟩
  rw [← FComVerifier.pushAndFinalize_eq, run_bind_eq_some] at hrun
  obtain ⟨x, s₁, h₁, mid, hrun, -⟩ := hrun
  unfold FComVerifier.pushAndFinalize StateMultCheckVerifier.init writeSerializable
    EdaBitGen.random at hrun
  simp only [bind_apply, draw_apply, write_apply, flush_apply, get_apply, pure_apply,
    Proc.pure_bind', Proc.send_bind, Proc.flush_bind, Proc.run_send, Proc.run_flush] at hrun
  exact ⟨_, hrun⟩

/-- The check accepts the honest prover on products; where the sum of the defects with the powers
of the challenge is not zero it accepts fixed messages for at most two `Δ`, and with a wrong
triple at most as many challenges as triples make that sum zero.  The incremental form is the
batch form, up to one flush of the prover. -/
theorem quicksilverCheckMultiply_sound (triples : List (TripleProver PF FE)) :
    ((∀ t ∈ triples, t.2.2.value = t.1.value * t.2.1.value) →
      ∀ (Δ : FE) (s : FComProver PF FE) (g : G) (h : Stream' D),
        Lockstep (FComProver.quicksilverCheckMultiply triples s g : Proc M _)
          (FComVerifier.quicksilverCheckMultiply PF (triples.map (TripleProver.keys Δ)) (s.keys Δ) h)
          fun _ _ => True) ∧
    (∀ (s : FComProver PF FE) (h : Stream' D) (inbox : List M),
      Roots.powerSum (Random.random h.head) (triples.map TripleProver.defect) ≠ (0 : FE) →
      {Δ : FE | ∃ r, Proc.run (FComVerifier.quicksilverCheckMultiply PF
        (triples.map (TripleProver.keys Δ)) (s.keys Δ) h) inbox = some r}.encard ≤ 2) ∧
    ((∃ t ∈ triples, t.2.2.value ≠ t.1.value * t.2.1.value) →
      {chi : FE | Roots.powerSum chi (triples.map TripleProver.defect) = 0}.encard ≤
        triples.length) ∧
    (do let _ ← FComProver.pushAndFinalize triples : Party M G (FComProver PF FE) Unit) =
      (do flush; FComProver.quicksilverCheckMultiply triples) ∧
    ∀ keys : List (TripleVerifier FE),
      (do let _ ← FComVerifier.pushAndFinalize PF keys :
        Party M (Stream' D) (FComVerifier FE) Unit) =
        FComVerifier.quicksilverCheckMultiply PF keys := by
  refine ⟨fun hmul Δ s g h => ?_, fun s h inbox hne => ?_, fun hwrong => ?_, ?_, fun keys => ?_⟩
  · exact (sync_quicksilverCheckMultiply hmul s _ rfl g h).mono fun _ _ _ => trivial
  · exact quicksilverCheckMultiply_binding triples inbox s h hne
  · obtain ⟨t, ht, hne⟩ := hwrong
    have hdefect : ∃ c ∈ triples.map (TripleProver.defect : _ → FE), c ≠ 0 :=
      ⟨t.defect, List.mem_map_of_mem ht, fun h0 =>
        hne (sub_eq_zero.1 ((map_eq_zero (algebraMap PF FE)).1 h0)).symm⟩
    simpa using Roots.encard_powerSum_le hdefect
  · exact FComProver.pushAndFinalize_eq triples
  · exact FComVerifier.pushAndFinalize_eq keys

end Check

end EdaBitGen
