import EdaBitGen.Edabits.Dabits

/-!
# What the check of the dabits proves

A strategy cheats when it commits to masks, opens committed values after every challenge and passes
the multiplication check, whatever the keys are.  The masks are not tied to bits, so their weighted
sum is any start for the partial sums of the dabits; a start whose parities are all as the bits say
exists exactly when the spread of the dabits is smaller than `p`.
-/

namespace EdaBitGen

open Interaction Party

variable {M D G K : Type} {p : ℕ} [Fact p.Prime] [Field K] [Algebra F2 K]
  [CanonicalSerialize M F2] [CanonicalSerialize M (ZMod p)]

section Defs

variable [DecidableEq K] [CanonicalSerialize M K] [CanonicalSerialize M Block] [Random D F2]
  [Random D K] [Random D (ZMod p)] [Random D Block] (C : Primitives M D)

variable (D) in
/-- The messages commit the prover to the masks, whatever `Δ` are. -/
def Commits (s₀ : ProverConv K (ZMod p)) (s gamma : ℕ) (msgs : List M)
    (masks : Masks (MacProver (ZMod p) (ZMod p)) (MacProver F2 K))
    (s₁ : ProverConv K (ZMod p)) : Prop :=
  ∀ Δ₂ Δₑ (h : Stream' D),
    Proc.run (VerifierConv.fdabitInputs s gamma (s₀.keys Δ₂ Δₑ) h) msgs =
      some (((masks.keys Δ₂ Δₑ, s₁.keys Δ₂ Δₑ), h), [])

/-- The prover commits to masks, opens values after every challenge, which are the committed ones
unless their combination shows it, and answers the multiplication check, and the verifier accepts
whatever `Δ` are. -/
def CheatsDabits (s₀ : ProverConv K (ZMod p)) (s gamma : ℕ) (dabits : List (DabitProver K (ZMod p))) :
    Prop :=
  checkParameters p dabits.length gamma ∧
  ∃ (commits : List M) (masks : Masks (MacProver (ZMod p) (ZMod p)) (MacProver F2 K))
    (s₁ : ProverConv K (ZMod p)), Commits D s₀ s gamma commits masks s₁ ∧
    ∀ e : List (List F2), e.length = s → (∀ ek ∈ e, ek.length = dabits.length) →
      ∃ (opens : List M) (opened : List F2 × List (ZMod p)),
        Binding C opened.1 (rBatch dabits e masks) ∧
        Binding C opened.2 (tauBatch gamma dabits e masks) ∧
        (∀ Δ₂ Δₑ (h : Stream' D),
          Proc.run (VerifierConv.fdabitOpen C gamma (dabits.map (DabitProver.keys Δ₂ Δₑ)) e
            (masks.keys Δ₂ Δₑ) (s₁.keys Δ₂ Δₑ) h) opens =
              some (((opened, s₁.keys Δ₂ Δₑ), h), [])) ∧
        ∀ h : Stream' D, ∃ answer : List M, ∀ Δ₂ Δₑ,
          (Proc.run (VerifierConv.fdabitFinish (masks.keys Δ₂ Δₑ) opened (s₁.keys Δ₂ Δₑ) h)
            answer).isSome

/-- With a field element that is not its bit among the dabits, no strategy cheats. -/
def DabitsSound (s₀ : ProverConv K (ZMod p)) (s gamma : ℕ) (dabits : List (DabitProver K (ZMod p))) :
    Prop :=
  (∃ d ∈ dabits, d.value.value ≠ f2ToFe d.bit.value) → ¬CheatsDabits C s₀ s gamma dabits

/-- Whenever the verifier accepts a batch of `n` dabits, the values opened to it are the committed
ones and the triples are products, the committed masks are bits. -/
def MasksAreBits (s₀ : ProverConv K (ZMod p)) (s gamma n : ℕ) : Prop :=
  ∀ (dabits : List (DabitProver K (ZMod p))) Δ₂ Δₑ (h : Stream' D) (commits opens answer : List M)
    masks s₁, dabits.length = n → Commits D s₀ s gamma commits masks s₁ →
    (Proc.run (VerifierConv.fdabitRounds C s gamma (dabits.map (DabitProver.keys Δ₂ Δₑ))
      (s₀.keys Δ₂ Δₑ) h) (commits ++ (opens ++ answer))).isSome →
    Proc.run (VerifierConv.fdabitOpen C gamma (dabits.map (DabitProver.keys Δ₂ Δₑ))
        (challengeBits C (Random.random h.head) s n) (masks.keys Δ₂ Δₑ) (s₁.keys Δ₂ Δₑ) h.tail)
      opens = some (((openedValues gamma dabits (challengeBits C (Random.random h.head) s n) masks,
        s₁.keys Δ₂ Δₑ), h.tail), []) →
    (∀ t ∈ masks.triples, t.2.2.value = t.1.value * t.2.1.value) →
    ∀ row ∈ masks.cM, ∀ c ∈ row, c.value = 0 ∨ c.value = 1

end Defs

/-! ## The three rounds -/

section Rounds

omit [CanonicalSerialize M F2] in
theorem exists_run_rows {γ : Type} {gamma : ℕ} (rows : List (List (ZMod p)))
    (hrows : ∀ row ∈ rows, row.length = gamma) (ys : List γ) (hys : ys.length = rows.length)
    (s₀ : ProverConv K (ZMod p)) :
    ∃ (msgs : List M) (cs : List (List (MacProver (ZMod p) (ZMod p)))) (s₁ : ProverConv K (ZMod p)),
      cs.map (List.map MacProver.value) = rows ∧ ∀ Δ₂ Δₑ (g : G) (rest : List M),
        Proc.run ((ys.mapM fun _ => zoom VerifierConv.fe (FComVerifier.input (ZMod p) gamma))
          (s₀.keys Δ₂ Δₑ) g) (msgs ++ rest) =
            some (((cs.map (List.map (MacProver.key Δₑ)), s₁.keys Δ₂ Δₑ), g), rest) := by
  induction rows generalizing ys s₀ with
  | nil =>
    cases List.eq_nil_of_length_eq_zero hys
    exact ⟨[], [], s₀, rfl, fun _ _ _ _ => rfl⟩
  | cons row rows ih =>
    cases ys with
    | nil => simp at hys
    | cons y ys =>
      obtain ⟨hrow, hrows⟩ := List.forall_mem_cons.1 hrows
      obtain ⟨msgs, cs, s₁, hcs, hrun⟩ := ih hrows ys (by simpa using hys)
        { s₀ with fcomFe := s₀.fcomFe.skip row.length }
      refine ⟨CanonicalSerialize.seqToMsg (s₀.fcomFe.corrections row) :: msgs,
        s₀.fcomFe.committed (s₀.fcomFe.corrections row) :: cs, s₁, ?_, fun Δ₂ Δₑ g rest => ?_⟩
      · rw [List.map_cons, FComProver.values_committed, hcs]
      · rw [List.mapM_cons]
        refine run_bind_eq_some.2 ⟨_, _, _, _, run_zoom_eq_some.2 ⟨_, ?_, rfl⟩,
          run_bind_eq_some.2 ⟨_, _, _, _, hrun Δ₂ Δₑ g rest, rfl⟩⟩
        rw [← hrow]
        exact run_input_corrections s₀.fcomFe Δₑ row g (msgs ++ rest)

theorem bitTriples_products (cs zs : List (MacProver (ZMod p) (ZMod p)))
    (h : zs.map MacProver.value = cs.map fun c => c.value * (1 + -1 * c.value)) :
    ∀ t ∈ ProverConv.bitTriples cs zs, t.2.2.value = t.1.value * t.2.1.value := by
  induction cs generalizing zs with
  | nil => simp [ProverConv.bitTriples]
  | cons c cs ih =>
    cases zs with
    | nil => simp [ProverConv.bitTriples]
    | cons z zs =>
      simp only [List.map_cons, List.cons.injEq] at h
      intro t ht
      rcases List.mem_cons.1 ht with rfl | ht
      · exact h.1
      · exact ih zs h.2 t ht

theorem exists_commits {s gamma : ℕ} {rows : List (List (ZMod p))} {c1 : List F2}
    (hrows : ∀ row ∈ rows, row.length = gamma) (hs : rows.length = s) (hc1 : c1.length = s)
    (s₀ : ProverConv K (ZMod p)) :
    ∃ (msgs : List M) (masks : Masks (MacProver (ZMod p) (ZMod p)) (MacProver F2 K))
      (s₁ : ProverConv K (ZMod p)), Commits D s₀ s gamma msgs masks s₁ ∧
      masks.cM.map (List.map MacProver.value) = rows ∧ masks.c1.map MacProver.value = c1 ∧
      ∀ t ∈ masks.triples, t.2.2.value = t.1.value * t.2.1.value := by
  subst hc1
  obtain ⟨msgs, cs, s', hcs, hrun⟩ := @exists_run_rows M (Stream' D) K p _ _ _ _ ℕ gamma rows hrows
    (List.range c1.length) (by rw [List.length_range, hs]) s₀
  let andRes := cs.flatten.map fun c => c.value * (1 + -1 * c.value)
  let c1Mac := s'.fcomF2.committed (s'.fcomF2.corrections c1)
  let andResMac := s'.fcomFe.committed (s'.fcomFe.corrections andRes)
  have hlen : andRes.length = gamma * c1.length := by
    have hflat : cs.flatten.length = rows.flatten.length := by
      rw [← hcs, ← List.map_flatten, List.length_map]
    rw [List.length_map, hflat, List.length_flatten,
      List.map_congr_left hrows, List.map_const', List.sum_replicate, hs, smul_eq_mul, mul_comm]
  refine ⟨msgs ++ [CanonicalSerialize.seqToMsg (s'.fcomF2.corrections c1),
      CanonicalSerialize.seqToMsg (s'.fcomFe.corrections andRes)],
    ⟨cs, c1Mac, ProverConv.bitTriples cs.flatten andResMac⟩,
    ⟨s'.fcomF2.skip c1.length, s'.fcomFe.skip (gamma * c1.length)⟩, fun Δ₂ Δₑ h => ?_, hcs, ?_, ?_⟩
  · unfold VerifierConv.fdabitInputs
    have hinput := run_input_corrections (M := M) s'.fcomFe Δₑ andRes h []
    rw [hlen] at hinput
    refine run_bind_eq_some.2 ⟨_, _, _, _, hrun Δ₂ Δₑ h _, ?_⟩
    refine run_bind_eq_some.2 ⟨_, _, _, _, run_zoom_eq_some.2
      ⟨_, run_input_corrections s'.fcomF2 Δ₂ c1 h _, rfl⟩, ?_⟩
    refine run_bind_eq_some.2 ⟨_, _, _, _, run_zoom_eq_some.2 ⟨_, hinput, rfl⟩, ?_⟩
    rw [run_get_bind, pure_apply, Proc.run_pure]
    have hflatten : (cs.map (List.map (MacProver.key Δₑ))).flatten =
        cs.flatten.map (MacProver.key Δₑ) := List.map_flatten.symm
    simp only [Masks.keys, keys_bitTriples Δₑ (s'.fcomFe.skip (gamma * c1.length)), hflatten]
    rfl
  · exact FComProver.values_committed _ _
  · exact bitTriples_products _ _ (FComProver.values_committed _ _)

section Opens

variable [DecidableEq K] [CanonicalSerialize M K] [Random D K] [Random D (ZMod p)]
  (C : Primitives M D) {gamma : ℕ} {dabits : List (DabitProver K (ZMod p))} {e : List (List F2)}
  {masks : Masks (MacProver (ZMod p) (ZMod p)) (MacProver F2 K)}

theorem run_fdabitOpen (s₁ : ProverConv K (ZMod p)) (Δ₂ : K) (Δₑ : ZMod p) (g : G) (rest : List M) :
    Proc.run (VerifierConv.fdabitOpen C gamma (dabits.map (DabitProver.keys Δ₂ Δₑ)) e
      (masks.keys Δ₂ Δₑ) (s₁.keys Δ₂ Δₑ) g)
      (openMsgs C (rBatch dabits e masks) ++ (openMsgs C (tauBatch gamma dabits e masks) ++ rest)) =
        some (((openedValues gamma dabits e masks, s₁.keys Δ₂ Δₑ), g), rest) := by
  unfold VerifierConv.fdabitOpen
  dsimp only
  rw [← keys_rBatch Δ₂ Δₑ dabits e masks, ← keys_tauBatch Δ₂ Δₑ gamma dabits e masks]
  refine run_bind_eq_some.2 ⟨_, _, _, _, run_zoom_eq_some.2
    ⟨_, run_openMsgs C (rBatch dabits e masks) (s₁.fcomF2.keys Δ₂) g _, rfl⟩, ?_⟩
  exact run_bind_eq_some.2 ⟨_, _, _, _, run_zoom_eq_some.2
    ⟨_, run_openMsgs C (tauBatch gamma dabits e masks) (s₁.fcomFe.keys Δₑ) g rest, rfl⟩, rfl⟩

theorem eq_openedValues {s₁ : ProverConv K (ZMod p)} {g : G} {opens : List M}
    {opened : List F2 × List (ZMod p)} (hr : Binding C opened.1 (rBatch dabits e masks))
    (htau : Binding C opened.2 (tauBatch gamma dabits e masks))
    (hrun : ∀ Δ₂ Δₑ, Proc.run (VerifierConv.fdabitOpen C gamma
      (dabits.map (DabitProver.keys Δ₂ Δₑ)) e (masks.keys Δ₂ Δₑ) (s₁.keys Δ₂ Δₑ) g) opens =
        some (((opened, s₁.keys Δ₂ Δₑ), g), [])) :
    opened = openedValues gamma dabits e masks := by
  have hsplit : ∀ Δ₂ Δₑ, ∃ t t' g₁ g₂ mid rest,
      Proc.run (FComVerifier.openMacs F2 C ((rBatch dabits e masks).map (MacProver.key Δ₂))
        (s₁.fcomF2.keys Δ₂) g) opens = some (((opened.1, t), g₁), mid) ∧
      Proc.run (FComVerifier.openMacs (ZMod p) C
        ((tauBatch gamma dabits e masks).map (MacProver.key Δₑ)) (s₁.fcomFe.keys Δₑ) g₁) mid =
          some (((opened.2, t'), g₂), rest) := by
    intro Δ₂ Δₑ
    have h := hrun Δ₂ Δₑ
    unfold VerifierConv.fdabitOpen at h
    dsimp only at h
    rw [← keys_rBatch Δ₂ Δₑ dabits e masks, ← keys_tauBatch Δ₂ Δₑ gamma dabits e masks] at h
    obtain ⟨r, s₂, g₁, mid, hzoom, h⟩ := run_bind_eq_some.1 h
    obtain ⟨t, h₁, rfl⟩ := run_zoom_eq_some.1 hzoom
    obtain ⟨tau, s₃, g₂, mid₂, hzoom', h⟩ := run_bind_eq_some.1 h
    obtain ⟨t', h₂, rfl⟩ := run_zoom_eq_some.1 hzoom'
    obtain ⟨rfl, -, -, -⟩ := run_pure_eq_some.1 h
    exact ⟨t, t', g₁, g₂, mid, mid₂, h₁, h₂⟩
  have hfirst : ∀ Δ₂, ∃ t g' rest, Proc.run (FComVerifier.openMacs F2 C
      ((rBatch dabits e masks).map (MacProver.key Δ₂)) (s₁.fcomF2.keys Δ₂) g) opens =
        some (((opened.1, t), g'), rest) := by
    intro Δ₂
    obtain ⟨t, -, g₁, -, mid, -, h₁, -⟩ := hsplit Δ₂ 0
    exact ⟨t, g₁, mid, h₁⟩
  -- what the first opening leaves does not depend on the second `Δ`
  obtain ⟨t₀, -, g₀, -, mid₀, -, h₀, -⟩ := hsplit 0 0
  have hsecond : ∀ Δₑ, ∃ t g' rest, Proc.run (FComVerifier.openMacs (ZMod p) C
      ((tauBatch gamma dabits e masks).map (MacProver.key Δₑ)) (s₁.fcomFe.keys Δₑ) g₀) mid₀ =
        some (((opened.2, t), g'), rest) := by
    intro Δₑ
    obtain ⟨t, t', g₁, g₂, mid, rest, h₁, h₂⟩ := hsplit 0 Δₑ
    rw [h₀, Option.some.injEq, Prod.mk.injEq, Prod.mk.injEq] at h₁
    obtain ⟨⟨-, rfl⟩, rfl⟩ := h₁
    exact ⟨t', g₂, rest, h₂⟩
  exact Prod.ext (eq_values_of_forall_run C hr (fun Δ₂ => (s₁.fcomF2.keys Δ₂).pool) hfirst)
    (eq_values_of_forall_run C htau (fun Δₑ => (s₁.fcomFe.keys Δₑ).pool) hsecond)

end Opens

section Finish

variable [Random D (ZMod p)] {masks : Masks (MacProver (ZMod p) (ZMod p)) (MacProver F2 K)}
  {opened : List F2 × List (ZMod p)} {s₁ : ProverConv K (ZMod p)}

omit [CanonicalSerialize M F2] in
theorem exists_answer (hmul : ∀ t ∈ masks.triples, t.2.2.value = t.1.value * t.2.1.value)
    (hpar : ∀ rt ∈ opened.1.zip opened.2, Parity.parity rt.2 = rt.1) (h : Stream' D) :
    ∃ answer : List M, ∀ Δ₂ Δₑ,
      (Proc.run (VerifierConv.fdabitFinish (masks.keys Δ₂ Δₑ) opened (s₁.keys Δ₂ Δₑ) h)
        answer).isSome := by
  obtain ⟨msgs, s', hrun⟩ := exists_run_quicksilverCheckMultiply (M := M) s₁.fcomFe hmul h
  refine ⟨msgs, fun Δ₂ Δₑ => ?_⟩
  have hcheck := hrun Δₑ []
  rw [List.append_nil] at hcheck
  have hfinish : Proc.run (VerifierConv.fdabitFinish (masks.keys Δ₂ Δₑ) opened (s₁.keys Δ₂ Δₑ) h)
      msgs = some (((((), VerifierConv.fe.set (s'.keys Δₑ) (s₁.keys Δ₂ Δₑ))), h.tail), []) := by
    unfold VerifierConv.fdabitFinish
    refine run_bind_eq_some.2 ⟨_, _, _, _, run_zoom_eq_some.2 ⟨_, hcheck, rfl⟩, ?_⟩
    exact run_assert_eq_some.2 ⟨(parities_iff opened).2 hpar, rfl, rfl, rfl⟩
  rw [hfinish]
  rfl

omit [CanonicalSerialize M F2] [Field K] [Algebra F2 K] in
theorem parities_of_run {keys : Masks (MacVerifier (ZMod p)) (MacVerifier K)}
    {t : VerifierConv K (ZMod p)} {h : Stream' D} {answer : List M}
    (hrun : (Proc.run (VerifierConv.fdabitFinish keys opened t h) answer).isSome) :
    ∀ rt ∈ opened.1.zip opened.2, Parity.parity rt.2 = rt.1 := by
  obtain ⟨⟨⟨⟨u, t'⟩, h'⟩, rest⟩, hrun⟩ := Option.isSome_iff_exists.1 hrun
  unfold VerifierConv.fdabitFinish at hrun
  obtain ⟨_, t₁, h₁, mid, -, hassert⟩ := run_bind_eq_some.1 hrun
  obtain ⟨hres, -⟩ := run_assert_eq_some.1 hassert
  exact (parities_iff opened).1 hres

end Finish

end Rounds

/-! ## The exact condition -/

section Condition

omit [Fact p.Prime] in
theorem four_lt_of_checkParameters {n gamma : ℕ} (hg : 0 < gamma)
    (h : checkParameters p n gamma) : 4 < p := by
  by_contra hp
  have hbits : numberOfBits p ≤ 2 := Nat.clog_le_of_le_pow (by omega)
  unfold checkParameters at h
  omega

theorem odd_of_checkParameters {n gamma : ℕ} (hg : 0 < gamma)
    (h : checkParameters p n gamma) : Odd p :=
  (Fact.out : p.Prime).odd_of_ne_two (by have := four_lt_of_checkParameters hg h; omega)

theorem linComb_replicate_zero {F : Type} [Field F] (chis : List F) (n : ℕ) :
    linComb chis (List.replicate n 0) = 0 := by
  induction n generalizing chis with
  | zero => cases chis <;> rfl
  | succ n ih =>
    cases chis with
    | nil => rfl
    | cons chi chis =>
      have ih' : (List.zipWith (· * ·) chis (List.replicate n 0)).sum = 0 := ih chis
      simp [linComb, List.replicate_succ, ih']

/-- The row of masks whose weighted sum is `v`. -/
def startRow (gamma : ℕ) (v : ZMod p) : List (ZMod p) := v :: List.replicate (gamma - 1) 0

theorem startValue_startRow {gamma : ℕ} (hg : 0 < gamma) {v : ZMod p}
    {ck : List (MacProver (ZMod p) (ZMod p))} (h : ck.map MacProver.value = startRow gamma v) :
    startValue gamma ck = v := by
  obtain ⟨gamma, rfl⟩ := Nat.exists_eq_succ_of_ne_zero hg.ne'
  have hzero := linComb_replicate_zero
    ((List.range gamma).map fun i => (fun t : ZMod p => t + t)^[i + 1] 1) gamma
  rw [startValue, h, startRow, ProverConv.twos, List.range_succ_eq_map]
  simp only [linComb, List.map_cons, List.map_map, List.zipWith_cons_cons, List.sum_cons,
    Function.iterate_zero, id_eq, one_mul, Nat.succ_sub_one] at hzero ⊢
  exact (congrArg (v + ·) hzero).trans (add_zero v)

variable {s gamma : ℕ} {dabits : List (DabitProver K (ZMod p))} {e : List (List F2)}
  {masks : Masks (MacProver (ZMod p) (ZMod p)) (MacProver F2 K)}

omit [Field K] [Algebra F2 K] [CanonicalSerialize M F2] [CanonicalSerialize M (ZMod p)] in
theorem parities_of_predicts [Field K] [Algebra F2 K] {v : ZMod p} {c : F2}
    (h : Parity.Predicts (pairs dabits) v c)
    (hrows : ∀ ck ∈ masks.cM, startValue gamma ck = v) (hc1 : ∀ c1 ∈ masks.c1, c1.value = c)
    (he : ∀ ek ∈ e, ek.length = dabits.length) :
    ∀ rt ∈ (openedValues gamma dabits e masks).1.zip (openedValues gamma dabits e masks).2,
      Parity.parity rt.2 = rt.1 := by
  intro rt hrt
  obtain ⟨i, hi, rfl⟩ := List.mem_iff_getElem.1 hrt
  simp only [openedValues, values_rBatch, values_tauBatch, List.getElem_zip, List.getElem_zipWith]
  rw [hrows _ (List.getElem_mem _), hc1 _ (List.getElem_mem _)]
  exact h _ ((he _ (List.getElem_mem _)).trans (by simp [pairs]))

theorem exists_start (hg : 0 < gamma) (s₀ : ProverConv K (ZMod p)) (v : ZMod p) (c : F2) :
    ∃ (msgs : List M) (masks : Masks (MacProver (ZMod p) (ZMod p)) (MacProver F2 K))
      (s₁ : ProverConv K (ZMod p)), Commits D s₀ s gamma msgs masks s₁ ∧
      masks.cM.map (List.map MacProver.value) = List.replicate s (startRow gamma v) ∧
      (∀ ck ∈ masks.cM, startValue gamma ck = v) ∧ (∀ c1 ∈ masks.c1, c1.value = c) ∧
      ∀ t ∈ masks.triples, t.2.2.value = t.1.value * t.2.1.value := by
  have hrow : (startRow gamma v).length = gamma := by
    simp only [startRow, List.length_cons, List.length_replicate]
    omega
  obtain ⟨msgs, masks, s₁, hcommits, hcM, hc1, hmul⟩ := @exists_commits M D K p _ _ _ _ _ s gamma
    (List.replicate s (startRow gamma v)) (List.replicate s c)
    (by rintro row hmem; rw [List.eq_of_mem_replicate hmem, hrow]) (List.length_replicate)
    (List.length_replicate) s₀
  refine ⟨msgs, masks, s₁, hcommits, hcM, fun ck hck => ?_, fun c1 hmem => ?_, hmul⟩
  · apply startValue_startRow hg
    exact List.eq_of_mem_replicate (hcM ▸ List.mem_map_of_mem hck)
  · exact List.eq_of_mem_replicate (hc1 ▸ List.mem_map_of_mem hmem)

theorem length_masks [Random D F2] {s₀ s₁ : ProverConv K (ZMod p)} {msgs : List M}
    (h : Commits D s₀ s gamma msgs masks s₁) : masks.cM.length = s ∧ masks.c1.length = s := by
  obtain ⟨d, -⟩ := Random.random_surjective (D := D) (0 : F2)
  have hrun := h 0 0 (Stream'.const d)
  unfold VerifierConv.fdabitInputs at hrun
  obtain ⟨cM, s₂, h₁, mid, hcM, hrun⟩ := run_bind_eq_some.1 hrun
  obtain ⟨c1, s₃, h₂, mid₂, hzoom, hrun⟩ := run_bind_eq_some.1 hrun
  obtain ⟨t, hc1, rfl⟩ := run_zoom_eq_some.1 hzoom
  obtain ⟨andRes, s₄, h₃, mid₃, -, hrun⟩ := run_bind_eq_some.1 hrun
  rw [run_get_bind, run_pure_eq_some] at hrun
  constructor
  · have hlen := congrArg (fun m => m.cM.length) hrun.1
    simpa [Masks.keys, length_of_run_mapM hcM] using hlen
  · have hlen := congrArg (fun m => m.c1.length) hrun.1
    simpa [Masks.keys, length_of_run_input hc1] using hlen

variable [DecidableEq K] [CanonicalSerialize M K] [Random D K] [Random D (ZMod p)]
  (C : Primitives M D)

theorem exists_cheat (hg : 0 < gamma) (s₀ : ProverConv K (ZMod p))
    (hcheck : checkParameters p dabits.length gamma)
    (hspread : Parity.spread (pairs dabits) < p) : CheatsDabits C s₀ s gamma dabits := by
  obtain ⟨v, c, hpredicts⟩ := Parity.exists_predicts (odd_of_checkParameters hg hcheck) hspread
  obtain ⟨msgs, masks, s₁, hcommits, -, hrows, hc1, hmul⟩ :=
    @exists_start M D K p _ _ _ _ _ s gamma hg s₀ v c
  refine ⟨hcheck, msgs, masks, s₁, hcommits, fun e _ he => ?_⟩
  refine ⟨_, openedValues gamma dabits e masks, binding_values C _, binding_values C _,
    fun Δ₂ Δₑ h => run_fdabitOpen C s₁ Δ₂ Δₑ h [], fun h => ?_⟩
  exact exists_answer hmul (parities_of_predicts hpredicts hrows hc1 he) h

variable [Random D F2]

theorem spread_lt_of_cheats (hs : 0 < s) (hg : 0 < gamma) {s₀ : ProverConv K (ZMod p)}
    (h : CheatsDabits C s₀ s gamma dabits) : Parity.spread (pairs dabits) < p := by
  obtain ⟨hcheck, msgs, masks, s₁, hcommits, hrespond⟩ := h
  obtain ⟨hcM, hc1⟩ := length_masks hcommits
  obtain ⟨c1, c1s, hc1s⟩ := List.exists_cons_of_length_pos (hc1 ▸ hs)
  obtain ⟨ck, cks, hcks⟩ := List.exists_cons_of_length_pos (hcM ▸ hs)
  obtain ⟨d, -⟩ := Random.random_surjective (D := D) (0 : F2)
  have hpredicts : Parity.Predicts (pairs dabits) (startValue gamma ck) c1.value := by
    intro es hes
    have hlen : es.length = dabits.length := hes.trans (by simp [pairs])
    -- the challenge that selects the same dabits in every row
    obtain ⟨opens, opened, hr, htau, hopens, hanswer⟩ := hrespond (List.replicate s es)
      (List.length_replicate) (fun ek hek => by rw [List.eq_of_mem_replicate hek, hlen])
    obtain rfl := eq_openedValues C hr htau fun Δ₂ Δₑ => hopens Δ₂ Δₑ (Stream'.const d)
    obtain ⟨answer, hfinish⟩ := hanswer (Stream'.const d)
    have hpar := parities_of_run (hfinish 0 0)
    obtain ⟨s, rfl⟩ := Nat.exists_eq_succ_of_ne_zero hs.ne'
    simp only [openedValues, values_rBatch, values_tauBatch] at hpar
    rw [hc1s, hcks, List.replicate_succ] at hpar
    exact hpar _ List.mem_cons_self
  exact Parity.spread_lt_of_predicts (odd_of_checkParameters hg hcheck) hpredicts

theorem cheatsDabits_iff (hs : 0 < s) (hg : 0 < gamma) (s₀ : ProverConv K (ZMod p)) :
    CheatsDabits C s₀ s gamma dabits ↔
      checkParameters p dabits.length gamma ∧ Parity.spread (pairs dabits) < p :=
  ⟨fun h => ⟨h.1, spread_lt_of_cheats C hs hg h⟩, fun h => exists_cheat C hg s₀ h.1 h.2⟩

/-- The check is sound for a batch exactly when all its field elements are their bits, the
parameters are rejected, or the batch is spread over all residues. -/
theorem dabitsSound_iff (hs : 0 < s) (hg : 0 < gamma) (s₀ : ProverConv K (ZMod p))
    (dabits : List (DabitProver K (ZMod p))) :
    DabitsSound C s₀ s gamma dabits ↔
      (∀ d ∈ dabits, d.value.value = f2ToFe d.bit.value) ∨
        ¬checkParameters p dabits.length gamma ∨ (p : ℤ) ≤ Parity.spread (pairs dabits) := by
  rw [DabitsSound, cheatsDabits_iff C hs hg s₀, not_and_or, not_lt]
  by_cases hwrong : ∃ d ∈ dabits, d.value.value ≠ f2ToFe d.bit.value
  · have hne : ¬∀ d ∈ dabits, d.value.value = f2ToFe d.bit.value := by
      intro hall
      obtain ⟨d, hd, hd'⟩ := hwrong
      exact hd' (hall d hd)
    simp only [hwrong, hne, forall_true_left, false_or]
  · have hall : ∀ d ∈ dabits, d.value.value = f2ToFe d.bit.value := fun d hd =>
      not_not.1 fun hne => hwrong ⟨d, hd, hne⟩
    simp only [hwrong, false_imp_iff, true_iff]
    exact Or.inl hall

/-- A flipped bit is caught: for the bit `1` the field element `0` moves a sum by all of `p`. -/
theorem dabitsSound_flipped :
    DabitsSound (⟨fun _ => .const ⟨0, 0, 0, 0, 0⟩, fun _ => 0⟩ :
        Primitives (Msg F40b F61p) (Draw F40b F61p))
      (⟨⟨⟨.const ⟨[⟨0, 0⟩], by simp⟩, [], ⟨0, 0⟩⟩⟩, ⟨⟨.const ⟨[⟨0, 0⟩], by simp⟩, [], ⟨0, 0⟩⟩⟩⟩ :
        ProverConv F40b F61p)
      fdabitSecurityParameter (fdabitGamma 1) [⟨⟨1, 0⟩, ⟨0, 0⟩⟩] :=
  (dabitsSound_iff _ (by decide) (by decide) _ _).2 (Or.inr (Or.inr (by decide)))

/-- A single dabit of the bit `0` with the field element `2` is enough. -/
theorem not_dabitsSound_two :
    ¬DabitsSound (⟨fun _ => .const ⟨0, 0, 0, 0, 0⟩, fun _ => 0⟩ :
        Primitives (Msg F40b F61p) (Draw F40b F61p))
      (⟨⟨⟨.const ⟨[⟨0, 0⟩], by simp⟩, [], ⟨0, 0⟩⟩⟩, ⟨⟨.const ⟨[⟨0, 0⟩], by simp⟩, [], ⟨0, 0⟩⟩⟩⟩ :
        ProverConv F40b F61p)
      fdabitSecurityParameter (fdabitGamma 1) [⟨⟨0, 0⟩, ⟨2, 0⟩⟩] := by
  intro hsound
  refine hsound ⟨_, List.mem_singleton_self _, ?_⟩ (exists_cheat _ ?_ _ ?_ ?_)
  · decide
  · decide
  · decide
  · decide

/-! ## The masks -/

omit [CanonicalSerialize M F2] [CanonicalSerialize M (ZMod p)] [Fact p.Prime] [Field K]
  [Algebra F2 K] [DecidableEq K] [CanonicalSerialize M K] [Random D K] [Random D (ZMod p)] in
theorem length_of_mem_challengeBits (C : Primitives M D) (seed : Block) {s n : ℕ} {ek : List F2}
    (h : ek ∈ challengeBits C seed s n) : ek.length = n := by
  obtain ⟨k, hk, rfl⟩ := List.mem_map.1 h
  have hle : k * n + n ≤ s * n := by
    have := Nat.mul_le_mul_right n (Nat.succ_le_of_lt (List.mem_range.1 hk))
    rwa [Nat.succ_mul] at this
  rw [List.length_take, List.length_drop, length_randoms]
  omega

variable [CanonicalSerialize M Block] [Random D Block]

theorem isSome_run_fdabitRounds {s₀ s₁ : ProverConv K (ZMod p)} {Δ₂ : K} {Δₑ : ZMod p}
    {h : Stream' D} {commits opens answer : List M} {opened : List F2 × List (ZMod p)}
    (hcheck : checkParameters p dabits.length gamma)
    (hcommits : Commits D s₀ s gamma commits masks s₁)
    (hopens : Proc.run (VerifierConv.fdabitOpen C gamma (dabits.map (DabitProver.keys Δ₂ Δₑ))
      (challengeBits C (Random.random h.head) s dabits.length) (masks.keys Δ₂ Δₑ)
      (s₁.keys Δ₂ Δₑ) h.tail) opens = some (((opened, s₁.keys Δ₂ Δₑ), h.tail), []))
    (hanswer : (Proc.run (VerifierConv.fdabitFinish (masks.keys Δ₂ Δₑ) opened (s₁.keys Δ₂ Δₑ)
      h.tail) answer).isSome) :
    (Proc.run (VerifierConv.fdabitRounds C s gamma (dabits.map (DabitProver.keys Δ₂ Δₑ))
      (s₀.keys Δ₂ Δₑ) h) (commits ++ (opens ++ answer))).isSome := by
  obtain ⟨⟨⟨⟨u, t⟩, h'⟩, rest⟩, hfinish⟩ := Option.isSome_iff_exists.1 hanswer
  have hrun : Proc.run (VerifierConv.fdabitRounds C s gamma (dabits.map (DabitProver.keys Δ₂ Δₑ))
      (s₀.keys Δ₂ Δₑ) h) (commits ++ (opens ++ answer)) = some (((u, t), h'), rest) := by
    unfold VerifierConv.fdabitRounds EdaBitGen.random writeSerializable
    rw [List.length_map, assert_true hcheck, pure_bind]
    refine run_bind_eq_some.2 ⟨_, _, _, _, Proc.run_append (hcommits Δ₂ Δₑ h) _, ?_⟩
    rw [bind_assoc, bind_apply, draw_apply, Proc.pure_bind', pure_bind, run_write_bind,
      run_flush_bind]
    exact run_bind_eq_some.2 ⟨_, _, _, _, Proc.run_append hopens _, hfinish⟩
  rw [hrun]
  rfl

theorem not_masksAreBits (hs : 0 < s) (hg : 0 < gamma) (s₀ : ProverConv K (ZMod p)) {n : ℕ}
    (hcheck : checkParameters p n gamma) : ¬MasksAreBits C s₀ s gamma n := by
  intro hbits
  have hp := four_lt_of_checkParameters hg hcheck
  have hval : (2 : ZMod p).val = 2 := ZMod.val_natCast_of_lt (n := p) (a := 2) (by omega)
  obtain ⟨d, -⟩ := Random.random_surjective (D := D) (0 : F2)
  let h : Stream' D := Stream'.const d
  let dabits : List (DabitProver K (ZMod p)) := List.replicate n ⟨⟨0, 0⟩, ⟨0, 0⟩⟩
  have hlen : dabits.length = n := List.length_replicate
  have hpredicts : Parity.Predicts (pairs dabits) (2 : ZMod p) 0 := by
    intro es _
    have htwo : ((2 : ℕ) : ZMod 2) = 0 := rfl
    simp only [dabits, pairs, List.map_replicate, Parity.selectSum_zeros, add_zero, Parity.parity,
      hval, htwo]
  obtain ⟨commits, masks, s₁, hcommits, hcM, hrows, hc1, hmul⟩ :=
    @exists_start M D K p _ _ _ _ _ s gamma hg s₀ 2 0
  let e := challengeBits C (Random.random h.head) s n
  have hpar := @parities_of_predicts K p _ gamma dabits e masks _ _ 2 0 hpredicts hrows hc1
    fun ek hek => (length_of_mem_challengeBits C _ hek).trans hlen.symm
  obtain ⟨answer, hanswer⟩ : ∃ answer : List M, ∀ Δ₂ Δₑ, (Proc.run (VerifierConv.fdabitFinish
      (masks.keys Δ₂ Δₑ) (openedValues gamma dabits e masks) (s₁.keys Δ₂ Δₑ) h.tail)
        answer).isSome := exists_answer hmul hpar h.tail
  have hrow := hbits dabits 0 0 h commits _ answer masks s₁ hlen hcommits
    (isSome_run_fdabitRounds C (by rwa [hlen]) hcommits
      (by rw [hlen]; exact run_fdabitOpen C s₁ 0 0 h.tail []) (hanswer 0 0))
    (run_fdabitOpen C s₁ 0 0 h.tail []) hmul
  -- the first mask of the first row is `2`
  have hpos : 0 < masks.cM.length := by
    have hlenM := congrArg List.length hcM
    rw [List.length_map, List.length_replicate] at hlenM
    omega
  obtain ⟨ck, cks, hcks⟩ := List.exists_cons_of_length_pos hpos
  have hck : ck ∈ masks.cM := by rw [hcks]; exact List.mem_cons_self
  have hvalues : ck.map MacProver.value = startRow gamma 2 :=
    List.eq_of_mem_replicate (hcM ▸ List.mem_map_of_mem hck)
  have hmem : (2 : ZMod p) ∈ ck.map MacProver.value := by
    rw [hvalues]
    exact List.mem_cons_self
  obtain ⟨c, hc, hc2⟩ := List.mem_map.1 hmem
  rcases hrow ck hck c hc with h0 | h1
  · rw [← hc2, h0, ZMod.val_zero] at hval
    omega
  · have hone : (1 : ZMod p).val = 1 := by
      rw [ZMod.val_one_eq_one_mod, Nat.mod_eq_of_lt (by omega)]
    rw [← hc2, h1, hone] at hval
    omega

/-- The masks of an accepted batch are known to be bits exactly when no batch is accepted. -/
theorem masksAreBits_iff (hs : 0 < s) (hg : 0 < gamma) (s₀ : ProverConv K (ZMod p)) (n : ℕ) :
    MasksAreBits C s₀ s gamma n ↔ ¬checkParameters p n gamma := by
  constructor
  · intro hbits hcheck
    exact not_masksAreBits C hs hg s₀ hcheck hbits
  · intro hcheck dabits Δ₂ Δₑ h commits opens answer masks s₁ hlen _ hrun
    unfold VerifierConv.fdabitRounds at hrun
    rw [List.length_map, hlen, assert_false hcheck, abort_bind, abort_apply, Proc.run_fail] at hrun
    cases hrun

/-- A batch that is too long for the field is rejected before any mask is committed. -/
theorem masksAreBits_long :
    MasksAreBits (⟨fun _ => .const ⟨0, 0, 0, 0, 0⟩, fun _ => 0⟩ :
        Primitives (Msg F40b F61p) (Draw F40b F61p))
      (⟨⟨⟨.const ⟨[⟨0, 0⟩], by simp⟩, [], ⟨0, 0⟩⟩⟩, ⟨⟨.const ⟨[⟨0, 0⟩], by simp⟩, [], ⟨0, 0⟩⟩⟩⟩ :
        ProverConv F40b F61p)
      fdabitSecurityParameter (fdabitGamma (2 ^ 30)) (2 ^ 30) :=
  (masksAreBits_iff _ (by decide) (by decide) _ _).2 (by decide)

/-- With one dabit the masks `2, 0` are accepted. -/
theorem not_masksAreBits_one :
    ¬MasksAreBits (⟨fun _ => .const ⟨0, 0, 0, 0, 0⟩, fun _ => 0⟩ :
        Primitives (Msg F40b F61p) (Draw F40b F61p))
      (⟨⟨⟨.const ⟨[⟨0, 0⟩], by simp⟩, [], ⟨0, 0⟩⟩⟩, ⟨⟨.const ⟨[⟨0, 0⟩], by simp⟩, [], ⟨0, 0⟩⟩⟩⟩ :
        ProverConv F40b F61p)
      fdabitSecurityParameter (fdabitGamma 1) 1 :=
  not_masksAreBits _ (by decide) (by decide) _ (by decide)

end Condition

end EdaBitGen
