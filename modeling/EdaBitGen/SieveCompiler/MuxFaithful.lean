import EdaBitGen.SieveCompiler.MuxOutputs
import EdaBitGen.SieveCompiler.Positions

/-!
# Which muxes are compiled faithfully

The compiled mux gives the evaluator's outputs for all values, or some values tell the two apart.
-/

namespace EdaBitGen.SieveCompiler.Mux

variable {p : ℕ} [Fact p.Prime] (m : Mux p) (v : m.Values)

/-! ## The outputs by branch -/

theorem evaluatedBranch_lt (h : m.CondFits) : m.evaluatedBranch v < 2 ^ 64 := by
  unfold CondFits at h
  unfold evaluatedBranch
  by_cases hp : p = 2
  · rw [if_pos hp] at h ⊢
    have hlt := lowFirst_lt v.cond
    rw [v.length_cond] at hlt
    exact lt_of_lt_of_le hlt (Nat.pow_le_pow_right (by omega) h)
  · rw [if_neg hp] at h ⊢
    exact lt_of_lt_of_le (ZMod.val_lt _) h

theorem compiledOutputs_some (ranges : List (List (ZMod p)))
    (h : v.branchInputs[m.selectedBranch v]? = some ranges) :
    m.compiledOutputs v = restarted m.branchSizes ranges.flatten := by
  refine List.map_congr_left fun size _ => List.map_congr_left fun j _ => ?_
  unfold outputValue
  rw [List.map_map, List.getD_eq_getElem?_getD, List.getElem?_map, h]
  rfl

theorem compiledOutputs_none (h : m.numBranches ≤ m.selectedBranch v) :
    m.compiledOutputs v = m.branchSizes.map fun size => List.replicate size 0 := by
  refine List.map_congr_left fun size _ => ?_
  have hzero : ∀ j, outputValue (v.branchInputs.map List.flatten) (m.selectedBranch v) j = 0 := by
    intro j
    unfold outputValue
    rw [List.map_map, List.getD_eq_getElem?_getD, List.getElem?_eq_none]
    · rfl
    · rw [List.length_map, v.length_branchInputs]
      exact h
  rw [List.map_congr_left fun j _ => hzero j, List.map_const', List.length_range]

theorem map_length_compiledOutputs : (m.compiledOutputs v).map List.length = m.branchSizes := by
  unfold compiledOutputs
  rw [List.map_map]
  refine (List.map_congr_left fun size _ => ?_).trans (List.map_id _)
  show ((List.range size).map _).length = size
  rw [List.length_map, List.length_range]

theorem branches_of_sameOrder (hne : m.numBranches ≠ 0) (horder : p = 2 → m.SameOrder) :
    (m.permissiveness = .strict →
      (m.evaluatedBranch v < m.numBranches ↔ m.selectedBranch v < m.numBranches)) ∧
    (m.branchSizes.sum ≠ 0 → m.evaluatedBranch v < m.numBranches ∨
      m.selectedBranch v < m.numBranches → m.evaluatedBranch v = m.selectedBranch v) := by
  unfold evaluatedBranch selectedBranch
  by_cases hp : p = 2
  · subst hp
    rw [if_pos rfl, if_pos rfl]
    have horder := horder rfl
    unfold SameOrder at horder
    by_cases hsum : m.branchSizes.sum = 0
    · rw [if_pos hsum] at horder
      exact ⟨fun hstrict => horder hstrict v.cond v.length_cond, fun h => absurd hsum h⟩
    · rw [if_neg hsum] at horder
      rcases horder with hone | hone
      · have hzero := lowFirst_eq_zero v.cond
        rw [hone]
        refine ⟨fun _ => ?_, fun _ h => ?_⟩
        · rw [Nat.lt_one_iff, Nat.lt_one_iff]
          exact hzero
        · rw [Nat.lt_one_iff, Nat.lt_one_iff, hzero, or_self] at h
          rw [h, hzero.2 h]
      · rw [lowFirst_eq_highFirst (v.length_cond.trans hone)]
        exact ⟨fun _ => Iff.rfl, fun _ _ => rfl⟩
  · rw [if_neg hp, if_neg hp]
    exact ⟨fun _ => Iff.rfl, fun _ _ => rfl⟩

theorem agrees_of_faithful (hne : m.numBranches ≠ 0)
    (hcond : p = 2 → m.condCount ≠ 0 ∧ m.SameOrder) (hrange : m.OneRange)
    (hfits : m.permissiveness = .permissive → m.CondFits) : m.Agrees v := by
  have ⟨hstrict, horder⟩ := m.branches_of_sameOrder v hne fun hp => (hcond hp).2
  have hn := m.numBranches_lt
  rw [m.agrees_iff v hne fun hp => (hcond hp).1, m.plaintext_eq]
  by_cases he : m.evaluatedBranch v < m.numBranches
  · have hlt : m.evaluatedBranch v < v.branchInputs.length := by rwa [v.length_branchInputs]
    obtain ⟨ranges, hget⟩ : ∃ ranges, v.branchInputs[m.evaluatedBranch v]? = some ranges :=
      ⟨_, List.getElem?_eq_getElem hlt⟩
    have hsizes := v.sizes _ (List.mem_of_getElem? hget)
    rw [if_pos (he.trans hn), if_pos fun h => (hstrict h).1 he, evaluatedOutputs, hget]
    refine congrArg some ?_
    by_cases hsum : m.branchSizes.sum = 0
    · exact eq_of_no_wires hsizes (m.map_length_compiledOutputs v) hsum
    · rw [horder hsum (.inl he)] at hget
      rw [m.compiledOutputs_some v _ hget, ← hsizes]
      apply (restarted_flatten _).symm
      rw [hsizes]
      exact hrange
  · have hget : v.branchInputs[m.evaluatedBranch v]? = none := by
      apply List.getElem?_eq_none
      rw [v.length_branchInputs]
      omega
    unfold evaluatedOutputs
    rw [hget]
    cases hperm : m.permissiveness with
    | strict =>
      rw [if_neg (c := _ → _) fun h => he ((hstrict hperm).2 (h rfl))]
      exact ite_self none
    | permissive =>
      rw [if_pos (m.evaluatedBranch_lt v (hfits hperm)), if_neg (by simp), if_pos (by simp)]
      refine congrArg some ?_
      by_cases hsum : m.branchSizes.sum = 0
      · refine eq_of_no_wires ?_ (m.map_length_compiledOutputs v) hsum
        rw [List.map_map]
        exact (List.map_congr_left fun size _ => List.length_replicate).trans (List.map_id _)
      · refine (m.compiledOutputs_none v ?_).symm
        by_contra hlt
        have heq := horder hsum (.inr (by omega))
        omega

/-! ## Values that tell the sides apart -/

/-- Values by branch. -/
def withRows (cond : List (ZMod p)) (hcond : cond.length = m.condCount)
    (rows : ℕ → List (List (ZMod p))) (hrows : ∀ i, (rows i).map List.length = m.branchSizes) :
    m.Values where
  cond := cond
  branchInputs := (List.range m.numBranches).map rows
  length_cond := hcond
  length_branchInputs := by rw [List.length_map, List.length_range]
  sizes ranges hranges := by
    obtain ⟨i, -, rfl⟩ := List.mem_map.1 hranges
    exact hrows i

omit [Fact p.Prime] in
theorem withRows_get {cond : List (ZMod p)} {hcond : cond.length = m.condCount}
    {rows : ℕ → List (List (ZMod p))} {hrows : ∀ i, (rows i).map List.length = m.branchSizes} {i : ℕ}
    (hi : i < m.numBranches) : (m.withRows cond hcond rows hrows).branchInputs[i]? = some (rows i) := by
  show ((List.range m.numBranches).map rows)[i]? = _
  rw [List.getElem?_map, List.getElem?_range hi]
  rfl

omit [Fact p.Prime] in
theorem map_length_replicate (x : ZMod p) :
    (m.branchSizes.map fun size => List.replicate size x).map List.length = m.branchSizes := by
  rw [List.map_map]
  exact (List.map_congr_left fun size _ => List.length_replicate).trans (List.map_id _)

/-- Zeros in all wires, with given rows for the branches. -/
def zeroCond (rows : List (List (ZMod p))) (hrows : rows.map List.length = m.branchSizes) :
    m.Values :=
  m.withRows (List.replicate m.condCount 0) List.length_replicate (fun _ => rows) fun _ => hrows

theorem headD_replicate_zero (n : ℕ) : (List.replicate n (0 : ZMod p)).headD 0 = 0 := by
  cases n with
  | zero => rfl
  | succ n => rfl

theorem branches_zeroCond (rows : List (List (ZMod p)))
    (hrows : rows.map List.length = m.branchSizes) :
    m.evaluatedBranch (m.zeroCond rows hrows) = 0 ∧
      m.selectedBranch (m.zeroCond rows hrows) = 0 := by
  have hhigh := highFirst_replicate_zero (p := p) m.condCount
  unfold evaluatedBranch selectedBranch
  show (if p = 2 then lowFirst (List.replicate m.condCount (0 : ZMod p)) else
      ((List.replicate m.condCount (0 : ZMod p)).headD 0).val) = 0 ∧
    (if p = 2 then highFirst (List.replicate m.condCount (0 : ZMod p)) else
      ((List.replicate m.condCount (0 : ZMod p)).headD 0).val) = 0
  rw [headD_replicate_zero, ZMod.val_zero, hhigh, (lowFirst_eq_zero _).2 hhigh]
  exact ⟨ite_self 0, ite_self 0⟩

theorem plaintext_zeroCond (hne : m.numBranches ≠ 0) (rows : List (List (ZMod p)))
    (hrows : rows.map List.length = m.branchSizes) :
    m.plaintext (m.zeroCond rows hrows) = some rows := by
  rw [m.plaintext_eq, evaluatedOutputs, (m.branches_zeroCond rows hrows).1, if_pos (by omega),
    zeroCond, m.withRows_get (Nat.pos_of_ne_zero hne)]

theorem exists_cond_of_not_fits (h : ¬m.CondFits) : ∃ cond : List (ZMod p),
    ∃ hcond : cond.length = m.condCount, ∀ rows hrows,
      2 ^ 64 ≤ m.evaluatedBranch (m.withRows cond hcond rows hrows) := by
  unfold CondFits at h
  by_cases hp : p = 2
  · subst hp
    rw [if_pos rfl] at h
    refine ⟨List.replicate m.condCount 1, List.length_replicate, fun rows hrows => ?_⟩
    have hone := lowFirst_replicate_one m.condCount
    have hpow : 2 ^ 65 ≤ 2 ^ m.condCount := Nat.pow_le_pow_right (by omega) (by omega)
    have heval : m.evaluatedBranch (m.withRows (List.replicate m.condCount 1)
        List.length_replicate rows hrows) = lowFirst (List.replicate m.condCount (1 : ZMod 2)) :=
      if_pos rfl
    omega
  · rw [if_neg hp] at h
    refine ⟨[((2 ^ 64 : ℕ) : ZMod p)], (m.cond_single hp).symm, fun rows hrows => ?_⟩
    have heval : m.evaluatedBranch (m.withRows [((2 ^ 64 : ℕ) : ZMod p)] (m.cond_single hp).symm rows
        hrows) = ((2 ^ 64 : ℕ) : ZMod p).val := if_neg hp
    rw [heval, ZMod.val_natCast_of_lt (by omega)]

theorem bitSelector_nil (i : ℕ) (c : Circuit (ZMod p)) : bitSelector [] i c = none := by
  unfold bitSelector
  rw [List.length_nil, toKFlippedBits_zero]
  split
  · rfl
  · rfl

theorem compile_of_no_cond (hp : p = 2) (hzero : m.condCount = 0) (hne : m.numBranches ≠ 0)
    (c : Circuit (ZMod p)) : m.compile v c = none := by
  have hcond : v.cond = [] := List.length_eq_zero_iff.1 (v.length_cond.trans hzero)
  apply bind_eq_none
  rw [hcond, selectors, if_pos hp, bitSelectors]
  obtain ⟨n, hn⟩ := Nat.exists_eq_succ_of_ne_zero hne
  rw [hn, List.range_succ_eq_map, List.mapM_cons]
  exact bind_eq_none (bitSelector_nil 0 c)

theorem condCount_ne_of_agrees (hne : m.numBranches ≠ 0) (h : ∀ v, m.Agrees v) (hp : p = 2) :
    m.condCount ≠ 0 := by
  intro hzero
  have hagrees := h (m.zeroCond _ (m.map_length_replicate 0))
  unfold Agrees at hagrees
  rw [m.compile_of_no_cond _ hp hzero hne, m.plaintext_zeroCond hne] at hagrees
  cases hagrees

theorem oneRange_of_agrees (hne : m.numBranches ≠ 0) (hcond : p = 2 → m.condCount ≠ 0)
    (h : ∀ v, m.Agrees v) : m.OneRange := by
  have hrows := map_length_marked (p := p) m.branchSizes
  have hagrees := (m.agrees_iff (m.zeroCond _ hrows) hne hcond).1 (h _)
  have hselected := (m.branches_zeroCond _ hrows).2
  have hpos := Nat.pos_of_ne_zero hne
  have hget : (m.zeroCond _ hrows).branchInputs[m.selectedBranch (m.zeroCond _ hrows)]? =
      some (marked p m.branchSizes) := by
    rw [hselected, zeroCond, m.withRows_get hpos]
  rw [m.plaintext_zeroCond hne, if_pos fun _ => by rwa [hselected], m.compiledOutputs_some _ _ hget]
    at hagrees
  exact oneRange_of_marked one_ne_zero (Option.some.inj hagrees)

theorem condFits_of_agrees (hne : m.numBranches ≠ 0) (hcond : p = 2 → m.condCount ≠ 0)
    (h : ∀ v, m.Agrees v) (hperm : m.permissiveness = .permissive) : m.CondFits := by
  by_contra hfits
  obtain ⟨cond, hlen, hbig⟩ := m.exists_cond_of_not_fits hfits
  have hrows := m.map_length_replicate 0
  have hagrees := (m.agrees_iff (m.withRows cond hlen (fun _ => _) fun _ => hrows) hne hcond).1 (h _)
  rw [m.plaintext_eq, if_neg (not_lt.2 (hbig _ _)), if_pos (by simp [hperm])] at hagrees
  cases hagrees

theorem sameOrder_of_agrees [Fact (Nat.Prime 2)] (m : Mux 2) (hne : m.numBranches ≠ 0)
    (hcond : m.condCount ≠ 0) (h : ∀ v, m.Agrees v) : m.SameOrder := by
  have hn := m.numBranches_lt
  unfold SameOrder
  split
  · intro hstrict cond hlen
    have hrows := m.map_length_replicate 0
    have hagrees := (m.agrees_iff (m.withRows cond hlen (fun _ => _) fun _ => hrows) hne
      fun _ => hcond).1 (h _)
    have hevaluated : m.evaluatedBranch (m.withRows cond hlen (fun _ => _) fun _ => hrows) =
      lowFirst cond := rfl
    have hselected : m.selectedBranch (m.withRows cond hlen (fun _ => _) fun _ => hrows) =
      highFirst cond := rfl
    rw [m.plaintext_eq, evaluatedOutputs, hevaluated, hselected] at hagrees
    by_cases hlow : lowFirst cond < m.numBranches
    · rw [if_pos (hlow.trans hn), m.withRows_get hlow] at hagrees
      refine ⟨fun _ => ?_, fun _ => hlow⟩
      by_contra hhigh
      rw [if_neg (c := _ → _) fun himp => hhigh (himp hstrict)] at hagrees
      cases hagrees
    · refine ⟨fun hlow' => absurd hlow' hlow, fun hhigh => ?_⟩
      have hget : (m.withRows cond hlen (fun _ => _) fun _ => hrows).branchInputs[lowFirst cond]? =
          none := by
        apply List.getElem?_eq_none
        rw [(m.withRows cond hlen _ _).length_branchInputs]
        omega
      rw [hget, if_pos fun _ => hhigh] at hagrees
      simp [hstrict] at hagrees
  · rename_i hsum
    by_contra hboth
    have hone : 1 < m.numBranches := by omega
    obtain ⟨k, hk⟩ : ∃ k, m.condCount = k + 2 := ⟨m.condCount - 2, by omega⟩
    have hrows : ∀ i : ℕ, ((m.branchSizes.map fun size =>
        List.replicate size (if i = 1 then (1 : ZMod 2) else 0)).map List.length) = m.branchSizes :=
      fun i => m.map_length_replicate _
    have hlen : ((1 : ZMod 2) :: List.replicate (k + 1) 0).length = m.condCount := by
      rw [List.length_cons, List.length_replicate, hk]
    have hagrees := (m.agrees_iff (m.withRows _ hlen _ hrows) hne fun _ => hcond).1 (h _)
    have hevaluated : m.evaluatedBranch (m.withRows _ hlen _ hrows) = 1 := (firstBit (k + 1)).1
    have hselected : m.selectedBranch (m.withRows _ hlen _ hrows) = 2 ^ (k + 1) :=
      (firstBit (k + 1)).2
    have hpow : 2 ≤ 2 ^ (k + 1) := by
      rw [Nat.pow_succ]
      have := Nat.two_pow_pos k
      omega
    have hcompiled : m.compiledOutputs (m.withRows _ hlen _ hrows) =
        m.branchSizes.map fun size => List.replicate size 0 := by
      by_cases hlt : 2 ^ (k + 1) < m.numBranches
      · rw [m.compiledOutputs_some _ (m.branchSizes.map fun size => List.replicate size 0)]
        · apply restarted_zero
          intro x hx
          obtain ⟨row, hrow, hx⟩ := List.mem_flatten.1 hx
          obtain ⟨size, -, rfl⟩ := List.mem_map.1 hrow
          exact List.eq_of_mem_replicate hx
        · rw [hselected, m.withRows_get hlt, if_neg (by omega)]
      · exact m.compiledOutputs_none _ (by rw [hselected]; omega)
    rw [m.plaintext_eq, evaluatedOutputs, hevaluated, if_pos (by omega), m.withRows_get hone,
      if_pos rfl, hcompiled] at hagrees
    dsimp only at hagrees
    split at hagrees
    · have hmap := List.map_inj_left.1 (Option.some.inj hagrees)
      apply hsum
      refine List.sum_eq_zero fun size hsize => ?_
      by_contra hsize'
      have hvalue := (List.replicate_right_inj hsize').1 (hmap size hsize)
      exact one_ne_zero hvalue
    · cases hagrees

/-! ## Muxes without branches -/

theorem selectors_zero (hzero : m.numBranches = 0) (c : Circuit (ZMod p)) :
    m.selectors (v.cond.map fun x => (constant x, x)) c = some ([], c) := by
  unfold selectors
  by_cases hp : p = 2
  · rw [if_pos hp, bitSelectors, hzero]
    rfl
  · obtain ⟨x, hx⟩ := List.length_eq_one_iff.1 (v.length_cond.trans (m.cond_single hp))
    rw [if_neg hp, hx, List.map_singleton, valueSelectors, hzero]
    rfl

theorem outputs_zero (c : Circuit (ZMod p)) : m.outputs [] [] c =
    if m.branchSizes.sum = 0 then some (m.branchSizes.map fun _ => [], c) else none := by
  unfold outputs
  induction m.branchSizes generalizing c with
  | nil => rfl
  | cons size sizes ih =>
    rw [List.mapM_cons, List.sum_cons]
    cases size with
    | zero =>
      refine (bind_eq rfl).trans ?_
      by_cases hsum : sizes.sum = 0
      · rw [if_pos (by omega)]
        exact bind_eq ((ih c).trans (if_pos hsum))
      · rw [if_neg (by omega)]
        exact bind_eq_none ((ih c).trans (if_neg hsum))
    | succ size =>
      rw [if_neg (by omega), List.range_succ_eq_map, List.mapM_cons]
      exact bind_eq_none (bind_eq_none rfl)

theorem compile_zero (hzero : m.numBranches = 0) : m.compile v ⟨[], []⟩ =
    if m.permissiveness = .permissive ∧ m.branchSizes.sum = 0
    then some (m.branchSizes.map fun _ => [], ⟨[], []⟩) else none := by
  have hbranches : v.branchInputs = [] :=
    List.length_eq_zero_iff.1 (v.length_branchInputs.trans hzero)
  refine (bind_eq (m.selectors_zero v hzero _)).trans ?_
  rw [hbranches]
  cases hperm : m.permissiveness with
  | strict =>
    refine Eq.trans ?_ (if_neg (by simp)).symm
    rw [if_pos rfl]
    exact bind_eq_none rfl
  | permissive =>
    rw [if_neg (by simp), List.map_nil]
    refine (m.outputs_zero _).trans ?_
    simp

theorem plaintext_zero (hzero : m.numBranches = 0) : m.plaintext v =
    if m.permissiveness = .permissive ∧ m.evaluatedBranch v < 2 ^ 64
    then some (m.branchSizes.map fun size => List.replicate size 0) else none := by
  have hbranches : v.branchInputs = [] :=
    List.length_eq_zero_iff.1 (v.length_branchInputs.trans hzero)
  rw [m.plaintext_eq, evaluatedOutputs, hbranches]
  cases hperm : m.permissiveness with
  | strict => simp
  | permissive => simp

theorem agrees_zero_iff (hzero : m.numBranches = 0) : (∀ v, m.Agrees v) ↔
    m.permissiveness = .strict ∨ (m.branchSizes.sum = 0 ∧ m.CondFits) := by
  have hempty : ∀ {A : Assignment (ZMod p)}, Circuit.Sat ⟨[], []⟩ A :=
    fun {_} a ha => absurd ha List.not_mem_nil
  cases hperm : m.permissiveness with
  | strict =>
    refine ⟨fun _ => .inl rfl, fun _ v => ?_⟩
    unfold Agrees
    rw [m.compile_zero v hzero, if_neg (by simp [hperm])]
    exact (m.plaintext_zero v hzero).trans (if_neg (by simp [hperm]))
  | permissive =>
    constructor
    · intro h
      have hsum : m.branchSizes.sum = 0 := by
        by_contra hsum
        have hagrees := h (m.zeroCond _ (m.map_length_replicate 0))
        unfold Agrees at hagrees
        rw [m.compile_zero _ hzero, if_neg (fun h => hsum h.2)] at hagrees
        have hnone := (m.plaintext_zero _ hzero).symm.trans hagrees
        rw [(m.branches_zeroCond _ _).1, if_pos ⟨hperm, by omega⟩] at hnone
        cases hnone
      refine .inr ⟨hsum, ?_⟩
      by_contra hfits
      obtain ⟨cond, hlen, hbig⟩ := m.exists_cond_of_not_fits hfits
      have hrows := m.map_length_replicate 0
      have hagrees := h (m.withRows cond hlen (fun _ => _) fun _ => hrows)
      have hplain := m.plaintext_zero (m.withRows cond hlen (fun _ => _) fun _ => hrows) hzero
      rw [if_neg fun hlt => absurd hlt.2 (not_lt.2 (hbig _ _))] at hplain
      unfold Agrees at hagrees
      rw [m.compile_zero _ hzero, hplain, if_pos ⟨hperm, hsum⟩] at hagrees
      exact nomatch hagrees.1 (fun _ => 0) hempty
    · rintro (h | ⟨hsum, hfits⟩) v
      · cases h
      · have hplain := m.plaintext_zero v hzero
        have hrows : (m.branchSizes.map fun size => List.replicate size (0 : ZMod p)) =
            m.branchSizes.map fun _ => [] := by
          refine List.map_congr_left fun size hsize => ?_
          rw [List.sum_eq_zero_iff.1 hsum size hsize]
          rfl
        have hwires : ∀ f : ValuedWire (ZMod p) → ZMod p,
            (m.branchSizes.map fun _ => ([] : List (ValuedWire (ZMod p)))).map (List.map f) =
              m.branchSizes.map fun _ => [] := by
          intro f
          rw [List.map_map]
          rfl
        unfold Agrees
        rw [m.compile_zero v hzero, if_pos ⟨hperm, hsum⟩, hplain,
          if_pos ⟨hperm, m.evaluatedBranch_lt v hfits⟩, hrows]
        dsimp only
        refine ⟨fun A _ => by rw [hwires], ⟨fun _ => rfl, fun _ => ⟨fun _ => 0, hempty⟩⟩, ?_⟩
        intro o ho
        rw [hwires]
        exact (Option.some.inj ho).symm

/-- The compiled mux is the evaluated one for all values exactly when its shape is faithful. -/
theorem agrees_iff_faithful : (∀ v, m.Agrees v) ↔ m.Faithful := by
  unfold Faithful
  split
  · exact m.agrees_zero_iff ‹_›
  · rename_i hne
    constructor
    · intro h
      have hcond := m.condCount_ne_of_agrees hne h
      refine ⟨fun hp => ⟨hcond hp, ?_⟩, m.oneRange_of_agrees hne hcond h,
        m.condFits_of_agrees hne hcond h⟩
      subst hp
      exact m.sameOrder_of_agrees hne (hcond rfl) h
    · rintro ⟨hcond, hrange, hfits⟩ v
      exact m.agrees_of_faithful v hne hcond hrange hfits

/-- A strict mux of one bit, with the given branches and ranges. -/
def bitMux (numBranches : ℕ) (branchSizes : List ℕ) (hne : branchSizes ≠ [])
    (hlt : numBranches ≤ 2) : Mux 2 where
  permissiveness := .strict
  condCount := 1
  numBranches := numBranches
  branchSizes := branchSizes
  cond_single h := absurd rfl h
  branchSizes_ne := hne
  addressable := hlt
  numBranches_lt := by omega

/-- The two branches of a bit, with one range of three wires. -/
theorem agrees_bitMux : (bitMux 2 [3] (by decide) le_rfl).Faithful ∧
    ∀ v, (bitMux 2 [3] (by decide) le_rfl).Agrees v := by
  have hfaithful : (bitMux 2 [3] (by decide) le_rfl).Faithful :=
    ⟨fun _ => ⟨one_ne_zero, .inr rfl⟩, le_rfl, fun h => by cases h⟩
  exact ⟨hfaithful, (agrees_iff_faithful _).2 hfaithful⟩

/-- The second range gets the wire of the first one. -/
theorem not_agrees_twoRanges :
    ¬∀ {p : ℕ} [Fact p.Prime] (m : Mux p) (v : m.Values), m.Agrees v := by
  intro h
  have hagrees := (agrees_iff (bitMux 1 [1, 1] (by decide) (by omega))
    (zeroCond _ [[0], [1]] rfl) one_ne_zero fun _ => one_ne_zero).1 (h _ _)
  have hselected := (branches_zeroCond (bitMux 1 [1, 1] (by decide) (by omega)) [[0], [1]] rfl).2
  have hplain := plaintext_zeroCond (bitMux 1 [1, 1] (by decide) (by omega)) one_ne_zero
    [[0], [1]] rfl
  rw [hplain, if_pos fun _ => by rw [hselected]; exact Nat.one_pos,
    compiledOutputs_some _ _ [[0], [1]]] at hagrees
  · revert hagrees
    decide
  · rw [hselected]
    rfl

end EdaBitGen.SieveCompiler.Mux
