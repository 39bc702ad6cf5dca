import EdaBitGen.Multifield.Model

/-!
# The arguments of calls over several fields

A call numbers the wires of all types together, where the memory of each type counts its own.  The
two agree exactly for functions of one type.
-/

namespace EdaBitGen

/-! ## The wires that ranges name -/

/-- The wires of ranges, one after the other. -/
def names (rs : List WireRange) : List (ℕ × ℕ) :=
  rs.flatMap fun r => (List.range r.count).map fun i => (r.level, r.first + i)

theorem names_append (rs ts : List WireRange) : names (rs ++ ts) = names rs ++ names ts :=
  List.flatMap_append

theorem length_names (rs : List WireRange) : (names rs).length = totalCount rs := by
  induction rs with
  | nil => rfl
  | cons r rs ih =>
    show ((List.range r.count).map _ ++ names rs).length = _
    rw [List.length_append, List.length_map, List.length_range, ih]
    simp [totalCount]

theorem names_getElem? (rs : List WireRange) (j : ℕ) :
    (names rs)[j]? = (locate rs j).map fun ri => (ri.1.level, ri.1.first + ri.2) := by
  induction rs generalizing j with
  | nil => rfl
  | cons r rs ih =>
    show ((List.range r.count).map _ ++ names rs)[j]? = _
    rw [locate]
    split_ifs with hlt
    · rw [List.getElem?_append_left (by simpa using hlt), List.getElem?_map,
        List.getElem?_range hlt]
      rfl
    · rw [List.getElem?_append_right (by simpa using Nat.le_of_not_lt hlt), List.length_map,
        List.length_range, ih]

namespace Store

variable {X : Type}

/-- The wire that a wire of the caller is. -/
def callerWire (s : Store X) (id : ℕ) : ℕ × ℕ :=
  match locate s.caller.args id with
  | some (r, i) => (r.level, r.first + i)
  | none => (s.top - 1, id)

theorem names_source {s : Store X} {srcFirst srcLast count : ℕ} {allowAllocation : Bool}
    (h : s.Passable srcFirst srcLast count allowAllocation) :
    names [s.source srcFirst count] = (List.range' srcFirst count).map s.callerWire := by
  have hwire : ∀ i < count, s.callerWire (srcFirst + i) =
      ((s.source srcFirst count).level, (s.source srcFirst count).first + i) := by
    intro i hi
    unfold Passable at h
    unfold callerWire source
    cases hloc : locate s.caller.args srcFirst with
    | none =>
      have hnone : locate s.caller.args (srcFirst + i) = none := by
        refine locate_eq_none ?_
        by_contra hlt
        obtain ⟨r, k, hr⟩ := exists_locate (show srcFirst < totalCount s.caller.args by omega)
        exact absurd (hloc.symm.trans hr) (by simp)
      rw [hnone]
    | some rk =>
      obtain ⟨r, k⟩ := rk
      rw [hloc] at h
      have h : k + count ≤ r.count := h
      rw [locate_add hloc (show k + i < r.count by omega)]
      show (r.level, r.first + (k + i)) = (r.level, r.first + k + i)
      rw [Nat.add_assoc]
  have hcount : (s.source srcFirst count).count = count := by
    unfold source
    split <;> rfl
  show (List.range _).map _ ++ [] = _
  rw [List.append_nil, hcount, List.range'_eq_map_range, List.map_map]
  refine List.map_congr_left fun i hi => ?_
  exact (hwire i (List.mem_range.1 hi)).symm

theorem run_append (s : Store X) (ops ops' : List (WireOp X)) :
    (s.run (ops ++ ops')).2 = ((s.run ops).2.run ops').2 := by
  induction ops generalizing s with
  | nil => rfl
  | cons op ops ih => exact ih _

theorem wellFormed_append {s : Store X} {ops ops' : List (WireOp X)} :
    s.WellFormed (ops ++ ops') ↔ s.WellFormed ops ∧ (s.run ops).2.WellFormed ops' := by
  induction ops generalizing s with
  | nil => exact ⟨fun h => ⟨trivial, h⟩, fun h => h.2⟩
  | cons op ops ih =>
    constructor
    · intro h
      exact ⟨⟨h.1, (ih.1 h.2).1⟩, (ih.1 h.2).2⟩
    · intro h
      exact ⟨h.1.1, ih.2 ⟨h.1.2, h.2⟩⟩

theorem names_allocateSlice {s : Store X} {srcFirst srcLast start count : ℕ}
    {allowAllocation : Bool}
    (h : s.Allowed (.allocateSlice srcFirst srcLast start count allowAllocation)) :
    names (s.allocateSlice srcFirst count allowAllocation).current.args =
        names s.current.args ++ (List.range' srcFirst count).map s.callerWire ∧
      (s.allocateSlice srcFirst count allowAllocation).top = s.top ∧
      (s.allocateSlice srcFirst count allowAllocation).callerWire = s.callerWire := by
  obtain ⟨htop, -, -, -, hallow, -, -, hpass⟩ := h
  obtain ⟨s', hs', htop', hframes, hcaller⟩ :=
    exists_allocated s srcFirst count allowAllocation
  rw [hs']
  have hself : (s'.pass (s.source srcFirst count) allowAllocation).frames s'.top = _ :=
    modify_self s' s'.top _
  have hcurrent : s'.frames s'.top = s.current := by
    rw [htop', hframes _ (by omega)]
    rfl
  refine ⟨?_, htop', ?_⟩
  · rw [← names_source hpass, ← names_append]
    unfold current
    show names ((s'.pass (s.source srcFirst count) allowAllocation).frames s'.top).args = _
    rw [hself, hcurrent]
    unfold StoreFrame.args
    cases allowAllocation with
    | true =>
      have hinputs : (s.frames s.top).inputs = [] := hallow rfl
      simp [current, hinputs]
    | false => simp [current]
  · have hargs : (s'.pass (s.source srcFirst count) allowAllocation).caller.args =
        s.caller.args := by
      unfold caller
      show ((s'.pass _ _).frames (s'.top - 1)).args = _
      unfold pass
      rw [modify_other s' (by omega), htop', hcaller]
      rfl
    have htop'' : (s'.pass (s.source srcFirst count) allowAllocation).top = s.top := htop'
    funext id
    unfold callerWire
    rw [hargs, htop'']

end Store

namespace FuncDecl

/-! ## Functions of one type -/

section Store

variable {Y : Type} {t : TypeId} {allowAllocation : Bool}

theorem sliceOps_cons (ty : TypeId) (count : ℕ) (counts : List (TypeId × ℕ))
    (srcFirst srcLast : ℕ) (ranges : List (ℕ × ℕ)) (start : ℕ) :
    (sliceOps t allowAllocation ((ty, count) :: counts) ((srcFirst, srcLast) :: ranges) start :
      List (WireOp Y)) =
      if ty = t then .allocateSlice srcFirst srcLast start count allowAllocation ::
        sliceOps t allowAllocation counts ranges (start + count)
      else sliceOps t allowAllocation counts ranges start :=
  rfl

theorem namedWires_cons (ty : TypeId) (count : ℕ) (counts : List (TypeId × ℕ))
    (srcFirst srcLast : ℕ) (ranges : List (ℕ × ℕ)) :
    namedWires t ((ty, count) :: counts) ((srcFirst, srcLast) :: ranges) =
      if ty = t then List.range' srcFirst count ++ namedWires t counts ranges
      else namedWires t counts ranges :=
  rfl

theorem names_sliceOps {counts : List (TypeId × ℕ)} : ∀ {ranges : List (ℕ × ℕ)} {start : ℕ}
    {s : Store Y}, s.WellFormed (sliceOps t allowAllocation counts ranges start) →
    names (s.run (sliceOps t allowAllocation counts ranges start)).2.current.args =
        names s.current.args ++ (namedWires t counts ranges).map s.callerWire ∧
      (s.run (sliceOps t allowAllocation counts ranges start)).2.top = s.top ∧
      (s.run (sliceOps t allowAllocation counts ranges start)).2.callerWire = s.callerWire := by
  induction counts with
  | nil =>
    intro ranges start s _
    exact ⟨(List.append_nil _).symm, rfl, rfl⟩
  | cons g counts ih =>
    intro ranges start s h
    obtain ⟨ty, count⟩ := g
    cases ranges with
    | nil => exact ⟨(List.append_nil _).symm, rfl, rfl⟩
    | cons range ranges =>
      obtain ⟨srcFirst, srcLast⟩ := range
      rw [sliceOps_cons] at h ⊢
      rw [namedWires_cons]
      by_cases hty : ty = t
      · rw [if_pos hty] at h ⊢
        rw [if_pos hty]
        obtain ⟨hnames, htop, hwire⟩ := Store.names_allocateSlice h.1
        obtain ⟨hnames', htop', hwire'⟩ := ih h.2
        refine ⟨?_, htop'.trans htop, hwire'.trans hwire⟩
        refine hnames'.trans ?_
        show names (s.allocateSlice srcFirst count allowAllocation).current.args ++ List.map
          (s.allocateSlice srcFirst count allowAllocation).callerWire _ = _
        rw [hnames, hwire, List.map_append, List.append_assoc]
      · rw [if_neg hty] at h ⊢
        rw [if_neg hty]
        exact ih h

theorem count_pos_of_wellFormed {counts : List (TypeId × ℕ)} : ∀ {ranges : List (ℕ × ℕ)}
    {start : ℕ} {s : Store Y}, ranges.length = counts.length →
    s.WellFormed (sliceOps t allowAllocation counts ranges start) →
    ∀ g ∈ counts, g.1 = t → 0 < g.2 := by
  induction counts with
  | nil =>
    intro ranges start s _ _ g hg
    cases hg
  | cons g counts ih =>
    intro ranges start s hlen h
    obtain ⟨ty, count⟩ := g
    cases ranges with
    | nil => cases hlen
    | cons range ranges =>
      obtain ⟨srcFirst, srcLast⟩ := range
      have hlen : ranges.length = counts.length := Nat.succ.inj hlen
      rw [sliceOps_cons] at h
      intro g hg hgt
      by_cases hty : ty = t
      · rw [if_pos hty] at h
        rcases List.mem_cons.1 hg with rfl | hg
        · have hcount := h.1.2.2.1
          show 0 < count
          omega
        · exact ih hlen h.2 g hg hgt
      · rw [if_neg hty] at h
        rcases List.mem_cons.1 hg with rfl | hg
        · exact absurd hgt hty
        · exact ih hlen h g hg hgt

theorem sliceOps_eq_nil {counts : List (TypeId × ℕ)} (h : ∀ g ∈ counts, g.1 ≠ t) :
    ∀ (ranges : List (ℕ × ℕ)) (start : ℕ),
      (sliceOps t allowAllocation counts ranges start : List (WireOp Y)) = [] := by
  induction counts with
  | nil => exact fun _ _ => rfl
  | cons g counts ih =>
    intro ranges start
    cases ranges with
    | nil => rfl
    | cons range ranges =>
      rw [sliceOps_cons, if_neg (h g List.mem_cons_self)]
      exact ih (fun g hg => h g (List.mem_cons_of_mem _ hg)) ranges start

end Store

section Call

variable {X : TypeId → Type} [∀ t, Inhabited (X t)]

theorem pushFrames_eq (func : FuncDecl) (eval : ∀ t, Memory (X t)) (t : TypeId) :
    func.pushFrames eval t =
      if t ∈ func.typeIds then (eval t).pushFrame func.argsCount func.bodyMax else eval t := by
  have hfold : ∀ (l : List TypeId), l.Nodup → ∀ eval : ∀ t, Memory (X t),
      l.foldl (fun eval t =>
        Function.update eval t ((eval t).pushFrame func.argsCount func.bodyMax)) eval t =
      if t ∈ l then (eval t).pushFrame func.argsCount func.bodyMax else eval t := by
    intro l hl
    induction l with
    | nil => exact fun _ => rfl
    | cons t' l ih =>
      intro eval
      obtain ⟨hnot, hl⟩ := List.nodup_cons.1 hl
      rw [List.foldl_cons, ih hl]
      rcases eq_or_ne t t' with rfl | hne
      · rw [if_neg hnot, Function.update_self, if_pos List.mem_cons_self]
      · rw [Function.update_of_ne hne]
        simp [hne]
  exact hfold func.typeIds func.nodup eval

theorem allocateSlices_eq {t : TypeId} {allowAllocation : Bool} {counts : List (TypeId × ℕ)}
    (htype : ∀ g ∈ counts, g.1 = t) : ∀ {ranges : List (ℕ × ℕ)} {prev : ℕ}
    {eval : ∀ t, Memory (X t)} {xs : List (Option (X t))} {m : Memory (X t)},
    ranges.length = counts.length →
    (eval t).run (sliceOps t allowAllocation counts ranges prev) = some (xs, m) →
    allocateSlices allowAllocation counts ranges prev eval =
      some (prev + wireCount t counts, Function.update eval t m) := by
  induction counts with
  | nil =>
    intro ranges prev eval xs m hlen hrun
    obtain rfl : ranges = [] := List.length_eq_zero_iff.1 hlen
    obtain ⟨-, rfl⟩ := Prod.mk.inj (Option.some.inj hrun)
    rw [Function.update_eq_self]
    rfl
  | cons g counts ih =>
    intro ranges prev eval xs m hlen hrun
    obtain ⟨ty, count⟩ := g
    obtain rfl : ty = t := htype _ List.mem_cons_self
    cases ranges with
    | nil => cases hlen
    | cons range ranges =>
      obtain ⟨srcFirst, srcLast⟩ := range
      rw [sliceOps_cons, if_pos rfl] at hrun
      unfold Memory.run at hrun
      obtain ⟨⟨x, m₁⟩, hstep, hafter⟩ := Option.bind_eq_some_iff.1 hrun
      obtain ⟨⟨xs', m₂⟩, hrun', hxs⟩ := Option.bind_eq_some_iff.1 hafter
      obtain ⟨m₁', hslice, heq⟩ := Option.map_eq_some_iff.1 hstep
      obtain ⟨-, rfl⟩ := Prod.mk.inj heq
      obtain ⟨-, rfl⟩ := Prod.mk.inj (Option.some.inj hxs)
      have hself : (Function.update eval ty m₁' ty).run
          (sliceOps ty allowAllocation counts ranges (prev + count)) = some (xs', m₂) := by
        rw [Function.update_self]
        exact hrun'
      have hrest := ih (fun g hg => htype g (List.mem_cons_of_mem _ hg)) (Nat.succ.inj hlen) hself
      unfold allocateSlices wireCount
      rw [hslice, if_pos rfl]
      simp only [Option.bind_eq_bind, Option.bind_some, hrest, Function.update_idem, Nat.add_assoc]

theorem run_append {Y : Type} [Inhabited Y] {m m' : Memory Y} {ops ops' : List (WireOp Y)}
    {xs : List (Option Y)} (h : m.run (ops ++ ops') = some (xs, m')) :
    ∃ xs₁ m₁ xs₂, m.run ops = some (xs₁, m₁) ∧ m₁.run ops' = some (xs₂, m') := by
  induction ops generalizing m xs with
  | nil => exact ⟨[], m, xs, rfl, h⟩
  | cons op ops ih =>
    obtain ⟨⟨x, m₂⟩, hstep, hafter⟩ := Option.bind_eq_some_iff.1 h
    obtain ⟨⟨xs', m₃⟩, hrun, hxs⟩ := Option.bind_eq_some_iff.1 hafter
    obtain ⟨-, rfl⟩ := Prod.mk.inj (Option.some.inj hxs)
    obtain ⟨xs₁, m₁, xs₂, hrun₁, hrun₂⟩ := ih hrun
    refine ⟨x :: xs₁, m₁, xs₂, ?_, hrun₂⟩
    unfold Memory.run
    rw [hstep]
    simp only [Option.bind_eq_bind, Option.bind_some, hrun₁]

theorem names_callOps {Y : Type} {func : FuncDecl} {outRanges inRanges : List (ℕ × ℕ)}
    {t : TypeId} {s : Store Y} (h : s.WellFormed (func.callOps outRanges inRanges t)) :
    names (s.run (func.callOps outRanges inRanges t)).2.current.args =
      (namedWires t func.outputCounts outRanges ++ namedWires t func.inputCounts inRanges).map
        (s.run (func.callOps outRanges inRanges t)).2.callerWire := by
  have hrun : (s.run (func.callOps outRanges inRanges t)).2 =
      (((s.step (.pushFrame func.argsCount func.bodyMax)).2.run
        (sliceOps t true func.outputCounts outRanges 0)).2.run
        (sliceOps t false func.inputCounts inRanges (wireCount t func.outputCounts))).2 :=
    Store.run_append _ _ _
  obtain ⟨houts, hins⟩ := Store.wellFormed_append.1 h.2
  obtain ⟨hnames, -, hwire⟩ := names_sliceOps houts
  obtain ⟨hnames', -, hwire'⟩ := names_sliceOps hins
  have hpushed : (s.step (.pushFrame func.argsCount func.bodyMax)).2.current =
      .new func.argsCount func.bodyMax := Function.update_self _ _ _
  rw [hrun, hnames', hnames, hwire', hwire, hpushed, List.map_append]
  rfl

end Call

end FuncDecl

section Aliases

variable {Y : Type} {s : Store Y} {m : Memory Y} (h : Refines s m)

include h

theorem Refines.wirePlace (id : ℕ) : m.wirePlace (s.top - 1) id =
    some (m.place (s.callerWire id).1 (s.callerWire id).2) := by
  obtain ⟨f, hf, hrep⟩ := h.frame (s.top - 1) (Nat.sub_le _ _)
  unfold Memory.wirePlace Store.callerWire
  simp only [hf, Option.bind_eq_bind, Option.bind_some, hrep.size]
  split_ifs with hlt
  · obtain ⟨r, i, hloc⟩ := exists_locate hlt
    obtain ⟨a, ha, hplace⟩ := hrep.passed.argument hloc
    have hloc : locate s.caller.args id = some (r, i) := hloc
    rw [ha, hloc, Option.map_some, hplace]
  · have hloc : locate s.caller.args id = none := locate_eq_none (Nat.le_of_not_lt hlt)
    rw [hloc, Memory.place_eq hf]

theorem Refines.aliases {wires : List ℕ} (hwires : names s.current.args = wires.map s.callerWire) :
    m.Aliases wires := by
  obtain ⟨f, hf, hrep⟩ := h.frame s.top (Nat.le_refl _)
  refine ⟨f, by rw [h.top]; exact hf, ?_, fun j w hw => ?_⟩
  · have hlength := congrArg List.length hwires
    rw [length_names, List.length_map] at hlength
    rw [hrep.size]
    exact hlength
  · have hj := congrArg (·[j]?) hwires
    simp only [names_getElem?, List.getElem?_map, hw, Option.map_some] at hj
    obtain ⟨⟨r, i⟩, hloc, heq⟩ := Option.map_eq_some_iff.1 hj
    obtain ⟨a, ha, hplace⟩ := hrep.passed.argument hloc
    refine ⟨a, ha, ?_⟩
    rw [h.top, h.wirePlace, ← heq, hplace]

end Aliases

namespace FuncDecl

theorem passesArguments_of_one_type {func : FuncDecl} (t₀ : TypeId)
    (htype : ∀ g ∈ func.groups, g.1 = t₀) : func.PassesArguments := by
  intro X _ s eval outRanges inRanges href hcall
  obtain ⟨hout, hin, hwell⟩ := hcall
  have houts : ∀ g ∈ func.outputCounts, g.1 = t₀ := fun g hg =>
    htype g (List.mem_append_left _ hg)
  have hins : ∀ g ∈ func.inputCounts, g.1 = t₀ := fun g hg =>
    htype g (List.mem_append_right _ hg)
  have hruns : ∀ t ∈ func.typeIds, ∃ xs₁ m₁ xs₂ m₂,
      (func.pushFrames eval t).run (sliceOps t true func.outputCounts outRanges 0) =
        some (xs₁, m₁) ∧
      m₁.run (sliceOps t false func.inputCounts inRanges (wireCount t func.outputCounts)) =
        some (xs₂, m₂) ∧
      Refines ((s t).run (func.callOps outRanges inRanges t)).2 m₂ := by
    intro t ht
    obtain ⟨m₂, hrun, href₂⟩ := (href t).run (hwell t ht)
    obtain ⟨⟨xs, m''⟩, hrun', hxs⟩ := Option.bind_eq_some_iff.1 hrun
    obtain ⟨-, rfl⟩ := Prod.mk.inj (Option.some.inj hxs)
    obtain ⟨xs₁, m₁, xs₂, hrun₁, hrun₂⟩ := run_append hrun'
    refine ⟨xs₁, m₁, xs₂, m'', ?_, hrun₂, href₂⟩
    rw [pushFrames_eq, if_pos ht]
    exact hrun₁
  have hother : ∀ t ∈ func.typeIds, (∀ g ∈ func.groups, g.1 ≠ t) →
      (func.pushFrames eval t).Aliases
        (namedWires t func.outputCounts outRanges ++ namedWires t func.inputCounts inRanges) := by
    intro t ht hne
    obtain ⟨xs₁, m₁, xs₂, m₂, hrun₁, hrun₂, href₂⟩ := hruns t ht
    rw [sliceOps_eq_nil fun g hg => hne g (List.mem_append_left _ hg)] at hrun₁
    rw [sliceOps_eq_nil fun g hg => hne g (List.mem_append_right _ hg)] at hrun₂
    obtain ⟨-, rfl⟩ := Prod.mk.inj (Option.some.inj hrun₁)
    obtain ⟨-, rfl⟩ := Prod.mk.inj (Option.some.inj hrun₂)
    exact href₂.aliases (names_callOps (hwell t ht))
  by_cases ht₀ : t₀ ∈ func.typeIds
  · obtain ⟨xs₁, m₁, xs₂, m₂, hrun₁, hrun₂, href₂⟩ := hruns t₀ ht₀
    have hslices := allocateSlices_eq houts hout hrun₁
    rw [Nat.zero_add] at hslices
    have hself : (Function.update (func.pushFrames eval) t₀ m₁ t₀).run
        (sliceOps t₀ false func.inputCounts inRanges (wireCount t₀ func.outputCounts)) =
        some (xs₂, m₂) := by
      rw [Function.update_self]
      exact hrun₂
    have hslices' := allocateSlices_eq hins hin hself
    rw [Function.update_idem] at hslices'
    refine ⟨Function.update (func.pushFrames eval) t₀ m₂, ?_, fun t ht => ?_⟩
    · unfold evaluateCallGate
      simp only [hslices, hslices', Option.bind_eq_bind, Option.bind_some]
    · rcases eq_or_ne t t₀ with rfl | hne
      · rw [Function.update_self]
        exact href₂.aliases (names_callOps (hwell t ht))
      · rw [Function.update_of_ne hne]
        exact hother t ht fun g hg heq => hne (heq.symm.trans (htype g hg))
  · have hnil : func.groups = [] := by
      refine List.eq_nil_iff_forall_not_mem.2 fun g hg => ht₀ ?_
      rw [← htype g hg]
      exact func.mem_typeIds g hg
    obtain ⟨houtnil, hinnil⟩ := List.append_eq_nil_iff.1 hnil
    rw [houtnil] at hout
    rw [hinnil] at hin
    obtain rfl : outRanges = [] := List.length_eq_zero_iff.1 hout
    obtain rfl : inRanges = [] := List.length_eq_zero_iff.1 hin
    refine ⟨func.pushFrames eval, ?_, fun t ht => hother t ht fun g hg => ?_⟩
    · unfold evaluateCallGate
      rw [houtnil, hinnil]
      rfl
    · rw [hnil] at hg
      cases hg

theorem passesArguments_of_empty_group {func : FuncDecl} {g : TypeId × ℕ} (hg : g ∈ func.groups)
    (hzero : g.2 = 0) : func.PassesArguments := by
  intro X _ s eval outRanges inRanges _ hcall
  obtain ⟨hout, hin, hwell⟩ := hcall
  obtain ⟨houts, hins⟩ := Store.wellFormed_append.1 (hwell g.1 (func.mem_typeIds g hg)).2
  have hpos : 0 < g.2 := by
    rcases List.mem_append.1 hg with hg | hg
    · exact count_pos_of_wellFormed hout houts g hg rfl
    · exact count_pos_of_wellFormed hin hins g hg rfl
  omega

/-! ## Functions of several types -/

section Store

variable {Y : Type}

/-- A range of its own for each group. -/
def slots : List (TypeId × ℕ) → ℕ → List (ℕ × ℕ)
  | [], _ => []
  | (_, count) :: counts, first => (first, first + count - 1) :: slots counts (first + count)

/-- A frame that was just pushed on one that has allocated the first `n` wires. -/
structure Ready (s : Store Y) (n : ℕ) : Prop where
  top : s.top = 1
  args : s.caller.args = []
  vectorSize : s.caller.vectorSize = none
  allocations : s.caller.allocations 0 = some n
  argsCount : s.current.argsCount = some n
  empty : ∀ id, s.current.own id = none ∧ s.current.allocations id = none

theorem Ready.allocateSlice {s : Store Y} {n : ℕ} (h : Ready s n) {first : ℕ}
    (hfirst : first < n) (count : ℕ) (allowAllocation : Bool) :
    Ready (s.allocateSlice first count allowAllocation) n ∧
      totalCount (s.allocateSlice first count allowAllocation).current.args =
        totalCount s.current.args + count ∧
      (s.allocateSlice first count allowAllocation).current.inputs =
        if allowAllocation then s.current.inputs
        else s.current.inputs ++ [s.source first count] := by
  have hallocated : s.caller.allocated first = true :=
    (s.caller.allocated_iff first).2 ⟨0, n, h.allocations, Nat.zero_le _, by omega⟩
  have hcount : (s.source first count).count = count := by
    unfold Store.source
    split <;> rfl
  have hslice : s.allocateSlice first count allowAllocation =
      s.pass (s.source first count) allowAllocation := by
    unfold Store.allocateSlice Store.allocates
    rw [hallocated]
    simp
    rfl
  have hself : (s.pass (s.source first count) allowAllocation).current = _ :=
    Store.modify_self s s.top _
  have hcaller : (s.pass (s.source first count) allowAllocation).caller = s.caller :=
    Store.modify_other s (by show s.top - 1 ≠ s.top; rw [h.top]; decide) _
  rw [hslice, hself]
  refine ⟨⟨h.top, ?_, ?_, ?_, ?_, ?_⟩, ?_, rfl⟩
  · rw [hcaller]
    exact h.args
  · rw [hcaller]
    exact h.vectorSize
  · rw [hcaller]
    exact h.allocations
  · rw [hself]
    exact h.argsCount
  · rw [hself]
    exact h.empty
  · refine (totalCount_passed s.current _ allowAllocation).trans ?_
    rw [hcount]

theorem Ready.wellFormed (t : TypeId) (allowAllocation : Bool) {counts : List (TypeId × ℕ)} :
    ∀ {s : Store Y} {n : ℕ} (first start : ℕ), Ready s n → (∀ g ∈ counts, 0 < g.2) →
    first + (counts.map (·.2)).sum ≤ n → start + (counts.map (·.2)).sum ≤ n →
    start = totalCount s.current.args → (allowAllocation = true → s.current.inputs = []) →
    s.WellFormed (sliceOps t allowAllocation counts (slots counts first) start) ∧
      Ready (s.run (sliceOps t allowAllocation counts (slots counts first) start)).2 n ∧
      totalCount (s.run (sliceOps t allowAllocation counts
        (slots counts first) start)).2.current.args = start + wireCount t counts := by
  induction counts with
  | nil =>
    intro s n first start h _ _ _ hstart _
    exact ⟨trivial, h, hstart.symm⟩
  | cons g counts ih =>
    intro s n first start h hpos hfirst hle hstart hallow
    obtain ⟨ty, count⟩ := g
    have hcount : 0 < count := hpos _ List.mem_cons_self
    have hpos' : ∀ g ∈ counts, 0 < g.2 := fun g hg => hpos g (List.mem_cons_of_mem _ hg)
    rw [List.map_cons, List.sum_cons] at hfirst hle
    dsimp only at hfirst hle
    unfold slots wireCount
    rw [sliceOps_cons]
    by_cases hty : ty = t
    · rw [if_pos hty, if_pos hty]
      obtain ⟨hready, htotal, hinputs⟩ := h.allocateSlice (show first < n by omega) count
        allowAllocation
      obtain ⟨hwell, hready', htotal'⟩ := ih (first + count) (start + count) hready hpos' (by omega) (by omega)
        (by rw [htotal, hstart]) (fun ha => by rw [hinputs, if_pos ha]; exact hallow ha)
      refine ⟨⟨⟨by rw [h.top]; decide, by omega, by omega, hstart, hallow, fun k hk => ?_, h.empty,
        ?_⟩, hwell⟩, hready', htotal'.trans (Nat.add_assoc _ _ _)⟩
      · have hn := h.argsCount.symm.trans hk
        have := Option.some.inj hn
        omega
      · unfold Store.Passable
        rw [h.args]
        refine ⟨fun k hk => ?_, .inr (.inl ⟨0, n, h.allocations, Nat.zero_le _, by omega⟩)⟩
        exact absurd (h.vectorSize.symm.trans hk) (by simp)
    · rw [if_neg hty, if_neg hty]
      exact ih (first + count) start h hpos' (by omega) (by omega) hstart hallow

end Store

end FuncDecl

def CallframeElm.first : CallframeElm → ℕ
  | .poolVec first _ _ => first
  | .unallocated first _ _ => first

section Unnamed

variable {Y : Type}

/-- A call from a pool whose argument zero nobody has passed. -/
structure Unnamed (m : Memory Y) : Prop where
  top : m.top = 1
  caller : ∃ f, m.stack[0]? = some f ∧ f.memframeIsVector = false ∧ f.callframeSize = 0
  callee : ∃ f, m.stack[1]? = some f ∧
    (f.callframeIsVector = true → f.callframeVector[0]? = some .default) ∧
    (f.callframeIsVector = false →
      ∀ e ∈ f.callframe.outputs ++ f.callframe.inputs, 0 < e.first)

theorem searchCallframe_eq_none {es : List CallframeElm} (h : ∀ e ∈ es, 0 < e.first) :
    searchCallframe es 0 = none := by
  induction es with
  | nil => rfl
  | cons e es ih =>
    have hpos := h e List.mem_cons_self
    have hrest := ih fun e he => h e (List.mem_cons_of_mem _ he)
    cases e with
    | poolVec first last ptr =>
      have hpos : 0 < first := hpos
      rw [searchCallframe, if_neg (by omega)]
      exact hrest
    | unallocated first level idx =>
      have hpos : 0 < first := hpos
      rw [searchCallframe, if_neg (by omega)]
      exact hrest

theorem Unnamed.not_aliases {m : Memory Y} (h : Unnamed m) {wires : List ℕ} (hwires : wires ≠ []) :
    ¬m.Aliases wires := by
  rintro ⟨f, hf, -, halias⟩
  obtain ⟨w, wires, rfl⟩ := List.exists_cons_of_ne_nil hwires
  obtain ⟨a, ha, hplace⟩ := halias 0 w rfl
  rw [h.top] at hf hplace
  obtain ⟨f', hf', hvector, hslices⟩ := h.callee
  obtain rfl : f = f' := Option.some.inj (hf.symm.trans hf')
  unfold Memory.argument at ha
  rcases Bool.eq_false_or_eq_true f.callframeIsVector with hvec | hvec
  · rw [if_pos hvec, hvector hvec] at ha
    obtain rfl := Option.some.inj ha
    obtain ⟨g, hg, hpool, hsize⟩ := h.caller
    unfold Memory.wirePlace at hplace
    simp only [Nat.sub_self, hg, Option.bind_eq_bind, Option.bind_some, hsize, Nat.not_lt_zero,
      if_false, Frame.place_pool hpool] at hplace
    cases hc : g.memframePool.lookup w with
    | none =>
      rw [hc] at hplace
      cases hplace
    | some c =>
      rw [hc] at hplace
      cases hplace
  · rw [if_neg (by simp [hvec])] at ha
    obtain ⟨res, hres, -⟩ := Option.map_eq_some_iff.1 ha
    have houts := searchCallframe_eq_none fun e he =>
      hslices hvec e (List.mem_append_left _ he)
    have hins := searchCallframe_eq_none fun e he =>
      hslices hvec e (List.mem_append_right _ he)
    unfold Callframe.getEither at hres
    rw [houts, hins] at hres
    split_ifs at hres

theorem fillCallframeVector_zero {v v' : List AbsoluteAddr} {start count : ℕ} {a : AbsoluteAddr}
    (h : Memory.fillCallframeVector v start count a = some v') (hstart : 0 < start) :
    v'[0]? = v[0]? := by
  induction count generalizing v' with
  | zero =>
    obtain rfl := Option.some.inj h
    rfl
  | succ n ih =>
    unfold Memory.fillCallframeVector at h ih
    rw [List.range_succ, List.foldlM_append] at h
    obtain ⟨u, hu, h⟩ := Option.bind_eq_some_iff.1 h
    rw [List.foldlM_cons] at h
    obtain ⟨u', hset, h⟩ := Option.bind_eq_some_iff.1 h
    obtain rfl := Option.some.inj h
    obtain ⟨b, -, hset⟩ := Option.bind_eq_some_iff.1 hset
    split_ifs at hset
    obtain rfl := Option.some.inj hset
    rw [List.getElem?_set_ne (by omega)]
    exact ih hu

theorem Unnamed.passSlice {m m' : Memory Y} (h : Unnamed m) {start count : ℕ}
    {allowAllocation : Bool} {a : AbsoluteAddr} {slice : Option CallframeElm}
    (hslice : ∀ e, slice = some e → 0 < e.first) (hstart : 0 < start)
    (hpass : m.passSlice start count allowAllocation a slice = some m') : Unnamed m' := by
  obtain ⟨f, hf, hvector, hslices⟩ := h.callee
  have hset : ∀ g : Frame Y → Frame Y, ((g f).callframeIsVector = true →
      (g f).callframeVector[0]? = some .default) → ((g f).callframeIsVector = false →
      ∀ e ∈ (g f).callframe.outputs ++ (g f).callframe.inputs, 0 < e.first) →
      Unnamed (m.modifyFrame m.top g) := by
    intro g hv hs
    have hne : m.top ≠ 0 := by rw [h.top]; decide
    refine ⟨h.top, ?_, g f, ?_, hv, hs⟩
    · rw [Memory.modifyFrame_other m hne]
      exact h.caller
    · rw [h.top]
      exact Memory.modifyFrame_self hf g
  unfold Memory.passSlice at hpass
  rw [h.top] at hpass
  simp only [hf, Option.bind_eq_bind, Option.bind_some] at hpass
  rw [← h.top] at hpass
  rcases Bool.eq_false_or_eq_true f.callframeIsVector with hvec | hvec
  · rw [if_pos hvec] at hpass
    obtain ⟨v, hv, hpass⟩ := Option.bind_eq_some_iff.1 hpass
    obtain rfl := Option.some.inj hpass
    refine hset _ (fun hvec' => ?_) fun hvec' => absurd (hvec.symm.trans hvec') (by simp)
    exact (fillCallframeVector_zero hv hstart).trans (hvector hvec)
  · rw [if_neg (by simp [hvec])] at hpass
    obtain ⟨e, rfl, hpass⟩ := Option.bind_eq_some_iff.1 hpass
    obtain rfl := Option.some.inj hpass
    refine hset _ (fun hvec' => absurd (hvec.symm.trans hvec') (by simp)) fun _ t ht => ?_
    have hmem : t ∈ f.callframe.outputs ++ f.callframe.inputs ∨ t = e := by
      cases allowAllocation <;>
        simp [Callframe.allocateOutputs, Callframe.allocateInputs] at ht ⊢ <;> tauto
    rcases hmem with hmem | rfl
    · exact hslices hvec t hmem
    · exact hslice t rfl

theorem Unnamed.setPool {m : Memory Y} (h : Unnamed m) (q : WirePool Y) :
    Unnamed (m.modifyFrame 0 fun f => { f with memframePool := q }) := by
  obtain ⟨f, hf, hpool, hsize⟩ := h.caller
  refine ⟨h.top, ⟨_, Memory.modifyFrame_self hf _, hpool, hsize⟩, ?_⟩
  rw [Memory.modifyFrame_other m (by decide)]
  exact h.callee

theorem Unnamed.withFresh {m : Memory Y} (h : Unnamed m) (n : ℕ) : Unnamed { m with fresh := n } :=
  ⟨h.top, h.caller, h.callee⟩

theorem Unnamed.extend {m : Memory Y} (h : Unnamed m) (count : ℕ) : Unnamed (m.extend count) := by
  obtain ⟨f, hf, hcallee⟩ := h.callee
  refine ⟨h.top, ?_, ⟨{ f with callframeSize := f.callframeSize + count }, ?_, hcallee⟩⟩
  · unfold Memory.extend
    rw [h.top, Memory.modifyFrame_other m (by decide)]
    exact h.caller
  · unfold Memory.extend
    rw [h.top]
    exact Memory.modifyFrame_self hf _

theorem Unnamed.allocateSlice [Inhabited Y] {m m' : Memory Y} (h : Unnamed m)
    {srcFirst srcLast start count : ℕ} {allowAllocation : Bool} (hstart : 0 < start)
    (hslice : m.allocateSlice srcFirst srcLast start count allowAllocation = some m') :
    Unnamed m' := by
  have hext := h.extend count
  obtain ⟨f, hf, hpool, hsize⟩ := hext.caller
  unfold Memory.allocateSlice at hslice
  by_cases hrange : m.top = 0 ∨ srcLast < srcFirst ∨ count ≠ srcLast - srcFirst + 1
  · rw [if_pos hrange] at hslice
    cases hslice
  rw [if_neg hrange] at hslice
  simp only [show (m.extend count).top - 1 = 0 by rw [hext.top], hf, Option.bind_eq_bind,
    Option.bind_some, hsize, Nat.not_lt_zero, if_false, hpool, Bool.false_eq_true] at hslice
  have hpoolVec : ∀ ptr, ∀ e, some (CallframeElm.poolVec start (start + count - 1) ptr) = some e →
      0 < e.first := by
    intro ptr e he
    obtain rfl := Option.some.inj he
    exact hstart
  generalize f.memframePool.present srcFirst = present at hslice
  obtain ⟨found, p⟩ := present
  cases found with
  | false =>
    dsimp only at hslice
    split_ifs at hslice
    · obtain ⟨q, -, hslice⟩ := Option.bind_eq_some_iff.1 hslice
      obtain ⟨⟨ptr, q'⟩, -, hslice⟩ := Option.bind_eq_some_iff.1 hslice
      exact ((hext.setPool q').withFresh _).passSlice (hpoolVec ptr) hstart hslice
    · refine hext.passSlice (fun e he => ?_) hstart hslice
      obtain rfl := Option.some.inj he
      exact hstart
  | true =>
    dsimp only at hslice
    obtain ⟨⟨ptr, q'⟩, -, hslice⟩ := Option.bind_eq_some_iff.1 hslice
    exact (hext.setPool q').passSlice (hpoolVec ptr) hstart hslice

theorem unnamed_pushFrame [Inhabited Y] {m : Memory Y} {f : Frame Y} (htop : m.top = 0)
    (hstack : m.stack = [f]) (hvec : f.memframeIsVector = false) (hsize : f.callframeSize = 0)
    (n : ℕ) (vectorSize : Option ℕ) : Unnamed (m.pushFrame (some n) vectorSize) := by
  have hlen : m.top < m.stack.length := by
    rw [htop, hstack]
    exact Nat.one_pos
  obtain ⟨htop', hbelow, g, hg, hpushed⟩ := Memory.pushFrame_spec hlen (some n) vectorSize
  rw [htop] at htop' hbelow hg
  refine ⟨htop', ⟨f, ?_, hvec, hsize⟩, g, hg, fun hisVector => ?_, fun hisVector e he => ?_⟩
  · rw [hbelow 0 (Nat.le_refl _), hstack]
    rfl
  · obtain ⟨k, -, hlt⟩ := hpushed.callframeVector hisVector
    obtain ⟨a, ha⟩ : ∃ a, g.callframeVector[0]? = some a :=
      ⟨_, List.getElem?_eq_getElem (Nat.lt_of_le_of_lt (Nat.zero_le k) hlt)⟩
    have hg' : (m.pushFrame (some n) vectorSize).stack[m.top + 1]? = some g := by
      rw [htop]
      exact hg
    have hdefault := Memory.pushFrame_new (by rw [htop, hstack]; rfl) _ _ hg' ha
    rw [ha, hdefault]
  · rw [hpushed.callframe hisVector] at he
    cases he

end Unnamed

namespace FuncDecl

section Call

variable {X : TypeId → Type} [∀ t, Inhabited (X t)] {t : TypeId} {allowAllocation : Bool}

theorem unnamed_allocateSlices {counts : List (TypeId × ℕ)} :
    ∀ {ranges : List (ℕ × ℕ)} {prev prev' : ℕ} {eval eval' : ∀ t, Memory (X t)},
    0 < prev → Unnamed (eval t) →
    allocateSlices allowAllocation counts ranges prev eval = some (prev', eval') →
    Unnamed (eval' t) ∧ 0 < prev' := by
  induction counts with
  | nil =>
    intro ranges prev prev' eval eval' hprev h hslices
    cases ranges with
    | nil =>
      obtain ⟨rfl, rfl⟩ := Prod.mk.inj (Option.some.inj hslices)
      exact ⟨h, hprev⟩
    | cons range ranges => cases hslices
  | cons g counts ih =>
    intro ranges prev prev' eval eval' hprev h hslices
    obtain ⟨ty, count⟩ := g
    cases ranges with
    | nil => cases hslices
    | cons range ranges =>
      obtain ⟨srcFirst, srcLast⟩ := range
      obtain ⟨m, hm, hrest⟩ := Option.bind_eq_some_iff.1 hslices
      refine ih (Nat.add_pos_left hprev _) ?_ hrest
      rcases eq_or_ne t ty with rfl | hne
      · rw [Function.update_self]
        exact h.allocateSlice hprev hm
      · rw [Function.update_of_ne hne]
        exact h

theorem unnamed_first {counts : List (TypeId × ℕ)} {ranges : List (ℕ × ℕ)} {prev' : ℕ}
    {eval eval' : ∀ t, Memory (X t)} (hfirst : ∀ g ∈ counts.head?, g.1 ≠ t ∧ 0 < g.2)
    (h : Unnamed (eval t))
    (hslices : allocateSlices allowAllocation counts ranges 0 eval = some (prev', eval')) :
    Unnamed (eval' t) ∧ (counts = [] ∧ prev' = 0 ∨ 0 < prev') := by
  cases counts with
  | nil =>
    cases ranges with
    | nil =>
      obtain ⟨rfl, rfl⟩ := Prod.mk.inj (Option.some.inj hslices)
      exact ⟨h, .inl ⟨rfl, rfl⟩⟩
    | cons range ranges => cases hslices
  | cons g counts =>
    obtain ⟨ty, count⟩ := g
    obtain ⟨hne, hpos⟩ := hfirst _ rfl
    cases ranges with
    | nil => cases hslices
    | cons range ranges =>
      obtain ⟨srcFirst, srcLast⟩ := range
      obtain ⟨m, hm, hrest⟩ := Option.bind_eq_some_iff.1 hslices
      have hunnamed : Unnamed (Function.update eval ty m t) := by
        rw [Function.update_of_ne (Ne.symm hne)]
        exact h
      obtain ⟨h', hprev⟩ := unnamed_allocateSlices (by omega) hunnamed hrest
      exact ⟨h', .inr hprev⟩

end Call

theorem namedWires_ne_nil {t : TypeId} {counts : List (TypeId × ℕ)} :
    ∀ {ranges : List (ℕ × ℕ)}, ranges.length = counts.length → (∀ g ∈ counts, 0 < g.2) →
    (∃ g ∈ counts, g.1 = t) → namedWires t counts ranges ≠ [] := by
  induction counts with
  | nil =>
    rintro ranges - - ⟨g, hg, -⟩
    cases hg
  | cons g counts ih =>
    intro ranges hlen hpos hex
    obtain ⟨ty, count⟩ := g
    cases ranges with
    | nil => cases hlen
    | cons range ranges =>
      obtain ⟨srcFirst, srcLast⟩ := range
      rw [namedWires_cons]
      split_ifs with hty
      · intro hnil
        have hlength := congrArg List.length hnil
        have hcount : 0 < count := hpos _ List.mem_cons_self
        simp at hlength
        omega
      · refine ih (Nat.succ.inj hlen) (fun g hg => hpos g (List.mem_cons_of_mem _ hg)) ?_
        obtain ⟨g, hg, hgt⟩ := hex
        rcases List.mem_cons.1 hg with rfl | hg
        · exact absurd hgt hty
        · exact ⟨g, hg, hgt⟩

theorem length_slots (counts : List (TypeId × ℕ)) (first : ℕ) :
    (slots counts first).length = counts.length := by
  induction counts generalizing first with
  | nil => rfl
  | cons g counts ih => exact congrArg Nat.succ (ih _)

theorem wireCount_le (t : TypeId) (counts : List (TypeId × ℕ)) :
    wireCount t counts ≤ (counts.map (·.2)).sum := by
  induction counts with
  | nil => exact Nat.le_refl _
  | cons g counts ih =>
    unfold wireCount
    rw [List.map_cons, List.sum_cons]
    split_ifs <;> omega

theorem exists_allocated_pool (n : ℕ) :
    ∃ (m : Memory ℕ) (f : Frame ℕ), m.top = 0 ∧ m.stack = [f] ∧ f.memframeIsVector = false ∧
      f.callframeSize = 0 ∧
      Refines ((Store.new : Store ℕ).step (.allocationNew 0 (n - 1))).2 m := by
  obtain ⟨m, hm, href⟩ := (refines_new (X := ℕ)).allocationNew (Nat.zero_le (n - 1))
    (fun id _ _ => ⟨rfl, by
      rw [Bool.eq_false_iff]
      intro h
      obtain ⟨k, j, hk, -⟩ := (StoreFrame.allocated_iff _ id).1 h
      cases hk⟩)
  unfold Memory.allocationNew at hm
  simp only [show (Memory.new : Memory ℕ).stack[(Memory.new : Memory ℕ).top]? =
    some (Frame.new 1) from rfl, Option.bind_eq_bind, Option.bind_some] at hm
  rw [if_neg (by simp [Frame.new])] at hm
  obtain ⟨q, -, hm'⟩ := Option.bind_eq_some_iff.1 hm
  obtain rfl := Option.some.inj hm'
  exact ⟨_, _, rfl, rfl, rfl, rfl, href⟩

theorem not_passesArguments_of_two_types {func : FuncDecl} (hpos : ∀ g ∈ func.groups, 0 < g.2)
    {t₁ t₂ : TypeId} {count : ℕ} {rest : List (TypeId × ℕ)}
    (hgroups : func.groups = (t₁, count) :: rest) (ht₂ : ∃ g ∈ func.groups, g.1 = t₂)
    (hne : t₁ ≠ t₂) : ¬func.PassesArguments := by
  intro hall
  have houtpos : ∀ g ∈ func.outputCounts, 0 < g.2 := fun g hg =>
    hpos g (List.mem_append_left _ hg)
  have hinpos : ∀ g ∈ func.inputCounts, 0 < g.2 := fun g hg =>
    hpos g (List.mem_append_right _ hg)
  obtain ⟨n, hn⟩ : ∃ n, n = (func.groups.map (·.2)).sum := ⟨_, rfl⟩
  have hsum : n = (func.outputCounts.map (·.2)).sum + (func.inputCounts.map (·.2)).sum := by
    rw [hn, groups, List.map_append, List.sum_append]
  have hnpos : 0 < n := by
    have hcount := hpos (t₁, count) (by rw [hgroups]; exact List.mem_cons_self)
    have hcount : 0 < count := hcount
    rw [hn, hgroups, List.map_cons, List.sum_cons]
    exact Nat.add_pos_left hcount _
  obtain ⟨m, f, htop, hstack, hvec, hsize, href⟩ := exists_allocated_pool n
  have ht₂mem : t₂ ∈ func.typeIds := by
    obtain ⟨g, hg, rfl⟩ := ht₂
    exact func.mem_typeIds g hg
  have hcall : func.Callable (X := fun _ => ℕ)
      (fun _ => ((Store.new : Store ℕ).step (.allocationNew 0 (n - 1))).2)
      (slots func.outputCounts 0)
      (slots func.inputCounts (func.outputCounts.map (·.2)).sum) := by
    refine ⟨length_slots _ _, length_slots _ _, fun t _ => ⟨trivial, ?_⟩⟩
    have hready : Ready ((((Store.new : Store ℕ).step (.allocationNew 0 (n - 1))).2).step
        (.pushFrame func.argsCount func.bodyMax)).2 n := by
      refine ⟨rfl, rfl, rfl, ?_, ?_, fun id => ⟨rfl, rfl⟩⟩
      · show some (n - 1 - 0 + 1) = some n
        rw [Nat.sub_zero, Nat.sub_add_cancel hnpos]
      · show func.argsCount = some n
        rw [hn]
        rfl
    obtain ⟨hwell, hready', htotal⟩ := Ready.wellFormed t true 0 0
      hready houtpos (by omega) (by omega) rfl (fun _ => rfl)
    rw [Nat.zero_add] at htotal
    have hle := wireCount_le t func.outputCounts
    obtain ⟨hwell', -, -⟩ := Ready.wellFormed t false
      (func.outputCounts.map (·.2)).sum (wireCount t func.outputCounts) hready' hinpos (by omega)
      (by omega) htotal.symm (fun h => by cases h)
    exact Store.wellFormed_append.2 ⟨hwell, hwell'⟩
  obtain ⟨eval', hgate, halias⟩ := hall (fun _ => ℕ) _ (fun _ => m) _ _ (fun _ => href) hcall
  obtain ⟨⟨prev, eval₁⟩, houts, hafter⟩ := Option.bind_eq_some_iff.1 hgate
  obtain ⟨⟨prev', eval₂⟩, hins, heq⟩ := Option.bind_eq_some_iff.1 hafter
  obtain rfl := Option.some.inj heq
  have hunnamed : Unnamed (func.pushFrames (fun _ => m) t₂) := by
    rw [pushFrames_eq, if_pos ht₂mem]
    exact unnamed_pushFrame htop hstack hvec hsize _ _
  have hhead : ∀ g ∈ func.groups.head?, g.1 ≠ t₂ ∧ 0 < g.2 := by
    intro g hg
    rw [hgroups] at hg
    obtain rfl := Option.some.inj hg
    exact ⟨hne, hpos _ (by rw [hgroups]; exact List.mem_cons_self)⟩
  have hfirst : ∀ g ∈ func.outputCounts.head?, g.1 ≠ t₂ ∧ 0 < g.2 := by
    intro g hg
    refine hhead g ?_
    rw [groups, List.head?_append, hg]
    rfl
  obtain ⟨hunnamed₁, hprev⟩ := unnamed_first hfirst hunnamed houts
  have hunnamed₂ : Unnamed (eval₂ t₂) := by
    rcases hprev with ⟨hnil, rfl⟩ | hprev
    · rw [groups, hnil, List.nil_append] at hhead
      exact (unnamed_first hhead hunnamed₁ hins).1
    · exact (unnamed_allocateSlices hprev hunnamed₁ hins).1
  refine hunnamed₂.not_aliases ?_ (halias t₂ ht₂mem)
  obtain ⟨g, hg, hgt⟩ := ht₂
  intro hnil
  obtain ⟨hnil₁, hnil₂⟩ := List.append_eq_nil_iff.1 hnil
  rcases List.mem_append.1 hg with hg | hg
  · exact namedWires_ne_nil (length_slots _ _) houtpos ⟨g, hg, hgt⟩ hnil₁
  · exact namedWires_ne_nil (length_slots _ _) hinpos ⟨g, hg, hgt⟩ hnil₂

theorem neZero_typeIds : NeZero 256 := ⟨by decide⟩

attribute [local instance] neZero_typeIds in
/-- One output of a type and one input of another. -/
def mixedFunction : FuncDecl := newFunction [] [((0 : Fin 256), 1)] [((1 : Fin 256), 1)]

end FuncDecl

end EdaBitGen
