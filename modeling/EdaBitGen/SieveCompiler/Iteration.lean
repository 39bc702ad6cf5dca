import EdaBitGen.SieveCompiler.Counter

/-!
# Iterations and their windows

Each iteration runs the closure on its windows, if the counter's place and value fit.
-/

namespace EdaBitGen.SieveCompiler

open WireMap

/-! ## The counter's values -/

/-- The wires of a counter that holds a number. -/
def heldValues (field : FieldType) (numWires i : ℕ) : List (ZMod field.modulus) :=
  if field = .f2 then
    (List.range numWires).map fun k => if i.testBit (numWires - 1 - k) then 1 else 0
  else [(i : ZMod field.modulus)]

/-- The numbers that a counter can hold. -/
def capacityOf (field : FieldType) (numWires : ℕ) : ℕ :=
  if field = .f2 then 2 ^ numWires else field.modulus

theorem toKBits_eq (field : FieldType) {x k : ℕ} (h : x < 2 ^ k) : toKBits field x k =
    .ok ((List.range k).map fun j => if x.testBit j then 1 else 0) := by
  have hlen : x.bits.length ≤ k := by
    rw [Nat.size_eq_bits_len]
    exact Nat.size_le.2 h
  simp only [toKBits, require, List.length_map, if_pos hlen]
  refine congrArg Except.ok (List.ext_getElem? fun j => ?_)
  have hbit := Nat.testBit_eq_inth x j
  rw [List.getElem?_append, List.getElem?_map, List.getElem?_map, List.length_map]
  by_cases hj : j < x.bits.length
  · rw [List.getI_eq_getElem x.bits hj] at hbit
    rw [if_pos hj, List.getElem?_eq_getElem hj, List.getElem?_range (hj.trans_le hlen),
      Option.map_some, Option.map_some, hbit]
  · rw [List.getI_eq_default x.bits (Nat.le_of_not_lt hj)] at hbit
    rw [if_neg hj, List.getElem?_replicate]
    by_cases hk : j < k
    · rw [if_pos (by omega), List.getElem?_range hk, Option.map_some, hbit]
      rfl
    · rw [if_neg (by omega), List.getElem?_eq_none (by rw [List.length_range]; omega)]
      rfl

theorem toKBits_error (field : FieldType) {x k : ℕ} (h : ¬ x < 2 ^ k) :
    toKBits field x k = .error .counterTooLarge := by
  have hlen : ¬ x.bits.length ≤ k := by
    rw [Nat.size_eq_bits_len]
    exact fun hle => h (Nat.size_le.1 hle)
  simp only [toKBits, require, List.length_map, if_neg hlen]
  rfl

theorem counterValues_eq (field : FieldType) (c : CounterInfo) : counterValues field c =
    if c.value < capacityOf field c.numWires then .ok (heldValues field c.numWires c.value)
    else .error .counterTooLarge := by
  unfold counterValues capacityOf heldValues
  by_cases hfield : field = .f2
  · rw [if_pos hfield, if_pos hfield, if_pos hfield]
    split
    · rename_i hlt
      rw [toKBits_eq field hlt]
      refine congrArg Except.ok (List.ext_getElem? fun k => ?_)
      by_cases hk : k < c.numWires
      · rw [List.getElem?_reverse (by rwa [List.length_map, List.length_range]), List.getElem?_map,
          List.getElem?_map, List.length_map, List.length_range, List.getElem?_range hk,
          List.getElem?_range (by omega)]
        rfl
      · rw [List.getElem?_eq_none (by simpa using hk), List.getElem?_eq_none (by simpa using hk)]
    · rename_i hle
      rw [toKBits_error field hle]
      rfl
  · rw [if_neg hfield, if_neg hfield, if_neg hfield, toFe, require]
    split <;> rfl

theorem length_heldValues {field : FieldType} {numWires : ℕ} (h : field = .f2 ∨ numWires = 1)
    (i : ℕ) : (heldValues field numWires i).length = numWires := by
  unfold heldValues
  split
  · rw [List.length_map, List.length_range]
  · rename_i hfield
    exact (h.resolve_left hfield).symm

/-! ## The parameter wires -/

namespace Signature

variable (s : Signature)

/-- The cells of the closure's parameter wires: its outputs, then its inputs as declared. -/
def params (i : ℕ) (field : FieldType) : List (Cell (ZMod field.modulus)) :=
  ((s.outs.filter fun g => g.field = field).flatMap fun g => (g.wires i).map .borrowedMutable) ++
    ((s.env.filter fun g => g.field = field).flatMap fun g =>
      (g.wires 0).map .borrowedImmutable) ++
    (match s.counter with
      | some (f, numWires) =>
        if f = field then (heldValues field numWires i).map fun v => .owned (some v) else []
      | none => []) ++
    ((s.its.filter fun g => g.field = field).flatMap fun g => (g.wires i).map .borrowedImmutable)

/-- The environment wires of a field. -/
def numEnvWiresFor (field : FieldType) : ℕ :=
  ((s.env.filter fun g => g.field = field).map (·.size)).sum

def numOutWiresFor (field : FieldType) : ℕ :=
  ((s.outs.filter fun g => g.field = field).map (·.size)).sum

end Signature

/-- An iterated call and its caller's map when each iteration starts. -/
structure IteratedCall extends Signature where
  caller : ℕ → (field : FieldType) → WireMap (ZMod field.modulus)
  lends : ∀ i < iterCount, ∀ field, ∃ parent,
    allocOutputs (caller i field) (toSignature.outRanges i field) = .ok parent ∧
      parent.Lendable (toSignature.outRanges i field)
        (toSignature.envRanges field ++ toSignature.itRanges i field)

namespace IteratedCall

variable (s : IteratedCall)

/-- Each iteration's child maps have the parameter wires and nothing else, and the windows of the
iterations partition the ranges. -/
def RunsWindows : Prop :=
  (∃ calls, s.calls = .ok calls ∧ ∀ i < s.iterCount, ∃ call, calls[i]? = some call ∧
    ∀ field, ∃ child, childWireMap call field (s.caller i field) = .ok child ∧
      ∀ wire, child.lookup wire = (s.params i field)[wire]?) ∧
  ∀ g ∈ s.outs ++ s.its, ∀ wire, g.range.Has wire ↔
    ∃! i, i < s.iterCount ∧ (window s.iterCount i g.range).Has wire

/-- The counter can hold the numbers of the iterations, and its place is right. -/
def CounterFits : Prop := ∀ field numWires, s.counter = some (field, numWires) → s.iterCount = 0 ∨
  (field = .f2 ∨ numWires = 1) ∧ (∀ i < s.iterCount, i < capacityOf field numWires) ∧
    if numWires = 0 then 0 < s.numOutWiresFor field + s.numEnvFor field
    else numWires < 2 ^ 48 ∧ s.numEnvWiresFor field = s.numEnvFor field

variable {s}

theorem outCells_eq {i : ℕ} (hi : i < s.iterCount) (field : FieldType) :
    (outCells (s.outRanges i field) : List (Cell (ZMod field.modulus))) =
      (s.outs.filter fun g => g.field = field).flatMap fun g =>
        (g.wires i).map .borrowedMutable := by
  rw [outCells, Signature.outRanges, List.map_map, List.flatMap_def]
  congr 1
  refine List.map_congr_left fun g hg => ?_
  exact congrArg _ (wiresOf_window (s.outs_len g (List.mem_of_mem_filter hg)) hi)

theorem itCells_eq {i : ℕ} (hi : i < s.iterCount) (field : FieldType) :
    (inCells (s.itRanges i field) : List (Cell (ZMod field.modulus))) =
      (s.its.filter fun g => g.field = field).flatMap fun g =>
        (g.wires i).map .borrowedImmutable := by
  rw [inCells, Signature.itRanges, List.map_map, List.flatMap_def]
  congr 1
  refine List.map_congr_left fun g hg => ?_
  exact congrArg _ (wiresOf_window (s.its_len g (List.mem_of_mem_filter hg)) hi)

theorem envCells_eq (field : FieldType) :
    (inCells (s.envRanges field) : List (Cell (ZMod field.modulus))) =
      (s.env.filter fun g => g.field = field).flatMap fun g =>
        (g.wires 0).map .borrowedImmutable := by
  rw [inCells, Signature.envRanges, List.map_map, List.flatMap_def]
  congr 1
  refine List.map_congr_left fun g hg => ?_
  show immutableCells g.range = _
  rw [immutableCells, wiresOf, s.env_len g (List.mem_of_mem_filter hg), Group.wires, Nat.zero_mul]
  rfl

theorem outRanges_sum {i : ℕ} (hi : i < s.iterCount) (field : FieldType) :
    ((s.outRanges i field).map WireRange.len).sum = s.numOutWiresFor field := by
  rw [Signature.outRanges, List.map_map, Signature.numOutWiresFor]
  congr 1
  exact List.map_congr_left fun g hg => window_len (s.outs_len g (List.mem_of_mem_filter hg)) hi

theorem envRanges_sum (field : FieldType) :
    ((s.envRanges field).map WireRange.len).sum = s.numEnvWiresFor field := by
  rw [Signature.envRanges, List.map_map, Signature.numEnvWiresFor]
  congr 1
  exact List.map_congr_left fun g hg => s.env_len g (List.mem_of_mem_filter hg)

theorem mapM_ok {α β : Type} {f : α → Except Error β} {g : α → β} :
    ∀ {l : List α}, (∀ a ∈ l, f a = .ok (g a)) → l.mapM f = .ok (l.map g)
  | [], _ => rfl
  | a :: l, h => by
    rw [List.mapM_cons, h a (.head _), mapM_ok fun b hb => h b (.tail _ hb)]
    rfl

theorem calls_eq (h : ∀ c ∈ s.counter, c.1 = .f2 ∨ c.2 = 1) :
    s.calls = .ok ((List.range s.iterCount).map s.call) := by
  apply mapM_ok
  intro i hi
  exact (s.callIteration_eq (List.mem_range.1 hi)).trans (if_pos h)

theorem shape_of_calls {calls : List FunctionCall} (h : s.calls = .ok calls)
    (hpos : 0 < s.iterCount) : ∀ c ∈ s.counter, c.1 = .f2 ∨ c.2 = 1 := by
  by_contra hshape
  have hfirst := (s.callIteration_eq hpos).trans (if_neg hshape)
  obtain ⟨n, hn⟩ := Nat.exists_eq_succ_of_ne_zero hpos.ne'
  have hrange : List.range s.iterCount = 0 :: (List.range n).map Nat.succ := by
    rw [hn, List.range_succ_eq_map]
  unfold Signature.calls callMap at h
  change (List.range s.iterCount).mapM _ = _ at h
  rw [hrange, List.mapM_cons, hfirst] at h
  cases h

/-! ## The child maps -/

/-- The values of the counter in a field's map. -/
def values (s : IteratedCall) (i : ℕ) (field : FieldType) : List (ZMod field.modulus) :=
  match s.counter with
  | some (f, numWires) => if f = field then heldValues field numWires i else []
  | none => []

theorem params_eq {i : ℕ} (hi : i < s.iterCount) (field : FieldType) : s.params i field =
    paramCells (s.outRanges i field) (s.envRanges field) (valueCells (s.values i field))
      (s.itRanges i field) := by
  rw [paramCells, outCells_eq hi, envCells_eq, itCells_eq hi, Signature.params]
  unfold values valueCells
  congr 2
  split
  · split <;> rfl
  · rfl

theorem lookup_of_values_nil {i : ℕ} (hi : i < s.iterCount) {field : FieldType}
    (h : s.values i field = []) (wire : ℕ) :
    lookup (borrowedMap (s.outRanges i field) (s.envRanges field) (s.itRanges i field) 0) wire =
      (s.params i field)[wire]? := by
  rw [params_eq hi, h, ← lookup_counter, lookup_append, lookup_single]
  simp

theorem counterFor_call (s : IteratedCall) (i : ℕ) (field : FieldType) :
    (s.call i).counterFor field = (s.counter.filter fun c => c.1 = field).map fun c =>
      ⟨s.numEnvFor c.1, c.1, c.2, i⟩ := by
  unfold FunctionCall.counterFor Signature.call Signature.info
  cases s.counter with
  | none => rfl
  | some c =>
    by_cases hfield : c.1 = field
    · simp [Option.filter, hfield]
    · simp [Option.filter, hfield]

theorem childWireMap_call {i : ℕ} (hi : i < s.iterCount) (field : FieldType) :
    childWireMap (s.call i) field (s.caller i field) =
      match (s.call i).counterFor field with
      | some c => do
        let values ← counterValues field c
        allocCounter (borrowedMap (s.outRanges i field) (s.envRanges field) (s.itRanges i field)
          c.numWires) (((s.outRanges i field).map WireRange.len).sum + (s.envRanges field).length)
            values
      | none =>
        .ok (borrowedMap (s.outRanges i field) (s.envRanges field) (s.itRanges i field) 0) := by
  obtain ⟨parent, halloc, hlend⟩ := s.lends i hi field
  refine childWireMap_eq rfl rfl (fun c hc => ?_) halloc hlend
  rw [counterFor_call] at hc
  obtain ⟨p, hp, rfl⟩ := Option.mem_map.1 hc
  obtain ⟨-, hfield⟩ := Option.mem_filter_iff.1 hp
  rw [decide_eq_true_iff] at hfield
  rw [hfield, Signature.envRanges, List.length_map, Signature.numEnvFor]

theorem childWireMap_iff {i : ℕ} (hi : i < s.iterCount) (field : FieldType)
    (hshape : ∀ c ∈ s.counter, c.1 = .f2 ∨ c.2 = 1) :
    (∃ child, childWireMap (s.call i) field (s.caller i field) = .ok child ∧
      ∀ wire, child.lookup wire = (s.params i field)[wire]?) ↔
    ∀ numWires, s.counter = some (field, numWires) → i < capacityOf field numWires ∧
      if numWires = 0 then 0 < s.numOutWiresFor field + s.numEnvFor field
      else numWires < 2 ^ 48 ∧ s.numEnvWiresFor field = s.numEnvFor field := by
  rw [childWireMap_call hi, counterFor_call]
  by_cases hcounter : ∃ numWires, s.counter = some (field, numWires)
  · obtain ⟨numWires, hcounter⟩ := hcounter
    have hvalues : s.values i field = heldValues field numWires i := by
      rw [values, hcounter]
      exact if_pos rfl
    have hlen : (heldValues field numWires i).length = numWires :=
      length_heldValues (hshape _ hcounter) i
    have hiff := allocCounter_iff (s.outRanges i field) (s.envRanges field) (s.itRanges i field)
      (heldValues field numWires i) (s.envRanges field).length
    rw [hlen, outRanges_sum hi, envRanges_sum, ← hvalues, ← params_eq hi, hvalues] at hiff
    rw [hcounter, outRanges_sum hi]
    simp only [Option.filter, decide_true, if_true, Option.map_some, counterValues_eq,
      Option.some.injEq, Prod.mk.injEq, true_and, forall_eq']
    have hnum : (s.envRanges field).length = s.numEnvFor field := List.length_map _
    rw [hnum] at hiff ⊢
    by_cases hfits : i < capacityOf field numWires
    · rw [if_pos hfits]
      refine hiff.trans ⟨fun h => ⟨hfits, h⟩, And.right⟩
    · rw [if_neg hfits]
      refine ⟨?_, fun h => absurd h.1 hfits⟩
      rintro ⟨child, hchild, -⟩
      cases hchild
  · have hvalues : s.values i field = [] := by
      unfold values
      split
      · rename_i f numWires hsome
        exact if_neg fun hfield => hcounter ⟨numWires, by rw [hsome, hfield]⟩
      · rfl
    have hnone : (s.counter.filter fun c => c.1 = field) = none := by
      rw [Option.filter_eq_none_iff]
      intro c hc hfield
      rw [decide_eq_true_iff] at hfield
      exact hcounter ⟨c.2, by rw [hc, ← hfield]⟩
    rw [hnone]
    exact ⟨fun _ numWires hsome => absurd ⟨numWires, hsome⟩ hcounter,
      fun _ => ⟨_, rfl, lookup_of_values_nil hi hvalues⟩⟩

theorem runsWindows_iff (s : IteratedCall) : s.RunsWindows ↔ s.CounterFits := by
  constructor
  · rintro ⟨⟨calls, hcalls, hruns⟩, -⟩ field numWires hcounter
    rcases Nat.eq_zero_or_pos s.iterCount with hzero | hpos
    · exact .inl hzero
    have hshape := shape_of_calls hcalls hpos
    obtain rfl : _ = calls := Except.ok.inj ((calls_eq hshape).symm.trans hcalls)
    have hchild : ∀ i < s.iterCount, i < capacityOf field numWires ∧
        if numWires = 0 then 0 < s.numOutWiresFor field + s.numEnvFor field
        else numWires < 2 ^ 48 ∧ s.numEnvWiresFor field = s.numEnvFor field := by
      intro i hi
      obtain ⟨call, hcall, hrun⟩ := hruns i hi
      rw [List.getElem?_map, List.getElem?_range hi, Option.map_some] at hcall
      obtain rfl := Option.some.inj hcall
      exact (childWireMap_iff hi field hshape).1 (hrun field) numWires hcounter
    exact .inr ⟨hshape _ hcounter, fun i hi => (hchild i hi).1, (hchild 0 hpos).2⟩
  · intro h
    refine ⟨?_, fun g hg wire => ?_⟩
    · rcases Nat.eq_zero_or_pos s.iterCount with hzero | hpos
      · refine ⟨[], ?_, fun i hi => by omega⟩
        unfold Signature.calls callMap
        change (List.range s.iterCount).mapM _ = _
        rw [hzero]
        rfl
      have hfits : ∀ field numWires, s.counter = some (field, numWires) → _ :=
        fun field numWires hcounter => (h field numWires hcounter).resolve_left hpos.ne'
      have hshape : ∀ c ∈ s.counter, c.1 = .f2 ∨ c.2 = 1 := fun c hc => (hfits c.1 c.2 hc).1
      refine ⟨_, calls_eq hshape, fun i hi => ⟨s.call i, ?_, fun field => ?_⟩⟩
      · rw [List.getElem?_map, List.getElem?_range hi]
        rfl
      · rw [childWireMap_iff hi field hshape]
        intro numWires hcounter
        obtain ⟨-, hheld, hplace⟩ := hfits field numWires hcounter
        exact ⟨hheld i hi, hplace⟩
    · rcases List.mem_append.1 hg with hmem | hmem
      · exact has_iff_window (s.outs_len g hmem) wire
      · exact has_iff_window (s.its_len g hmem) wire

/-- One iteration of a closure with one output, two environment wires in one group and one counter
wire. -/
def wideSignature : Signature where
  outs := [⟨.f2, 1, ⟨0, 0⟩⟩]
  env := [⟨.f2, 2, ⟨1, 2⟩⟩]
  counter := some (.f2, 1)
  its := []
  iterCount := 1
  outs_len := by decide
  env_len := by decide
  its_len := nofun

def wideCall : IteratedCall where
  toSignature := wideSignature
  caller _ _ := [⟨1, [.owned (some 0), .owned (some 0)]⟩]
  lends i hi field := by
    obtain rfl : i = 0 := Nat.lt_one_iff.1 hi
    cases field with
    | f2 =>
      refine ⟨[⟨1, [.owned (some 0), .owned (some 0)]⟩, ⟨0, [.owned none]⟩], rfl, ?_⟩
      refine ⟨fun r hr _ => ?_, fun r hr _ => ?_, List.pairwise_singleton _ _, fun r hr r' hr' => ?_⟩
      · obtain rfl := List.mem_singleton.1 hr
        exact ⟨⟨0, [.owned none]⟩, ⟨rfl, by simp⟩, rfl⟩
      · obtain rfl := List.mem_singleton.1 hr
        exact ⟨⟨1, [.owned (some 0), .owned (some 0)]⟩, rfl, by simp⟩
      · obtain rfl := List.mem_singleton.1 hr
        obtain rfl := List.mem_singleton.1 hr'
        exact fun _ _ => rfl
    | f61p => exact ⟨_, rfl, nofun, nofun, .nil, nofun⟩
    | f128p => exact ⟨_, rfl, nofun, nofun, .nil, nofun⟩

theorem not_runsWindows_wideCall : ¬ wideCall.RunsWindows := by
  rintro ⟨⟨calls, hcalls, hruns⟩, -⟩
  have hshape : ∀ c ∈ wideCall.counter, c.1 = .f2 ∨ c.2 = 1 := fun c hc => by
    obtain rfl := Option.some.inj hc
    exact .inl rfl
  obtain rfl : _ = calls := Except.ok.inj ((calls_eq hshape).symm.trans hcalls)
  obtain ⟨call, hcall, hrun⟩ := hruns 0 Nat.zero_lt_one
  obtain rfl := Option.some.inj hcall
  obtain ⟨child, hchild, -⟩ := hrun .f2
  have herror : childWireMap (wideCall.call 0) .f2 (wideCall.caller 0 .f2) = .error .overlap := rfl
  cases herror.symm.trans hchild

end IteratedCall

end EdaBitGen.SieveCompiler
