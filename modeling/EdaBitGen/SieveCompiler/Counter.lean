import EdaBitGen.SieveCompiler.ChildMap

/-!
# The signature of an iterated call

The reader's function calls, from the groups of wires that the closure declares.
-/

namespace EdaBitGen.SieveCompiler

/-- Wires of a field, with the range that a call gives for them. -/
structure Group where
  field : FieldType
  size : ℕ
  range : WireRange

namespace Group

def sized (g : Group) : FieldType × ℕ := (g.field, g.size)

/-- The wires of the `i`-th window. -/
def wires (g : Group) (i : ℕ) : List ℕ := (List.range g.size).map (g.range.start + i * g.size + ·)

end Group

/-- The groups of a closure and a call with ranges of the declared sizes. -/
structure Signature where
  outs : List Group
  env : List Group
  counter : Option (FieldType × ℕ)
  its : List Group
  iterCount : ℕ
  outs_len : ∀ g ∈ outs, g.range.len = g.size * iterCount
  env_len : ∀ g ∈ env, g.range.len = g.size
  its_len : ∀ g ∈ its, g.range.len = g.size * iterCount

/-! ## Windows -/

theorem has_iff_of_len {r : WireRange} {n wire : ℕ} (h : r.len = n) :
    r.Has wire ↔ r.start ≤ wire ∧ wire < r.start + n := by
  unfold WireRange.len at h
  unfold WireRange.Has
  split at h <;> omega

theorem window_start {r : WireRange} {size iterCount : ℕ} (hlen : r.len = size * iterCount)
    {i : ℕ} (hi : i < iterCount) : (window iterCount i r).start = r.start + i * size := by
  unfold window
  rw [hlen, Nat.mul_div_cancel _ (by omega)]

theorem window_len {r : WireRange} {size iterCount : ℕ} (hlen : r.len = size * iterCount)
    {i : ℕ} (hi : i < iterCount) : (window iterCount i r).len = size := by
  unfold window
  rw [hlen, Nat.mul_div_cancel _ (by omega)]
  obtain ⟨k, rfl⟩ := Nat.exists_eq_add_of_lt hi
  have hk : i + k + 1 - (i + 1) = k := by omega
  have hsplit : size * (i + k + 1) = i * size + k * size + size := by ring
  show WireRange.len ⟨r.start + i * size, r.inclusiveEnd - (i + k + 1 - (i + 1)) * size⟩ = size
  rw [hsplit] at hlen
  rw [hk]
  rcases Nat.eq_zero_or_pos size with rfl | hsize
  · simpa only [Nat.mul_zero, Nat.add_zero, Nat.sub_zero] using hlen
  generalize i * size = a at hlen ⊢
  generalize k * size = b at hlen ⊢
  unfold WireRange.len at hlen ⊢
  dsimp only
  split at hlen <;> split <;> omega

theorem wiresOf_window {g : Group} {iterCount : ℕ} (hlen : g.range.len = g.size * iterCount)
    {i : ℕ} (hi : i < iterCount) : WireMap.wiresOf (window iterCount i g.range) = g.wires i := by
  rw [WireMap.wiresOf, window_len hlen hi, window_start hlen hi]
  rfl

theorem has_iff_window {r : WireRange} {size iterCount : ℕ} (hlen : r.len = size * iterCount)
    (wire : ℕ) : r.Has wire ↔ ∃! i, i < iterCount ∧ (window iterCount i r).Has wire := by
  have hwindow : ∀ i < iterCount, (window iterCount i r).Has wire ↔
      r.start + i * size ≤ wire ∧ wire < r.start + i * size + size := by
    intro i hi
    rw [has_iff_of_len (window_len hlen hi), window_start hlen hi]
  rw [has_iff_of_len hlen]
  constructor
  · rintro ⟨hstart, hend⟩
    have hsize : 0 < size := by
      rcases Nat.eq_zero_or_pos size with rfl | hpos
      · omega
      · exact hpos
    have hi : (wire - r.start) / size < iterCount := by
      rw [Nat.div_lt_iff_lt_mul hsize, Nat.mul_comm]
      omega
    have hdiv := Nat.div_add_mod (wire - r.start) size
    have hmod := Nat.mod_lt (wire - r.start) hsize
    rw [Nat.mul_comm] at hdiv
    refine ⟨(wire - r.start) / size, ⟨hi, (hwindow _ hi).2 (by omega)⟩, ?_⟩
    rintro j ⟨hj, hhas⟩
    obtain ⟨hle, hlt⟩ := (hwindow j hj).1 hhas
    symm
    rw [Nat.div_eq_iff hsize]
    rw [Nat.mul_comm] at hle hlt
    constructor <;> rw [Nat.mul_comm] <;> omega
  · rintro ⟨i, ⟨hi, hhas⟩, -⟩
    obtain ⟨hle, hlt⟩ := (hwindow i hi).1 hhas
    have hmul : (i + 1) * size ≤ iterCount * size := Nat.mul_le_mul_right _ hi
    rw [Nat.add_mul, Nat.one_mul, Nat.mul_comm iterCount] at hmul
    omega

/-! ## The function calls -/

theorem makeRanges_eq {α : Type} (l : List α) (size : α → FieldType × ℕ) (f : α → WireRange)
    (h : ∀ a ∈ l, (f a).len = (size a).2) : makeRanges (l.map size) (l.map f) =
      .ok fun field => (l.filter fun a => (size a).1 = field).map f := by
  have hlen : (l.map f).length = (l.map size).length := by
    rw [List.length_map, List.length_map]
  have hsize : (((l.map size).zip (l.map f)).all fun p => p.1.2 = p.2.len) = true := by
    rw [List.zip_map', List.all_map, List.all_eq_true]
    intro a ha
    exact decide_eq_true (h a ha).symm
  simp only [makeRanges, require, if_pos hlen, if_pos hsize]
  simp only [List.zip_map', List.filter_map, List.map_map]
  rfl

theorem filter_zipIdx_eq {α : Type} (l l' : List α) (a : α) :
    (((l ++ a :: l').zipIdx.filter fun p => p.2 ≠ l.length).map (·.1)) = l ++ l' := by
  rw [List.zipIdx_append, List.filter_append, List.map_append, List.zipIdx_cons, List.filter_cons]
  have hkeep : (l.zipIdx.filter fun p => p.2 ≠ l.length) = l.zipIdx := by
    rw [List.filter_eq_self]
    intro p hp
    have := List.snd_lt_of_mem_zipIdx hp
    exact decide_eq_true (by omega)
  have hkeep' : ((l'.zipIdx (0 + l.length + 1)).filter fun p => p.2 ≠ l.length) =
      l'.zipIdx (0 + l.length + 1) := by
    rw [List.filter_eq_self]
    intro p hp
    have := List.le_snd_of_mem_zipIdx hp
    exact decide_eq_true (by omega)
  rw [hkeep, hkeep', if_neg (by simp), List.zipIdx_map_fst, List.zipIdx_map_fst]

theorem mapIdx_append_eq {α : Type} (l l' : List α) (f : α → α) :
    ((l ++ l').mapIdx fun j a => if j < l.length then a else f a) = l ++ l'.map f := by
  refine List.ext_getElem? fun j => ?_
  rw [List.getElem?_mapIdx, List.getElem?_append, List.getElem?_append]
  by_cases hj : j < l.length
  · simp [hj]
  · simp [hj]

namespace Signature

variable (s : Signature)

def func : FunctionDefinition where
  inputSizes := s.env.map Group.sized ++ s.counter.toList ++ s.its.map Group.sized
  outputSizes := s.outs.map Group.sized

def mapDefinition : MapDefinition := ⟨s.func, s.env.length, s.iterCount, s.counter.isSome⟩

/-- The calls that the reader makes. -/
def calls : Except Error (List FunctionCall) :=
  callMap s.mapDefinition (s.outs.map (·.range)) (s.env.map (·.range) ++ s.its.map (·.range))

def outRanges (i : ℕ) (field : FieldType) : List WireRange :=
  (s.outs.filter fun g => g.field = field).map fun g => window s.iterCount i g.range

def envRanges (field : FieldType) : List WireRange :=
  (s.env.filter fun g => g.field = field).map (·.range)

def itRanges (i : ℕ) (field : FieldType) : List WireRange :=
  (s.its.filter fun g => g.field = field).map fun g => window s.iterCount i g.range

/-- The environment groups of a field. -/
def numEnvFor (field : FieldType) : ℕ := (s.env.filter fun g => g.field = field).length

def info (i : ℕ) : Option CounterInfo :=
  s.counter.map fun c => ⟨s.numEnvFor c.1, c.1, c.2, i⟩

def call (i : ℕ) : FunctionCall :=
  ⟨s.outRanges i, fun field => s.envRanges field ++ s.itRanges i field, s.info i⟩

theorem inSizes_eq : (s.func.inputSizes.zipIdx.filter fun p =>
    !s.mapDefinition.enumerated || p.2 ≠ s.mapDefinition.numEnv).map (·.1) =
      (s.env ++ s.its).map Group.sized := by
  unfold func mapDefinition
  cases s.counter with
  | none =>
    simp only [Option.isSome_none, Bool.not_false, Bool.true_or, List.filter_true,
      List.zipIdx_map_fst, Option.toList_none, List.append_nil, List.map_append]
  | some c =>
    simp only [Option.isSome_some, Bool.not_true, Bool.false_or, Option.toList_some,
      List.append_assoc, List.singleton_append, List.map_append]
    have := filter_zipIdx_eq (s.env.map Group.sized) (s.its.map Group.sized) c
    rw [List.length_map] at this
    exact this

theorem counterInfo_eq (i : ℕ) : counterInfo s.mapDefinition i =
    if ∀ c ∈ s.counter, c.1 = .f2 ∨ c.2 = 1 then .ok (s.info i) else .error .counterWires := by
  unfold counterInfo info mapDefinition
  cases hcounter : s.counter with
  | none => simp
  | some c =>
    have hget : s.func.inputSizes[s.env.length]? = some c := by
      rw [func, hcounter, Option.toList_some, List.append_assoc,
        List.getElem?_append_right (by rw [List.length_map]), List.length_map, Nat.sub_self]
      rfl
    have htake : s.func.inputSizes.take s.env.length = s.env.map Group.sized := by
      rw [func, List.append_assoc, List.take_left' (List.length_map _)]
    simp only [Option.isSome_some, if_true, hget, htake, require, Option.mem_def,
      Option.some.injEq, forall_eq']
    have hnum : ((s.env.map Group.sized).filter fun p => p.1 = c.1).length = s.numEnvFor c.1 := by
      rw [List.filter_map, List.length_map]
      rfl
    rw [hnum]
    split <;> rfl

theorem callIteration_eq {i : ℕ} (hi : i < s.iterCount) :
    callIteration s.mapDefinition (s.outs.map (·.range))
      (s.env.map (·.range) ++ s.its.map (·.range)) i =
        if ∀ c ∈ s.counter, c.1 = .f2 ∨ c.2 = 1 then .ok (s.call i) else .error .counterWires := by
  have houts : makeRanges s.func.outputSizes ((s.outs.map (·.range)).map (window s.iterCount i)) =
      .ok (s.outRanges i) := by
    rw [List.map_map]
    exact makeRanges_eq _ _ _ fun g hg => window_len (s.outs_len g hg) hi
  have hargs : (s.env.map (·.range) ++ s.its.map (·.range)).mapIdx
      (fun j wr => if j < s.env.length then wr else window s.iterCount i wr) =
        s.env.map (·.range) ++ s.its.map fun g => window s.iterCount i g.range := by
    have := mapIdx_append_eq (s.env.map (·.range)) (s.its.map (·.range)) (window s.iterCount i)
    rw [List.length_map, List.map_map] at this
    exact this
  have hins : makeRanges ((s.env ++ s.its).map Group.sized)
      (s.env.map (·.range) ++ s.its.map fun g => window s.iterCount i g.range) =
        .ok fun field => s.envRanges field ++ s.itRanges i field := by
    -- Each group with its range in this iteration.
    have hranges := makeRanges_eq (s.env.map (fun g => (g, g.range)) ++
      s.its.map fun g => (g, window s.iterCount i g.range)) (fun p => p.1.sized) Prod.snd ?_
    · simp only [List.map_append, List.map_map, List.filter_append, List.filter_map] at hranges
      rw [List.map_append]
      exact hranges
    · intro p hp
      rcases List.mem_append.1 hp with hmem | hmem
      · obtain ⟨g, hg, rfl⟩ := List.mem_map.1 hmem
        exact s.env_len g hg
      · obtain ⟨g, hg, rfl⟩ := List.mem_map.1 hmem
        exact window_len (s.its_len g hg) hi
  have hsizes := s.inSizes_eq
  unfold mapDefinition at hsizes
  simp only [callIteration, s.counterInfo_eq i]
  unfold mapDefinition
  simp only [hargs, hsizes, houts, hins]
  split <;> rfl

end Signature

end EdaBitGen.SieveCompiler

/-!
# The counter's wires

The counter's place is right when the environment of its field has as many wires as groups.
-/

namespace EdaBitGen.SieveCompiler

namespace WireMap

variable {V : Type}

theorem allocFromAllocation_ok {m m' : WireMap V} {start : ℕ} {cells : List (Cell V)}
    (h : m.allocFromAllocation start cells = .ok m') :
    cells.length < 2 ^ 48 ∧ m' = m ++ [⟨start, cells⟩] ∧
      ∀ a ∈ m, a.cells.length = 0 ∨ start + cells.length ≤ a.start ∨ a.stop ≤ start := by
  by_cases hpos : cells.length ≠ 0
  · by_cases hlen : cells.length < 2 ^ 48
    · by_cases hall : (m.all fun a => a.cells.length = 0 || start + cells.length ≤ a.start ||
          a.stop ≤ start) = true
      · simp only [allocFromAllocation, require, if_pos hpos, if_pos hlen, if_pos hall] at h
        refine ⟨hlen, (Except.ok.inj h).symm, fun a ha => ?_⟩
        have hfree := List.all_eq_true.1 hall a ha
        simpa only [Bool.or_eq_true, decide_eq_true_iff, or_assoc] using hfree
      · simp only [allocFromAllocation, require, if_pos hpos, if_pos hlen, if_neg hall] at h
        cases h
    · simp only [allocFromAllocation, require, if_pos hpos, if_neg hlen] at h
      cases h
  · simp only [allocFromAllocation, require, if_neg hpos] at h
    cases h

theorem not_free_of_lookup {m : WireMap V} {wire len : ℕ} {cell : Cell V}
    (h : m.lookup wire = some cell) (hlen : 0 < len) :
    ¬ ∀ a ∈ m, a.cells.length = 0 ∨ wire + len ≤ a.start ∨ a.stop ≤ wire := by
  intro hfree
  cases hfind : m.allocationOf wire with
  | none => simp [lookup, hfind] at h
  | some a =>
    obtain ⟨ha, hstart, hstop⟩ := allocationOf_spec hfind
    have := hfree a ha
    unfold Allocation.stop at *
    omega

def valueCells (values : List V) : List (Cell V) := values.map fun v => .owned (some v)

@[simp] theorem length_valueCells (values : List V) : (valueCells values).length = values.length :=
  List.length_map _

theorem lookup_counter (outs env rest : List WireRange) (values : List V) (wire : ℕ) :
    lookup (borrowedMap outs env rest values.length ++
      [⟨(outs.map WireRange.len).sum + (env.map WireRange.len).sum, valueCells values⟩]) wire =
        (paramCells outs env (valueCells values) rest)[wire]? := by
  rw [lookup_append, lookup_borrowedMap, lookup_single, getElem?_paramCells, length_valueCells]
  have hlen : (outCells outs ++ inCells env : List (Cell V)).length =
      (outs.map WireRange.len).sum + (env.map WireRange.len).sum := by
    rw [List.length_append, length_outCells, length_inCells]
  by_cases hfirst : wire < (outs.map WireRange.len).sum + (env.map WireRange.len).sum
  · rw [if_pos hfirst, if_pos hfirst, if_neg (by omega), Option.or_none]
  · rw [if_neg hfirst, if_neg hfirst, if_pos (Nat.le_of_not_lt hfirst)]
    split
    · have hlast : (valueCells values)[wire -
          ((outs.map WireRange.len).sum + (env.map WireRange.len).sum)]? = none :=
        List.getElem?_eq_none (by rw [length_valueCells]; omega)
      rw [hlast, Option.or_none]
    · rw [Option.none_or]

theorem allocCounter_iff (outs env rest : List WireRange) (values : List V) (n : ℕ) :
    (∃ child, allocCounter (borrowedMap outs env rest values.length)
        ((outs.map WireRange.len).sum + n) values = .ok child ∧
          ∀ wire, child.lookup wire = (paramCells outs env (valueCells values) rest)[wire]?) ↔
      if values.length = 0 then 0 < (outs.map WireRange.len).sum + n
      else values.length < 2 ^ 48 ∧ (env.map WireRange.len).sum = n := by
  unfold allocCounter
  by_cases hempty : values.length = 0
  · rw [if_pos hempty, if_pos hempty]
    obtain rfl := List.eq_nil_of_length_eq_zero hempty
    by_cases hzero : (outs.map WireRange.len).sum + n ≠ 0
    · simp only [require, if_pos hzero]
      refine ⟨fun _ => Nat.pos_of_ne_zero hzero, fun _ => ⟨_, rfl, fun wire => ?_⟩⟩
      rw [← lookup_counter, lookup_append, lookup_single]
      simp
    · simp only [require, if_neg hzero]
      constructor
      · rintro ⟨child, hchild, -⟩
        cases hchild
      · omega
  · rw [if_neg hempty, if_neg hempty]
    show (∃ child, allocFromAllocation _ _ (valueCells values) = .ok child ∧ _) ↔ _
    constructor
    · rintro ⟨child, halloc, hlookup⟩
      obtain ⟨hlen, rfl, hfree⟩ := allocFromAllocation_ok halloc
      rw [length_valueCells] at hlen hfree
      refine ⟨hlen, ?_⟩
      rcases Nat.lt_trichotomy (env.map WireRange.len).sum n with hlt | heq | hgt
      · -- No cell is at the place where the counter should start.
        have hstart := hlookup ((outs.map WireRange.len).sum + (env.map WireRange.len).sum)
        rw [lookup_append, lookup_borrowedMap, lookup_single, getElem?_paramCells,
          length_valueCells, if_neg (by omega), if_neg (by omega), if_neg (by omega),
          if_neg (by omega), if_neg (by omega), Nat.sub_self,
          List.getElem?_eq_getElem (by rw [length_valueCells]; omega)] at hstart
        cases hstart
      · exact heq
      · -- The counter starts inside the environment.
        have hin : (outs.map WireRange.len).sum + n <
            (outCells outs ++ inCells env : List (Cell V)).length := by
          rw [List.length_append, length_outCells, length_inCells]
          omega
        have hcell : (borrowedMap outs env rest values.length : WireMap V).lookup
            ((outs.map WireRange.len).sum + n) =
              some (outCells outs ++ inCells env)[(outs.map WireRange.len).sum + n] := by
          rw [lookup_borrowedMap, if_pos (by omega), List.getElem?_eq_getElem hin]
        exact (not_free_of_lookup hcell (Nat.pos_of_ne_zero hempty) hfree).elim
    · rintro ⟨hlen, rfl⟩
      refine ⟨_, allocFromAllocation_eq (by rwa [length_valueCells])
        (by rwa [length_valueCells]) fun a ha => ?_, lookup_counter outs env rest values⟩
      rw [length_valueCells]
      unfold borrowedMap at ha
      rcases List.mem_append.1 ha with hmem | hmem
      · right
        rcases List.mem_append.1 hmem with hmem | hmem
        · have := below_blocks _ _ a hmem
          rw [← outCells, length_outCells] at this
          omega
        · have := below_blocks _ _ a hmem
          rwa [← inCells, length_inCells] at this
      · exact .inl (start_le_of_mem_blocks hmem)

end WireMap

/-! ## The child map -/

theorem placeOutputs_append (pos : ℕ) (ranges ranges' : List WireRange) :
    placeOutputs pos (ranges ++ ranges') =
      placeOutputs pos ranges ++ placeOutputs (pos + (ranges.map WireRange.len).sum) ranges' := by
  induction ranges generalizing pos with
  | nil => rfl
  | cons r ranges ih =>
    rw [List.cons_append, placeOutputs, placeOutputs, ih, List.map_cons, List.sum_cons,
      List.cons_append, Nat.add_assoc]

theorem placeInputs_none (i pos : ℕ) (ranges : List WireRange) :
    placeInputs none i pos ranges = placeOutputs pos ranges := by
  induction ranges generalizing i pos with
  | nil => rfl
  | cons r ranges ih => rw [placeInputs, placeOutputs, ih]

theorem placeInputs_of_lt {c : CounterInfo} {i : ℕ} (hi : c.numEnvForField < i) (pos : ℕ)
    (ranges : List WireRange) : placeInputs (some c) i pos ranges = placeOutputs pos ranges := by
  induction ranges generalizing i pos with
  | nil => rfl
  | cons r ranges ih =>
    rw [placeInputs, placeOutputs]
    rw [if_neg hi.ne', ih (hi.trans (Nat.lt_succ_self i))]

theorem placeInputs_some {c : CounterInfo} (env rest : List WireRange) (i pos : ℕ)
    (h : i + env.length = c.numEnvForField) : placeInputs (some c) i pos (env ++ rest) =
      placeOutputs pos env ++
        placeOutputs (pos + (env.map WireRange.len).sum + c.numWires) rest := by
  induction env generalizing i pos with
  | nil =>
    cases rest with
    | nil => rfl
    | cons r rest =>
      have hi : i = c.numEnvForField := h
      rw [List.nil_append, placeInputs]
      rw [if_pos hi, placeInputs_of_lt (by omega)]
      rfl
  | cons r env ih =>
    rw [List.length_cons] at h
    rw [List.cons_append, placeInputs]
    rw [if_neg (by omega), ih (i + 1) (pos + r.len) (by omega), placeOutputs, List.map_cons,
      List.sum_cons, List.cons_append, Nat.add_assoc pos]

theorem childWireMap_eq {call : FunctionCall} {field : FieldType}
    {caller parent : WireMap (ZMod field.modulus)} {outs env rest : List WireRange}
    (houts : call.outRanges field = outs) (hins : call.inRanges field = env ++ rest)
    (hcounter : ∀ c ∈ call.counterFor field, c.numEnvForField = env.length)
    (halloc : allocOutputs caller outs = .ok parent) (hlend : parent.Lendable outs (env ++ rest)) :
    childWireMap call field caller = match call.counterFor field with
      | some c => do
        let values ← counterValues field c
        allocCounter (WireMap.borrowedMap outs env rest c.numWires)
          ((outs.map WireRange.len).sum + env.length) values
      | none => .ok (WireMap.borrowedMap outs env rest 0) := by
  simp only [childWireMap, houts, hins, halloc]
  cases hc : call.counterFor field with
  | none =>
    have hborrow := WireMap.borrowChild_eq hlend 0
    rw [Nat.add_zero, ← placeOutputs_append] at hborrow
    rw [placeInputs_none]
    show (parent.borrowChild _ _ >>= _) = _
    rw [hborrow]
    rfl
  | some c =>
    have hn := hcounter c hc
    rw [placeInputs_some env rest 0 _ ((Nat.zero_add _).trans hn.symm)]
    show (parent.borrowChild _ _ >>= _) = _
    rw [WireMap.borrowChild_eq hlend c.numWires, ← hn]
    rfl

end EdaBitGen.SieveCompiler
