import EdaBitGen.Data.Lists
import EdaBitGen.Data.Returns
import EdaBitGen.MacNCheese.Voles

/-!
# VOLEs are supplied once

No wire of a task output is in two of the slices that the supplier keeps, has returned or has
extended, and each source keeps what its next extension needs.
-/

namespace EdaBitGen.MacNCheese

open Occurrences

/-- A wire: its task, its type and its index. -/
abbrev WirePos : Type := ℕ × WireType × ℕ

def WireSlice.has (ws : WireSlice) (p : WirePos) : Bool :=
  ws.source = p.1 && ws.ty = p.2.1 && ws.rangeStart ≤ p.2.2 && p.2.2 < ws.rangeEnd

theorem WireSlice.has_iff {ws : WireSlice} {p : WirePos} : ws.has p = true ↔
    ws.source = p.1 ∧ ws.ty = p.2.1 ∧ ws.rangeStart ≤ p.2.2 ∧ p.2.2 < ws.rangeEnd := by
  simp [WireSlice.has, and_assoc]

/-- How many slices have a wire. -/
abbrev holders (l : List WireSlice) (p : WirePos) : ℕ := mult WireSlice.has l p

abbrev holds (ws : WireSlice) (p : WirePos) : ℕ := indicator WireSlice.has ws p

/-- The outputs and the inputs of the tasks. -/
def WipTasks.view (tasks : WipTasks) : List (List Shape × List WireSlice) :=
  tasks.map fun t => (t.proto.outputs, t.singleArrayInputs)

/-- One for the wires that the tasks output. -/
def capacity (tasks : WipTasks) (p : WirePos) : ℕ :=
  if (tasks.view[p.1]?).any fun v => v.1.any fun shape => shape.ty = p.2.1 && p.2.2 < shape.count
  then 1 else 0

theorem capacity_le_one (tasks : WipTasks) (p : WirePos) : capacity tasks p ≤ 1 := by
  unfold capacity
  split <;> omega

/-- The errors of a builder that is full. -/
def Full (e : Panic) : Prop := e = .tooManyTasks ∨ e = .tooManyPrototypes

theorem require_pos {p : Prop} [Decidable p] (h : p) (e : Panic) : require p e = .ok () := if_pos h

/-! ## Instantiating -/

theorem view_of_instantiate {tasks tasks' : WipTasks} {proto : TaskPrototypeRef}
    {singles : List WireSlice} {multis : List (List WireSlice)} {out : TaskOutputRef}
    (h : instantiate tasks proto singles multis = .ok (out, tasks')) :
    tasks'.view = tasks.view ++ [(proto.outputs, singles)] ∧ out = ⟨tasks.length, proto.outputs⟩ := by
  obtain ⟨-, hout, old, hlen, rfl, hget⟩ := instantiate_spec h
  refine ⟨?_, hout⟩
  have hview : old.view = tasks.view := by
    refine List.ext_getElem? fun s => ?_
    unfold WipTasks.view
    rw [List.getElem?_map, List.getElem?_map, hget s, Option.map_map]
    rfl
  rw [WipTasks.view, List.map_append]
  exact congrArg (· ++ _) hview

theorem length_view (tasks : WipTasks) : tasks.view.length = tasks.length := List.length_map _

theorem capacity_of_view {tasks tasks' : WipTasks} {outputs : List Shape}
    {singles : List WireSlice} (h : tasks'.view = tasks.view ++ [(outputs, singles)])
    (p : WirePos) : capacity tasks' p = if p.1 = tasks.length then
      (if outputs.any fun shape => shape.ty = p.2.1 && p.2.2 < shape.count then 1 else 0)
      else capacity tasks p := by
  unfold capacity
  rw [h]
  rcases Nat.lt_trichotomy p.1 tasks.length with hp | hp | hp
  · rw [if_neg hp.ne, List.getElem?_append_left (by rwa [length_view])]
  · rw [if_pos hp, hp, ← length_view, List.getElem?_concat_length]
    rfl
  · rw [if_neg hp.ne', List.getElem?_eq_none (by simp [length_view]; omega),
      List.getElem?_eq_none (by rw [length_view]; omega)]

theorem capacity_of_le {tasks : WipTasks} {p : WirePos} (h : tasks.length ≤ p.1) :
    capacity tasks p = 0 := by
  unfold capacity
  rw [List.getElem?_eq_none (by rwa [length_view])]
  rfl

theorem addDependents_ok (taskId : ℕ) (deps : List ℕ) : ∀ tasks : WipTasks,
    (∀ dep ∈ deps, dep < tasks.length) → ∃ tasks', addDependents taskId deps tasks = .ok tasks' := by
  induction deps with
  | nil => exact fun tasks _ => ⟨tasks, rfl⟩
  | cons dep deps ih =>
    intro tasks h
    obtain ⟨hdep, hdeps⟩ := List.forall_mem_cons.1 h
    obtain ⟨tasks', htasks'⟩ := ih (tasks.modify dep (WipTask.addDependents [taskId]))
      (by rwa [List.length_modify])
    refine ⟨tasks', ?_⟩
    rw [addDependents, require, if_pos hdep]
    exact htasks'

/-- The prototype of an extension. -/
def extendProto (field : FieldMacType) : TaskPrototypeRef where
  kind := .voleExtension field
  singleArrayInputs := [⟨.randomMac field, field.baseVolesNeeded⟩]
  multiArrayInputs := []
  outputs := [⟨.randomMac field, field.volesOutputted⟩]

def baseProto (field : FieldMacType) : TaskPrototypeRef where
  kind := .baseSvole field
  singleArrayInputs := []
  multiArrayInputs := []
  outputs := [⟨.randomMac field, field.baseVolesNeeded⟩]

theorem baseVolesNeeded_eq (field : FieldMacType) : field.baseVolesNeeded = 65536 := by
  cases field <;> rfl

theorem volesOutputted_eq (field : FieldMacType) : field.volesOutputted = 285696 := by
  cases field <;> rfl

theorem instantiate_returns (tasks : WipTasks) {proto : TaskPrototypeRef}
    {singles : List WireSlice} (hsingles : proto.singleArrayInputs.length = singles.length)
    (hmultis : proto.multiArrayInputs = [])
    (hcheck : (singles.zip proto.singleArrayInputs).all fun p => checkSingle p.1 p.2)
    (hsources : ∀ ws ∈ singles, ws.source < tasks.length) :
    (instantiate tasks proto singles []).Returns Full fun r =>
      r.2.view = tasks.view ++ [(proto.outputs, singles)] ∧
        r.1 = ⟨tasks.length, proto.outputs⟩ := by
  have hdeps : ∀ dep ∈ inputSources singles [], dep < tasks.length := by
    intro dep hdep
    obtain ⟨ws, hws, rfl⟩ := List.mem_map.1 (by simpa [inputSources] using hdep)
    exact hsources ws hws
  obtain ⟨tasks', htasks'⟩ := addDependents_ok tasks.length _ tasks hdeps
  by_cases hfull : tasks.length < 2 ^ 32
  · have hok : instantiate tasks proto singles [] = .ok (⟨tasks.length, proto.outputs⟩,
        tasks' ++ [⟨proto, singles, [], [], inputSources singles []⟩]) := by
      unfold instantiate
      simp only [require, hsingles, hmultis, hcheck, hfull, htasks', List.length_nil, List.zip_nil_left,
        List.all_nil, if_true]
      rfl
    exact .of_eq hok (view_of_instantiate hok)
  · have herror : instantiate tasks proto singles [] = .error .tooManyTasks := by
      unfold instantiate
      simp only [require, hsingles, hmultis, hcheck, hfull, List.length_nil, List.zip_nil_left,
        List.all_nil, if_true, if_false]
      rfl
    rw [herror]
    exact .error (.inl rfl)

theorem slice_eq {ws : WireSlice} {first last : ℕ} {stop : Option ℕ}
    (hstop : stop.getD ws.len = last) (hle : first ≤ last) (hlast : ws.rangeStart + last ≤ ws.rangeEnd)
    (hend : ws.rangeEnd < 2 ^ 32) : ws.slice first stop = .ok
      { ws with rangeStart := ws.rangeStart + first, rangeEnd := ws.rangeStart + last } := by
  subst hstop
  have hbounds : ws.rangeStart + first < 2 ^ 32 ∧ ws.rangeStart + stop.getD ws.len < 2 ^ 32 := by
    omega
  have hinside : ws.rangeStart + first ≤ ws.rangeStart + stop.getD ws.len ∧
      ws.rangeStart ≤ ws.rangeStart + first ∧ ws.rangeStart + stop.getD ws.len ≤ ws.rangeEnd := by
    omega
  simp only [WireSlice.slice, require, if_pos hbounds, if_pos hinside]
  rfl

theorem slice_front {ws : WireSlice} {n : ℕ} (hend : ws.rangeEnd < 2 ^ 32)
    (hn : ws.rangeStart + n ≤ ws.rangeEnd) :
    ws.slice 0 (some n) = .ok { ws with rangeEnd := ws.rangeStart + n } :=
  slice_eq rfl (Nat.zero_le n) hn hend

theorem slice_back {ws : WireSlice} {n : ℕ} (hend : ws.rangeEnd < 2 ^ 32)
    (hn : ws.rangeStart + n ≤ ws.rangeEnd) :
    ws.slice n none = .ok { ws with rangeStart := ws.rangeStart + n } := by
  have hlen : ws.rangeStart + ws.len = ws.rangeEnd := by
    show ws.rangeStart + (ws.rangeEnd - ws.rangeStart) = ws.rangeEnd
    omega
  have hle : n ≤ ws.len := by
    show n ≤ ws.rangeEnd - ws.rangeStart
    omega
  have hslice := slice_eq (show (none : Option ℕ).getD ws.len = ws.len from rfl) hle hlen.le hend
  rw [hslice, hlen]

theorem holds_cut (ws : WireSlice) {n : ℕ} (hn : ws.rangeStart + n ≤ ws.rangeEnd) (p : WirePos) :
    holds { ws with rangeEnd := ws.rangeStart + n } p +
      holds { ws with rangeStart := ws.rangeStart + n } p = holds ws p := by
  unfold holds indicator
  simp only [WireSlice.has_iff]
  by_cases htask : ws.source = p.1 ∧ ws.ty = p.2.1
  · simp only [htask, true_and]
    split_ifs <;> omega
  · have hout : ∀ q : Prop, ¬ (ws.source = p.1 ∧ ws.ty = p.2.1 ∧ q) :=
      fun q h => htask ⟨h.1, h.2.1⟩
    rw [if_neg (hout _), if_neg (hout _), if_neg (hout _)]

theorem holds_empty {ws : WireSlice} (h : ws.rangeEnd ≤ ws.rangeStart) (p : WirePos) :
    holds ws p = 0 := by
  unfold holds indicator
  rw [if_neg]
  rw [WireSlice.has_iff]
  omega

namespace VoleSupplier

/-! ## The work on one field -/

/-- A source keeps what its extension needs. -/
structure IsSource (field : FieldMacType) (ws : WireSlice) : Prop where
  ty : ws.ty = .randomMac field
  keeps : ws.rangeStart + field.baseVolesNeeded ≤ ws.rangeEnd
  bound : ws.rangeEnd < 2 ^ 32

structure IsLeftover (field : FieldMacType) (ws : WireSlice) : Prop where
  ty : ws.ty = .randomMac field
  nonempty : ws.rangeStart < ws.rangeEnd
  bound : ws.rangeEnd < 2 ^ 32

/-- Sources, leftovers and what was returned, extended or is elsewhere share no wire. -/
structure Good (field : FieldMacType) (cb₀ : CircuitBuilder) (rest : WirePos → ℕ) (st : Stock)
    (out : List WireSlice) : Prop where
  fits : ∀ p, holders st.currentVoles p + holders st.leftovers p + holders out p +
    holders (newInputs cb₀ st.cb) p + rest p ≤ capacity st.cb.tasks p
  sources : ∀ ws ∈ st.currentVoles, IsSource field ws
  leftovers : ∀ ws ∈ st.leftovers, IsLeftover field ws
  index : st.voleIndex < st.currentVoles.length
  grown : cb₀.tasks.length ≤ st.cb.tasks.length

variable {field : FieldMacType} {cb₀ : CircuitBuilder} {rest : WirePos → ℕ} {st : Stock}
  {out : List WireSlice}

theorem newInputs_eq (before after : CircuitBuilder) :
    newInputs before after = (after.tasks.view.drop before.tasks.length).flatMap (·.2) := by
  unfold newInputs WipTasks.view
  rw [← List.map_drop, List.flatMap_map]

theorem newInputs_extend {before after after' : CircuitBuilder} {outputs : List Shape}
    {singles : List WireSlice} (hgrown : before.tasks.length ≤ after.tasks.length)
    (hview : after'.tasks.view = after.tasks.view ++ [(outputs, singles)]) :
    newInputs before after' = newInputs before after ++ singles := by
  rw [newInputs_eq, newInputs_eq, hview,
    List.drop_append_of_le_length (by rwa [length_view]), List.flatMap_append]
  simp

/-- The outputs of an extension. -/
def extended (field : FieldMacType) (taskId : ℕ) : WireSlice :=
  ⟨taskId, 0, field.volesOutputted, .randomMac field⟩

theorem isSource_extended (field : FieldMacType) (taskId : ℕ) :
    IsSource field (extended field taskId) where
  ty := rfl
  keeps := by
    show 0 + field.baseVolesNeeded ≤ field.volesOutputted
    rw [baseVolesNeeded_eq, volesOutputted_eq]
    omega
  bound := by
    show field.volesOutputted < _
    rw [volesOutputted_eq]
    omega

theorem capacity_add_le {tasks tasks' : WipTasks} {ws : WireSlice} {singles : List WireSlice}
    (hview : tasks'.view = tasks.view ++ [([⟨ws.ty, ws.rangeEnd⟩], singles)])
    (hsource : ws.source = tasks.length) (p : WirePos) :
    capacity tasks p + holds ws p ≤ capacity tasks' p := by
  rw [capacity_of_view hview]
  unfold holds indicator
  by_cases hp : p.1 = tasks.length
  · rw [if_pos hp, capacity_of_le hp.ge]
    by_cases hhas : ws.has p = true
    · obtain ⟨-, hty, -, hlt⟩ := WireSlice.has_iff.1 hhas
      rw [if_pos hhas, if_pos (by simp [hty, hlt])]
    · rw [if_neg hhas]
      exact Nat.zero_le _
  · rw [if_neg hp, if_neg]
    · exact le_rfl
    · intro hhas
      exact hp ((WireSlice.has_iff.1 hhas).1.symm.trans hsource)

theorem extend_returns {cb : CircuitBuilder} (ws : WireSlice) (hty : ws.ty = .randomMac field)
    (hlen : ws.rangeStart + field.baseVolesNeeded = ws.rangeEnd)
    (hsource : ws.source < cb.tasks.length) :
    (extend cb (extendProto field) field ws).Returns Full fun r =>
      r.1 = extended field cb.tasks.length ∧
        r.2.tasks.view = cb.tasks.view ++ [((extendProto field).outputs, [ws])] := by
  have hpos : 0 < field.baseVolesNeeded := by
    rw [baseVolesNeeded_eq]
    omega
  have hcheck : ([ws].zip (extendProto field).singleArrayInputs).all
      fun p => checkSingle p.1 p.2 := by
    simp only [extendProto, List.zip_cons_cons, List.zip_nil_left, List.all_cons, List.all_nil,
      checkSingle, Bool.and_true, Bool.and_eq_true, decide_eq_true_iff]
    exact ⟨⟨hty, by omega⟩, by omega⟩
  have hnew : (cb.instantiate (extendProto field) [ws] []).Returns Full fun r =>
      r.2.tasks.view = cb.tasks.view ++ [((extendProto field).outputs, [ws])] ∧
        r.1 = ⟨cb.tasks.length, (extendProto field).outputs⟩ :=
    (instantiate_returns cb.tasks rfl rfl hcheck (by simpa using hsource)).bind fun _ hr => .ok hr
  refine hnew.bind fun r hr => ?_
  obtain ⟨hview, hout⟩ := hr
  obtain ⟨out, cb'⟩ := r
  obtain rfl : out = _ := hout
  have hwires : TaskOutputRef.wires ⟨cb.tasks.length, (extendProto field).outputs⟩
      (.randomMac field) = .ok (extended field cb.tasks.length) := by
    simp [TaskOutputRef.wires, extendProto, extended]
  exact .step hwires (.ok ⟨rfl, hview⟩)

theorem Good.source_lt (h : Good field cb₀ rest st out) {ws : WireSlice}
    (hws : ws ∈ st.currentVoles) : ws.source < st.cb.tasks.length := by
  have hsource := h.sources ws hws
  have hkeeps := hsource.keeps
  rw [baseVolesNeeded_eq] at hkeeps
  by_contra hge
  have hfits := h.fits (ws.source, ws.ty, ws.rangeStart)
  rw [capacity_of_le (Nat.le_of_not_lt hge)] at hfits
  have hone : holds ws (ws.source, ws.ty, ws.rangeStart) ≤
      holders st.currentVoles (ws.source, ws.ty, ws.rangeStart) := indicator_le_mult _ hws _
  have hhas : holds ws (ws.source, ws.ty, ws.rangeStart) = 1 :=
    if_pos (WireSlice.has_iff.2 ⟨rfl, rfl, le_rfl, by show ws.rangeStart < _; omega⟩)
  omega

theorem exists_getVole {voles : List WireSlice} {i : ℕ} (hi : i < voles.length) :
    ∃ ws, voles[i]? = some ws ∧ getVole voles i = .ok ws ∧ ws ∈ voles := by
  refine ⟨_, List.getElem?_eq_getElem hi, ?_, List.getElem_mem hi⟩
  unfold getVole
  rw [List.getElem?_eq_getElem hi]

theorem forall_mem_set {P : WireSlice → Prop} {l : List WireSlice} (h : ∀ ws ∈ l, P ws)
    {ws : WireSlice} (hws : P ws) (i : ℕ) : ∀ ws' ∈ l.set i ws, P ws' := by
  intro ws' hws'
  rcases List.mem_or_eq_of_mem_set hws' with hmem | rfl
  · exact h ws' hmem
  · exact hws

theorem Good.extend (h : Good field cb₀ rest st out) {i : ℕ} {ws input leftover : WireSlice}
    {leftovers : List WireSlice} (hget : st.currentVoles[i]? = some ws)
    (hcut : ∀ p, holds input p + holds leftover p = holds ws p)
    (hleftover : ∀ p, holders leftovers p = holders st.leftovers p + holds leftover p)
    (hleftovers : ∀ ws ∈ leftovers, IsLeftover field ws) {cb : CircuitBuilder}
    (hview : cb.tasks.view = st.cb.tasks.view ++ [((extendProto field).outputs, [input])])
    {voleIndex : ℕ} (hindex : voleIndex < st.currentVoles.length) :
    Good field cb₀ rest
      ⟨cb, st.currentVoles.set i (extended field st.cb.tasks.length), leftovers, voleIndex⟩
      out where
  fits p := by
    have hfits := h.fits p
    have hset : holders (st.currentVoles.set i (extended field st.cb.tasks.length)) p + holds ws p =
      holders st.currentVoles p + holds (extended field st.cb.tasks.length) p := mult_set _ hget _ p
    have hcap : capacity st.cb.tasks p + holds (extended field st.cb.tasks.length) p ≤
      capacity cb.tasks p := capacity_add_le hview rfl p
    have hcut := hcut p
    have hleft := hleftover p
    have hnew : holders (newInputs cb₀ cb) p = holders (newInputs cb₀ st.cb) p + holds input p := by
      rw [newInputs_extend h.grown hview, holders, mult_append, mult_cons, mult_nil, Nat.zero_add]
    show holders (st.currentVoles.set i _) p + holders leftovers p + holders out p +
      holders (newInputs cb₀ cb) p + rest p ≤ capacity cb.tasks p
    omega
  sources := forall_mem_set h.sources (isSource_extended _ _) i
  leftovers := hleftovers
  index := by
    rw [List.length_set]
    exact hindex
  grown := by
    have hlen := congrArg List.length hview
    rw [List.length_append, length_view, length_view, List.length_singleton] at hlen
    have := h.grown
    show cb₀.tasks.length ≤ cb.tasks.length
    omega

theorem Good.give (h : Good field cb₀ rest st out) {i n : ℕ} {ws : WireSlice}
    (hget : st.currentVoles[i]? = some ws)
    (hn : ws.rangeStart + n + field.baseVolesNeeded ≤ ws.rangeEnd) :
    Good field cb₀ rest
      { st with currentVoles := st.currentVoles.set i { ws with rangeStart := ws.rangeStart + n } }
      (out ++ [{ ws with rangeEnd := ws.rangeStart + n }]) where
  fits p := by
    have hfits := h.fits p
    have hset : holders (st.currentVoles.set i { ws with rangeStart := ws.rangeStart + n }) p +
      holds ws p = holders st.currentVoles p + holds { ws with rangeStart := ws.rangeStart + n } p :=
      mult_set _ hget _ p
    have hcut := holds_cut ws (n := n) (by omega) p
    have hout : holders (out ++ [{ ws with rangeEnd := ws.rangeStart + n }]) p =
        holders out p + holds { ws with rangeEnd := ws.rangeStart + n } p := by
      rw [holders, mult_append, mult_cons, mult_nil, Nat.zero_add]
    show holders (st.currentVoles.set i _) p + holders st.leftovers p + holders (out ++ [_]) p +
      holders (newInputs cb₀ st.cb) p + rest p ≤ capacity st.cb.tasks p
    omega
  sources := by
    have hsource := h.sources ws (List.mem_of_getElem? hget)
    have hkept : IsSource field { ws with rangeStart := ws.rangeStart + n } :=
      ⟨hsource.ty, hn, hsource.bound⟩
    exact forall_mem_set h.sources hkept i
  leftovers := h.leftovers
  index := by
    rw [List.length_set]
    exact h.index
  grown := h.grown

theorem Good.split (h : Good field cb₀ rest st out) {i : ℕ} {ws : WireSlice}
    (hget : st.currentVoles[i]? = some ws)
    (hn : ws.rangeStart + 2 * field.baseVolesNeeded ≤ ws.rangeEnd) {voleIndex : ℕ}
    (hindex : voleIndex < st.currentVoles.length + 1) :
    Good field cb₀ rest
      { st with
        currentVoles := st.currentVoles.set i
          { ws with rangeStart := ws.rangeStart + field.baseVolesNeeded } ++
            [{ ws with rangeEnd := ws.rangeStart + field.baseVolesNeeded }]
        voleIndex } out := by
  have hgive := h.give (n := field.baseVolesNeeded) hget (by omega)
  have hsource := h.sources ws (List.mem_of_getElem? hget)
  refine ⟨fun p => ?_, fun ws' hws' => ?_, hgive.leftovers, ?_, hgive.grown⟩
  · have hfits := hgive.fits p
    simp only [holders, mult_append, mult_cons, mult_nil, Nat.zero_add] at hfits ⊢
    omega
  · rcases List.mem_append.1 hws' with hmem | hmem
    · exact hgive.sources ws' hmem
    · obtain rfl := List.mem_singleton.1 hmem
      exact ⟨hsource.ty, le_rfl, by
        have := hsource.bound
        show ws.rangeStart + field.baseVolesNeeded < _
        omega⟩
  · rw [List.length_append, List.length_set]
    exact hindex

/-! ## The fan-out -/

/-- The sources that a round of the fan-out extends. -/
def shortSources (field : FieldMacType) (voles : List WireSlice) : ℕ :=
  voles.countP fun ws => ws.len < 2 * field.baseVolesNeeded

/-- A bound on the rounds that are left. -/
def roundsLeft (field : FieldMacType) (concurrency : ℕ) (voles : List WireSlice) : ℕ :=
  3 * (concurrency - voles.length) + shortSources field voles

theorem shortSources_set (field : FieldMacType) {voles : List WireSlice} {i : ℕ} {ws : WireSlice}
    (hget : voles[i]? = some ws) (ws' : WireSlice) :
    shortSources field (voles.set i ws') + (if ws.len < 2 * field.baseVolesNeeded then 1 else 0) =
      shortSources field voles + if ws'.len < 2 * field.baseVolesNeeded then 1 else 0 := by
  have hset := mult_set (fun (ws : WireSlice) (_ : Unit) => ws.len < 2 * field.baseVolesNeeded)
    hget ws' ()
  simp only [indicator, decide_eq_true_iff] at hset
  exact hset

theorem neededFor_extendProto (field : FieldMacType) :
    neededFor (extendProto field) = .ok field.baseVolesNeeded := rfl

theorem fanOutStep_returns {concurrency : ℕ} (h : Good field cb₀ rest st out)
    (hconcurrency : st.currentVoles.length < concurrency) :
    (fanOutStep (extendProto field) field field.baseVolesNeeded st).Returns Full fun st' =>
      Good field cb₀ rest st' out ∧
        roundsLeft field concurrency st'.currentVoles <
          roundsLeft field concurrency st.currentVoles := by
  obtain ⟨ws, hget, hvole, hmem⟩ := exists_getVole h.index
  have hsource := h.sources ws hmem
  have hkeeps := hsource.keeps
  have hlen : ws.len = ws.rangeEnd - ws.rangeStart := rfl
  have hi := h.index
  refine .step hvole ?_
  by_cases hlong : 2 * field.baseVolesNeeded ≤ ws.len
  · rw [if_pos hlong]
    refine .step (slice_front hsource.bound hkeeps) (.step (slice_back hsource.bound hkeeps)
      (.ok ⟨h.split hget (by omega) ?_, ?_⟩))
    · split <;> omega
    · -- Both halves may be short, but a source is no longer missing.
      have hset := shortSources_set field hget
        { ws with rangeStart := ws.rangeStart + field.baseVolesNeeded }
      rw [if_neg (by omega)] at hset
      unfold roundsLeft shortSources at *
      simp only [List.length_append, List.length_set, List.countP_append, List.length_singleton]
      have hnew : List.countP (fun ws => ws.len < 2 * field.baseVolesNeeded)
        [{ ws with rangeEnd := ws.rangeStart + field.baseVolesNeeded }] ≤ 1 := List.countP_le_length
      split at hset <;> omega
  · rw [if_neg hlong]
    refine .step (slice_back hsource.bound hkeeps) (.step (slice_front hsource.bound hkeeps) ?_)
    have hlt : ws.source < st.cb.tasks.length := h.source_lt hmem
    have hextend := extend_returns { ws with rangeEnd := ws.rangeStart + field.baseVolesNeeded }
      hsource.ty rfl hlt
    refine hextend.bind fun r hr => ?_
    obtain ⟨extendedVoles, cb⟩ := r
    obtain ⟨rfl, hview⟩ := hr
    refine .ok ⟨h.extend hget (holds_cut ws hkeeps) ?_ ?_ hview ?_, ?_⟩
    · intro p
      split
      · rw [holders, mult_append, mult_cons, mult_nil, Nat.zero_add]
      · rename_i hempty
        rw [holds_empty (Nat.le_of_sub_eq_zero (Nat.eq_zero_of_not_pos hempty)) p]
        rfl
    · intro ws' hws'
      split at hws'
      · rename_i hrest
        rcases List.mem_append.1 hws' with hmem' | hmem'
        · exact h.leftovers ws' hmem'
        · obtain rfl := List.mem_singleton.1 hmem'
          exact ⟨hsource.ty, Nat.lt_of_sub_pos hrest, hsource.bound⟩
      · exact h.leftovers ws' hws'
    · split <;> omega
    · have hset := shortSources_set field hget (extended field st.cb.tasks.length)
      have hextended : (extended field st.cb.tasks.length).len = field.volesOutputted := rfl
      rw [if_pos (by omega), if_neg (by
        rw [hextended, baseVolesNeeded_eq, volesOutputted_eq]; omega)] at hset
      show 3 * (concurrency - (st.currentVoles.set _ _).length) +
        shortSources field (st.currentVoles.set _ _) < roundsLeft field concurrency st.currentVoles
      rw [List.length_set, roundsLeft]
      omega

theorem fanOut_returns {concurrency : ℕ} : ∀ (fuel : ℕ) (st : Stock),
    Good field cb₀ rest st out → roundsLeft field concurrency st.currentVoles < fuel →
    (fanOut (extendProto field) field field.baseVolesNeeded concurrency fuel st).Returns Full
      fun st' => Good field cb₀ rest st' out
  | 0, _, _, hfuel => absurd hfuel (Nat.not_lt_zero _)
  | fuel + 1, st, h, hfuel => by
    unfold fanOut
    split
    · rename_i hconcurrency
      refine (fanOutStep_returns h hconcurrency).bind fun st' hst' => ?_
      exact fanOut_returns fuel st' hst'.1 (by omega)
    · exact .ok h

/-! ## Taking VOLEs -/

def slicesLength (slices : List WireSlice) : ℕ := (slices.map WireSlice.len).sum

@[simp] theorem slicesLength_append (slices slices' : List WireSlice) :
    slicesLength (slices ++ slices') = slicesLength slices + slicesLength slices' := by
  simp [slicesLength]

@[simp] theorem slicesLength_singleton (ws : WireSlice) : slicesLength [ws] = ws.len := by
  simp [slicesLength]

theorem len_front (ws : WireSlice) (n : ℕ) :
    WireSlice.len { ws with rangeEnd := ws.rangeStart + n } = n := Nat.add_sub_cancel_left ..

theorem Good.giveLeftover (h : Good field cb₀ rest st out) {ws : WireSlice} {n : ℕ}
    (hget : st.leftovers.getLast? = some ws) (hn : ws.rangeStart + n ≤ ws.rangeEnd) :
    Good field cb₀ rest
      { st with leftovers := st.leftovers.dropLast ++
          if 0 < WireSlice.len { ws with rangeStart := ws.rangeStart + n }
            then [{ ws with rangeStart := ws.rangeStart + n }] else [] }
      (out ++ [{ ws with rangeEnd := ws.rangeStart + n }]) where
  fits p := by
    have hfits := h.fits p
    have hdrop : holders st.leftovers.dropLast p + holds ws p = holders st.leftovers p :=
      mult_dropLast _ hget p
    have hcut := holds_cut ws hn p
    have hout : holders (out ++ [{ ws with rangeEnd := ws.rangeStart + n }]) p =
        holders out p + holds { ws with rangeEnd := ws.rangeStart + n } p := by
      rw [holders, mult_append, mult_cons, mult_nil, Nat.zero_add]
    have hkept : holders (st.leftovers.dropLast ++
        if 0 < WireSlice.len { ws with rangeStart := ws.rangeStart + n }
          then [{ ws with rangeStart := ws.rangeStart + n }] else []) p =
        holders st.leftovers.dropLast p + holds { ws with rangeStart := ws.rangeStart + n } p := by
      split
      · rw [holders, mult_append, mult_cons, mult_nil, Nat.zero_add]
      · rename_i hempty
        rw [holds_empty (Nat.le_of_sub_eq_zero (Nat.eq_zero_of_not_pos hempty)), List.append_nil,
          Nat.add_zero]
    show holders st.currentVoles p + holders (st.leftovers.dropLast ++ _) p + holders (out ++ [_]) p +
      holders (newInputs cb₀ st.cb) p + rest p ≤ capacity st.cb.tasks p
    omega
  sources := h.sources
  leftovers ws' hws' := by
    have hleftover := h.leftovers ws (List.mem_of_getLast? hget)
    rcases List.mem_append.1 hws' with hmem | hmem
    · exact h.leftovers ws' (List.dropLast_subset _ hmem)
    · split at hmem
      · rename_i hrest
        obtain rfl := List.mem_singleton.1 hmem
        exact ⟨hleftover.ty, Nat.lt_of_sub_pos hrest, hleftover.bound⟩
      · cases hmem
  index := h.index
  grown := h.grown

theorem takeLeftovers_returns : ∀ (fuel : ℕ) (leftovers : List WireSlice) (count : ℕ)
    (out : List WireSlice), Good field cb₀ rest { st with leftovers } out →
    leftovers.length + (if 0 < count then 1 else 0) < fuel →
    (takeLeftovers fuel leftovers count out).Returns Full fun r =>
      Good field cb₀ rest { st with leftovers := r.1 } r.2.2 ∧
        slicesLength r.2.2 + r.2.1 = slicesLength out + count
  | 0, _, _, _, _, hfuel => absurd hfuel (Nat.not_lt_zero _)
  | fuel + 1, leftovers, count, out, h, hfuel => by
    unfold takeLeftovers
    split
    · rename_i ws hget
      by_cases hcount : 0 < count
      · rw [if_pos hcount] at hfuel ⊢
        have hleftover := h.leftovers ws (List.mem_of_getLast? hget)
        have hlen : ws.len = ws.rangeEnd - ws.rangeStart := rfl
        have hnonempty := hleftover.nonempty
        have hn : ws.rangeStart + min ws.len count ≤ ws.rangeEnd := by omega
        refine .step (slice_front hleftover.bound hn) (.step (slice_back hleftover.bound hn) ?_)
        refine (takeLeftovers_returns fuel _ _ _ (h.giveLeftover hget hn) ?_).mono ?_
        · have hpos : 0 < leftovers.length :=
            List.length_pos_of_mem (List.mem_of_getLast? hget)
          have hrest : WireSlice.len { ws with rangeStart := ws.rangeStart + min ws.len count } =
            ws.rangeEnd - (ws.rangeStart + min ws.len count) := rfl
          show (leftovers.dropLast ++ _).length + _ < fuel
          rw [List.length_append, List.length_dropLast]
          -- A leftover that is not used up ends the count.
          split
          · rw [List.length_singleton, if_neg (by omega)]
            omega
          · rw [List.length_nil]
            split <;> omega
        · intro r hr
          refine ⟨hr.1, hr.2.trans ?_⟩
          rw [slicesLength_append, slicesLength_singleton, len_front]
          omega
      · rw [if_neg hcount]
        exact .ok ⟨h, rfl⟩
    · exact .ok ⟨h, rfl⟩

/-- The source in turn has nothing to give. -/
def usedUp (field : FieldMacType) (st : Stock) : ℕ :=
  if (st.currentVoles[st.voleIndex]?).any (·.len = field.baseVolesNeeded) then 1 else 0

theorem usedUp_le_one (field : FieldMacType) (st : Stock) : usedUp field st ≤ 1 := by
  unfold usedUp
  split <;> omega

theorem rotate_returns (h : Good field cb₀ rest st out) :
    (rotate (extendProto field) field field.baseVolesNeeded st).Returns Full fun st' =>
      Good field cb₀ rest st' out ∧ usedUp field st' = 0 := by
  have hindex : (if st.voleIndex + 1 = st.currentVoles.length then 0 else st.voleIndex + 1) <
      st.currentVoles.length := by
    have := h.index
    split <;> omega
  generalize hi : (if st.voleIndex + 1 = st.currentVoles.length then 0 else st.voleIndex + 1) = i
    at hindex
  obtain ⟨ws, hget, hvole, hmem⟩ := exists_getVole hindex
  have hsource := h.sources ws hmem
  have hkeeps := hsource.keeps
  have hlen : ws.len = ws.rangeEnd - ws.rangeStart := rfl
  unfold rotate
  rw [hi]
  refine .step hvole (.step (require_pos (by omega) _) ?_)
  by_cases hused : ws.len = field.baseVolesNeeded
  · rw [if_pos hused]
    refine (extend_returns ws hsource.ty (by omega) (h.source_lt hmem)).bind fun r hr => ?_
    obtain ⟨extendedVoles, cb⟩ := r
    obtain ⟨rfl, hview⟩ := hr
    have hempty : ∀ p, holds ⟨0, 0, 0, ws.ty⟩ p = 0 := fun p => holds_empty le_rfl p
    refine .ok ⟨h.extend hget (fun p => by rw [hempty, Nat.add_zero])
      (fun p => by rw [hempty, Nat.add_zero]) h.leftovers hview hindex, if_neg ?_⟩
    have hextended : (extended field st.cb.tasks.length).len = field.volesOutputted := rfl
    simp [hindex, hextended, baseVolesNeeded_eq, volesOutputted_eq]
  · rw [if_neg hused]
    refine .ok ⟨⟨h.fits, h.sources, h.leftovers, hindex, h.grown⟩, if_neg ?_⟩
    simp [hget, hused]

theorem takeCurrent_returns : ∀ (fuel : ℕ) (st : Stock) (count : ℕ) (out : List WireSlice),
    Good field cb₀ rest st out → 2 * count + usedUp field st < fuel →
    (takeCurrent (extendProto field) field field.baseVolesNeeded fuel st count out).Returns Full
      fun r => Good field cb₀ rest r.1 r.2 ∧ slicesLength r.2 = slicesLength out + count
  | 0, _, _, _, _, hfuel => absurd hfuel (Nat.not_lt_zero _)
  | fuel + 1, st, count, out, h, hfuel => by
    unfold takeCurrent
    by_cases hcount : 0 < count
    · rw [if_pos hcount]
      obtain ⟨ws, hget, hvole, hmem⟩ := exists_getVole h.index
      have hsource := h.sources ws hmem
      have hkeeps := hsource.keeps
      have hlen : ws.len = ws.rangeEnd - ws.rangeStart := rfl
      refine .step hvole ?_
      by_cases hused : ws.len = field.baseVolesNeeded
      · rw [if_pos hused]
        have husedUp : usedUp field st = 1 := if_pos (by simp [hget, hused])
        refine (rotate_returns h).bind fun st' hst' => ?_
        exact takeCurrent_returns fuel st' count out hst'.1 (by omega)
      · rw [if_neg hused]
        have hn : ws.rangeStart + min (ws.len - field.baseVolesNeeded) count +
          field.baseVolesNeeded ≤ ws.rangeEnd := by omega
        refine .step (slice_front hsource.bound (by omega))
          (.step (slice_back hsource.bound (by omega)) ?_)
        refine (takeCurrent_returns fuel _ _ _ (h.give hget hn) ?_).mono fun r hr => ?_
        · exact lt_of_le_of_lt (Nat.add_le_add_left (usedUp_le_one field _) _) (by omega)
        · refine ⟨hr.1, hr.2.trans ?_⟩
          rw [slicesLength_append, slicesLength_singleton, len_front]
          omega
    · rw [if_neg hcount]
      refine .ok ⟨h, ?_⟩
      show slicesLength out = slicesLength out + count
      omega

end VoleSupplier

end EdaBitGen.MacNCheese
