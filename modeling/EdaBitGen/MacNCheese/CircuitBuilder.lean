import Mathlib

/-!
# The circuit builder

Task prototypes are instantiated on slices of the outputs of earlier tasks.  Each task keeps the
sources of its inputs as dependencies, once for each input, and is added to the dependents of each.
-/

namespace EdaBitGen.MacNCheese

inductive FieldMacType
  | binaryF63b
  | f63b
  | f61p
  | f128p
deriving DecidableEq

inductive WireType
  | randomMac (field : FieldMacType)
  | mac (field : FieldMacType)
deriving DecidableEq

inductive TaskKind
  | constant (field : FieldMacType)
  | fix (field : FieldMacType)
  | copy (ty : WireType)
  | add (field : FieldMacType)
  | xor4 (field : FieldMacType)
  | linear (field : FieldMacType)
  | assertZero (field : FieldMacType)
  | assertMultiplication (field : FieldMacType)
  | baseSvole (field : FieldMacType)
  | voleExtension (field : FieldMacType)
deriving DecidableEq

inductive Panic
  | tooManyTasks
  | tooManyPrototypes
  | tooManyGraphDependents
  | assertion
deriving DecidableEq

def require (p : Prop) [Decidable p] (e : Panic) : Except Panic Unit :=
  if p then .ok () else .error e

structure Shape where
  ty : WireType
  count : ℕ
deriving DecidableEq

structure TaskPrototypeRef where
  kind : TaskKind
  singleArrayInputs : List Shape
  multiArrayInputs : List Shape
  outputs : List Shape
deriving DecidableEq

structure WireSlice where
  source : ℕ
  rangeStart : ℕ
  rangeEnd : ℕ
  ty : WireType
deriving DecidableEq

namespace WireSlice

def len (ws : WireSlice) : ℕ := ws.rangeEnd - ws.rangeStart

/-- The wires from `start` to before `stop`, or to the end. -/
def slice (ws : WireSlice) (start : ℕ) (stop : Option ℕ) : Except Panic WireSlice := do
  let rangeStart := ws.rangeStart + start
  let rangeEnd := ws.rangeStart + stop.getD ws.len
  require (rangeStart < 2 ^ 32 ∧ rangeEnd < 2 ^ 32) .assertion
  require (rangeStart ≤ rangeEnd ∧ ws.rangeStart ≤ rangeStart ∧ rangeEnd ≤ ws.rangeEnd) .assertion
  .ok { ws with rangeStart, rangeEnd }

end WireSlice

structure TaskOutputRef where
  taskId : ℕ
  outputs : List Shape

/-- All wires of a type that a task outputs. -/
def TaskOutputRef.wires (t : TaskOutputRef) (ty : WireType) : Except Panic WireSlice :=
  match t.outputs.find? (·.ty = ty) with
  | some shape => .ok ⟨t.taskId, 0, shape.count, ty⟩
  | none => .error .assertion

structure WipTask where
  proto : TaskPrototypeRef
  singleArrayInputs : List WireSlice
  multiArrayInputs : List (List WireSlice)
  inferredDependents : List ℕ
  dependencies : List ℕ

abbrev WipTasks : Type := List WipTask

def WipTask.addDependents (ids : List ℕ) (t : WipTask) : WipTask :=
  { t with inferredDependents := t.inferredDependents ++ ids }

def addDependents (taskId : ℕ) : List ℕ → WipTasks → Except Panic WipTasks
  | [], tasks => .ok tasks
  | dep :: deps, tasks => do
    require (dep < tasks.length) .assertion
    addDependents taskId deps (tasks.modify dep (WipTask.addDependents [taskId]))

def checkSingle (ws : WireSlice) (shape : Shape) : Bool :=
  ws.ty = shape.ty && ws.rangeStart < ws.rangeEnd && ws.rangeEnd - ws.rangeStart = shape.count

def checkMulti (wireSlices : List WireSlice) (shape : Shape) : Bool :=
  (wireSlices.all fun ws => ws.ty = shape.ty && ws.rangeStart < ws.rangeEnd) &&
    (wireSlices.map WireSlice.len).sum < 2 ^ 32 && (wireSlices.map WireSlice.len).sum = shape.count

def inputSources (singles : List WireSlice) (multis : List (List WireSlice)) : List ℕ :=
  singles.map (·.source) ++ multis.flatten.map (·.source)

def instantiate (tasks : WipTasks) (proto : TaskPrototypeRef) (singles : List WireSlice)
    (multis : List (List WireSlice)) : Except Panic (TaskOutputRef × WipTasks) := do
  require (proto.singleArrayInputs.length = singles.length) .assertion
  require (proto.multiArrayInputs.length = multis.length) .assertion
  require ((singles.zip proto.singleArrayInputs).all fun p => checkSingle p.1 p.2) .assertion
  require ((multis.zip proto.multiArrayInputs).all fun p => checkMulti p.1 p.2) .assertion
  let taskId := tasks.length
  require (taskId < 2 ^ 32) .tooManyTasks
  let dependencies := inputSources singles multis
  let tasks ← addDependents taskId dependencies tasks
  .ok (⟨taskId, proto.outputs⟩, tasks ++ [⟨proto, singles, multis, [], dependencies⟩])

/-! ## The manifest -/

structure ManifestTask where
  /-- The tasks of the inputs, in order. -/
  sources : List ℕ
  inferredDependents : List ℕ

structure Manifest where
  tasks : List ManifestTask
  initiallyReadyTasks : List ℕ
  dependentCounts : List ℕ
  dependencyCounts : List ℕ

def initiallyReady (tasks : WipTasks) : List ℕ :=
  (List.range tasks.length).reverse.filter fun i =>
    (tasks[i]?.map WipTask.dependencies).getD [] = []

def finish (tasks : WipTasks) : Except Panic Manifest := do
  let dependentCounts := tasks.map (·.inferredDependents.length)
  require (dependentCounts.all (· < 2 ^ 32)) .tooManyGraphDependents
  let dependencyCounts := tasks.map (·.dependencies.length)
  require (dependencyCounts.all (· < 2 ^ 32)) .tooManyGraphDependents
  .ok { tasks := tasks.map fun t =>
          ⟨inputSources t.singleArrayInputs t.multiArrayInputs,
            t.inferredDependents.mergeSort (· ≤ ·)⟩
        initiallyReadyTasks := initiallyReady tasks
        dependentCounts := dependentCounts
        dependencyCounts := dependencyCounts }

/-! ## Built task lists -/

/-- The task lists that instantiations make. -/
inductive Built : WipTasks → Prop
  | empty : Built []
  | instantiate {tasks tasks' : WipTasks} {proto : TaskPrototypeRef} {singles : List WireSlice}
      {multis : List (List WireSlice)} {out : TaskOutputRef} :
      Built tasks → MacNCheese.instantiate tasks proto singles multis = .ok (out, tasks') →
      Built tasks'

theorem require_ok {p : Prop} [Decidable p] {e : Panic} {u : Unit}
    (h : require p e = .ok u) : p := by
  unfold require at h
  split at h
  · assumption
  · cases h

theorem bind_eq_ok {α β : Type} {x : Except Panic α} {f : α → Except Panic β} {b : β}
    (h : x >>= f = .ok b) : ∃ a, x = .ok a ∧ f a = .ok b := by
  cases x with
  | error e => cases h
  | ok a => exact ⟨a, rfl, h⟩

theorem addDependents_spec {taskId : ℕ} : ∀ {deps : List ℕ} {tasks tasks' : WipTasks},
    addDependents taskId deps tasks = .ok tasks' →
      tasks'.length = tasks.length ∧ (∀ s ∈ deps, s < tasks.length) ∧
        ∀ s : ℕ, tasks'[s]? =
          tasks[s]?.map (WipTask.addDependents (List.replicate (deps.count s) taskId)) := by
  intro deps
  induction deps with
  | nil =>
    intro tasks tasks' h
    obtain rfl := Except.ok.inj h
    refine ⟨rfl, nofun, fun s => ?_⟩
    have hid : WipTask.addDependents [] = id := by
      funext t
      simp [WipTask.addDependents]
    simp [hid]
  | cons dep deps ih =>
    intro tasks tasks' h
    obtain ⟨u, hlt, h⟩ := bind_eq_ok h
    have hlt := require_ok hlt
    obtain ⟨hlen, hdeps, hget⟩ := ih h
    rw [List.length_modify] at hlen hdeps
    refine ⟨hlen, List.forall_mem_cons.2 ⟨hlt, hdeps⟩, fun s => ?_⟩
    rw [hget s, List.getElem?_modify, List.count_cons]
    rcases eq_or_ne dep s with rfl | hne
    · cases tasks[dep]? with
      | none => rfl
      | some t =>
        simp [WipTask.addDependents, List.replicate_succ]
    · cases tasks[s]? with
      | none => rfl
      | some t => simp [hne]

theorem instantiate_spec {tasks tasks' : WipTasks} {proto : TaskPrototypeRef}
    {singles : List WireSlice} {multis : List (List WireSlice)} {out : TaskOutputRef}
    (h : instantiate tasks proto singles multis = .ok (out, tasks')) :
    (∀ s ∈ inputSources singles multis, s < tasks.length) ∧ out = ⟨tasks.length, proto.outputs⟩ ∧
      ∃ old : WipTasks, old.length = tasks.length ∧
        tasks' = old ++ [⟨proto, singles, multis, [], inputSources singles multis⟩] ∧
        ∀ s : ℕ, old[s]? = tasks[s]?.map (WipTask.addDependents
          (List.replicate ((inputSources singles multis).count s) tasks.length)) := by
  unfold instantiate at h
  obtain ⟨_, -, h⟩ := bind_eq_ok h
  obtain ⟨_, -, h⟩ := bind_eq_ok h
  obtain ⟨_, -, h⟩ := bind_eq_ok h
  obtain ⟨_, -, h⟩ := bind_eq_ok h
  obtain ⟨_, -, h⟩ := bind_eq_ok h
  obtain ⟨old, hold, h⟩ := bind_eq_ok h
  obtain ⟨hlen, hdeps, hget⟩ := addDependents_spec hold
  obtain ⟨rfl, rfl⟩ := Prod.mk.inj (Except.ok.inj h)
  exact ⟨hdeps, rfl, old, hlen, rfl, hget⟩

namespace WipTasks

def sources (tasks : WipTasks) (d : ℕ) : List ℕ :=
  (tasks[d]?.map WipTask.dependencies).getD []

def dependents (tasks : WipTasks) (s : ℕ) : List ℕ :=
  (tasks[s]?.map WipTask.inferredDependents).getD []

/-- A task has earlier sources, and is a dependent of each as often as it uses it. -/
structure Linked (tasks : WipTasks) : Prop where
  sources_lt : ∀ d, ∀ s ∈ tasks.sources d, s < d
  count : ∀ s d, (tasks.dependents s).count d = (tasks.sources d).count s
  inputs : ∀ t ∈ tasks, t.dependencies = inputSources t.singleArrayInputs t.multiArrayInputs

variable {tasks : WipTasks}

theorem sources_of_le {d : ℕ} (h : tasks.length ≤ d) : tasks.sources d = [] := by
  unfold sources
  rw [List.getElem?_eq_none h]
  rfl

theorem dependents_of_le {s : ℕ} (h : tasks.length ≤ s) : tasks.dependents s = [] := by
  unfold dependents
  rw [List.getElem?_eq_none h]
  rfl

theorem linked_nil : Linked [] where
  sources_lt _ _ hs := nomatch hs
  count _ _ := rfl
  inputs _ h := nomatch h

theorem Linked.instantiate (h : tasks.Linked) {tasks' : WipTasks} {proto : TaskPrototypeRef}
    {singles : List WireSlice} {multis : List (List WireSlice)} {out : TaskOutputRef}
    (hnew : MacNCheese.instantiate tasks proto singles multis = .ok (out, tasks')) :
    tasks'.Linked := by
  obtain ⟨hdeps, -, old, hlen, rfl, hget⟩ := instantiate_spec hnew
  have hsources : ∀ d, sources (old ++ [⟨proto, singles, multis, [], inputSources singles multis⟩]) d =
      if d = tasks.length then inputSources singles multis else tasks.sources d := by
    intro d
    unfold sources
    rcases Nat.lt_trichotomy d tasks.length with hd | rfl | hd
    · rw [if_neg hd.ne, List.getElem?_append_left (hlen ▸ hd), hget d, Option.map_map]
      rfl
    · rw [if_pos rfl, ← hlen, List.getElem?_concat_length]
      rfl
    · rw [if_neg hd.ne', List.getElem?_eq_none (by simp; omega), List.getElem?_eq_none hd.le]
  have hdependents : ∀ s, dependents
      (old ++ [⟨proto, singles, multis, [], inputSources singles multis⟩]) s = tasks.dependents s ++
        List.replicate ((inputSources singles multis).count s) tasks.length := by
    intro s
    rcases Nat.lt_or_ge s tasks.length with hs | hs
    · unfold dependents
      rw [List.getElem?_append_left (hlen ▸ hs), hget s, List.getElem?_eq_getElem hs]
      rfl
    · rw [dependents_of_le hs, List.count_eq_zero.2 fun hmem => absurd (hdeps s hmem) hs.not_gt]
      unfold dependents
      rcases hs.eq_or_lt with rfl | hs
      · rw [← hlen, List.getElem?_concat_length]
        rfl
      · rw [List.getElem?_eq_none (by simp; omega)]
        rfl
  constructor
  case sources_lt =>
    intro d s hs
    rw [hsources] at hs
    split at hs
    · rename_i hd
      exact hd ▸ hdeps s hs
    · exact h.sources_lt d s hs
  case count =>
    intro s d
    rw [hsources, hdependents, List.count_append, h.count, List.count_replicate]
    rcases eq_or_ne d tasks.length with rfl | hd
    · rw [if_pos rfl, sources_of_le le_rfl]
      simp
    · rw [if_neg hd]
      simp [hd.symm]
  case inputs =>
    intro t ht
    rcases List.mem_append.1 ht with ht | ht
    · obtain ⟨s, hs⟩ := List.mem_iff_getElem?.1 ht
      rw [hget s] at hs
      obtain ⟨t', ht', rfl⟩ := Option.map_eq_some_iff.1 hs
      exact h.inputs t' (List.mem_of_getElem? ht')
    · obtain rfl := List.mem_singleton.1 ht
      rfl

theorem linked_of_built (h : Built tasks) : tasks.Linked := by
  induction h with
  | empty => exact linked_nil
  | instantiate _ hnew ih => exact ih.instantiate hnew

end WipTasks

end EdaBitGen.MacNCheese
