import EdaBitGen.MacNCheese.CircuitBuilder

/-!
# The runner

Runner threads take tasks from a queue and run them.  A thread that finishes a task stores its
output, gives notice to the dependents and launches those that have no dependency left.  The main
thread launches the tasks without dependencies and waits.  A step of a thread is one atomic
operation on the shared state; which threads step, which task leaves the queue and what a task
does are open.
-/

namespace EdaBitGen.MacNCheese

namespace Manifest

def sources (m : Manifest) (d : ℕ) : List ℕ := (m.tasks[d]?.map ManifestTask.sources).getD []

def dependents (m : Manifest) (s : ℕ) : List ℕ :=
  (m.tasks[s]?.map ManifestTask.inferredDependents).getD []

end Manifest

/-- What a thread does after a launch: a runner goes on with the dependents of a finished task, the
main thread with the tasks that are ready at the start. -/
inductive Rest
  | runner (t : ℕ) (ds : List ℕ)
  | main (ts : List ℕ)

/-- Where a thread is. -/
inductive Pc (Y : Type)
  | idle
  | stepTask (t : ℕ)
  | insertLoad (t : ℕ) (out : Y)
  | insertSwap (t : ℕ) (out : Y)
  | next (r : Rest)
  | takeLoad (d s : ℕ) (ss : List ℕ) (r : Rest)
  | takeSub (d s : ℕ) (out : Option Y) (ss : List ℕ) (r : Rest)
  | takeStore (d s : ℕ) (out : Option Y) (ss : List ℕ) (r : Rest)
  | setFlag
  | waiting

inductive Event (Y : Type)
  | launchTask (t : ℕ)
  | loaded (d s : ℕ) (y : Y)
  | taskFinished (t : ℕ) (y : Y)
  | limitedUseArcFreed (t : ℕ)

/-- What is open at a step. -/
inductive Choice (Y : Type)
  | dequeue (j : ℕ)
  | needsCommunication
  | finished (y : Y)

/-- The threads are the runners and the main thread. -/
abbrev Thread (k : ℕ) : Type := Option (Fin k)

structure RunnerState (k : ℕ) (Y : Type) where
  runQueue : List ℕ
  remainingDependencies : ℕ → ℕ
  remainingUses : ℕ → ℕ
  contents : ℕ → Option Y
  numTasksRemaining : ℕ
  noTasksRemain : Bool
  threads : Thread k → Pc Y
  /-- Newest first. -/
  events : List (Event Y)

inductive Outcome (σ : Type)
  | blocked
  | panicked
  | stepped (s : σ)

namespace RunnerState

variable {k : ℕ} {Y : Type}

def init (m : Manifest) : RunnerState k Y where
  runQueue := []
  remainingDependencies d := m.dependencyCounts[d]?.getD 0
  remainingUses s := m.dependentCounts[s]?.getD 0
  contents _ := none
  numTasksRemaining := m.tasks.length
  noTasksRemain := false
  threads i := if i = none then .next (.main m.initiallyReadyTasks) else .idle
  events := []

def goto (s : RunnerState k Y) (i : Thread k) (pc : Pc Y) : RunnerState k Y :=
  { s with threads := Function.update s.threads i pc }

def log (s : RunnerState k Y) (e : Event Y) : RunnerState k Y := { s with events := e :: s.events }

/-- The reactor answers each request through the queue. -/
def request (s : RunnerState k Y) (t : ℕ) : RunnerState k Y :=
  { s with runQueue := t :: s.runQueue }

/-- Take the next input of the task `d`, or request it when all are taken. -/
def takeInputs (s : RunnerState k Y) (i : Thread k) (d : ℕ) (ss : List ℕ) (r : Rest) :
    RunnerState k Y :=
  match ss with
  | [] => (s.request d).goto i (.next r)
  | src :: ss => s.goto i (.takeLoad d src ss r)

def launchTask (m : Manifest) (s : RunnerState k Y) (i : Thread k) (d : ℕ) (r : Rest) :
    RunnerState k Y :=
  (s.log (.launchTask d)).takeInputs i d (m.sources d) r

/-- The end of `take_one`: the output that was loaded is used. -/
def takeDone (s : RunnerState k Y) (i : Thread k) (d : ℕ) (out : Option Y) (ss : List ℕ)
    (r : Rest) : Outcome (RunnerState k Y) :=
  match out with
  | some _ => .stepped (s.takeInputs i d ss r)
  | none => .panicked

/-- One atomic step of a thread. -/
def step (m : Manifest) (s : RunnerState k Y) (i : Thread k) (c : Choice Y) :
    Outcome (RunnerState k Y) :=
  match s.threads i with
  | .idle =>
    match c with
    | .dequeue j =>
      match s.runQueue[j]? with
      | some t => .stepped ({ s with runQueue := s.runQueue.eraseIdx j }.goto i (.stepTask t))
      | none => .blocked
    | _ => .blocked
  | .stepTask t =>
    match c with
    | .needsCommunication => .stepped ((s.request t).goto i .idle)
    | .finished out => .stepped ((s.log (.taskFinished t out)).goto i (.insertLoad t out))
    | .dequeue _ => .blocked
  | .insertLoad t out =>
    -- Without dependents the output is not kept.
    if s.remainingUses t = 0 then .stepped (s.goto i (.next (.runner t (m.dependents t))))
    else .stepped (s.goto i (.insertSwap t out))
  | .insertSwap t out =>
    if s.contents t = none then
      .stepped ({ s with contents := Function.update s.contents t (some out) }.goto i
        (.next (.runner t (m.dependents t))))
    else .panicked
  | .next (.runner t (d :: ds)) =>
    match s.remainingDependencies d with
    | 0 => .panicked
    | rem + 1 =>
      let s := { s with remainingDependencies := Function.update s.remainingDependencies d rem }
      if rem = 0 then .stepped (s.launchTask m i d (.runner t ds))
      else .stepped (s.goto i (.next (.runner t ds)))
  | .next (.runner _ []) =>
    match s.numTasksRemaining with
    | 0 => .panicked
    | rem + 1 =>
      .stepped ({ s with numTasksRemaining := rem }.goto i (if rem = 0 then .setFlag else .idle))
  | .next (.main (t :: ts)) =>
    if t < m.tasks.length then .stepped (s.launchTask m i t (.main ts)) else .panicked
  | .next (.main []) => .stepped (s.goto i .waiting)
  | .takeLoad d src ss r =>
    match s.contents src with
    | some y => .stepped ((s.log (.loaded d src y)).goto i (.takeSub d src (some y) ss r))
    | none => .stepped (s.goto i (.takeSub d src none ss r))
  | .takeSub d src out ss r =>
    match s.remainingUses src with
    | 0 => .panicked
    | rem + 1 =>
      let s := { s with remainingUses := Function.update s.remainingUses src rem }
      if rem = 0 then .stepped (s.goto i (.takeStore d src out ss r))
      else s.takeDone i d out ss r
  | .takeStore d src out ss r =>
    ({ s with contents := Function.update s.contents src none }.log
      (.limitedUseArcFreed src)).takeDone i d out ss r
  | .setFlag => .stepped ({ s with noTasksRemain := true }.goto i .idle)
  | .waiting => .blocked

/-- The states of all runs. -/
inductive Reachable (m : Manifest) : RunnerState k Y → Prop
  | init : Reachable m (init m)
  | step {s s' : RunnerState k Y} (i : Thread k) (c : Choice Y) :
    Reachable m s → s.step m i c = .stepped s' → Reachable m s'

/-- No task remains to be run: none is queued, the runners are idle and the main thread waits. -/
def Quiescent (s : RunnerState k Y) : Prop :=
  s.runQueue = [] ∧ s.threads none = .waiting ∧ ∀ i, s.threads (some i) = .idle

/-- How often a task has loaded the output of another. -/
def loads (events : List (Event Y)) (d s : ℕ) : ℕ :=
  events.countP fun
    | .loaded d' s' _ => d' = d ∧ s' = s
    | _ => false

/-- Whether an event may follow others. -/
def Allowed (m : Manifest) (past : List (Event Y)) : Event Y → Prop
  | .launchTask d => .launchTask d ∉ past ∧ ∀ s ∈ m.sources d, ∃ y, .taskFinished s y ∈ past
  | .loaded d s y => .launchTask d ∈ past ∧ .taskFinished s y ∈ past
  | .taskFinished t _ => .launchTask t ∈ past ∧ ∀ y, .taskFinished t y ∉ past
  | .limitedUseArcFreed s => ∀ d, loads past d s = (m.sources d).count s

def Justified (m : Manifest) : List (Event Y) → Prop
  | [] => True
  | e :: past => Allowed m past e ∧ Justified m past

end RunnerState

end EdaBitGen.MacNCheese

/-!
# The stages of the tasks

Each task of a run goes through stages, some of which a thread owns.  The counters of the runner
count what the stages leave to do: notices to dependents, outputs to take, tasks to end.
-/

namespace EdaBitGen.MacNCheese

theorem eq_zero_of_count {a b : List ℕ} {r : ℕ → ℕ} (h : ∀ x, a.count x + r x = b.count x)
    (hlen : b.length ≤ a.length) (x : ℕ) : r x = 0 := by
  have hsub : a.Subperm b := List.subperm_ext_iff.2 fun x _ => Nat.le.intro (h x)
  have hperm := hsub.perm_of_length_le hlen
  have := h x
  have := hperm.count_eq x
  omega

/-- The counts of a manifest are those of its tasks. -/
structure Manifest.WellFormed (m : Manifest) : Prop where
  sources_lt : ∀ d, ∀ s ∈ m.sources d, s < d
  sources_of_le : ∀ d, m.tasks.length ≤ d → m.sources d = []
  count : ∀ s d, (m.dependents s).count d = (m.sources d).count s
  dependencyCounts : ∀ d, m.dependencyCounts[d]?.getD 0 = (m.sources d).length
  dependentCounts : ∀ s, m.dependentCounts[s]?.getD 0 = (m.dependents s).length
  ready : ∀ t, t ∈ m.initiallyReadyTasks ↔ t < m.tasks.length ∧ m.sources t = []
  nodup : m.initiallyReadyTasks.Nodup

theorem getD_map {α β : Type} (xs : List α) (f : α → List β) (i : ℕ) :
    ((xs.map fun x => (f x).length)[i]?).getD 0 = ((xs[i]?.map f).getD []).length := by
  rw [List.getElem?_map]
  cases xs[i]? <;> rfl

theorem wellFormed_of_finish {tasks : WipTasks} (hbuilt : Built tasks) {m : Manifest}
    (h : finish tasks = .ok m) : m.WellFormed := by
  have hlinked := WipTasks.linked_of_built hbuilt
  unfold finish at h
  obtain ⟨_, -, h⟩ := bind_eq_ok h
  obtain ⟨_, -, h⟩ := bind_eq_ok h
  obtain rfl := Except.ok.inj h
  have hsources : ∀ d, Manifest.sources ⟨tasks.map fun t =>
      ⟨inputSources t.singleArrayInputs t.multiArrayInputs,
        t.inferredDependents.mergeSort (· ≤ ·)⟩, initiallyReady tasks,
      tasks.map (·.inferredDependents.length), tasks.map (·.dependencies.length)⟩ d =
      tasks.sources d := by
    intro d
    unfold Manifest.sources WipTasks.sources
    rw [List.getElem?_map]
    cases hd : tasks[d]? with
    | none => rfl
    | some t => exact (hlinked.inputs t (List.mem_of_getElem? hd)).symm
  have hdependents : ∀ s, (Manifest.dependents ⟨tasks.map fun t =>
      ⟨inputSources t.singleArrayInputs t.multiArrayInputs,
        t.inferredDependents.mergeSort (· ≤ ·)⟩, initiallyReady tasks,
      tasks.map (·.inferredDependents.length), tasks.map (·.dependencies.length)⟩ s).Perm
      (tasks.dependents s) := by
    intro s
    unfold Manifest.dependents WipTasks.dependents
    rw [List.getElem?_map]
    cases tasks[s]? with
    | none => exact .refl _
    | some t => exact List.mergeSort_perm _ _
  constructor
  case sources_lt =>
    intro d s hs
    exact hlinked.sources_lt d s (hsources d ▸ hs)
  case sources_of_le =>
    intro d hd
    rw [hsources]
    exact WipTasks.sources_of_le (by simpa using hd)
  case count =>
    intro s d
    rw [(hdependents s).count_eq, hsources]
    exact hlinked.count s d
  case dependencyCounts =>
    intro d
    rw [hsources]
    exact getD_map _ _ _
  case dependentCounts =>
    intro s
    rw [(hdependents s).length_eq]
    exact getD_map _ _ _
  case ready =>
    intro t
    rw [hsources]
    show t ∈ initiallyReady tasks ↔ _
    unfold initiallyReady
    rw [List.mem_filter, List.mem_reverse, List.mem_range, decide_eq_true_iff, List.length_map]
    rfl
  case nodup => exact (List.nodup_reverse.2 List.nodup_range).filter _

/-! ## Stages -/

inductive Stage (k : ℕ)
  | unlaunched
  | launching (i : Thread k)
  | queued
  | running (i : Thread k)
  | inserting (i : Thread k)
  | notifying (i : Thread k)
  | finished

namespace Stage

variable {k : ℕ}

/-- The thread that works on the task. -/
def owner : Stage k → Option (Thread k)
  | .launching i | .running i | .inserting i | .notifying i => some i
  | .unlaunched | .queued | .finished => none

/-- The output is not yet stored. -/
def Early : Stage k → Prop
  | .unlaunched | .launching _ | .queued | .running _ | .inserting _ => True
  | .notifying _ | .finished => False

/-- The inputs are taken. -/
def Taken : Stage k → Prop
  | .unlaunched | .launching _ => False
  | _ => True

/-- The task has an output. -/
def HasOutput : Stage k → Prop
  | .inserting _ | .notifying _ | .finished => True
  | _ => False

end Stage

/-- What the stages leave to do, and what was done. -/
structure Progress (k : ℕ) where
  stage : ℕ → Stage k
  toNotify : ℕ → List ℕ
  toLoad : ℕ → List ℕ
  toGive : ℕ → List ℕ
  notified : ℕ → List ℕ
  given : ℕ → List ℕ
  ended : List ℕ
  ready : List ℕ
  /-- The task that a thread is about to launch. -/
  due : Option ℕ

/-- The tasks that a thread works on. -/
def Rest.HasTask : Rest → ℕ → Prop
  | .runner t _, t' => t' = t
  | .main _, _ => False

def Pc.HasTask {Y : Type} : Pc Y → ℕ → Prop
  | .stepTask t, t' | .insertLoad t _, t' | .insertSwap t _, t' => t' = t
  | .next r, t' => r.HasTask t'
  | .takeLoad d _ _ r, t' | .takeSub d _ _ _ r, t' | .takeStore d _ _ _ r, t' =>
    t' = d ∨ r.HasTask t'
  | .idle, _ | .setFlag, _ | .waiting, _ => False

namespace RunnerState

variable {k : ℕ} {Y : Type}

def RestOk (g : Progress k) (i : Thread k) : Rest → Prop
  | .runner t ds => i ≠ none ∧ g.stage t = .notifying i ∧ g.toNotify t = ds
  | .main ts => i = none ∧ g.ready = ts

/-- The stages agree with where a thread is. -/
def ThreadOk (s : RunnerState k Y) (g : Progress k) (i : Thread k) : Pc Y → Prop
  | .idle => i ≠ none
  | .waiting => i = none ∧ g.ready = []
  | .stepTask t => i ≠ none ∧ g.stage t = .running i
  | .insertLoad t y | .insertSwap t y =>
    i ≠ none ∧ g.stage t = .inserting i ∧ .taskFinished t y ∈ s.events
  | .next r => RestOk g i r
  | .takeLoad d src ss r =>
    g.stage d = .launching i ∧ g.toLoad d = src :: ss ∧ g.toGive d = src :: ss ∧ RestOk g i r
  | .takeSub d src y ss r =>
    g.stage d = .launching i ∧ g.toLoad d = ss ∧ g.toGive d = src :: ss ∧ y ≠ none ∧
      RestOk g i r
  | .takeStore d src y ss r =>
    g.stage d = .launching i ∧ g.toLoad d = ss ∧ g.toGive d = ss ∧ y ≠ none ∧
      s.remainingUses src = 0 ∧ RestOk g i r
  | .setFlag => i ≠ none

/-- The runner and the stages agree, but for one thread that is between two places. -/
structure Inv (m : Manifest) (s : RunnerState k Y) (g : Progress k) (busy : Option (Thread k)) :
    Prop where
  notifyCount : ∀ t d, (g.notified d).count t + (g.toNotify t).count d = (m.sources d).count t
  remaining : ∀ d, s.remainingDependencies d + (g.notified d).length = (m.sources d).length
  giveCount : ∀ t d, (g.given t).count d + (g.toGive d).count t = (m.sources d).count t
  uses : ∀ t, s.remainingUses t + (g.given t).length = (m.dependents t).length
  loadCount : ∀ t d, loads s.events d t + (g.toLoad d).count t = (m.sources d).count t
  tasksLeft : s.numTasksRemaining + g.ended.length = m.tasks.length
  endedNodup : g.ended.Nodup
  ended : ∀ t, t ∈ g.ended ↔ g.stage t = .finished
  thread : ∀ i, busy ≠ some i → ThreadOk s g i (s.threads i)
  owned : ∀ t i, busy ≠ some i → (g.stage t).owner = some i → (s.threads i).HasTask t
  queued : ∀ t, t ∈ s.runQueue ↔ g.stage t = .queued
  queueNodup : s.runQueue.Nodup
  early : ∀ t, (g.stage t).Early → g.toNotify t = m.dependents t ∧ s.contents t = none
  finished : ∀ t, g.stage t = .finished → g.toNotify t = []
  unlaunched : ∀ d, g.stage d = .unlaunched → g.toLoad d = m.sources d ∧ g.toGive d = m.sources d ∧
    (d < m.tasks.length → 0 < s.remainingDependencies d ∨ d ∈ g.ready ∨ g.due = some d)
  launched : ∀ d, g.stage d ≠ .unlaunched → s.remainingDependencies d = 0 ∧ d < m.tasks.length
  taken : ∀ d, (g.stage d).Taken → g.toLoad d = [] ∧ g.toGive d = []
  loadGive : ∀ d t, (g.toLoad d).count t ≤ (g.toGive d).count t
  kept : ∀ t, ¬ (g.stage t).Early → (∃ y, .taskFinished t y ∈ s.events) ∧
    (0 < s.remainingUses t → ∃ y, s.contents t = some y ∧ .taskFinished t y ∈ s.events)
  flag : busy = none → 0 < m.tasks.length → s.numTasksRemaining = 0 →
    s.noTasksRemain = true ∨ ∃ i, s.threads i = .setFlag
  justified : Justified m s.events
  launchEvent : ∀ d, .launchTask d ∈ s.events ↔ g.stage d ≠ .unlaunched
  finishEvent : ∀ t y, .taskFinished t y ∈ s.events → (g.stage t).HasOutput
  ready : g.ready.Nodup ∧ ∀ t ∈ g.ready, t < m.tasks.length ∧ m.sources t = [] ∧
    g.stage t = .unlaunched
  due : busy = none → g.due = none

def Progress.init (m : Manifest) : Progress k where
  stage _ := .unlaunched
  toNotify := m.dependents
  toLoad := m.sources
  toGive := m.sources
  notified _ := []
  given _ := []
  ended := []
  ready := m.initiallyReadyTasks
  due := none

theorem inv_init {m : Manifest} (hm : m.WellFormed) :
    Inv m (init m : RunnerState k Y) (Progress.init m) none where
  notifyCount t d := by simpa [Progress.init] using hm.count t d
  remaining d := hm.dependencyCounts d
  giveCount t d := Nat.zero_add _
  uses t := hm.dependentCounts t
  loadCount t d := Nat.zero_add _
  tasksLeft := rfl
  endedNodup := List.nodup_nil
  ended t := by simp [Progress.init]
  thread i _ := by
    by_cases hi : i = none
    · simp [init, hi, ThreadOk, RestOk, Progress.init]
    · simp [init, hi, ThreadOk]
  owned t i _ h := nomatch h
  queued t := by simp [init, Progress.init]
  queueNodup := List.nodup_nil
  early t _ := ⟨rfl, rfl⟩
  finished t h := nomatch h
  unlaunched d _ := by
    refine ⟨rfl, rfl, fun hd => ?_⟩
    show 0 < m.dependencyCounts[d]?.getD 0 ∨ d ∈ m.initiallyReadyTasks ∨ _
    rw [hm.dependencyCounts, hm.ready]
    rcases List.eq_nil_or_concat (m.sources d) with h | ⟨l, a, h⟩
    · exact .inr (.inl ⟨hd, h⟩)
    · exact .inl (by simp [h])
  launched d h := absurd rfl h
  taken d h := h.elim
  loadGive _ _ := le_rfl
  kept t h := absurd trivial h
  flag _ hpos h := absurd h hpos.ne'
  justified := trivial
  launchEvent d := by simp [init, Progress.init]
  finishEvent t y h := nomatch h
  ready := ⟨hm.nodup, fun t ht => ⟨((hm.ready t).1 ht).1, ((hm.ready t).1 ht).2, rfl⟩⟩
  due _ := rfl

end RunnerState

end EdaBitGen.MacNCheese
