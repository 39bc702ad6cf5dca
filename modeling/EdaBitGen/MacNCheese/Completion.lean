import EdaBitGen.MacNCheese.Scheduling

/-!
# Runs of the runner

In every run each task is launched once, after the tasks it depends on, and no counter underflows.
When no task remains to be run all were, and the flag is set, unless there was no task at all: then
no thread decrements the count of the tasks that remain, and the main thread waits.
-/

namespace EdaBitGen.MacNCheese

namespace RunnerState

variable {k : ℕ} {Y : Type} {m : Manifest} {s : RunnerState k Y} {g : Progress k}

def launches (events : List (Event Y)) (t : ℕ) : ℕ :=
  events.countP fun
    | .launchTask t' => t' = t
    | _ => false

/-- The tasks are scheduled as they should be. -/
structure Scheduled (m : Manifest) (s : RunnerState k Y) : Prop where
  noPanic : ∀ i c, s.step m i c ≠ .panicked
  justified : Justified m s.events
  once : ∀ t, launches s.events t ≤ 1
  progress : 0 < k → Quiescent s ∨ ∃ i c s', s.step m i c = .stepped s'
  complete : Quiescent s → (∀ t, t < m.tasks.length → launches s.events t = 1 ∧
    ∃ y, .taskFinished t y ∈ s.events) ∧ s.noTasksRemain = true

theorem launches_pos_iff {events : List (Event Y)} {t : ℕ} :
    0 < launches events t ↔ .launchTask t ∈ events := by
  unfold launches
  rw [List.countP_pos_iff]
  constructor
  · rintro ⟨e, he, hlaunch⟩
    cases e with
    | launchTask t' =>
      obtain rfl := of_decide_eq_true hlaunch
      exact he
    | _ => cases hlaunch
  · exact fun hmem => ⟨_, hmem, decide_eq_true rfl⟩

theorem launches_cons_self (past : List (Event Y)) (t : ℕ) :
    launches (.launchTask t :: past) t = launches past t + 1 := by
  simp [launches]

theorem launches_cons_of_ne {e : Event Y} {t : ℕ} (h : e ≠ .launchTask t)
    (past : List (Event Y)) : launches (e :: past) t = launches past t := by
  unfold launches
  refine List.countP_cons_of_neg fun he => ?_
  cases e with
  | launchTask t' => exact h (congrArg _ (of_decide_eq_true he))
  | _ => cases he

theorem launches_le_one {events : List (Event Y)} (h : Justified m events) (t : ℕ) :
    launches events t ≤ 1 := by
  induction events with
  | nil => exact Nat.zero_le 1
  | cons e past ih =>
    have hpast := ih h.2
    by_cases he : e = .launchTask t
    · subst he
      have hzero : launches past t = 0 :=
        Nat.eq_zero_of_not_pos fun hpos => h.1.1 (launches_pos_iff.1 hpos)
      rw [launches_cons_self, hzero]
    · rw [launches_cons_of_ne he]
      exact hpast

/-! ## The end of a run -/

theorem Inv.no_owner (h : Inv m s g none) (hq : Quiescent s) (t : ℕ) :
    (g.stage t).owner = none := by
  cases howner : (g.stage t).owner with
  | none => rfl
  | some i =>
    have htask := h.owned t i nofun howner
    cases i with
    | none =>
      rw [hq.2.1] at htask
      exact htask.elim
    | some j =>
      rw [hq.2.2] at htask
      exact htask.elim

theorem Inv.all_finished (h : Inv m s g none) (hm : m.WellFormed) (hq : Quiescent s) (t : ℕ)
    (ht : t < m.tasks.length) : g.stage t = .finished := by
  induction t using Nat.strong_induction_on with
  | _ t ih =>
    have howner := h.no_owner hq t
    cases hstage : g.stage t with
    | unlaunched =>
      exfalso
      have hsub : (m.sources t).Subperm (g.notified t) := by
        refine List.subperm_ext_iff.2 fun src hsrc => ?_
        have hlt := hm.sources_lt t src hsrc
        have hnotify := h.finished src (ih src hlt (hlt.trans ht))
        have := h.notifyCount src t
        rw [hnotify, List.count_nil] at this
        omega
      have hlen := hsub.length_le
      have := h.remaining t
      have hready : g.ready = [] := by
        have hwait := h.thread none nofun
        rw [hq.2.1] at hwait
        exact hwait.2
      rcases (h.unlaunched t hstage).2.2 ht with hpos | hmem | hdue
      · omega
      · rw [hready] at hmem
        cases hmem
      · rw [h.due rfl] at hdue
        cases hdue
    | queued =>
      have := (h.queued t).2 hstage
      rw [hq.1] at this
      cases this
    | finished => rfl
    | launching i | running i | inserting i | notifying i =>
      rw [hstage] at howner
      cases howner

theorem Inv.complete (h : Inv m s g none) (hm : m.WellFormed) (hpos : 0 < m.tasks.length)
    (hq : Quiescent s) : (∀ t, t < m.tasks.length → launches s.events t = 1 ∧
      ∃ y, .taskFinished t y ∈ s.events) ∧ s.noTasksRemain = true := by
  have hfinished := h.all_finished hm hq
  constructor
  · intro t ht
    have hlaunch : 0 < launches s.events t :=
      launches_pos_iff.2 ((h.launchEvent t).2 (by rw [hfinished t ht]; nofun))
    have := launches_le_one h.justified t
    exact ⟨by omega, (h.kept t (by rw [hfinished t ht]; exact id)).1⟩
  · have hsub : List.range m.tasks.length ⊆ g.ended := fun t ht =>
      (h.ended t).2 (hfinished t (List.mem_range.1 ht))
    have hlen := (List.nodup_range.subperm hsub).length_le
    rw [List.length_range] at hlen
    have := h.tasksLeft
    rcases h.flag rfl hpos (by omega) with hset | ⟨i, hi⟩
    · exact hset
    · cases i with
      | none =>
        rw [hq.2.1] at hi
        cases hi
      | some j =>
        rw [hq.2.2] at hi
        cases hi

theorem Inv.progress (h : Inv m s g none) (hm : m.WellFormed) (hk : 0 < k) :
    Quiescent s ∨ ∃ i c s', s.step m i c = .stepped s' := by
  by_cases hrunners : ∀ i, s.threads (some i) = .idle
  · by_cases hmain : s.threads none = .waiting
    · cases hqueue : s.runQueue with
      | nil => exact .inl ⟨hqueue, hmain, hrunners⟩
      | cons t ts =>
        refine .inr ⟨some ⟨0, hk⟩, .dequeue 0, ?_⟩
        unfold RunnerState.step
        rw [hrunners]
        simp only [hqueue, List.getElem?_cons_zero]
        exact ⟨_, rfl⟩
    · have hidle : s.threads none ≠ .idle := by
        intro hidle
        have hok := h.thread none nofun
        rw [hidle] at hok
        exact hok rfl
      exact .inr ⟨none, _, h.canStep hm hidle hmain⟩
  · push Not at hrunners
    obtain ⟨i, hi⟩ := hrunners
    have hwait : s.threads (some i) ≠ .waiting := by
      intro hwait
      have hok := h.thread (some i) nofun
      rw [hwait] at hok
      cases hok.1
    exact .inr ⟨some i, _, h.canStep hm hi hwait⟩

theorem scheduled_of_reachable (hm : m.WellFormed) (hpos : 0 < m.tasks.length)
    (hs : Reachable m s) : Scheduled m s := by
  obtain ⟨g, hg⟩ := exists_inv_of_reachable hm hs
  exact
  { noPanic := fun i c => (hg.step hm c).1
    justified := hg.justified
    once := launches_le_one hg.justified
    progress := hg.progress hm
    complete := hg.complete hm hpos }

theorem exists_not_scheduled (hready : m.initiallyReadyTasks = []) :
    ∃ s : RunnerState 1 Unit, Reachable m s ∧ ¬ Scheduled m s := by
  have hpc : (init m : RunnerState 1 Unit).threads none = .next (.main []) := by
    rw [← hready]
    rfl
  have hstep : (init m : RunnerState 1 Unit).step m none .needsCommunication =
      .stepped ((init m).goto none .waiting) := by
    unfold step
    rw [hpc]
  refine ⟨_, .step none .needsCommunication .init hstep, fun h => ?_⟩
  have hq : Quiescent ((init m : RunnerState 1 Unit).goto none .waiting) :=
    ⟨rfl, rfl, fun _ => rfl⟩
  have hflag := (h.complete hq).2
  cases hflag

end RunnerState

/-! ## Circuits -/

/-- What the circuit builder writes. -/
structure Circuit where
  tasks : WipTasks
  built : Built tasks
  manifest : Manifest
  finished : finish tasks = .ok manifest

/-- Any number of runners schedule the tasks, in every order of their steps. -/
def Circuit.IsScheduled (c : Circuit) : Prop :=
  ∀ (k : ℕ) (Y : Type) (s : RunnerState k Y), s.Reachable c.manifest → s.Scheduled c.manifest

theorem length_of_finish {tasks : WipTasks} {m : Manifest} (h : finish tasks = .ok m) :
    m.tasks.length = tasks.length ∧ m.initiallyReadyTasks = initiallyReady tasks := by
  unfold finish at h
  obtain ⟨_, -, h⟩ := bind_eq_ok h
  obtain ⟨_, -, h⟩ := bind_eq_ok h
  obtain rfl := Except.ok.inj h
  exact ⟨List.length_map _, rfl⟩

theorem Circuit.isScheduled_iff (c : Circuit) : c.IsScheduled ↔ c.tasks ≠ [] := by
  obtain ⟨hlen, hready⟩ := length_of_finish c.finished
  constructor
  · intro h hnil
    rw [hnil] at hready
    obtain ⟨s, hs, hnot⟩ := RunnerState.exists_not_scheduled (m := c.manifest) hready
    exact hnot (h 1 Unit s hs)
  · intro hne k Y s hs
    have hpos : 0 < c.manifest.tasks.length := by
      rw [hlen]
      exact List.length_pos_iff.2 hne
    exact RunnerState.scheduled_of_reachable (wellFormed_of_finish c.built c.finished) hpos hs

def emptyCircuit : Circuit := ⟨[], .empty, ⟨[], [], [], []⟩, rfl⟩

/-- A circuit without tasks is never reported as done. -/
theorem not_isScheduled_empty : ¬ ∀ c : Circuit, c.IsScheduled := by
  intro h
  obtain ⟨s, hs, hnot⟩ := RunnerState.exists_not_scheduled (m := emptyCircuit.manifest) rfl
  exact hnot (h emptyCircuit 1 Unit s hs)

end EdaBitGen.MacNCheese
