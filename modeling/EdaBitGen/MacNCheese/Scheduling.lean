import EdaBitGen.MacNCheese.Stages

/-!
# Steps of the runner

Every atomic step of a thread moves the stages of the tasks along.
-/

namespace EdaBitGen.MacNCheese.RunnerState

variable {k : ℕ} {Y : Type} {m : Manifest} {s s' : RunnerState k Y} {g g' : Progress k}
  {i : Thread k} {busy : Option (Thread k)}

/-! ## What a thread leaves alone -/

/-- A step of the thread `i` keeps the tasks of the other threads. -/
structure Frame (s s' : RunnerState k Y) (g g' : Progress k) (i : Thread k) : Prop where
  kept : ∀ t j, j ≠ i → (g.stage t).owner = some j → g'.stage t = g.stage t ∧
    g'.toNotify t = g.toNotify t ∧ g'.toLoad t = g.toLoad t ∧ g'.toGive t = g.toGive t
  back : ∀ t j, j ≠ i → (g'.stage t).owner = some j → g'.stage t = g.stage t
  ready : i ≠ none → g'.ready = g.ready
  uses : ∀ t, s.remainingUses t = 0 → s'.remainingUses t = 0
  events : ∀ e ∈ s.events, e ∈ s'.events
  threads : s'.threads = s.threads

theorem Frame.single {t : ℕ} (hold : ∀ j, j ≠ i → (g.stage t).owner ≠ some j)
    (hnew : ∀ j, j ≠ i → (g'.stage t).owner ≠ some j)
    (hrest : ∀ t', t' ≠ t → g'.stage t' = g.stage t' ∧ g'.toNotify t' = g.toNotify t' ∧
      g'.toLoad t' = g.toLoad t' ∧ g'.toGive t' = g.toGive t')
    (hready : i ≠ none → g'.ready = g.ready)
    (huses : ∀ t, s.remainingUses t = 0 → s'.remainingUses t = 0)
    (hevents : ∀ e ∈ s.events, e ∈ s'.events) (hthreads : s'.threads = s.threads) :
    Frame s s' g g' i where
  kept t' j hj howner := by
    refine hrest t' ?_
    rintro rfl
    exact hold j hj howner
  back t' j hj howner := by
    refine (hrest t' ?_).1
    rintro rfl
    exact hnew j hj howner
  ready := hready
  uses := huses
  events := hevents
  threads := hthreads

theorem Frame.restOk (f : Frame s s' g g' i) {j : Thread k} (hj : j ≠ i) {r : Rest}
    (h : RestOk g j r) : RestOk g' j r := by
  cases r with
  | runner t ds =>
    obtain ⟨hne, hstage, hds⟩ := h
    obtain ⟨hstage', hds', -, -⟩ := f.kept t j hj (by rw [hstage]; rfl)
    exact ⟨hne, hstage'.trans hstage, hds'.trans hds⟩
  | main ts =>
    obtain ⟨rfl, hts⟩ := h
    exact ⟨rfl, (f.ready hj.symm).trans hts⟩

theorem Frame.threadOk (f : Frame s s' g g' i) {j : Thread k} (hj : j ≠ i) {pc : Pc Y}
    (h : ThreadOk s g j pc) : ThreadOk s' g' j pc := by
  have hstage : ∀ {t : ℕ} {st : Stage k}, st.owner = some j → g.stage t = st →
      g'.stage t = st ∧ g'.toLoad t = g.toLoad t ∧ g'.toGive t = g.toGive t := by
    intro t st howner hst
    obtain ⟨hstage, -, hload, hgive⟩ := f.kept t j hj (hst ▸ howner)
    exact ⟨hstage.trans hst, hload, hgive⟩
  cases pc with
  | idle => exact h
  | waiting => exact ⟨h.1, (f.ready (by rw [← h.1]; exact hj.symm)).trans h.2⟩
  | stepTask t => exact ⟨h.1, (hstage rfl h.2).1⟩
  | insertLoad t y => exact ⟨h.1, (hstage rfl h.2.1).1, f.events _ h.2.2⟩
  | insertSwap t y => exact ⟨h.1, (hstage rfl h.2.1).1, f.events _ h.2.2⟩
  | next r => exact f.restOk hj h
  | takeLoad d src ss r =>
    obtain ⟨hst, hload, hgive, hr⟩ := h
    obtain ⟨hst', hload', hgive'⟩ := hstage rfl hst
    exact ⟨hst', hload'.trans hload, hgive'.trans hgive, f.restOk hj hr⟩
  | takeSub d src y ss r =>
    obtain ⟨hst, hload, hgive, hy, hr⟩ := h
    obtain ⟨hst', hload', hgive'⟩ := hstage rfl hst
    exact ⟨hst', hload'.trans hload, hgive'.trans hgive, hy, f.restOk hj hr⟩
  | takeStore d src y ss r =>
    obtain ⟨hst, hload, hgive, hy, huses, hr⟩ := h
    obtain ⟨hst', hload', hgive'⟩ := hstage rfl hst
    exact ⟨hst', hload'.trans hload, hgive'.trans hgive, hy, f.uses _ huses, f.restOk hj hr⟩
  | setFlag => exact h

theorem Frame.thread (f : Frame s s' g g' i) (h : Inv m s g busy)
    (hbusy : busy = none ∨ busy = some i) (j : Thread k) (hj : some i ≠ some j) :
    ThreadOk s' g' j (s'.threads j) := by
  have hne : j ≠ i := fun heq => hj (congrArg some heq.symm)
  rw [f.threads]
  refine f.threadOk hne (h.thread j ?_)
  rcases hbusy with rfl | rfl
  · nofun
  · exact hj

theorem Frame.owned (f : Frame s s' g g' i) (h : Inv m s g busy)
    (hbusy : busy = none ∨ busy = some i) (t : ℕ) (j : Thread k) (hj : some i ≠ some j)
    (howner : (g'.stage t).owner = some j) : (s'.threads j).HasTask t := by
  have hne : j ≠ i := fun heq => hj (congrArg some heq.symm)
  rw [f.threads]
  refine h.owned t j ?_ (f.back t j hne howner ▸ howner)
  rcases hbusy with rfl | rfl
  · nofun
  · exact hj

theorem Inv.goto (h : Inv m s g (some i)) (hdue : g.due = none) {pc : Pc Y}
    (hpc : ThreadOk s g i pc)
    (howned : ∀ t, (g.stage t).owner = some i → pc.HasTask t)
    (hflag : 0 < m.tasks.length → s.numTasksRemaining = 0 →
      s.noTasksRemain = true ∨ pc = .setFlag ∨ ∃ j, j ≠ i ∧ s.threads j = .setFlag) :
    Inv m (s.goto i pc) g none :=
  { h with
    thread := fun j _ => by
      show ThreadOk s g j (Function.update s.threads i pc j)
      rcases eq_or_ne j i with rfl | hj
      · rw [Function.update_self]
        exact hpc
      · rw [Function.update_of_ne hj]
        exact h.thread j fun heq => hj (Option.some.inj heq).symm
    owned := fun t j _ howner => by
      show (Function.update s.threads i pc j).HasTask t
      rcases eq_or_ne j i with rfl | hj
      · rw [Function.update_self]
        exact howned t howner
      · rw [Function.update_of_ne hj]
        exact h.owned t j (fun heq => hj (Option.some.inj heq).symm) howner
    flag := fun _ hpos hleft => by
      show s.noTasksRemain = true ∨ ∃ j, Function.update s.threads i pc j = .setFlag
      rcases hflag hpos hleft with hset | rfl | ⟨j, hj, hset⟩
      · exact .inl hset
      · exact .inr ⟨i, Function.update_self _ _ _⟩
      · exact .inr ⟨j, (Function.update_of_ne hj _ _).trans hset⟩
    due := fun _ => hdue }

theorem Inv.flag_other (h : Inv m s g none) (hpc : s.threads i ≠ .setFlag) (pc : Pc Y) :
    0 < m.tasks.length → s.numTasksRemaining = 0 →
      s.noTasksRemain = true ∨ pc = .setFlag ∨ ∃ j, j ≠ i ∧ s.threads j = .setFlag := by
  intro hpos hleft
  rcases h.flag rfl hpos hleft with hset | ⟨j, hj⟩
  · exact .inl hset
  · refine .inr (.inr ⟨j, ?_, hj⟩)
    rintro rfl
    exact hpc hj

theorem Inv.weaken (h : Inv m s g none) (i : Thread k) : Inv m s g (some i) :=
  { h with
    thread := fun j _ => h.thread j nofun
    owned := fun t j _ => h.owned t j nofun
    flag := nofun
    due := nofun }

theorem Inv.toNotify_count (h : Inv m s g busy) {d : ℕ}
    (hrem : s.remainingDependencies d = 0) (t : ℕ) : (g.toNotify t).count d = 0 := by
  refine eq_zero_of_count (h.notifyCount · d) ?_ t
  have := h.remaining d
  omega

theorem Inv.toGive_count (h : Inv m s g busy) (hm : m.WellFormed) {t : ℕ}
    (huses : s.remainingUses t = 0) (d : ℕ) : (g.toGive d).count t = 0 := by
  have hcount : ∀ d, (g.given t).count d + (g.toGive d).count t = (m.dependents t).count d := by
    intro d
    rw [hm.count]
    exact h.giveCount t d
  refine eq_zero_of_count hcount ?_ d
  have := h.uses t
  omega

theorem Inv.uses_pos (h : Inv m s g busy) (hm : m.WellFormed) {d t : ℕ}
    (hgive : t ∈ g.toGive d) : 0 < s.remainingUses t := by
  refine Nat.pos_of_ne_zero fun huses => ?_
  have := List.count_pos_iff.2 hgive
  have := h.toGive_count hm huses d
  omega

theorem Inv.not_early (h : Inv m s g busy) (hm : m.WellFormed) {d t : ℕ}
    (hd : s.remainingDependencies d = 0) (ht : t ∈ m.sources d) : ¬ (g.stage t).Early := by
  intro hearly
  have hzero := h.toNotify_count hd t
  rw [(h.early t hearly).1, hm.count] at hzero
  have := List.count_pos_iff.2 ht
  omega

theorem Inv.mem_sources (h : Inv m s g busy) {d t : ℕ} (ht : t ∈ g.toGive d) :
    t ∈ m.sources d := by
  have := List.count_pos_iff.2 ht
  have := h.giveCount t d
  exact List.count_pos_iff.1 (by omega)

/-! ## Stages -/

theorem forall_update {P : ℕ → Stage k → Prop} {f : ℕ → Stage k} (h : ∀ t, P t (f t)) {t : ℕ}
    {st : Stage k} (ht : P t st) (t' : ℕ) : P t' (Function.update f t st t') := by
  rcases eq_or_ne t' t with rfl | hne
  · rw [Function.update_self]
    exact ht
  · rw [Function.update_of_ne hne]
    exact h t'

theorem Inv.setStage (h : Inv m s g busy) (st : Stage k) (contents : ℕ → Option Y)
    (hbusy : busy = none ∨ busy = some i) {t : ℕ} {queue ended : List ℕ} {left : ℕ}
    (hold : ∀ j, j ≠ i → (g.stage t).owner ≠ some j) (hnew : ∀ j, j ≠ i → st.owner ≠ some j)
    (hlaunched : g.stage t ≠ .unlaunched) (hst : st ≠ .unlaunched)
    (hqueued : ∀ t', t' ∈ queue ↔ Function.update g.stage t st t' = .queued)
    (hnodup : queue.Nodup)
    (hended : ∀ t', t' ∈ ended ↔ Function.update g.stage t st t' = .finished)
    (hendedNodup : ended.Nodup) (hleft : left + ended.length = m.tasks.length)
    (hcontents : ∀ t', t' ≠ t → contents t' = s.contents t')
    (hearly : st.Early → (g.stage t).Early ∧ contents t = none)
    (hfinished : st = .finished → g.toNotify t = [])
    (htaken : st.Taken → g.toLoad t = [] ∧ g.toGive t = [])
    (hkept : ¬ st.Early → (∃ y, .taskFinished t y ∈ s.events) ∧
      (0 < s.remainingUses t → ∃ y, contents t = some y ∧ .taskFinished t y ∈ s.events))
    (houtput : (g.stage t).HasOutput → st.HasOutput) :
    Inv m { s with runQueue := queue, contents := contents, numTasksRemaining := left }
      { g with stage := Function.update g.stage t st, ended := ended } (some i) := by
  have hframe : Frame s
      { s with runQueue := queue, contents := contents, numTasksRemaining := left } g
      { g with stage := Function.update g.stage t st, ended := ended } i := by
    refine .single hold ?_ ?_ (fun _ => rfl) (fun _ => id) (fun _ => id) rfl
    · intro j hj
      show (Function.update g.stage t st t).owner ≠ some j
      rw [Function.update_self]
      exact hnew j hj
    · intro t' ht'
      exact ⟨Function.update_of_ne ht' _ _, rfl, rfl, rfl⟩
  exact
  { h with
    tasksLeft := hleft
    endedNodup := hendedNodup
    ended := hended
    thread := hframe.thread h hbusy
    owned := hframe.owned h hbusy
    queued := hqueued
    queueNodup := hnodup
    early := fun t' (hst : (Function.update g.stage t st t').Early) => by
      rcases eq_or_ne t' t with rfl | ht'
      · rw [Function.update_self] at hst
        exact ⟨(h.early t' (hearly hst).1).1, (hearly hst).2⟩
      · rw [Function.update_of_ne ht'] at hst
        exact ⟨(h.early t' hst).1, (hcontents t' ht').trans (h.early t' hst).2⟩
    finished := forall_update (P := fun t' st => st = .finished → _) h.finished hfinished
    unlaunched := forall_update (P := fun t' st => st = .unlaunched → _) h.unlaunched
      fun heq => absurd heq hst
    launched := forall_update (P := fun t' st => st ≠ .unlaunched → _) h.launched
      fun _ => h.launched t hlaunched
    taken := forall_update (P := fun t' st => st.Taken → _) h.taken htaken
    kept := fun t' (hst : ¬ (Function.update g.stage t st t').Early) => by
      rcases eq_or_ne t' t with rfl | ht'
      · rw [Function.update_self] at hst
        exact hkept hst
      · rw [Function.update_of_ne ht'] at hst
        show _ ∧ (_ → ∃ y, contents t' = some y ∧ _)
        rw [hcontents t' ht']
        exact h.kept t' hst
    flag := nofun
    launchEvent := forall_update (P := fun t' st => .launchTask t' ∈ s.events ↔ st ≠ .unlaunched)
      h.launchEvent ⟨fun _ => hst, fun _ => (h.launchEvent t).2 hlaunched⟩
    finishEvent := forall_update
      (P := fun t' st => ∀ y, .taskFinished t' y ∈ s.events → st.HasOutput) h.finishEvent
      fun y hy => houtput (h.finishEvent t y hy)
    ready := ⟨h.ready.1, fun t' ht' => ⟨(h.ready.2 t' ht').1, (h.ready.2 t' ht').2.1, by
      show Function.update g.stage t st t' = _
      rw [Function.update_of_ne, (h.ready.2 t' ht').2.2]
      rintro rfl
      exact hlaunched (h.ready.2 _ ht').2.2⟩⟩
    due := nofun }

theorem Inv.mem_ended_update (h : Inv m s g busy) {t : ℕ} {st : Stage k} (hst : st ≠ .finished)
    (hold : g.stage t ≠ .finished) (t' : ℕ) :
    t' ∈ g.ended ↔ Function.update g.stage t st t' = .finished :=
  forall_update (P := fun t' st => t' ∈ g.ended ↔ st = .finished) h.ended
    ⟨fun hmem => absurd ((h.ended t).1 hmem) hold, fun heq => absurd heq hst⟩ t'

theorem Inv.mem_queue_update (h : Inv m s g busy) {t : ℕ} {st : Stage k} (hst : st ≠ .queued)
    (hold : g.stage t ≠ .queued) (t' : ℕ) :
    t' ∈ s.runQueue ↔ Function.update g.stage t st t' = .queued :=
  forall_update (P := fun t' st => t' ∈ s.runQueue ↔ st = .queued) h.queued
    ⟨fun hmem => absurd ((h.queued t).1 hmem) hold, fun heq => absurd heq hst⟩ t'

theorem owner_ne {j : Thread k} (hj : j ≠ i) : some i ≠ some j :=
  fun heq => hj (Option.some.inj heq).symm

theorem owner_update {f : ℕ → Stage k} {t t' : ℕ} {st : Stage k}
    (h : (Function.update f t st t').owner = some i) :
    t' = t ∧ st.owner = some i ∨ t' ≠ t ∧ (f t').owner = some i := by
  rcases eq_or_ne t' t with rfl | hne
  · rw [Function.update_self] at h
    exact .inl ⟨rfl, h⟩
  · rw [Function.update_of_ne hne] at h
    exact .inr ⟨hne, h⟩

/-! ## Running a task -/

theorem Inv.pc (h : Inv m s g none) {pc : Pc Y} (hpc : s.threads i = pc) :
    ThreadOk s g i pc ∧ ∀ t, (g.stage t).owner = some i → pc.HasTask t :=
  ⟨hpc ▸ h.thread i nofun, fun t => hpc ▸ h.owned t i nofun⟩

theorem Inv.dequeue (h : Inv m s g none) (hpc : s.threads i = .idle) {j t : ℕ}
    (ht : s.runQueue[j]? = some t) :
    ∃ g', Inv m ({ s with runQueue := s.runQueue.eraseIdx j }.goto i (.stepTask t)) g' none := by
  obtain ⟨hok, howned⟩ := h.pc hpc
  obtain ⟨hj, rfl⟩ := List.getElem?_eq_some_iff.1 ht
  have hstage := (h.queued _).1 (List.getElem_mem hj)
  have hperm := List.getElem_cons_eraseIdx_perm hj
  have hnodup := List.nodup_cons.1 (hperm.nodup_iff.2 h.queueNodup)
  have hqueue : ∀ t', t' ∈ s.runQueue.eraseIdx j ↔
      Function.update g.stage s.runQueue[j] (.running i) t' = .queued := by
    intro t'
    rcases eq_or_ne t' s.runQueue[j] with rfl | hne
    · rw [Function.update_self]
      exact ⟨fun hmem => absurd hmem hnodup.1, nofun⟩
    · rw [Function.update_of_ne hne, ← h.queued t', ← hperm.mem_iff, List.mem_cons]
      exact ⟨.inr, fun hmem => hmem.resolve_left hne⟩
  have hrun := h.setStage (.running i) s.contents (.inl rfl)
    (fun j _ => by rw [hstage]; nofun) (fun _ hj => owner_ne hj) (by rw [hstage]; nofun) nofun
    hqueue hnodup.2 (h.mem_ended_update nofun (by rw [hstage]; nofun)) h.endedNodup h.tasksLeft
    (fun _ _ => rfl) (fun _ => by rw [hstage]; exact ⟨trivial, (h.early _ (by rw [hstage]; trivial)).2⟩)
    nofun (fun _ => h.taken _ (by rw [hstage]; trivial)) (fun hnot => absurd trivial hnot)
    (by rw [hstage]; exact False.elim)
  refine ⟨_, hrun.goto (h.due rfl) ⟨hok, Function.update_self _ _ _⟩ ?_ (h.flag_other ?_ _)⟩
  · intro t' howner
    rcases owner_update howner with ⟨rfl, -⟩ | ⟨-, hold⟩
    · rfl
    · exact (howned t' hold).elim
  · rw [hpc]
    nofun

theorem Inv.needsCommunication (h : Inv m s g none) {t : ℕ} (hpc : s.threads i = .stepTask t) :
    ∃ g', Inv m ((s.request t).goto i .idle) g' none := by
  obtain ⟨⟨hi, hstage⟩, howned⟩ := h.pc hpc
  have hqueue : ∀ t', t' ∈ t :: s.runQueue ↔ Function.update g.stage t .queued t' = .queued := by
    intro t'
    rcases eq_or_ne t' t with rfl | hne
    · rw [Function.update_self]
      exact ⟨fun _ => rfl, fun _ => List.mem_cons_self⟩
    · rw [Function.update_of_ne hne, ← h.queued t', List.mem_cons]
      exact ⟨fun hmem => hmem.resolve_left hne, .inr⟩
  have hnodup : (t :: s.runQueue).Nodup := by
    refine List.nodup_cons.2 ⟨fun hmem => ?_, h.queueNodup⟩
    rw [h.queued, hstage] at hmem
    cases hmem
  have hrun := h.setStage (i := i) .queued s.contents (.inl rfl)
    (fun j hj => by rw [hstage]; exact owner_ne hj) (fun _ _ => nofun) (by rw [hstage]; nofun)
    nofun hqueue hnodup (h.mem_ended_update nofun (by rw [hstage]; nofun)) h.endedNodup
    h.tasksLeft (fun _ _ => rfl)
    (fun _ => by rw [hstage]; exact ⟨trivial, (h.early t (by rw [hstage]; trivial)).2⟩)
    nofun (fun _ => h.taken t (by rw [hstage]; trivial)) (fun hnot => absurd trivial hnot)
    (by rw [hstage]; exact False.elim)
  refine ⟨_, hrun.goto (h.due rfl) hi ?_ (h.flag_other ?_ _)⟩
  · intro t' howner
    rcases owner_update howner with ⟨-, hqueued⟩ | ⟨hne, hold⟩
    · cases hqueued
    · exact hne (howned t' hold)
  · rw [hpc]
    nofun

theorem Inv.logFinished (h : Inv m s g busy) {t : ℕ} {y : Y}
    (hbusy : busy = some i) (hlaunched : .launchTask t ∈ s.events)
    (hnew : ∀ y, .taskFinished t y ∉ s.events) (houtput : (g.stage t).HasOutput) :
    Inv m (s.log (.taskFinished t y)) g (some i) := by
  have hframe : Frame s (s.log (.taskFinished t y)) g g i :=
    { kept := fun _ _ _ _ => ⟨rfl, rfl, rfl, rfl⟩
      back := fun _ _ _ _ => rfl
      ready := fun _ => rfl
      uses := fun _ => id
      events := fun _ he => List.mem_cons_of_mem _ he
      threads := rfl }
  exact
  { h with
    thread := hframe.thread h (.inr hbusy)
    owned := hframe.owned h (.inr hbusy)
    loadCount := fun t' d => by
      rw [show loads (s.log (.taskFinished t y)).events d t' = loads s.events d t' from
        List.countP_cons_of_neg nofun]
      exact h.loadCount t' d
    kept := fun t' hst => by
      obtain ⟨⟨y', hy'⟩, hkept⟩ := h.kept t' hst
      refine ⟨⟨y', List.mem_cons_of_mem _ hy'⟩, fun huses => ?_⟩
      obtain ⟨y'', hcontents, hy''⟩ := hkept huses
      exact ⟨y'', hcontents, List.mem_cons_of_mem _ hy''⟩
    flag := nofun
    due := nofun
    justified := ⟨⟨hlaunched, hnew⟩, h.justified⟩
    launchEvent := fun d => by
      rw [← h.launchEvent d]
      exact ⟨fun hmem => (List.mem_cons.1 hmem).resolve_left nofun, List.mem_cons_of_mem _⟩
    finishEvent := fun t' y' hmem => by
      rcases List.mem_cons.1 hmem with heq | hmem
      · obtain ⟨rfl, -⟩ := Event.taskFinished.inj heq
        exact houtput
      · exact h.finishEvent t' y' hmem }

theorem Inv.finish (h : Inv m s g none) {t : ℕ} {y : Y} (hpc : s.threads i = .stepTask t) :
    ∃ g', Inv m ((s.log (.taskFinished t y)).goto i (.insertLoad t y)) g' none := by
  obtain ⟨⟨hi, hstage⟩, howned⟩ := h.pc hpc
  have hlaunched : .launchTask t ∈ s.events := (h.launchEvent t).2 (by rw [hstage]; nofun)
  have hnew : ∀ y, .taskFinished t y ∉ s.events := by
    intro y hy
    have := h.finishEvent t y hy
    rw [hstage] at this
    exact this
  have hinsert := h.setStage (.inserting i) s.contents (.inl rfl)
    (fun j hj => by rw [hstage]; exact owner_ne hj) (fun _ hj => owner_ne hj)
    (by rw [hstage]; nofun) nofun (h.mem_queue_update nofun (by rw [hstage]; nofun)) h.queueNodup
    (h.mem_ended_update nofun (by rw [hstage]; nofun)) h.endedNodup h.tasksLeft (fun _ _ => rfl)
    (fun _ => by rw [hstage]; exact ⟨trivial, (h.early t (by rw [hstage]; trivial)).2⟩)
    nofun (fun _ => h.taken t (by rw [hstage]; trivial)) (fun hnot => absurd trivial hnot)
    (by rw [hstage]; exact False.elim)
  have hinserting : Function.update g.stage t (.inserting i) t = .inserting i :=
    Function.update_self _ _ _
  have hlog := hinsert.logFinished (y := y) rfl hlaunched hnew
    (show (Function.update g.stage t (.inserting i) t).HasOutput by rw [hinserting]; trivial)
  refine ⟨_, hlog.goto (h.due rfl) ⟨hi, hinserting, List.mem_cons_self⟩ ?_ (h.flag_other ?_ _)⟩
  · intro t' howner
    rcases owner_update howner with ⟨rfl, -⟩ | ⟨-, hold⟩
    · rfl
    · exact howned t' hold
  · rw [hpc]
    nofun

theorem Inv.insertLoad (h : Inv m s g none) {t : ℕ} {y : Y} (hpc : s.threads i = .insertLoad t y) :
    Inv m (s.goto i (.insertSwap t y)) g none := by
  obtain ⟨hok, howned⟩ := h.pc hpc
  exact (h.weaken i).goto (h.due rfl) hok howned (h.flag_other (by rw [hpc]; nofun) _)

theorem Inv.insert (h : Inv m s g none) {t : ℕ} {y : Y} {contents : ℕ → Option Y}
    (hstage : g.stage t = .inserting i) (hi : i ≠ none) (hy : .taskFinished t y ∈ s.events)
    (howned : ∀ t', (g.stage t').owner = some i → t' = t)
    (hpc : s.threads i ≠ .setFlag) (hcontents : ∀ t', t' ≠ t → contents t' = s.contents t')
    (hkept : 0 < s.remainingUses t → contents t = some y) :
    ∃ g', Inv m ({ s with contents := contents }.goto i (.next (.runner t (m.dependents t))))
      g' none := by
  have hnotify := h.setStage (.notifying i) contents (.inl rfl)
    (fun j hj => by rw [hstage]; exact owner_ne hj) (fun _ hj => owner_ne hj)
    (by rw [hstage]; nofun) nofun (h.mem_queue_update nofun (by rw [hstage]; nofun)) h.queueNodup
    (h.mem_ended_update nofun (by rw [hstage]; nofun)) h.endedNodup h.tasksLeft hcontents
    False.elim nofun (fun _ => h.taken t (by rw [hstage]; trivial))
    (fun _ => ⟨⟨y, hy⟩, fun huses => ⟨y, hkept huses, hy⟩⟩) (fun _ => trivial)
  refine ⟨_, hnotify.goto (h.due rfl) ⟨hi, Function.update_self _ _ _, ?_⟩ ?_ (h.flag_other hpc _)⟩
  · exact (h.early t (by rw [hstage]; trivial)).1
  · intro t' howner
    rcases owner_update howner with ⟨rfl, -⟩ | ⟨-, hold⟩
    · rfl
    · exact howned t' hold

theorem Inv.insertSwap (h : Inv m s g none) {t : ℕ} {y : Y}
    (hpc : s.threads i = .insertSwap t y) : s.contents t = none ∧
      ∃ g', Inv m ({ s with contents := Function.update s.contents t (some y) }.goto i
        (.next (.runner t (m.dependents t)))) g' none := by
  obtain ⟨⟨hi, hstage, hy⟩, howned⟩ := h.pc hpc
  refine ⟨(h.early t (by rw [hstage]; trivial)).2, h.insert hstage hi hy howned (by rw [hpc]; nofun)
    (fun t' ht' => Function.update_of_ne ht' _ _) fun _ => Function.update_self _ _ _⟩

theorem Inv.insertSkip (h : Inv m s g none) {t : ℕ} {y : Y}
    (hpc : s.threads i = .insertLoad t y) (huses : s.remainingUses t = 0) :
    ∃ g', Inv m (s.goto i (.next (.runner t (m.dependents t)))) g' none := by
  obtain ⟨⟨hi, hstage, hy⟩, howned⟩ := h.pc hpc
  exact h.insert hstage hi hy howned (by rw [hpc]; nofun) (fun _ _ => rfl)
    fun hpos => absurd huses hpos.ne'

theorem Inv.ended_lt (h : Inv m s g busy) {t : ℕ} (ht : t < m.tasks.length)
    (hstage : g.stage t ≠ .finished) : g.ended.length < m.tasks.length := by
  have hnodup : (t :: g.ended).Nodup :=
    List.nodup_cons.2 ⟨fun hmem => hstage ((h.ended t).1 hmem), h.endedNodup⟩
  have hsub : t :: g.ended ⊆ List.range m.tasks.length := by
    intro t' ht'
    rcases List.mem_cons.1 ht' with rfl | ht'
    · exact List.mem_range.2 ht
    · have hfinished := (h.ended t').1 ht'
      exact List.mem_range.2 (h.launched t' (by rw [hfinished]; nofun)).2
  have := (hnodup.subperm hsub).length_le
  rw [List.length_cons, List.length_range] at this
  exact this

theorem Inv.done (h : Inv m s g none) {t : ℕ} (hpc : s.threads i = .next (.runner t [])) :
    ∃ rem, s.numTasksRemaining = rem + 1 ∧
      ∃ g', Inv m ({ s with numTasksRemaining := rem }.goto i
        (if rem = 0 then .setFlag else .idle)) g' none := by
  obtain ⟨⟨hi, hstage, hnotify⟩, howned⟩ := h.pc hpc
  have hlaunched := h.launched t (by rw [hstage]; nofun)
  have hlt := h.ended_lt hlaunched.2 (by rw [hstage]; nofun)
  have hleft := h.tasksLeft
  obtain ⟨rem, hrem⟩ := Nat.exists_eq_succ_of_ne_zero (show s.numTasksRemaining ≠ 0 by omega)
  have hended : ∀ t', t' ∈ t :: g.ended ↔ Function.update g.stage t .finished t' = .finished := by
    intro t'
    rcases eq_or_ne t' t with rfl | hne
    · rw [Function.update_self]
      exact ⟨fun _ => rfl, fun _ => List.mem_cons_self⟩
    · rw [Function.update_of_ne hne, ← h.ended t', List.mem_cons]
      exact ⟨fun hmem => hmem.resolve_left hne, .inr⟩
  have hnodup : (t :: g.ended).Nodup := by
    refine List.nodup_cons.2 ⟨fun hmem => ?_, h.endedNodup⟩
    rw [h.ended, hstage] at hmem
    cases hmem
  have hleft : rem + (t :: g.ended).length = m.tasks.length := by
    rw [List.length_cons]
    omega
  have hend := h.setStage (i := i) .finished s.contents (.inl rfl) (fun j hj => by rw [hstage]; exact owner_ne hj) (fun _ _ => nofun)
    (by rw [hstage]; nofun) nofun (h.mem_queue_update nofun (by rw [hstage]; nofun)) h.queueNodup
    hended hnodup hleft (fun _ _ => rfl) False.elim
    (fun _ => hnotify) (fun _ => h.taken t (by rw [hstage]; trivial))
    (fun _ => h.kept t (by rw [hstage]; exact id)) (fun _ => trivial)
  refine ⟨rem, hrem, _, hend.goto (h.due rfl) ?_ ?_ fun _ hzero => .inr (.inl (if_pos hzero))⟩
  · split
    · exact hi
    · exact hi
  · intro t' howner
    rcases owner_update howner with ⟨-, hfinished⟩ | ⟨hne, hold⟩
    · cases hfinished
    · exact absurd (howned t' hold) hne

theorem Inv.takeInputs (h : Inv m s g (some i)) (hdue : g.due = none) {d : ℕ} {ss : List ℕ}
    {r : Rest} (hstage : g.stage d = .launching i) (hload : g.toLoad d = ss)
    (hgive : g.toGive d = ss) (hr : RestOk g i r)
    (howned : ∀ t, (g.stage t).owner = some i → t = d ∨ r.HasTask t)
    (hflag : ∀ pc : Pc Y, 0 < m.tasks.length → s.numTasksRemaining = 0 →
      s.noTasksRemain = true ∨ pc = .setFlag ∨ ∃ j, j ≠ i ∧ s.threads j = .setFlag) :
    ∃ g', Inv m (s.takeInputs i d ss r) g' none := by
  cases ss with
  | cons src ss => exact ⟨g, h.goto hdue ⟨hstage, hload, hgive, hr⟩ howned (hflag _)⟩
  | nil =>
    have hqueue : ∀ t', t' ∈ d :: s.runQueue ↔
        Function.update g.stage d .queued t' = .queued := by
      intro t'
      rcases eq_or_ne t' d with rfl | hne
      · rw [Function.update_self]
        exact ⟨fun _ => rfl, fun _ => List.mem_cons_self⟩
      · rw [Function.update_of_ne hne, ← h.queued t', List.mem_cons]
        exact ⟨fun hmem => hmem.resolve_left hne, .inr⟩
    have hnodup : (d :: s.runQueue).Nodup := by
      refine List.nodup_cons.2 ⟨fun hmem => ?_, h.queueNodup⟩
      rw [h.queued, hstage] at hmem
      cases hmem
    have hrequest := h.setStage .queued s.contents (.inr rfl)
      (fun j hj => by rw [hstage]; exact owner_ne hj) (fun _ _ => nofun) (by rw [hstage]; nofun)
      nofun hqueue hnodup (h.mem_ended_update nofun (by rw [hstage]; nofun)) h.endedNodup
      h.tasksLeft (fun _ _ => rfl)
      (fun _ => by rw [hstage]; exact ⟨trivial, (h.early d (by rw [hstage]; trivial)).2⟩)
      nofun (fun _ => ⟨hload, hgive⟩) (fun hnot => absurd trivial hnot)
      (by rw [hstage]; exact False.elim)
    refine ⟨_, hrequest.goto hdue ?_ ?_ (hflag _)⟩
    · cases r with
      | main ts => exact hr
      | runner t ds =>
        obtain ⟨hi, hnotify, hds⟩ := hr
        refine ⟨hi, ?_, hds⟩
        show Function.update g.stage d .queued t = _
        rw [Function.update_of_ne, hnotify]
        rintro rfl
        rw [hstage] at hnotify
        cases hnotify
    · intro t' howner
      rcases owner_update howner with ⟨-, hqueued⟩ | ⟨hne, hold⟩
      · cases hqueued
      · exact (howned t' hold).resolve_left hne

theorem Inv.launch (h : Inv m s g (some i)) (hm : m.WellFormed) {d : ℕ}
    (hstage : g.stage d = .unlaunched) (hd : d < m.tasks.length)
    (hrem : s.remainingDependencies d = 0) (hdue : g.due = some d) (hready : d ∉ g.ready) :
    Inv m (s.log (.launchTask d))
      { g with stage := Function.update g.stage d (.launching i), due := none } (some i) := by
  have hframe : Frame s (s.log (.launchTask d)) g
      { g with stage := Function.update g.stage d (.launching i), due := none } i := by
    refine .single (t := d) (fun j _ => by rw [hstage]; nofun) ?_ ?_ (fun _ => rfl) (fun _ => id)
      (fun _ he => List.mem_cons_of_mem _ he) rfl
    · intro j hj
      show (Function.update g.stage d _ d).owner ≠ some j
      rw [Function.update_self]
      exact owner_ne hj
    · intro t' ht'
      exact ⟨Function.update_of_ne ht' _ _, rfl, rfl, rfl⟩
  have hnew : .launchTask d ∉ s.events := by
    rw [h.launchEvent, hstage]
    exact fun hne => hne rfl
  have hsources : ∀ src ∈ m.sources d, ∃ y, .taskFinished src y ∈ s.events :=
    fun src hsrc => (h.kept src (h.not_early hm hrem hsrc)).1
  exact
  { h with
    loadCount := fun t' d' => by
      rw [show loads (s.log (.launchTask d)).events d' t' = loads s.events d' t' from
        List.countP_cons_of_neg nofun]
      exact h.loadCount t' d'
    ended := h.mem_ended_update nofun (by rw [hstage]; nofun)
    thread := hframe.thread h (.inr rfl)
    owned := hframe.owned h (.inr rfl)
    queued := h.mem_queue_update nofun (by rw [hstage]; nofun)
    early := forall_update (P := fun t' st => st.Early → _) h.early
      fun _ => h.early d (by rw [hstage]; trivial)
    finished := forall_update (P := fun t' st => st = .finished → _) h.finished nofun
    unlaunched := fun d' (hd' : Function.update g.stage d _ d' = .unlaunched) => by
      rcases eq_or_ne d' d with rfl | hne
      · rw [Function.update_self] at hd'
        cases hd'
      · rw [Function.update_of_ne hne] at hd'
        obtain ⟨hload, hgive, hcases⟩ := h.unlaunched d' hd'
        refine ⟨hload, hgive, fun hlt => ?_⟩
        rcases hcases hlt with hpos | hmem | hdue'
        · exact .inl hpos
        · exact .inr (.inl hmem)
        · exact absurd (Option.some.inj (hdue'.symm.trans hdue)) hne
    launched := forall_update (P := fun t' st => st ≠ .unlaunched → _) h.launched
      fun _ => ⟨hrem, hd⟩
    taken := forall_update (P := fun t' st => st.Taken → _) h.taken False.elim
    kept := fun t' (hst : ¬ (Function.update g.stage d _ t').Early) => by
      rcases eq_or_ne t' d with rfl | hne
      · rw [Function.update_self] at hst
        exact absurd trivial hst
      · rw [Function.update_of_ne hne] at hst
        obtain ⟨⟨y, hy⟩, hkept⟩ := h.kept t' hst
        refine ⟨⟨y, List.mem_cons_of_mem _ hy⟩, fun huses => ?_⟩
        obtain ⟨y', hcontents, hy'⟩ := hkept huses
        exact ⟨y', hcontents, List.mem_cons_of_mem _ hy'⟩
    flag := nofun
    justified := ⟨⟨hnew, hsources⟩, h.justified⟩
    launchEvent := fun d' => by
      show _ ↔ Function.update g.stage d _ d' ≠ _
      rcases eq_or_ne d' d with rfl | hne
      · rw [Function.update_self]
        exact ⟨fun _ => nofun, fun _ => List.mem_cons_self⟩
      · rw [Function.update_of_ne hne, ← h.launchEvent d']
        refine ⟨fun hmem => (List.mem_cons.1 hmem).resolve_left ?_, List.mem_cons_of_mem _⟩
        exact fun heq => hne (Event.launchTask.inj heq)
    finishEvent := fun t' y hmem => by
      have hmem := (List.mem_cons.1 hmem).resolve_left nofun
      have houtput := h.finishEvent t' y hmem
      show (Function.update g.stage d _ t').HasOutput
      rw [Function.update_of_ne]
      · exact houtput
      · rintro rfl
        rw [hstage] at houtput
        exact houtput
    ready := ⟨h.ready.1, fun t' ht' => ⟨(h.ready.2 t' ht').1, (h.ready.2 t' ht').2.1, by
      show Function.update g.stage d _ t' = _
      rw [Function.update_of_ne, (h.ready.2 t' ht').2.2]
      rintro rfl
      exact hready ht'⟩⟩
    due := nofun }

theorem Inv.launchTask (h : Inv m s g (some i)) (hm : m.WellFormed) {d : ℕ} {r : Rest}
    (hstage : g.stage d = .unlaunched) (hd : d < m.tasks.length)
    (hrem : s.remainingDependencies d = 0) (hdue : g.due = some d) (hready : d ∉ g.ready)
    (hr : RestOk g i r) (howned : ∀ t, (g.stage t).owner = some i → r.HasTask t)
    (hflag : ∀ pc : Pc Y, 0 < m.tasks.length → s.numTasksRemaining = 0 →
      s.noTasksRemain = true ∨ pc = .setFlag ∨ ∃ j, j ≠ i ∧ s.threads j = .setFlag) :
    ∃ g', Inv m (s.launchTask m i d r) g' none := by
  obtain ⟨hload, hgive, -⟩ := h.unlaunched d hstage
  refine (h.launch hm hstage hd hrem hdue hready).takeInputs rfl (Function.update_self _ _ _)
    hload hgive ?_ ?_ hflag
  · cases r with
    | main ts => exact hr
    | runner t ds =>
      obtain ⟨hi, hnotify, hds⟩ := hr
      refine ⟨hi, ?_, hds⟩
      show Function.update g.stage d _ t = _
      rw [Function.update_of_ne, hnotify]
      rintro rfl
      rw [hstage] at hnotify
      cases hnotify
  · intro t' howner
    rcases owner_update howner with ⟨rfl, -⟩ | ⟨-, hold⟩
    · exact .inl rfl
    · exact .inr (howned t' hold)

theorem Inv.launchReady (h : Inv m s g none) (hm : m.WellFormed) {t : ℕ} {ts : List ℕ}
    (hpc : s.threads i = .next (.main (t :: ts))) :
    t < m.tasks.length ∧ ∃ g', Inv m (s.launchTask m i t (.main ts)) g' none := by
  obtain ⟨⟨hi, hready⟩, howned⟩ := h.pc hpc
  have hnodup := hready ▸ h.ready.1
  obtain ⟨hnot, hts⟩ := List.nodup_cons.1 hnodup
  obtain ⟨hlt, hsources, hstage⟩ := h.ready.2 t (hready ▸ List.mem_cons_self)
  have hrem : s.remainingDependencies t = 0 := by
    have := h.remaining t
    rw [hsources] at this
    simpa using (Nat.add_eq_zero_iff.1 this).1
  have hframe : Frame s s g { g with ready := ts, due := some t } i :=
    { kept := fun _ _ _ _ => ⟨rfl, rfl, rfl, rfl⟩
      back := fun _ _ _ _ => rfl
      ready := fun hne => absurd hi hne
      uses := fun _ => id
      events := fun _ => id
      threads := rfl }
  have hpop : Inv m s { g with ready := ts, due := some t } (some i) :=
    { h with
      thread := hframe.thread h (.inl rfl)
      owned := hframe.owned h (.inl rfl)
      unlaunched := fun d hd => by
        obtain ⟨hload, hgive, hcases⟩ := h.unlaunched d hd
        refine ⟨hload, hgive, fun hlt => ?_⟩
        rcases hcases hlt with hpos | hmem | hdue
        · exact .inl hpos
        · rw [hready] at hmem
          rcases List.mem_cons.1 hmem with rfl | hmem
          · exact .inr (.inr rfl)
          · exact .inr (.inl hmem)
        · rw [h.due rfl] at hdue
          cases hdue
      flag := nofun
      ready := ⟨hts, fun t' ht' => h.ready.2 t' (hready ▸ List.mem_cons_of_mem _ ht')⟩
      due := nofun }
  exact ⟨hlt, hpop.launchTask hm hstage hlt hrem rfl hnot ⟨hi, rfl⟩ howned
    fun pc => h.flag_other (by rw [hpc]; nofun) pc⟩

theorem Inv.notify (h : Inv m s g none) {t d : ℕ} {ds : List ℕ}
    (hstage : g.stage t = .notifying i) (hds : g.toNotify t = d :: ds) {rem : ℕ}
    (hrem : s.remainingDependencies d = rem + 1) :
    Inv m { s with
        remainingDependencies := Function.update s.remainingDependencies d rem }
      { g with
        toNotify := Function.update g.toNotify t ds
        notified := Function.update g.notified d (t :: g.notified d)
        due := if rem = 0 then some d else none } (some i) := by
  have hframe : Frame s { s with
        remainingDependencies := Function.update s.remainingDependencies d rem } g
      { g with
        toNotify := Function.update g.toNotify t ds
        notified := Function.update g.notified d (t :: g.notified d)
        due := if rem = 0 then some d else none } i := by
    refine .single (t := t) (fun j hj => by rw [hstage]; exact owner_ne hj)
      (fun j hj => by rw [hstage]; exact owner_ne hj) ?_ (fun _ => rfl) (fun _ => id) (fun _ => id)
      rfl
    exact fun t' ht' => ⟨rfl, Function.update_of_ne ht' _ _, rfl, rfl⟩
  exact
  { h with
    notifyCount := fun t' d' => by
      have hcount := h.notifyCount t' d'
      show (Function.update g.notified d _ d').count t' +
        (Function.update g.toNotify t ds t').count d' = _
      rcases eq_or_ne d' d with rfl | hd <;> rcases eq_or_ne t' t with rfl | ht
      · rw [hds] at hcount
        rw [Function.update_self, Function.update_self, List.count_cons_self]
        rw [List.count_cons_self] at hcount
        omega
      · rw [Function.update_self, Function.update_of_ne ht, List.count_cons_of_ne ht.symm]
        exact hcount
      · rw [Function.update_of_ne hd, Function.update_self]
        rw [hds, List.count_cons_of_ne hd.symm] at hcount
        exact hcount
      · rw [Function.update_of_ne hd, Function.update_of_ne ht]
        exact hcount
    remaining := fun d' => by
      have hlen := h.remaining d'
      show Function.update s.remainingDependencies d rem d' +
        (Function.update g.notified d _ d').length = _
      rcases eq_or_ne d' d with rfl | hd
      · rw [Function.update_self, Function.update_self, List.length_cons]
        omega
      · rw [Function.update_of_ne hd, Function.update_of_ne hd]
        exact hlen
    thread := hframe.thread h (.inl rfl)
    owned := hframe.owned h (.inl rfl)
    early := fun t' hst => by
      show Function.update g.toNotify t ds t' = _ ∧ _
      rw [Function.update_of_ne]
      · exact h.early t' hst
      · rintro rfl
        rw [hstage] at hst
        exact hst
    finished := fun t' hst => by
      show Function.update g.toNotify t ds t' = _
      rw [Function.update_of_ne, h.finished t' hst]
      rintro rfl
      rw [hstage] at hst
      cases hst
    unlaunched := fun d' hd' => by
      obtain ⟨hload, hgive, hcases⟩ := h.unlaunched d' hd'
      refine ⟨hload, hgive, fun hlt => ?_⟩
      show 0 < Function.update s.remainingDependencies d rem d' ∨ _
      rcases eq_or_ne d' d with rfl | hd
      · rw [Function.update_self]
        rcases Nat.eq_zero_or_pos rem with hzero | hpos
        · exact .inr (.inr (if_pos hzero))
        · exact .inl hpos
      · rw [Function.update_of_ne hd]
        rcases hcases hlt with hpos | hmem | hdue
        · exact .inl hpos
        · exact .inr (.inl hmem)
        · rw [h.due rfl] at hdue
          cases hdue
    launched := fun d' hd' => by
      obtain ⟨hzero, hlt⟩ := h.launched d' hd'
      refine ⟨?_, hlt⟩
      show Function.update s.remainingDependencies d rem d' = 0
      rw [Function.update_of_ne, hzero]
      rintro rfl
      omega
    flag := nofun
    due := nofun }

theorem Inv.notifyNext (h : Inv m s g none) (hm : m.WellFormed) {t d : ℕ} {ds : List ℕ}
    (hpc : s.threads i = .next (.runner t (d :: ds))) :
    ∃ rem, s.remainingDependencies d = rem + 1 ∧
      ∃ g', Inv m
        (if rem = 0 then RunnerState.launchTask m { s with
            remainingDependencies := Function.update s.remainingDependencies d rem } i d
            (.runner t ds)
        else RunnerState.goto { s with
            remainingDependencies := Function.update s.remainingDependencies d rem } i
            (.next (.runner t ds))) g' none := by
  obtain ⟨⟨hi, hstage, hds⟩, howned⟩ := h.pc hpc
  have hrem : s.remainingDependencies d ≠ 0 := by
    intro hzero
    have := h.toNotify_count hzero t
    rw [hds, List.count_cons_self] at this
    omega
  obtain ⟨rem, hrem⟩ := Nat.exists_eq_succ_of_ne_zero hrem
  have hmem : t ∈ m.sources d := by
    have hcount := h.notifyCount t d
    rw [hds, List.count_cons_self] at hcount
    exact List.count_pos_iff.1 (by omega)
  have hunlaunched : g.stage d = .unlaunched := by
    by_contra hne
    have := (h.launched d hne).1
    omega
  have hd : d < m.tasks.length := by
    by_contra hge
    rw [hm.sources_of_le d (Nat.le_of_not_lt hge)] at hmem
    cases hmem
  have hready : d ∉ g.ready := by
    intro hready
    rw [(h.ready.2 d hready).2.1] at hmem
    cases hmem
  have hnotify := h.notify hstage hds hrem
  refine ⟨rem, hrem, ?_⟩
  by_cases hzero : rem = 0
  · rw [if_pos hzero] at hnotify ⊢
    exact hnotify.launchTask hm hunlaunched hd
      ((Function.update_self d rem s.remainingDependencies).trans hzero) rfl hready
      ⟨hi, hstage, Function.update_self _ _ _⟩ howned
      fun pc => h.flag_other (by rw [hpc]; nofun) pc
  · rw [if_neg hzero] at hnotify ⊢
    exact ⟨_, hnotify.goto rfl ⟨hi, hstage, Function.update_self _ _ _⟩ howned
      (h.flag_other (by rw [hpc]; nofun) _)⟩

/-! ## Taking an input -/

theorem Inv.contents_eq (h : Inv m s g busy) (hm : m.WellFormed) {d src : ℕ} {st : Stage k}
    (hstage : g.stage d = st) (hst : st ≠ .unlaunched) (hsrc : src ∈ g.toGive d) :
    ∃ y, s.contents src = some y ∧ .taskFinished src y ∈ s.events := by
  have hlaunched := h.launched d (by rw [hstage]; exact hst)
  exact (h.kept src (h.not_early hm hlaunched.1 (h.mem_sources hsrc))).2 (h.uses_pos hm hsrc)

theorem Inv.takeLoad (h : Inv m s g none) (hm : m.WellFormed) {d src : ℕ} {ss : List ℕ} {r : Rest}
    (hpc : s.threads i = .takeLoad d src ss r) :
    ∃ y, s.contents src = some y ∧
      ∃ g', Inv m ((s.log (.loaded d src y)).goto i (.takeSub d src (some y) ss r)) g' none := by
  obtain ⟨⟨hstage, hload, hgive, hr⟩, howned⟩ := h.pc hpc
  obtain ⟨y, hcontents, hy⟩ := h.contents_eq hm hstage nofun (hgive ▸ List.mem_cons_self)
  have hlaunched : .launchTask d ∈ s.events := (h.launchEvent d).2 (by rw [hstage]; nofun)
  have hframe : Frame s (s.log (.loaded d src y)) g
      { g with toLoad := Function.update g.toLoad d ss } i := by
    refine .single (t := d) (fun j hj => by rw [hstage]; exact owner_ne hj)
      (fun j hj => by rw [hstage]; exact owner_ne hj) ?_ (fun _ => rfl) (fun _ => id)
      (fun _ he => List.mem_cons_of_mem _ he) rfl
    exact fun t' ht' => ⟨rfl, rfl, Function.update_of_ne ht' _ _, rfl⟩
  have hcore : Inv m (s.log (.loaded d src y)) { g with toLoad := Function.update g.toLoad d ss }
      (some i) :=
    { h with
      loadCount := fun t' d' => by
        have hcount := h.loadCount t' d'
        show loads (.loaded d src y :: s.events) d' t' +
          (Function.update g.toLoad d ss d').count t' = _
        unfold loads at hcount ⊢
        rw [List.countP_cons]
        rcases eq_or_ne d' d with rfl | hd
        · rw [Function.update_self]
          rw [hload, List.count_cons] at hcount
          rcases eq_or_ne src t' with rfl | ht
          · simp only [decide_true, and_self, if_true, beq_self_eq_true] at hcount ⊢
            omega
          · simp only [ht, and_false, decide_false, beq_iff_eq, if_false,
              Bool.false_eq_true] at hcount ⊢
            omega
        · rw [Function.update_of_ne hd]
          simp only [hd.symm, false_and, decide_false, Bool.false_eq_true, if_false]
          exact hcount
      thread := hframe.thread h (.inl rfl)
      owned := hframe.owned h (.inl rfl)
      unlaunched := fun d' hd' => by
        show Function.update g.toLoad d ss d' = _ ∧ _
        rw [Function.update_of_ne]
        · exact h.unlaunched d' hd'
        · rintro rfl
          rw [hstage] at hd'
          cases hd'
      taken := fun d' hd' => by
        show Function.update g.toLoad d ss d' = _ ∧ _
        rw [Function.update_of_ne]
        · exact h.taken d' hd'
        · rintro rfl
          rw [hstage] at hd'
          exact hd'
      loadGive := fun d' t' => by
        show (Function.update g.toLoad d ss d').count t' ≤ _
        rcases eq_or_ne d' d with rfl | hd
        · rw [Function.update_self, hgive]
          exact List.count_le_count_cons
        · rw [Function.update_of_ne hd]
          exact h.loadGive d' t'
      kept := fun t' hst => by
        obtain ⟨⟨y', hy'⟩, hkept⟩ := h.kept t' hst
        refine ⟨⟨y', List.mem_cons_of_mem _ hy'⟩, fun huses => ?_⟩
        obtain ⟨y'', hcontents', hy''⟩ := hkept huses
        exact ⟨y'', hcontents', List.mem_cons_of_mem _ hy''⟩
      flag := nofun
      due := nofun
      justified := ⟨⟨hlaunched, hy⟩, h.justified⟩
      launchEvent := fun d' => by
        rw [← h.launchEvent d']
        exact ⟨fun hmem => (List.mem_cons.1 hmem).resolve_left nofun, List.mem_cons_of_mem _⟩
      finishEvent := fun t' y' hmem =>
        h.finishEvent t' y' ((List.mem_cons.1 hmem).resolve_left nofun) }
  refine ⟨y, hcontents, _, hcore.goto (h.due rfl) ⟨hstage, Function.update_self _ _ _, hgive,
    nofun, ?_⟩ howned (h.flag_other (by rw [hpc]; nofun) _)⟩
  cases r with
  | main ts => exact hr
  | runner t ds => exact hr

theorem Inv.give (h : Inv m s g none) {d src : ℕ} {ss : List ℕ}
    (hstage : g.stage d = .launching i) (hload : g.toLoad d = ss) (hgive : g.toGive d = src :: ss)
    {rem : ℕ} (hrem : s.remainingUses src = rem + 1) :
    Inv m { s with remainingUses := Function.update s.remainingUses src rem }
      { g with
        toGive := Function.update g.toGive d ss
        given := Function.update g.given src (d :: g.given src) } (some i) := by
  have huses : ∀ t, Function.update s.remainingUses src rem t ≤ s.remainingUses t := by
    intro t
    rcases eq_or_ne t src with rfl | ht
    · rw [Function.update_self]
      omega
    · rw [Function.update_of_ne ht]
  have hframe : Frame s { s with remainingUses := Function.update s.remainingUses src rem } g
      { g with
        toGive := Function.update g.toGive d ss
        given := Function.update g.given src (d :: g.given src) } i := by
    refine .single (t := d) (fun j hj => by rw [hstage]; exact owner_ne hj)
      (fun j hj => by rw [hstage]; exact owner_ne hj) ?_ (fun _ => rfl) ?_ (fun _ => id) rfl
    · exact fun t' ht' => ⟨rfl, rfl, rfl, Function.update_of_ne ht' _ _⟩
    · intro t hzero
      exact Nat.le_zero.1 (hzero ▸ huses t)
  exact
  { h with
    giveCount := fun t' d' => by
      have hcount := h.giveCount t' d'
      show (Function.update g.given src _ t').count d' +
        (Function.update g.toGive d ss d').count t' = _
      rcases eq_or_ne t' src with rfl | ht <;> rcases eq_or_ne d' d with rfl | hd
      · rw [hgive, List.count_cons_self] at hcount
        rw [Function.update_self, Function.update_self, List.count_cons_self]
        omega
      · rw [Function.update_self, Function.update_of_ne hd, List.count_cons_of_ne hd.symm]
        exact hcount
      · rw [Function.update_of_ne ht, Function.update_self]
        rw [hgive, List.count_cons_of_ne ht.symm] at hcount
        exact hcount
      · rw [Function.update_of_ne ht, Function.update_of_ne hd]
        exact hcount
    uses := fun t' => by
      have hlen := h.uses t'
      show Function.update s.remainingUses src rem t' +
        (Function.update g.given src _ t').length = _
      rcases eq_or_ne t' src with rfl | ht
      · rw [Function.update_self, Function.update_self, List.length_cons]
        omega
      · rw [Function.update_of_ne ht, Function.update_of_ne ht]
        exact hlen
    thread := hframe.thread h (.inl rfl)
    owned := hframe.owned h (.inl rfl)
    unlaunched := fun d' hd' => by
      show _ ∧ Function.update g.toGive d ss d' = _ ∧ _
      rw [Function.update_of_ne]
      · exact h.unlaunched d' hd'
      · rintro rfl
        rw [hstage] at hd'
        cases hd'
    taken := fun d' hd' => by
      show _ ∧ Function.update g.toGive d ss d' = _
      rw [Function.update_of_ne]
      · exact h.taken d' hd'
      · rintro rfl
        rw [hstage] at hd'
        exact hd'
    loadGive := fun d' t' => by
      show _ ≤ (Function.update g.toGive d ss d').count t'
      rcases eq_or_ne d' d with rfl | hd
      · rw [Function.update_self, hload]
      · rw [Function.update_of_ne hd]
        exact h.loadGive d' t'
    kept := fun t' hst => by
      obtain ⟨hfinished, hkept⟩ := h.kept t' hst
      exact ⟨hfinished, fun hpos => hkept (Nat.lt_of_lt_of_le hpos (huses t'))⟩
    flag := nofun
    due := nofun }

theorem Inv.takeSub (h : Inv m s g none) (hm : m.WellFormed) {d src : ℕ} {y : Option Y}
    {ss : List ℕ} {r : Rest} (hpc : s.threads i = .takeSub d src y ss r) :
    y ≠ none ∧ ∃ rem, s.remainingUses src = rem + 1 ∧
      ∃ g', Inv m
        (if rem = 0 then RunnerState.goto
            { s with remainingUses := Function.update s.remainingUses src rem } i
            (.takeStore d src y ss r)
        else RunnerState.takeInputs
          { s with remainingUses := Function.update s.remainingUses src rem } i d ss r)
        g' none := by
  obtain ⟨⟨hstage, hload, hgive, hy, hr⟩, howned⟩ := h.pc hpc
  have hpos := h.uses_pos hm (hgive ▸ List.mem_cons_self : src ∈ g.toGive d)
  obtain ⟨rem, hrem⟩ := Nat.exists_eq_succ_of_ne_zero hpos.ne'
  have hcore := h.give hstage hload hgive hrem
  have hr' : RestOk { g with
      toGive := Function.update g.toGive d ss
      given := Function.update g.given src (d :: g.given src) } i r := by
    cases r with
    | main ts => exact hr
    | runner t ds => exact hr
  refine ⟨hy, rem, hrem, ?_⟩
  by_cases hzero : rem = 0
  · rw [if_pos hzero]
    refine ⟨_, hcore.goto (h.due rfl) ⟨hstage, hload, Function.update_self _ _ _, hy, ?_, hr'⟩
      howned (h.flag_other (by rw [hpc]; nofun) _)⟩
    exact (Function.update_self src rem s.remainingUses).trans hzero
  · rw [if_neg hzero]
    exact hcore.takeInputs (h.due rfl) hstage hload (Function.update_self _ _ _) hr' howned
      fun pc => h.flag_other (by rw [hpc]; nofun) pc

theorem Inv.takeStore (h : Inv m s g none) (hm : m.WellFormed) {d src : ℕ} {y : Option Y}
    {ss : List ℕ} {r : Rest} (hpc : s.threads i = .takeStore d src y ss r) :
    y ≠ none ∧ ∃ g', Inv m (({ s with
      contents := Function.update s.contents src none }.log (.limitedUseArcFreed src)).takeInputs
        i d ss r) g' none := by
  obtain ⟨⟨hstage, hload, hgive, hy, huses, hr⟩, howned⟩ := h.pc hpc
  have hframe : Frame s ({ s with
      contents := Function.update s.contents src none }.log (.limitedUseArcFreed src)) g g i :=
    { kept := fun _ _ _ _ => ⟨rfl, rfl, rfl, rfl⟩
      back := fun _ _ _ _ => rfl
      ready := fun _ => rfl
      uses := fun _ => id
      events := fun _ he => List.mem_cons_of_mem _ he
      threads := rfl }
  have hlast : Allowed m s.events (.limitedUseArcFreed src) := by
    intro d'
    have hload' := h.loadGive d' src
    rw [h.toGive_count hm huses d'] at hload'
    have := h.loadCount src d'
    omega
  have hcore : Inv m ({ s with
      contents := Function.update s.contents src none }.log (.limitedUseArcFreed src)) g
      (some i) :=
    { h with
      loadCount := fun t' d' => by
        show loads (.limitedUseArcFreed src :: s.events) d' t' + _ = _
        rw [show loads (.limitedUseArcFreed src :: s.events) d' t' = loads s.events d' t' from
          List.countP_cons_of_neg nofun]
        exact h.loadCount t' d'
      thread := hframe.thread h (.inl rfl)
      owned := hframe.owned h (.inl rfl)
      early := fun t' hst => by
        obtain ⟨hnotify, hcontents⟩ := h.early t' hst
        refine ⟨hnotify, ?_⟩
        show Function.update s.contents src none t' = none
        rcases eq_or_ne t' src with rfl | ht
        · exact Function.update_self _ _ _
        · exact (Function.update_of_ne ht _ _).trans hcontents
      kept := fun t' hst => by
        obtain ⟨⟨y', hy'⟩, hkept⟩ := h.kept t' hst
        refine ⟨⟨y', List.mem_cons_of_mem _ hy'⟩, fun hpos => ?_⟩
        obtain ⟨y'', hcontents, hy''⟩ := hkept hpos
        refine ⟨y'', (Function.update_of_ne ?_ _ _).trans hcontents, List.mem_cons_of_mem _ hy''⟩
        rintro rfl
        exact absurd huses hpos.ne'
      flag := nofun
      due := nofun
      justified := ⟨hlast, h.justified⟩
      launchEvent := fun d' => by
        rw [← h.launchEvent d']
        exact ⟨fun hmem => (List.mem_cons.1 hmem).resolve_left nofun, List.mem_cons_of_mem _⟩
      finishEvent := fun t' y' hmem =>
        h.finishEvent t' y' ((List.mem_cons.1 hmem).resolve_left nofun) }
  exact ⟨hy, hcore.takeInputs (h.due rfl) hstage hload hgive hr howned
    fun pc => h.flag_other (by rw [hpc]; nofun) pc⟩

theorem Inv.step (h : Inv m s g none) (hm : m.WellFormed) (c : Choice Y) :
    s.step m i c ≠ .panicked ∧
      ∀ s', s.step m i c = .stepped s' → ∃ g', Inv m s' g' none := by
  unfold RunnerState.step
  cases hpc : s.threads i with
  | idle =>
    cases c with
    | dequeue j =>
      simp only
      cases ht : s.runQueue[j]? with
      | none => exact ⟨nofun, nofun⟩
      | some t =>
        refine ⟨nofun, fun s' hs => ?_⟩
        obtain rfl := Outcome.stepped.inj hs
        exact h.dequeue hpc ht
    | needsCommunication => exact ⟨nofun, nofun⟩
    | finished y => exact ⟨nofun, nofun⟩
  | stepTask t =>
    cases c with
    | dequeue j => exact ⟨nofun, nofun⟩
    | needsCommunication =>
      refine ⟨nofun, fun s' hs => ?_⟩
      obtain rfl := Outcome.stepped.inj hs
      exact h.needsCommunication hpc
    | finished y =>
      refine ⟨nofun, fun s' hs => ?_⟩
      obtain rfl := Outcome.stepped.inj hs
      exact h.finish hpc
  | insertLoad t y =>
    by_cases huses : s.remainingUses t = 0
    · refine ⟨by simp [huses], fun s' hs => ?_⟩
      simp only [huses, if_true] at hs
      obtain rfl := Outcome.stepped.inj hs
      exact h.insertSkip hpc huses
    · refine ⟨by simp [huses], fun s' hs => ?_⟩
      simp only [huses, if_false] at hs
      obtain rfl := Outcome.stepped.inj hs
      exact ⟨g, h.insertLoad hpc⟩
  | insertSwap t y =>
    obtain ⟨hcontents, hinv⟩ := h.insertSwap hpc
    refine ⟨by simp [hcontents], fun s' hs => ?_⟩
    simp only [hcontents, if_true] at hs
    obtain rfl := Outcome.stepped.inj hs
    exact hinv
  | next r =>
    cases r with
    | main ts =>
      cases ts with
      | nil =>
        refine ⟨nofun, fun s' hs => ?_⟩
        obtain rfl := Outcome.stepped.inj hs
        obtain ⟨hok, howned⟩ := h.pc hpc
        exact ⟨g, (h.weaken i).goto (h.due rfl) hok (fun t ht => howned t ht)
          (h.flag_other (by rw [hpc]; nofun) _)⟩
      | cons t ts =>
        obtain ⟨hlt, hinv⟩ := h.launchReady hm hpc
        refine ⟨by simp [hlt], fun s' hs => ?_⟩
        simp only [hlt, if_true] at hs
        obtain rfl := Outcome.stepped.inj hs
        exact hinv
    | runner t ds =>
      cases ds with
      | nil =>
        obtain ⟨rem, hrem, hinv⟩ := h.done hpc
        refine ⟨by simp [hrem], fun s' hs => ?_⟩
        simp only [hrem] at hs
        obtain rfl := Outcome.stepped.inj hs
        exact hinv
      | cons d ds =>
        obtain ⟨rem, hrem, hinv⟩ := h.notifyNext hm hpc
        simp only [hrem]
        by_cases hzero : rem = 0
        · rw [if_pos hzero] at hinv ⊢
          refine ⟨nofun, fun s' hs => ?_⟩
          obtain rfl := Outcome.stepped.inj hs
          exact hinv
        · rw [if_neg hzero] at hinv ⊢
          refine ⟨nofun, fun s' hs => ?_⟩
          obtain rfl := Outcome.stepped.inj hs
          exact hinv
  | takeLoad d src ss r =>
    obtain ⟨y, hcontents, hinv⟩ := h.takeLoad hm hpc
    simp only [hcontents]
    refine ⟨nofun, fun s' hs => ?_⟩
    obtain rfl := Outcome.stepped.inj hs
    exact hinv
  | takeSub d src y ss r =>
    obtain ⟨hy, rem, hrem, hinv⟩ := h.takeSub hm hpc
    obtain ⟨y', rfl⟩ := Option.ne_none_iff_exists'.1 hy
    simp only [hrem]
    by_cases hzero : rem = 0
    · rw [if_pos hzero] at hinv ⊢
      refine ⟨nofun, fun s' hs => ?_⟩
      obtain rfl := Outcome.stepped.inj hs
      exact hinv
    · rw [if_neg hzero] at hinv ⊢
      refine ⟨nofun, fun s' hs => ?_⟩
      obtain rfl := Outcome.stepped.inj hs
      exact hinv
  | takeStore d src y ss r =>
    obtain ⟨hy, hinv⟩ := h.takeStore hm hpc
    obtain ⟨y', rfl⟩ := Option.ne_none_iff_exists'.1 hy
    refine ⟨nofun, fun s' hs => ?_⟩
    obtain rfl := Outcome.stepped.inj hs
    exact hinv
  | setFlag =>
    refine ⟨nofun, fun s' hs => ?_⟩
    obtain rfl := Outcome.stepped.inj hs
    obtain ⟨hok, howned⟩ := h.pc hpc
    have hset : Inv m { s with noTasksRemain := true } g (some i) :=
      { h.weaken i with flag := nofun }
    exact ⟨g, hset.goto (h.due rfl) hok howned fun _ _ => .inl rfl⟩
  | waiting => exact ⟨nofun, nofun⟩

theorem exists_inv_of_reachable (hm : m.WellFormed) (hs : Reachable m s) :
    ∃ g, Inv m s g none := by
  induction hs with
  | init => exact ⟨_, inv_init hm⟩
  | step i c _ hstep ih =>
    obtain ⟨g, hg⟩ := ih
    exact (hg.step hm c).2 _ hstep

theorem Inv.canStep (h : Inv m s g none) (hm : m.WellFormed) (hidle : s.threads i ≠ .idle)
    (hwait : s.threads i ≠ .waiting) : ∃ s', s.step m i .needsCommunication = .stepped s' := by
  have hpanic := (h.step hm (i := i) .needsCommunication).1
  cases hstep : s.step m i .needsCommunication with
  | stepped s' => exact ⟨s', rfl⟩
  | panicked => exact absurd hstep hpanic
  | blocked =>
    exfalso
    unfold RunnerState.step at hstep
    revert hstep
    cases hpc : s.threads i with
    | idle => exact absurd hpc hidle
    | waiting => exact absurd hpc hwait
    | stepTask t => nofun
    | insertLoad t y =>
      simp only
      split <;> nofun
    | insertSwap t y =>
      simp only
      split <;> nofun
    | next r =>
      cases r with
      | main ts =>
        cases ts with
        | nil => nofun
        | cons t ts =>
          simp only
          split <;> nofun
      | runner t ds =>
        cases ds with
        | nil =>
          simp only
          split <;> nofun
        | cons d ds =>
          simp only
          split
          · nofun
          · split <;> nofun
    | takeLoad d src ss r =>
      simp only
      split <;> nofun
    | takeSub d src y ss r =>
      simp only
      split
      · nofun
      · split
        · nofun
        · cases y <;> nofun
    | takeStore d src y ss r => cases y <;> nofun
    | setFlag => nofun

end EdaBitGen.MacNCheese.RunnerState
