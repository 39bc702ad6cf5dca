import EdaBitGen.MacNCheese.WireFormat

/-!
# Unchecked reads

Checked reads are within bounds. A body that has run to its end with checks reads within bounds
without them, on inputs of the same sizes; what is left open is whether the task that has set the
flag had the same prototype and as many inputs.
-/

namespace EdaBitGen.MacNCheese.WireTasks

open WireFormat

/-! ## The loops -/

theorem readArgs_checked (sizes : List ℕ) (args : List (WireSize × WireSize)) :
    ∀ a ∈ (readArgs false sizes args).1, a.InBounds := by
  induction args with
  | nil => exact nofun
  | cons arg args ih =>
    rw [readArgs]
    split
    · exact nofun
    · next h =>
      have hin : inBounds sizes arg.1 arg.2 = true := by simpa using h
      exact List.forall_mem_cons.2 ⟨hin, ih⟩

theorem readArgs_unchecked {sizes : List ℕ} {args : List (WireSize × WireSize)}
    (h : (readArgs false sizes args).2 = true) :
    ∀ a ∈ (readArgs true sizes args).1, a.InBounds := by
  induction args with
  | nil => exact nofun
  | cons arg args ih =>
    rw [readArgs] at h
    split at h
    · cases h
    · next hcheck =>
      have hin : inBounds sizes arg.1 arg.2 = true := by simpa using hcheck
      exact List.forall_mem_cons.2 ⟨hin, ih h⟩

section Simple

variable (inputs : List ℕ) (noutput : ℕ)

theorem simpleWireTaskInner_checked (fails : ℕ → Bool) (out : ℕ)
    (gates : List (Option (List (WireSize × WireSize)))) :
    ∀ a ∈ (simpleWireTaskInner false inputs noutput fails out gates).1, a.InBounds := by
  induction gates generalizing fails out with
  | nil => exact nofun
  | cons gate gates ih =>
    cases gate with
    | none => exact nofun
    | some args =>
      have hargs := readArgs_checked (inputs ++ [out]) args
      rw [simpleWireTaskInner]
      dsimp only
      split
      · exact hargs
      · exact List.forall_mem_append.2 ⟨hargs, ih _ _⟩

theorem simpleWireTaskInner_unchecked {fails : ℕ → Bool} {out result : ℕ}
    {gates : List (Option (List (WireSize × WireSize)))}
    (h : (simpleWireTaskInner false inputs noutput fails out gates).2 = some result)
    (fails' : ℕ → Bool) :
    ∀ a ∈ (simpleWireTaskInner true inputs noutput fails' out gates).1, a.InBounds := by
  induction gates generalizing fails fails' out with
  | nil => exact nofun
  | cons gate gates ih =>
    cases gate with
    | none => exact nofun
    | some args =>
      rw [simpleWireTaskInner] at h
      dsimp only at h
      split at h
      · cases h
      · next hok =>
        have hargs : (readArgs false (inputs ++ [out]) args).2 = true := by
          cases hr : (readArgs false (inputs ++ [out]) args).2 with
          | true => rfl
          | false => simp [hr] at hok
        have hin := readArgs_unchecked hargs
        rw [simpleWireTaskInner]
        dsimp only
        split
        · exact hin
        · exact List.forall_mem_append.2 ⟨hin, ih h _⟩

end Simple

section SimdBatched

variable (inputs : List ℕ) (noutput : ℕ)

theorem accesses_checked {sizes : List ℕ} {chunk : List SimdBatched.ReadWire}
    (h : chunk.all (checkLanes sizes) = true) :
    ∀ a ∈ (SimdBatched.accesses chunk).map fun a => (⟨a.1, a.2, sizes⟩ : Access), a.InBounds := by
  refine List.forall_mem_map.2 fun lane hlane => ?_
  obtain ⟨arg, harg, hlane⟩ := List.mem_flatMap.1 hlane
  have hcheck := List.all_eq_true.1 h arg harg
  rw [checkLanes, Bool.and_eq_true] at hcheck
  have hinput := List.all_eq_true.1 hcheck.1 lane.1 (List.of_mem_zip hlane).1
  have hwire := List.all_eq_true.1 hcheck.2 lane hlane
  have hlt : lane.1.toNat < sizes.length := of_decide_eq_true hinput
  show inBounds sizes lane.1 lane.2 = true
  rw [List.getD_eq_getElem?_getD, List.getElem?_eq_getElem hlt] at hwire
  rw [inBounds, List.getElem?_eq_getElem hlt]
  exact hwire

theorem smallBinaryMacTaskInner_checked (fails : ℕ → Bool) (out : ℕ)
    (chunks : List (List SimdBatched.ReadWire)) :
    ∀ a ∈ (smallBinaryMacTaskInner false inputs noutput fails out chunks).1, a.InBounds := by
  induction chunks generalizing fails out with
  | nil => exact nofun
  | cons chunk chunks ih =>
    rw [smallBinaryMacTaskInner]
    split
    · exact nofun
    · next hcheck =>
      have hall : chunk.all (checkLanes (inputs ++ [out])) = true := by simpa using hcheck
      have hin := accesses_checked hall
      dsimp only
      split
      · exact hin
      · exact List.forall_mem_append.2 ⟨hin, ih _ _⟩

theorem smallBinaryMacTaskInner_unchecked {fails : ℕ → Bool} {out result : ℕ}
    {chunks : List (List SimdBatched.ReadWire)}
    (h : (smallBinaryMacTaskInner false inputs noutput fails out chunks).2 = some result)
    (fails' : ℕ → Bool) :
    ∀ a ∈ (smallBinaryMacTaskInner true inputs noutput fails' out chunks).1, a.InBounds := by
  induction chunks generalizing fails fails' out with
  | nil => exact nofun
  | cons chunk chunks ih =>
    rw [smallBinaryMacTaskInner] at h
    split at h
    · cases h
    · next hcheck =>
      have hall : chunk.all (checkLanes (inputs ++ [out])) = true := by simpa using hcheck
      have hin := accesses_checked hall
      dsimp only at h
      split at h
      · cases h
      · rw [smallBinaryMacTaskInner, if_neg (by simp)]
        dsimp only
        split
        · exact hin
        · exact List.forall_mem_append.2 ⟨hin, ih h _⟩

end SimdBatched

section Body

variable (format : TaskFormat) (p : TaskPrototype) (inputs : List ℕ)

theorem runBody_checked (fails : ℕ → Bool) (otherOut : ℕ) :
    ∀ a ∈ (runBody format p false inputs fails otherOut).1, a.InBounds := by
  cases format with
  | other => exact nofun
  | simple T s nargs noutput =>
    unfold runBody
    dsimp only
    split_ifs
    · exact nofun
    · exact nofun
    · exact simpleWireTaskInner_checked inputs noutput fails 0 _
  | simdBatched nargs noutput =>
    unfold runBody
    dsimp only
    split
    · exact nofun
    · split
      · exact nofun
      · split_ifs
        · exact nofun
        · exact nofun
        · exact smallBinaryMacTaskInner_checked inputs noutput fails 0 _

/-- The prototype passes the checks on inputs of these sizes. -/
def Fits : Prop := ∃ fails otherOut out, (runBody format p false inputs fails otherOut).2 = some out

theorem runBody_unchecked (h : Fits format p inputs) (fails' : ℕ → Bool) (otherOut' : ℕ) :
    ∀ a ∈ (runBody format p true inputs fails' otherOut').1, a.InBounds := by
  obtain ⟨fails, otherOut, out, h⟩ := h
  cases format with
  | other => exact nofun
  | simple T s nargs noutput =>
    unfold runBody at h ⊢
    dsimp only at h ⊢
    split_ifs at h ⊢
    exact simpleWireTaskInner_unchecked inputs noutput h fails'
  | simdBatched nargs noutput =>
    unfold runBody at h ⊢
    dsimp only at h ⊢
    split
    · exact nofun
    · next hout =>
      rw [if_neg hout] at h
      split
      · exact nofun
      · next chunks hchunks =>
        rw [hchunks] at h
        dsimp only at h
        split_ifs at h ⊢
        exact smallBinaryMacTaskInner_unchecked inputs noutput h fails'

end Body

theorem mapM_getElem? {α β : Type} {f : α × ℕ → Option β} {ys : List β} {xs : List α} (k : ℕ)
    {l : List β} (hf : ∀ x i y, f (x, i) = some y → l[i]? = some y)
    (h : (xs.zipIdx k).mapM f = some ys) : ys = (l.drop k).take xs.length := by
  induction xs generalizing k ys with
  | nil =>
    obtain rfl := Option.some.inj (show some [] = some ys by simpa using h)
    rfl
  | cons x xs ih =>
    rw [List.zipIdx_cons, List.mapM_cons] at h
    obtain ⟨y, hy, h⟩ := Option.bind_eq_some_iff.1 h
    obtain ⟨ys', hys, h⟩ := Option.bind_eq_some_iff.1 h
    obtain rfl := Option.some.inj h
    obtain ⟨hlt, hget⟩ := List.getElem?_eq_some_iff.1 (hf x k y hy)
    rw [List.drop_eq_getElem_cons hlt, List.length_cons, List.take_succ_cons, hget,
      ← ih (k + 1) hys]

theorem singleArrayInputs_eq {s : State} {p : TaskPrototype} {task : Task} {inputs : List ℕ}
    (h : singleArrayInputs s p task = some inputs) :
    inputs = p.singleArrayInputs.take task.singleArrayInputs.length := by
  have hinput : ∀ input idx count, singleArrayInput s p input idx = some count →
      p.singleArrayInputs[idx]? = some count := by
    intro input idx count h
    obtain ⟨out, -, h⟩ := Option.bind_eq_some_iff.1 h
    split at h
    · cases h
    · obtain ⟨expected, hexpected, h⟩ := Option.bind_eq_some_iff.1 h
      split at h
      · cases h
      · next heq =>
        split at h
        · cases h
        · obtain rfl := Option.some.inj h
          rw [hexpected, not_not.1 heq]
  exact mapM_getElem? 0 (l := p.singleArrayInputs) hinput h

/-! ## Runs -/

/-- Another task has the same prototype and as many inputs. -/
def SameShape (m : Manifest) (t t' : ℕ) : Prop :=
  ∃ task task', m.tasks[t]? = some task ∧ m.tasks[t']? = some task' ∧
    task'.prototypeId = task.prototypeId ∧
    task'.singleArrayInputs.length = task.singleArrayInputs.length

theorem SameShape.trans {m : Manifest} {t t' t'' : ℕ} (h : SameShape m t t')
    (h' : SameShape m t' t'') : SameShape m t t'' := by
  obtain ⟨task, task', ht, ht', hproto, hlen⟩ := h
  obtain ⟨task₁, task'', ht₁, ht'', hproto', hlen'⟩ := h'
  obtain rfl := Option.some.inj (ht'.symm.trans ht₁)
  exact ⟨task, task'', ht, ht'', hproto'.trans hproto, hlen'.trans hlen⟩

def State.Finished (s : State) (t : ℕ) : Prop := ∃ out, s.phase t = .finished out

/-- When a task starts and the flag of its kind is set, a task with the same prototype and as many
inputs has finished. -/
def Allowed (m : Manifest) (s : State) : Action → Prop
  | .start t => ∀ p, m.prototype t = some p → s.verified p.kindEncoding = true →
    ∃ t', SameShape m t t' ∧ s.Finished t'
  | _ => True

inductive AllowedRun (m : Manifest) : State → Prop
  | init : AllowedRun m .init
  | step {s s' : State} {a : Action} : AllowedRun m s → Allowed m s a → step m s a = some s' →
    AllowedRun m s'

/-- A state that is reached by steps that are allowed. -/
structure AllowedState (m : Manifest) where
  state : State
  run : AllowedRun m state

/-- A task of the same shape has finished in the checked mode. -/
def Justified (m : Manifest) (s : State) (t : ℕ) : Prop :=
  ∃ t', SameShape m t t' ∧ s.Finished t' ∧ s.mode t' = some false

/-- The prototype of a task passes the checks on its inputs. -/
def TaskFits (m : Manifest) (t : ℕ) : Prop :=
  ∃ task p, m.tasks[t]? = some task ∧ m.prototype t = some p ∧
    Fits (m.taskDefinitions p.kindEncoding) p
      (p.singleArrayInputs.take task.singleArrayInputs.length)

theorem SameShape.taskFits {m : Manifest} {t t' : ℕ} (h : SameShape m t t')
    (hfits : TaskFits m t') : TaskFits m t := by
  obtain ⟨task, task', ht, ht', hproto, hlen⟩ := h
  obtain ⟨task₁, p, ht₁, hp, hfits⟩ := hfits
  obtain rfl := Option.some.inj (ht'.symm.trans ht₁)
  refine ⟨task, p, ht, ?_, hlen ▸ hfits⟩
  rw [← hp, Manifest.prototype, Manifest.prototype, ht, ht']
  exact congrArg (fun i => m.prototypes[i]?) hproto.symm

structure Invariant (m : Manifest) (s : State) : Prop where
  inBounds : ∀ a ∈ s.accesses, a.InBounds
  mode_of_ran : ∀ t out, s.phase t = .ran out ∨ s.phase t = .finished out →
    ∃ verified, s.mode t = some verified ∧ (verified = false → TaskFits m t)
  fits : ∀ t, s.mode t = some true → Justified m s t
  justified : ∀ t, s.phase t = .started true → Justified m s t

theorem invariant_init (m : Manifest) : Invariant m .init where
  inBounds := nofun
  mode_of_ran := by
    rintro t out (h | h) <;> cases h
  fits := nofun
  justified := nofun

theorem step_start {m : Manifest} {s s' : State} {t : ℕ} (h : step m s (.start t) = some s') :
    ∃ p, m.prototype t = some p ∧ s.phase t = .waiting ∧
      s' = { s with
        phase := Function.update s.phase t (.started (s.verified p.kindEncoding)) } := by
  obtain ⟨p, hp, h⟩ := Option.bind_eq_some_iff.1 h
  split at h
  · next hphase => exact ⟨p, hp, hphase, (Option.some.inj h).symm⟩
  · cases h

theorem step_body {m : Manifest} {s s' : State} {t : ℕ} {fails : ℕ → Bool} {otherOut : ℕ}
    (h : step m s (.body t fails otherOut) = some s') :
    ∃ task p verified, m.tasks[t]? = some task ∧ m.prototype t = some p ∧
      s.phase t = .started verified ∧
      (s' = { s with phase := Function.update s.phase t .failed } ∨
        ∃ result, result = runBody (m.taskDefinitions p.kindEncoding) p verified
            (p.singleArrayInputs.take task.singleArrayInputs.length) fails otherOut ∧
          s' = { s with
            phase := Function.update s.phase t (result.2.elim .failed .ran)
            mode := Function.update s.mode t (some verified)
            accesses := s.accesses ++ result.1 }) := by
  obtain ⟨task, htask, h⟩ := Option.bind_eq_some_iff.1 h
  obtain ⟨p, hp, h⟩ := Option.bind_eq_some_iff.1 h
  split at h
  · next verified hphase =>
    refine ⟨task, p, verified, htask, hp, hphase, ?_⟩
    split at h
    · exact .inl (Option.some.inj h).symm
    · next inputs hinputs =>
      rw [singleArrayInputs_eq hinputs] at h
      exact .inr ⟨_, rfl, (Option.some.inj h).symm⟩
  · cases h

theorem step_finish {m : Manifest} {s s' : State} {t : ℕ} (h : step m s (.finish t) = some s') :
    ∃ p out phase, m.prototype t = some p ∧ s.phase t = .ran out ∧
      (phase = .finished out ∨ phase = .failed) ∧
      s' = { s with
        phase := Function.update s.phase t phase
        verified := Function.update s.verified p.kindEncoding true } := by
  obtain ⟨p, hp, h⟩ := Option.bind_eq_some_iff.1 h
  split at h
  · next out hphase =>
    dsimp only at h
    split at h
    · exact ⟨p, out, _, hp, hphase, .inl rfl, (Option.some.inj h).symm⟩
    · exact ⟨p, out, _, hp, hphase, .inr rfl, (Option.some.inj h).symm⟩
  · cases h

theorem Justified.mono {m : Manifest} {s s' : State} {t : ℕ} (h : Justified m s t)
    (hkeep : ∀ t', s.Finished t' → s'.Finished t' ∧ s'.mode t' = s.mode t') : Justified m s' t := by
  obtain ⟨t', hshape, hfinished, hmode⟩ := h
  obtain ⟨hfinished', hmode'⟩ := hkeep t' hfinished
  exact ⟨t', hshape, hfinished', hmode'.trans hmode⟩

theorem Invariant.justified_of_finished {m : Manifest} {s : State} (h : Invariant m s) {t t' : ℕ}
    (hshape : SameShape m t t') (hfinished : s.Finished t') : Justified m s t := by
  obtain ⟨out, hout⟩ := hfinished
  obtain ⟨verified, hmode, -⟩ := h.mode_of_ran t' out (.inr hout)
  cases verified with
  | false => exact ⟨t', hshape, ⟨out, hout⟩, hmode⟩
  | true =>
    obtain ⟨t'', hshape', hfinished, hchecked⟩ := h.fits t' hmode
    exact ⟨t'', hshape.trans hshape', hfinished, hchecked⟩

theorem Invariant.taskFits {m : Manifest} {s : State} (h : Invariant m s) {t : ℕ}
    (hjustified : Justified m s t) : TaskFits m t := by
  obtain ⟨t', hshape, ⟨out, hout⟩, hmode⟩ := hjustified
  obtain ⟨verified, hmode', hfits⟩ := h.mode_of_ran t' out (.inr hout)
  obtain rfl := Option.some.inj (hmode.symm.trans hmode')
  exact hshape.taskFits (hfits rfl)

theorem keep_of_ne {s : State} (s' : State) {t : ℕ} (ht : ∀ out, s.phase t ≠ .finished out)
    (hphase : ∀ t' ≠ t, s'.phase t' = s.phase t') (hmode : ∀ t' ≠ t, s'.mode t' = s.mode t') :
    ∀ t', s.Finished t' → s'.Finished t' ∧ s'.mode t' = s.mode t' := by
  rintro t' ⟨out, hout⟩
  have hne : t' ≠ t := by
    rintro rfl
    exact ht out hout
  exact ⟨⟨out, (hphase t' hne).trans hout⟩, hmode t' hne⟩

/-- A step of a task that has not finished keeps the invariant if it does for this task: the others
are as before, and what justifies them stays. -/
theorem Invariant.update {m : Manifest} {s : State} (h : Invariant m s) (s' : State) {t : ℕ}
    (ht : ∀ out, s.phase t ≠ .finished out) (hphase : ∀ t' ≠ t, s'.phase t' = s.phase t')
    (hmode : ∀ t' ≠ t, s'.mode t' = s.mode t') (hreads : ∀ a ∈ s'.accesses, a.InBounds)
    (hran : ∀ out, s'.phase t = .ran out ∨ s'.phase t = .finished out →
      ∃ verified, s'.mode t = some verified ∧ (verified = false → TaskFits m t))
    (hfits : s'.mode t = some true → Justified m s t)
    (hstarted : s'.phase t = .started true → Justified m s t) : Invariant m s' := by
  have hkeep := keep_of_ne s' ht hphase hmode
  refine ⟨hreads, fun t' out hran' => ?_, fun t' hmode' => ?_, fun t' hstarted' => ?_⟩
  · by_cases hne : t' = t
    · subst hne
      exact hran out hran'
    · rw [hphase t' hne] at hran'
      rw [hmode t' hne]
      exact h.mode_of_ran t' out hran'
  · by_cases hne : t' = t
    · subst hne
      exact (hfits hmode').mono hkeep
    · rw [hmode t' hne] at hmode'
      exact (h.fits t' hmode').mono hkeep
  · by_cases hne : t' = t
    · subst hne
      exact (hstarted hstarted').mono hkeep
    · rw [hphase t' hne] at hstarted'
      exact (h.justified t' hstarted').mono hkeep

theorem Invariant.start {m : Manifest} {s s' : State} {t : ℕ} (h : Invariant m s)
    (hallowed : Allowed m s (.start t)) (hstep : step m s (.start t) = some s') :
    Invariant m s' := by
  obtain ⟨p, hp, hphase, rfl⟩ := step_start hstep
  refine h.update _ (fun out hout => by rw [hphase] at hout; cases hout)
    (fun t' hne => Function.update_of_ne hne _ _) (fun t' _ => rfl) h.inBounds
    (fun out hran => ?_) (h.fits t) fun hstarted => ?_
  · dsimp only at hran
    rw [Function.update_self] at hran
    rcases hran with hran | hran <;> cases hran
  · dsimp only at hstarted
    rw [Function.update_self] at hstarted
    obtain ⟨t', hshape, hfinished⟩ := hallowed p hp (Phase.started.inj hstarted)
    exact h.justified_of_finished hshape hfinished

theorem Invariant.body {m : Manifest} {s s' : State} {t : ℕ} {fails : ℕ → Bool} {otherOut : ℕ}
    (h : Invariant m s) (hstep : step m s (.body t fails otherOut) = some s') : Invariant m s' := by
  obtain ⟨task, p, verified, htask, hp, hphase, rfl | ⟨result, hresult, rfl⟩⟩ := step_body hstep
  · refine h.update _ (fun out hout => by rw [hphase] at hout; cases hout)
      (fun t' hne => Function.update_of_ne hne _ _) (fun t' _ => rfl) h.inBounds
      (fun out hran => ?_) (h.fits t) fun hstarted => ?_
    · dsimp only at hran
      rw [Function.update_self] at hran
      rcases hran with hran | hran <;> cases hran
    · dsimp only at hstarted
      rw [Function.update_self] at hstarted
      cases hstarted
  · have hreads : ∀ a ∈ result.1, a.InBounds := by
      rw [hresult]
      cases verified with
      | false => exact runBody_checked _ p _ fails otherOut
      | true =>
        obtain ⟨task', p', htask', hp', hfits⟩ := h.taskFits (h.justified t hphase)
        obtain rfl := Option.some.inj (htask.symm.trans htask')
        obtain rfl := Option.some.inj (hp.symm.trans hp')
        exact runBody_unchecked _ p _ hfits fails otherOut
    refine h.update _ (fun out hout => by rw [hphase] at hout; cases hout)
      (fun t' hne => Function.update_of_ne hne _ _) (fun t' hne => Function.update_of_ne hne _ _)
      (List.forall_mem_append.2 ⟨h.inBounds, hreads⟩) (fun out hran => ?_) (fun hmode => ?_)
      fun hstarted => ?_
    · dsimp only at hran ⊢
      rw [Function.update_self] at hran ⊢
      refine ⟨verified, rfl, fun hverified => ⟨task, p, htask, hp, fails, otherOut, ?_⟩⟩
      subst hverified
      rw [← hresult]
      cases hout : result.2 with
      | none =>
        rw [hout] at hran
        rcases hran with hran | hran <;> cases hran
      | some out' => exact ⟨out', rfl⟩
    · dsimp only at hmode
      rw [Function.update_self] at hmode
      obtain rfl := Option.some.inj hmode
      exact h.justified t hphase
    · dsimp only at hstarted
      rw [Function.update_self] at hstarted
      cases hout : result.2 with
      | none =>
        rw [hout] at hstarted
        cases hstarted
      | some out' =>
        rw [hout] at hstarted
        cases hstarted

theorem Invariant.finish {m : Manifest} {s s' : State} {t : ℕ} (h : Invariant m s)
    (hstep : step m s (.finish t) = some s') : Invariant m s' := by
  obtain ⟨p, out, phase, hp, hphase, hnext, rfl⟩ := step_finish hstep
  refine h.update _ (fun out hout => by rw [hphase] at hout; cases hout)
    (fun t' hne => Function.update_of_ne hne _ _) (fun t' _ => rfl) h.inBounds
    (fun _ _ => h.mode_of_ran t out (.inl hphase)) (h.fits t) fun hstarted => ?_
  dsimp only at hstarted
  rw [Function.update_self] at hstarted
  rcases hnext with rfl | rfl <;> cases hstarted

theorem AllowedRun.invariant {m : Manifest} {s : State} (h : AllowedRun m s) : Invariant m s := by
  induction h with
  | init => exact invariant_init m
  | @step s s' a hrun hallowed hstep ih =>
    cases a with
    | start t => exact ih.start hallowed hstep
    | body t fails otherOut => exact ih.body hstep
    | finish t => exact ih.finish hstep

/-- The states that any steps reach. -/
inductive Run (m : Manifest) : State → Prop
  | init : Run m .init
  | step {s s' : State} {a : Action} : Run m s → step m s a = some s' → Run m s'

def runActions (m : Manifest) : State → List Action → Option State
  | s, [] => some s
  | s, a :: actions => do
    let s ← step m s a
    runActions m s actions

theorem Run.actions {m : Manifest} {s s' : State} (h : Run m s) {actions : List Action}
    (hactions : runActions m s actions = some s') : Run m s' := by
  induction actions generalizing s with
  | nil =>
    obtain rfl := Option.some.inj hactions
    exact h
  | cons a actions ih =>
    obtain ⟨s₁, hstep, hrest⟩ := Option.bind_eq_some_iff.1 hactions
    exact ih (h.step hstep) hrest

def unitSerialize : CanonicalSerialize Unit where
  byteReprLen := 0
  toBytes _ := []
  length_toBytes _ := rfl
  fromBytes _ := some ()
  fromBytes_toBytes _ := rfl

/-- A constant of one value, and two copy prototypes: one of its wire, one of a wire behind it. -/
def twoCopies : Manifest where
  prototypes :=
    [⟨0, [], [1], []⟩,
      ⟨1, [1], [1], toLeBytes 0 ++ toLeBytes 0⟩,
      ⟨1, [1], [1], toLeBytes 0 ++ toLeBytes 5⟩]
  tasks := [⟨0, []⟩, ⟨1, [⟨0, 0, 1⟩]⟩, ⟨2, [⟨0, 0, 1⟩]⟩]
  taskDefinitions kind := if kind = 1 then .simple Unit unitSerialize 1 1 else .other

def oneAfterTheOther : List Action :=
  (List.range 3).flatMap fun t => [.start t, .body t (fun _ => false) 1, .finish t]

end EdaBitGen.MacNCheese.WireTasks
