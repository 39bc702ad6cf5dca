import EdaBitGen.MacNCheese.EventLogReading

/-!
# What the event log tells

The log has the submissions of every thread, in order and with their arguments. The times that the
reader gives them are right exactly when all differences in a chunk are those of its first submission.
-/

namespace EdaBitGen.MacNCheese.EventLog

open LittleEndian EventLogReader

variable {events : DefinedEvents}

/-! ## Times -/

/-- The entries of a thread whose time so far is `time`. -/
def stamp (thread : BitVec 64) : ℕ → List (Record events) → List EventLogEntry
  | _, [] => []
  | time, r :: records => ⟨time + r.1, thread, r.2.body⟩ :: stamp thread (time + r.1) records

theorem addDuration_of_le {time d : ℕ} (h : time + d ≤ durationMax) :
    addDuration time d = .ok (time + d) := if_pos h

theorem addDuration_eq {time d timestamp : ℕ} (h : addDuration time d = .ok timestamp) :
    timestamp = time + d := by
  unfold addDuration at h
  split at h
  · exact (Except.ok.inj h).symm
  · cases h

/-- The records of a thread among the submissions of the log. -/
def recordsOf (thread : BitVec 64) (items : List (Item events)) : List (Record events) :=
  (items.filter (·.thread = thread)).map Item.record

theorem recordsOf_cons_same (item : Item events) (items : List (Item events)) :
    recordsOf item.thread (item :: items) = item.record :: recordsOf item.thread items := by
  simp [recordsOf]

theorem recordsOf_cons_other {thread : BitVec 64} {item : Item events} (h : item.thread ≠ thread)
    (items : List (Item events)) : recordsOf thread (item :: items) = recordsOf thread items := by
  simp [recordsOf, h]

theorem replay_iff (time : BitVec 64 → ℕ) (items : List (Item events))
    (hmax : ∀ t, time t + ((recordsOf t items).map Prod.fst).sum ≤ durationMax) :
    (∃ entries, replay time items = .ok entries ∧
      ∀ t, entries.filter (·.threadId = t) = stamp t (time t) (recordsOf t items)) ↔
    ∀ item ∈ items, item.delta = item.record.1 := by
  induction items generalizing time with
  | nil => exact ⟨fun _ => nofun, fun _ => ⟨[], rfl, fun _ => rfl⟩⟩
  | cons item items ih =>
    have hhead := hmax item.thread
    rw [recordsOf_cons_same, List.map_cons, List.sum_cons] at hhead
    have hrest : ∀ t, Function.update time item.thread (time item.thread + item.record.1) t +
        ((recordsOf t items).map Prod.fst).sum ≤ durationMax := by
      intro t
      by_cases ht : t = item.thread
      · subst ht
        rw [Function.update_self]
        omega
      · have htail := hmax t
        rw [recordsOf_cons_other (Ne.symm ht)] at htail
        rwa [Function.update_of_ne ht]
    have hstep (entries : List EventLogEntry) (timestamp : ℕ) :
        (∀ t, (⟨timestamp, item.thread, item.record.2.body⟩ :: entries).filter (·.threadId = t) =
          stamp t (time t) (recordsOf t (item :: items))) ↔
        timestamp = time item.thread + item.record.1 ∧ ∀ t, entries.filter (·.threadId = t) =
          stamp t (Function.update time item.thread (time item.thread + item.record.1) t)
            (recordsOf t items) := by
      constructor
      · intro h
        have hself := h item.thread
        rw [recordsOf_cons_same, stamp, List.filter_cons_of_pos (by simp)] at hself
        obtain ⟨hentry, htail⟩ := List.cons.inj hself
        refine ⟨congrArg EventLogEntry.timestamp hentry, fun t => ?_⟩
        by_cases ht : t = item.thread
        · subst ht
          rwa [Function.update_self]
        · have hother := h t
          rw [recordsOf_cons_other (Ne.symm ht), List.filter_cons_of_neg (by simpa using Ne.symm ht)]
            at hother
          rwa [Function.update_of_ne ht]
      · rintro ⟨rfl, h⟩ t
        by_cases ht : t = item.thread
        · subst ht
          have hself := h item.thread
          rw [Function.update_self] at hself
          rw [recordsOf_cons_same, stamp, List.filter_cons_of_pos (by simp), hself]
        · have hother := h t
          rw [Function.update_of_ne ht] at hother
          rw [recordsOf_cons_other (Ne.symm ht), List.filter_cons_of_neg (by simpa using Ne.symm ht),
            hother]
    rw [List.forall_mem_cons, ← ih _ hrest]
    constructor
    · rintro ⟨entries, hreplay, h⟩
      rw [replay] at hreplay
      obtain ⟨timestamp, hadd, hreplay⟩ := exists_ok_of_bind hreplay
      obtain ⟨rest, hrest', hreplay⟩ := exists_ok_of_bind hreplay
      cases hreplay
      obtain ⟨htime, htail⟩ := (hstep rest timestamp).1 h
      have hdelta := addDuration_eq hadd
      subst htime
      exact ⟨by omega, rest, hrest', htail⟩
    · rintro ⟨hdelta, rest, hreplay, htail⟩
      refine ⟨⟨time item.thread + item.record.1, item.thread, item.record.2.body⟩ :: rest, ?_,
        (hstep rest _).2 ⟨rfl, htail⟩⟩
      rw [replay, hdelta, addDuration_of_le (by omega), ok_bind, hreplay]
      rfl

/-- Submissions with the nanoseconds since the one before. -/
def differences : Instant → List (Instant × Submission events) → List (Record events)
  | _, [] => []
  | last, s :: submissions => (s.1.val - last.val, s.2) :: differences s.1 submissions

theorem stamp_differences (thread : BitVec 64) (start last : Instant)
    (submissions : List (Instant × Submission events))
    (h : (last :: submissions.map Prod.fst).Pairwise (· ≤ ·)) (hlast : start.val ≤ last.val) :
    stamp thread (last.val - start.val) (differences last submissions) =
      submissions.map fun s => ⟨s.1.val - start.val, thread, s.2.body⟩ := by
  induction submissions generalizing last with
  | nil => rfl
  | cons s submissions ih =>
    obtain ⟨hle, hrest⟩ := List.pairwise_cons.1 h
    have hs : last.val ≤ s.1.val := hle s.1 List.mem_cons_self
    have hsum : last.val - start.val + (s.1.val - last.val) = s.1.val - start.val := by omega
    rw [differences, stamp, hsum, ih s.1 hrest (Nat.le_trans hlast hs)]
    rfl

theorem sum_differences_lt (last : Instant) (submissions : List (Instant × Submission events))
    (h : (last :: submissions.map Prod.fst).Pairwise (· ≤ ·)) :
    last.val + ((differences last submissions).map Prod.fst).sum < 2 ^ 63 * 10 ^ 9 := by
  induction submissions generalizing last with
  | nil => exact last.isLt
  | cons s submissions ih =>
    obtain ⟨hle, hrest⟩ := List.pairwise_cons.1 h
    have hs : last.val ≤ s.1.val := hle s.1 List.mem_cons_self
    have hih := ih s.1 hrest
    rw [differences, List.map_cons, List.sum_cons]
    show last.val + (s.1.val - last.val + _) < _
    omega

theorem flatten_chunksOf (thread : ℕ) (last : Instant) (current : List (Record events))
    (actions : List (Action events)) :
    (chunksOf thread last current actions).flatten =
      current ++ differences last (submitted thread actions) := by
  induction actions generalizing last current with
  | nil => simp [chunksOf, submitted, differences]
  | cons action actions ih =>
    cases action with
    | newThread | beginFlush => exact ih last current
    | submit thread' now submission =>
      rw [chunksOf, submitted]
      split_ifs
      · rw [ih, differences, List.append_assoc]
        rfl
      · exact ih last current
    | flushSource threadId =>
      have hsubmitted : submitted thread (.flushSource threadId :: actions) =
        submitted thread actions := rfl
      rw [chunksOf, hsubmitted]
      split_ifs
      · rw [List.flatten_cons, ih, List.nil_append]
      · exact ih last current

/-! ## The history of a log -/

/-- The chunks written, and for each thread what is not written yet and when it submitted last. -/
structure History (events : DefinedEvents) where
  chunks : List (ℕ × List (Record events))
  pending : ℕ → List (Record events)
  last : ℕ → Instant

/-- The chunks that are written, which is not done when they are empty. -/
def written (chunks : List (List (Record events))) : List (List (Record events)) :=
  chunks.filter fun chunk => !chunk.isEmpty

namespace History

def step (h : History events) : Action events → History events
  | .newThread | .beginFlush => h
  | .submit thread now submission =>
    { h with
      pending := Function.update h.pending thread
        (h.pending thread ++ [(now.val - (h.last thread).val, submission)])
      last := Function.update h.last thread now }
  | .flushSource threadId =>
    { h with
      chunks := h.chunks ++ (written [h.pending threadId]).map fun chunk => (threadId, chunk)
      pending := Function.update h.pending threadId [] }

/-- The chunks of a thread, with the one to come. -/
def chunksOf (h : History events) (thread : ℕ) : List (List (Record events)) :=
  (h.chunks.filter (·.1 = thread)).map Prod.snd ++ written [h.pending thread]

theorem chunksOf_flushSource (h : History events) (threadId thread : ℕ) :
    (h.step (.flushSource threadId)).chunksOf thread = h.chunksOf thread := by
  rw [chunksOf, chunksOf, step, List.filter_append, List.map_append, List.append_assoc]
  refine congrArg _ ?_
  dsimp only
  by_cases ht : thread = threadId
  · subst ht
    rw [Function.update_self]
    cases hpending : h.pending thread <;> simp [written]
  · rw [Function.update_of_ne ht, List.filter_eq_nil_iff.2, List.map_nil, List.nil_append]
    intro chunk hchunk
    obtain ⟨c, -, rfl⟩ := List.mem_map.1 hchunk
    simpa using Ne.symm ht

theorem chunksOf_foldl (h : History events) (actions : List (Action events)) (thread : ℕ) :
    (actions.foldl step h).chunksOf thread =
      (h.chunks.filter (·.1 = thread)).map Prod.snd ++
        written (EventLog.chunksOf thread (h.last thread) (h.pending thread) actions) := by
  induction actions generalizing h with
  | nil => rfl
  | cons action actions ih =>
    rw [List.foldl_cons, ih]
    cases action with
    | newThread | beginFlush => rfl
    | submit thread' now submission =>
      refine congrArg _ (congrArg written ?_)
      rw [EventLog.chunksOf]
      by_cases ht : thread' = thread
      · subst ht
        rw [if_pos rfl, step]
        dsimp only
        rw [Function.update_self, Function.update_self]
      · rw [if_neg ht, step]
        dsimp only
        rw [Function.update_of_ne (Ne.symm ht), Function.update_of_ne (Ne.symm ht)]
    | flushSource threadId =>
      rw [EventLog.chunksOf]
      by_cases ht : threadId = thread
      · subst ht
        rw [if_pos rfl, step]
        dsimp only
        rw [Function.update_self, List.filter_append, List.map_append, List.append_assoc]
        refine congrArg _ ?_
        cases hpending : h.pending threadId <;> simp [written]
      · rw [if_neg ht, step]
        dsimp only
        rw [Function.update_of_ne (Ne.symm ht), List.filter_append, List.map_append,
          List.append_assoc]
        refine congrArg _ ?_
        rw [List.filter_eq_nil_iff.2, List.map_nil, List.nil_append]
        intro chunk hchunk
        obtain ⟨c, -, rfl⟩ := List.mem_map.1 hchunk
        simpa using ht

end History

/-! ## The writer follows the history -/

/-- The chunk of a thread with the number that is written before it. -/
def numbered (chunk : ℕ × List (Record events)) : BitVec 64 × List (Record events) :=
  (BitVec.ofNat 64 chunk.1, chunk.2)

/-- A log that was opened with `header` and has the history `h`. -/
structure Logged (start : Instant) (header : Bytes) (s : LogState) (h : History events) : Prop where
  start_eq : s.systemStart = start
  thread_eq : ∀ (i : ℕ) (tl : ThreadLocal), s.threads[i]? = some tl →
    tl.dst = chunkWords (h.pending i) ∧ tl.lastTimestamp = h.last i ∧ 4 * tl.dst.length ≤ isizeMax
  absent : ∀ i, s.threads.length ≤ i → h.pending i = [] ∧ h.last i = start
  sources_eq : s.sources ++ s.newBuffers = List.range s.threads.length
  sources_fit : 8 * s.sources.length ≤ isizeMax
  dst_eq : s.dst = header ++ (h.chunks.map numbered).flatMap chunkBytes
  chunks_fit : ∀ chunk ∈ h.chunks, chunk.1 < 2 ^ 64 ∧ chunk.2 ≠ [] ∧
    (chunkWords chunk.2).length < 2 ^ 64

namespace Logged

variable {start : Instant} {header : Bytes} {s s' : LogState} {h : History events}

theorem reserve_eq {size len : ℕ} {u : Unit} (h : reserve size len = some u) :
    size * len ≤ isizeMax := by
  unfold reserve at h
  split at h
  · assumption
  · cases h

theorem newThread (hs : Logged start header s h) :
    Logged start header s.newThread (h.step .newThread) := by
  obtain ⟨hpending, hlast⟩ := hs.absent s.threads.length (Nat.le_refl _)
  refine ⟨hs.start_eq, fun i tl htl => ?_, fun i hi => hs.absent i ?_, ?_, hs.sources_fit, hs.dst_eq,
    hs.chunks_fit⟩
  · rcases Nat.lt_trichotomy i s.threads.length with hlt | rfl | hgt
    · rw [LogState.newThread, List.getElem?_append_left hlt] at htl
      exact hs.thread_eq i tl htl
    · rw [LogState.newThread, List.getElem?_append_right (Nat.le_refl _), Nat.sub_self] at htl
      obtain rfl := Option.some.inj htl
      refine ⟨?_, ?_, Nat.zero_le _⟩
      · show [] = chunkWords (h.pending _)
        rw [hpending]
        rfl
      · exact hs.start_eq.trans hlast.symm
    · have hnone : s.newThread.threads[i]? = none :=
        List.getElem?_eq_none (by rw [LogState.newThread, List.length_append]; exact hgt)
      rw [hnone] at htl
      cases htl
  · rw [LogState.newThread, List.length_append] at hi
    exact Nat.le_of_succ_le hi
  · show s.sources ++ (s.newBuffers ++ [s.threads.length]) = List.range (s.threads ++ [_]).length
    rw [← List.append_assoc, hs.sources_eq, List.length_append, List.length_singleton,
      List.range_succ]

theorem submit_words {tl tl' : ThreadLocal} {now : Instant} {submission : Submission events}
    {eventId : BitVec 64} (h : tl.submit now submission = some (eventId, tl')) :
    4 * (tl.dst.length + (2 + submission.words.length)) ≤ isizeMax ∧
    tl' = ⟨now, tl.nextEventId + 1, tl.dst ++
      encodeU64 (BitVec.ofNat 64 (now.val - tl.lastTimestamp.val)) ++ submission.words⟩ := by
  have hraw : tl.submitRaw now submission.words = some (eventId, tl') := by
    cases submission <;> exact h
  obtain ⟨u, hreserve, hdone⟩ := Option.bind_eq_some_iff.1 hraw
  exact ⟨reserve_eq hreserve, (Prod.mk.inj (Option.some.inj hdone)).2.symm⟩

theorem submit (hs : Logged start header s h) {thread : ℕ} {now : Instant}
    {submission : Submission events} (hsubmit : s.submit thread now submission = some s') :
    Logged start header s' (h.step (.submit thread now submission)) := by
  obtain ⟨tl, htl, hsubmit⟩ := Option.bind_eq_some_iff.1 hsubmit
  obtain ⟨⟨eventId, tl'⟩, htl', hdone⟩ := Option.bind_eq_some_iff.1 hsubmit
  obtain rfl := Option.some.inj hdone
  obtain ⟨hfits, rfl⟩ := submit_words htl'
  obtain ⟨hdst, hlast, -⟩ := hs.thread_eq thread tl htl
  have hlt : thread < s.threads.length := (List.getElem?_eq_some_iff.1 htl).1
  refine ⟨hs.start_eq, fun i tl₂ htl₂ => ?_, fun i hi => ?_, ?_, hs.sources_fit, hs.dst_eq,
    hs.chunks_fit⟩
  · by_cases hi : i = thread
    · subst hi
      replace htl₂ : (s.threads.set i _)[i]? = some tl₂ := htl₂
      rw [List.getElem?_set_self hlt] at htl₂
      obtain rfl := Option.some.inj htl₂
      refine ⟨?_, ?_, ?_⟩
      · show tl.dst ++ _ ++ submission.words = chunkWords (Function.update h.pending i _ i)
        rw [Function.update_self, chunkWords, List.flatMap_append, hdst, hlast, List.append_assoc]
        rw [List.flatMap_singleton]
        rfl
      · show now = Function.update h.last i now i
        rw [Function.update_self]
      · show 4 * (tl.dst ++ _ ++ submission.words).length ≤ isizeMax
        rw [List.length_append, List.length_append, length_encodeU64, Nat.add_assoc]
        exact hfits
    · replace htl₂ : (s.threads.set thread _)[i]? = some tl₂ := htl₂
      rw [List.getElem?_set_ne (Ne.symm hi)] at htl₂
      have hold := hs.thread_eq i tl₂ htl₂
      show _ = chunkWords (Function.update h.pending thread _ i) ∧
        _ = Function.update h.last thread now i ∧ _
      rwa [Function.update_of_ne hi, Function.update_of_ne hi]
  · replace hi : (s.threads.set thread _).length ≤ i := hi
    rw [List.length_set] at hi
    show Function.update h.pending thread _ i = [] ∧ Function.update h.last thread now i = start
    rw [Function.update_of_ne (by omega), Function.update_of_ne (by omega)]
    exact hs.absent i hi
  · show s.sources ++ s.newBuffers = List.range (s.threads.set thread _).length
    rw [List.length_set, hs.sources_eq]

theorem beginFlush (hs : Logged start header s h) (hbegin : s.beginFlush = some s') :
    Logged start header s' (h.step .beginFlush) ∧ s'.sources = List.range s'.threads.length := by
  obtain ⟨u, -, hbegin⟩ := Option.bind_eq_some_iff.1 hbegin
  obtain ⟨u, hsources, hbegin⟩ := Option.bind_eq_some_iff.1 hbegin
  obtain ⟨u, -, hdone⟩ := Option.bind_eq_some_iff.1 hbegin
  obtain rfl := Option.some.inj hdone
  refine ⟨⟨hs.start_eq, hs.thread_eq, hs.absent, ?_, reserve_eq hsources, hs.dst_eq, hs.chunks_fit⟩,
    hs.sources_eq⟩
  show (s.sources ++ s.newBuffers) ++ [] = _
  rw [List.append_nil, hs.sources_eq]

theorem source_eq (hs : Logged start header s h) {threadId source : ℕ}
    (hsource : s.sources[threadId]? = some source) : source = threadId := by
  have hlt := (List.getElem?_eq_some_iff.1 hsource).1
  have hrange : (s.sources ++ s.newBuffers)[threadId]? = some source := by
    rw [List.getElem?_append_left hlt, hsource]
  rw [hs.sources_eq] at hrange
  obtain ⟨hlen, hget⟩ := List.getElem?_eq_some_iff.1 hrange
  rw [← hget, List.getElem_range]

theorem thread_eq_emptied (hs : Logged start header s h) {source : ℕ} {tl : ThreadLocal}
    (htl : s.threads[source]? = some tl) (i : ℕ) (tl₂ : ThreadLocal)
    (htl₂ : (s.threads.set source { tl with dst := [] })[i]? = some tl₂) :
    tl₂.dst = chunkWords (Function.update h.pending source [] i) ∧ tl₂.lastTimestamp = h.last i ∧
      4 * tl₂.dst.length ≤ isizeMax := by
  by_cases hi : i = source
  · subst hi
    rw [List.getElem?_set_self (List.getElem?_eq_some_iff.1 htl).1] at htl₂
    obtain rfl := Option.some.inj htl₂
    rw [Function.update_self]
    exact ⟨rfl, (hs.thread_eq i tl htl).2.1, Nat.zero_le _⟩
  · rw [List.getElem?_set_ne (Ne.symm hi)] at htl₂
    rw [Function.update_of_ne hi]
    exact hs.thread_eq i tl₂ htl₂

theorem absent_emptied (hs : Logged start header s h) {source : ℕ} {tl : ThreadLocal}
    (htl : s.threads[source]? = some tl) (i : ℕ)
    (hi : (s.threads.set source { tl with dst := [] }).length ≤ i) :
    Function.update h.pending source [] i = [] ∧ h.last i = start := by
  have hthread := (List.getElem?_eq_some_iff.1 htl).1
  rw [List.length_set] at hi
  rw [Function.update_of_ne (by omega)]
  exact hs.absent i hi

theorem flushSource (hs : Logged start header s h) {threadId : ℕ}
    (hflush : s.flushSource threadId = some s') :
    Logged start header s' (h.step (.flushSource threadId)) ∧ s'.sources = s.sources ∧
      s'.threads.length = s.threads.length := by
  obtain ⟨u, -, hflush⟩ := Option.bind_eq_some_iff.1 hflush
  obtain ⟨source, hsource, hflush⟩ := Option.bind_eq_some_iff.1 hflush
  obtain ⟨tl, htl, hflush⟩ := Option.bind_eq_some_iff.1 hflush
  have hlt : threadId < s.sources.length := (List.getElem?_eq_some_iff.1 hsource).1
  obtain rfl := hs.source_eq hsource
  obtain ⟨hdst, -, hfits⟩ := hs.thread_eq source tl htl
  have hid : source < 2 ^ 64 := by
    have hsize := hs.sources_fit
    unfold isizeMax at hsize
    omega
  have hsources : s.sources ++ s.newBuffers =
      List.range (s.threads.set source { tl with dst := [] }).length := by
    rw [List.length_set, hs.sources_eq]
  cases hpending : h.pending source with
  | nil =>
    have hempty : tl.dst = [] := by rw [hdst, hpending]; rfl
    rw [hempty] at hflush
    obtain rfl := Option.some.inj hflush
    refine ⟨⟨hs.start_eq, hs.thread_eq_emptied htl, hs.absent_emptied htl, hsources,
      hs.sources_fit, ?_, ?_⟩, rfl, List.length_set⟩
    · show s.dst = header ++ ((h.chunks ++ (written [h.pending source]).map _).map numbered).flatMap
        chunkBytes
      rw [hpending]
      exact hs.dst_eq.trans (by simp [written])
    · show ∀ chunk ∈ h.chunks ++ (written [h.pending source]).map _, _
      rw [hpending]
      simpa [written] using hs.chunks_fit
  | cons r pending =>
    have hne : tl.dst.isEmpty = false := by
      rw [hdst, hpending, chunkWords_cons]
      rfl
    dsimp only at hflush
    rw [hne, if_neg (by decide)] at hflush
    obtain rfl := Option.some.inj hflush
    refine ⟨⟨hs.start_eq, hs.thread_eq_emptied htl, hs.absent_emptied htl, hsources,
      hs.sources_fit, ?_, ?_⟩, rfl, List.length_set⟩
    · show s.dst ++ _ ++ _ ++ _ = header ++ ((h.chunks ++ (written [h.pending source]).map _).map
        numbered).flatMap chunkBytes
      rw [hs.dst_eq, hdst, hpending]
      simp [written, numbered, chunkBytes]
    · show ∀ chunk ∈ h.chunks ++ (written [h.pending source]).map fun chunk => (source, chunk), _
      rw [hpending]
      refine List.forall_mem_append.2 ⟨hs.chunks_fit, ?_⟩
      intro chunk hchunk
      obtain rfl : chunk = (source, r :: pending) := by simpa [written] using hchunk
      refine ⟨hid, List.cons_ne_nil _ _, ?_⟩
      rw [hdst, hpending] at hfits
      unfold isizeMax at hfits
      show (chunkWords (r :: pending)).length < 2 ^ 64
      omega

theorem step (hs : Logged start header s h) {action : Action events}
    (hstep : s.step action = some s') :
    Logged start header s' (h.step action) := by
  cases action with
  | newThread =>
    obtain rfl := Option.some.inj hstep
    exact hs.newThread
  | submit thread now submission => exact hs.submit hstep
  | beginFlush => exact (hs.beginFlush hstep).1
  | flushSource threadId => exact (hs.flushSource hstep).1

theorem run (hs : Logged start header s h) {actions : List (Action events)}
    (hrun : actions.foldlM LogState.step s = some s') :
    Logged start header s' (actions.foldl History.step h) := by
  induction actions generalizing s h with
  | nil =>
    obtain rfl := Option.some.inj hrun
    exact hs
  | cons action actions ih =>
    rw [List.foldlM_cons] at hrun
    obtain ⟨s₁, hstep, hrest⟩ := Option.bind_eq_some_iff.1 hrun
    exact ih (hs.step hstep) hrest

theorem flushSources (hs : Logged start header s h) {ids : List ℕ}
    (hflush : ids.foldlM LogState.flushSource s = some s') :
    ∃ h' : History events, Logged start header s' h' ∧ (∀ t, h'.chunksOf t = h.chunksOf t) ∧
      s'.threads.length = s.threads.length ∧
      ∀ t, h'.pending t = if t ∈ ids then [] else h.pending t := by
  induction ids generalizing s h with
  | nil =>
    obtain rfl := Option.some.inj hflush
    exact ⟨h, hs, fun _ => rfl, rfl, fun _ => rfl⟩
  | cons id ids ih =>
    rw [List.foldlM_cons] at hflush
    obtain ⟨s₁, hsource, hrest⟩ := Option.bind_eq_some_iff.1 hflush
    obtain ⟨hs₁, -, hlength⟩ := hs.flushSource hsource
    obtain ⟨h', hs', hchunks, hlength', hpending⟩ := ih hs₁ hrest
    refine ⟨h', hs', fun t => (hchunks t).trans (h.chunksOf_flushSource id t), hlength'.trans hlength,
      fun t => ?_⟩
    rw [hpending]
    show (if t ∈ ids then [] else Function.update h.pending id [] t) = _
    rw [Function.update_apply]
    by_cases hid : t = id <;> by_cases hids : t ∈ ids <;> simp [hid, hids]

theorem close (hs : Logged start header s h) {file : Bytes} (hclose : s.closeEventLog = some file) :
    ∃ chunks : List (ℕ × List (Record events)),
      file = header ++ (chunks.map numbered).flatMap chunkBytes ∧
      (∀ chunk ∈ chunks, chunk.1 < 2 ^ 64 ∧ chunk.2 ≠ [] ∧ (chunkWords chunk.2).length < 2 ^ 64) ∧
      ∀ t, (chunks.filter (·.1 = t)).map Prod.snd = h.chunksOf t := by
  obtain ⟨s', hflush, hdone⟩ := Option.bind_eq_some_iff.1 hclose
  obtain rfl := Option.some.inj hdone
  obtain ⟨s₁, hbegin, hall⟩ := Option.bind_eq_some_iff.1 hflush
  obtain ⟨hs₁, hsources⟩ := hs.beginFlush hbegin
  obtain ⟨h', hs', hchunks, hlength, hpending⟩ := hs₁.flushSources hall
  refine ⟨h'.chunks, hs'.dst_eq, hs'.chunks_fit, fun t => ?_⟩
  have hempty : h'.pending t = [] := by
    rw [hpending, hsources, List.length_range]
    split_ifs with hmem
    · rfl
    · exact (hs₁.absent t (Nat.le_of_not_lt fun hlt => hmem (List.mem_range.2 hlt))).1
  have htotal := hchunks t
  rw [History.chunksOf, hempty] at htotal
  exact (List.append_nil _).symm.trans htotal

end Logged

/-! ## The round trip -/

section

variable {cbor : Ciborium} {systemStart : Instant} {unixMillis : BitVec 64}
  {actions : List (Action events)} {file : Bytes}

/-- The log is written in the chunks of its threads, and a reader that opens it has them all to
yield. -/
theorem open_write (h : write cbor events systemStart unixMillis actions = some file) :
    ∃ (reader : EventLogReader) (chunks : List (ℕ × List (Record events))),
      EventLogReader.openInner cbor file = .ok reader ∧ reader.schema = events.schema ∧
      At reader (fun _ => 0) ((chunks.map numbered).flatMap chunkItems) ∧
      (∀ chunk ∈ chunks, chunk.1 < 2 ^ 64) ∧
      ∀ t, (chunks.filter (·.1 = t)).map Prod.snd = written (chunksOf t systemStart [] actions) := by
  obtain ⟨s₀, hopen, h⟩ := Option.bind_eq_some_iff.1 h
  obtain ⟨s, hrun, hclose⟩ := Option.bind_eq_some_iff.1 h
  obtain ⟨metadata, hmetadata, hdone⟩ := Option.bind_eq_some_iff.1 hopen
  obtain rfl := Option.some.inj hdone
  obtain ⟨hschema, hfits⟩ := cbor.fromReader_intoWriter _ _ hmetadata
  set header := limbs 8 8 (BitVec.ofNat 64 metadata.length) ++ metadata ++ limbs 8 8 unixMillis
    with hheader
  have hempty : @Logged events systemStart header ⟨systemStart, [], [], [], 0, header⟩
      ⟨[], fun _ => [], fun _ => systemStart⟩ := by
    refine ⟨rfl, nofun, fun _ _ => ⟨rfl, rfl⟩, rfl, Nat.zero_le _, ?_, nofun⟩
    exact (List.append_nil _).symm
  obtain ⟨chunks, rfl, hchunks, hthreads⟩ := (hempty.run hrun).close hclose
  have hread : EventLogReader.openInner cbor (header ++ (chunks.map numbered).flatMap chunkBytes) =
      .ok ⟨(chunks.map numbered).flatMap chunkBytes, events.schema, 0, [], 0, []⟩ := by
    have hnum : (ofLimbs 64 (limbs 8 8 (BitVec.ofNat 64 metadata.length))).toNat = metadata.length := by
      unfold isizeMax at hfits
      rw [ofLimbs_limbs (by decide) (by decide), BitVec.toNat_ofNat, Nat.mod_eq_of_lt (by omega)]
    rw [hheader, List.append_assoc, List.append_assoc, openInner, readExact_limbs, ok_bind]
    dsimp only
    rw [hnum, readExact_append, ok_bind]
    dsimp only
    rw [hschema, context, ok_bind, readExact_limbs]
    rfl
  refine ⟨_, chunks, hread, rfl, ⟨0, [], chunks.map numbered, ?_, rfl⟩, fun c hc => (hchunks c hc).1,
    fun t => ?_⟩
  · refine ⟨rfl, ⟨[], rfl, rfl⟩, fun hne => absurd rfl hne, fun hne => absurd rfl hne, fun _ => rfl,
      rfl, ?_⟩
    exact List.forall_mem_map.2 fun chunk hchunk => (hchunks chunk hchunk).2
  · rw [hthreads, History.chunksOf_foldl]
    rfl

theorem recordsOf_chunks (chunks : List (ℕ × List (Record events)))
    (hfit : ∀ chunk ∈ chunks, chunk.1 < 2 ^ 64) (t : BitVec 64) :
    recordsOf t ((chunks.map numbered).flatMap chunkItems) =
      ((chunks.filter (·.1 = t.toNat)).map Prod.snd).flatten := by
  induction chunks with
  | nil => rfl
  | cons chunk chunks ih =>
    obtain ⟨hhead, htail⟩ := List.forall_mem_cons.1 hfit
    have hmap (items : List (Item events)) : recordsOf t (chunkItems (numbered chunk) ++ items) =
        (if chunk.1 = t.toNat then chunk.2 else []) ++ recordsOf t items := by
      have hid : (numbered chunk).1 = t ↔ chunk.1 = t.toNat := by
        rw [numbered, ← BitVec.toNat_inj, BitVec.toNat_ofNat, Nat.mod_eq_of_lt hhead]
      rw [recordsOf, recordsOf, List.filter_append, List.map_append, chunkItems, List.filter_map,
        List.map_map]
      refine congrArg (· ++ _) ?_
      split_ifs with h
      · rw [List.filter_eq_self.2 fun r _ => by simpa using hid.2 h]
        exact List.map_id _
      · rw [List.filter_eq_nil_iff.2 fun r _ => by simpa using fun he => h (hid.1 he)]
        rfl
    rw [List.map_cons, List.flatMap_cons, hmap, ih htail]
    by_cases h : chunk.1 = t.toNat <;> simp [h]

theorem mem_written {chunks : List (List (Record events))} {chunk : List (Record events)} :
    chunk ∈ written chunks ↔ chunk ∈ chunks ∧ chunk ≠ [] := by
  rw [written, List.mem_filter]
  simp

theorem flatten_written (chunks : List (List (Record events))) :
    (written chunks).flatten = chunks.flatten := by
  induction chunks with
  | nil => rfl
  | cons chunk chunks ih => cases chunk <;> simp [written] at ih ⊢ <;> simp [ih]

theorem recordsOf_write {chunks : List (ℕ × List (Record events))}
    (hfit : ∀ chunk ∈ chunks, chunk.1 < 2 ^ 64)
    (hchunks : ∀ t, (chunks.filter (·.1 = t)).map Prod.snd = written (chunksOf t systemStart [] actions))
    (t : BitVec 64) : recordsOf t ((chunks.map numbered).flatMap chunkItems) =
      differences systemStart (submitted t.toNat actions) := by
  rw [recordsOf_chunks chunks hfit, hchunks, flatten_written, flatten_chunksOf, List.nil_append]

theorem delta_eq_iff (chunk : List (Record events)) :
    (∀ r ∈ chunk, delta chunk = r.1) ↔ Uniform chunk := by
  cases chunk with
  | nil => exact ⟨fun _ => nofun, fun _ => nofun⟩
  | cons first rest =>
    have hdelta : delta (first :: rest) = first.1 % 2 ^ 64 := rfl
    constructor
    · intro h r hr
      have hfirst := h first List.mem_cons_self
      have hr := h r hr
      refine ⟨?_, fun first' hfirst' => ?_⟩
      · rw [← hr, hdelta]
        exact Nat.mod_lt _ (by decide)
      · obtain rfl := Option.some.inj hfirst'
        exact hr.symm.trans hfirst
    · intro h r hr
      obtain ⟨hlt, hfirst⟩ := h r hr
      rw [hdelta, ← hfirst first rfl, Nat.mod_eq_of_lt hlt]

end

/-! ## A log of ticks -/

/-- A schema with one event that has no arguments. -/
def tick : DefinedEvents := ⟨⟨[⟨"Tick", .oneOff, []⟩]⟩, by decide⟩

/-- The bytes of its schema. -/
def tickMetadata : Bytes :=
  [0xa1, 0x66, 0x65, 0x76, 0x65, 0x6e, 0x74, 0x73, 0x81, 0xa3, 0x64, 0x6e, 0x61, 0x6d, 0x65, 0x64, 0x54,
    0x69, 0x63, 0x6b, 0x64, 0x6b, 0x69, 0x6e, 0x64, 0x66, 0x4f, 0x6e, 0x65, 0x4f, 0x66, 0x66, 0x64, 0x61,
    0x72, 0x67, 0x73, 0x80]

def tickCbor : Ciborium where
  intoWriter schema := if schema = tick.schema then some tickMetadata else none
  fromReader metadata := if metadata = tickMetadata then some tick.schema else none
  fromReader_intoWriter := by
    intro schema metadata h
    split at h
    · obtain rfl := Option.some.inj h
      subst schema
      exact ⟨rfl, by decide⟩
    · cases h

/-- Ticks of one thread at the given times. -/
def ticks (times : List Instant) : List (Action tick) :=
  .newThread :: times.map fun now => .submit 0 now (.event ⟨0, by decide⟩ [] rfl)

def ticksFile (times : List Instant) : Bytes := (write tickCbor tick 0 0 (ticks times)).getD []

theorem submitted_ticks (times : List Instant) (thread : ℕ) (hthread : thread ≠ 0) :
    submitted thread (ticks times) = [] := by
  show submitted thread (times.map _) = []
  induction times with
  | nil => rfl
  | cons now times ih =>
    rw [List.map_cons, submitted, if_neg hthread.symm, ih]

theorem nonDecreasing_ticks {times : List Instant}
    (h : ((0 : Instant) :: (submitted 0 (ticks times)).map Prod.fst).Pairwise (· ≤ ·)) :
    NonDecreasing 0 (ticks times) := by
  intro thread
  by_cases ht : thread = 0
  · subst ht
    exact h
  · rw [submitted_ticks times thread ht]
    exact List.pairwise_singleton _ _

/-- The reader gives back what the threads submitted, with its times, exactly when in each chunk every
submission is as long after the one before as the first. -/
theorem roundTrip_iff {cbor : Ciborium} {systemStart : Instant} {unixMillis : BitVec 64}
    {actions : List (Action events)} {file : Bytes} (hdecreasing : NonDecreasing systemStart actions)
    (hwritten : write cbor events systemStart unixMillis actions = some file) :
    RoundTrip cbor systemStart actions file ↔
      ∀ thread, ∀ chunk ∈ chunksOf thread systemStart [] actions, Uniform chunk := by
  obtain ⟨reader, chunks, hopen, hschema, hat, hfit, hchunks⟩ := open_write hwritten
  set items := (chunks.map numbered).flatMap chunkItems with hitems
  have hrecords (t : BitVec 64) :
      recordsOf t items = differences systemStart (submitted t.toNat actions) :=
    recordsOf_write hfit hchunks t
  have hexpected (t : BitVec 64) : stamp t 0 (recordsOf t items) =
      (submitted t.toNat actions).map fun s => ⟨s.1.val - systemStart.val, t, s.2.body⟩ := by
    have hstamp := stamp_differences t systemStart systemStart _ (hdecreasing t.toNat) (Nat.le_refl _)
    rw [Nat.sub_self] at hstamp
    rw [hrecords, hstamp]
  have hmax : ∀ t : BitVec 64, 0 + ((recordsOf t items).map Prod.fst).sum ≤ durationMax := by
    intro t
    have hsum := sum_differences_lt systemStart _ (hdecreasing t.toNat)
    rw [hrecords]
    unfold durationMax
    omega
  have hread : RoundTrip cbor systemStart actions file ↔
      ∃ entries, replay (fun _ => 0) items = .ok entries ∧
        ∀ t, entries.filter (·.threadId = t) = stamp t 0 (recordsOf t items) := by
    constructor
    · rintro ⟨reader', entries, hopen', -, hyields, hentries⟩
      obtain rfl := Except.ok.inj (hopen.symm.trans hopen')
      exact ⟨entries, (hat.yields_iff entries).1 hyields,
        fun t => (hentries t).trans (hexpected t).symm⟩
    · rintro ⟨entries, hreplay, hentries⟩
      exact ⟨reader, entries, hopen, hschema, (hat.yields_iff entries).2 hreplay,
        fun t => (hentries t).trans (hexpected t)⟩
  have hmem (t : ℕ) (chunk : List (Record events)) :
      (t, chunk) ∈ chunks ↔ chunk ∈ chunksOf t systemStart [] actions ∧ chunk ≠ [] := by
    rw [← mem_written, ← hchunks]
    simp
  have hall : (∀ item ∈ items, item.delta = item.record.1) ↔
      ∀ chunk ∈ chunks, Uniform chunk.2 := by
    simp only [← delta_eq_iff, hitems, List.mem_flatMap, List.mem_map, chunkItems]
    constructor
    · intro h chunk hchunk r hr
      exact h ⟨_, _, r⟩ ⟨numbered chunk, ⟨chunk, hchunk, rfl⟩, r, hr, rfl⟩
    · rintro h item ⟨-, ⟨chunk, hchunk, rfl⟩, r, hr, rfl⟩
      exact h chunk hchunk r hr
  rw [hread, replay_iff _ _ hmax, hall]
  constructor
  · intro h thread chunk hchunk
    by_cases hne : chunk = []
    · subst hne
      exact nofun
    · exact h (thread, chunk) ((hmem thread chunk).2 ⟨hchunk, hne⟩)
  · intro h chunk hchunk
    exact h chunk.1 chunk.2 ((hmem chunk.1 chunk.2).1 hchunk).1

/-- Of a tick at the nanosecond 1 and one at 2 both times are read. -/
theorem roundTrip_ticks : RoundTrip tickCbor 0 (ticks [1, 2]) (ticksFile [1, 2]) ↔
    ∀ thread, ∀ chunk ∈ chunksOf thread 0 [] (ticks [1, 2]), Uniform chunk :=
  @roundTrip_iff tick tickCbor 0 0 (ticks [1, 2]) (ticksFile [1, 2]) (nonDecreasing_ticks (by decide))
    (by rfl)

/-- Of two ticks at the nanoseconds 1 and 3 the second is read at 2. -/
theorem not_roundTrip :
    ¬ ∀ (cbor : Ciborium) (events : DefinedEvents) (systemStart : Instant) (unixMillis : BitVec 64)
      (actions : List (Action events)) (file : Bytes), NonDecreasing systemStart actions →
      write cbor events systemStart unixMillis actions = some file →
      RoundTrip cbor systemStart actions file := by
  intro h
  obtain ⟨reader, entries, hopen, -, hyields, hentries⟩ :=
    h tickCbor tick 0 0 (ticks [1, 3]) (ticksFile [1, 3]) (nonDecreasing_ticks (by decide)) (by rfl)
  obtain rfl := Except.ok.inj (hopen.symm.trans (by rfl))
  have hread := hyields.unique (.next (by rfl) (.next (by rfl) (.done (by rfl))))
  have htimes := congrArg (List.map EventLogEntry.timestamp) (hentries 0)
  rw [hread] at htimes
  revert htimes
  decide

end EdaBitGen.MacNCheese.EventLog
