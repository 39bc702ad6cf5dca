import EdaBitGen.MacNCheese.EventLog

/-!
# Reading the event log

A log is a list of chunks, each the submissions of a thread. The reader takes the submissions in the
order of the chunks and adds the first difference of a chunk to its thread's time at each of them.
-/

namespace EdaBitGen.MacNCheese.EventLog

open LittleEndian

variable {events : DefinedEvents}

/-! ## Words -/

@[simp] theorem length_encodeU64 (x : BitVec 64) : (encodeU64 x).length = 2 := length_limbs 32 2 x

theorem getPair_append (pre post : List Word) (x : BitVec 64) :
    ∃ pair, getPair (pre ++ (encodeU64 x ++ post)) pre.length = some pair ∧ decodeU64 pair = x := by
  refine ⟨(x.extractLsb' 0 32, x.extractLsb' 32 32), ?_, ?_⟩
  · have hwords : encodeU64 x = [x.extractLsb' 0 32, x.extractLsb' 32 32] := rfl
    rw [getPair, List.getElem?_append_right (Nat.le_refl _),
      List.getElem?_append_right (Nat.le_add_right _ _), Nat.sub_self, Nat.add_sub_cancel_left, hwords]
    rfl
  · have hwhole := ofLimbs_limbs (by decide) (by decide : 2 * 32 = 64) x
    have hzero : (0#64 <<< 32) = 0#64 := by decide
    rw [show limbs 32 2 x = [x.extractLsb' 0 32, x.extractLsb' 32 32] from rfl, ofLimbs, ofLimbs,
      ofLimbs] at hwhole
    rw [decodeU64]
    rwa [show (0 : BitVec 64) = 0#64 from rfl, hzero, BitVec.or_zero] at hwhole

theorem getElem?_append_word (pre post : List Word) (word : Word) :
    (pre ++ ([word] ++ post))[pre.length]? = some word := by
  rw [List.getElem?_append_right (Nat.le_refl _), Nat.sub_self]
  rfl

namespace EventLogReader

theorem readArg_encode (pre post : List Word) (arg : EventLoggable) :
    readArg (pre ++ (arg.encode ++ post)) pre.length arg.type =
      .ok (arg.value, pre.length + arg.encode.length) := by
  have hword (word : Word) := getElem?_append_word pre post word
  cases arg with
  | bool b =>
    rw [EventLoggable.type, readArg, EventLoggable.encode, hword]
    cases b <;> rfl
  | u8 v | u16 v =>
    rw [EventLoggable.type, readArg, EventLoggable.encode, hword]
    show Except.ok (((v.setWidth 32).toNat : ℤ), pre.length + 1) = .ok ((v.toNat : ℤ), _)
    rw [BitVec.toNat_setWidth_of_le (by decide)]
    rfl
  | i8 v | i16 v =>
    rw [EventLoggable.type, readArg, EventLoggable.encode, hword]
    show Except.ok ((v.signExtend 32).toInt, pre.length + 1) = .ok (v.toInt, _)
    rw [BitVec.toInt_signExtend_of_le (by decide)]
    rfl
  | u32 v | i32 v =>
    rw [EventLoggable.type, readArg, EventLoggable.encode, hword]
    rfl
  | u64 v | i64 v =>
    obtain ⟨pair, hpair, hdecode⟩ := getPair_append pre post v
    rw [EventLoggable.type, readArg, EventLoggable.encode, hpair]
    show Except.ok (_, pre.length + 2) = _
    rw [hdecode, length_encodeU64]
    rfl

theorem readArgs_encode (pre post : List Word) {descriptions : List EventArgument}
    {args : List EventLoggable} (typed : args.map EventLoggable.type = descriptions.map EventArgument.ty) :
    readArgs (pre ++ (args.flatMap EventLoggable.encode ++ post)) descriptions pre.length =
      .ok (args.map EventLoggable.value,
        pre.length + (args.flatMap EventLoggable.encode).length) := by
  induction args generalizing pre descriptions with
  | nil =>
    obtain rfl : descriptions = [] := List.map_eq_nil_iff.1 typed.symm
    rfl
  | cons arg args ih =>
    obtain ⟨description, descriptions, rfl⟩ : ∃ d ds, descriptions = d :: ds := by
      cases descriptions with
      | nil => cases typed
      | cons d ds => exact ⟨d, ds, rfl⟩
    obtain ⟨htype, htypes⟩ := List.cons.inj typed
    have hfirst := readArg_encode pre (args.flatMap EventLoggable.encode ++ post) arg
    have hrest := ih (pre ++ arg.encode) htypes
    rw [List.length_append, List.append_assoc] at hrest
    rw [htype] at hfirst
    rw [List.flatMap_cons, List.append_assoc, readArgs, hfirst]
    show (readArgs _ descriptions (pre.length + arg.encode.length) >>= _) = _
    rw [hrest, List.length_append, ← Nat.add_assoc]
    rfl

end EventLogReader

/-! ## Submissions -/

namespace Submission

/-- What a submission appends after its time. -/
def words : Submission events → List Word
  | event kind args _ => buildbuf kind args
  | spanFinish eventId => events.internalSpanFinish :: encodeU64 eventId
  | acquiredLock eventId => events.internalAcquiredLock :: encodeU64 eventId
  | releasedLock eventId => events.internalReleasedLock :: encodeU64 eventId

def tag : Submission events → Word
  | event kind _ _ => BitVec.ofNat 32 kind
  | spanFinish _ => events.internalSpanFinish
  | acquiredLock _ => events.internalAcquiredLock
  | releasedLock _ => events.internalReleasedLock

theorem words_eq (submission : Submission events) :
    ∃ rest, submission.words = submission.tag :: rest := by
  cases submission <;> exact ⟨_, rfl⟩

end Submission

namespace EventLogReader

/-- An event number after those of the schema is an internal one, with the number of an event. -/
theorem readBody_internal (pre post : List Word) (eventId : BitVec 64) {i : ℕ} (hi : i < 3) :
    readBody events.schema (pre ++ (encodeU64 eventId ++ post))
        (BitVec.ofNat 32 (events.schema.events.length + i)) pre.length =
      .ok (match i with
        | 0 => .spanFinished eventId
        | 1 => .lockAcquired eventId
        | _ => .lockReleased eventId, pre.length + 2) := by
  obtain ⟨pair, hpair, hdecode⟩ := getPair_append pre post eventId
  have hfits := events.internalEventId
  have htag : (BitVec.ofNat 32 (events.schema.events.length + i)).toNat =
      events.schema.events.length + i := by
    rw [BitVec.toNat_ofNat, Nat.mod_eq_of_lt (by omega)]
  rw [readBody, htag, List.getElem?_eq_none (Nat.le_add_right _ _), hpair]
  subst hdecode
  obtain rfl | rfl | rfl : i = 0 ∨ i = 1 ∨ i = 2 := by omega
  · show (if _ then _ else _) = _
    rw [if_pos (Nat.add_zero _)]
    rfl
  · show (if _ then _ else if _ then _ else _) = _
    rw [if_neg (by omega), if_pos rfl]
    rfl
  · show (if _ then _ else if _ then _ else if _ then _ else _) = _
    rw [if_neg (by omega), if_neg (by omega), if_pos rfl]
    rfl

theorem readBody_words (pre post : List Word) (submission : Submission events) :
    readBody events.schema (pre ++ (submission.words ++ post)) submission.tag (pre.length + 1) =
      .ok (submission.body, pre.length + submission.words.length) := by
  have hshift (word : Word) (rest : List Word) :
      pre ++ (word :: rest ++ post) = (pre ++ [word]) ++ (rest ++ post) := by simp
  have hlen (word : Word) : (pre ++ [word]).length = pre.length + 1 := by simp
  cases submission with
  | event kind args typed =>
    have hkind : (BitVec.ofNat 32 kind.val).toNat = kind.val := by
      have hfits := events.internalEventId
      rw [BitVec.toNat_ofNat, Nat.mod_eq_of_lt (by omega)]
    have hargs := readArgs_encode (pre ++ [BitVec.ofNat 32 kind.val]) post typed
    rw [Submission.words, buildbuf, hshift, Submission.tag, readBody, hkind,
      List.getElem?_eq_getElem kind.isLt, ← hlen (BitVec.ofNat 32 kind.val)]
    show (readArgs _ (events.schema.events.get kind).args _ >>= _) = _
    rw [hargs, hlen, List.length_cons, Nat.add_assoc, Nat.add_comm 1]
    rfl
  | spanFinish eventId =>
    rw [Submission.words, hshift, ← hlen events.internalSpanFinish]
    exact (readBody_internal _ post eventId (by decide : 0 < 3)).trans (by simp [Submission.body])
  | acquiredLock eventId =>
    rw [Submission.words, hshift, ← hlen events.internalAcquiredLock]
    exact (readBody_internal _ post eventId (by decide : 1 < 3)).trans (by simp [Submission.body])
  | releasedLock eventId =>
    rw [Submission.words, hshift, ← hlen events.internalReleasedLock]
    exact (readBody_internal _ post eventId (by decide : 2 < 3)).trans (by simp [Submission.body])

end EventLogReader

/-! ## Chunks -/

/-- A submission with the nanoseconds since the one before it. -/
abbrev Record (events : DefinedEvents) : Type := ℕ × Submission events

def recordWords (r : Record events) : List Word := encodeU64 (BitVec.ofNat 64 r.1) ++ r.2.words

def chunkWords (records : List (Record events)) : List Word := records.flatMap recordWords

/-- The chunk of a thread as it is written. -/
def chunkBytes (chunk : BitVec 64 × List (Record events)) : Bytes :=
  limbs 8 8 chunk.1 ++ limbs 8 8 (BitVec.ofNat 64 (chunkWords chunk.2).length) ++
    (chunkWords chunk.2).flatMap (limbs 8 4)

/-- What the reader takes for the difference of every submission of a chunk. -/
def delta (records : List (Record events)) : ℕ := (records.head?.map Prod.fst).getD 0 % 2 ^ 64

/-- A submission of the log, and the difference that the reader takes for it. -/
structure Item (events : DefinedEvents) where
  thread : BitVec 64
  delta : ℕ
  record : Record events

def chunkItems (chunk : BitVec 64 × List (Record events)) : List (Item events) :=
  chunk.2.map fun r => ⟨chunk.1, delta chunk.2, r⟩

/-- What the reader yields when the times of the threads are `time`. -/
def replay (time : BitVec 64 → ℕ) : List (Item events) → Except Failure (List EventLogEntry)
  | [] => .ok []
  | item :: items => do
    let timestamp ← addDuration (time item.thread) item.delta
    let entries ← replay (Function.update time item.thread timestamp) items
    pure (⟨timestamp, item.thread, item.record.2.body⟩ :: entries)

theorem chunkWords_cons (r : Record events) (records : List (Record events)) :
    chunkWords (r :: records) = encodeU64 (BitVec.ofNat 64 r.1) ++ (r.2.words ++ chunkWords records) := by
  rw [chunkWords, List.flatMap_cons, recordWords, List.append_assoc]
  rfl

namespace EventLogReader

/-- A reader with the submissions `pending` of its chunk and the chunks `chunks` before it. -/
structure Reading (reader : EventLogReader) (time : BitVec 64 → ℕ) (delta : ℕ)
    (pending : List (Record events)) (chunks : List (BitVec 64 × List (Record events))) : Prop where
  schema_eq : reader.schema = events.schema
  buffer_eq : ∃ pre, reader.currentThreadBuffer = pre ++ chunkWords pending ∧
    reader.currentThreadBufferReadPos = pre.length
  delta_eq : pending ≠ [] → ∃ pair, getPair reader.currentThreadBuffer 0 = some pair ∧
    (decodeU64 pair).toNat = delta
  lt_length : pending ≠ [] → reader.currentThread.toNat < reader.lastEventTimestamp.length
  time_eq : ∀ t : BitVec 64, reader.lastEventTimestamp.getD t.toNat 0 = time t
  r_eq : reader.r = chunks.flatMap chunkBytes
  chunks_fit : ∀ chunk ∈ chunks, chunk.2 ≠ [] ∧ (chunkWords chunk.2).length < 2 ^ 64

variable {reader : EventLogReader} {time : BitVec 64 → ℕ} {δ : ℕ} {pending : List (Record events)}
  {chunks : List (BitVec 64 × List (Record events))}

theorem getD_set (last : List ℕ) {i : ℕ} (hi : i < last.length) (x j : ℕ) :
    (last.set i x).getD j 0 = if i = j then x else last.getD j 0 := by
  rw [List.getD_eq_getElem?_getD, List.getElem?_set, List.getD_eq_getElem?_getD]
  split_ifs <;> rfl

theorem getD_resize (last : List ℕ) (n j : ℕ) :
    (last ++ List.replicate n 0).getD j 0 = last.getD j 0 := by
  rcases Nat.lt_or_ge j last.length with hlt | hge
  · rw [List.getD_append _ _ _ _ hlt]
  · rw [List.getD_append_right _ _ _ _ hge, List.getD_eq_default _ _ hge, List.getD_eq_getElem?_getD,
      List.getElem?_replicate]
    split_ifs <;> rfl

theorem Reading.readEvent {r : Record events} (h : Reading reader time δ (r :: pending) chunks) :
    match addDuration (time reader.currentThread) δ with
    | .error e => reader.readEvent = .error e
    | .ok timestamp => ∃ reader' : EventLogReader,
        reader.readEvent = .ok (⟨timestamp, reader.currentThread, r.2.body⟩, reader') ∧
        reader'.currentThread = reader.currentThread ∧
        Reading reader' (Function.update time reader.currentThread timestamp) δ pending chunks := by
  obtain ⟨pre, hbuffer, hpos⟩ := h.buffer_eq
  obtain ⟨pair, hpair, hdelta⟩ := h.delta_eq (List.cons_ne_nil _ _)
  have hlt := h.lt_length (List.cons_ne_nil _ _)
  have hlast : index reader.lastEventTimestamp reader.currentThread.toNat =
      .ok (time reader.currentThread) := by
    have htime := h.time_eq reader.currentThread
    rw [List.getD_eq_getElem?_getD, List.getElem?_eq_getElem hlt] at htime
    rw [index, List.getElem?_eq_getElem hlt]
    exact congrArg Except.ok htime
  have hwords : reader.currentThreadBuffer =
      (pre ++ encodeU64 (BitVec.ofNat 64 r.1)) ++ (r.2.words ++ chunkWords pending) := by
    rw [hbuffer, chunkWords_cons, List.append_assoc]
  have hlen : (pre ++ encodeU64 (BitVec.ofNat 64 r.1)).length = pre.length + 2 := by
    rw [List.length_append, length_encodeU64]
  have htag : reader.currentThreadBuffer[pre.length + 2]? = some r.2.tag := by
    obtain ⟨rest, hrest⟩ := r.2.words_eq
    rw [hwords, hrest, ← hlen, List.getElem?_append_right (Nat.le_refl _), Nat.sub_self]
    rfl
  have hbody := readBody_words (pre ++ encodeU64 (BitVec.ofNat 64 r.1)) (chunkWords pending) r.2
  rw [← hwords, hlen, ← h.schema_eq] at hbody
  have hread : reader.readEvent = (do
      let timestamp ← addDuration (time reader.currentThread) δ
      pure (⟨timestamp, reader.currentThread, r.2.body⟩, { reader with
        currentThreadBufferReadPos := pre.length + 2 + r.2.words.length
        lastEventTimestamp :=
          reader.lastEventTimestamp.set reader.currentThread.toNat timestamp })) := by
    rw [EventLogReader.readEvent, hpair, hlast, hpos]
    show (addDuration _ (decodeU64 pair).toNat >>= _) = _
    rw [hdelta]
    refine congrArg _ (funext fun timestamp => ?_)
    show (context _ reader.currentThreadBuffer[pre.length + 2]? >>= _) = _
    rw [htag]
    show (readBody reader.schema _ r.2.tag (pre.length + 2 + 1) >>= _) = _
    rw [hbody]
    rfl
  cases hadd : addDuration (time reader.currentThread) δ with
  | error e =>
    rw [hadd] at hread
    exact hread
  | ok timestamp =>
    rw [hadd] at hread
    refine ⟨_, hread, rfl, ?_⟩
    refine ⟨h.schema_eq, ⟨pre ++ recordWords r, ?_, ?_⟩, fun _ => ⟨pair, hpair, hdelta⟩, fun _ => ?_,
      fun t => ?_, h.r_eq, h.chunks_fit⟩
    · show reader.currentThreadBuffer = _
      rw [hwords, recordWords, List.append_assoc, List.append_assoc, List.append_assoc]
    · show pre.length + 2 + r.2.words.length = _
      rw [recordWords, List.length_append, List.length_append, length_encodeU64, Nat.add_assoc]
    · show _ < (reader.lastEventTimestamp.set _ timestamp).length
      rwa [List.length_set]
    · show (reader.lastEventTimestamp.set _ timestamp).getD _ 0 = _
      rw [getD_set _ hlt, Function.update_apply, h.time_eq]
      simp only [BitVec.toNat_inj, eq_comm]

theorem ok_bind {α β : Type} (a : α) (f : α → Except Failure β) : (Except.ok a >>= f) = f a := rfl

theorem exists_ok_of_bind {α β : Type} {x : Except Failure α} {f : α → Except Failure β} {b : β}
    (h : (x >>= f) = .ok b) : ∃ a, x = .ok a ∧ f a = .ok b := by
  cases x with
  | error e => cases h
  | ok a => exact ⟨a, rfl, h⟩

theorem readExact_append (bytes rest : Bytes) :
    readExact bytes.length (bytes ++ rest) = .ok (bytes, rest) := by
  rw [readExact, if_pos (by simp), List.take_left, List.drop_left]

theorem readExact_limbs (n : ℕ) {m : ℕ} (x : BitVec m) (rest : Bytes) :
    readExact n (limbs 8 n x ++ rest) = .ok (limbs 8 n x, rest) := by
  have h := readExact_append (limbs 8 n x) rest
  rwa [length_limbs] at h

theorem ofLimbs_words (words : List Word) :
    (Chunks.exact 4 (words.flatMap (limbs 8 4))).map (ofLimbs 32) = words := by
  have hlength : ∀ v ∈ words.map (limbs 8 4), v.length = 4 :=
    List.forall_mem_map.2 fun word _ => length_limbs 8 4 word
  have hid : ofLimbs 32 ∘ limbs 8 4 = (id : Word → Word) :=
    funext fun word => ofLimbs_limbs (by decide) (by decide) word
  rw [List.flatMap_def, Chunks.exact_flatten (by decide) hlength, List.map_map, hid, List.map_id]

theorem Reading.readChunk {thread : BitVec 64} {records : List (Record events)}
    (h : Reading reader time δ [] ((thread, records) :: chunks)) :
    ∃ reader' : EventLogReader, reader.readChunk = .ok (some reader') ∧
      reader'.currentThread = thread ∧ Reading reader' time (delta records) records chunks := by
  obtain ⟨-, hfit⟩ := h.chunks_fit _ List.mem_cons_self
  set words := chunkWords records
  have hr : reader.r = limbs 8 8 thread ++ (limbs 8 8 (BitVec.ofNat 64 words.length) ++
      (words.flatMap (limbs 8 4) ++ chunks.flatMap chunkBytes)) := by
    rw [h.r_eq, List.flatMap_cons, chunkBytes, List.append_assoc, List.append_assoc]
  obtain ⟨first, rest, hthread⟩ : ∃ first rest, limbs 8 8 thread = first :: rest := ⟨_, _, rfl⟩
  have hrest : rest.length = 7 := by
    have hlen := length_limbs 8 8 thread
    rw [hthread, List.length_cons] at hlen
    omega
  have hid := ofLimbs_limbs (by decide) (by decide : 8 * 8 = 64) thread
  have hnum : (ofLimbs 64 (limbs 8 8 (BitVec.ofNat 64 words.length))).toNat = words.length := by
    rw [ofLimbs_limbs (by decide) (by decide), BitVec.toNat_ofNat, Nat.mod_eq_of_lt hfit]
  have hbytes : 4 * words.length = (words.flatMap (limbs 8 4)).length := by
    rw [List.length_flatMap, List.map_congr_left fun word _ => length_limbs 8 4 word,
      List.map_const', List.sum_replicate_nat, Nat.mul_comm]
  rw [hthread] at hid hr
  have hread : reader.readChunk = .ok (some { reader with
      r := chunks.flatMap chunkBytes
      currentThread := thread
      currentThreadBuffer := words
      currentThreadBufferReadPos := 0
      lastEventTimestamp := reader.lastEventTimestamp ++
        List.replicate (thread.toNat + 1 - reader.lastEventTimestamp.length) 0 }) := by
    rw [EventLogReader.readChunk, hr]
    show (readExact 7 (rest ++ _) >>= _) = _
    rw [← hrest, readExact_append, ok_bind]
    dsimp only
    rw [readExact_limbs, ok_bind]
    dsimp only
    rw [hnum, hbytes, readExact_append, ok_bind, hid]
    dsimp only
    rw [ofLimbs_words]
    rfl
  refine ⟨_, hread, rfl, h.schema_eq, ⟨[], rfl, rfl⟩, fun hne => ?_, fun _ => ?_, fun t => ?_, rfl,
    fun chunk hchunk => h.chunks_fit chunk (List.mem_cons_of_mem _ hchunk)⟩
  · obtain ⟨r, tail, rfl⟩ := List.exists_cons_of_ne_nil hne
    obtain ⟨pair, hpair, hdecode⟩ :=
      getPair_append [] (r.2.words ++ chunkWords tail) (BitVec.ofNat 64 r.1)
    refine ⟨pair, ?_, ?_⟩
    · show getPair (chunkWords (r :: tail)) 0 = some pair
      rw [chunkWords_cons]
      exact hpair
    · rw [hdecode, BitVec.toNat_ofNat]
      rfl
  · show thread.toNat < (reader.lastEventTimestamp ++ List.replicate _ 0).length
    rw [List.length_append, List.length_replicate]
    omega
  · show (reader.lastEventTimestamp ++ List.replicate _ 0).getD _ 0 = _
    rw [getD_resize, h.time_eq]

theorem Reading.readChunk_nil
    (h : Reading reader time δ [] ([] : List (BitVec 64 × List (Record events)))) :
    reader.readChunk = .ok none := by
  rw [EventLogReader.readChunk, h.r_eq]
  rfl

theorem Reading.nextEvent_nil (h : Reading reader time δ [] chunks) :
    reader.nextEvent = (do
      match ← reader.readChunk with
      | none => pure none
      | some reader => some <$> reader.readEvent) := by
  obtain ⟨pre, hbuffer, hpos⟩ := h.buffer_eq
  refine if_pos ?_
  rw [hbuffer, hpos, chunkWords, List.flatMap_nil, List.append_nil]

theorem Reading.nextEvent_cons {r : Record events} (h : Reading reader time δ (r :: pending) chunks) :
    reader.nextEvent = some <$> reader.readEvent := by
  obtain ⟨pre, hbuffer, hpos⟩ := h.buffer_eq
  refine if_neg ?_
  rw [hbuffer, hpos, chunkWords_cons, List.length_append, List.length_append, length_encodeU64]
  omega

/-- What a reader has still to yield. -/
def At (reader : EventLogReader) (time : BitVec 64 → ℕ) (items : List (Item events)) : Prop :=
  ∃ (δ : ℕ) (pending : List (Record events)) (chunks : List (BitVec 64 × List (Record events))),
    Reading reader time δ pending chunks ∧
    items = (pending.map fun r => ⟨reader.currentThread, δ, r⟩) ++ chunks.flatMap chunkItems

theorem At.next {item : Item events} {items : List (Item events)}
    (h : At reader time (item :: items)) :
    match addDuration (time item.thread) item.delta with
    | .error e => reader.nextEvent = .error e
    | .ok timestamp => ∃ reader' : EventLogReader,
        reader.nextEvent = .ok (some (⟨timestamp, item.thread, item.record.2.body⟩, reader')) ∧
        At reader' (Function.update time item.thread timestamp) items := by
  obtain ⟨δ, pending, chunks, hreading, hitems⟩ := h
  cases pending with
  | cons r pending =>
    obtain ⟨rfl, rfl⟩ := List.cons.inj hitems
    have hread := hreading.readEvent
    rw [hreading.nextEvent_cons]
    dsimp only
    cases hadd : addDuration (time reader.currentThread) δ with
    | error e =>
      rw [hadd] at hread
      exact congrArg _ hread
    | ok timestamp =>
      rw [hadd] at hread
      obtain ⟨reader', hevent, hthread, hreading'⟩ := hread
      exact ⟨reader', congrArg _ hevent, δ, pending, chunks, hreading', by rw [hthread]; rfl⟩
  | nil =>
    cases chunks with
    | nil => cases hitems
    | cons chunk chunks =>
      obtain ⟨thread, records⟩ := chunk
      obtain ⟨r, records, rfl⟩ :=
        List.exists_cons_of_ne_nil (hreading.chunks_fit _ List.mem_cons_self).1
      obtain ⟨rfl, rfl⟩ := List.cons.inj hitems
      obtain ⟨reader₁, hchunk, rfl, hreading₁⟩ := hreading.readChunk
      have hread := hreading₁.readEvent
      have hnext : reader.nextEvent = some <$> reader₁.readEvent := by
        rw [hreading.nextEvent_nil, hchunk]
        rfl
      rw [hnext]
      dsimp only
      cases hadd : addDuration (time reader₁.currentThread) (delta (r :: records)) with
      | error e =>
        rw [hadd] at hread
        exact congrArg _ hread
      | ok timestamp =>
        rw [hadd] at hread
        obtain ⟨reader', hevent, hthread, hreading'⟩ := hread
        refine ⟨reader', congrArg _ hevent, delta (r :: records), records, chunks, hreading', ?_⟩
        rw [hthread]
        rfl

theorem At.done (h : At reader time ([] : List (Item events))) : reader.nextEvent = .ok none := by
  obtain ⟨δ, pending, chunks, hreading, hitems⟩ := h
  obtain ⟨hpending, hchunks⟩ := List.append_eq_nil_iff.1 hitems.symm
  obtain rfl := List.map_eq_nil_iff.1 hpending
  cases chunks with
  | nil =>
    rw [hreading.nextEvent_nil, hreading.readChunk_nil]
    rfl
  | cons chunk chunks =>
    have hnil := (List.append_eq_nil_iff.1 hchunks).1
    exact absurd (List.map_eq_nil_iff.1 hnil) (hreading.chunks_fit chunk List.mem_cons_self).1

theorem At.yields_iff {items : List (Item events)} (h : At reader time items)
    (entries : List EventLogEntry) : reader.Yields entries ↔ replay time items = .ok entries := by
  induction items generalizing reader time entries with
  | nil =>
    have hdone := h.done
    constructor
    · intro hyields
      cases hyields with
      | done => rfl
      | next hnext => rw [hdone] at hnext; cases hnext
    · intro hreplay
      cases hreplay
      exact .done hdone
  | cons item items ih =>
    have hnext := h.next
    cases hadd : addDuration (time item.thread) item.delta with
    | error e =>
      rw [hadd] at hnext
      rw [replay, hadd]
      constructor
      · intro hyields
        cases hyields with
        | done hnone => rw [hnext] at hnone; cases hnone
        | next hsome => rw [hnext] at hsome; cases hsome
      · intro hreplay
        cases hreplay
    | ok timestamp =>
      rw [hadd] at hnext
      obtain ⟨reader', hevent, hat⟩ := hnext
      rw [replay, hadd]
      constructor
      · intro hyields
        cases hyields with
        | done hnone => rw [hevent] at hnone; cases hnone
        | next hsome hrest =>
          rw [hevent] at hsome
          cases hsome
          show (replay _ items >>= _) = _
          rw [(ih hat _).1 hrest]
          rfl
      · intro hreplay
        cases hrest : replay (Function.update time item.thread timestamp) items with
        | error e =>
          replace hreplay : (replay _ items >>= _) = _ := hreplay
          rw [hrest] at hreplay
          cases hreplay
        | ok rest =>
          replace hreplay : (replay _ items >>= _) = _ := hreplay
          rw [hrest] at hreplay
          cases hreplay
          exact .next hevent ((ih hat rest).2 hrest)

theorem Yields.unique {reader : EventLogReader} {entries entries' : List EventLogEntry}
    (h : reader.Yields entries) (h' : reader.Yields entries') : entries = entries' := by
  induction h generalizing entries' with
  | done hnone =>
    cases h' with
    | done => rfl
    | next hsome => rw [hnone] at hsome; cases hsome
  | next hsome _ ih =>
    cases h' with
    | done hnone => rw [hsome] at hnone; cases hnone
    | next hsome' hrest =>
      rw [hsome] at hsome'
      cases hsome'
      rw [ih hrest]

end EventLogReader

end EdaBitGen.MacNCheese.EventLog
