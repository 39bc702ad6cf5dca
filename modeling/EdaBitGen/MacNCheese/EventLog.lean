import EdaBitGen.Data.Lists
import EdaBitGen.Algebra.Numerals

/-!
# The event log

Threads append their events to buffers of their own. The writer swaps the buffers out one by one and
writes each as a chunk of the log; the reader takes the chunks apart again, guided by the schema.
-/

namespace EdaBitGen.MacNCheese.EventLog

open LittleEndian

abbrev Bytes : Type := List (BitVec 8)

abbrev Word : Type := BitVec 32

/-- The most bytes that an allocation may have. -/
def isizeMax : ℕ := 2 ^ 63 - 1

/-- Room for `len` elements of `size` bytes; more than an allocation may have panics. -/
def reserve (size len : ℕ) : Option Unit := if size * len ≤ isizeMax then some () else none

/-! ## Schemas -/

inductive EventArgumentType
  | bool | i8 | u8 | i16 | u16 | i32 | u32 | i64 | u64
  deriving DecidableEq

structure EventArgument where
  name : String
  tyName : String
  ty : EventArgumentType
  deriving DecidableEq

inductive EventKind
  | oneOff | span | lock
  deriving DecidableEq

structure EventDescription where
  name : String
  kind : EventKind
  args : List EventArgument
  deriving DecidableEq

structure EventLogSchema where
  events : List EventDescription
  deriving DecidableEq

/-- What `define_events` makes of a schema: the numbers of its events, and three after them, are the
variants of an enumeration of 32 bits. -/
structure DefinedEvents where
  schema : EventLogSchema
  internalEventId : schema.events.length + 3 ≤ 2 ^ 32

namespace DefinedEvents

variable (events : DefinedEvents)

def internalSpanFinish : Word := BitVec.ofNat 32 events.schema.events.length

def internalAcquiredLock : Word := BitVec.ofNat 32 (events.schema.events.length + 1)

def internalReleasedLock : Word := BitVec.ofNat 32 (events.schema.events.length + 2)

end DefinedEvents

/-- How a schema is kept in the log. A schema that is written has its bytes in an allocation. -/
structure Ciborium where
  intoWriter : EventLogSchema → Option Bytes
  fromReader : Bytes → Option EventLogSchema
  fromReader_intoWriter : ∀ schema metadata, intoWriter schema = some metadata →
    fromReader metadata = some schema ∧ metadata.length ≤ isizeMax

/-- The argument of an event. -/
inductive EventLoggable
  | bool (b : Bool)
  | i8 (v : BitVec 8)
  | u8 (v : BitVec 8)
  | i16 (v : BitVec 16)
  | u16 (v : BitVec 16)
  | i32 (v : BitVec 32)
  | u32 (v : BitVec 32)
  | i64 (v : BitVec 64)
  | u64 (v : BitVec 64)

def encodeU64 (x : BitVec 64) : List Word := limbs 32 2 x

namespace EventLoggable

def type : EventLoggable → EventArgumentType
  | bool _ => .bool
  | i8 _ => .i8
  | u8 _ => .u8
  | i16 _ => .i16
  | u16 _ => .u16
  | i32 _ => .i32
  | u32 _ => .u32
  | i64 _ => .i64
  | u64 _ => .u64

/-- A signed value of one word is extended by its sign. -/
def encode : EventLoggable → List Word
  | bool b => [BitVec.ofNat 32 b.toNat]
  | i8 v => [v.signExtend 32]
  | u8 v => [v.setWidth 32]
  | i16 v => [v.signExtend 32]
  | u16 v => [v.setWidth 32]
  | i32 v => [v]
  | u32 v => [v]
  | i64 v => encodeU64 v
  | u64 v => encodeU64 v

/-- The number that the argument is. -/
def value : EventLoggable → ℤ
  | bool b => b.toNat
  | i8 v => v.toInt
  | u8 v => v.toNat
  | i16 v => v.toInt
  | u16 v => v.toNat
  | i32 v => v.toInt
  | u32 v => v.toNat
  | i64 v => v.toInt
  | u64 v => v.toNat

end EventLoggable

/-! ## Threads -/

/-- Nanoseconds of the monotonic clock, whose seconds are a signed number of 64 bits. -/
abbrev Instant : Type := Fin (2 ^ 63 * 10 ^ 9)

structure ThreadLocal where
  lastTimestamp : Instant
  nextEventId : BitVec 64
  dst : List Word

/-- What a thread logs: an event of the schema with arguments of its types, or what becomes of an
earlier one. -/
inductive Submission (events : DefinedEvents)
  | event (kind : Fin events.schema.events.length) (args : List EventLoggable)
      (typed : args.map EventLoggable.type = (events.schema.events.get kind).args.map EventArgument.ty)
  | spanFinish (eventId : BitVec 64)
  | acquiredLock (eventId : BitVec 64)
  | releasedLock (eventId : BitVec 64)

/-- The number of an event, then its arguments. -/
def buildbuf (eventname : ℕ) (args : List EventLoggable) : List Word :=
  BitVec.ofNat 32 eventname :: args.flatMap EventLoggable.encode

namespace ThreadLocal

/-- The event's number, and the thread after it. A difference of times that is negative is zero. -/
def submitRaw (tl : ThreadLocal) (now : Instant) (args : List Word) :
    Option (BitVec 64 × ThreadLocal) := do
  let delta := now.val - tl.lastTimestamp.val
  reserve 4 (tl.dst.length + (2 + args.length))
  pure (tl.nextEventId,
    ⟨now, tl.nextEventId + 1, tl.dst ++ encodeU64 (BitVec.ofNat 64 delta) ++ args⟩)

def submitEventWithEventId (tl : ThreadLocal) (now : Instant) (kind : Word) (eventId : BitVec 64) :
    Option (BitVec 64 × ThreadLocal) :=
  tl.submitRaw now (kind :: encodeU64 eventId)

def submit {events : DefinedEvents} (tl : ThreadLocal) (now : Instant) :
    Submission events → Option (BitVec 64 × ThreadLocal)
  | .event kind args _ => tl.submitRaw now (buildbuf kind args)
  | .spanFinish eventId => tl.submitEventWithEventId now events.internalSpanFinish eventId
  | .acquiredLock eventId => tl.submitEventWithEventId now events.internalAcquiredLock eventId
  | .releasedLock eventId => tl.submitEventWithEventId now events.internalReleasedLock eventId

end ThreadLocal

/-! ## The writer -/

/-- The state of an open log. A buffer is shared by its thread and the writer, and named by the place
of the thread; the sources before `flushed` are those that the flush in progress is done with. -/
structure LogState where
  systemStart : Instant
  threads : List ThreadLocal
  newBuffers : List ℕ
  sources : List ℕ
  flushed : ℕ
  dst : Bytes

def openEventLog (cbor : Ciborium) (events : DefinedEvents) (systemStart : Instant)
    (unixMillis : BitVec 64) : Option LogState := do
  let metadata ← cbor.intoWriter events.schema
  pure ⟨systemStart, [], [], [], 0,
    limbs 8 8 (BitVec.ofNat 64 metadata.length) ++ metadata ++ limbs 8 8 unixMillis⟩

namespace LogState

/-- `ThreadLocal::new`. -/
def newThread (s : LogState) : LogState :=
  { s with
    threads := s.threads ++ [⟨s.systemStart, 0, []⟩]
    newBuffers := s.newBuffers ++ [s.threads.length] }

def submit {events : DefinedEvents} (s : LogState) (thread : ℕ) (now : Instant)
    (submission : Submission events) : Option LogState := do
  let tl ← s.threads[thread]?
  let (_, tl) ← tl.submit now submission
  pure { s with threads := s.threads.set thread tl }

/-- A flush begins when the one before it is done. -/
def beginFlush (s : LogState) : Option LogState := do
  guard (s.flushed = s.sources.length)
  let sources := s.sources ++ s.newBuffers
  reserve 8 sources.length
  reserve 24 sources.length
  pure { s with newBuffers := [], sources, flushed := 0 }

/-- The next source of the flush. -/
def flushSource (s : LogState) (threadId : ℕ) : Option LogState := do
  guard (threadId = s.flushed)
  let source ← s.sources[threadId]?
  let tl ← s.threads[source]?
  let toWrite := tl.dst
  let s := { s with flushed := threadId + 1, threads := s.threads.set source { tl with dst := [] } }
  if toWrite.isEmpty then
    pure s
  else
    pure { s with
      dst := s.dst ++ limbs 8 8 (BitVec.ofNat 64 threadId) ++
        limbs 8 8 (BitVec.ofNat 64 toWrite.length) ++ toWrite.flatMap (limbs 8 4) }

def flush (s : LogState) : Option LogState := do
  let s ← s.beginFlush
  (List.range s.sources.length).foldlM flushSource s

/-- The log as it is left on the disk. -/
def closeEventLog (s : LogState) : Option Bytes := do
  let s ← s.flush
  pure s.dst

end LogState

/-- What happens while the log is open, in any order that the locks allow. -/
inductive Action (events : DefinedEvents)
  | newThread
  | submit (thread : ℕ) (now : Instant) (submission : Submission events)
  | beginFlush
  | flushSource (threadId : ℕ)

def LogState.step {events : DefinedEvents} (s : LogState) : Action events → Option LogState
  | .newThread => some s.newThread
  | .submit thread now submission => s.submit thread now submission
  | .beginFlush => s.beginFlush
  | .flushSource threadId => s.flushSource threadId

/-- The log of a run from its opening to its close. -/
def write (cbor : Ciborium) (events : DefinedEvents) (systemStart : Instant) (unixMillis : BitVec 64)
    (actions : List (Action events)) : Option Bytes := do
  let s ← openEventLog cbor events systemStart unixMillis
  let s ← actions.foldlM LogState.step s
  s.closeEventLog

/-! ## The reader -/

inductive EventLogEntryBody
  | spanFinished (eventId : BitVec 64)
  | lockAcquired (eventId : BitVec 64)
  | lockReleased (eventId : BitVec 64)
  | event (eventKind : Word) (args : List ℤ)
  deriving DecidableEq

structure EventLogEntry where
  /-- In nanoseconds. -/
  timestamp : ℕ
  threadId : BitVec 64
  body : EventLogEntryBody
  deriving DecidableEq

inductive Failure
  | error (context : String)
  | panic (message : String)
  deriving DecidableEq

def context {α : Type} (text : String) : Option α → Except Failure α
  | some a => .ok a
  | none => .error (.error text)

def index (xs : List ℕ) (i : ℕ) : Except Failure ℕ :=
  match xs[i]? with
  | some x => .ok x
  | none => .error (.panic "index out of bounds")

structure EventLogReader where
  r : Bytes
  schema : EventLogSchema
  currentThread : BitVec 64
  currentThreadBuffer : List Word
  currentThreadBufferReadPos : ℕ
  lastEventTimestamp : List ℕ

def readExact (n : ℕ) (r : Bytes) : Except Failure (Bytes × Bytes) :=
  if n ≤ r.length then .ok (r.take n, r.drop n) else .error (.error "failed to fill whole buffer")

def decodeU64 (pair : Word × Word) : BitVec 64 := pair.1.setWidth 64 ||| (pair.2.setWidth 64 <<< 32)

/-- `buffer.get(pos..pos + 2)`. -/
def getPair (buffer : List Word) (pos : ℕ) : Option (Word × Word) := do
  let lo ← buffer[pos]?
  let hi ← buffer[pos + 1]?
  pure (lo, hi)

/-- The most that a duration can be, in nanoseconds. -/
def durationMax : ℕ := 2 ^ 64 * 10 ^ 9 - 1

def addDuration (timestamp delta : ℕ) : Except Failure ℕ :=
  if timestamp + delta ≤ durationMax then .ok (timestamp + delta)
  else .error (.panic "overflow when adding durations")

namespace EventLogReader

def openInner (cbor : Ciborium) (file : Bytes) : Except Failure EventLogReader := do
  let (u64Buf, reader) ← readExact 8 file
  let (metadataBuf, reader) ← readExact (ofLimbs 64 u64Buf).toNat reader
  let schema ← context "unable to decode event buffer schema" (cbor.fromReader metadataBuf)
  let (_, reader) ← readExact 8 reader
  pure ⟨reader, schema, 0, [], 0, []⟩

/-- Read the next chunk of data in. -/
def readChunk (reader : EventLogReader) : Except Failure (Option EventLogReader) :=
  match reader.r with
  | [] => pure none
  | first :: r => do
    let (buf, r) ← readExact 7 r
    let threadId : BitVec 64 := ofLimbs 64 (first :: buf)
    let (buf, r) ← readExact 8 r
    let numWords := (ofLimbs 64 buf).toNat
    let (buf, r) ← readExact (4 * numWords) r
    let last := reader.lastEventTimestamp
    pure (some { reader with
      r
      currentThread := threadId
      currentThreadBuffer := (Chunks.exact 4 buf).map (ofLimbs 32)
      currentThreadBufferReadPos := 0
      lastEventTimestamp := last ++ List.replicate (threadId.toNat + 1 - last.length) 0 })

/-- An argument and the read position after it. -/
def readArg (buffer : List Word) (pos : ℕ) : EventArgumentType → Except Failure (ℤ × ℕ)
  | .bool | .u8 | .u16 | .u32 => do
    let word ← context "Unexpected EOF trying to read word" buffer[pos]?
    pure (word.toNat, pos + 1)
  | .i8 | .i16 | .i32 => do
    let word ← context "Unexpected EOF trying to read word" buffer[pos]?
    pure (word.toInt, pos + 1)
  | .u64 => do
    let pair ← context "Unexpected EOF trying to read words" (getPair buffer pos)
    pure ((decodeU64 pair).toNat, pos + 2)
  | .i64 => do
    let pair ← context "Unexpected EOF trying to read words" (getPair buffer pos)
    pure ((decodeU64 pair).toInt, pos + 2)

def readArgs (buffer : List Word) : List EventArgument → ℕ → Except Failure (List ℤ × ℕ)
  | [], pos => pure ([], pos)
  | arg :: args, pos => do
    let (value, pos) ← readArg buffer pos arg.ty
    let (values, pos) ← readArgs buffer args pos
    pure (value :: values, pos)

/-- The body of an event after its tag, and the read position after it. -/
def readBody (schema : EventLogSchema) (buffer : List Word) (tag : Word) (pos : ℕ) :
    Except Failure (EventLogEntryBody × ℕ) :=
  match schema.events[tag.toNat]? with
  | some evt => do
    let (args, pos) ← readArgs buffer evt.args pos
    pure (.event tag args, pos)
  | none => do
    let pair ← context "Unexpected EOF trying to read event id" (getPair buffer pos)
    let eventId := decodeU64 pair
    if tag.toNat = schema.events.length then
      pure (.spanFinished eventId, pos + 2)
    else if tag.toNat = schema.events.length + 1 then
      pure (.lockAcquired eventId, pos + 2)
    else if tag.toNat = schema.events.length + 2 then
      pure (.lockReleased eventId, pos + 2)
    else
      .error (.error ("Unexpected event log tag " ++ toString tag.toNat))

/-- The next event of a chunk that is not read up. The delta is taken from the start of the chunk. -/
def readEvent (reader : EventLogReader) : Except Failure (EventLogEntry × EventLogReader) := do
  let buffer := reader.currentThreadBuffer
  let thread := reader.currentThread.toNat
  let pair ← context "Unexpected EOF reading timestamp delta" (getPair buffer 0)
  let last ← index reader.lastEventTimestamp thread
  let timestamp ← addDuration last (decodeU64 pair).toNat
  let pos := reader.currentThreadBufferReadPos + 2
  let tag ← context "Unexpected EOF reading event tag" buffer[pos]?
  let (body, pos) ← readBody reader.schema buffer tag (pos + 1)
  pure (⟨timestamp, reader.currentThread, body⟩,
    { reader with
      currentThreadBufferReadPos := pos
      lastEventTimestamp := reader.lastEventTimestamp.set thread timestamp })

def nextEvent (reader : EventLogReader) : Except Failure (Option (EventLogEntry × EventLogReader)) :=
  if reader.currentThreadBufferReadPos ≥ reader.currentThreadBuffer.length then do
    match ← reader.readChunk with
    | none => pure none
    | some reader => some <$> reader.readEvent
  else
    some <$> reader.readEvent

/-- The entries that a reader yields until the end of the log. -/
inductive Yields : EventLogReader → List EventLogEntry → Prop
  | done {reader} : reader.nextEvent = .ok none → Yields reader []
  | next {reader reader' entry entries} : reader.nextEvent = .ok (some (entry, reader')) →
      Yields reader' entries → Yields reader (entry :: entries)

end EventLogReader

/-! ## What the log should say -/

variable {events : DefinedEvents}

/-- What the reader should make of a submission. -/
def Submission.body : Submission events → EventLogEntryBody
  | .event kind args _ => .event (BitVec.ofNat 32 kind) (args.map EventLoggable.value)
  | .spanFinish eventId => .spanFinished eventId
  | .acquiredLock eventId => .lockAcquired eventId
  | .releasedLock eventId => .lockReleased eventId

/-- The submissions of a thread, in order and with their times. -/
def submitted (thread : ℕ) : List (Action events) → List (Instant × Submission events)
  | [] => []
  | .submit thread' now submission :: actions =>
    if thread' = thread then (now, submission) :: submitted thread actions
    else submitted thread actions
  | _ :: actions => submitted thread actions

/-- A thread's times do not decrease. -/
def NonDecreasing (systemStart : Instant) (actions : List (Action events)) : Prop :=
  ∀ thread, ((systemStart :: (submitted thread actions).map Prod.fst).Pairwise (· ≤ ·))

/-- The reader yields, thread by thread, what was submitted and when. -/
def RoundTrip (cbor : Ciborium) (systemStart : Instant) (actions : List (Action events))
    (file : Bytes) : Prop :=
  ∃ reader entries, EventLogReader.openInner cbor file = .ok reader ∧ reader.schema = events.schema ∧
    reader.Yields entries ∧
    ∀ thread : BitVec 64, entries.filter (·.threadId = thread) =
      (submitted thread.toNat actions).map fun s => ⟨s.1.val - systemStart.val, thread, s.2.body⟩

/-- The chunks in which a thread's submissions are written, each submission with the nanoseconds since
the one before it. -/
def chunksOf (thread : ℕ) : Instant → List (ℕ × Submission events) → List (Action events) →
    List (List (ℕ × Submission events))
  | _, current, [] => [current]
  | last, current, .submit thread' now submission :: actions =>
    if thread' = thread then
      chunksOf thread now (current ++ [(now.val - last.val, submission)]) actions
    else
      chunksOf thread last current actions
  | last, current, .flushSource threadId :: actions =>
    if threadId = thread then current :: chunksOf thread last [] actions
    else chunksOf thread last current actions
  | last, current, _ :: actions => chunksOf thread last current actions

/-- All submissions of a chunk are as long after the one before them as the first, and that is a
number of 64 bits. -/
def Uniform (chunk : List (ℕ × Submission events)) : Prop :=
  ∀ r ∈ chunk, r.1 < 2 ^ 64 ∧ ∀ first ∈ chunk.head?, r.1 = first.1

end EdaBitGen.MacNCheese.EventLog
