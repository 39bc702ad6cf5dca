import EdaBitGen.Data.Lists

/-!
# The wire formats of prototypes

A prototype names the wires of its gates: outputs of its inputs, or its own outputs so far. The
simple format writes the arguments of a gate one after the other; the batched one takes four gates
and writes, for each argument, the inputs of the four and then their wires.
-/

namespace EdaBitGen.MacNCheese.WireFormat

abbrev Bytes : Type := List (BitVec 8)

abbrev WireSize : Type := BitVec 32

/-! ## Wires -/

/-- The highest bit is set for an own wire; else the upper half is the input. -/
abbrev Wire : Type := BitVec 64

namespace Wire

def ownWire (idx : WireSize) : Wire := (1#64 <<< 63) ||| idx.setWidth 64

def inputWire (whichInput whichWire : WireSize) : Option Wire :=
  if whichInput >>> 31 ≠ 0 then none
  else some ((whichInput.setWidth 64 <<< 32) ||| whichWire.setWidth 64)

def whichWire (wire : Wire) : WireSize := wire.setWidth 32

def whichInput (wire : Wire) : Option WireSize :=
  let x : BitVec 32 := (wire >>> 32).setWidth 32
  if x >>> 31 = 0 then some x else none

end Wire

/-- The sizes of a prototype's inputs. They are a vector of the manifest, so that 32 bits are enough
for their number. -/
structure InputSizes where
  sizes : List WireSize
  length_lt : sizes.length < 2 ^ 32

inductive SupportsOwnWires
  | producesValues
  | onlyConsumes

/-- The own wires of a gate. -/
def SupportsOwnWires.outputs : SupportsOwnWires → ℕ
  | producesValues => 1
  | onlyConsumes => 0

/-- How a value is written next to a wire. -/
structure CanonicalSerialize (T : Type) where
  byteReprLen : ℕ
  toBytes : T → Bytes
  length_toBytes : ∀ t, (toBytes t).length = byteReprLen
  fromBytes : Bytes → Option T
  fromBytes_toBytes : ∀ t, fromBytes (toBytes t) = some t

def toLeBytes (x : BitVec 32) : Bytes :=
  [x.extractLsb' 0 8, x.extractLsb' 8 8, x.extractLsb' 16 8, x.extractLsb' 24 8]

def fromLeBytes (v : Bytes) : BitVec 32 := v.getD 3 0 ++ v.getD 2 0 ++ v.getD 1 0 ++ v.getD 0 0

/-! ## Writers -/

/-- A writer of either format. -/
structure Writer where
  inputSizes : List WireSize
  ownWires : WireSize
  supportsOwnWires : SupportsOwnWires
  written : Bytes

namespace Writer

def new (inputSizes : List WireSize) (supportsOwnWires : SupportsOwnWires) : Writer :=
  ⟨inputSizes, 0, supportsOwnWires, []⟩

def addOwnWires (w : Writer) (delta : WireSize) : Option Writer :=
  match w.supportsOwnWires with
  | .onlyConsumes => none
  | .producesValues =>
    if w.ownWires.toNat + delta.toNat < 2 ^ 32 then some { w with ownWires := w.ownWires + delta }
    else none

/-- The own wires of a written gate are counted, if the prototype produces values. -/
def gateDone (w : Writer) (delta : WireSize) : Option Writer :=
  match w.supportsOwnWires with
  | .producesValues => w.addOwnWires delta
  | .onlyConsumes => some w

/-- The input and the wire that are written for a wire within its bound. -/
def place (w : Writer) (wire : Wire) : Option (WireSize × WireSize) := do
  let (whichInput, max) ← match wire.whichInput with
    | some idx => do
      let size ← w.inputSizes[idx.toNat]?
      pure (idx, size)
    | none => pure (BitVec.ofNat 32 w.inputSizes.length, w.ownWires)
  let ww := wire.whichWire
  if ww < max then pure (whichInput, ww) else none

end Writer

namespace Simple

variable {T : Type} (s : CanonicalSerialize T)

/-- A gate of the simple format: its arguments, each with a value. -/
abbrev Gate (nargs : ℕ) (T : Type) : Type := Fin nargs → Wire × T

structure ReadWire (T : Type) where
  whichInput : WireSize
  whichWire : WireSize
  data : T

def argStride : ℕ := 4 * 2 + s.byteReprLen

def stride (nargs : ℕ) : ℕ := argStride s * nargs

def writeArg (w : Writer) (arg : Wire × T) : Option Bytes := do
  let (whichInput, whichWire) ← w.place arg.1
  pure (toLeBytes whichInput ++ toLeBytes whichWire ++ s.toBytes arg.2)

def writeWires {nargs : ℕ} (w : Writer) (wires : Gate nargs T) : Option Writer := do
  let buf ← (List.ofFn wires).mapM (writeArg s w)
  pure { w with written := w.written ++ buf.flatten }

/-- The gates of a prototype; each produces its own wire, if the prototype does. -/
def writeGates {nargs : ℕ} (w : Writer) : List (Gate nargs T) → Option Writer
  | [] => some w
  | gate :: gates => do
    let w ← writeWires s w gate
    let w ← w.gateDone 1
    writeGates w gates

def readArg (arg : Bytes) : Option (ReadWire T) := do
  let data ← s.fromBytes (arg.drop 8)
  pure ⟨fromLeBytes (arg.take 4), fromLeBytes ((arg.drop 4).take 4), data⟩

def readGate (gate : Bytes) : Option (List (ReadWire T)) :=
  (Chunks.exact (argStride s) gate).mapM (readArg s)

/-- The gates of a buffer, as the reader gives them one after the other. -/
def read (nargs : ℕ) (buf : Bytes) : Option (List (List (ReadWire T))) :=
  if buf.length % stride s nargs ≠ 0 then none
  else (Chunks.exact (stride s nargs) buf).mapM (readGate s)

end Simple

namespace SimdBatched

def batchSize : ℕ := 4

/-- Four gates of the batched format. -/
abbrev Gates (nargs : ℕ) : Type := Fin 4 → Fin nargs → Wire

abbrev U32x4 : Type := List (BitVec 32)

structure ReadWire where
  whichInput : U32x4
  whichWire : U32x4

/-- What is written for an argument: the inputs of the four gates, and their wires. -/
def writeArg {nargs : ℕ} (w : Writer) (inputs : Gates nargs) (arg : Fin nargs) :
    Option (List (BitVec 32)) := do
  let places ← (List.ofFn fun i => inputs i arg).mapM w.place
  pure (places.map (·.1) ++ places.map (·.2))

def writeWires {nargs : ℕ} (w : Writer) (inputs : Gates nargs) : Option Writer := do
  let buf ← (List.finRange nargs).mapM (writeArg w inputs)
  pure { w with written := w.written ++ buf.flatten.flatMap toLeBytes }

def writeGates {nargs : ℕ} (w : Writer) : List (Gates nargs) → Option Writer
  | [] => some w
  | gates :: rest => do
    let w ← writeWires w gates
    let w ← w.gateDone 4
    writeGates w rest

/-- The words of a buffer as vectors. -/
def castSlice (buf : Bytes) : Option (List U32x4) :=
  if buf.length % 16 ≠ 0 then none
  else some (Chunks.exact 4 ((Chunks.exact 4 buf).map fromLeBytes))

def read (nargs : ℕ) (buf : List U32x4) : Option (List (List ReadWire)) :=
  if buf.length % (2 * nargs) ≠ 0 then none
  else some ((Chunks.exact (nargs * 2) buf).map fun inputs =>
    (List.range nargs).map fun i => ⟨inputs.getD (i * 2) [], inputs.getD (i * 2 + 1) []⟩)

end SimdBatched

/-- An access within the inputs, of which the last are the own wires. -/
def inBounds (sizes : List ℕ) (whichInput whichWire : WireSize) : Bool :=
  match sizes[whichInput.toNat]? with
  | some size => whichWire.toNat < size
  | none => false

/-- The bounds checks of a task on its gates, where each gate gives `outputs` own wires. -/
def checkGates (inputs : List ℕ) (outputs : ℕ) : ℕ → List (List (WireSize × WireSize)) → Bool
  | _, [] => true
  | own, gate :: gates =>
    gate.all (fun access => inBounds (inputs ++ [own]) access.1 access.2) &&
      checkGates inputs outputs (own + outputs) gates

/-- The accesses of a gate in the simple format. -/
def Simple.accesses {T : Type} (gate : List (Simple.ReadWire T)) : List (WireSize × WireSize) :=
  gate.map fun wire => (wire.whichInput, wire.whichWire)

/-- The accesses of four gates in the batched format, lane by lane. -/
def SimdBatched.accesses (gates : List SimdBatched.ReadWire) : List (WireSize × WireSize) :=
  gates.flatMap fun wire => wire.whichInput.zip wire.whichWire

/-! ## Padding -/

/-- The triples that four gates of a batch assert. -/
def assertedTriples (gates : List SimdBatched.ReadWire) : List (List (WireSize × WireSize)) :=
  (List.range 4).map fun i =>
    gates.map fun wire => (wire.whichInput.getD i 0, wire.whichWire.getD i 0)

/-- The triples in batches of four; the last triple fills up the last batch. -/
def assertMultiplyBatches : List (Fin 3 → Wire) → List (SimdBatched.Gates 3)
  | [] => []
  | [a] => [![a, a, a, a]]
  | [a, b] => [![a, b, b, b]]
  | [a, b, c] => [![a, b, c, c]]
  | a :: b :: c :: d :: wires => ![a, b, c, d] :: assertMultiplyBatches wires

end EdaBitGen.MacNCheese.WireFormat

/-!
## Tasks that read wires

A task of a kind runs with or without bounds checks. The definition of a kind holds one flag, which
the first finished task of the kind sets, and a task runs without checks when the flag of its kind
is set. The tasks step in any order; whether the computation on the wires of a gate fails is open.
-/

namespace EdaBitGen.MacNCheese.WireTasks

open WireFormat

/-- How the tasks of a kind read the data of their prototypes. -/
inductive TaskFormat : Type 1
  | simple (T : Type) (s : CanonicalSerialize T) (nargs noutput : ℕ)
  | simdBatched (nargs noutput : ℕ)
  /-- Kinds that read no wires. -/
  | other

structure TaskPrototype where
  kindEncoding : ℕ
  singleArrayInputs : List ℕ
  outputs : List ℕ
  data : Bytes

/-- An input of a task: a slice of the output of another task. -/
structure TaskInput where
  source : ℕ
  start : ℕ
  stop : ℕ

structure Task where
  prototypeId : ℕ
  singleArrayInputs : List TaskInput

structure Manifest where
  prototypes : List TaskPrototype
  tasks : List Task
  taskDefinitions : ℕ → TaskFormat

/-- A read of a wire, with the sizes of the inputs and of the output at that moment. -/
structure Access where
  whichInput : WireSize
  whichWire : WireSize
  sizes : List ℕ

def Access.InBounds (a : Access) : Prop := inBounds a.sizes a.whichInput a.whichWire = true

/-- The arguments of a gate in the simple format, each checked just before it is read. -/
def readArgs (verified : Bool) (sizes : List ℕ) : List (WireSize × WireSize) → List Access × Bool
  | [] => ([], true)
  | (whichInput, whichWire) :: args =>
    if !verified && !inBounds sizes whichInput whichWire then ([], false)
    else
      let (accesses, ok) := readArgs verified sizes args
      (⟨whichInput, whichWire, sizes⟩ :: accesses, ok)

/-- The loop over the gates of the simple format; a gate whose data cannot be read is `none`. The
length of the output is returned when the loop gets to its end. -/
def simpleWireTaskInner (verified : Bool) (inputs : List ℕ) (noutput : ℕ) :
    (ℕ → Bool) → ℕ → List (Option (List (WireSize × WireSize))) → List Access × Option ℕ
  | _, out, [] => ([], some out)
  | _, _, none :: _ => ([], none)
  | fails, out, some args :: gates =>
    let (accesses, ok) := readArgs verified (inputs ++ [out]) args
    if !ok || fails 0 then (accesses, none)
    else
      let (rest, result) :=
        simpleWireTaskInner verified inputs noutput (fun i => fails (i + 1)) (out + noutput) gates
      (accesses ++ rest, result)

/-- The checks of an argument of four gates: first all inputs, then all wires. -/
def checkLanes (sizes : List ℕ) (arg : SimdBatched.ReadWire) : Bool :=
  arg.whichInput.all (fun whichInput => whichInput.toNat < sizes.length) &&
    (arg.whichInput.zip arg.whichWire).all fun lane => lane.2.toNat < sizes.getD lane.1.toNat 0

def smallBinaryMacTaskInner (verified : Bool) (inputs : List ℕ) (noutput : ℕ) :
    (ℕ → Bool) → ℕ → List (List SimdBatched.ReadWire) → List Access × Option ℕ
  | _, out, [] => ([], some out)
  | fails, out, chunk :: chunks =>
    if !verified && !chunk.all (checkLanes (inputs ++ [out])) then ([], none)
    else
      let accesses := (SimdBatched.accesses chunk).map fun a => ⟨a.1, a.2, inputs ++ [out]⟩
      if fails 0 then (accesses, none)
      else
        let (rest, result) := smallBinaryMacTaskInner verified inputs noutput
          (fun i => fails (i + 1)) (out + noutput * 4) chunks
        (accesses ++ rest, result)

/-- The body of a task on inputs of the given sizes. A body that reads no wires gives `otherOut`. -/
def runBody (format : TaskFormat) (p : TaskPrototype) (verified : Bool) (inputs : List ℕ)
    (fails : ℕ → Bool) (otherOut : ℕ) : List Access × Option ℕ :=
  match format with
  | .other => ([], some otherOut)
  | .simple _ s nargs noutput =>
    if 1 < p.outputs.length then ([], none)
    else if p.data.length % Simple.stride s nargs ≠ 0 then ([], none)
    else
      let gates := (Chunks.exact (Simple.stride s nargs) p.data).map fun gate =>
        (Simple.readGate s gate).map Simple.accesses
      simpleWireTaskInner verified inputs noutput fails 0 gates
  | .simdBatched nargs noutput =>
    if 1 < p.outputs.length then ([], none)
    else
      let numOuts := p.outputs.getD 0 0
      match (SimdBatched.castSlice p.data).bind (SimdBatched.read nargs) with
      | none => ([], none)
      | some chunks =>
        if numOuts ≠ chunks.length * noutput * 4 then ([], none)
        else if ¬(inputs ++ [0]).all (fun x => x < 2 ^ 31 - 1) ∨ ¬numOuts < 2 ^ 31 - 1 ∨
            ¬inputs.length + 1 < 2 ^ 31 - 1 then ([], none)
        else smallBinaryMacTaskInner verified inputs noutput fails 0 chunks

/-! ## The runner -/

/-- Where a task is. -/
inductive Phase
  | waiting
  | started (prototypeHasBeenVerified : Bool)
  | ran (out : ℕ)
  | finished (out : ℕ)
  | failed

structure State where
  phase : ℕ → Phase
  /-- The flag of each task definition. -/
  verified : ℕ → Bool
  /-- The mode in which a task has run. -/
  mode : ℕ → Option Bool
  accesses : List Access

def State.init : State where
  phase _ := .waiting
  verified _ := false
  mode _ := none
  accesses := []

/-- The outputs of a finished task, as far as a later task can see it. -/
def State.output (s : State) (t : ℕ) : Option ℕ :=
  match s.phase t with
  | .finished out => some out
  | _ => none

/-- The size of an input of a task. -/
def singleArrayInput (s : State) (p : TaskPrototype) (input : TaskInput) (idx : ℕ) : Option ℕ := do
  let dependencyOutput ← s.output input.source
  if input.stop < input.start then none
  else do
    let count := input.stop - input.start
    let expected ← p.singleArrayInputs[idx]?
    if expected ≠ count then none
    else if dependencyOutput < input.stop then none
    else pure count

def singleArrayInputs (s : State) (p : TaskPrototype) (task : Task) : Option (List ℕ) :=
  task.singleArrayInputs.zipIdx.mapM fun input => singleArrayInput s p input.1 input.2

/-- A step of a task: it reads the flag of its kind, runs its body, or finishes. -/
inductive Action
  | start (t : ℕ)
  | body (t : ℕ) (fails : ℕ → Bool) (otherOut : ℕ)
  | finish (t : ℕ)

def Manifest.prototype (m : Manifest) (t : ℕ) : Option TaskPrototype := do
  let task ← m.tasks[t]?
  m.prototypes[task.prototypeId]?

def step (m : Manifest) (s : State) : Action → Option State
  | .start t => do
    let p ← m.prototype t
    match s.phase t with
    | .waiting =>
      pure { s with phase := Function.update s.phase t (.started (s.verified p.kindEncoding)) }
    | _ => none
  | .body t fails otherOut => do
    let task ← m.tasks[t]?
    let p ← m.prototype t
    match s.phase t with
    | .started verified =>
      match singleArrayInputs s p task with
      | none => pure { s with phase := Function.update s.phase t .failed }
      | some inputs =>
        let (accesses, result) :=
          runBody (m.taskDefinitions p.kindEncoding) p verified inputs fails otherOut
        pure { s with
          phase := Function.update s.phase t (result.elim .failed .ran)
          mode := Function.update s.mode t (some verified)
          accesses := s.accesses ++ accesses }
    | _ => none
  | .finish t => do
    let p ← m.prototype t
    match s.phase t with
    | .ran out =>
      -- The flag is set before the output counts are compared.
      let verified := Function.update s.verified p.kindEncoding true
      if p.outputs.all fun count => count = out then
        pure { s with phase := Function.update s.phase t (.finished out), verified }
      else pure { s with phase := Function.update s.phase t .failed, verified }
    | _ => none

end EdaBitGen.MacNCheese.WireTasks
