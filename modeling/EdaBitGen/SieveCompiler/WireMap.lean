import Mathlib

/-!
# Wire maps

A wire map is its allocations.  A child map borrows ranges of its parent, each at its own place.
-/

namespace EdaBitGen.SieveCompiler

inductive Error
  /-- An assertion or an unwrapped failure. -/
  | panic
  | overlap
  | notFound
  | notMutable
  | conflict
  | numRanges
  | rangeSize
  | counterWires
  | counterTooLarge
deriving DecidableEq

def require (p : Prop) [Decidable p] (e : Error) : Except Error Unit :=
  if p then .ok () else .error e

structure WireRange where
  start : ℕ
  inclusiveEnd : ℕ
deriving DecidableEq

namespace WireRange

def len (r : WireRange) : ℕ := if r.start ≤ r.inclusiveEnd then r.inclusiveEnd - r.start + 1 else 0

def Has (r : WireRange) (wire : ℕ) : Prop := r.start ≤ wire ∧ wire ≤ r.inclusiveEnd

def overlaps (r r' : WireRange) : Bool :=
  r.start ≤ r'.inclusiveEnd && r'.start ≤ r.inclusiveEnd

end WireRange

/-- A wire of a map: its own one, or one that it borrows from its parent. -/
inductive Cell (V : Type)
  | owned (value : Option V)
  | borrowedMutable (wire : ℕ)
  | borrowedImmutable (wire : ℕ)
deriving DecidableEq

def Cell.isMutable {V : Type} : Cell V → Bool
  | .owned _ | .borrowedMutable _ => true
  | .borrowedImmutable _ => false

structure Allocation (V : Type) where
  start : ℕ
  cells : List (Cell V)

namespace Allocation

variable {V : Type}

def stop (a : Allocation V) : ℕ := a.start + a.cells.length

def isMutable (a : Allocation V) : Bool := a.cells.all Cell.isMutable

end Allocation

structure DestinationRange where
  src : WireRange
  dstStart : ℕ

abbrev WireMap (V : Type) : Type := List (Allocation V)

namespace WireMap

variable {V : Type}

def allocFromAllocation (m : WireMap V) (start : ℕ) (cells : List (Cell V)) :
    Except Error (WireMap V) := do
  require (cells.length ≠ 0) .panic
  require (cells.length < 2 ^ 48) .panic
  require (m.all fun a => a.cells.length = 0 || start + cells.length ≤ a.start || a.stop ≤ start)
    .overlap
  .ok (m ++ [⟨start, cells⟩])

def alloc (m : WireMap V) (r : WireRange) : Except Error (WireMap V) :=
  if r.start ≤ r.inclusiveEnd then
    m.allocFromAllocation r.start (List.replicate (r.inclusiveEnd - r.start + 1) (.owned none))
  else .ok m

/-- The allocation of a wire. -/
def allocationOf (m : WireMap V) (wire : ℕ) : Option (Allocation V) :=
  m.find? fun a => a.start ≤ wire && wire < a.stop

def lookup (m : WireMap V) (wire : ℕ) : Option (Cell V) :=
  (m.allocationOf wire).bind fun a => a.cells[wire - a.start]?

def allocRangeIfUnallocated (m : WireMap V) (r : WireRange) : Except Error (WireMap V) :=
  if r.start ≤ r.inclusiveEnd then
    match m.allocationOf r.start with
    | some a => do
      require (r.inclusiveEnd - r.start + 1 ≤ a.cells.length - (r.start - a.start)) .overlap
      .ok m
    | none => m.alloc r
  else .ok m

/-- The allocation that has the whole range. -/
def immutablyBorrowAllocation (m : WireMap V) (r : WireRange) : Except Error (Allocation V) :=
  match m.allocationOf r.start with
  | some a => do
    require (r.inclusiveEnd < a.stop) .notFound
    .ok a
  | none => .error .notFound

/-- The wires of a range. -/
def wiresOf (r : WireRange) : List ℕ := (List.range r.len).map (r.start + ·)

def borrowMutables (parent : WireMap V) :
    List DestinationRange → List WireRange → WireMap V → Except Error (List WireRange × WireMap V)
  | [], mutableRanges, out => .ok (mutableRanges, out)
  | range :: ranges, mutableRanges, out =>
    if range.src.len = 0 then borrowMutables parent ranges mutableRanges out
    else do
      require (!mutableRanges.any range.src.overlaps) .conflict
      let ownAlloc ← parent.immutablyBorrowAllocation range.src
      require (ownAlloc.isMutable) .notMutable
      let out ← out.allocFromAllocation range.dstStart
        ((wiresOf range.src).map Cell.borrowedMutable)
      borrowMutables parent ranges (range.src :: mutableRanges) out

def borrowImmutables (parent : WireMap V) (mutableRanges : List WireRange) :
    List DestinationRange → WireMap V → Except Error (WireMap V)
  | [], out => .ok out
  | range :: ranges, out =>
    if range.src.len = 0 then borrowImmutables parent mutableRanges ranges out
    else do
      require (!mutableRanges.any range.src.overlaps) .conflict
      let _ ← parent.immutablyBorrowAllocation range.src
      let out ← out.allocFromAllocation range.dstStart
        ((wiresOf range.src).map Cell.borrowedImmutable)
      borrowImmutables parent mutableRanges ranges out

def borrowChild (parent : WireMap V) (mutableRanges immutableRanges : List DestinationRange) :
    Except Error (WireMap V) := do
  let (borrowed, out) ← borrowMutables parent mutableRanges [] []
  borrowImmutables parent borrowed immutableRanges out

end WireMap

end EdaBitGen.SieveCompiler

/-!
## Iterated calls

A call of a `map` function becomes one function call for each iteration, and each function call
makes a child wire map for each field.
-/

namespace EdaBitGen.SieveCompiler

inductive FieldType
  | f2
  | f61p
  | f128p
deriving DecidableEq

def FieldType.modulus : FieldType → ℕ
  | .f2 => 2
  | .f61p => 2 ^ 61 - 1
  | .f128p => 2 ^ 128 - 159

/-! ## The reader -/

structure FunctionDefinition where
  inputSizes : List (FieldType × ℕ)
  outputSizes : List (FieldType × ℕ)

structure MapDefinition where
  func : FunctionDefinition
  numEnv : ℕ
  iterCount : ℕ
  enumerated : Bool

structure CounterInfo where
  numEnvForField : ℕ
  fieldType : FieldType
  numWires : ℕ
  value : ℕ

structure FunctionCall where
  outRanges : FieldType → List WireRange
  inRanges : FieldType → List WireRange
  counterInfo : Option CounterInfo

def makeRanges (fnSizes : List (FieldType × ℕ)) (ranges : List WireRange) :
    Except Error (FieldType → List WireRange) := do
  require (ranges.length = fnSizes.length) .numRanges
  require ((fnSizes.zip ranges).all fun p => p.1.2 = p.2.len) .rangeSize
  .ok fun field => ((fnSizes.zip ranges).filter fun p => p.1.1 = field).map (·.2)

/-- The part of a range that an iteration uses. -/
def window (iterCount i : ℕ) (wr : WireRange) : WireRange :=
  let windowSize := wr.len / iterCount
  ⟨wr.start + i * windowSize, wr.inclusiveEnd - (iterCount - (i + 1)) * windowSize⟩

def counterInfo (d : MapDefinition) (i : ℕ) : Except Error (Option CounterInfo) :=
  if d.enumerated then
    match d.func.inputSizes[d.numEnv]? with
    | none => .error .panic
    | some (fieldType, numWires) => do
      let numEnvForField :=
        ((d.func.inputSizes.take d.numEnv).filter fun p => p.1 = fieldType).length
      require (fieldType = .f2 ∨ numWires = 1) .counterWires
      .ok (some ⟨numEnvForField, fieldType, numWires, i⟩)
  else .ok none

def callIteration (d : MapDefinition) (dst args : List WireRange) (i : ℕ) :
    Except Error FunctionCall := do
  let dst := dst.map (window d.iterCount i)
  let args := args.mapIdx fun j wr => if j < d.numEnv then wr else window d.iterCount i wr
  -- The caller gives no range for the index.
  let inFnSizes := (d.func.inputSizes.zipIdx.filter fun p => !d.enumerated || p.2 ≠ d.numEnv).map
    (·.1)
  let outRanges ← makeRanges d.func.outputSizes dst
  let inRanges ← makeRanges inFnSizes args
  let counterInfo ← counterInfo d i
  .ok ⟨outRanges, inRanges, counterInfo⟩

def callMap (d : MapDefinition) (dst args : List WireRange) : Except Error (List FunctionCall) :=
  (List.range d.iterCount).mapM (callIteration d dst args)

/-! ## The child wire map -/

def placeOutputs : ℕ → List WireRange → List DestinationRange
  | _, [] => []
  | outputPos, range :: ranges =>
    ⟨range, outputPos⟩ :: placeOutputs (outputPos + range.len) ranges

/-- The second argument is the index of the first range. -/
def placeInputs (counter : Option CounterInfo) : ℕ → ℕ → List WireRange → List DestinationRange
  | _, _, [] => []
  | i, inputPos, range :: ranges =>
    -- Leave room for the counter.
    let inputPos := match counter with
      | some c => if i = c.numEnvForField then inputPos + c.numWires else inputPos
      | none => inputPos
    ⟨range, inputPos⟩ :: placeInputs counter (i + 1) (inputPos + range.len) ranges

def toFe (field : FieldType) (x : ℕ) : Except Error (ZMod field.modulus) := do
  require (x < field.modulus) .counterTooLarge
  .ok x

/-- The bits of `x`, the least significant one first. -/
def toKBits (field : FieldType) (x k : ℕ) : Except Error (List (ZMod field.modulus)) := do
  let bits : List (ZMod field.modulus) := x.bits.map fun b => if b then 1 else 0
  require (bits.length ≤ k) .counterTooLarge
  .ok (bits ++ List.replicate (k - bits.length) 0)

/-- Allocate the counter's wires and put the values in them. -/
def allocCounter {V : Type} (out : WireMap V) (start : ℕ) (values : List V) :
    Except Error (WireMap V) :=
  if values.length = 0 then do
    -- The end of an empty range at zero does not exist.
    require (start ≠ 0) .panic
    .ok out
  else out.allocFromAllocation start (values.map fun v => .owned (some v))

def counterValues (field : FieldType) (c : CounterInfo) : Except Error (List (ZMod field.modulus)) :=
  if field = .f2 then do
    let valueLeBits ← toKBits field c.value c.numWires
    .ok valueLeBits.reverse
  else do
    let counter ← toFe field c.value
    .ok [counter]

/-- The counter that a field's map has. -/
def FunctionCall.counterFor (call : FunctionCall) (field : FieldType) : Option CounterInfo :=
  call.counterInfo.filter fun c => c.fieldType = field

def allocOutputs {V : Type} (parent : WireMap V) (outRanges : List WireRange) :
    Except Error (WireMap V) :=
  outRanges.foldlM WireMap.allocRangeIfUnallocated parent

def childWireMap (call : FunctionCall) (field : FieldType) (parent : WireMap (ZMod field.modulus)) :
    Except Error (WireMap (ZMod field.modulus)) := do
  let outRanges := call.outRanges field
  let parent ← allocOutputs parent outRanges
  let totalOutputs := (outRanges.map WireRange.len).sum
  let out ← parent.borrowChild (placeOutputs 0 outRanges)
    (placeInputs (call.counterFor field) 0 totalOutputs (call.inRanges field))
  match call.counterFor field with
  | some c => do
    let values ← counterValues field c
    allocCounter out (totalOutputs + c.numEnvForField) values
  | none => .ok out

end EdaBitGen.SieveCompiler
