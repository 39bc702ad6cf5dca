import EdaBitGen.Memory.Slices

/-!
# Calls over several fields

Each field has a memory of its own.  A call pushes a frame on the memory of every type that the
function has, and then passes the ranges of its outputs and inputs, one group after the other.
-/

namespace EdaBitGen

/-- The number of a field. -/
def TypeId : Type := Fin 256
deriving DecidableEq

/-- What the compiler reads of a gate. -/
structure GateM where
  typeIds : List TypeId
  outWire : Option ℕ

/-- A function declaration, with every type that its signature or its body has. -/
structure FuncDecl where
  outputCounts : List (TypeId × ℕ)
  inputCounts : List (TypeId × ℕ)
  bodyMax : Option ℕ
  typeIds : List TypeId
  nodup : typeIds.Nodup
  mem_typeIds : ∀ g ∈ outputCounts ++ inputCounts, g.1 ∈ typeIds

namespace FuncDecl

/-- The outputs and then the inputs. -/
def groups (func : FuncDecl) : List (TypeId × ℕ) := func.outputCounts ++ func.inputCounts

/-- The number of wires of all types. -/
def argsCount (func : FuncDecl) : Option ℕ := some (func.groups.map (·.2)).sum

/-- The maximum of the output wires of the gates. -/
def outputWireMax (gates : List GateM) : Option ℕ :=
  gates.foldl (fun acc g => max acc g.outWire) none

def newFunction (gates : List GateM) (outputCounts inputCounts : List (TypeId × ℕ)) :
    FuncDecl where
  outputCounts := outputCounts
  inputCounts := inputCounts
  bodyMax := outputWireMax gates
  typeIds := (List.finRange 256).filter fun t =>
    gates.any (fun g => decide (t ∈ g.typeIds)) || decide (t ∈ (outputCounts ++ inputCounts).map (·.1))
  nodup := (List.nodup_finRange 256).filter _
  mem_typeIds g hg := by
    refine List.mem_filter.2 ⟨List.mem_finRange _, ?_⟩
    have hmem : g.1 ∈ (outputCounts ++ inputCounts).map (·.1) := List.mem_map_of_mem hg
    rw [decide_eq_true hmem, Bool.or_true]

section Call

variable {X : TypeId → Type} [∀ t, Inhabited (X t)]

/-- Push a frame on the memory of each type. -/
def pushFrames (func : FuncDecl) (eval : ∀ t, Memory (X t)) : ∀ t, Memory (X t) :=
  func.typeIds.foldl
    (fun eval t => Function.update eval t ((eval t).pushFrame func.argsCount func.bodyMax)) eval

/-- Pass the ranges of the groups to the memories of their types, from `prev` on. -/
def allocateSlices (allowAllocation : Bool) : List (TypeId × ℕ) → List (ℕ × ℕ) → ℕ →
    (∀ t, Memory (X t)) → Option (ℕ × ∀ t, Memory (X t))
  | [], [], prev, eval => some (prev, eval)
  | (t, count) :: counts, (srcFirst, srcLast) :: ranges, prev, eval => do
    let m ← (eval t).allocateSlice srcFirst srcLast prev count allowAllocation
    allocateSlices allowAllocation counts ranges (prev + count) (Function.update eval t m)
  | _, _, _, _ => none

/-- The frames of a call, before its body is evaluated. -/
def evaluateCallGate (func : FuncDecl) (outRanges inRanges : List (ℕ × ℕ))
    (eval : ∀ t, Memory (X t)) : Option (∀ t, Memory (X t)) := do
  let (prev, eval) ← allocateSlices true func.outputCounts outRanges 0 (func.pushFrames eval)
  let (_, eval) ← allocateSlices false func.inputCounts inRanges prev eval
  some eval

end Call

/-! ## The arguments that a call prescribes -/

/-- The number of wires of a type. -/
def wireCount (t : TypeId) : List (TypeId × ℕ) → ℕ
  | [] => 0
  | (ty, count) :: counts => if ty = t then count + wireCount t counts else wireCount t counts

/-- The wires of the caller that the ranges name for the wires of a type. -/
def namedWires (t : TypeId) : List (TypeId × ℕ) → List (ℕ × ℕ) → List ℕ
  | (ty, count) :: counts, (srcFirst, _) :: ranges =>
    if ty = t then List.range' srcFirst count ++ namedWires t counts ranges
    else namedWires t counts ranges
  | _, _ => []

/-- The ranges of a type, numbered per type. -/
def sliceOps {Y : Type} (t : TypeId) (allowAllocation : Bool) :
    List (TypeId × ℕ) → List (ℕ × ℕ) → ℕ → List (WireOp Y)
  | (ty, count) :: counts, (srcFirst, srcLast) :: ranges, start =>
    if ty = t then .allocateSlice srcFirst srcLast start count allowAllocation ::
      sliceOps t allowAllocation counts ranges (start + count)
    else sliceOps t allowAllocation counts ranges start
  | _, _, _ => []

/-- What a call does to the wires of a type. -/
def callOps {Y : Type} (func : FuncDecl) (outRanges inRanges : List (ℕ × ℕ)) (t : TypeId) :
    List (WireOp Y) :=
  .pushFrame func.argsCount func.bodyMax ::
    (sliceOps t true func.outputCounts outRanges 0 ++
      sliceOps t false func.inputCounts inRanges (wireCount t func.outputCounts))

end FuncDecl

/-- The place of a wire of the frame `level`, which may be an argument of it. -/
def Memory.wirePlace {Y : Type} (m : Memory Y) (level id : ℕ) : Option Place := do
  let f ← m.stack[level]?
  if id < f.callframeSize then (Memory.argument f id).map AbsoluteAddr.place
  else some (f.place level id)

/-- The current frame has as many arguments as there are named wires, and each is another name of
its wire of the caller. -/
def Memory.Aliases {Y : Type} (m : Memory Y) (wires : List ℕ) : Prop :=
  ∃ f, m.stack[m.top]? = some f ∧ f.callframeSize = wires.length ∧
    ∀ j w, wires[j]? = some w →
      ∃ a, Memory.argument f j = some a ∧ m.wirePlace (m.top - 1) w = some a.place

namespace FuncDecl

/-- The ranges of a call can be passed, for each type on its own. -/
def Callable (func : FuncDecl) {X : TypeId → Type} (s : ∀ t, Store (X t))
    (outRanges inRanges : List (ℕ × ℕ)) : Prop :=
  outRanges.length = func.outputCounts.length ∧ inRanges.length = func.inputCounts.length ∧
    ∀ t ∈ func.typeIds, (s t).WellFormed (func.callOps outRanges inRanges t)

/-- Every call gives every type the arguments that its ranges name. -/
def PassesArguments (func : FuncDecl) : Prop :=
  ∀ (X : TypeId → Type) [∀ t, Inhabited (X t)] (s : ∀ t, Store (X t)) (eval : ∀ t, Memory (X t))
    (outRanges inRanges : List (ℕ × ℕ)), (∀ t, Refines (s t) (eval t)) →
    func.Callable s outRanges inRanges →
    ∃ eval', func.evaluateCallGate outRanges inRanges eval = some eval' ∧
      ∀ t ∈ func.typeIds, (eval' t).Aliases
        (namedWires t func.outputCounts outRanges ++ namedWires t func.inputCounts inRanges)

end FuncDecl

end EdaBitGen
