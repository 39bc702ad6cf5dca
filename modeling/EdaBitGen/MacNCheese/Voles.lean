import EdaBitGen.MacNCheese.CircuitBuilder

/-!
# The VOLE supplier

For each field there are some current sources of VOLEs, used in turn, and leftovers.  A source
always keeps what its next extension needs.
-/

namespace EdaBitGen.MacNCheese

/-! ## Sizes of an extension -/

structure LpnParams where
  weight : ℕ
  log2m : ℕ
  rows : ℕ

namespace LpnParams

def m (p : LpnParams) : ℕ := 2 ^ p.log2m

def cols (p : LpnParams) : ℕ := p.m * p.weight

def volesNeededForExtend (p : LpnParams) (fieldExtensionSize : ℕ) : ℕ :=
  p.rows + p.weight + fieldExtensionSize

def totalOutputVoles (p : LpnParams) : ℕ := p.cols

end LpnParams

def lpnExtendParamsWeight : ℕ := 279

def lpnExtendParamsLogM : ℕ := 10

def extendParams (fieldExtensionSize : ℕ) : LpnParams where
  weight := lpnExtendParamsWeight
  log2m := lpnExtendParamsLogM
  rows := 2 ^ 16 - fieldExtensionSize - lpnExtendParamsWeight

namespace FieldMacType

/-- The degree of the tag field. -/
def degree : FieldMacType → ℕ
  | .binaryF63b | .f63b => 63
  | .f61p | .f128p => 1

/-- The tag field with values in its prime field. -/
def primeFieldType : FieldMacType → FieldMacType
  | .binaryF63b | .f63b => .binaryF63b
  | .f61p => .f61p
  | .f128p => .f128p

def baseVolesNeeded (field : FieldMacType) : ℕ :=
  (extendParams field.degree).volesNeededForExtend field.degree

def volesOutputted (field : FieldMacType) : ℕ := (extendParams field.degree).totalOutputVoles

end FieldMacType

/-! ## Prototypes -/

structure CircuitBuilder where
  numPrototypes : ℕ
  tasks : WipTasks

namespace CircuitBuilder

def new : CircuitBuilder := ⟨0, []⟩

def registerPrototype (cb : CircuitBuilder) (proto : TaskPrototypeRef) :
    Except Panic (TaskPrototypeRef × CircuitBuilder) := do
  require (cb.numPrototypes < 2 ^ 32) .tooManyPrototypes
  .ok (proto, { cb with numPrototypes := cb.numPrototypes + 1 })

def newVoleExtendPrototype (cb : CircuitBuilder) (field : FieldMacType) (count : ℕ) :
    Except Panic (TaskPrototypeRef × CircuitBuilder) := do
  require (count ≠ 0 ∧ field.volesOutputted * count < 2 ^ 32) .assertion
  cb.registerPrototype {
    kind := .voleExtension field
    singleArrayInputs := List.replicate count ⟨.randomMac field, field.baseVolesNeeded⟩
    multiArrayInputs := []
    outputs := [⟨.randomMac field, field.volesOutputted * count⟩] }

def newCopyBaseSvolePrototype (cb : CircuitBuilder) (field : FieldMacType) :
    Except Panic (TaskPrototypeRef × CircuitBuilder) := do
  require (field.primeFieldType = field) .assertion
  cb.registerPrototype {
    kind := .baseSvole field
    singleArrayInputs := []
    multiArrayInputs := []
    outputs := [⟨.randomMac field, field.baseVolesNeeded⟩] }

def instantiate (cb : CircuitBuilder) (proto : TaskPrototypeRef) (singles : List WireSlice)
    (multis : List (List WireSlice)) : Except Panic (TaskOutputRef × CircuitBuilder) := do
  let (out, tasks) ← MacNCheese.instantiate cb.tasks proto singles multis
  .ok (out, { cb with tasks })

end CircuitBuilder

/-! ## The supplier -/

structure VoleState where
  voleProto : TaskPrototypeRef
  currentVoles : List WireSlice
  leftovers : List WireSlice
  voleIndex : ℕ

structure VoleSupplier where
  voles : FieldMacType → Option VoleState
  voleConcurrency : FieldMacType → Option ℕ
  defaultVoleConcurrency : ℕ

namespace VoleSupplier

def new (defaultVoleConcurrency : ℕ) (voleConcurrency : FieldMacType → Option ℕ) :
    VoleSupplier :=
  ⟨fun _ => none, voleConcurrency, defaultVoleConcurrency⟩

def concurrency (s : VoleSupplier) (field : FieldMacType) : ℕ :=
  (s.voleConcurrency field).getD s.defaultVoleConcurrency

def getVole (voles : List WireSlice) (i : ℕ) : Except Panic WireSlice :=
  match voles[i]? with
  | some ws => .ok ws
  | none => .error .assertion

/-- The size of the input of an extension. -/
def neededFor (proto : TaskPrototypeRef) : Except Panic ℕ :=
  match proto.singleArrayInputs with
  | shape :: _ => .ok shape.count
  | [] => .error .assertion

/-- What the supplier works on. -/
structure Stock where
  cb : CircuitBuilder
  currentVoles : List WireSlice
  leftovers : List WireSlice
  voleIndex : ℕ

/-- An extension of one slice. -/
def extend (cb : CircuitBuilder) (proto : TaskPrototypeRef) (field : FieldMacType)
    (ws : WireSlice) : Except Panic (WireSlice × CircuitBuilder) := do
  let (out, cb) ← cb.instantiate proto [ws] []
  let voles ← out.wires (.randomMac field)
  .ok (voles, cb)

/-- One round of the fan-out: split a source, or extend it. -/
def fanOutStep (proto : TaskPrototypeRef) (field : FieldMacType) (needed : ℕ) (st : Stock) :
    Except Panic Stock := do
  let currentVole ← getVole st.currentVoles st.voleIndex
  if 2 * needed ≤ currentVole.len then do
    let newVole ← currentVole.slice 0 (some needed)
    let rest ← currentVole.slice needed none
    let currentVoles := st.currentVoles.set st.voleIndex rest ++ [newVole]
    .ok { st with
      currentVoles
      voleIndex := if currentVoles.length ≤ st.voleIndex then 0 else st.voleIndex }
  else do
    let leftover ← currentVole.slice needed none
    let input ← currentVole.slice 0 (some needed)
    let (extended, cb) ← extend st.cb proto field input
    .ok {
      cb
      currentVoles := st.currentVoles.set st.voleIndex extended
      leftovers := if 0 < leftover.len then st.leftovers ++ [leftover] else st.leftovers
      voleIndex := if st.currentVoles.length ≤ st.voleIndex + 1 then 0 else st.voleIndex + 1 }

/-- The first argument is more than the rounds that the loop takes. -/
def fanOut (proto : TaskPrototypeRef) (field : FieldMacType) (needed concurrency : ℕ) :
    ℕ → Stock → Except Panic Stock
  | 0, _ => .error .assertion
  | fuel + 1, st =>
    if st.currentVoles.length < concurrency then do
      fanOut proto field needed concurrency fuel (← fanOutStep proto field needed st)
    else .ok st

/-- The sources of a field at its first use. -/
def start (cb : CircuitBuilder) (field : FieldMacType) (concurrency : ℕ) :
    Except Panic (TaskPrototypeRef × Stock) := do
  let (voleProto, cb) ← cb.newVoleExtendPrototype field 1
  -- Fields whose values are not in the prime field are not supported.
  require (field.primeFieldType = field) .assertion
  let (baseVoleProto, cb) ← cb.newCopyBaseSvolePrototype field
  let (out, cb) ← cb.instantiate baseVoleProto [] []
  let base ← out.wires (.randomMac field)
  let needed ← neededFor voleProto
  let st ← fanOut voleProto field needed concurrency (3 * concurrency + 2) ⟨cb, [base], [], 0⟩
  .ok (voleProto, st)

/-- Take from the leftovers, the last one first. -/
def takeLeftovers : ℕ → List WireSlice → ℕ → List WireSlice →
    Except Panic (List WireSlice × ℕ × List WireSlice)
  | 0, _, _, _ => .error .assertion
  | fuel + 1, leftovers, count, out =>
    match leftovers.getLast? with
    | some leftover =>
      if 0 < count then do
        let toTake := min leftover.len count
        let taken ← leftover.slice 0 (some toTake)
        let rest ← leftover.slice toTake none
        let leftovers := leftovers.dropLast ++ if 0 < rest.len then [rest] else []
        takeLeftovers fuel leftovers (count - toTake) (out ++ [taken])
      else .ok (leftovers, count, out)
    | none => .ok (leftovers, count, out)

/-- Go to the next source, and extend it if it has no more than its extension needs. -/
def rotate (proto : TaskPrototypeRef) (field : FieldMacType) (needed : ℕ) (st : Stock) :
    Except Panic Stock := do
  let voleIndex := if st.voleIndex + 1 = st.currentVoles.length then 0 else st.voleIndex + 1
  let currentVole ← getVole st.currentVoles voleIndex
  require (needed ≤ currentVole.len) .assertion
  if currentVole.len = needed then do
    let (extended, cb) ← extend st.cb proto field currentVole
    .ok { st with cb, currentVoles := st.currentVoles.set voleIndex extended, voleIndex }
  else .ok { st with voleIndex }

def takeCurrent (proto : TaskPrototypeRef) (field : FieldMacType) (needed : ℕ) :
    ℕ → Stock → ℕ → List WireSlice → Except Panic (Stock × List WireSlice)
  | 0, _, _, _ => .error .assertion
  | fuel + 1, st, count, out =>
    if 0 < count then do
      let currentVole ← getVole st.currentVoles st.voleIndex
      if currentVole.len = needed then do
        takeCurrent proto field needed fuel (← rotate proto field needed st) count out
      else do
        let toTake := min (currentVole.len - needed) count
        let taken ← currentVole.slice 0 (some toTake)
        let rest ← currentVole.slice toTake none
        takeCurrent proto field needed fuel
          { st with currentVoles := st.currentVoles.set st.voleIndex rest } (count - toTake)
          (out ++ [taken])
    else .ok (st, out)

/-- The state of a field, made at its first use. -/
def entry (s : VoleSupplier) (cb : CircuitBuilder) (field : FieldMacType) :
    Except Panic (TaskPrototypeRef × Stock) :=
  match s.voles field with
  | some v => .ok (v.voleProto, ⟨cb, v.currentVoles, v.leftovers, v.voleIndex⟩)
  | none => start cb field (s.concurrency field)

/-- The field and the number of VOLEs that a prototype asks for. -/
def request (proto : TaskPrototypeRef) : Option (FieldMacType × ℕ) :=
  proto.multiArrayInputs.findSome? fun input =>
    match input.ty with
    | .randomMac field => some (field, input.count)
    | .mac _ => none

def supplyVoles (s : VoleSupplier) (cb : CircuitBuilder) (proto : TaskPrototypeRef) :
    Except Panic (List WireSlice × VoleSupplier × CircuitBuilder) := do
  require (proto.multiArrayInputs.length = 1) .assertion
  match request proto with
  | none => .error .assertion
  | some (field, count) =>
    let (voleProto, st) ← s.entry cb field
    let (leftovers, rest, out) ← takeLeftovers (st.leftovers.length + 2) st.leftovers count []
    let needed ← neededFor voleProto
    let (st, out) ← takeCurrent voleProto field needed (2 * rest + 2) { st with leftovers } rest out
    let v := ⟨voleProto, st.currentVoles, st.leftovers, st.voleIndex⟩
    .ok (out, { s with voles := fun f => if f = field then some v else s.voles f }, st.cb)

end VoleSupplier

/-- A supplier with its builder, and the slices it has given away: returned ones, and the inputs of
its extensions. -/
structure SupplyState where
  supplier : VoleSupplier
  cb : CircuitBuilder
  used : List WireSlice

/-- The inputs of the tasks that a call added. -/
def newInputs (before after : CircuitBuilder) : List WireSlice :=
  (after.tasks.drop before.tasks.length).flatMap (·.singleArrayInputs)

/-- A prototype that asks for some random MACs of a field with base VOLEs. -/
def Suppliable (proto : TaskPrototypeRef) (field : FieldMacType) (count : ℕ) : Prop :=
  proto.multiArrayInputs = [⟨.randomMac field, count⟩] ∧ field.primeFieldType = field ∧
    0 < count ∧ count < 2 ^ 32

/-- The states after calls of the supplier, with other tasks in between. -/
inductive SupplyState.Reached (defaultVoleConcurrency : ℕ)
    (voleConcurrency : FieldMacType → Option ℕ) : SupplyState → Prop
  | new : Reached defaultVoleConcurrency voleConcurrency
      ⟨.new defaultVoleConcurrency voleConcurrency, .new, []⟩
  | register {st : SupplyState} {proto proto' : TaskPrototypeRef} {cb : CircuitBuilder} :
      Reached defaultVoleConcurrency voleConcurrency st →
      st.cb.registerPrototype proto = .ok (proto', cb) →
      Reached defaultVoleConcurrency voleConcurrency { st with cb }
  | instantiate {st : SupplyState} {proto : TaskPrototypeRef} {singles : List WireSlice}
      {multis : List (List WireSlice)} {cb : CircuitBuilder} {out : TaskOutputRef} :
      Reached defaultVoleConcurrency voleConcurrency st →
      st.cb.instantiate proto singles multis = .ok (out, cb) →
      Reached defaultVoleConcurrency voleConcurrency { st with cb }
  | supply {st : SupplyState} {proto : TaskPrototypeRef} {field : FieldMacType} {count : ℕ}
      {out : List WireSlice} {supplier : VoleSupplier} {cb : CircuitBuilder} :
      Reached defaultVoleConcurrency voleConcurrency st → Suppliable proto field count →
      st.supplier.supplyVoles st.cb proto = .ok (out, supplier, cb) →
      Reached defaultVoleConcurrency voleConcurrency
        ⟨supplier, cb, st.used ++ (out ++ newInputs st.cb cb)⟩

end EdaBitGen.MacNCheese
