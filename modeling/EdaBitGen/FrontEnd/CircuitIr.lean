import EdaBitGen.Plugins.MuxV0

/-!
# The internal representation of relations

Gates, function declarations and the store of functions.  The gates take the type of their constants
as a parameter: the readers build gates whose constants are bytes, and two readings are compared by
the numbers that these denote.
-/

namespace EdaBitGen.FrontEnd

abbrev WireId := ℕ
abbrev WireRange := WireId × WireId

/-! ## Gates -/

inductive GateOf (C : Type)
  | constant (ty : TypeId) (out : WireId) (value : C)
  | assertZero (ty : TypeId) (inp : WireId)
  | copy (ty : TypeId) (out inp : WireId)
  | add (ty : TypeId) (out left right : WireId)
  | mul (ty : TypeId) (out left right : WireId)
  | addConstant (ty : TypeId) (out inp : WireId) (value : C)
  | mulConstant (ty : TypeId) (out inp : WireId) (value : C)
  | inst (ty : TypeId) (out : WireId)
  | witness (ty : TypeId) (out : WireId)
  | conv (tyOut : TypeId) (out : WireRange) (tyIn : TypeId) (inp : WireRange)
  | new (ty : TypeId) (first last : WireId)
  | delete (ty : TypeId) (first last : WireId)
  | call (name : String) (outs ins : List WireRange)
  | challenge (ty : TypeId) (out : WireId)
  | comment (str : String)

/-- The gates of the source, whose constants are little-endian bytes. -/
abbrev GateM := GateOf (List UInt8)

namespace GateOf

variable {C D : Type}

def map (f : C → D) : GateOf C → GateOf D
  | constant ty out value => constant ty out (f value)
  | assertZero ty inp => assertZero ty inp
  | copy ty out inp => copy ty out inp
  | add ty out left right => add ty out left right
  | mul ty out left right => mul ty out left right
  | addConstant ty out inp value => addConstant ty out inp (f value)
  | mulConstant ty out inp value => mulConstant ty out inp (f value)
  | inst ty out => inst ty out
  | witness ty out => witness ty out
  | conv tyOut out tyIn inp => conv tyOut out tyIn inp
  | new ty first last => new ty first last
  | delete ty first last => delete ty first last
  | call name outs ins => call name outs ins
  | challenge ty out => challenge ty out
  | comment str => comment str

def outWire : GateOf C → Option WireId
  | constant _ out _ => some out
  | assertZero _ _ => none
  | copy _ out _ => some out
  | add _ out _ _ => some out
  | mul _ out _ _ => some out
  | addConstant _ out _ _ => some out
  | mulConstant _ out _ _ => some out
  | conv _ (_, out) _ _ => some out
  | inst _ out => some out
  | witness _ out => some out
  | new _ _ last => some last
  | delete _ _ _ => none
  | call _ v _ => v.foldl (fun out range =>
      match out with
      | none => some range.2
      | some m => some (max m range.2)) none
  | challenge _ out => some out
  | comment _ => none

theorem outWire_map (f : C → D) (g : GateOf C) : (g.map f).outWire = g.outWire := by
  cases g <;> rfl

end GateOf

/-- The gates that a plugin emits, among all gates. -/
def ofPlugin : Plugins.GateM → GateM
  | .add ty out left right => .add ty out left right
  | .mul ty out left right => .mul ty out left right
  | .addConstant ty out inp constant => .addConstant ty out inp constant

/-! ## The types that are used -/

/-- Which of the 256 type ids are set. -/
abbrev TypeIdMapping := TypeId → Bool

namespace TypeIdMapping

variable {C D : Type}

def set (m : TypeIdMapping) (ty : TypeId) : TypeIdMapping :=
  Function.update m ty true

def setFromGate (m : TypeIdMapping) : GateOf C → TypeIdMapping
  | .constant ty _ _ => m.set ty
  | .assertZero ty _ => m.set ty
  | .copy ty _ _ => m.set ty
  | .add ty _ _ _ => m.set ty
  | .mul ty _ _ _ => m.set ty
  | .addConstant ty _ _ _ => m.set ty
  | .mulConstant ty _ _ _ => m.set ty
  | .conv ty1 _ ty2 _ => (m.set ty1).set ty2
  | .inst ty _ => m.set ty
  | .witness ty _ => m.set ty
  | .new ty _ _ => m.set ty
  | .delete ty _ _ => m.set ty
  | .call _ _ _ => m
  | .challenge ty _ => m.set ty
  | .comment _ => m

def ofGates (gates : List (GateOf C)) : TypeIdMapping :=
  gates.foldl setFromGate fun _ => false

def toTypeIds (m : TypeIdMapping) : List TypeId :=
  (List.finRange 256).filter fun i : Fin 256 => m i

theorem ofGates_map (f : C → D) (gates : List (GateOf C)) :
    ofGates (gates.map (GateOf.map f)) = ofGates gates := by
  have hgate : ∀ (m : TypeIdMapping) (g : GateOf C), setFromGate m (g.map f) = setFromGate m g :=
    fun m g => by cases g <;> rfl
  rw [ofGates, List.foldl_map, ofGates]
  exact List.foldl_ext _ _ _ fun m g _ => hgate m g

end TypeIdMapping

/-! ## Functions -/

/-- The maximum of the output wires, `none` below every wire. -/
def outputWireMax {C : Type} (gates : List (GateOf C)) : Option WireId :=
  gates.foldl (fun acc g => max acc g.outWire) none

theorem outputWireMax_map {C D : Type} (f : C → D) (gates : List (GateOf C)) :
    outputWireMax (gates.map (GateOf.map f)) = outputWireMax gates := by
  rw [outputWireMax, List.foldl_map, outputWireMax]
  exact List.foldl_ext _ _ _ fun acc g _ => by rw [GateOf.outWire_map]

inductive GatesOrPluginBody (C : Type)
  | gates (gates : List (GateOf C))
  | plugin (name operation : String)

structure CompiledInfo (C : Type) where
  argsCount : Option WireId
  bodyMax : Option WireId
  typeIds : List TypeId
  pluginGates : Option (List (GateOf C))

structure FuncDecl (C : Type) where
  name : String
  funId : ℕ
  body : GatesOrPluginBody C
  outputCounts : List (TypeId × ℕ)
  inputCounts : List (TypeId × ℕ)
  compiledInfo : CompiledInfo C

namespace FuncDecl

variable {C D : Type}

def map (f : C → D) (func : FuncDecl C) : FuncDecl D where
  name := func.name
  funId := func.funId
  body :=
    match func.body with
    | .gates gates => .gates (gates.map (GateOf.map f))
    | .plugin name operation => .plugin name operation
  outputCounts := func.outputCounts
  inputCounts := func.inputCounts
  compiledInfo :=
    { argsCount := func.compiledInfo.argsCount
      bodyMax := func.compiledInfo.bodyMax
      typeIds := func.compiledInfo.typeIds
      pluginGates := func.compiledInfo.pluginGates.map (List.map (GateOf.map f)) }

def newFunction (name : String) (funId : ℕ) (gates : List (GateOf C))
    (outputCounts inputCounts : List (TypeId × ℕ)) : FuncDecl C :=
  let bodyMax := outputWireMax gates
  let (typePresence, argsCount) := (outputCounts ++ inputCounts).foldl
    (fun acc group => (acc.1.set group.1, acc.2 + group.2)) (TypeIdMapping.ofGates gates, 0)
  { name, funId, body := .gates gates, outputCounts, inputCounts
    compiledInfo :=
      { argsCount := some argsCount
        bodyMax
        typeIds := typePresence.toTypeIds
        pluginGates := none } }

/-- The counts of inputs that are public or private, and the types, are not looked at. -/
def newPlugin (name : String) (funId : ℕ) (outputCounts inputCounts : List (TypeId × ℕ))
    (pluginName operation : String) (params : List String)
    (_publicCount _privateCount : List (TypeId × ℕ)) :
    Except Plugins.PluginError (FuncDecl (List UInt8)) := do
  let count := inputCounts.foldl (fun count group => count + group.2)
    (outputCounts.foldl (fun count group => count + group.2) 0)
  let gates ←
    if pluginName = Plugins.MuxV0.name then
      Plugins.MuxV0.gatesBody operation params count outputCounts inputCounts
    else .error (.error ("Unsupported plugin: " ++ pluginName))
  let gates := gates.map ofPlugin
  .ok
    { name, funId, body := .plugin pluginName operation, outputCounts, inputCounts
      compiledInfo :=
        { argsCount := some count
          bodyMax := outputWireMax gates
          typeIds := (TypeIdMapping.ofGates gates).toTypeIds
          pluginGates := some gates } }

theorem newFunction_map (f : C → D) (name : String) (funId : ℕ) (gates : List (GateOf C))
    (outputCounts inputCounts : List (TypeId × ℕ)) :
    (newFunction name funId gates outputCounts inputCounts).map f =
      newFunction name funId (gates.map (GateOf.map f)) outputCounts inputCounts := by
  simp only [newFunction, map, outputWireMax_map, TypeIdMapping.ofGates_map, Option.map_none]

end FuncDecl

/-- The functions by their names. -/
abbrev FunStore (C : Type) := String → Option (FuncDecl C)

namespace FunStore

variable {C D : Type}

def insert (store : FunStore C) (name : String) (func : FuncDecl C) : FunStore C :=
  Function.update store name (some func)

def map (f : C → D) (store : FunStore C) : FunStore D :=
  fun name => (store name).map (FuncDecl.map f)

theorem map_insert (f : C → D) (store : FunStore C) (name : String) (func : FuncDecl C) :
    (store.insert name func).map f = (store.map f).insert name (func.map f) := by
  funext other
  by_cases h : other = name
  · subst h
    simp [map, insert]
  · simp [map, insert, h]

end FunStore

end EdaBitGen.FrontEnd
