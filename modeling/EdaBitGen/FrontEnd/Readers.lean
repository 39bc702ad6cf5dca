import EdaBitGen.FrontEnd.CircuitIr
import EdaBitGen.FrontEnd.NumberToBytes

/-!
# The readers of relations and inputs

A relation comes in messages with a size prefix, or as text.  The reader of messages takes constants
as the bytes that stand there and gives up with a panic, the reader of text makes bytes of the
parser's numbers and gives up with an error.
-/

namespace EdaBitGen.FrontEnd

open Plugins (PluginError)

/-! ## Contents -/

/-- A constant, as the bytes of a message and as the words of the parser's number. -/
structure Constant where
  bytes : List UInt8
  words : List UInt64
  same : ofBytes bytes = ofWords words
deriving DecidableEq

/-- A gate that a relation can have. -/
inductive Gate
  | constant (ty : TypeId) (out : WireId) (value : Constant)
  | assertZero (ty : TypeId) (inp : WireId)
  | copy (ty : TypeId) (out inp : WireId)
  | add (ty : TypeId) (out left right : WireId)
  | mul (ty : TypeId) (out left right : WireId)
  | addConstant (ty : TypeId) (out inp : WireId) (value : Constant)
  | mulConstant (ty : TypeId) (out inp : WireId) (value : Constant)
  | publicInput (ty : TypeId) (out : WireId)
  | privateInput (ty : TypeId) (out : WireId)
  | new (ty : TypeId) (first last : WireId)
  | delete (ty : TypeId) (first last : WireId)
  | call (name : String) (outs ins : List WireRange)
  | convert (tyOut : TypeId) (out : WireRange) (tyIn : TypeId) (inp : WireRange)
deriving DecidableEq

/-- A parameter of a plugin.  A message has the numeral of a number, the parser its value. -/
inductive PluginParam
  | number (numeral : String) (value : List UInt64)
  | string (s : String)
deriving DecidableEq

structure PluginBinding where
  name : String
  operation : String
  params : List PluginParam
  publicCount : List (TypeId × ℕ)
  privateCount : List (TypeId × ℕ)
deriving DecidableEq

inductive Directive
  | gate (gate : Gate)
  | function (name : String) (outputs inputs : List (TypeId × ℕ)) (body : List Gate)
  | plugin (name : String) (outputs inputs : List (TypeId × ℕ)) (body : PluginBinding)
deriving DecidableEq

/-- The function id of every declaration. -/
def magicFunId : ℕ := 42

/-- A panic instead of an error. -/
def unwrap {α : Type} : Except PluginError α → Except PluginError α
  | .ok a => .ok a
  | .error _ => .error .panic

/-! ## Messages -/

/-- What a message is. -/
inductive Root
  | relation (directives : List Directive)
  | publicInputs (modulus : List UInt8) (inputs : List (List UInt8))
  | privateInputs (modulus : List UInt8) (inputs : List (List UInt8))
deriving DecidableEq

def sizeUoffset : ℕ := 4

/-- The four bytes of a size, the lowest first. -/
def sizePrefix (size : ℕ) : List UInt8 :=
  (FixedDigits.digits 256 4 size).map UInt8.ofNat

/-- The generated code: the bytes of a message, and the accessors of a buffer that starts with the
size of a message and the message, whatever follows them. -/
structure FlatBuffers where
  finish : Root → List UInt8
  sizePrefixedRoot : List UInt8 → Option Root
  finish_ne_nil : ∀ root, finish root ≠ []
  sizePrefixedRoot_nil : sizePrefixedRoot [] = none
  sizePrefixedRoot_finish : ∀ root rest, (finish root).length < 2 ^ 32 →
    sizePrefixedRoot (sizePrefix (finish root).length ++ finish root ++ rest) = some root

namespace FlatBuffers

variable (fb : FlatBuffers)

/-- The size of the message fits into its prefix. -/
def Fits (root : Root) : Prop := (fb.finish root).length < 2 ^ 32

/-- A message with its size. -/
def frame (root : Root) : List UInt8 :=
  sizePrefix (fb.finish root).length ++ fb.finish root

/-- A file of messages. -/
def file (roots : List Root) : List UInt8 := roots.flatMap fb.frame

/-- A list that is cut into consecutive messages. -/
structure Cut {α : Type} (wrap : List α → Root) where
  messages : List (List α)
  fits : ∀ msg ∈ messages, fb.Fits (wrap msg)

namespace Cut

variable {fb} {α : Type} {wrap : List α → Root}

/-- The list that has been cut. -/
def content (cut : fb.Cut wrap) : List α := cut.messages.flatten

def file (cut : fb.Cut wrap) : List UInt8 := fb.file (cut.messages.map wrap)

end Cut

end FlatBuffers

/-- The directives of a relation, none of which is too long for a message. -/
structure Relation (fb : FlatBuffers) where
  directives : List Directive
  fits : ∀ d ∈ directives, fb.Fits (.relation [d])

def readSizePrefix (buf : List UInt8) : ℕ :=
  if buf.length < sizeUoffset then 0 else sizeUoffset + ofBytes (buf.take sizeUoffset)

/-- The next message of a stream with its size, and the rest of the stream; none at the end, and an
error within a message. -/
def readSizePrefixInVec (stream : List UInt8) : Except Unit (Option (List UInt8 × List UInt8)) :=
  if stream.length < sizeUoffset then .ok none
  else
    let size := readSizePrefix (stream.take sizeUoffset)
    if size ≤ sizeUoffset then .ok none
    else if stream.length < size then .error ()
    else .ok (some (stream.take size, stream.drop size))

theorem length_lt_of_read {stream buffer rest : List UInt8}
    (h : readSizePrefixInVec stream = .ok (some (buffer, rest))) : rest.length < stream.length := by
  unfold readSizePrefixInVec at h
  dsimp only at h
  split at h
  · cases h
  · split at h
    · cases h
    · split at h
      · cases h
      · next hlong hsize _ =>
        cases h
        rw [List.length_drop]
        simp only [sizeUoffset] at *
        omega

variable (fb : FlatBuffers)

def readPublicInputsBytes (bytes : List UInt8) (instances : List (List UInt8)) :
    Except PluginError (List (List UInt8) × List UInt8) :=
  match fb.sizePrefixedRoot bytes with
  | some (.publicInputs modulus inputs) =>
    .ok (inputs.foldl (fun instances t => instances ++ [t]) instances, modulus)
  | _ => .error .panic

def readPublicInputs (file : List UInt8) (instances : List (List UInt8)) :
    Except PluginError (List (List UInt8) × List UInt8) :=
  readPublicInputsBytes fb file instances

def readPrivateInputsBytes (bytes : List UInt8) (witnesses : List (List UInt8)) :
    Except PluginError (List (List UInt8) × List UInt8) :=
  match fb.sizePrefixedRoot bytes with
  | some (.privateInputs modulus inputs) =>
    .ok (inputs.foldl (fun witnesses t => witnesses ++ [t]) witnesses, modulus)
  | _ => .error .panic

/-- The loop over the messages, with the field of those read so far. -/
def readPrivateInputsLoop (stream : List UInt8) (witnesses : List (List UInt8))
    (fieldRes : List UInt8) : Except PluginError (List (List UInt8) × List UInt8) :=
  match _h : readSizePrefixInVec stream with
  | .error _ => .error .panic
  | .ok none => .ok (witnesses, fieldRes)
  | .ok (some (buffer, rest)) =>
    match readPrivateInputsBytes fb buffer witnesses with
    | .error e => .error e
    | .ok (witnesses, field) =>
      if fieldRes.length = 0 ∨ fieldRes = field then readPrivateInputsLoop rest witnesses field
      else .error .panic
termination_by stream.length
decreasing_by exact length_lt_of_read _h

def readPrivateInputs (file : List UInt8) (witnesses : List (List UInt8)) :
    Except PluginError (List (List UInt8) × List UInt8) :=
  readPrivateInputsLoop fb file witnesses []

/-! ## The reader of messages -/

/-- Reading goes on in `bufferFile`; the gates are those of the last message. -/
structure BufRelation where
  funStore : FunStore (List UInt8)
  gates : List GateM
  bufferFile : List UInt8

namespace BufRelation

def new (file : List UInt8) : BufRelation := ⟨fun _ => none, [], file⟩

def flatbufferGateToGate : Gate → GateM
  | .constant ty out value => .constant ty out value.bytes
  | .assertZero ty inp => .assertZero ty inp
  | .copy ty out inp => .copy ty out inp
  | .add ty out left right => .add ty out left right
  | .mul ty out left right => .mul ty out left right
  | .addConstant ty out inp value => .addConstant ty out inp value.bytes
  | .mulConstant ty out inp value => .mulConstant ty out inp value.bytes
  | .publicInput ty out => .inst ty out
  | .privateInput ty out => .witness ty out
  | .new ty first last => .new ty first last
  | .delete ty first last => .delete ty first last
  | .call name outs ins => .call name outs ins
  | .convert tyOut out tyIn inp => .conv tyOut out tyIn inp

/-- The string that a message has for a parameter. -/
def paramString : PluginParam → String
  | .number numeral _ => numeral
  | .string s => s

def readDirective (rel : BufRelation) : Directive → Except PluginError BufRelation
  | .gate gate => .ok { rel with gates := rel.gates ++ [flatbufferGateToGate gate] }
  | .function name outputs inputs body =>
    let funBody :=
      FuncDecl.newFunction name magicFunId (body.map flatbufferGateToGate) outputs inputs
    .ok { rel with funStore := rel.funStore.insert name funBody }
  | .plugin name outputs inputs body => do
    let funBody ← unwrap (FuncDecl.newPlugin name magicFunId outputs inputs body.name
      body.operation (body.params.map paramString) body.publicCount body.privateCount)
    .ok { rel with funStore := rel.funStore.insert name funBody }

def readRelationAndFunctionsBytesAccu (rel : BufRelation) (bufferBytes : List UInt8) :
    Except PluginError BufRelation :=
  match fb.sizePrefixedRoot bufferBytes with
  | some (.relation directives) => directives.foldlM readDirective rel
  | _ => .error .panic

def next (rel : BufRelation) : Except PluginError (Option BufRelation) :=
  match readSizePrefixInVec rel.bufferFile with
  | .error _ => .error .panic
  | .ok none => .ok none
  | .ok (some (bufferBytes, rest)) =>
    match readRelationAndFunctionsBytesAccu fb { rel with gates := [], bufferFile := rest }
        bufferBytes with
    | .ok rel => .ok (some rel)
    | .error e => .error e

theorem readDirective_bufferFile {rel rel' : BufRelation} {d : Directive}
    (h : rel.readDirective d = .ok rel') : rel'.bufferFile = rel.bufferFile := by
  cases d with
  | gate gate => cases h; rfl
  | function name outputs inputs body => cases h; rfl
  | plugin name outputs inputs body =>
    simp only [readDirective] at h
    cases hplugin : unwrap (FuncDecl.newPlugin name magicFunId outputs inputs body.name
      body.operation (body.params.map paramString) body.publicCount body.privateCount) with
    | error e => rw [hplugin] at h; cases h
    | ok funBody => rw [hplugin] at h; cases h; rfl

theorem foldlM_bufferFile {rel rel' : BufRelation} {ds : List Directive}
    (h : ds.foldlM readDirective rel = .ok rel') : rel'.bufferFile = rel.bufferFile := by
  induction ds generalizing rel with
  | nil => cases h; rfl
  | cons d ds ih =>
    rw [List.foldlM_cons] at h
    cases hd : rel.readDirective d with
    | error e => rw [hd] at h; cases h
    | ok rel₁ =>
      rw [hd] at h
      rw [ih h, readDirective_bufferFile hd]

theorem length_bufferFile_lt {rel rel' : BufRelation} (h : rel.next fb = .ok (some rel')) :
    rel'.bufferFile.length < rel.bufferFile.length := by
  unfold next at h
  split at h
  · cases h
  · cases h
  · next bufferBytes rest hread =>
    split at h
    · next rel₁ haccu =>
      cases h
      unfold readRelationAndFunctionsBytesAccu at haccu
      split at haccu
      · rw [foldlM_bufferFile haccu]
        exact length_lt_of_read hread
      · cases haccu
    · cases h

/-- The gates of all messages that are left, after those read so far, and the functions. -/
def readAll (gates : List GateM) (rel : BufRelation) :
    Except PluginError (List GateM × FunStore (List UInt8)) :=
  match _h : rel.next fb with
  | .error e => .error e
  | .ok none => .ok (gates, rel.funStore)
  | .ok (some rel') => readAll (gates ++ rel'.gates) rel'
termination_by rel.bufferFile.length
decreasing_by exact length_bufferFile_lt fb _h

/-- Reading a file to its end. -/
def read (file : List UInt8) : Except PluginError (List GateM × FunStore (List UInt8)) :=
  (BufRelation.new file).readAll fb []

end BufRelation

/-! ## The reader of text -/

/-- The conversion of the parser's type ids. -/
def tryInto (ty : ℕ) : Except PluginError TypeId :=
  if h : ty < 256 then .ok (⟨ty, h⟩ : Fin 256)
  else .error (.error "out of range integral type conversion attempted")

def tryIntoCounts (counts : List (ℕ × ℕ)) : Except PluginError (List (TypeId × ℕ)) :=
  counts.mapM fun group => do
    let ty ← tryInto group.1
    .ok (ty, group.2)

structure TextRelation where
  funStore : FunStore (List UInt8)
  gates : List GateM

namespace TextRelation

def default : TextRelation := ⟨fun _ => none, []⟩

def push (rel : TextRelation) (gate : GateM) : TextRelation :=
  { rel with gates := rel.gates ++ [gate] }

section Visitor

variable (rel : TextRelation) (ty : ℕ)

def new (first last : WireId) : Except PluginError TextRelation := do
  .ok (rel.push (.new (← tryInto ty) first last))

def delete (first last : WireId) : Except PluginError TextRelation := do
  .ok (rel.push (.delete (← tryInto ty) first last))

def add (dst left right : WireId) : Except PluginError TextRelation := do
  .ok (rel.push (.add (← tryInto ty) dst left right))

def mul (dst left right : WireId) : Except PluginError TextRelation := do
  .ok (rel.push (.mul (← tryInto ty) dst left right))

def addc (dst left : WireId) (right : List UInt64) : Except PluginError TextRelation := do
  .ok (rel.push (.addConstant (← tryInto ty) dst left (numberToBytes right)))

def mulc (dst left : WireId) (right : List UInt64) : Except PluginError TextRelation := do
  .ok (rel.push (.mulConstant (← tryInto ty) dst left (numberToBytes right)))

def copy (dst src : WireId) : Except PluginError TextRelation := do
  .ok (rel.push (.copy (← tryInto ty) dst src))

def constant (dst : WireId) (src : List UInt64) : Except PluginError TextRelation := do
  .ok (rel.push (.constant (← tryInto ty) dst (numberToBytes src)))

def publicInput (dst : WireId) : Except PluginError TextRelation := do
  .ok (rel.push (.inst (← tryInto ty) dst))

def privateInput (dst : WireId) : Except PluginError TextRelation := do
  .ok (rel.push (.witness (← tryInto ty) dst))

def assertZero (src : WireId) : Except PluginError TextRelation := do
  .ok (rel.push (.assertZero (← tryInto ty) src))

def convert (dstTy : ℕ) (dst : WireRange) (srcTy : ℕ) (src : WireRange) :
    Except PluginError TextRelation := do
  .ok (rel.push (.conv (← tryInto dstTy) dst (← tryInto srcTy) src))

def call (dst : List WireRange) (name : String) (args : List WireRange) :
    Except PluginError TextRelation :=
  .ok (rel.push (.call name dst args))

end Visitor

/-- The visitor's method that the parser calls for a gate. -/
def visit (rel : TextRelation) : Gate → Except PluginError TextRelation
  | .constant ty out value => rel.constant ty.val out value.words
  | .assertZero ty inp => rel.assertZero ty.val inp
  | .copy ty out inp => rel.copy ty.val out inp
  | .add ty out left right => rel.add ty.val out left right
  | .mul ty out left right => rel.mul ty.val out left right
  | .addConstant ty out inp value => rel.addc ty.val out inp value.words
  | .mulConstant ty out inp value => rel.mulc ty.val out inp value.words
  | .publicInput ty out => rel.publicInput ty.val out
  | .privateInput ty out => rel.privateInput ty.val out
  | .new ty first last => rel.new ty.val first last
  | .delete ty first last => rel.delete ty.val first last
  | .call name outs ins => rel.call outs name ins
  | .convert tyOut out tyIn inp => rel.convert tyOut.val out tyIn.val inp

def defineFunction (rel : TextRelation) (name : String) (outputs inputs : List (ℕ × ℕ))
    (body : TextRelation → Except PluginError TextRelation) : Except PluginError TextRelation := do
  let bodyStruct ← body default
  let outputCounts ← unwrap (tryIntoCounts outputs)
  let inputCounts ← unwrap (tryIntoCounts inputs)
  let funBody := FuncDecl.newFunction name magicFunId bodyStruct.gates outputCounts inputCounts
  .ok { rel with funStore := rel.funStore.insert name funBody }

/-- The parameters that are numbers are ignored. -/
def stringParams : List PluginParam → List String
  | [] => []
  | .number _ _ :: params => stringParams params
  | .string s :: params => s :: stringParams params

def definePluginFunction (rel : TextRelation) (name : String) (outputs inputs : List (ℕ × ℕ))
    (body : PluginBinding) : Except PluginError TextRelation := do
  let outputCounts ← tryIntoCounts outputs
  let inputCounts ← tryIntoCounts inputs
  let funBody ← FuncDecl.newPlugin name magicFunId outputCounts inputCounts body.name
    body.operation (stringParams body.params) [] []
  .ok { rel with funStore := rel.funStore.insert name funBody }

/-- The type ids as the parser has them. -/
def parsedCounts (counts : List (TypeId × ℕ)) : List (ℕ × ℕ) :=
  counts.map fun group => (group.1.val, group.2)

/-- The visitor's method that the parser calls for a directive. -/
def readDirective (rel : TextRelation) : Directive → Except PluginError TextRelation
  | .gate gate => rel.visit gate
  | .function name outputs inputs body =>
    rel.defineFunction name (parsedCounts outputs) (parsedCounts inputs) fun bodyStruct =>
      body.foldlM visit bodyStruct
  | .plugin name outputs inputs body =>
    rel.definePluginFunction name (parsedCounts outputs) (parsedCounts inputs) body

/-- Reading a text to its end. -/
def read (directives : List Directive) :
    Except PluginError (List GateM × FunStore (List UInt8)) := do
  let rel ← directives.foldlM readDirective default
  .ok (rel.gates, rel.funStore)

end TextRelation

end EdaBitGen.FrontEnd
