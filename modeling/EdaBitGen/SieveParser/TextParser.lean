import EdaBitGen.Interaction.Scan

/-!
# The text readers

The parser of relations and of value streams, over a buffered stream of bytes. A relation's visitor
is called while the text is read.
-/

namespace EdaBitGen.SieveParser

open Interaction

abbrev Byte := BitVec 8

def byte (c : Char) : Byte := BitVec.ofNat 8 c.toNat

def bytes (s : String) : List Byte := s.toList.map byte

/-! ## What is read -/

/-- The limbs of a `Number`. -/
def numberLimbs : ℕ := 6

abbrev TypeId := ℕ
abbrev WireId := ℕ

inductive PluginTypeArg where
  | number (n : ℕ)
  | string (s : List Byte)
  deriving DecidableEq

structure PluginType where
  name : List Byte
  operation : List Byte
  args : List PluginTypeArg
  deriving DecidableEq

/-- The type of a header; `plugin` is the source's `PluginType`. -/
inductive FieldType where
  | field (modulus : ℕ)
  | plugin (type : PluginType)
  deriving DecidableEq

structure TypedCount where
  ty : TypeId
  count : ℕ
  deriving DecidableEq

structure PluginBinding where
  pluginType : PluginType
  privateCounts : List TypedCount
  publicCounts : List TypedCount
  deriving DecidableEq

structure ConversionDescription where
  output : TypedCount
  input : TypedCount
  deriving DecidableEq

structure Header where
  plugins : List (List Byte)
  types : List FieldType
  conversion : List ConversionDescription
  deriving DecidableEq

structure WireRange where
  start : WireId
  stop : WireId
  deriving DecidableEq

structure TypedWireRange where
  ty : TypeId
  range : WireRange
  deriving DecidableEq

inductive ValueStreamKind where
  | publicKind
  | privateKind
  deriving DecidableEq

/-- What the reader of a relation hands to its caller: the header, and then a visitor's calls. -/
inductive Call where
  | header (header : Header)
  | new (ty : TypeId) (first last : WireId)
  | delete (ty : TypeId) (first last : WireId)
  | add (ty : TypeId) (dst left right : WireId)
  | mul (ty : TypeId) (dst left right : WireId)
  | addc (ty : TypeId) (dst left : WireId) (right : ℕ)
  | mulc (ty : TypeId) (dst left : WireId) (right : ℕ)
  | copy (ty : TypeId) (dst src : WireId)
  | constant (ty : TypeId) (dst : WireId) (src : ℕ)
  | publicInput (ty : TypeId) (dst : WireId)
  | privateInput (ty : TypeId) (dst : WireId)
  | assertZero (ty : TypeId) (src : WireId)
  | convert (dst src : TypedWireRange)
  | call (dst : List WireRange) (name : List Byte) (args : List WireRange)
  | defineFunction (name : List Byte) (outputs inputs : List TypedCount)
  | endFunction
  | definePluginFunction (name : List Byte) (outputs inputs : List TypedCount)
      (body : PluginBinding)
  deriving DecidableEq

/-- What the reader of a value stream hands to its caller. -/
inductive ValueCall where
  | modulus (modulus : ℕ)
  | value (value : ℕ)
  deriving DecidableEq

/-! ## `ParseState` -/

inductive NumberFormat where
  | dec
  | oct
  | hex
  | zero

def isDigit (b : Byte) : Bool := byte '0' ≤ b && b ≤ byte '9'

def validTokenByte (ch : Byte) : Bool :=
  isDigit ch || (byte 'A' ≤ ch && ch ≤ byte 'Z') || (byte 'a' ≤ ch && ch ≤ byte 'z') ||
    ch = byte '_' || ch = byte ':' || ch = byte '.'

def decodeHexNibble (b : Byte) : Option ℕ :=
  if isDigit b then some (b.toNat - (byte '0').toNat)
  else if byte 'a' ≤ b ∧ b ≤ byte 'f' then some (10 + b.toNat - (byte 'a').toNat)
  else if byte 'A' ≤ b ∧ b ≤ byte 'F' then some (10 + b.toNat - (byte 'A').toNat)
  else none

/-- One decimal digit of a number of `limbs` words. -/
def decDigit (limbs out : ℕ) (b : Byte) : Verdict ℕ :=
  if isDigit b then
    if out * 10 < 2 ^ (64 * limbs) ∧ out * 10 + (b.toNat - (byte '0').toNat) < 2 ^ (64 * limbs) then
      .keep (out * 10 + (b.toNat - (byte '0').toNat))
    else .fail
  else .stop

/-- One hexadecimal digit: the number, and how many digits there were. -/
def hexDigit (limbs : ℕ) (out : ℕ × ℕ) (b : Byte) : Verdict (ℕ × ℕ) :=
  match decodeHexNibble b with
  | some newNibble =>
    if limbs * 16 < out.2 + 1 then .fail else .keep (out.1 * 16 + newNibble, out.2 + 1)
  | none => .stop

section ParseState

variable {C : Type} (fuel : ℕ)

def consumeByte : Scan Byte C Byte := do
  let buf ← Scan.take 1
  pure (buf.headD 0)

def skipCommentAfterSlash : Scan Byte C Unit := do
  let ch ← consumeByte
  if ch = byte '*' then
    Scan.loop (fun _ => do
      if ← Scan.through (byte '*') then
        let ch ← consumeByte
        if ch = byte '/' then pure (.inr ()) else pure (.inl ())
      else .fail) fuel ()
  else if ch = byte '/' then do
    let _ ← Scan.through (byte '\n')
    pure ()
  else .fail

/-- Skip whitespace and comments. -/
def ws : Scan Byte C Unit :=
  Scan.loop (fun _ => do
    Scan.takeWhile (fun _ x => if x ≤ 32 then .keep () else .stop) ()
    if (← Scan.peek) = some (byte '/') then
      let _ ← consumeByte
      skipCommentAfterSlash fuel
      pure (.inl ())
    else pure (.inr ())) fuel ()

def token : Scan Byte C (List Byte) := do
  ws fuel
  let ch ← consumeByte
  Scan.ensure (validTokenByte ch)
  Scan.takeWhile (fun dst ch => if validTokenByte ch then .keep (dst ++ [ch]) else .stop) [ch]

def expectByte (expected : Byte) : Scan Byte C Unit := do
  ws fuel
  let ch ← consumeByte
  Scan.ensure (ch = expected)

def semi : Scan Byte C Unit := expectByte fuel (byte ';')
def colon : Scan Byte C Unit := expectByte fuel (byte ':')
def atSign : Scan Byte C Unit := expectByte fuel (byte '@')
def dollar : Scan Byte C Unit := expectByte fuel (byte '$')

def dotsReal : Scan Byte C Unit := do
  ws fuel
  let buf ← Scan.take 3
  Scan.ensure (buf = bytes "...")

def expectToken (expected : List Byte) : Scan Byte C Unit := do
  let buf ← token fuel
  Scan.ensure (buf = expected)

def peek : Scan Byte C (Option Byte) := do
  ws fuel
  Scan.peek

def peekNBytes (n : ℕ) : Scan Byte C (List Byte) := do
  ws fuel
  Scan.ahead n

def numberFormat : Scan Byte C NumberFormat := do
  if (← peek fuel) = some (byte '0') then
    let _ ← consumeByte
    let next ← peek fuel
    if next = some (byte 'x') ∨ next = some (byte 'X') then
      let _ ← consumeByte
      pure .hex
    else if next = some (byte 'o') ∨ next = some (byte 'O') then
      let _ ← consumeByte
      pure .oct
    else pure .zero
  else pure .dec

/-- A number of `limbs` words. -/
def parseUintGeneric (limbs : ℕ) : Scan Byte C ℕ := do
  match ← numberFormat fuel with
  | .dec => Scan.takeWhile (decDigit limbs) 0
  -- octal numbers are not supported
  | .oct => .panic
  | .hex => do
    let out ← Scan.takeWhile (hexDigit limbs) (0, 0)
    pure out.1
  | .zero => pure 0

def u64 : Scan Byte C ℕ := parseUintGeneric fuel 1

def bignum : Scan Byte C ℕ := parseUintGeneric fuel numberLimbs

def larrow : Scan Byte C Unit := do
  expectByte fuel (byte '<')
  expectByte fuel (byte '-')

/-- `body` for each comma that follows. -/
def whileComma {σ : Type} (body : σ → Scan Byte C σ) (s : σ) : Scan Byte C σ :=
  Scan.loop (fun s => do
    if (← peek fuel) = some (byte ',') then
      expectByte fuel (byte ',')
      let s ← body s
      pure (.inl s)
    else pure (.inr s)) fuel s

end ParseState

/-! ## `RelationReader` -/

section RelationReader

variable {C : Type} (fuel : ℕ)

def pluginArg : Scan Byte C PluginTypeArg := do
  match ← peek fuel with
  | some x =>
    if isDigit x then do
      let n ← parseUintGeneric fuel numberLimbs
      pure (.number n)
    else do
      let buf ← token fuel
      pure (.string buf)
  | none => do
    let buf ← token fuel
    pure (.string buf)

/-- From the parenthesis after `@plugin` up to the last argument. -/
def pluginType : Scan Byte C PluginType := do
  expectToken fuel (bytes "plugin")
  expectByte fuel (byte '(')
  let name ← token fuel
  expectByte fuel (byte ',')
  let operation ← token fuel
  let args ← whileComma fuel (fun args => do
    let arg ← pluginArg fuel
    pure (args ++ [arg])) []
  pure { name, operation, args }

def headerType : Scan Byte C FieldType := do
  -- only plugin types use the '@' here
  if (← peek fuel) = some (byte '@') then
    atSign fuel
    let type ← pluginType fuel
    expectByte fuel (byte ')')
    semi fuel
    pure (.plugin type)
  else
    expectToken fuel (bytes "field")
    let modulus ← bignum fuel
    semi fuel
    pure (.field modulus)

/-- `:` and a type, `:` and a count. -/
def convertCount : Scan Byte C TypedCount := do
  colon fuel
  let ty ← u64 fuel
  colon fuel
  let count ← u64 fuel
  pure { ty, count }

def headerConversion : Scan Byte C ConversionDescription := do
  expectByte fuel (byte '(')
  atSign fuel
  expectByte fuel (byte 'o')
  expectByte fuel (byte 'u')
  expectByte fuel (byte 't')
  let output ← convertCount fuel
  expectByte fuel (byte ',')
  atSign fuel
  expectByte fuel (byte 'i')
  expectByte fuel (byte 'n')
  let input ← convertCount fuel
  expectByte fuel (byte ')')
  semi fuel
  pure { output, input }

/-- One entry of the header; on the right at `@begin`. -/
def headerEntry (header : Header) : Scan Byte C (Header ⊕ Header) := do
  atSign fuel
  let buf ← token fuel
  if buf = bytes "plugin" then
    let buf ← token fuel
    semi fuel
    pure (.inl { header with plugins := header.plugins ++ [buf] })
  else if buf = bytes "type" then
    let type ← headerType fuel
    pure (.inl { header with types := header.types ++ [type] })
  else if buf = bytes "convert" then
    let conversion ← headerConversion fuel
    pure (.inl { header with conversion := header.conversion ++ [conversion] })
  else if buf = bytes "begin" then pure (.inr header)
  else .fail

/-- `version 2.0.0`, all up to the semicolon, and the semicolon. -/
def version : Scan Byte C Unit := do
  expectToken fuel (bytes "version")
  expectToken fuel (bytes "2.0.0")
  Scan.takeWhile (fun _ x => if x ≠ byte ';' then .keep () else .stop) ()
  semi fuel

def parseHeader : Scan Byte C Header := do
  version fuel
  expectToken fuel (bytes "circuit")
  semi fuel
  Scan.loop (headerEntry fuel) fuel { plugins := [], types := [], conversion := [] }

def readWireId : Scan Byte C WireId := do
  dollar fuel
  u64 fuel

/-- Parse `$wire_id` or `type_id : $wire_id`. If the type id isn't provided, it's assumed to be
zero. -/
def readTypeColonWireNumber : Scan Byte C (TypeId × WireId) := do
  if (← peek fuel) ≠ some (byte '$') then
    let typeId ← u64 fuel
    colon fuel
    let wireId ← readWireId fuel
    pure (typeId, wireId)
  else
    let wireId ← readWireId fuel
    pure (0, wireId)

/-- The end of a range that begins at `start`. -/
def readRangeEnd (start : WireId) : Scan Byte C WireId := do
  if (← peek fuel) = some (byte '.') then
    dotsReal fuel
    readWireId fuel
  else pure start

def readNewOrDeleteBody : Scan Byte C (TypeId × WireId × WireId) := do
  expectByte fuel (byte '(')
  let (typeId, start) ← readTypeColonWireNumber fuel
  let stop ← readRangeEnd fuel start
  expectByte fuel (byte ')')
  semi fuel
  pure (typeId, start, stop)

def readWireRange : Scan Byte C WireRange := do
  let start ← readWireId fuel
  let stop ← readRangeEnd fuel start
  pure { start, stop }

def checkWireRangeBufSingleOutput (wireRangeBuf : List WireRange) : Scan Byte C WireId :=
  match wireRangeBuf with
  | [range] => if range.start = range.stop then pure range.start else .fail
  | _ => .fail

/-- The wire ranges that follow, each after a comma, pushed onto the buffer. -/
def pushWireRanges (wireRangeBuf : List WireRange) : Scan Byte C (List WireRange) :=
  whileComma fuel (fun wireRangeBuf => do
    let range ← readWireRange fuel
    pure (wireRangeBuf ++ [range])) wireRangeBuf

/-- The end of a gate: its single output. -/
def endGate (wireRangeBuf : List WireRange) : Scan Byte C WireId := do
  expectByte fuel (byte ')')
  semi fuel
  checkWireRangeBufSingleOutput wireRangeBuf

/-- `add` and `mul`: the type, the output, and both inputs. -/
def binaryGate (gate : TypeId → WireId → WireId → WireId → Call) (wireRangeBuf : List WireRange) :
    Scan Byte Call Unit := do
  let (ty, left) ← readTypeColonWireNumber fuel
  expectByte fuel (byte ',')
  let right ← readWireId fuel
  let dst ← endGate fuel wireRangeBuf
  Scan.report (gate ty dst left right)

/-- `addc` and `mulc`: the second input is a number. -/
def constantGate (gate : TypeId → WireId → WireId → ℕ → Call) (wireRangeBuf : List WireRange) :
    Scan Byte Call Unit := do
  let (ty, left) ← readTypeColonWireNumber fuel
  expectByte fuel (byte ',')
  expectByte fuel (byte '<')
  let right ← bignum fuel
  expectByte fuel (byte '>')
  let dst ← endGate fuel wireRangeBuf
  Scan.report (gate ty dst left right)

/-- `public` and `private`: the type is zero if it is left out. -/
def inputGate (gate : TypeId → WireId → Call) (wireRangeBuf : List WireRange) :
    Scan Byte Call Unit := do
  if (← peek fuel) = some (byte ')') then
    let dst ← endGate fuel wireRangeBuf
    Scan.report (gate 0 dst)
  else
    let ty ← u64 fuel
    let dst ← endGate fuel wireRangeBuf
    Scan.report (gate ty dst)

def callGate (wireRangeBuf : List WireRange) : Scan Byte Call Unit := do
  let name ← token fuel
  let inputs ← pushWireRanges fuel []
  expectByte fuel (byte ')')
  semi fuel
  Scan.report (.call wireRangeBuf name inputs)

/-- What follows `<- @`. -/
def readGate (wireRangeBuf : List WireRange) : Scan Byte Call Unit := do
  let buf ← token fuel
  expectByte fuel (byte '(')
  if buf = bytes "add" then binaryGate fuel .add wireRangeBuf
  else if buf = bytes "mul" then binaryGate fuel .mul wireRangeBuf
  else if buf = bytes "addc" then constantGate fuel .addc wireRangeBuf
  else if buf = bytes "mulc" then constantGate fuel .mulc wireRangeBuf
  else if buf = bytes "public" then inputGate fuel .publicInput wireRangeBuf
  else if buf = bytes "private" then inputGate fuel .privateInput wireRangeBuf
  else if buf = bytes "call" then callGate fuel wireRangeBuf
  else .fail

/-- The type number of a constant or a copy, if there is one. -/
def readOptionalType (peeked : Byte) : Scan Byte C TypeId :=
  if peeked ≠ byte '<' ∧ peeked ≠ byte '$' then do
    let ty ← u64 fuel
    colon fuel
    pure ty
  else pure 0

/-- A constant or a copy. Without an `@`, the type number comes first, if there is one. -/
def readConstantOrCopy (peeked : Byte) (wireRangeBuf : List WireRange) : Scan Byte Call Unit := do
  let ty ← readOptionalType fuel peeked
  let out ← checkWireRangeBufSingleOutput wireRangeBuf
  let next ← peek fuel
  if next = some (byte '<') then
    expectByte fuel (byte '<')
    let value ← bignum fuel
    Scan.report (.constant ty out value)
    expectByte fuel (byte '>')
    semi fuel
  else if next = some (byte '$') then
    let src ← readWireId fuel
    Scan.report (.copy ty out src)
    semi fuel
  else .fail

/-- What follows `<-`, where `peeked` comes next. -/
def readRightHandSide (wireRangeBuf : List WireRange) (peeked : Option Byte) :
    Scan Byte Call Unit :=
  match peeked with
  | none => .fail
  | some peeked =>
    if peeked = byte '@' then do
      atSign fuel
      readGate fuel wireRangeBuf
    else readConstantOrCopy fuel peeked wireRangeBuf

/-- A directive that begins with its output wires. -/
def readAssignment : Scan Byte Call Unit := do
  let range ← readWireRange fuel
  let wireRangeBuf ← pushWireRanges fuel [range]
  larrow fuel
  let peeked ← peek fuel
  readRightHandSide fuel wireRangeBuf peeked

/-- A type number, a colon and a range. -/
def readTypedWireRange : Scan Byte C TypedWireRange := do
  let ty ← u64 fuel
  colon fuel
  let range ← readWireRange fuel
  pure { ty, range }

def readConversionGate : Scan Byte Call Unit := do
  let dst ← readTypedWireRange fuel
  larrow fuel
  atSign fuel
  expectToken fuel (bytes "convert")
  expectByte fuel (byte '(')
  let src ← readTypedWireRange fuel
  expectByte fuel (byte ')')
  semi fuel
  Scan.report (.convert dst src)

def readCall : Scan Byte Call Unit := do
  expectByte fuel (byte '(')
  let name ← token fuel
  let args ← pushWireRanges fuel []
  expectByte fuel (byte ')')
  semi fuel
  Scan.report (.call [] name args)

def readAssertZero : Scan Byte Call Unit := do
  expectByte fuel (byte '(')
  let (typeId, wire) ← readTypeColonWireNumber fuel
  Scan.report (.assertZero typeId wire)
  expectByte fuel (byte ')')
  semi fuel

/-- `new` and `delete`. -/
def readNewOrDelete (directive : TypeId → WireId → WireId → Call) : Scan Byte Call Unit := do
  let (typeId, start, stop) ← readNewOrDeleteBody fuel
  Scan.report (directive typeId start stop)

/-- What follows the `@` of a directive; on the right at `@end`. -/
def readAtDirective (parseFunction : Scan Byte Call Unit) : Scan Byte Call (Unit ⊕ Unit) := do
  let buf ← token fuel
  if buf = bytes "function" then Sum.inl <$> parseFunction
  else if buf = bytes "call" then Sum.inl <$> readCall fuel
  else if buf = bytes "assert_zero" then Sum.inl <$> readAssertZero fuel
  else if buf = bytes "new" then Sum.inl <$> readNewOrDelete fuel .new
  else if buf = bytes "delete" then Sum.inl <$> readNewOrDelete fuel .delete
  else if buf = bytes "end" then pure (.inr ())
  else .fail

def readDirective (parseFunction : Scan Byte Call Unit) : Scan Byte Call (Unit ⊕ Unit) := do
  match ← peek fuel with
  | none => .fail
  | some peeked =>
    if peeked = byte '@' then do
      let _ ← consumeByte
      readAtDirective fuel parseFunction
    else if peeked = byte '$' then Sum.inl <$> readAssignment fuel
    -- it must be a conversion gate
    else Sum.inl <$> readConversionGate fuel

def readDirectives (parseFunction : Scan Byte Call Unit) : Scan Byte Call Unit :=
  Scan.loop (fun _ => readDirective fuel parseFunction) fuel ()

/-- After an `@` in a list of counts: which of the two lists goes on. -/
def readDirection (dst : Bool) (direction : Scan Byte C Bool) : Scan Byte C Bool := do
  if (← peek fuel) = some (byte '@') then
    let _ ← consumeByte
    ws fuel
    let dst ← direction
    colon fuel
    pure dst
  else pure dst

/-- The counts up to the parenthesis, in two lists; `dst` is `true` for the second. -/
def readTypedCounts (direction : Scan Byte C Bool) (dst : Bool) :
    Scan Byte C (List TypedCount × List TypedCount) :=
  Scan.loop (fun (s : Bool × List TypedCount × List TypedCount) => do
    let ch ← consumeByte
    if ch = byte ',' then
      let dst ← readDirection fuel s.1 direction
      let ty ← u64 fuel
      colon fuel
      let count ← u64 fuel
      if dst then pure (.inl (dst, s.2.1, s.2.2 ++ [⟨ty, count⟩]))
      else pure (.inl (dst, s.2.1 ++ [⟨ty, count⟩], s.2.2))
    else if ch = byte ')' then pure (.inr s.2)
    else .fail) fuel (dst, [], [])

/-- `out` or `in`. -/
def functionDirection : Scan Byte C Bool := do
  let ch ← consumeByte
  if ch = byte 'o' then
    expectByte fuel (byte 'u')
    expectByte fuel (byte 't')
    pure false
  else if ch = byte 'i' then
    expectByte fuel (byte 'n')
    pure true
  else .fail

/-- `private` or `public`. -/
def pluginDirection : Scan Byte C Bool := do
  let ch ← consumeByte
  if ch = byte 'p' then
    let ch ← consumeByte
    if ch = byte 'r' then
      expectToken fuel (bytes "ivate")
      pure false
    else if ch = byte 'u' then
      expectToken fuel (bytes "blic")
      pure true
    else .fail
  else .fail

def readFunction : Scan Byte Call Unit := do
  expectByte fuel (byte '(')
  let name ← token fuel
  let (outputs, inputs) ← readTypedCounts fuel (functionDirection fuel) false
  if (← peekNBytes fuel (bytes "@plugin").length) = bytes "@plugin" then
    atSign fuel
    let pluginType ← pluginType fuel
    let (privateCounts, publicCounts) ← readTypedCounts fuel (pluginDirection fuel) false
    semi fuel
    Scan.report (.definePluginFunction name outputs inputs
      { pluginType, privateCounts, publicCounts })
  else
    Scan.report (.defineFunction name outputs inputs)
    -- nested functions aren't allowed
    readDirectives fuel .fail
    Scan.report .endFunction

def readInner : Scan Byte Call Unit := do
  readDirectives fuel (readFunction fuel)
  ws fuel
  let next ← peek fuel
  Scan.ensure (next = none)

/-- `RelationReader::new`, and `read` on the reader it returns. -/
def readRelation : Scan Byte Call Unit := do
  let header ← parseHeader fuel
  Scan.report (.header header)
  readInner fuel

end RelationReader

section ValueStreamReader

variable (fuel : ℕ)

/-- The modulus of a value stream of the given kind. -/
def newValueStream (kind : ValueStreamKind) : Scan Byte ValueCall ℕ := do
  version fuel
  let buf ← token fuel
  Scan.ensure (buf = bytes "public_input" ∧ kind = .publicKind ∨
    buf = bytes "private_input" ∧ kind = .privateKind)
  semi fuel
  expectByte fuel (byte '@')
  expectToken fuel (bytes "type")
  expectToken fuel (bytes "field")
  let modulus ← bignum fuel
  semi fuel
  expectByte fuel (byte '@')
  expectToken fuel (bytes "begin")
  pure modulus

/-- The next value; `none` after the last. -/
def nextInner : Scan Byte ValueCall (Option ℕ) := do
  let next ← peek fuel
  if next = some (byte '@') then
    atSign fuel
    expectToken fuel (bytes "end")
    ws fuel
    let next ← peek fuel
    Scan.ensure (next = none)
    pure none
  else if next = some (byte '<') then
    expectByte fuel (byte '<')
    let out ← bignum fuel
    expectByte fuel (byte '>')
    semi fuel
    pure (some out)
  else .fail

/-- The caller takes a value; on the right after the last one. -/
def handOver : Option ℕ → Scan Byte ValueCall (Unit ⊕ Unit)
  | some value => do
    Scan.report (.value value)
    pure (.inl ())
  | none => pure (.inr ())

def nextValue : Scan Byte ValueCall (Unit ⊕ Unit) := do
  let next ← nextInner fuel
  handOver next

/-- `ValueStreamReader::new`, and `next` until there is no value or the caller has enough. -/
def readValueStream (kind : ValueStreamKind) : Scan Byte ValueCall Unit := do
  let modulus ← newValueStream fuel kind
  Scan.report (.modulus modulus)
  Scan.loop (fun _ => nextValue fuel) fuel ()

end ValueStreamReader

end EdaBitGen.SieveParser
