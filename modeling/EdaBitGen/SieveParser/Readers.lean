import EdaBitGen.SieveParser.TextParser

/-!
# When the text readers return

Every loop of the parser reads a byte in each further round, so the parser ends.
-/

namespace EdaBitGen.SieveParser

open Interaction

-- an instance for a program has one part for each of its operations
set_option synthInstance.maxSize 1024

section Ends

variable {C : Type} {n fuel : ℕ} [Fact (n < fuel)]

instance : Scan.Eats n (consumeByte : Scan Byte C Byte) := by
  unfold consumeByte
  infer_instance

instance : Scan.Total n (skipCommentAfterSlash fuel : Scan Byte C Unit) := by
  unfold skipCommentAfterSlash
  infer_instance

instance : Scan.Total n (ws fuel : Scan Byte C Unit) := by
  unfold ws
  infer_instance

instance : Scan.Eats n (token fuel : Scan Byte C (List Byte)) := by
  unfold token
  infer_instance

instance (expected : Byte) : Scan.Eats n (expectByte fuel expected : Scan Byte C Unit) := by
  unfold expectByte
  infer_instance

instance : Scan.Eats n (semi fuel : Scan Byte C Unit) := by
  unfold semi
  infer_instance

instance : Scan.Eats n (colon fuel : Scan Byte C Unit) := by
  unfold colon
  infer_instance

instance : Scan.Eats n (atSign fuel : Scan Byte C Unit) := by
  unfold atSign
  infer_instance

instance : Scan.Eats n (dollar fuel : Scan Byte C Unit) := by
  unfold dollar
  infer_instance

instance : Scan.Eats n (dotsReal fuel : Scan Byte C Unit) := by
  unfold dotsReal
  infer_instance

instance (expected : List Byte) : Scan.Eats n (expectToken fuel expected : Scan Byte C Unit) := by
  unfold expectToken
  infer_instance

instance : Scan.Total n (peek fuel : Scan Byte C (Option Byte)) := by
  unfold peek
  infer_instance

instance (m : ℕ) : Scan.Total n (peekNBytes fuel m : Scan Byte C (List Byte)) := by
  unfold peekNBytes
  infer_instance

instance : Scan.Total n (numberFormat fuel : Scan Byte C NumberFormat) := by
  unfold numberFormat
  infer_instance

instance (limbs : ℕ) : Scan.Total n (parseUintGeneric fuel limbs : Scan Byte C ℕ) := by
  have hformat (format : NumberFormat) : Scan.Total n (match format with
      | .dec => Scan.takeWhile (decDigit limbs) 0
      | .oct => .panic
      | .hex => do
        let out ← Scan.takeWhile (hexDigit limbs) (0, 0)
        pure out.1
      | .zero => pure 0 : Scan Byte C ℕ) := by
    cases format <;> infer_instance
  exact ⟨Scan.Total.reads.bind fun format => (hformat format).reads⟩

instance : Scan.Total n (u64 fuel : Scan Byte C ℕ) := by
  unfold u64
  infer_instance

instance : Scan.Total n (bignum fuel : Scan Byte C ℕ) := by
  unfold bignum
  infer_instance

instance : Scan.Eats n (larrow fuel : Scan Byte C Unit) := by
  unfold larrow
  infer_instance

instance {σ : Type} (body : σ → Scan Byte C σ) [∀ s, Scan.Total n (body s)] (s : σ) :
    Scan.Total n (whileComma fuel body s) := by
  unfold whileComma
  infer_instance

instance : Scan.Total n (pluginArg fuel : Scan Byte C PluginTypeArg) := by
  refine ⟨Scan.Total.reads.bind fun x => ?_⟩
  cases x with
  | none => exact Scan.Total.reads
  | some x => exact Scan.Total.reads

instance : Scan.Eats n (pluginType fuel : Scan Byte C PluginType) := by
  unfold pluginType
  infer_instance

instance : Scan.Eats n (headerType fuel : Scan Byte C FieldType) := by
  unfold headerType
  infer_instance

instance : Scan.Eats n (convertCount fuel : Scan Byte C TypedCount) := by
  unfold convertCount
  infer_instance

instance : Scan.Eats n (headerConversion fuel : Scan Byte C ConversionDescription) := by
  unfold headerConversion
  infer_instance

instance (header : Header) :
    Scan.Eats n (headerEntry fuel header : Scan Byte C (Header ⊕ Header)) := by
  unfold headerEntry
  infer_instance

instance : Scan.Eats n (version fuel : Scan Byte C Unit) := by
  unfold version
  infer_instance

instance : Scan.Eats n (parseHeader fuel : Scan Byte C Header) := by
  unfold parseHeader
  infer_instance

instance : Scan.Eats n (readWireId fuel : Scan Byte C WireId) := by
  unfold readWireId
  infer_instance

instance : Scan.Eats n (readTypeColonWireNumber fuel : Scan Byte C (TypeId × WireId)) := by
  unfold readTypeColonWireNumber
  infer_instance

instance (start : WireId) : Scan.Total n (readRangeEnd fuel start : Scan Byte C WireId) := by
  unfold readRangeEnd
  infer_instance

instance : Scan.Eats n (readWireRange fuel : Scan Byte C WireRange) := by
  unfold readWireRange
  infer_instance

instance (wireRangeBuf : List WireRange) :
    Scan.Total n (checkWireRangeBufSingleOutput wireRangeBuf : Scan Byte C WireId) := by
  unfold checkWireRangeBufSingleOutput
  split <;> infer_instance

instance (wireRangeBuf : List WireRange) :
    Scan.Total n (pushWireRanges fuel wireRangeBuf : Scan Byte C (List WireRange)) := by
  unfold pushWireRanges
  infer_instance

instance (wireRangeBuf : List WireRange) :
    Scan.Eats n (endGate fuel wireRangeBuf : Scan Byte C WireId) := by
  unfold endGate
  infer_instance

instance : Scan.Eats n (readNewOrDeleteBody fuel : Scan Byte C (TypeId × WireId × WireId)) := by
  unfold readNewOrDeleteBody
  infer_instance

instance (gate : TypeId → WireId → WireId → WireId → Call) (wireRangeBuf : List WireRange) :
    Scan.Eats n (binaryGate fuel gate wireRangeBuf : Scan Byte Call Unit) := by
  unfold binaryGate
  infer_instance

instance (gate : TypeId → WireId → WireId → ℕ → Call) (wireRangeBuf : List WireRange) :
    Scan.Eats n (constantGate fuel gate wireRangeBuf : Scan Byte Call Unit) := by
  unfold constantGate
  infer_instance

instance (gate : TypeId → WireId → Call) (wireRangeBuf : List WireRange) :
    Scan.Eats n (inputGate fuel gate wireRangeBuf : Scan Byte Call Unit) := by
  unfold inputGate
  infer_instance

instance (wireRangeBuf : List WireRange) :
    Scan.Eats n (callGate fuel wireRangeBuf : Scan Byte Call Unit) := by
  unfold callGate
  infer_instance

instance (wireRangeBuf : List WireRange) :
    Scan.Eats n (readGate fuel wireRangeBuf : Scan Byte Call Unit) := by
  unfold readGate
  infer_instance

instance (peeked : Byte) : Scan.Total n (readOptionalType fuel peeked : Scan Byte C TypeId) := by
  unfold readOptionalType
  infer_instance

instance (peeked : Byte) (wireRangeBuf : List WireRange) :
    Scan.Total n (readConstantOrCopy fuel peeked wireRangeBuf : Scan Byte Call Unit) := by
  unfold readConstantOrCopy
  infer_instance

instance (wireRangeBuf : List WireRange) (peeked : Option Byte) :
    Scan.Total n (readRightHandSide fuel wireRangeBuf peeked : Scan Byte Call Unit) := by
  cases peeked with
  | none => exact inferInstanceAs (Scan.Total n Scan.fail)
  | some peeked =>
    unfold readRightHandSide
    infer_instance

instance : Scan.Eats n (readAssignment fuel : Scan Byte Call Unit) := by
  unfold readAssignment
  infer_instance

instance : Scan.Eats n (readTypedWireRange fuel : Scan Byte C TypedWireRange) := by
  unfold readTypedWireRange
  infer_instance

instance : Scan.Eats n (readConversionGate fuel : Scan Byte Call Unit) := by
  unfold readConversionGate
  infer_instance

instance : Scan.Eats n (readCall fuel : Scan Byte Call Unit) := by
  unfold readCall
  infer_instance

instance : Scan.Eats n (readAssertZero fuel : Scan Byte Call Unit) := by
  unfold readAssertZero
  infer_instance

instance (directive : TypeId → WireId → WireId → Call) :
    Scan.Eats n (readNewOrDelete fuel directive : Scan Byte Call Unit) := by
  unfold readNewOrDelete
  infer_instance

instance (parseFunction : Scan Byte Call Unit) [Scan.Total n parseFunction] :
    Scan.Eats n (readAtDirective fuel parseFunction : Scan Byte Call (Unit ⊕ Unit)) := by
  unfold readAtDirective
  infer_instance

instance (parseFunction : Scan Byte Call Unit) [Scan.Total n parseFunction] :
    Scan.Eats n (readDirective fuel parseFunction : Scan Byte Call (Unit ⊕ Unit)) := by
  refine ⟨Scan.Total.reads.bind fun peeked => ?_⟩
  cases peeked with
  | none => exact Scan.Eats.reads
  | some peeked => exact Scan.Eats.reads

instance (parseFunction : Scan Byte Call Unit) [Scan.Total n parseFunction] :
    Scan.Total n (readDirectives fuel parseFunction : Scan Byte Call Unit) := by
  unfold readDirectives
  infer_instance

instance (dst : Bool) (direction : Scan Byte C Bool) [Scan.Total n direction] :
    Scan.Total n (readDirection fuel dst direction : Scan Byte C Bool) := by
  unfold readDirection
  infer_instance

instance (direction : Scan Byte C Bool) [Scan.Total n direction] (dst : Bool) :
    Scan.Total n (readTypedCounts fuel direction dst :
      Scan Byte C (List TypedCount × List TypedCount)) := by
  unfold readTypedCounts
  infer_instance

instance : Scan.Eats n (functionDirection fuel : Scan Byte C Bool) := by
  unfold functionDirection
  infer_instance

instance : Scan.Eats n (pluginDirection fuel : Scan Byte C Bool) := by
  unfold pluginDirection
  infer_instance

instance : Scan.Eats n (readFunction fuel : Scan Byte Call Unit) := by
  unfold readFunction
  infer_instance

instance : Scan.Total n (readInner fuel : Scan Byte Call Unit) := by
  unfold readInner
  infer_instance

instance : Scan.Total n (readRelation fuel : Scan Byte Call Unit) := by
  unfold readRelation
  infer_instance

instance (kind : ValueStreamKind) :
    Scan.Total n (newValueStream fuel kind : Scan Byte ValueCall ℕ) := by
  unfold newValueStream
  infer_instance

instance : Scan.Eats n (nextInner fuel : Scan Byte ValueCall (Option ℕ)) := by
  unfold nextInner
  infer_instance

instance (next : Option ℕ) : Scan.Total n (handOver next) := by
  unfold handOver
  split <;> infer_instance

instance : Scan.Eats n (nextValue fuel) := by
  unfold nextValue
  infer_instance

instance (kind : ValueStreamKind) :
    Scan.Total n (readValueStream fuel kind : Scan Byte ValueCall Unit) := by
  unfold readValueStream
  infer_instance

end Ends

/-! ## The readers on a stream and on its bytes -/

abbrev Fills := List {fill : List Byte // fill ≠ []}

/-- Enough fuel for the loops over a stream, whatever is added to it. -/
def fuelFor (fills : Fills) (extra : ℕ) : ℕ := (BufReader.rest fills).length + 1 + extra

/-- On a stream that comes in these fills the reader returns, and what it returns and the calls it
makes are what the bytes of the stream alone give. -/
def ReturnsFromBytes {C : Type} (visit : List C → C → Bool) (reader : Scan Byte C Unit)
    (fills : Fills) : Prop :=
  (reader.run visit [] (BufReader.new fills)).1.Returns ∧
    reader.run visit [] (BufReader.new fills) = reader.parse visit [] (BufReader.rest fills)

/-- Over the bytes of the stream the reader comes to no octal number, and wherever it looks ahead
the fill at hand still holds as many bytes as it looks at. -/
def NoFault {C : Type} (visit : List C → C → Bool) (reader : Scan Byte C Unit) (fills : Fills) :
    Prop :=
  reader.Safe visit (BufReader.room fills) [] (BufReader.rest fills)

theorem returnsFromBytes_iff {C : Type} (visit : List C → C → Bool) (reader : Scan Byte C Unit)
    (fills : Fills) (h : Scan.Total (BufReader.rest fills).length reader) :
    ReturnsFromBytes visit reader fills ↔ NoFault visit reader fills :=
  reader.returns_iff visit fills (h.reads _ le_rfl)

/-- Both readers return, with what the bytes alone give, exactly where there is neither an octal
number nor a look-ahead beyond the fill at hand. -/
theorem readers_return_iff (visit : List Call → Call → Bool)
    (visitValue : List ValueCall → ValueCall → Bool) (kind : ValueStreamKind) (fills : Fills)
    (extra : ℕ) :
    (ReturnsFromBytes visit (readRelation (fuelFor fills extra)) fills ↔
        NoFault visit (readRelation (fuelFor fills extra)) fills) ∧
      (ReturnsFromBytes visitValue (readValueStream (fuelFor fills extra) kind) fills ↔
        NoFault visitValue (readValueStream (fuelFor fills extra) kind) fills) := by
  have : Fact ((BufReader.rest fills).length < fuelFor fills extra) :=
    ⟨by rw [fuelFor]; omega⟩
  exact ⟨returnsFromBytes_iff _ _ _ inferInstance, returnsFromBytes_iff _ _ _ inferInstance⟩

/-- The stream whose fills are these texts. -/
def fillsOf (texts : List String) : Fills :=
  texts.filterMap fun text => if h : bytes text ≠ [] then some ⟨bytes text, h⟩ else none

def octalRelation : Fills :=
  fillsOf ["version 2.0.0;circuit;@type field 0o7;@begin @end"]

def octalValues : Fills :=
  fillsOf ["version 2.0.0;public_input;@type field 0o7;@begin @end"]

def splitRelation : Fills :=
  fillsOf ["version 2.0.0;circuit;@begin @function(f)@end", " @end"]

/-- An octal modulus makes both readers panic, and so does a function whose parameters are followed
by a short fill. -/
theorem not_readers_return :
    ¬ReturnsFromBytes (fun _ _ => true) (readRelation (fuelFor octalRelation 0)) octalRelation ∧
      ¬ReturnsFromBytes (fun _ _ => true) (readValueStream (fuelFor octalValues 0) .publicKind)
        octalValues ∧
      ¬ReturnsFromBytes (fun _ _ => true) (readRelation (fuelFor splitRelation 0))
        splitRelation := by
  refine ⟨fun h => ?_, fun h => ?_, fun h => ?_⟩
  · exact absurd h.1 (by decide +kernel)
  · exact absurd h.1 (by decide +kernel)
  · exact absurd h.1 (by decide +kernel)

end EdaBitGen.SieveParser
