import EdaBitGen.Data.Patterns
import EdaBitGen.FancyGarbling.CircuitValues

/-!
# Parsing circuit files

Functions for parsing a circuit file in the old Bristol format.
-/

namespace EdaBitGen.FancyGarbling

open Patterns

/-- Errors of the circuit parser. -/
inductive CircuitParserError
  | ioError
  | parseIntError
  | parseLineError (line : List Char)
  | parseGateError (gate : List Char)
  deriving DecidableEq

/-- How the parser ends without a circuit. -/
inductive ParserFailure
  | error (e : CircuitParserError)
  | panic
  deriving DecidableEq

abbrev Parsed := Except ParserFailure

/-- How the parser is built, with the most elements that a vector has room for. -/
structure ParserBuild where
  overflowChecks : Bool
  room : ℕ
  room_lt : room < 2 ^ 63

namespace ParserBuild

variable (build : ParserBuild)

/-- An addition, which panics out of range in builds with overflow checks and wraps in others. -/
def add (a b : ℕ) : Parsed ℕ :=
  if a + b < 2 ^ 64 then .ok (a + b)
  else if build.overflowChecks then .error .panic
  else .ok (a + b - 2 ^ 64)

def sub (a b : ℕ) : Parsed ℕ :=
  if b ≤ a then .ok (a - b)
  else if build.overflowChecks then .error .panic
  else .ok (2 ^ 64 + a - b)

/-- `Vec::push`. -/
def push {α : Type} (v : List α) (a : α) : Parsed (List α) :=
  if v.length < build.room then .ok (v ++ [a]) else .error .panic

end ParserBuild

/-! ## Captures -/

inductive GateType
  | andGate
  | xorGate
  deriving DecidableEq

/-- `\d`, with the decimal digits past ASCII in a table. -/
def unicodeDigit (nd : Char → Bool) (c : Char) : Bool := c.isDigit || (127 < c.toNat && nd c)

/-- `\s`, the white space of Unicode. -/
def unicodeSpace (c : Char) : Bool :=
  let n := c.toNat
  (9 ≤ n && n ≤ 13) || n == 0x20 || n == 0x85 || n == 0xa0 || n == 0x1680 ||
    (0x2000 ≤ n && n ≤ 0x200a) || n == 0x2028 || n == 0x2029 || n == 0x202f || n == 0x205f ||
    n == 0x3000

def decimal (ds : List Char) : ℕ := ds.foldl (fun n c => 10 * n + (c.toNat - '0'.toNat)) 0

/-- `usize::from_str`, where a plus sign may come first. -/
def usizeFromStr (s : List Char) : Option ℕ :=
  let ds := if s.head? = some '+' then s.tail else s
  if ds ≠ [] ∧ ds.all Char.isDigit ∧ decimal ds < 2 ^ 64 then some (decimal ds) else none

/-- The groups of a pattern are counted from 1. -/
def cap2int (cap : List (List Char)) (idx : ℕ) : Parsed ℕ :=
  match cap[idx - 1]? with
  | none => .error (.error .parseIntError)
  | some s =>
    match usizeFromStr s with
    | some n => .ok n
    | none => .error (.error .parseIntError)

def cap2typ (cap : List (List Char)) (idx : ℕ) : Parsed GateType :=
  match cap[idx - 1]? with
  | none => .error (.error .parseIntError)
  | some s =>
    if s = "AND".toList then .ok .andGate
    else if s = "XOR".toList then .ok .xorGate
    else .error (.error (.parseGateError s))

def regex2captures (re : List Part) (line : List Char) : Parsed (List (List Char)) :=
  match captures re line with
  | some cap => .ok cap
  | none => .error (.error (.parseLineError line))

/-- The lines of a stream, each with its newline. -/
def rawLines : List UInt8 → List (List UInt8)
  | [] => []
  | b :: bytes =>
    if b = 10 then [b] :: rawLines bytes
    else
      match rawLines bytes with
      | [] => [[b]]
      | line :: lines => (b :: line) :: lines

/-- The text of a line, if it is UTF-8. -/
def decode (raw : List UInt8) : Option (List Char) :=
  (String.fromUTF8? ⟨raw.toArray⟩).map String.toList

/-- `BufRead::read_line`, on the lines that are left; at the end it reads nothing. -/
def readLine : List (List UInt8) → Parsed (List Char × List (List UInt8))
  | [] => .ok ([], [])
  | raw :: reader =>
    match decode raw with
    | some line => .ok (line, reader)
    | none => .error (.error .ioError)

/-- A line without its end, as `BufRead::lines` gives it. -/
def chomp (line : List Char) : List Char :=
  if line.getLast? = some '\n' then
    let line := line.dropLast
    if line.getLast? = some '\r' then line.dropLast else line
  else line

/-- The numbers of the first two lines. -/
structure Header where
  ngates : ℕ
  nwires : ℕ
  n1 : ℕ
  n2 : ℕ
  n3 : ℕ
  deriving DecidableEq

section Header

variable (nd : Char → Bool)

/-- `(\d+)\s+(\d+)` -/
def countsPattern : List Part :=
  [.group (unicodeDigit nd), .many unicodeSpace, .group (unicodeDigit nd)]

/-- `(\d+)\s+(\d+)\s+(\d+)` -/
def sizesPattern : List Part :=
  [.group (unicodeDigit nd), .many unicodeSpace, .group (unicodeDigit nd), .many unicodeSpace,
    .group (unicodeDigit nd)]

/-- `\n` -/
def newlinePattern : List Part := [.text ['\n']]

def parseHeader (reader : List (List UInt8)) : Parsed (Header × List (List UInt8)) := do
  -- ngates nwires\n
  let (line, reader) ← readLine reader
  let cap ← regex2captures (countsPattern nd) line
  let ngates ← cap2int cap 1
  let nwires ← cap2int cap 2
  -- n1 n2 n3\n
  let (line, reader) ← readLine reader
  let cap ← regex2captures (sizesPattern nd) line
  let n1 ← cap2int cap 1
  let n2 ← cap2int cap 2
  let n3 ← cap2int cap 3
  -- \n
  let (line, reader) ← readLine reader
  let _ ← regex2captures newlinePattern line
  return (⟨ngates, nwires, n1, n2, n3⟩, reader)

end Header

/-! ## The wires of the header -/

namespace BinaryCircuit

section Layout

variable (build : ParserBuild)

def new (ngates : Option ℕ) : Parsed BinaryCircuit :=
  if ngates.getD 0 ≤ build.room then .ok ⟨[], [], [], [], [], 0⟩ else .error .panic

def pushGate (circ : BinaryCircuit) (gate : BinaryGate) : Parsed BinaryCircuit := do
  let gates ← build.push circ.gates gate
  return { circ with gates := gates }

/-- The garbler input `i`. -/
def pushGarblerInput (circ : BinaryCircuit) (i : ℕ) : Parsed BinaryCircuit := do
  let circ ← circ.pushGate build (.garblerInput i)
  let refs ← build.push circ.garblerInputRefs ⟨i, 2⟩
  return { circ with garblerInputRefs := refs }

/-- The evaluator input `i`, after `n1` garbler inputs. -/
def pushEvaluatorInput (n1 : ℕ) (circ : BinaryCircuit) (i : ℕ) : Parsed BinaryCircuit := do
  let circ ← circ.pushGate build (.evaluatorInput i)
  let ix ← build.add n1 i
  let refs ← build.push circ.evaluatorInputRefs ⟨ix, 2⟩
  return { circ with evaluatorInputRefs := refs }

/-- The constant wire for negations. -/
def pushOne (n1 n2 : ℕ) (circ : BinaryCircuit) : Parsed BinaryCircuit := do
  let circ ← circ.pushGate build (.constant 1)
  let ix ← build.add n1 n2
  let refs ← build.push circ.constRefs ⟨ix, 2⟩
  return { circ with constRefs := refs }

/-- The output `i` of `n3`. -/
def pushOutput (nwires n3 : ℕ) (circ : BinaryCircuit) (i : ℕ) : Parsed BinaryCircuit := do
  let first ← build.sub nwires n3
  let ix ← build.add first i
  let refs ← build.push circ.outputRefs ⟨ix, 2⟩
  return { circ with outputRefs := refs }

/-- The circuit of a header, without the gates of the file. -/
def layout (h : Header) : Parsed BinaryCircuit := do
  let circ ← new build (some h.ngates)
  let circ ← (List.range h.n1).foldlM (pushGarblerInput build) circ
  let circ ← (List.range h.n2).foldlM (pushEvaluatorInput build h.n1) circ
  let circ ← pushOne build h.n1 h.n2 circ
  (List.range h.n3).foldlM (pushOutput build h.nwires h.n3) circ

end Layout

end BinaryCircuit

section Gates

variable (nd : Char → Bool)

/-- `1 1 (\d+) (\d+) INV` -/
def invPattern : List Part :=
  [.text "1 1 ".toList, .group (unicodeDigit nd), .text [' '], .group (unicodeDigit nd),
    .text " INV".toList]

/-- `2 1 (\d+) (\d+) (\d+) ((AND|XOR))` -/
def gatePattern : List Part :=
  [.text "2 1 ".toList, .group (unicodeDigit nd), .text [' '], .group (unicodeDigit nd), .text [' '],
    .group (unicodeDigit nd), .text [' '], .oneOf ["AND".toList, "XOR".toList]]

/-- The gate of a line that is not empty, with the number of the next and gate. -/
def parseGate (id : ℕ) (line : List Char) : Parsed (BinaryGate × ℕ) :=
  if line.head? = some '1' then do
    let cap ← regex2captures (invPattern nd) line
    let yref ← cap2int cap 1
    let out ← cap2int cap 2
    return (.inv ⟨yref, 2⟩ (some out), id)
  else if line.head? = some '2' then do
    let cap ← regex2captures (gatePattern nd) line
    let xref ← cap2int cap 1
    let yref ← cap2int cap 2
    let out ← cap2int cap 3
    let typ ← cap2typ cap 4
    match typ with
    | .andGate => return (.and ⟨xref, 2⟩ ⟨yref, 2⟩ id (some out), id + 1)
    | .xorGate => return (.xor ⟨xref, 2⟩ ⟨yref, 2⟩ (some out), id)
  else .error (.error (.parseLineError line))

/-- The gates up to the first empty line. -/
def parseGates (build : ParserBuild) (circ : BinaryCircuit) (id : ℕ) :
    List (List UInt8) → Parsed BinaryCircuit
  | [] => .ok circ
  | raw :: reader =>
    match decode raw with
    | none => .error (.error .ioError)
    | some line =>
      if chomp line = [] then .ok circ
      else do
        let (gate, id) ← parseGate nd id (chomp line)
        let circ ← circ.pushGate build gate
        parseGates build circ id reader

/-- Generates a new circuit from a file. -/
def BinaryCircuit.parse (build : ParserBuild) (bytes : List UInt8) : Parsed BinaryCircuit := do
  let (h, reader) ← parseHeader nd (rawLines bytes)
  let circ ← layout build h
  parseGates nd build circ 0 reader

end Gates

/-! ## Sizes -/

theorem cap2int_lt {cap : List (List Char)} {idx n : ℕ} (h : cap2int cap idx = .ok n) :
    n < 2 ^ 64 := by
  unfold cap2int at h
  split at h
  · cases h
  · next s _ =>
    split at h
    · next hn =>
      cases h
      unfold usizeFromStr at hn
      simp only [Option.ite_none_right_eq_some, Option.some.injEq] at hn
      obtain ⟨⟨-, -, hlt⟩, rfl⟩ := hn
      exact hlt
    · cases h

theorem parseHeader_lt {nd : Char → Bool} {reader reader' : List (List UInt8)} {h : Header}
    (hparse : parseHeader nd reader = .ok (h, reader')) : h.nwires < 2 ^ 64 ∧ h.n3 < 2 ^ 64 := by
  obtain ⟨⟨_, _⟩, -, hparse⟩ := exists_of_bind hparse
  obtain ⟨_, -, hparse⟩ := exists_of_bind hparse
  obtain ⟨_, -, hparse⟩ := exists_of_bind hparse
  obtain ⟨_, hnwires, hparse⟩ := exists_of_bind hparse
  obtain ⟨⟨_, _⟩, -, hparse⟩ := exists_of_bind hparse
  obtain ⟨_, -, hparse⟩ := exists_of_bind hparse
  obtain ⟨_, -, hparse⟩ := exists_of_bind hparse
  obtain ⟨_, -, hparse⟩ := exists_of_bind hparse
  obtain ⟨_, hn3, hparse⟩ := exists_of_bind hparse
  obtain ⟨⟨_, _⟩, -, hparse⟩ := exists_of_bind hparse
  obtain ⟨_, -, hparse⟩ := exists_of_bind hparse
  cases hparse
  exact ⟨cap2int_lt hnwires, cap2int_lt hn3⟩

/-- The vectors have room for what a header announces, and the outputs are counted back from the
wires without a panic. -/
structure Header.Fits (build : ParserBuild) (h : Header) : Prop where
  gates : h.ngates ≤ build.room
  wires : h.n1 + h.n2 < build.room
  outputs : h.n3 ≤ build.room
  offset : h.n3 = 0 ∨ h.n3 ≤ h.nwires ∨ build.overflowChecks = false

namespace BinaryCircuit

section Layout

variable {build : ParserBuild}

theorem pushGate_eq {circ : BinaryCircuit} (gate : BinaryGate)
    (h : circ.gates.length < build.room) :
    circ.pushGate build gate = .ok { circ with gates := circ.gates ++ [gate] } := by
  rw [pushGate, ParserBuild.push, if_pos h]
  rfl

theorem pushGate_panic {circ : BinaryCircuit} (gate : BinaryGate)
    (h : ¬ circ.gates.length < build.room) : circ.pushGate build gate = .error .panic := by
  rw [pushGate, ParserBuild.push, if_neg h]
  rfl

theorem foldlM_upTo {σ : Type} {f : σ → ℕ → Parsed σ} (state : ℕ → σ) (n limit : ℕ)
    (hok : ∀ i < n, i < limit → f (state i) i = .ok (state (i + 1)))
    (hpanic : limit < n → f (state limit) limit = .error .panic) :
    (List.range n).foldlM f (state 0) = if n ≤ limit then .ok (state n) else .error .panic := by
  split
  · exact Traversal.foldlM_range state fun i hi => hok i hi (by omega)
  · exact Traversal.foldlM_range_error state (by omega)
      (fun i hi => hok i (by omega) hi) (hpanic (by omega))

/-- The circuit after `i` garbler inputs. -/
def garblerInputs (i : ℕ) : BinaryCircuit where
  gates := (List.range i).map .garblerInput
  garblerInputRefs := (List.range i).map fun j => ⟨j, 2⟩
  evaluatorInputRefs := []
  constRefs := []
  outputRefs := []
  numNonfreeGates := 0

/-- The circuit after `n1` garbler inputs and `i` evaluator inputs. -/
def partyInputs (n1 i : ℕ) : BinaryCircuit :=
  { garblerInputs n1 with
    gates := (garblerInputs n1).gates ++ (List.range i).map .evaluatorInput
    evaluatorInputRefs := (List.range i).map fun j => ⟨n1 + j, 2⟩ }

/-- The index of an output, which wraps below zero. -/
def outputIndex (nwires n3 i : ℕ) : ℕ := (2 ^ 64 + nwires - n3 + i) % 2 ^ 64

/-- The circuit of a header with `i` of its outputs. -/
def withOutputs (h : Header) (i : ℕ) : BinaryCircuit :=
  { partyInputs h.n1 h.n2 with
    gates := (partyInputs h.n1 h.n2).gates ++ [.constant 1]
    constRefs := [⟨h.n1 + h.n2, 2⟩]
    outputRefs := (List.range i).map fun j => ⟨outputIndex h.nwires h.n3 j, 2⟩ }

theorem length_withOutputs (h : Header) (i : ℕ) :
    (withOutputs h i).gates.length = h.n1 + h.n2 + 1 := by
  simp [withOutputs, partyInputs, garblerInputs, Nat.add_assoc]

theorem foldlM_pushGarblerInput (n1 : ℕ) :
    (List.range n1).foldlM (pushGarblerInput build) (garblerInputs 0) =
      if n1 ≤ build.room then .ok (garblerInputs n1) else .error .panic := by
  refine foldlM_upTo garblerInputs n1 build.room (fun i _ hi => ?_) fun _ => ?_
  · rw [pushGarblerInput, pushGate_eq _ (by simpa [garblerInputs] using hi), ok_bind]
    rw [ParserBuild.push, if_pos (by simpa [garblerInputs] using hi), ok_bind]
    simp [garblerInputs, List.range_succ, pure, Except.pure]
  · rw [pushGarblerInput, pushGate_panic _ (by simp [garblerInputs])]
    rfl

theorem partyInputs_zero (n1 : ℕ) : partyInputs n1 0 = garblerInputs n1 := by
  simp [partyInputs, garblerInputs]

theorem foldlM_pushEvaluatorInput {n1 : ℕ} (n2 : ℕ) (h : n1 ≤ build.room) :
    (List.range n2).foldlM (pushEvaluatorInput build n1) (partyInputs n1 0) =
      if n2 ≤ build.room - n1 then .ok (partyInputs n1 n2) else .error .panic := by
  have hroom := build.room_lt
  have hlength (i : ℕ) : (partyInputs n1 i).gates.length = n1 + i := by
    simp [partyInputs, garblerInputs]
  refine foldlM_upTo (partyInputs n1) n2 (build.room - n1) (fun i _ hi => ?_) fun _ => ?_
  · have hadd : build.add n1 i = .ok (n1 + i) := if_pos (by omega)
    have hpush : (partyInputs n1 i).evaluatorInputRefs.length < build.room := by
      simp only [partyInputs, List.length_map, List.length_range]
      omega
    rw [pushEvaluatorInput, pushGate_eq _ (by rw [hlength]; omega), ok_bind, hadd, ok_bind,
      ParserBuild.push, if_pos hpush, ok_bind]
    simp [partyInputs, List.range_succ, pure, Except.pure]
  · rw [pushEvaluatorInput, pushGate_panic _ (by rw [hlength]; omega)]
    rfl

theorem pushOne_eq {h : Header} (hlt : h.n1 + h.n2 < build.room) :
    pushOne build h.n1 h.n2 (partyInputs h.n1 h.n2) = .ok (withOutputs h 0) := by
  have hroom := build.room_lt
  have hlength : (partyInputs h.n1 h.n2).gates.length < build.room := by
    simpa [partyInputs, garblerInputs] using hlt
  have hadd : build.add h.n1 h.n2 = .ok (h.n1 + h.n2) := if_pos (by omega)
  have hpush : (partyInputs h.n1 h.n2).constRefs.length < build.room := Nat.zero_lt_of_lt hlt
  rw [pushOne, pushGate_eq _ hlength, ok_bind, hadd, ok_bind, ParserBuild.push, if_pos hpush, ok_bind]
  rfl

theorem pushOne_panic {n1 n2 : ℕ} (hlt : ¬ n1 + n2 < build.room) :
    pushOne build n1 n2 (partyInputs n1 n2) = .error .panic := by
  rw [pushOne, pushGate_panic _ (by simpa [partyInputs, garblerInputs] using hlt)]
  rfl

theorem outputIndex_eq {nwires n3 i : ℕ} (hnwires : nwires < 2 ^ 64) (hn3 : n3 < 2 ^ 64)
    (hi : i < n3) (hoffset : n3 ≤ nwires ∨ build.overflowChecks = false) :
    (build.sub nwires n3 >>= fun first => build.add first i) = .ok (outputIndex nwires n3 i) := by
  unfold outputIndex
  by_cases hle : n3 ≤ nwires
  · rw [ParserBuild.sub, if_pos hle, ok_bind, ParserBuild.add, if_pos (by omega)]
    congr 1
    omega
  · have hchecks := hoffset.resolve_left hle
    rw [ParserBuild.sub, if_neg hle, hchecks, if_neg Bool.false_ne_true, ok_bind, ParserBuild.add,
      hchecks, if_neg Bool.false_ne_true]
    split
    · exact congrArg Except.ok (by omega)
    · exact congrArg Except.ok (by omega)

theorem foldlM_pushOutput {h : Header} (hnwires : h.nwires < 2 ^ 64) (hn3 : h.n3 < 2 ^ 64)
    (hoffset : h.n3 ≤ h.nwires ∨ build.overflowChecks = false) :
    (List.range h.n3).foldlM (pushOutput build h.nwires h.n3) (withOutputs h 0) =
      if h.n3 ≤ build.room then .ok (withOutputs h h.n3) else .error .panic := by
  have hpushOutput (circ : BinaryCircuit) {i : ℕ} (hi : i < h.n3) :
      pushOutput build h.nwires h.n3 circ i =
        (build.push circ.outputRefs ⟨outputIndex h.nwires h.n3 i, 2⟩ >>= fun refs =>
          .ok { circ with outputRefs := refs }) := by
    rw [pushOutput, ← bind_assoc, outputIndex_eq hnwires hn3 hi hoffset, ok_bind]
    rfl
  refine foldlM_upTo (withOutputs h) h.n3 build.room (fun i hi hlt => ?_) fun hlt => ?_
  · rw [hpushOutput _ hi, ParserBuild.push, if_pos (by simpa [withOutputs] using hlt), ok_bind]
    simp [withOutputs, List.range_succ]
  · rw [hpushOutput _ hlt, ParserBuild.push, if_neg (by simp [withOutputs])]
    rfl

theorem layout_eq {h : Header} (hnwires : h.nwires < 2 ^ 64) (hn3 : h.n3 < 2 ^ 64)
    (hfits : h.Fits build) : layout build h = .ok (withOutputs h h.n3) := by
  have hnew : new build (some h.ngates) = .ok (garblerInputs 0) := if_pos hfits.gates
  have hwires := hfits.wires
  rw [layout, hnew, ok_bind, foldlM_pushGarblerInput, if_pos (by omega), ok_bind,
    ← partyInputs_zero, foldlM_pushEvaluatorInput h.n2 (by omega), if_pos (by omega), ok_bind,
    pushOne_eq hwires, ok_bind]
  obtain hzero | hoffset := hfits.offset
  · rw [hzero]
    rfl
  · rw [foldlM_pushOutput hnwires hn3 hoffset, if_pos hfits.outputs]

theorem layout_panic {h : Header} (hnwires : h.nwires < 2 ^ 64) (hn3 : h.n3 < 2 ^ 64)
    (hfits : ¬ h.Fits build) : layout build h = .error .panic := by
  by_cases hgates : h.ngates ≤ build.room
  swap
  · have hnew : new build (some h.ngates) = .error .panic := if_neg hgates
    rw [layout, hnew]
    rfl
  have hnew : new build (some h.ngates) = .ok (garblerInputs 0) := if_pos hgates
  rw [layout, hnew, ok_bind, foldlM_pushGarblerInput]
  by_cases hn1 : h.n1 ≤ build.room
  swap
  · rw [if_neg hn1]
    rfl
  rw [if_pos hn1, ok_bind, ← partyInputs_zero, foldlM_pushEvaluatorInput h.n2 hn1]
  by_cases hn2 : h.n2 ≤ build.room - h.n1
  swap
  · rw [if_neg hn2]
    rfl
  rw [if_pos hn2, ok_bind]
  by_cases hwires : h.n1 + h.n2 < build.room
  swap
  · rw [pushOne_panic hwires]
    rfl
  rw [pushOne_eq hwires, ok_bind]
  by_cases hoffset : h.n3 ≤ h.nwires ∨ build.overflowChecks = false
  · rw [foldlM_pushOutput hnwires hn3 hoffset,
      if_neg fun houtputs => hfits ⟨hgates, hwires, houtputs, .inr hoffset⟩]
  · -- the first output is counted back past the first wire
    rw [not_or, Bool.not_eq_false] at hoffset
    have hsub : build.sub h.nwires h.n3 = .error .panic := by
      rw [ParserBuild.sub, if_neg hoffset.1, if_pos hoffset.2]
    refine Traversal.foldlM_range_error (fun _ => withOutputs h 0) (k := 0) (by omega)
      (fun i hi => absurd hi (Nat.not_lt_zero i)) ?_
    rw [pushOutput, hsub]
    rfl

end Layout

end BinaryCircuit

/-! ## The gates of the file -/

/-- A gate of a file: the wires it reads, then the one it writes. -/
inductive Instr
  | inv (x z : ℕ)
  | gate (typ : GateType) (x y z : ℕ)
  deriving DecidableEq

namespace Instr

/-- The gate of a circuit, with the number of the next and gate. -/
def toGate (id : ℕ) : Instr → BinaryGate × ℕ
  | .inv x z => (.inv ⟨x, 2⟩ (some z), id)
  | .gate .andGate x y z => (.and ⟨x, 2⟩ ⟨y, 2⟩ id (some z), id + 1)
  | .gate .xorGate x y z => (.xor ⟨x, 2⟩ ⟨y, 2⟩ (some z), id)

/-- The gates of a circuit, with `id` and gates before them. -/
def toGates : ℕ → List Instr → List BinaryGate
  | _, [] => []
  | id, i :: is => (i.toGate id).1 :: toGates (i.toGate id).2 is

theorem length_toGates (id : ℕ) (is : List Instr) : (toGates id is).length = is.length := by
  induction is generalizing id with
  | nil => rfl
  | cons i is ih => rw [toGates, List.length_cons, List.length_cons, ih]

end Instr

section GateLines

variable (nd : Char → Bool)

/-- What a line says, whatever its number. -/
def parseInstr (line : List Char) : Parsed Instr :=
  if line.head? = some '1' then do
    let cap ← regex2captures (invPattern nd) line
    let x ← cap2int cap 1
    let z ← cap2int cap 2
    return .inv x z
  else if line.head? = some '2' then do
    let cap ← regex2captures (gatePattern nd) line
    let x ← cap2int cap 1
    let y ← cap2int cap 2
    let z ← cap2int cap 3
    let typ ← cap2typ cap 4
    return .gate typ x y z
  else .error (.error (.parseLineError line))

/-- The lines that are read as gates; `none` stands for one that is not UTF-8. -/
def gateLines (reader : List (List UInt8)) : List (Option (List Char)) :=
  (reader.map fun raw => (decode raw).map chomp).takeWhile (· ≠ some [])

/-- The parser takes a line for a gate. -/
def accepts : Option (List Char) → Bool
  | none => false
  | some line => (parseGate nd 0 line).isOk

variable {nd}

theorem parseGate_eq (id : ℕ) (line : List Char) :
    parseGate nd id line = parseInstr nd line >>= fun i => .ok (i.toGate id) := by
  unfold parseGate parseInstr
  split
  · simp only [bind_assoc]
    rfl
  · split
    · simp only [bind_assoc, pure_bind]
      congr 1
      funext cap
      congr 1
      funext x
      congr 1
      funext y
      congr 1
      funext z
      congr 1
      funext typ
      cases typ <;> rfl
    · rfl

/-- A computation that does not panic. -/
abbrev Quiet {α : Type} (x : Parsed α) : Prop := x.Returns (· ≠ .panic) fun _ => True

theorem quiet_regex2captures (re : List Part) (line : List Char) :
    Quiet (regex2captures re line) := by
  unfold regex2captures
  split
  · exact .ok trivial
  · exact .error nofun

theorem quiet_cap2int (cap : List (List Char)) (idx : ℕ) : Quiet (cap2int cap idx) := by
  unfold cap2int
  split
  · exact .error nofun
  · split
    · exact .ok trivial
    · exact .error nofun

theorem quiet_cap2typ (cap : List (List Char)) (idx : ℕ) : Quiet (cap2typ cap idx) := by
  unfold cap2typ
  split
  · exact .error nofun
  · split
    · exact .ok trivial
    · split
      · exact .ok trivial
      · exact .error nofun

theorem quiet_readLine (reader : List (List UInt8)) : Quiet (readLine reader) := by
  unfold readLine
  split
  · exact .ok trivial
  · split
    · exact .ok trivial
    · exact .error nofun

variable (nd) in
theorem quiet_parseInstr (line : List Char) : Quiet (parseInstr nd line) := by
  unfold parseInstr
  split
  · refine (quiet_regex2captures _ _).bind fun cap _ => ?_
    refine (quiet_cap2int cap 1).bind fun x _ => ?_
    exact (quiet_cap2int cap 2).bind fun z _ => .ok trivial
  · split
    · refine (quiet_regex2captures _ _).bind fun cap _ => ?_
      refine (quiet_cap2int cap 1).bind fun x _ => ?_
      refine (quiet_cap2int cap 2).bind fun y _ => ?_
      refine (quiet_cap2int cap 3).bind fun z _ => ?_
      exact (quiet_cap2typ cap 4).bind fun typ _ => .ok trivial
    · exact .error nofun

variable (nd) in
theorem quiet_parseHeader (reader : List (List UInt8)) : Quiet (parseHeader nd reader) := by
  refine (quiet_readLine _).bind fun r _ => ?_
  refine (quiet_regex2captures _ _).bind fun cap _ => ?_
  refine (quiet_cap2int cap 1).bind fun ngates _ => ?_
  refine (quiet_cap2int cap 2).bind fun nwires _ => ?_
  refine (quiet_readLine _).bind fun r _ => ?_
  refine (quiet_regex2captures _ _).bind fun cap _ => ?_
  refine (quiet_cap2int cap 1).bind fun n1 _ => ?_
  refine (quiet_cap2int cap 2).bind fun n2 _ => ?_
  refine (quiet_cap2int cap 3).bind fun n3 _ => ?_
  refine (quiet_readLine _).bind fun r _ => ?_
  exact (quiet_regex2captures _ _).bind fun _ _ => .ok trivial

theorem exists_error_of_quiet {α : Type} {x : Parsed α} (h : Quiet x) :
    (∃ a, x = .ok a) ∨ ∃ e, x = .error (.error e) := by
  cases x with
  | ok a => exact .inl ⟨a, rfl⟩
  | error f =>
    cases h with
    | error hf =>
      cases f with
      | error e => exact .inr ⟨e, rfl⟩
      | panic => exact absurd rfl hf

variable (nd) in
theorem accepts_cases (line : List Char) :
    (accepts nd (some line) = true ∧ ∃ i, parseInstr nd line = .ok i) ∨
      (accepts nd (some line) = false ∧ ∃ e, parseInstr nd line = .error (.error e)) := by
  rw [accepts, parseGate_eq]
  obtain ⟨i, hi⟩ | ⟨e, he⟩ := exists_error_of_quiet (quiet_parseInstr nd line)
  · exact .inl ⟨by rw [hi]; rfl, i, hi⟩
  · exact .inr ⟨by rw [he]; rfl, e, he⟩

section Lines

variable {raw : List UInt8} {reader : List (List UInt8)}

theorem gateLines_of_none (h : decode raw = none) :
    gateLines (raw :: reader) = none :: gateLines reader := by
  simp [gateLines, h]

theorem gateLines_of_empty {line : List Char} (h : decode raw = some line)
    (hempty : chomp line = []) : gateLines (raw :: reader) = [] := by
  simp [gateLines, h, hempty]

theorem gateLines_of_line {line : List Char} (h : decode raw = some line)
    (hline : chomp line ≠ []) :
    gateLines (raw :: reader) = some (chomp line) :: gateLines reader := by
  simp [gateLines, h, hline]

end Lines

/-- How the gates of a file end that need room for `total` gates, up to a line that is refused or to
the last. -/
inductive Outcome (room total : ℕ) (refused : Prop) : Parsed BinaryCircuit → Prop
  | panic (h : room < total) : Outcome room total refused (.error .panic)
  | error {e : CircuitParserError} (h : total ≤ room) (hr : refused) :
    Outcome room total refused (.error (.error e))
  | ok {circ : BinaryCircuit} (h : total ≤ room) (hr : ¬ refused) :
    Outcome room total refused (.ok circ)

variable {build : ParserBuild}

variable (nd) in
theorem parseGates_outcome (circ : BinaryCircuit) (id : ℕ) (reader : List (List UInt8))
    (hroom : circ.gates.length ≤ build.room) :
    Outcome build.room
      (circ.gates.length + ((gateLines reader).takeWhile (accepts nd)).length)
      (∃ line ∈ gateLines reader, accepts nd line = false)
      (parseGates nd build circ id reader) := by
  induction reader generalizing circ id with
  | nil => exact .ok hroom (by simp [gateLines])
  | cons raw reader ih =>
    rw [parseGates]
    cases hdecode : decode raw with
    | none =>
      rw [gateLines_of_none hdecode]
      exact .error hroom ⟨none, List.mem_cons_self, rfl⟩
    | some line =>
      simp only
      by_cases hempty : chomp line = []
      · rw [if_pos hempty, gateLines_of_empty hdecode hempty]
        exact .ok hroom (by simp)
      · rw [if_neg hempty, gateLines_of_line hdecode hempty, parseGate_eq]
        obtain ⟨haccepts, i, hi⟩ | ⟨haccepts, e, he⟩ := accepts_cases nd (chomp line)
        · rw [hi, ok_bind, ok_bind, List.takeWhile_cons_of_pos haccepts, List.length_cons]
          by_cases hlt : circ.gates.length < build.room
          · have hnext := ih { circ with gates := circ.gates ++ [(i.toGate id).1] }
              (i.toGate id).2 (by simpa using hlt)
            rw [BinaryCircuit.pushGate_eq _ hlt, ok_bind]
            simpa [haccepts, Nat.add_assoc, Nat.add_comm] using hnext
          · rw [BinaryCircuit.pushGate_panic _ hlt]
            exact .panic (by omega)
        · rw [he, List.takeWhile_cons_of_neg (by simp [haccepts])]
          exact .error hroom ⟨_, List.mem_cons_self, haccepts⟩

theorem parseGates_eq {circ : BinaryCircuit} {id : ℕ} {reader : List (List UInt8)}
    {instrs : List Instr} (hlines : List.Forall₂ (fun line i => ∃ l, line = some l ∧
      parseInstr nd l = .ok i) (gateLines reader) instrs)
    (hroom : circ.gates.length + instrs.length ≤ build.room) :
    parseGates nd build circ id reader =
      .ok { circ with gates := circ.gates ++ Instr.toGates id instrs } := by
  induction reader generalizing circ id instrs with
  | nil =>
    cases hlines
    simp [parseGates, Instr.toGates]
  | cons raw reader ih =>
    rw [parseGates]
    cases hdecode : decode raw with
    | none =>
      rw [gateLines_of_none hdecode] at hlines
      obtain ⟨i, is, ⟨l, hl, -⟩, -, rfl⟩ := List.forall₂_cons_left_iff.1 hlines
      cases hl
    | some line =>
      simp only
      by_cases hempty : chomp line = []
      · rw [gateLines_of_empty hdecode hempty] at hlines
        cases hlines
        simp [hempty, Instr.toGates]
      · rw [gateLines_of_line hdecode hempty] at hlines
        obtain ⟨i, is, ⟨l, hl, hi⟩, his, rfl⟩ := List.forall₂_cons_left_iff.1 hlines
        cases hl
        rw [List.length_cons] at hroom
        rw [if_neg hempty, parseGate_eq, hi, ok_bind, ok_bind,
          BinaryCircuit.pushGate_eq _ (by omega), ok_bind, ih his (by simp; omega)]
        simp [Instr.toGates]

theorem BinaryCircuit.parse_of_fits {bytes : List UInt8} {h : Header} {reader : List (List UInt8)}
    (hheader : parseHeader nd (rawLines bytes) = .ok (h, reader)) (hfits : h.Fits build) :
    parse nd build bytes = parseGates nd build (withOutputs h h.n3) 0 reader := by
  have hlt := parseHeader_lt hheader
  rw [parse, hheader, ok_bind]
  simp only [layout_eq hlt.1 hlt.2 hfits, ok_bind]

theorem BinaryCircuit.parse_panic {bytes : List UInt8} {h : Header} {reader : List (List UInt8)}
    (hheader : parseHeader nd (rawLines bytes) = .ok (h, reader)) (hfits : ¬ h.Fits build) :
    parse nd build bytes = .error .panic := by
  have hlt := parseHeader_lt hheader
  rw [parse, hheader, ok_bind]
  simp only [layout_panic hlt.1 hlt.2 hfits]
  rfl

end GateLines

end EdaBitGen.FancyGarbling
