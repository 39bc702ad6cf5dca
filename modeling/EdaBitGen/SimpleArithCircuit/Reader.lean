import EdaBitGen.Fields
import EdaBitGen.Inferno.Model

/-!
# The reader of Bristol Fashion files

A file is a list of lines of tokens.  The reader numbers the wires again: input wires in the order in
which they are first read, then a constant wire, then the outputs of gates in the order of the gates.
Outputs are copied to the end.
-/

namespace EdaBitGen.Inferno

/-- A circuit of operations.  One that reads a wire before it is there fails when it is evaluated;
here it is not made. -/
def Circuit.new {F : Type} (ninputs noutputs : ℕ) (ops : List (Op F)) : Option (Circuit F) :=
  if h : noutputs ≤ ops.length ∧ ∀ p ∈ ops.zipIdx, ∀ n ∈ p.1.args, n < ninputs + p.2 then
    some ⟨ops, ninputs, noutputs, h.1, h.2⟩
  else none

end EdaBitGen.Inferno

namespace EdaBitGen.Bristol

open Inferno (Circuit Op)

/-! ## Lines -/

/-- What is between spaces: a number, or a name. -/
inductive Token
  | num (n : ℕ)
  | name (s : String)

/-- An error, or a failed assertion, an index out of range or a difference below zero. -/
inductive Failure
  | parseInt
  | invalidData (linenum : ℕ) (message : String)
  | panic

def fail {α : Type} (linenum : ℕ) (message : String) : Except Failure α :=
  .error (.invalidData linenum message)

def ensure (p : Prop) [Decidable p] : Except Failure Unit := if p then .ok () else .error .panic

def nth {α : Type} (xs : List α) (i : ℕ) : Except Failure α :=
  match xs[i]? with
  | some x => .ok x
  | none => .error .panic

def Token.parse : Token → Except Failure ℕ
  | .num n => .ok n
  | .name _ => .error .parseInt

def lineToNums (line : List Token) : Except Failure (List ℕ) := line.mapM Token.parse

/-- All tokens but the last are numbers. -/
def lineToNumsAndToken (line : List Token) : Except Failure (List ℕ × Token) := do
  -- the number of tokens less one is below zero for an empty line
  match line.getLast? with
  | none => .error .panic
  | some token => do
    let nums ← lineToNums line.dropLast
    .ok (nums, token)

/-- The number of all wires of the values of a line. -/
def valueLine (linenum : ℕ) (message : String) (line : List Token) : Except Failure ℕ := do
  match ← lineToNums line with
  | [] => fail linenum message
  | nv :: wv => if wv.length ≠ nv then fail linenum "Not enough wires specified" else .ok wv.sum

/-! ## Gates -/

inductive WireKind
  | unassigned
  | input
  | output
  | constant
  deriving DecidableEq

inductive GateKind
  | and
  | xor
  | eq
  | eqw
  | inv

def gateKind (i : ℕ) (gatekind : Token) (gateniw gatenow : ℕ) : Except Failure GateKind :=
  match gatekind with
  | .name "AND" => if gateniw ≠ 2 ∨ gatenow ≠ 1 then fail (4 + i) "param error" else .ok .and
  | .name "XOR" => if gateniw ≠ 2 ∨ gatenow ≠ 1 then fail (4 + i) "param error" else .ok .xor
  | .name "EQW" => if gateniw ≠ 1 ∨ gatenow ≠ 1 then fail (4 + i) "param error" else .ok .eqw
  | .name "EQ" => if gateniw ≠ 1 ∨ gatenow ≠ 1 then fail (4 + 1) "param error" else .ok .eq
  | .name "INV" => if gateniw ≠ 1 ∨ gatenow ≠ 1 then fail (4 + 1) "param error" else .ok .inv
  | .name "MAND" => fail (4 + i) "MAND unsupported"
  | _ => fail (4 + i) "invalid gate"

/-- The new numbers and kinds of wires, the next numbers, and the gates. -/
structure Mapping where
  wl : List (ℕ × WireKind)
  ciw : ℕ
  cow : ℕ
  gl : List (GateKind × ℕ × ℕ × ℕ)

/-- Make room for the constant wire after the input wires. -/
def shift (tniw w : ℕ) : ℕ := if tniw ≤ w then w + 1 else w

namespace Mapping

/-- A wire that is read before anything else is an input. -/
def assignInput (m : Mapping) (iw : ℕ) : Except Failure Mapping := do
  match ← nth m.wl iw with
  | (_, .unassigned) => .ok { m with wl := m.wl.set iw (m.ciw, .input), ciw := m.ciw + 1 }
  | _ => .ok m

def assignOutput (m : Mapping) (ow : ℕ) : Except Failure Mapping := do
  match ← nth m.wl ow with
  | (_, .unassigned) => .ok { m with wl := m.wl.set ow (m.cow, .output), cow := m.cow + 1 }
  | _ => .ok m

def mapWiresAndGates (tniw : ℕ) (m : Mapping) (gwdef : List ℕ) (gate : GateKind) :
    Except Failure Mapping := do
  let wire0 ← nth gwdef 2
  let wire1 ← nth gwdef 3
  let niw ← nth gwdef 0
  let now ← nth gwdef 1
  ensure (now = 1)
  let wire2 ← if niw = 2 then nth gwdef 4 else do
    ensure (niw = 1)
    .ok 0
  let gatewires := [shift tniw wire0, shift tniw wire1, shift tniw wire2]
  let m := { m with gl := m.gl ++ [(gate, shift tniw wire0, shift tniw wire1, shift tniw wire2)] }
  let m ← (gatewires.take niw).foldlM assignInput m
  ((gatewires.drop niw).take now).foldlM assignOutput m

/-- The line of a gate. -/
def readGate (tniw : ℕ) (lines : List (List Token)) (m : Mapping) (i : ℕ) :
    Except Failure Mapping := do
  let (nums, gatekind) ← lineToNumsAndToken (lines.getD (3 + i) [])
  let gateniw ← nth nums 0
  let gatenow ← nth nums 1
  let gate ← gateKind i gatekind gateniw gatenow
  m.mapWiresAndGates tniw nums gate

end Mapping

/-! ## Operations -/

/-- The operations, the places of the outputs, and the wire of the next operation. -/
structure Emission where
  ops : List (Op F2)
  owl : List ℕ
  cow : ℕ

namespace Emission

/-- Add an operation with an output wire. -/
def push (nwires tnow : ℕ) (e : Emission) (op : Op F2) (out : ℕ) : Except Failure Emission := do
  ensure (tnow ≤ nwires)
  .ok {
    ops := e.ops ++ [op]
    owl := if nwires - tnow ≤ out then e.owl.set (tnow - (nwires - out)) e.cow else e.owl
    cow := e.cow + 1 }

def emit (tniw tnow nwires : ℕ) (wl : List (ℕ × WireKind)) (e : Emission)
    (g : GateKind × ℕ × ℕ × ℕ) : Except Failure Emission := do
  let constant_one := tniw
  let (wire1, wire2, wire3) := g.2
  let (w1, wk1) ← nth wl wire1
  let (w2, wk2) ← nth wl wire2
  let (_, wk3) ← nth wl wire3
  match g.1 with
  | .and => do
    ensure (wire1 < tniw ∧ wk1 = .input ∨ wk1 = .output)
    ensure (wire2 < tniw ∧ wk2 = .input ∨ wk2 = .output)
    ensure (wk3 = .output)
    e.push nwires tnow (.mul w1 w2) wire3
  | .xor => do
    ensure (wire1 < tniw ∧ wk1 = .input ∨ wk1 = .output)
    ensure (wire2 < tniw ∧ wk2 = .input ∨ wk2 = .output)
    ensure (wk3 = .output)
    e.push nwires tnow (.add w1 w2) wire3
  | .eq => do
    ensure (wk1 = .input)
    ensure (wk2 = .output)
    -- the input wire is a constant
    let cval : F2 ← match wire1 with
      | 0 => .ok 0
      | 1 => .ok 1
      | _ => .error .panic
    e.push nwires tnow (.constant cval) wire2
  | .eqw => do
    ensure (wk1 = .input)
    ensure (wk2 = .output)
    e.push nwires tnow (.copy w1) wire2
  | .inv => do
    ensure (wire1 < tniw ∧ wk1 = .input ∨ wk1 = .output)
    ensure (wk2 = .output)
    e.push nwires tnow (.add w1 constant_one) wire2

end Emission

def readBristolFashion (lines : List (List Token)) : Except Failure (Circuit F2) := do
  let (ngates, nwires) ← match ← lineToNums (lines.getD 0 []) with
    | [ngates, nwires] => .ok (ngates, nwires)
    | _ => fail 1 "Unable to parse line"
  let tniw ← valueLine 2 "Unable to parse line" (lines.getD 1 [])
  let tnow ← valueLine 3 "param error" (lines.getD 2 [])
  match ← lineToNums (lines.getD 3 []) with
    | [] => .ok ()
    | _ => fail 4 "expected empty line"
  let wl := List.replicate (nwires + 1) (0, WireKind.unassigned)
  ensure (tniw < wl.length)
  let start : Mapping := ⟨wl.set tniw (tniw, .constant), 0, tniw + 1, []⟩
  let m ← ((List.range ngates).map (· + 1)).foldlM (Mapping.readGate tniw lines) start
  let e ← m.gl.foldlM (Emission.emit tniw tnow nwires m.wl)
    ⟨[.constant 1], List.replicate (tnow + 1) 0, tniw + 1⟩
  let outputs := (List.range tnow).map fun i => Op.copy (e.owl.getD (i + 1) 0)
  match Circuit.new tniw tnow (e.ops ++ outputs) with
  | some circuit => .ok circuit
  | none => .error .panic

end EdaBitGen.Bristol

/-!
## Bristol Fashion circuits

A circuit over numbered wires, with its inputs first and its outputs last, and what it computes.
-/

namespace EdaBitGen.Bristol

inductive Gate
  | and (a b out : ℕ)
  | xor (a b out : ℕ)
  | inv (a out : ℕ)
  | eq (value : Bool) (out : ℕ)
  | eqw (a out : ℕ)

namespace Gate

def out : Gate → ℕ
  | .and _ _ o => o
  | .xor _ _ o => o
  | .inv _ o => o
  | .eq _ o => o
  | .eqw _ o => o

/-- The wires that a gate reads. -/
def sources : Gate → List ℕ
  | .and a b _ => [a, b]
  | .xor a b _ => [a, b]
  | .inv a _ => [a]
  | .eq _ _ => []
  | .eqw a _ => [a]

/-- What stands before the output wire in the line of a gate. -/
def operands : Gate → List ℕ
  | .eq value _ => [value.toNat]
  | g => g.sources

def name : Gate → String
  | .and _ _ _ => "AND"
  | .xor _ _ _ => "XOR"
  | .inv _ _ => "INV"
  | .eq _ _ => "EQ"
  | .eqw _ _ => "EQW"

def line (g : Gate) : List Token :=
  [.num g.operands.length, .num 1] ++ g.operands.map Token.num ++ [.num g.out, .name g.name]

/-- What a gate computes from the wires. -/
def value (w : ℕ → F2) : Gate → F2
  | .and a b _ => w a * w b
  | .xor a b _ => w a + w b
  | .inv a _ => w a + 1
  | .eq value _ => if value then 1 else 0
  | .eqw a _ => w a

theorem value_congr {w w' : ℕ → F2} {g : Gate} (h : ∀ a ∈ g.sources, w a = w' a) :
    g.value w = g.value w' := by
  cases g with
  | and a b o => rw [value, value, h a (by simp [sources]), h b (by simp [sources])]
  | xor a b o => rw [value, value, h a (by simp [sources]), h b (by simp [sources])]
  | inv a o => rw [value, value, h a (by simp [sources])]
  | eq v o => rfl
  | eqw a o => rw [value, value, h a (by simp [sources])]

end Gate

/-- The output wires of gates. -/
def outs (gates : List Gate) : List ℕ := gates.map Gate.out

/-- A circuit whose gates read inputs and outputs of earlier gates, and write every other wire
once. -/
structure BristolCircuit where
  wiv : List ℕ
  wov : List ℕ
  gates : List Gate
  nodup : (outs gates).Nodup
  mem_outs : ∀ w ∈ outs gates, wiv.sum ≤ w ∧ w < wiv.sum + gates.length
  topological : ∀ before g after, gates = before ++ g :: after →
    ∀ a ∈ g.sources, a < wiv.sum ∨ a ∈ outs before
  outputs_le : wov.sum ≤ wiv.sum + gates.length

namespace BristolCircuit

variable (c : BristolCircuit)

def tniw : ℕ := c.wiv.sum

def tnow : ℕ := c.wov.sum

def nwires : ℕ := c.tniw + c.gates.length

def lines : List (List Token) :=
  [[.num c.gates.length, .num c.nwires], .num c.wiv.length :: c.wiv.map Token.num,
    .num c.wov.length :: c.wov.map Token.num, []] ++ c.gates.map Gate.line

/-- All wires, from those of the inputs. -/
def wires (inp : ℕ → F2) : ℕ → F2 :=
  c.gates.foldl (fun w g => Function.update w g.out (g.value w)) inp

/-- The wires of the outputs. -/
def outputs : List ℕ := (List.range c.tnow).map fun k => c.nwires - c.tnow + k

def eval (inputs : List F2) : List F2 :=
  c.outputs.map (c.wires (inputs.getD · 0))

/-- The input wires that appear in gates, in the order in which they appear first. -/
def firstUses (tniw : ℕ) (gates : List Gate) : List ℕ :=
  (gates.flatMap Gate.operands).foldl
    (fun seen a => if a < tniw ∧ a ∉ seen then seen ++ [a] else seen) []

/-- The place of an input wire in this order. -/
def renumber (a : ℕ) : ℕ := (firstUses c.tniw c.gates).idxOf a

/-- The file is read, and the circuit computes what the file says. -/
def ReadsTo : Prop :=
  ∃ circuit, readBristolFashion c.lines = .ok circuit ∧
    ∀ inputs : List F2, inputs.length = c.tniw → circuit.eval inputs = c.eval inputs

end BristolCircuit

section

variable {c : BristolCircuit}

theorem foldl_update_of_notMem {gates : List Gate} (w : ℕ → F2) {a : ℕ} (ha : a ∉ outs gates) :
    gates.foldl (fun w g => Function.update w g.out (g.value w)) w a = w a := by
  induction gates generalizing w with
  | nil => rfl
  | cons g gates ih =>
    rw [outs, List.map_cons, List.mem_cons, not_or] at ha
    rw [List.foldl_cons, ih _ ha.2, Function.update_of_ne ha.1]

theorem BristolCircuit.wires_input (inp : ℕ → F2) {a : ℕ} (ha : a < c.tniw) :
    c.wires inp a = inp a :=
  foldl_update_of_notMem inp fun h => absurd ha (Nat.not_lt.2 (c.mem_outs a h).1)

theorem BristolCircuit.wires_out (inp : ℕ → F2) {g : Gate} (hg : g ∈ c.gates) :
    c.wires inp g.out = g.value (c.wires inp) := by
  obtain ⟨before, after, hsplit⟩ := List.append_of_mem hg
  have hnodup := c.nodup
  rw [hsplit, outs, List.map_append, List.map_cons] at hnodup
  have hafter : g.out ∉ outs after :=
    (List.nodup_cons.1 (List.nodup_append.1 hnodup).2.1).1
  have hbefore : ∀ a ∈ outs before, a ∉ outs (g :: after) :=
    fun a ha ha' => (List.nodup_append.1 hnodup).2.2 a ha a ha' rfl
  let w := before.foldl (fun w g => Function.update w g.out (g.value w)) inp
  have hwires : ∀ a, a ∉ outs (g :: after) → c.wires inp a = w a := by
    intro a ha
    rw [wires, hsplit, List.foldl_append]
    exact foldl_update_of_notMem w ha
  have hout : c.wires inp g.out = g.value w := by
    rw [wires, hsplit, List.foldl_append, List.foldl_cons, foldl_update_of_notMem _ hafter,
      Function.update_self]
  rw [hout]
  refine Gate.value_congr fun a ha => (hwires a ?_).symm
  rcases c.topological before g after hsplit a ha with hlt | hmem
  · intro hmem
    have hall : a ∈ outs c.gates := by
      rw [hsplit, outs, List.map_append]
      exact List.mem_append_right _ hmem
    exact absurd hlt (Nat.not_lt.2 (c.mem_outs a hall).1)
  · exact hbefore a hmem

end

end EdaBitGen.Bristol
