import EdaBitGen.HomCom.Multiply

/-!
# The Diet Mac'n'Cheese backend

Prover and verifier evaluate the gates of a circuit on commitments.  Products are pushed to the
multiplication check, whose challenge the verifier sends when the backend is initialized, and
`finalize` runs the queued zero checks and then the multiplication check.
-/

namespace EdaBitGen

open Interaction Party

structure DietMacAndCheeseProver (PF FE : Type) where
  prover : FComProver PF FE
  checkZeroList : List (MacProver PF FE)
  stateMultCheck : StateMultCheckProver FE

structure DietMacAndCheeseVerifier (FE : Type) where
  verifier : FComVerifier FE
  checkZeroList : List (MacVerifier FE)
  stateMultCheck : StateMultCheckVerifier FE

variable {M D G PF FE : Type} [Field PF] [Field FE] [Algebra PF FE] [CanonicalSerialize M PF]
  [CanonicalSerialize M FE]

/-! ## The prover -/

namespace DietMacAndCheeseProver

def lens : Lens (DietMacAndCheeseProver PF FE) (FComProver PF FE) where
  get := prover
  set p s := { s with prover := p }
  get_set _ _ := rfl
  set_get _ := rfl
  set_set _ _ _ := rfl

def initWithFcom (fcom : FComProver PF FE) :
    Party M G Unit (DietMacAndCheeseProver PF FE) := do
  let stateMultCheck ← StateMultCheckProver.init
  pure { prover := fcom, checkZeroList := [], stateMultCheck := stateMultCheck }

def input (v : PF) : Party M G (DietMacAndCheeseProver PF FE) (MacProver PF FE) := do
  let tag ← zoom lens (FComProver.input1 v)
  pure ⟨v, tag⟩

def doMultCheck [FiniteField PF FE] : Party M G (DietMacAndCheeseProver PF FE) ℕ := do
  flush
  let self ← get
  let (cnt, state) ← zoom lens (FComProver.quicksilverFinalize self.stateMultCheck)
  act fun self => ((), { self with stateMultCheck := state })
  pure cnt

def doCheckZero [DecidableEq PF] [CanonicalSerialize M Block] [Random D FE]
    (C : Primitives M D) : Party M G (DietMacAndCheeseProver PF FE) Unit := do
  flush
  let self ← get
  zoom lens (FComProver.checkZero C self.checkZeroList)
  act fun self => ((), { self with checkZeroList := [] })

def add (a b : MacProver PF FE) : MacProver PF FE := FComProver.add a b

def mul (a b : MacProver PF FE) :
    Party M G (DietMacAndCheeseProver PF FE) (MacProver PF FE) := do
  let out ← input (a.value * b.value)
  act fun self => ((), { self with
    stateMultCheck := FComProver.quicksilverPush self.stateMultCheck (a, b, out) })
  pure out

def addc (a : MacProver PF FE) (b : PF) : MacProver PF FE := FComProver.affineAddCst b a

def mulc (value : MacProver PF FE) (constant : PF) : MacProver PF FE :=
  FComProver.affineMultCst constant value

def inputPublic (value : PF) : MacProver PF FE := ⟨value, 0⟩

def inputPrivate (value : PF) : Party M G (DietMacAndCheeseProver PF FE) (MacProver PF FE) :=
  input value

def finalize [FiniteField PF FE] [DecidableEq PF] [CanonicalSerialize M Block] [Random D FE]
    (C : Primitives M D) : Party M G (DietMacAndCheeseProver PF FE) Unit := do
  flush
  doCheckZero C
  let _ ← doMultCheck

def reset (self : DietMacAndCheeseProver PF FE) : DietMacAndCheeseProver PF FE :=
  { self with stateMultCheck := self.stateMultCheck.reset }

end DietMacAndCheeseProver

/-! ## The verifier -/

namespace DietMacAndCheeseVerifier

def lens : Lens (DietMacAndCheeseVerifier FE) (FComVerifier FE) where
  get := verifier
  set p s := { s with verifier := p }
  get_set _ _ := rfl
  set_get _ := rfl
  set_set _ _ _ := rfl

def initWithFcom [Random D FE] (fcom : FComVerifier FE) :
    Party M (Stream' D) Unit (DietMacAndCheeseVerifier FE) := do
  let stateMultCheck ← StateMultCheckVerifier.init
  pure { verifier := fcom, checkZeroList := [], stateMultCheck := stateMultCheck }

def input (PF : Type) [Field PF] [Algebra PF FE] [CanonicalSerialize M PF] :
    Party M G (DietMacAndCheeseVerifier FE) (MacVerifier FE) :=
  zoom lens (FComVerifier.input1 PF)

def doMultCheck (PF : Type) [Field PF] [Algebra PF FE] [FiniteField PF FE] [DecidableEq FE] :
    Party M G (DietMacAndCheeseVerifier FE) ℕ := do
  flush
  let self ← get
  let (cnt, state) ← zoom lens (FComVerifier.quicksilverFinalize PF self.stateMultCheck)
  act fun self => ((), { self with stateMultCheck := state })
  pure cnt

def doCheckZero [DecidableEq FE] [CanonicalSerialize M Block] [Random D FE] [Random D Block]
    (C : Primitives M D) : Party M (Stream' D) (DietMacAndCheeseVerifier FE) Unit := do
  flush
  let self ← get
  zoom lens (FComVerifier.checkZero C self.checkZeroList)
  act fun self => ((), { self with checkZeroList := [] })

def add (a b : MacVerifier FE) : MacVerifier FE := FComVerifier.add a b

def mul (PF : Type) [Field PF] [Algebra PF FE] [CanonicalSerialize M PF] (a b : MacVerifier FE) :
    Party M G (DietMacAndCheeseVerifier FE) (MacVerifier FE) := do
  let tag ← input PF
  act fun self => ((), { self with
    stateMultCheck := self.verifier.quicksilverPush self.stateMultCheck (a, b, tag) })
  pure tag

def addc (self : DietMacAndCheeseVerifier FE) (a : MacVerifier FE) (b : PF) : MacVerifier FE :=
  self.verifier.affineAddCst b a

def mulc (a : MacVerifier FE) (b : PF) : MacVerifier FE := FComVerifier.affineMultCst b a

def inputPublic (self : DietMacAndCheeseVerifier FE) (val : PF) : MacVerifier FE :=
  ⟨-val • self.verifier.delta⟩

def inputPrivate (PF : Type) [Field PF] [Algebra PF FE] [CanonicalSerialize M PF] :
    Party M G (DietMacAndCheeseVerifier FE) (MacVerifier FE) :=
  input PF

def finalize (PF : Type) [Field PF] [Algebra PF FE] [FiniteField PF FE] [DecidableEq FE]
    [CanonicalSerialize M Block] [Random D FE] [Random D Block] (C : Primitives M D) :
    Party M (Stream' D) (DietMacAndCheeseVerifier FE) Unit := do
  flush
  doCheckZero C
  let _ ← doMultCheck PF

def reset (self : DietMacAndCheeseVerifier FE) : DietMacAndCheeseVerifier FE :=
  { self with stateMultCheck := self.stateMultCheck.reset }

end DietMacAndCheeseVerifier

/-! ## Circuits -/

/-- A gate of a circuit or a call between gates.  Operands are positions of earlier wires; a
position without a wire stands for the default MAC. -/
inductive Gate (PF : Type) where
  | inputPublic (value : PF)
  | inputPrivate
  | add (i j : ℕ)
  | addc (i : ℕ) (c : PF)
  | mulc (i : ℕ) (c : PF)
  | mul (i j : ℕ)
  | finalize
  | reset

/-- What a run of a circuit has produced: the wires, the triples pushed since the last check, and
the triples of every check that accepted. -/
structure Trace (W : Type) where
  wires : List W
  pushed : List (W × W × W)
  checked : List (List (W × W × W))

namespace DietMacAndCheeseVerifier

variable [FiniteField PF FE] [DecidableEq FE] [CanonicalSerialize M Block] [Random D FE]
  [Random D Block]

def gate (C : Primitives M D) (tr : Trace (MacVerifier FE)) :
    Gate PF → Party M (Stream' D) (DietMacAndCheeseVerifier FE) (Trace (MacVerifier FE))
  | .inputPublic value => do
    pure { tr with wires := tr.wires ++ [inputPublic (← get) value] }
  | .inputPrivate => do
    pure { tr with wires := tr.wires ++ [← inputPrivate PF] }
  | .add i j =>
    pure { tr with wires := tr.wires ++ [add (tr.wires.getD i default) (tr.wires.getD j default)] }
  | .addc i c => do
    pure { tr with wires := tr.wires ++ [addc (← get) (tr.wires.getD i default) c] }
  | .mulc i c =>
    pure { tr with wires := tr.wires ++ [mulc (tr.wires.getD i default) c] }
  | .mul i j => do
    let out ← mul PF (tr.wires.getD i default) (tr.wires.getD j default)
    pure { tr with
      wires := tr.wires ++ [out]
      pushed := tr.pushed ++ [(tr.wires.getD i default, tr.wires.getD j default, out)] }
  | .finalize => do
    finalize PF C
    pure { tr with pushed := [], checked := tr.checked ++ [tr.pushed] }
  | .reset => do
    act fun self => ((), reset self)
    pure { tr with pushed := [] }

/-- Initialize the backend and run a circuit; an error ends the run. -/
def circuit (C : Primitives M D) (fcom : FComVerifier FE) (gates : List (Gate PF)) (h : Stream' D) :
    Proc M ((Trace (MacVerifier FE) × DietMacAndCheeseVerifier FE) × Stream' D) := do
  let ((self, _), h) ← initWithFcom fcom () h
  gates.foldlM (gate C) ⟨[], [], []⟩ self h

end DietMacAndCheeseVerifier

end EdaBitGen
