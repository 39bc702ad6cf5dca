import EdaBitGen.FancyGarbling.Dummy

/-!
# Arithmetic circuits

Circuits as lists of gates, the builder that makes them, and their evaluation by a fancy object.
-/

namespace EdaBitGen.FancyGarbling

/-- The index and modulus of a gate in a circuit. -/
structure CircuitRef where
  ix : ℕ
  modulus : ℕ
  deriving DecidableEq

/-- `out` gives the output wire index; without it the gate's own index is used. -/
inductive ArithmeticGate
  | garblerInput (id : ℕ)
  | evaluatorInput (id : ℕ)
  | constant (val : ℕ)
  | add (xref yref : CircuitRef) (out : Option ℕ)
  | sub (xref yref : CircuitRef) (out : Option ℕ)
  | cmul (xref : CircuitRef) (c : ℕ) (out : Option ℕ)
  | mul (xref yref : CircuitRef) (id : ℕ) (out : Option ℕ)
  | proj (xref : CircuitRef) (tt : List ℕ) (id : ℕ) (out : Option ℕ)
  deriving DecidableEq

structure ArithmeticCircuit where
  gates : List ArithmeticGate
  gateModuli : List ℕ
  garblerInputRefs : List CircuitRef
  evaluatorInputRefs : List CircuitRef
  constRefs : List CircuitRef
  outputRefs : List CircuitRef
  numNonfreeGates : ℕ
  deriving DecidableEq

/-! ## Evaluation -/

section Evaluation

variable {m : Type → Type} [Monad m] {W : Type} [FancyArithmetic m W]

/-- The value of a wire that was computed before. -/
def cached (cache : List (Option W)) (r : CircuitRef) : m W := do
  match ← index cache r.ix with
  | some w => return w
  | none => fail .uninitializedValue

/-- The value of a gate, with the wire that it is stored at. -/
def gateOutput (garblerInputs evaluatorInputs : List W) (cache : List (Option W)) (q : ℕ) :
    ArithmeticGate → m (Option ℕ × W)
  | .garblerInput id => do
    let w ← index garblerInputs id
    return (none, w)
  | .evaluatorInput id => do
    let w ← index evaluatorInputs id
    return (none, w)
  | .constant val => do
    let w ← constant val q
    return (none, w)
  | .add xref yref out => do
    let x ← cached cache xref
    let y ← cached cache yref
    let w ← add x y
    return (out, w)
  | .sub xref yref out => do
    let x ← cached cache xref
    let y ← cached cache yref
    let w ← sub x y
    return (out, w)
  | .cmul xref c out => do
    let x ← cached cache xref
    let w ← cmul x c
    return (out, w)
  | .mul xref yref _ out => do
    let x ← cached cache xref
    let y ← cached cache yref
    let w ← mul x y
    return (out, w)
  | .proj xref tt _ out => do
    let x ← cached cache xref
    let w ← proj x q (some tt)
    return (out, w)

/-- One round of `eval`. -/
def evalGate (circ : ArithmeticCircuit) (garblerInputs evaluatorInputs : List W)
    (cache : List (Option W)) (i : ℕ) : m (List (Option W)) := do
  let gate ← index circ.gates i
  let q ← index circ.gateModuli i
  let (zref, val) ← gateOutput garblerInputs evaluatorInputs cache q gate
  let z := zref.getD i
  if z < cache.length then return cache.set z (some val) else panic

/-- One output wire. -/
def outputRef (cache : List (Option W)) (r : CircuitRef) : m (Option ℕ) := do
  let w ← cached cache r
  output w

def ArithmeticCircuit.eval (circ : ArithmeticCircuit) (garblerInputs evaluatorInputs : List W) :
    m (Option (List ℕ)) := do
  let cache ← (List.range circ.gates.length).foldlM
    (evalGate circ garblerInputs evaluatorInputs) (List.replicate circ.gates.length none)
  let outputs ← circ.outputRefs.mapM (outputRef cache)
  return outputs.mapM id

end Evaluation

/-- The values of a party's inputs, with the moduli of their wires. -/
def dummyInputs (inputs : List ℕ) (refs : List CircuitRef) : List DummyVal :=
  (inputs.zip refs).map fun p => ⟨p.1, p.2.modulus⟩

/-- Evaluate the circuit in plaintext. -/
def evalPlain (circ : ArithmeticCircuit) (garblerInputs evaluatorInputs : List ℕ) :
    Dummy (List ℕ) :=
  if garblerInputs.length ≠ circ.garblerInputRefs.length then .error .notEnoughGarblerInputs
  else if evaluatorInputs.length ≠ circ.evaluatorInputRefs.length then
    .error .notEnoughEvaluatorInputs
  else do
    let outputs ← circ.eval (dummyInputs garblerInputs circ.garblerInputRefs)
      (dummyInputs evaluatorInputs circ.evaluatorInputRefs)
    unwrap outputs

/-! ## Building -/

/-- `constMap` holds the constants that have a wire. -/
structure CircuitBuilder where
  nextRefIx : ℕ
  nextGarblerInputId : ℕ
  nextEvaluatorInputId : ℕ
  constMap : List ((ℕ × ℕ) × CircuitRef)
  circ : ArithmeticCircuit

namespace CircuitBuilder

def new : CircuitBuilder :=
  ⟨0, 0, 0, [], ⟨[], [], [], [], [], [], 0⟩⟩

def getNextCiphertextId (b : CircuitBuilder) : ℕ × CircuitBuilder :=
  (b.circ.numNonfreeGates,
    { b with circ := { b.circ with numNonfreeGates := b.circ.numNonfreeGates + 1 } })

def gate (b : CircuitBuilder) (gate : ArithmeticGate) (modulus : ℕ) : CircuitRef × CircuitBuilder :=
  (⟨b.nextRefIx, modulus⟩,
    { b with
      nextRefIx := b.nextRefIx + 1
      circ := { b.circ with
        gates := b.circ.gates ++ [gate]
        gateModuli := b.circ.gateModuli ++ [modulus] } })

/-- Get a reference for a garbler input wire. -/
def garblerInput (b : CircuitBuilder) (modulus : ℕ) : CircuitRef × CircuitBuilder :=
  let id := b.nextGarblerInputId
  let (r, b) := gate { b with nextGarblerInputId := id + 1 } (.garblerInput id) modulus
  (r, { b with circ := { b.circ with garblerInputRefs := b.circ.garblerInputRefs ++ [r] } })

/-- Get a reference for an evaluator input wire. -/
def evaluatorInput (b : CircuitBuilder) (modulus : ℕ) : CircuitRef × CircuitBuilder :=
  let id := b.nextEvaluatorInputId
  let (r, b) := gate { b with nextEvaluatorInputId := id + 1 } (.evaluatorInput id) modulus
  (r, { b with circ := { b.circ with evaluatorInputRefs := b.circ.evaluatorInputRefs ++ [r] } })

def constant (b : CircuitBuilder) (val modulus : ℕ) : CircuitRef × CircuitBuilder :=
  match b.constMap.lookup (val, modulus) with
  | some r => (r, b)
  | none =>
    let (r, b) := b.gate (.constant val) modulus
    (r, { b with
      constMap := ((val, modulus), r) :: b.constMap
      circ := { b.circ with constRefs := b.circ.constRefs ++ [r] } })

def output (b : CircuitBuilder) (xref : CircuitRef) : CircuitBuilder :=
  { b with circ := { b.circ with outputRefs := b.circ.outputRefs ++ [xref] } }

def add (b : CircuitBuilder) (xref yref : CircuitRef) :
    Except FancyError (CircuitRef × CircuitBuilder) :=
  if xref.modulus ≠ yref.modulus then .error .unequalModuli
  else .ok (b.gate (.add xref yref none) xref.modulus)

def sub (b : CircuitBuilder) (xref yref : CircuitRef) :
    Except FancyError (CircuitRef × CircuitBuilder) :=
  if xref.modulus ≠ yref.modulus then .error .unequalModuli
  else .ok (b.gate (.sub xref yref none) xref.modulus)

def cmul (b : CircuitBuilder) (xref : CircuitRef) (c : ℕ) : CircuitRef × CircuitBuilder :=
  b.gate (.cmul xref c none) xref.modulus

def proj (b : CircuitBuilder) (xref : CircuitRef) (outputModulus : ℕ) :
    Option (List ℕ) → Except FancyError (CircuitRef × CircuitBuilder)
  | none => .error .noTruthTable
  | some tt =>
    if tt.length < xref.modulus ∨ ¬ ∀ v ∈ tt, v < outputModulus then .error .invalidTruthTable
    else
      let (id, b) := b.getNextCiphertextId
      .ok (b.gate (.proj xref tt id none) outputModulus)

/-- The gate of a product whose first factor has the larger modulus. -/
def mulGate (b : CircuitBuilder) (xref yref : CircuitRef) : CircuitRef × CircuitBuilder :=
  let (id, b) := b.getNextCiphertextId
  b.gate (.mul xref yref id none) xref.modulus

def mul (b : CircuitBuilder) (xref yref : CircuitRef) : CircuitRef × CircuitBuilder :=
  if xref.modulus < yref.modulus then b.mulGate yref xref else b.mulGate xref yref

/-- A reference that the builder has handed out. -/
def Known (b : CircuitBuilder) (r : CircuitRef) : Prop := b.circ.gateModuli[r.ix]? = some r.modulus

/-- The builders that are reached by calls on references that were handed out. -/
inductive Built : CircuitBuilder → Prop
  | new : Built new
  | garblerInput {b : CircuitBuilder} (h : Built b) (modulus : ℕ) : Built (b.garblerInput modulus).2
  | evaluatorInput {b : CircuitBuilder} (h : Built b) (modulus : ℕ) :
    Built (b.evaluatorInput modulus).2
  | constant {b : CircuitBuilder} (h : Built b) (val modulus : ℕ) :
    Built (b.constant val modulus).2
  | output {b : CircuitBuilder} (h : Built b) {x : CircuitRef} (hx : b.Known x) :
    Built (b.output x)
  | add {b b' : CircuitBuilder} (h : Built b) {x y r : CircuitRef} (hx : b.Known x)
    (hy : b.Known y) (hadd : b.add x y = .ok (r, b')) : Built b'
  | sub {b b' : CircuitBuilder} (h : Built b) {x y r : CircuitRef} (hx : b.Known x)
    (hy : b.Known y) (hsub : b.sub x y = .ok (r, b')) : Built b'
  | cmul {b : CircuitBuilder} (h : Built b) {x : CircuitRef} (hx : b.Known x) (c : ℕ) :
    Built (b.cmul x c).2
  | mul {b : CircuitBuilder} (h : Built b) {x y : CircuitRef} (hx : b.Known x) (hy : b.Known y) :
    Built (b.mul x y).2
  | proj {b b' : CircuitBuilder} (h : Built b) {x r : CircuitRef} (hx : b.Known x) {q : ℕ}
    {tt : Option (List ℕ)} (hproj : b.proj x q tt = .ok (r, b')) : Built b'

end CircuitBuilder

end EdaBitGen.FancyGarbling

/-!
## Circuits that a builder makes

The gates of a built circuit read wires that were computed before them, on the moduli that their
references name.
-/

namespace EdaBitGen.FancyGarbling

/-- A reference to a wire that is computed before gate `i`. -/
def ArithmeticCircuit.Earlier (circ : ArithmeticCircuit) (i : ℕ) (r : CircuitRef) : Prop :=
  r.ix < i ∧ circ.gateModuli[r.ix]? = some r.modulus

/-- What the builder ensures of gate `i`, whose modulus is `q`. -/
def ArithmeticCircuit.GateOk (circ : ArithmeticCircuit) (i q : ℕ) : ArithmeticGate → Prop
  | .garblerInput id => circ.garblerInputRefs[id]? = some ⟨i, q⟩
  | .evaluatorInput id => circ.evaluatorInputRefs[id]? = some ⟨i, q⟩
  | .constant _ => True
  | .add x y out =>
    circ.Earlier i x ∧ circ.Earlier i y ∧ x.modulus = q ∧ y.modulus = q ∧ out = none
  | .sub x y out =>
    circ.Earlier i x ∧ circ.Earlier i y ∧ x.modulus = q ∧ y.modulus = q ∧ out = none
  | .cmul x _ out => circ.Earlier i x ∧ x.modulus = q ∧ out = none
  | .mul x y _ out => circ.Earlier i x ∧ circ.Earlier i y ∧ x.modulus = q ∧ out = none
  | .proj x tt _ out =>
    circ.Earlier i x ∧ x.modulus ≤ tt.length ∧ (∀ v ∈ tt, v < q) ∧ out = none

structure ArithmeticCircuit.WellFormed (circ : ArithmeticCircuit) : Prop where
  length : circ.gateModuli.length = circ.gates.length
  gates : ∀ (i : ℕ) (gate : ArithmeticGate) (q : ℕ), circ.gates[i]? = some gate →
    circ.gateModuli[i]? = some q → circ.GateOk i q gate
  outputs : ∀ r ∈ circ.outputRefs, circ.gateModuli[r.ix]? = some r.modulus

theorem getElem?_of_prefix {α : Type} {l l' : List α} (h : l <+: l') {i : ℕ} {a : α}
    (hi : l[i]? = some a) : l'[i]? = some a := by
  obtain ⟨t, rfl⟩ := h
  obtain ⟨hlt, -⟩ := List.getElem?_eq_some_iff.1 hi
  rwa [List.getElem?_append_left hlt]

namespace ArithmeticCircuit

/-- A circuit with more gates, and perhaps more inputs. -/
structure Extends (c c' : ArithmeticCircuit) : Prop where
  gateModuli : c.gateModuli <+: c'.gateModuli
  garblerInputRefs : c.garblerInputRefs <+: c'.garblerInputRefs
  evaluatorInputRefs : c.evaluatorInputRefs <+: c'.evaluatorInputRefs

variable {c c' : ArithmeticCircuit}

theorem Earlier.mono (h : c.Extends c') {i : ℕ} {r : CircuitRef} (hr : c.Earlier i r) :
    c'.Earlier i r := ⟨hr.1, getElem?_of_prefix h.gateModuli hr.2⟩

theorem GateOk.mono (h : c.Extends c') {i q : ℕ} {gate : ArithmeticGate} (hg : c.GateOk i q gate) :
    c'.GateOk i q gate := by
  cases gate with
  | garblerInput id => exact getElem?_of_prefix h.garblerInputRefs hg
  | evaluatorInput id => exact getElem?_of_prefix h.evaluatorInputRefs hg
  | constant val => trivial
  | add x y out => exact ⟨hg.1.mono h, hg.2.1.mono h, hg.2.2⟩
  | sub x y out => exact ⟨hg.1.mono h, hg.2.1.mono h, hg.2.2⟩
  | cmul x k out => exact ⟨hg.1.mono h, hg.2⟩
  | mul x y id out => exact ⟨hg.1.mono h, hg.2.1.mono h, hg.2.2⟩
  | proj x tt id out => exact ⟨hg.1.mono h, hg.2⟩

theorem WellFormed.push (h : c.WellFormed) (hext : c.Extends c') {gate : ArithmeticGate} {q : ℕ}
    (hgates : c'.gates = c.gates ++ [gate]) (hmoduli : c'.gateModuli = c.gateModuli ++ [q])
    (houtputs : c'.outputRefs = c.outputRefs) (hg : c'.GateOk c.gates.length q gate) :
    c'.WellFormed where
  length := by rw [hgates, hmoduli, List.length_append, List.length_append, h.length]; rfl
  gates := by
    intro i gate' q' hi hq
    rw [hgates] at hi
    rw [hmoduli] at hq
    obtain hlt | rfl | hgt := Nat.lt_trichotomy i c.gates.length
    · rw [List.getElem?_append_left hlt] at hi
      rw [List.getElem?_append_left (by rwa [h.length])] at hq
      exact (h.gates i gate' q' hi hq).mono hext
    · rw [List.getElem?_concat_length] at hi
      rw [← h.length, List.getElem?_concat_length] at hq
      cases hi
      cases hq
      exact hg
    · rw [List.getElem?_eq_none (by simp; omega)] at hi
      cases hi
  outputs := by
    intro r hr
    rw [houtputs] at hr
    exact getElem?_of_prefix hext.gateModuli (h.outputs r hr)

end ArithmeticCircuit

namespace CircuitBuilder

/-- The counters of a builder are those of its circuit. -/
structure Ok (b : CircuitBuilder) : Prop where
  wellFormed : b.circ.WellFormed
  nextRefIx : b.nextRefIx = b.circ.gates.length
  nextGarblerInputId : b.nextGarblerInputId = b.circ.garblerInputRefs.length
  nextEvaluatorInputId : b.nextEvaluatorInputId = b.circ.evaluatorInputRefs.length

variable {b : CircuitBuilder}

theorem Ok.earlier (h : b.Ok) {r : CircuitRef} (hr : b.Known r) :
    b.circ.Earlier b.circ.gates.length r := by
  obtain ⟨hlt, -⟩ := List.getElem?_eq_some_iff.1 hr
  exact ⟨by rwa [h.wellFormed.length] at hlt, hr⟩

theorem Ok.gate (h : b.Ok) {gate : ArithmeticGate} {q k : ℕ}
    (hg : b.circ.GateOk b.circ.gates.length q gate) :
    Ok (CircuitBuilder.gate
      { b with circ := { b.circ with numNonfreeGates := k } } gate q).2 := by
  have hext : b.circ.Extends (CircuitBuilder.gate
      { b with circ := { b.circ with numNonfreeGates := k } } gate q).2.circ :=
    ⟨List.prefix_append .., List.prefix_rfl, List.prefix_rfl⟩
  refine ⟨h.wellFormed.push hext rfl rfl rfl (hg.mono hext), ?_, h.nextGarblerInputId,
    h.nextEvaluatorInputId⟩
  simp [CircuitBuilder.gate, h.nextRefIx]

theorem new_ok : Ok new where
  wellFormed := ⟨rfl, by simp [new], by simp [new]⟩
  nextRefIx := rfl
  nextGarblerInputId := rfl
  nextEvaluatorInputId := rfl

theorem Ok.garblerInput (h : b.Ok) (q : ℕ) : Ok (b.garblerInput q).2 := by
  refine ⟨h.wellFormed.push ⟨List.prefix_append .., List.prefix_append .., List.prefix_rfl⟩ rfl rfl
    rfl ?_, ?_, ?_, h.nextEvaluatorInputId⟩
  · simp [CircuitBuilder.garblerInput, CircuitBuilder.gate, ArithmeticCircuit.GateOk,
      h.nextGarblerInputId, h.nextRefIx]
  · simp [CircuitBuilder.garblerInput, CircuitBuilder.gate, h.nextRefIx]
  · simp [CircuitBuilder.garblerInput, CircuitBuilder.gate, h.nextGarblerInputId]

theorem Ok.evaluatorInput (h : b.Ok) (q : ℕ) : Ok (b.evaluatorInput q).2 := by
  refine ⟨h.wellFormed.push ⟨List.prefix_append .., List.prefix_rfl, List.prefix_append ..⟩ rfl rfl
    rfl ?_, ?_, h.nextGarblerInputId, ?_⟩
  · simp [CircuitBuilder.evaluatorInput, CircuitBuilder.gate, ArithmeticCircuit.GateOk,
      h.nextEvaluatorInputId, h.nextRefIx]
  · simp [CircuitBuilder.evaluatorInput, CircuitBuilder.gate, h.nextRefIx]
  · simp [CircuitBuilder.evaluatorInput, CircuitBuilder.gate, h.nextEvaluatorInputId]

theorem Ok.constant (h : b.Ok) (val q : ℕ) : Ok (b.constant val q).2 := by
  rw [CircuitBuilder.constant]
  split
  · exact h
  · have hgate := @Ok.gate b h (.constant val) q b.circ.numNonfreeGates trivial
    exact ⟨⟨hgate.wellFormed.length, fun i g p hi hp => hgate.wellFormed.gates i g p hi hp |>.mono
      ⟨List.prefix_rfl, List.prefix_rfl, List.prefix_rfl⟩, hgate.wellFormed.outputs⟩,
      hgate.nextRefIx, hgate.nextGarblerInputId, hgate.nextEvaluatorInputId⟩

theorem Ok.output (h : b.Ok) {x : CircuitRef} (hx : b.Known x) : Ok (b.output x) := by
  refine ⟨⟨h.wellFormed.length, fun i g p hi hp => h.wellFormed.gates i g p hi hp |>.mono
    ⟨List.prefix_rfl, List.prefix_rfl, List.prefix_rfl⟩, fun r hr => ?_⟩, h.nextRefIx,
    h.nextGarblerInputId, h.nextEvaluatorInputId⟩
  obtain hr | hr := List.mem_append.1 hr
  · exact h.wellFormed.outputs r hr
  · rw [List.mem_singleton.1 hr]
    exact hx

theorem Ok.mulGate (h : b.Ok) {x y : CircuitRef} (hx : b.Known x) (hy : b.Known y) :
    Ok (b.mulGate x y).2 :=
  h.gate ⟨h.earlier hx, h.earlier hy, rfl, rfl⟩

theorem known_gate (h : b.nextRefIx = b.circ.gateModuli.length) (gate : ArithmeticGate) (q : ℕ) :
    Known (b.gate gate q).2 (b.gate gate q).1 := by
  change (b.circ.gateModuli ++ [q])[b.nextRefIx]? = some q
  rw [h, List.getElem?_concat_length]

theorem Ok.known_mul (h : b.Ok) (x y : CircuitRef) : Known (b.mul x y).2 (b.mul x y).1 := by
  have hlength : b.nextRefIx = b.circ.gateModuli.length := by rw [h.nextRefIx, h.wellFormed.length]
  rw [CircuitBuilder.mul]
  split
  · exact known_gate (b := b.getNextCiphertextId.2) hlength _ _
  · exact known_gate (b := b.getNextCiphertextId.2) hlength _ _

theorem Built.ok (h : Built b) : b.Ok := by
  induction h with
  | new => exact new_ok
  | garblerInput _ q ih => exact ih.garblerInput q
  | evaluatorInput _ q ih => exact ih.evaluatorInput q
  | constant _ val q ih => exact ih.constant val q
  | output _ hx ih => exact ih.output hx
  | @add b b' _ x y r hx hy hadd ih =>
    rw [CircuitBuilder.add] at hadd
    split at hadd
    · cases hadd
    · next heq =>
      cases hadd
      exact ih.gate (k := b.circ.numNonfreeGates)
        ⟨ih.earlier hx, ih.earlier hy, rfl, (not_not.1 heq).symm, rfl⟩
  | @sub b b' _ x y r hx hy hsub ih =>
    rw [CircuitBuilder.sub] at hsub
    split at hsub
    · cases hsub
    · next heq =>
      cases hsub
      exact ih.gate (k := b.circ.numNonfreeGates)
        ⟨ih.earlier hx, ih.earlier hy, rfl, (not_not.1 heq).symm, rfl⟩
  | @cmul b _ x hx c ih =>
    exact ih.gate (k := b.circ.numNonfreeGates) ⟨ih.earlier hx, rfl, rfl⟩
  | @mul b _ x y hx hy ih =>
    rw [CircuitBuilder.mul]
    split
    · exact ih.mulGate hy hx
    · exact ih.mulGate hx hy
  | @proj b b' _ x r hx q tt hproj ih =>
    cases tt with
    | none => cases hproj
    | some tt =>
      rw [CircuitBuilder.proj] at hproj
      split at hproj
      · cases hproj
      · next htable =>
        obtain ⟨hlength, hentries⟩ := not_or.1 htable
        cases hproj
        exact ih.gate ⟨ih.earlier hx, by omega, not_not.1 hentries, rfl⟩

end CircuitBuilder

end EdaBitGen.FancyGarbling
