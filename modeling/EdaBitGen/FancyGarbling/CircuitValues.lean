import EdaBitGen.FancyGarbling.Circuit

/-!
# Circuits over the integers

The value of each gate over the integers modulo its wire's modulus, and the gates that words of 16
bits compute exactly.
-/

namespace EdaBitGen.FancyGarbling

/-- The value of a gate of modulus `q`, given the values `vs` of the gates before it. -/
def gateValue (gb ev vs : List ℕ) (q : ℕ) : ArithmeticGate → ℕ
  | .garblerInput id => gb.getD id 0
  | .evaluatorInput id => ev.getD id 0
  | .constant val => val % q
  | .add x y _ => (vs.getD x.ix 0 + vs.getD y.ix 0) % q
  | .sub x y _ => (((vs.getD x.ix 0 : ℤ) - vs.getD y.ix 0) % q).toNat
  | .cmul x c _ => vs.getD x.ix 0 * c % q
  | .mul x y _ _ => vs.getD x.ix 0 * vs.getD y.ix 0 % q
  | .proj x tt _ _ => tt.getD (vs.getD x.ix 0) 0

/-- The values of all gates, in order. -/
def ArithmeticCircuit.values (circ : ArithmeticCircuit) (gb ev : List ℕ) : List ℕ :=
  (circ.gates.zip circ.gateModuli).foldl (fun vs g => vs ++ [gateValue gb ev vs g.2 g.1]) []

/-- Inputs that are reduced modulo their wires. -/
def Reduced (inputs : List ℕ) (refs : List CircuitRef) : Prop :=
  List.Forall₂ (fun v r => v < r.modulus) inputs refs

instance (inputs : List ℕ) (refs : List CircuitRef) : Decidable (Reduced inputs refs) :=
  inferInstanceAs (Decidable (List.Forall₂ _ inputs refs))

namespace ArithmeticCircuit

variable (circ : ArithmeticCircuit) (gb ev : List ℕ)

/-- The value of the wire at index `i`. -/
def value (i : ℕ) : ℕ := (circ.values gb ev).getD i 0

/-- The number that stands for the value of the wire at index `i`; that of a constant is as given. -/
def held (i : ℕ) : ℕ :=
  match circ.gates[i]? with
  | some (.constant val) => val
  | _ => circ.value gb ev i

/-- Gate computations that stay within words, on numbers that stand for their values. -/
def Exact (q : ℕ) : ArithmeticGate → Prop
  | .add x y _ => circ.held gb ev x.ix + circ.held gb ev y.ix < 2 ^ 16
  | .sub x y _ =>
    q + circ.held gb ev x.ix < 2 ^ 16 ∧ circ.held gb ev y.ix ≤ q + circ.held gb ev x.ix
  | .cmul x c _ => circ.held gb ev x.ix * c < 2 ^ 16
  | .mul x y _ _ =>
    circ.held gb ev x.ix * circ.held gb ev y.ix < 2 ^ 16 ∧
      circ.held gb ev x.ix * circ.held gb ev y.ix % q =
        circ.value gb ev x.ix * circ.value gb ev y.ix % q
  | .proj x tt _ _ => tt[circ.held gb ev x.ix]? = tt[circ.value gb ev x.ix]?
  | _ => True

instance (q : ℕ) (gate : ArithmeticGate) : Decidable (circ.Exact gb ev q gate) := by
  cases gate <;> unfold Exact <;> infer_instance

/-! ## The values -/

theorem foldl_values_prefix (gs : List (ArithmeticGate × ℕ)) (vs : List ℕ) :
    vs <+: gs.foldl (fun vs g => vs ++ [gateValue gb ev vs g.2 g.1]) vs := by
  induction gs generalizing vs with
  | nil => exact List.prefix_rfl
  | cons g gs ih => exact (List.prefix_append _ _).trans (ih _)

/-- The values of the gates before gate `i`. -/
def valuesBefore (i : ℕ) : List ℕ :=
  ((circ.gates.zip circ.gateModuli).take i).foldl
    (fun vs g => vs ++ [gateValue gb ev vs g.2 g.1]) []

variable {circ gb ev}

theorem valuesBefore_succ {i q : ℕ} {gate : ArithmeticGate} (hgate : circ.gates[i]? = some gate)
    (hq : circ.gateModuli[i]? = some q) :
    circ.valuesBefore gb ev (i + 1) =
      circ.valuesBefore gb ev i ++ [gateValue gb ev (circ.valuesBefore gb ev i) q gate] := by
  have hzip : (circ.gates.zip circ.gateModuli)[i]? = some (gate, q) := by
    rw [List.getElem?_zip_eq_some]
    exact ⟨hgate, hq⟩
  rw [valuesBefore, List.take_add_one, hzip, List.foldl_append]
  rfl

theorem length_valuesBefore (h : circ.WellFormed) {i : ℕ} (hi : i ≤ circ.gates.length) :
    (circ.valuesBefore gb ev i).length = i := by
  induction i with
  | zero => rfl
  | succ i ih =>
    rw [valuesBefore_succ (List.getElem?_eq_getElem hi)
      (List.getElem?_eq_getElem (by rw [h.length]; exact hi)), List.length_append, ih (by omega)]
    rfl

variable (circ gb ev) in
theorem valuesBefore_prefix (i : ℕ) : circ.valuesBefore gb ev i <+: circ.values gb ev := by
  conv_rhs => rw [values, ← List.take_append_drop i (circ.gates.zip circ.gateModuli),
    List.foldl_append]
  exact foldl_values_prefix gb ev _ _

theorem getD_valuesBefore (h : circ.WellFormed) {i j : ℕ} (hi : i ≤ circ.gates.length)
    (hj : j < i) : (circ.valuesBefore gb ev i).getD j 0 = circ.value gb ev j := by
  obtain ⟨t, ht⟩ := valuesBefore_prefix circ gb ev i
  rw [value, ← ht, List.getD_append _ _ _ _ (by rwa [length_valuesBefore h hi])]

theorem gateValue_valuesBefore (h : circ.WellFormed) {i q : ℕ} {gate : ArithmeticGate}
    (hi : i ≤ circ.gates.length) (hok : circ.GateOk i q gate) :
    gateValue gb ev (circ.valuesBefore gb ev i) q gate =
      gateValue gb ev (circ.values gb ev) q gate := by
  cases gate with
  | garblerInput id => rfl
  | evaluatorInput id => rfl
  | constant val => rfl
  | add x y out =>
    simp only [gateValue, getD_valuesBefore h hi hok.1.1, getD_valuesBefore h hi hok.2.1.1, value]
  | sub x y out =>
    simp only [gateValue, getD_valuesBefore h hi hok.1.1, getD_valuesBefore h hi hok.2.1.1, value]
  | cmul x c out => simp only [gateValue, getD_valuesBefore h hi hok.1.1, value]
  | mul x y id out =>
    simp only [gateValue, getD_valuesBefore h hi hok.1.1, getD_valuesBefore h hi hok.2.1.1, value]
  | proj x tt id out => simp only [gateValue, getD_valuesBefore h hi hok.1.1, value]

theorem value_eq (h : circ.WellFormed) {i q : ℕ} {gate : ArithmeticGate}
    (hgate : circ.gates[i]? = some gate) (hq : circ.gateModuli[i]? = some q) :
    circ.value gb ev i = gateValue gb ev (circ.values gb ev) q gate := by
  obtain ⟨hi, -⟩ := List.getElem?_eq_some_iff.1 hgate
  rw [← getD_valuesBefore h (show i + 1 ≤ circ.gates.length by omega) (Nat.lt_succ_self i),
    valuesBefore_succ hgate hq,
    List.getD_append_right _ _ _ _ (by rw [length_valuesBefore h hi.le]), length_valuesBefore h hi.le,
    Nat.sub_self]
  exact gateValue_valuesBefore h hi.le (h.gates i gate q hgate hq)

end ArithmeticCircuit

theorem Reduced.exists_of_getElem? {inputs : List ℕ} {refs : List CircuitRef} {id i q : ℕ}
    (h : Reduced inputs refs) (hid : refs[id]? = some ⟨i, q⟩) :
    ∃ v, inputs[id]? = some v ∧ v < q := by
  obtain ⟨hlt, heq⟩ := List.getElem?_eq_some_iff.1 hid
  have hlt' : id < inputs.length := by rwa [List.Forall₂.length_eq h]
  refine ⟨inputs[id], List.getElem?_eq_getElem hlt', ?_⟩
  simpa [heq] using (List.forall₂_iff_get.1 h).2 id hlt' hlt

theorem ArithmeticCircuit.value_lt {circ : ArithmeticCircuit} {gb ev : List ℕ}
    (h : circ.WellFormed) (hgb : Reduced gb circ.garblerInputRefs)
    (hev : Reduced ev circ.evaluatorInputRefs) (hmoduli : ∀ q ∈ circ.gateModuli, 0 < q) {i q : ℕ}
    (hq : circ.gateModuli[i]? = some q) : circ.value gb ev i < q := by
  induction i using Nat.strong_induction_on generalizing q with
  | _ i ih =>
    have hpos : 0 < q := hmoduli q (List.mem_of_getElem? hq)
    obtain ⟨hi, -⟩ := List.getElem?_eq_some_iff.1 hq
    rw [h.length] at hi
    have hgate := List.getElem?_eq_getElem hi
    have hok := h.gates i _ q hgate hq
    rw [value_eq h hgate hq]
    cases hg : circ.gates[i] with
    | garblerInput id =>
      rw [hg] at hok
      obtain ⟨v, hv, hlt⟩ := hgb.exists_of_getElem? hok
      rwa [gateValue, List.getD_eq_getElem?_getD, hv]
    | evaluatorInput id =>
      rw [hg] at hok
      obtain ⟨v, hv, hlt⟩ := hev.exists_of_getElem? hok
      rwa [gateValue, List.getD_eq_getElem?_getD, hv]
    | constant val => exact Nat.mod_lt _ hpos
    | add x y out => exact Nat.mod_lt _ hpos
    | sub x y out =>
      have hnonneg := Int.emod_nonneg
        (((circ.values gb ev).getD x.ix 0 : ℤ) - (circ.values gb ev).getD y.ix 0)
        (by omega : (q : ℤ) ≠ 0)
      have hlt := Int.emod_lt_of_pos
        (((circ.values gb ev).getD x.ix 0 : ℤ) - (circ.values gb ev).getD y.ix 0)
        (by omega : (0 : ℤ) < q)
      rw [gateValue]
      omega
    | cmul x c out => exact Nat.mod_lt _ hpos
    | mul x y id out => exact Nat.mod_lt _ hpos
    | proj x tt id out =>
      rw [hg] at hok
      obtain ⟨⟨hx, hxq⟩, hlength, htt, -⟩ := hok
      have hlt : circ.value gb ev x.ix < tt.length := (ih x.ix hx hxq).trans_le hlength
      rw [value] at hlt
      rw [gateValue, List.getD_eq_getElem _ _ hlt]
      exact htt _ (List.getElem_mem hlt)

end EdaBitGen.FancyGarbling

/-!
## Binary circuits

Circuits of gates over bits, whose gates may name the wire that they are stored at, and their
evaluation by a fancy object.
-/

namespace EdaBitGen.FancyGarbling

/-- `out` gives the output wire index; without it the gate's own index is used. -/
inductive BinaryGate
  | garblerInput (id : ℕ)
  | evaluatorInput (id : ℕ)
  | constant (val : ℕ)
  | xor (xref yref : CircuitRef) (out : Option ℕ)
  | and (xref yref : CircuitRef) (id : ℕ) (out : Option ℕ)
  | inv (xref : CircuitRef) (out : Option ℕ)
  deriving DecidableEq

structure BinaryCircuit where
  gates : List BinaryGate
  garblerInputRefs : List CircuitRef
  evaluatorInputRefs : List CircuitRef
  constRefs : List CircuitRef
  outputRefs : List CircuitRef
  numNonfreeGates : ℕ
  deriving DecidableEq

namespace BinaryCircuit

/-! ## Evaluation -/

section Evaluation

variable {m : Type → Type} [Monad m] {W : Type} [FancyBinary m W]

/-- The value of a wire that was computed before. -/
def cached (cache : List (Option W)) (r : CircuitRef) : m W := do
  match ← index cache r.ix with
  | some w => return w
  | none => fail .uninitializedValue

/-- The value of a gate, with the wire that it is stored at. -/
def gateOutput (garblerInputs evaluatorInputs : List W) (cache : List (Option W)) :
    BinaryGate → m (Option ℕ × W)
  | .garblerInput id => do
    let w ← index garblerInputs id
    return (none, w)
  | .evaluatorInput id => do
    let w ← index evaluatorInputs id
    return (none, w)
  | .constant val => do
    let w ← constant val 2
    return (none, w)
  | .inv xref out => do
    let x ← cached cache xref
    let w ← negate x
    return (out, w)
  | .xor xref yref out => do
    let x ← cached cache xref
    let y ← cached cache yref
    let w ← FancyBinary.xor x y
    return (out, w)
  | .and xref yref _ out => do
    let x ← cached cache xref
    let y ← cached cache yref
    let w ← FancyBinary.and x y
    return (out, w)

/-- One round of `eval`, for the gate with index `i`. -/
def evalGate (garblerInputs evaluatorInputs : List W) (cache : List (Option W))
    (gate : BinaryGate × ℕ) : m (List (Option W)) := do
  let (zref, val) ← gateOutput garblerInputs evaluatorInputs cache gate.1
  let z := zref.getD gate.2
  if z < cache.length then return cache.set z (some val) else panic

/-- One output wire. -/
def outputRef (cache : List (Option W)) (r : CircuitRef) : m (Option ℕ) := do
  let w ← cached cache r
  output w

def eval (circ : BinaryCircuit) (garblerInputs evaluatorInputs : List W) :
    m (Option (List ℕ)) := do
  let cache ← circ.gates.zipIdx.foldlM (evalGate garblerInputs evaluatorInputs)
    (List.replicate circ.gates.length none)
  let outputs ← circ.outputRefs.mapM (outputRef cache)
  return outputs.mapM id

end Evaluation

/-- Evaluate the circuit in plaintext. -/
def evalPlain (circ : BinaryCircuit) (garblerInputs evaluatorInputs : List ℕ) : Dummy (List ℕ) :=
  if garblerInputs.length ≠ circ.garblerInputRefs.length then .error .notEnoughGarblerInputs
  else if evaluatorInputs.length ≠ circ.evaluatorInputRefs.length then
    .error .notEnoughEvaluatorInputs
  else do
    let outputs ← circ.eval (dummyInputs garblerInputs circ.garblerInputRefs)
      (dummyInputs evaluatorInputs circ.evaluatorInputRefs)
    unwrap outputs

/-! ## What a gate does -/

/-- A wire that holds a bit. -/
def bitVal (b : Bool) : DummyVal := ⟨b.toNat, 2⟩

theorem negate_bitVal (b : Bool) : (negate (bitVal b) : Dummy DummyVal) = .ok (bitVal !b) := by
  cases b <;> rfl

theorem xor_bitVal (b c : Bool) :
    (FancyBinary.xor (bitVal b) (bitVal c) : Dummy DummyVal) = .ok (bitVal (b ^^ c)) := by
  cases b <;> cases c <;> rfl

theorem and_bitVal (b c : Bool) :
    (FancyBinary.and (bitVal b) (bitVal c) : Dummy DummyVal) = .ok (bitVal (b && c)) := by
  cases b <;> cases c <;> rfl

theorem output_bitVal (b : Bool) : (output (bitVal b) : Dummy (Option ℕ)) = .ok (some b.toNat) := rfl

/-- The cells of the wires in `known` hold the bits `v`. -/
def HoldsBits (known : ℕ → Prop) (v : ℕ → Bool) (cache : List (Option DummyVal)) : Prop :=
  ∀ w, known w → cache[w]? = some (some (bitVal (v w)))

section Steps

variable {known : ℕ → Prop} {v : ℕ → Bool} {cache : List (Option DummyVal)}
  {garblerInputs evaluatorInputs : List DummyVal}

theorem cached_of_holdsBits (h : HoldsBits known v cache) {w q : ℕ} (hw : known w) :
    (cached cache ⟨w, q⟩ : Dummy DummyVal) = .ok (bitVal (v w)) := by
  rw [cached, index_eq (h w hw)]
  rfl

theorem HoldsBits.set (h : HoldsBits known v cache) {z : ℕ} (hz : z < cache.length) (b : Bool) :
    HoldsBits (fun w => known w ∨ w = z) (Function.update v z b)
      (cache.set z (some (bitVal b))) := by
  intro w hw
  by_cases hwz : w = z
  · subst hwz
    rw [List.getElem?_set_self hz, Function.update_self]
  · rw [List.getElem?_set_ne (Ne.symm hwz), Function.update_of_ne hwz,
      h w (hw.resolve_right hwz)]

theorem outputRefs_of_holdsBits (h : HoldsBits known v cache) {refs : List ℕ}
    (hrefs : ∀ w ∈ refs, known w) :
    ((refs.map fun w => CircuitRef.mk w 2).mapM (outputRef cache) : Dummy (List (Option ℕ))) =
      .ok (refs.map fun w => some (v w).toNat) := by
  refine mapM_ok refs fun w hw => ?_
  rw [outputRef, cached_of_holdsBits h (hrefs w hw), ok_bind, output_bitVal]

theorem evalGate_eq {gate : BinaryGate} {i : ℕ} {zref : Option ℕ} {val : DummyVal}
    (h : gateOutput garblerInputs evaluatorInputs cache gate = (.ok (zref, val) : Dummy _)) :
    (evalGate garblerInputs evaluatorInputs cache (gate, i) : Dummy _) =
      if zref.getD i < cache.length then .ok (cache.set (zref.getD i) (some val))
      else .error .panic := by
  rw [evalGate, h]
  rfl

theorem exists_of_evalGate {gate : BinaryGate} {i : ℕ} {cache' : List (Option DummyVal)}
    (h : evalGate garblerInputs evaluatorInputs cache (gate, i) = (.ok cache' : Dummy _)) :
    ∃ zref val, gateOutput garblerInputs evaluatorInputs cache gate =
        (.ok (zref, val) : Dummy _) ∧
      zref.getD i < cache.length ∧ cache'.length = cache.length := by
  obtain ⟨⟨zref, val⟩, hout, -⟩ := exists_of_bind h
  rw [evalGate_eq hout] at h
  split at h
  · next hz =>
    cases h
    exact ⟨zref, val, hout, hz, List.length_set⟩
  · cases h

end Steps

end BinaryCircuit

end EdaBitGen.FancyGarbling
