import EdaBitGen.FancyGarbling.CircuitValues
import EdaBitGen.FancyGarbling.Wire

/-!
# Plaintext evaluation of circuits

When the evaluation of a built circuit on plain values is the circuit over the integers.
-/

namespace EdaBitGen.FancyGarbling

namespace ArithmeticCircuit

variable {circ : ArithmeticCircuit} {gb ev : List ℕ}

variable (circ gb ev) in
/-- The cell of wire `j` once its gate has been computed exactly. -/
def cell (j : ℕ) : DummyVal := ⟨circ.held gb ev j, circ.gateModuli.getD j 0⟩

variable (circ gb ev) in
/-- The cells after `i` gates that were computed exactly. -/
def cacheAt (i : ℕ) : List (Option DummyVal) :=
  (List.range circ.gates.length).map fun j => if j < i then some (circ.cell gb ev j) else none

theorem cacheAt_zero : circ.cacheAt gb ev 0 = List.replicate circ.gates.length none := by
  simp [cacheAt, List.map_const']

theorem length_cacheAt (i : ℕ) : (circ.cacheAt gb ev i).length = circ.gates.length := by
  simp [cacheAt]

theorem cacheAt_succ (i : ℕ) :
    (circ.cacheAt gb ev i).set i (some (circ.cell gb ev i)) = circ.cacheAt gb ev (i + 1) := by
  apply List.ext_getElem (by simp [cacheAt])
  intro j h₁ h₂
  rw [List.getElem_set]
  simp only [cacheAt, List.getElem_map, List.getElem_range]
  split
  · next h => rw [if_pos (by omega), h]
  · next h => exact if_congr (by omega) rfl rfl

theorem cached_cacheAt {i : ℕ} {r : CircuitRef} (hi : i ≤ circ.gates.length)
    (hr : circ.Earlier i r) :
    (cached (circ.cacheAt gb ev i) r : Dummy DummyVal) =
      .ok ⟨circ.held gb ev r.ix, r.modulus⟩ := by
  have hcell : (circ.cacheAt gb ev i)[r.ix]? = some (some (circ.cell gb ev r.ix)) := by
    have hlt : r.ix < circ.gates.length := hr.1.trans_le hi
    simp [cacheAt, hlt, hr.1]
  rw [cached, index_eq hcell, ok_bind, cell, List.getD_eq_getElem?_getD, hr.2]
  rfl

theorem held_eq_value {i : ℕ} {gate : ArithmeticGate} (hgate : circ.gates[i]? = some gate)
    (hconst : ∀ val, gate ≠ .constant val) : circ.held gb ev i = circ.value gb ev i := by
  rw [held, hgate]
  cases gate with
  | constant val => exact absurd rfl (hconst val)
  | _ => rfl

variable (circ gb ev) in
/-- A run has gone wrong over a constant that is not reduced: a cell holds a number that does not
stand for the value of its wire. -/
def Wrong (i : ℕ) (cache : List (Option DummyVal)) : Prop :=
  (∃ j, circ.held gb ev j ≠ circ.value gb ev j) ∧
    ∃ j < i, ∀ v q, cache[j]? = some (some ⟨v, q⟩) → v % q ≠ circ.value gb ev j

theorem out_of_gateOk {i q : ℕ} {gate : ArithmeticGate} (hok : circ.GateOk i q gate)
    {G E : List DummyVal} {cache : List (Option DummyVal)} {z : Option ℕ} {w : DummyVal}
    (h : gateOutput G E cache q gate = (.ok (z, w) : Dummy _)) : z = none := by
  cases gate with
  | garblerInput id =>
    obtain ⟨w', -, h⟩ := exists_of_bind h
    cases h
    rfl
  | evaluatorInput id =>
    obtain ⟨w', -, h⟩ := exists_of_bind h
    cases h
    rfl
  | constant val =>
    cases h
    rfl
  | add x y out =>
    obtain ⟨-, -, -, -, rfl⟩ := hok
    obtain ⟨a, -, h⟩ := exists_of_bind h
    obtain ⟨b, -, h⟩ := exists_of_bind h
    obtain ⟨w', -, h⟩ := exists_of_bind h
    cases h
    rfl
  | sub x y out =>
    obtain ⟨-, -, -, -, rfl⟩ := hok
    obtain ⟨a, -, h⟩ := exists_of_bind h
    obtain ⟨b, -, h⟩ := exists_of_bind h
    obtain ⟨w', -, h⟩ := exists_of_bind h
    cases h
    rfl
  | cmul x c out =>
    obtain ⟨-, -, rfl⟩ := hok
    obtain ⟨a, -, h⟩ := exists_of_bind h
    obtain ⟨w', -, h⟩ := exists_of_bind h
    cases h
    rfl
  | mul x y id out =>
    obtain ⟨-, -, -, rfl⟩ := hok
    obtain ⟨a, -, h⟩ := exists_of_bind h
    obtain ⟨b, -, h⟩ := exists_of_bind h
    obtain ⟨w', -, h⟩ := exists_of_bind h
    cases h
    rfl
  | proj x tt id out =>
    obtain ⟨-, -, -, rfl⟩ := hok
    obtain ⟨a, -, h⟩ := exists_of_bind h
    obtain ⟨w', -, h⟩ := exists_of_bind h
    cases h
    rfl

section Step

variable {i q : ℕ} {gate : ArithmeticGate}

theorem evalGate_eq (hgate : circ.gates[i]? = some gate)
    (hq : circ.gateModuli[i]? = some q) {G E : List DummyVal} {cache : List (Option DummyVal)}
    (hlength : cache.length = circ.gates.length) {w : DummyVal}
    (hout : gateOutput G E cache q gate = (.ok (none, w) : Dummy _)) :
    evalGate circ G E cache i = (.ok (cache.set i (some w)) : Dummy _) := by
  obtain ⟨hi, -⟩ := List.getElem?_eq_some_iff.1 hgate
  rw [evalGate, index_eq hgate, ok_bind, index_eq hq, ok_bind, hout, ok_bind]
  exact if_pos (by rw [hlength]; exact hi)

theorem exists_of_evalGate (h : circ.WellFormed) (hi : i < circ.gates.length)
    {G E : List DummyVal} {cache cache' : List (Option DummyVal)}
    (heval : evalGate circ G E cache i = (.ok cache' : Dummy _)) :
    ∃ gate q w, circ.gates[i]? = some gate ∧ circ.gateModuli[i]? = some q ∧
      gateOutput G E cache q gate = (.ok (none, w) : Dummy _) ∧
      cache' = cache.set i (some w) := by
  have hgate := List.getElem?_eq_getElem hi
  have hq := List.getElem?_eq_getElem (by rwa [h.length] : i < circ.gateModuli.length)
  rw [evalGate, index_eq hgate, ok_bind, index_eq hq, ok_bind] at heval
  obtain ⟨⟨z, w⟩, hout, heval⟩ := exists_of_bind heval
  obtain rfl := out_of_gateOk (h.gates i _ _ hgate hq) hout
  refine ⟨_, _, w, hgate, hq, hout, ?_⟩
  simp only [Option.getD_none] at heval
  split at heval
  · exact (Except.ok.inj heval).symm
  · cases heval

theorem Wrong.step (h : circ.WellFormed) (hi : i < circ.gates.length) {G E : List DummyVal}
    {cache cache' : List (Option DummyVal)} (hwrong : circ.Wrong gb ev i cache)
    (heval : evalGate circ G E cache i = (.ok cache' : Dummy _)) :
    circ.Wrong gb ev (i + 1) cache' := by
  obtain ⟨hheld, j, hj, hne⟩ := hwrong
  obtain ⟨-, -, w, -, -, -, rfl⟩ := exists_of_evalGate h hi heval
  refine ⟨hheld, j, by omega, fun v q hv => hne v q ?_⟩
  rwa [List.getElem?_set_ne (by omega)] at hv

end Step

/-! ## Exact gates -/

variable (circ gb ev) in
/-- A well-formed circuit with inputs that are reduced modulo their wires. -/
structure Runnable : Prop where
  wellFormed : circ.WellFormed
  moduli : ∀ q ∈ circ.gateModuli, 0 < q
  garblerInputs : Reduced gb circ.garblerInputRefs
  evaluatorInputs : Reduced ev circ.evaluatorInputRefs

section Exact

variable {i q : ℕ} {gate : ArithmeticGate}

theorem Runnable.value_lt (h : circ.Runnable gb ev) (hq : circ.gateModuli[i]? = some q) :
    circ.value gb ev i < q :=
  ArithmeticCircuit.value_lt h.wellFormed h.garblerInputs h.evaluatorInputs h.moduli hq

theorem Runnable.held_mod (h : circ.Runnable gb ev) (hq : circ.gateModuli[i]? = some q) :
    circ.held gb ev i % q = circ.value gb ev i := by
  obtain ⟨hi, -⟩ := List.getElem?_eq_some_iff.1 hq
  rw [h.wellFormed.length] at hi
  have hgate := List.getElem?_eq_getElem hi
  have hlt := h.value_lt hq
  cases hg : circ.gates[i] with
  | constant val =>
    rw [hg] at hgate
    rw [held, hgate, value_eq h.wellFormed hgate hq]
    rfl
  | _ =>
    rw [hg] at hgate
    rw [held_eq_value hgate (by simp), Nat.mod_eq_of_lt hlt]

theorem dummyInputs_getElem? {inputs : List ℕ} {refs : List CircuitRef} {id v : ℕ}
    (hv : inputs[id]? = some v) (hr : refs[id]? = some ⟨i, q⟩) :
    (dummyInputs inputs refs)[id]? = some ⟨v, q⟩ := by
  rw [dummyInputs, List.getElem?_map,
    (List.getElem?_zip_eq_some (z := (v, ⟨i, q⟩))).2 ⟨hv, hr⟩]
  rfl

theorem sub_toNat {a b q : ℕ} (hle : b ≤ q + a) :
    (q + a - b) % q = (((a : ℤ) - b) % q).toNat := by
  have hcast : ((q + a - b : ℕ) : ℤ) = q + (a - b) := by omega
  have hmod : (((q + a - b : ℕ) % q : ℕ) : ℤ) = ((a : ℤ) - b) % q := by
    rw [Int.natCast_emod, hcast, Int.add_emod_left]
  omega

theorem sub_mod {a b q va vb : ℕ} (hle : b ≤ q + a) (ha : a % q = va) (hb : b % q = vb) :
    (q + a - b) % q = (((va : ℤ) - vb) % q).toNat := by
  rw [sub_toNat hle, ← ha, ← hb, Int.natCast_emod, Int.natCast_emod, ← Int.sub_emod]

theorem gateOutput_exact (h : circ.Runnable gb ev) (hgate : circ.gates[i]? = some gate)
    (hq : circ.gateModuli[i]? = some q) (hexact : circ.Exact gb ev q gate) :
    gateOutput (dummyInputs gb circ.garblerInputRefs) (dummyInputs ev circ.evaluatorInputRefs)
      (circ.cacheAt gb ev i) q gate = (.ok (none, circ.cell gb ev i) : Dummy _) := by
  have hpos : 0 < q := h.moduli q (List.mem_of_getElem? hq)
  obtain ⟨hi, -⟩ := List.getElem?_eq_some_iff.1 hgate
  have hok := h.wellFormed.gates i gate q hgate hq
  have hvalue := @value_eq circ gb ev h.wellFormed _ _ _ hgate hq
  have hcell : circ.cell gb ev i = ⟨circ.held gb ev i, q⟩ := by
    rw [cell, List.getD_eq_getElem?_getD, hq]
    rfl
  rw [hcell]
  cases gate with
  | garblerInput id =>
    obtain ⟨v, hv, -⟩ := h.garblerInputs.exists_of_getElem? hok
    rw [gateOutput, index_eq (dummyInputs_getElem? hv hok), held_eq_value hgate (by simp), hvalue,
      gateValue, List.getD_eq_getElem?_getD, hv]
    rfl
  | evaluatorInput id =>
    obtain ⟨v, hv, -⟩ := h.evaluatorInputs.exists_of_getElem? hok
    rw [gateOutput, index_eq (dummyInputs_getElem? hv hok), held_eq_value hgate (by simp), hvalue,
      gateValue, List.getD_eq_getElem?_getD, hv]
    rfl
  | constant val =>
    rw [held, hgate]
    rfl
  | add x y out =>
    obtain ⟨hx, hy, hxq, hyq, rfl⟩ := hok
    have hsum : (circ.held gb ev x.ix + circ.held gb ev y.ix) % q = circ.value gb ev i := by
      rw [Nat.add_mod, h.held_mod (hxq ▸ hx.2), h.held_mod (hyq ▸ hy.2), hvalue]
      rfl
    rw [gateOutput, cached_cacheAt hi.le hx, ok_bind, cached_cacheAt hi.le hy, ok_bind, hxq, hyq,
      add_eq hpos hexact, held_eq_value hgate (by simp), hsum]
    rfl
  | sub x y out =>
    obtain ⟨hx, hy, hxq, hyq, rfl⟩ := hok
    have hdiff : (q + circ.held gb ev x.ix - circ.held gb ev y.ix) % q = circ.value gb ev i := by
      rw [sub_mod hexact.2 (h.held_mod (hxq ▸ hx.2)) (h.held_mod (hyq ▸ hy.2)), hvalue]
      rfl
    rw [gateOutput, cached_cacheAt hi.le hx, ok_bind, cached_cacheAt hi.le hy, ok_bind, hxq, hyq,
      sub_eq hpos hexact.1 hexact.2, held_eq_value hgate (by simp), hdiff]
    rfl
  | cmul x c out =>
    obtain ⟨hx, hxq, rfl⟩ := hok
    have hprod : circ.held gb ev x.ix * c % q = circ.value gb ev i := by
      rw [Nat.mul_mod, h.held_mod (hxq ▸ hx.2), ← Nat.mod_eq_of_lt (h.value_lt (hxq ▸ hx.2)),
        ← Nat.mul_mod, hvalue]
      rfl
    rw [gateOutput, cached_cacheAt hi.le hx, ok_bind, hxq, cmul_eq hpos hexact,
      held_eq_value hgate (by simp), hprod]
    rfl
  | mul x y id out =>
    obtain ⟨hx, hy, hxq, rfl⟩ := hok
    rw [gateOutput, cached_cacheAt hi.le hx, ok_bind, cached_cacheAt hi.le hy, ok_bind, hxq,
      mul_eq hpos hexact.1, held_eq_value hgate (by simp), hexact.2, hvalue]
    rfl
  | proj x tt id out =>
    obtain ⟨hx, hlength, htt, rfl⟩ := hok
    have hlt : circ.value gb ev x.ix < tt.length := (h.value_lt hx.2).trans_le hlength
    have hentry : tt[circ.held gb ev x.ix]? = some (circ.value gb ev i) := by
      rw [hexact, hvalue, List.getElem?_eq_getElem hlt]
      exact congrArg some (List.getD_eq_getElem _ _ hlt).symm
    rw [gateOutput, cached_cacheAt hi.le hx, ok_bind, proj_eq hlength htt hentry,
      held_eq_value hgate (by simp)]
    rfl

/-- A gate that does not compute exactly panics or leaves a number that does not stand for its
value. -/
theorem gateOutput_inexact (h : circ.Runnable gb ev) (hgate : circ.gates[i]? = some gate)
    (hq : circ.gateModuli[i]? = some q) (hexact : ¬ circ.Exact gb ev q gate) {v p : ℕ}
    (hout : gateOutput (dummyInputs gb circ.garblerInputRefs)
      (dummyInputs ev circ.evaluatorInputRefs) (circ.cacheAt gb ev i) q gate =
        (.ok (none, ⟨v, p⟩) : Dummy _)) :
    (∃ j, circ.held gb ev j ≠ circ.value gb ev j) ∧ v % p ≠ circ.value gb ev i := by
  have hpos : 0 < q := h.moduli q (List.mem_of_getElem? hq)
  obtain ⟨hi, -⟩ := List.getElem?_eq_some_iff.1 hgate
  have hok := h.wellFormed.gates i gate q hgate hq
  have hvalue := @value_eq circ gb ev h.wellFormed _ _ _ hgate hq
  cases gate with
  | garblerInput id => exact absurd trivial hexact
  | evaluatorInput id => exact absurd trivial hexact
  | constant val => exact absurd trivial hexact
  | add x y out =>
    obtain ⟨hx, hy, hxq, hyq, -⟩ := hok
    rw [gateOutput, cached_cacheAt hi.le hx, ok_bind, cached_cacheAt hi.le hy, ok_bind, hxq, hyq,
      add_panic hexact] at hout
    cases hout
  | sub x y out =>
    obtain ⟨hx, hy, hxq, hyq, -⟩ := hok
    rw [gateOutput, cached_cacheAt hi.le hx, ok_bind, cached_cacheAt hi.le hy, ok_bind, hxq, hyq,
      sub_panic hexact] at hout
    cases hout
  | cmul x c out =>
    obtain ⟨hx, hxq, -⟩ := hok
    rw [gateOutput, cached_cacheAt hi.le hx, ok_bind, hxq, cmul_panic hexact] at hout
    cases hout
  | mul x y id out =>
    obtain ⟨hx, hy, hxq, -⟩ := hok
    rw [gateOutput, cached_cacheAt hi.le hx, ok_bind, cached_cacheAt hi.le hy, ok_bind, hxq] at hout
    by_cases hfits : circ.held gb ev x.ix * circ.held gb ev y.ix < 2 ^ 16
    · rw [mul_eq hpos hfits] at hout
      cases hout
      rw [Nat.mod_mod, hvalue]
      refine ⟨?_, fun heq => hexact ⟨hfits, heq⟩⟩
      by_contra! hheld
      exact hexact ⟨hfits, by rw [hheld, hheld]⟩
    · rw [mul_panic hfits] at hout
      cases hout
  | proj x tt id out =>
    obtain ⟨hx, hlength, htt, -⟩ := hok
    have hlt : circ.value gb ev x.ix < tt.length := (h.value_lt hx.2).trans_le hlength
    rw [gateOutput, cached_cacheAt hi.le hx, ok_bind] at hout
    cases hentry : tt[circ.held gb ev x.ix]? with
    | none =>
      rw [proj_panic hlength htt hentry] at hout
      cases hout
    | some r =>
      rw [proj_eq hlength htt hentry] at hout
      cases hout
      rw [Nat.mod_eq_of_lt (htt _ (List.mem_of_getElem? hentry)), hvalue]
      refine ⟨⟨x.ix, fun heq => hexact (congrArg _ heq)⟩, fun heq => hexact (hentry.trans ?_)⟩
      rw [heq, gateValue]
      exact (congrArg some (List.getD_eq_getElem _ _ hlt)).trans (List.getElem?_eq_getElem hlt).symm

end Exact

/-! ## Runs -/

variable (circ gb ev) in
/-- The gates of the circuit in order, on plain values. -/
def gatesRun : Dummy (List (Option DummyVal)) :=
  (List.range circ.gates.length).foldlM
    (evalGate circ (dummyInputs gb circ.garblerInputRefs)
      (dummyInputs ev circ.evaluatorInputRefs)) (List.replicate circ.gates.length none)

variable (circ gb ev) in
/-- All gates before gate `n` compute exactly. -/
def ExactBefore (n : ℕ) : Prop :=
  ∀ (i : ℕ) (gate : ArithmeticGate) (q : ℕ), i < n → circ.gates[i]? = some gate →
    circ.gateModuli[i]? = some q → circ.Exact gb ev q gate

theorem step_exact (h : circ.Runnable gb ev) {i : ℕ} {gate : ArithmeticGate} {q : ℕ}
    (hgate : circ.gates[i]? = some gate) (hq : circ.gateModuli[i]? = some q)
    (hexact : circ.Exact gb ev q gate) :
    evalGate circ (dummyInputs gb circ.garblerInputRefs) (dummyInputs ev circ.evaluatorInputRefs)
      (circ.cacheAt gb ev i) i = (.ok (circ.cacheAt gb ev (i + 1)) : Dummy _) := by
  rw [evalGate_eq hgate hq (length_cacheAt i) (gateOutput_exact h hgate hq hexact), cacheAt_succ]

theorem gatesRun_exact (h : circ.Runnable gb ev) (hexact : circ.ExactBefore gb ev circ.gates.length) :
    circ.gatesRun gb ev = .ok (circ.cacheAt gb ev circ.gates.length) := by
  rw [gatesRun, ← @cacheAt_zero circ gb ev]
  refine foldlM_range (circ.cacheAt gb ev) fun i hi => ?_
  have hgate := List.getElem?_eq_getElem hi
  have hq := List.getElem?_eq_getElem
    (show i < circ.gateModuli.length by rwa [h.wellFormed.length])
  exact step_exact h hgate hq (hexact i _ _ hi hgate hq)

theorem exact_or_wrong (h : circ.Runnable gb ev) {cache : List (Option DummyVal)}
    (hrun : circ.gatesRun gb ev = .ok cache) :
    (circ.ExactBefore gb ev circ.gates.length ∧ cache = circ.cacheAt gb ev circ.gates.length) ∨
      circ.Wrong gb ev circ.gates.length cache := by
  refine (foldlM_range_ok (r := fun _ => True)
    (p := fun i t => (circ.ExactBefore gb ev i ∧ t = circ.cacheAt gb ev i) ∨ circ.Wrong gb ev i t)
    ?_ (Or.inl ⟨fun i _ _ hi => absurd hi (Nat.not_lt_zero i), cacheAt_zero.symm⟩) hrun).2
  rintro i hi t t' (⟨hbefore, rfl⟩ | hwrong) hstep
  · refine ⟨trivial, ?_⟩
    obtain ⟨gate, q, w, hgate, hq, hout, rfl⟩ := exists_of_evalGate h.wellFormed hi hstep
    by_cases hexact : circ.Exact gb ev q gate
    · refine Or.inl ⟨fun j gate' q' hj hgate' hq' => ?_, ?_⟩
      · obtain hlt | rfl := Nat.lt_succ_iff_lt_or_eq.1 hj
        · exact hbefore j gate' q' hlt hgate' hq'
        · rw [hgate] at hgate'
          rw [hq] at hq'
          cases hgate'
          cases hq'
          exact hexact
      · rw [gateOutput_exact h hgate hq hexact] at hout
        cases hout
        exact cacheAt_succ i
    · obtain ⟨v, p⟩ := w
      obtain ⟨hheld, hne⟩ := gateOutput_inexact h hgate hq hexact hout
      refine Or.inr ⟨hheld, i, Nat.lt_succ_self i, fun v' p' hv => ?_⟩
      rw [List.getElem?_set_self (by rwa [length_cacheAt])] at hv
      cases hv
      exact hne
  · exact ⟨trivial, Or.inr (hwrong.step h.wellFormed hi hstep)⟩

theorem evalPlain_exact (h : circ.Runnable gb ev)
    (hexact : circ.ExactBefore gb ev circ.gates.length) :
    evalPlain circ gb ev = .ok (circ.outputRefs.map fun r => circ.held gb ev r.ix) := by
  have hrun := gatesRun_exact h hexact
  have houtputs : circ.outputRefs.mapM (outputRef (circ.cacheAt gb ev circ.gates.length)) =
      (.ok (circ.outputRefs.map fun r => some (circ.held gb ev r.ix)) : Dummy _) := by
    refine mapM_eq _ fun r hr => ?_
    have hq := h.wellFormed.outputs r hr
    have hlt : r.ix < circ.gates.length := by
      rw [← h.wellFormed.length]
      exact (List.getElem?_eq_some_iff.1 hq).1
    rw [outputRef, cached_cacheAt le_rfl ⟨hlt, hq⟩, ok_bind, output_eq]
  have hsome : (circ.outputRefs.map fun r => some (circ.held gb ev r.ix)).mapM id =
      some (circ.outputRefs.map fun r => circ.held gb ev r.ix) := by
    rw [List.mapM_map]
    exact List.mapM_pure
  rw [gatesRun] at hrun
  rw [evalPlain, if_neg (by simpa using h.garblerInputs.length_eq),
    if_neg (by simpa using h.evaluatorInputs.length_eq), eval, hrun, ok_bind, houtputs, ok_bind]
  change unwrap ((circ.outputRefs.map fun r => some (circ.held gb ev r.ix)).mapM id) = _
  rw [hsome]
  rfl

variable (circ gb ev) in
/-- Every cell holds a number that stands for the value of its wire. -/
def Carried (cache : List (Option DummyVal)) : Prop :=
  ∀ i q, circ.gateModuli[i]? = some q →
    ∃ v, cache[i]? = some (some ⟨v, q⟩) ∧ v % q = circ.value gb ev i

theorem carried_cacheAt (h : circ.Runnable gb ev) :
    circ.Carried gb ev (circ.cacheAt gb ev circ.gates.length) := by
  intro i q hq
  have hi : i < circ.gates.length := by
    rw [← h.wellFormed.length]
    exact (List.getElem?_eq_some_iff.1 hq).1
  refine ⟨circ.held gb ev i, ?_, h.held_mod hq⟩
  simp [cacheAt, hi, cell, hq]

theorem not_wrong_of_carried (h : circ.Runnable gb ev) {cache : List (Option DummyVal)}
    (hc : circ.Carried gb ev cache) : ¬ circ.Wrong gb ev circ.gates.length cache := by
  rintro ⟨-, j, hj, hne⟩
  obtain ⟨v, hv, heq⟩ := hc j _ (List.getElem?_eq_getElem (by rwa [h.wellFormed.length]))
  exact hne v _ hv heq

theorem exists_gatesRun {zs : List ℕ} (heval : evalPlain circ gb ev = .ok zs) :
    ∃ cache, circ.gatesRun gb ev = .ok cache := by
  rw [evalPlain] at heval
  split at heval
  · cases heval
  · split at heval
    · cases heval
    · obtain ⟨outs, heval, -⟩ := exists_of_bind heval
      obtain ⟨cache, hcache, -⟩ := exists_of_bind heval
      exact ⟨cache, hcache⟩

variable (circ) in
/-- Every constant is reduced modulo its wire. -/
def ReducedConstants : Prop :=
  ∀ (i val q : ℕ), circ.gates[i]? = some (.constant val) → circ.gateModuli[i]? = some q → val < q

theorem held_of_reduced (h : circ.Runnable gb ev) (hconst : circ.ReducedConstants) (i : ℕ) :
    circ.held gb ev i = circ.value gb ev i := by
  cases hgate : circ.gates[i]? with
  | none => rw [held, hgate]
  | some gate =>
    cases gate with
    | constant val =>
      have hq := List.getElem?_eq_getElem (show i < circ.gateModuli.length by
        rw [h.wellFormed.length]
        exact (List.getElem?_eq_some_iff.1 hgate).1)
      rw [held, hgate, value_eq h.wellFormed hgate hq]
      exact (Nat.mod_eq_of_lt (hconst i val _ hgate hq)).symm
    | _ => exact held_eq_value hgate (by simp)

/-- Plain evaluation leaves the value of every wire in its cell and returns those of the outputs,
exactly when every gate is exact and no output is an unreduced constant. -/
theorem carried_iff (h : circ.Runnable gb ev) :
    ((∃ cache, circ.gatesRun gb ev = .ok cache ∧ circ.Carried gb ev cache) ∧
        evalPlain circ gb ev = .ok (circ.outputRefs.map fun r => circ.value gb ev r.ix)) ↔
      circ.ExactBefore gb ev circ.gates.length ∧
        ∀ r ∈ circ.outputRefs, circ.held gb ev r.ix = circ.value gb ev r.ix := by
  constructor
  · rintro ⟨⟨cache, hrun, hcarried⟩, heval⟩
    obtain ⟨hexact, -⟩ | hwrong := exact_or_wrong h hrun
    · rw [evalPlain_exact h hexact] at heval
      exact ⟨hexact, List.map_inj_left.1 (Except.ok.inj heval)⟩
    · exact absurd hwrong (not_wrong_of_carried h hcarried)
  · rintro ⟨hexact, houtputs⟩
    refine ⟨⟨_, gatesRun_exact h hexact, carried_cacheAt h⟩, ?_⟩
    rw [evalPlain_exact h hexact, List.map_congr_left houtputs]

theorem evalPlain_reduced_iff (h : circ.Runnable gb ev) (hconst : circ.ReducedConstants) :
    evalPlain circ gb ev = .ok (circ.outputRefs.map fun r => circ.value gb ev r.ix) ↔
      circ.ExactBefore gb ev circ.gates.length := by
  constructor
  · intro heval
    obtain ⟨cache, hrun⟩ := exists_gatesRun heval
    obtain ⟨hexact, -⟩ | ⟨⟨j, hj⟩, -⟩ := exact_or_wrong h hrun
    · exact hexact
    · exact absurd (held_of_reduced h hconst j) hj
  · intro hexact
    rw [evalPlain_exact h hexact]
    exact congrArg _ (List.map_congr_left fun r _ => held_of_reduced h hconst r.ix)

end ArithmeticCircuit

/-! ## Wire labels -/

/-- Sums, differences and multiples of labels of modulus `q` that carry the values `vs` carry those of
the gates. -/
def LabelsCarry (gb ev vs : List ℕ) (q : ℕ) : Prop :=
  ∀ (n : ℕ) (zero zero' delta lx ly : WireModQ) (x y : CircuitRef), zero.Valid q n →
    zero'.Valid q n → delta.Valid q n → vs.getD y.ix 0 < q →
    WireModQ.encode zero delta (vs.getD x.ix 0) = some lx →
    WireModQ.encode zero' delta (vs.getD y.ix 0) = some ly →
    (∃ z l, zero.plus zero' = some z ∧ lx.plus ly = some l ∧
      WireModQ.encode z delta (gateValue gb ev vs q (.add x y none)) = some l) ∧
    (∃ z l, zero.minus zero' = some z ∧ lx.minus ly = some l ∧
      WireModQ.encode z delta (gateValue gb ev vs q (.sub x y none)) = some l) ∧
    ∀ c, ∃ z l, zero.cmul c = some z ∧ lx.cmul c = some l ∧
      WireModQ.encode z delta (gateValue gb ev vs q (.cmul x c none)) = some l

theorem labelsCarry (gb ev vs : List ℕ) {q : ℕ} (hq : 0 < q) (hword : 2 * q ≤ 2 ^ 16) :
    LabelsCarry gb ev vs q := by
  intro n zero zero' delta lx ly x y hz hz' hd hy hlx hly
  refine ⟨WireModQ.encode_plus hz hz' hd hq hword hlx hly, ?_,
    fun c => WireModQ.encode_cmul hz hd hq hword hlx c⟩
  have hsub : (((vs.getD x.ix 0 : ℤ) - vs.getD y.ix 0) % q).toNat =
      (vs.getD x.ix 0 + (q - vs.getD y.ix 0)) % q := by
    rw [← Nat.add_sub_assoc hy.le, Nat.add_comm (vs.getD x.ix 0)]
    exact (ArithmeticCircuit.sub_toNat (by omega)).symm
  rw [gateValue, hsub]
  exact WireModQ.encode_minus hz hz' hd hq hword hy.le hlx hly

/-- Plain evaluation of a built circuit is the circuit over the integers modulo each wire's modulus,
exactly when the sums and products of its gates are words and its unreduced constants do no harm; so
are the sums, differences and multiples of labels, exactly when the sums of digits are words. -/
theorem evalPlain_iff {b : CircuitBuilder} (hb : CircuitBuilder.Built b)
    (hmoduli : ∀ q ∈ b.circ.gateModuli, 0 < q) {gb ev : List ℕ}
    (hgb : Reduced gb b.circ.garblerInputRefs) (hev : Reduced ev b.circ.evaluatorInputRefs) :
    (((∃ cache, b.circ.gatesRun gb ev = .ok cache ∧ b.circ.Carried gb ev cache) ∧
        evalPlain b.circ gb ev = .ok (b.circ.outputRefs.map fun r => b.circ.value gb ev r.ix)) ↔
      b.circ.ExactBefore gb ev b.circ.gates.length ∧
        ∀ r ∈ b.circ.outputRefs, b.circ.held gb ev r.ix = b.circ.value gb ev r.ix) ∧
    (b.circ.ReducedConstants →
      (evalPlain b.circ gb ev = .ok (b.circ.outputRefs.map fun r => b.circ.value gb ev r.ix) ↔
        b.circ.ExactBefore gb ev b.circ.gates.length)) ∧
    (∀ q, 0 < q → 2 * q ≤ 2 ^ 16 → LabelsCarry gb ev (b.circ.values gb ev) q) ∧
    ∀ (q n : ℕ) (x y : WireModQ), x.Valid q n → y.Valid q n →
      (x.plus y = some (WireModQ.digitwise (fun a c => (a + c) % q) x y) ↔
        ∀ p ∈ x.ds.zip y.ds, p.1 + p.2 < 2 ^ 16) := by
  have h : b.circ.Runnable gb ev := ⟨hb.ok.wellFormed, hmoduli, hgb, hev⟩
  exact ⟨ArithmeticCircuit.carried_iff h, ArithmeticCircuit.evalPlain_reduced_iff h,
    fun q hq hword => labelsCarry gb ev _ hq hword,
    fun q n x y hx hy => ⟨WireModQ.words_of_plus, WireModQ.plus_eq hx hy⟩⟩

/-- The product of two inputs, one of each party. -/
def productBuilder (q : ℕ) : CircuitBuilder :=
  let (x, b) := CircuitBuilder.new.garblerInput q
  let (y, b) := b.evaluatorInput q
  let (z, b) := b.mul x y
  b.output z

theorem productBuilder_built (q : ℕ) : CircuitBuilder.Built (productBuilder q) := by
  have h := (CircuitBuilder.Built.new.garblerInput q).evaluatorInput q
  have hmul := h.mul (x := ⟨0, q⟩) (y := ⟨1, q⟩) rfl rfl
  exact hmul.output (h.ok.known_mul ⟨0, q⟩ ⟨1, q⟩)

theorem productBuilder_constants {q : ℕ} (hgates : (productBuilder q).circ.gates =
    [.garblerInput 0, .evaluatorInput 0, .mul ⟨0, q⟩ ⟨1, q⟩ 0 none]) :
    (productBuilder q).circ.ReducedConstants := by
  intro i val p hgate
  have hmem := List.mem_of_getElem? hgate
  rw [hgates] at hmem
  simp at hmem

theorem evalPlain_iff_seven : evalPlain (productBuilder 7).circ [3] [5] = .ok [1] := by
  have hiff := (@evalPlain_iff _ (productBuilder_built 7) (by decide) [3] [5]
    (by decide) (by decide)).2.1 (productBuilder_constants (by decide))
  refine hiff.2 ?_
  rintro (_ | _ | _ | i) gate q hi hgate hq
  · cases hgate
    exact trivial
  · cases hgate
    exact trivial
  · cases hgate
    cases hq
    decide
  · have hlength : (productBuilder 7).circ.gates.length = 3 := by decide
    omega

/-- The product of `300` and `300` modulo `1009` leaves the words of 16 bits. -/
theorem evalPlain_product_panic :
    ¬ ∀ b : CircuitBuilder, CircuitBuilder.Built b →
      (∀ q ∈ b.circ.gateModuli, 2 ≤ q ∧ q < 2 ^ 16) → b.circ.ReducedConstants →
      ∀ gb ev : List ℕ, Reduced gb b.circ.garblerInputRefs → Reduced ev b.circ.evaluatorInputRefs →
      evalPlain b.circ gb ev = .ok (b.circ.outputRefs.map fun r => b.circ.value gb ev r.ix) := by
  intro h
  have heval := h (productBuilder 1009) (productBuilder_built 1009) (by decide)
    (productBuilder_constants (by decide)) [300] [300] (by decide) (by decide)
  revert heval
  decide

end EdaBitGen.FancyGarbling
