import EdaBitGen.SimpleArithCircuit.Operations
import EdaBitGen.SimpleArithCircuit.Wires

/-!
# What is read from a Bristol Fashion file

A circuit is read as it is meant if and only if its outputs do not depend on the numbers of its
inputs, literals are numbers of input wires, and copied wires are inputs.
-/

namespace EdaBitGen.Bristol

open Inferno (Circuit Op opValue)

namespace BristolCircuit

variable {c : BristolCircuit}

/-! ## Evaluation -/

theorem length_ops : c.ops.length = 1 + c.gates.length + c.tnow := by
  rw [ops, List.length_append, List.length_cons, List.length_map, List.length_map, outputs,
    List.length_map, List.length_range]
  omega

theorem mem_zipIdx_ops {p : Op F2 × ℕ} (hp : p ∈ c.ops.zipIdx) :
    p = (.constant 1, 0) ∨
      (∃ j g, c.gates[j]? = some g ∧ p = (c.op g, j + 1)) ∨
      ∃ k a, c.outputs[k]? = some a ∧ p = (.copy (c.outputSource a), 1 + c.gates.length + k) := by
  obtain ⟨op, s⟩ := p
  have hop : c.ops[s]? = some op := List.mem_zipIdx_iff_getElem?.1 hp
  rw [ops, List.cons_append] at hop
  cases s with
  | zero =>
    rw [List.getElem?_cons_zero] at hop
    exact .inl (by rw [← Option.some.inj hop])
  | succ j =>
    rw [List.getElem?_cons_succ] at hop
    rcases Nat.lt_or_ge j c.gates.length with hlt | hge
    · rw [List.getElem?_append_left (by rw [List.length_map]; exact hlt), List.getElem?_map] at hop
      obtain ⟨g, hg, rfl⟩ := Option.map_eq_some_iff.1 hop
      exact .inr (.inl ⟨j, g, hg, rfl⟩)
    · rw [List.getElem?_append_right (by rw [List.length_map]; exact hge), List.length_map,
        List.getElem?_map] at hop
      obtain ⟨a, ha, rfl⟩ := Option.map_eq_some_iff.1 hop
      refine .inr (.inr ⟨j - c.gates.length, a, ha, ?_⟩)
      congr 1
      omega

theorem split_gates {j : ℕ} {g : Gate} (hj : c.gates[j]? = some g) :
    c.gates = c.gates.take j ++ g :: c.gates.drop (j + 1) ∧ (c.gates.take j).length = j := by
  obtain ⟨hlt, rfl⟩ := List.getElem?_eq_some_iff.1 hj
  constructor
  · rw [← List.drop_eq_getElem_cons hlt, List.take_append_drop]
  · rw [List.length_take]
    omega

theorem number_lt (hlit : c.LiteralsFit) {j : ℕ} {g : Gate} (hj : c.gates[j]? = some g) {a : ℕ}
    (ha : a ∈ g.operands) : c.number a < c.tniw + (j + 1) := by
  obtain ⟨hsplit, hlen⟩ := split_gates hj
  rw [number]
  split_ifs with hlt
  · have h := (renumber_lt (List.mem_of_getElem? hj) ha hlt).2
    omega
  · have hmem := (operands_of hlit hsplit a ha).resolve_left hlt
    have hidx := List.idxOf_lt_length_of_mem hmem
    have houts : outs c.gates = outs (c.gates.take j) ++ outs (g :: c.gates.drop (j + 1)) := by
      rw [outs, outs, outs, ← List.map_append, ← hsplit]
    rw [houts, List.idxOf_append_of_mem hmem]
    rw [outs, List.length_map, hlen] at hidx
    rw [outs]
    omega

theorem outputSource_lt {a : ℕ} : c.outputSource a < c.tniw + (1 + c.gates.length) := by
  rw [outputSource]
  split_ifs with hmem
  · have hidx := List.idxOf_lt_length_of_mem hmem
    rw [outs, List.length_map] at hidx
    rw [outs]
    omega
  · omega

theorem args_ops (hlit : c.LiteralsFit) {p : Op F2 × ℕ} (hp : p ∈ c.ops.zipIdx) :
    ∀ n ∈ p.1.args, n < c.tniw + p.2 := by
  rcases mem_zipIdx_ops hp with rfl | ⟨j, g, hj, rfl⟩ | ⟨k, a, hk, rfl⟩
  · intro n hn
    cases hn
  · have hnumber := fun a ha => number_lt hlit (a := a) hj ha
    cases g with
    | and a b o | xor a b o =>
      intro n hn
      rcases List.mem_pair.1 hn with rfl | rfl
      · exact hnumber a List.mem_cons_self
      · exact hnumber b (List.mem_cons_of_mem _ List.mem_cons_self)
    | inv a o =>
      intro n hn
      rcases List.mem_pair.1 hn with rfl | rfl
      · exact hnumber a List.mem_cons_self
      · exact Nat.lt_add_of_pos_right (Nat.succ_pos j)
    | eq value o =>
      intro n hn
      cases hn
    | eqw a o =>
      intro n hn
      rw [List.mem_singleton.1 hn]
      exact hnumber a List.mem_cons_self
  · intro n hn
    have hlt := c.outputSource_lt (a := a)
    rw [List.mem_singleton.1 hn]
    change _ < c.tniw + (1 + c.gates.length + k)
    omega

/-- The circuit that is read. -/
def circuit (c : BristolCircuit) (hlit : c.LiteralsFit) : Circuit F2 where
  ops := c.ops
  ninputs := c.tniw
  noutputs := c.tnow
  noutputs_le := by
    rw [length_ops]
    omega
  args_lt := fun _ hp => args_ops hlit hp

theorem read_circuit (hlit : c.LiteralsFit) (hcopies : c.CopiesInputs) :
    readBristolFashion c.lines = .ok (c.circuit hlit) := by
  have hnew : Circuit.new c.tniw c.tnow c.ops = some (c.circuit hlit) :=
    dif_pos ⟨(c.circuit hlit).noutputs_le, (c.circuit hlit).args_lt⟩
  rw [read_eq hlit hcopies, hnew]

/-- What the reader makes of the inputs. -/
def reordered (c : BristolCircuit) (inputs : List F2) (a : ℕ) : F2 := inputs.getD (c.renumber a) 0

theorem getD_wires_circuit (hlit : c.LiteralsFit) {inputs : List F2}
    (hinputs : inputs.length = c.tniw) {a : ℕ} (ha : a < c.tniw) :
    ((c.circuit hlit).wires inputs).getD a 0 = inputs.getD a 0 := by
  rw [Inferno.wires_eq, Inferno.getD_foldl_addWire_of_lt]
  rwa [hinputs]

theorem exists_gate_of_mem_outs {a : ℕ} (ha : a ∈ outs c.gates) :
    ∃ g, c.gates[(outs c.gates).idxOf a]? = some g ∧ g.out = a := by
  have hidx := List.getElem?_idxOf ha
  rw [outs, List.getElem?_map] at hidx
  exact Option.map_eq_some_iff.1 hidx

theorem wires_circuit (hlit : c.LiteralsFit) {inputs : List F2} (hinputs : inputs.length = c.tniw)
    {j : ℕ} {g : Gate} (hj : c.gates[j]? = some g) :
    ((c.circuit hlit).wires inputs).getD (c.tniw + 1 + j) 0 =
      c.wires (c.reordered inputs) g.out := by
  have hwire : ∀ (s : ℕ) (op : Op F2), c.ops[s]? = some op →
      ((c.circuit hlit).wires inputs).getD (c.tniw + s) 0 =
        opValue (((c.circuit hlit).wires inputs).getD · 0) op := by
    intro s op hop
    have hmem : (op, s) ∈ (c.circuit hlit).ops.zipIdx := List.mem_zipIdx_iff_getElem?.2 hop
    have h := Inferno.getD_wires hinputs hmem
    rwa [Nat.add_comm] at h
  have hone : ((c.circuit hlit).wires inputs).getD c.tniw 0 = 1 := hwire 0 (.constant 1) rfl
  induction j using Nat.strong_induction_on generalizing g with
  | _ j ih =>
    obtain ⟨hsplit, hlen⟩ := split_gates hj
    have hmem : g ∈ c.gates := List.mem_of_getElem? hj
    have hoperand : ∀ a ∈ g.operands, ((c.circuit hlit).wires inputs).getD (c.number a) 0 =
        c.wires (c.reordered inputs) a := by
      intro a ha
      by_cases hlt : a < c.tniw
      · have hrenumber := (renumber_lt hmem ha hlt).2
        rw [number, if_pos hlt, getD_wires_circuit hlit hinputs hrenumber, c.wires_input _ hlt]
        rfl
      · have hbefore := (operands_of hlit hsplit a ha).resolve_left hlt
        have hnumber := number_lt hlit hj ha
        rw [number, if_neg hlt] at hnumber ⊢
        have hall : a ∈ outs c.gates := by
          rw [hsplit, outs, List.map_append]
          exact List.mem_append_left _ hbefore
        obtain ⟨g', hg', hout⟩ := exists_gate_of_mem_outs hall
        rw [ih _ (by omega) hg', hout]
    have hop : c.ops[j + 1]? = some (c.op g) := by
      have hlt := (List.getElem?_eq_some_iff.1 hj).1
      rw [ops, List.cons_append, List.getElem?_cons_succ,
        List.getElem?_append_left (by rw [List.length_map]; exact hlt), List.getElem?_map, hj,
        Option.map_some]
    have hplace : c.tniw + 1 + j = c.tniw + (j + 1) := by omega
    rw [hplace, hwire _ _ hop, c.wires_out _ hmem]
    cases g with
    | and a b o | xor a b o =>
      rw [Gate.value, ← hoperand a List.mem_cons_self,
        ← hoperand b (List.mem_cons_of_mem _ List.mem_cons_self)]
      rfl
    | inv a o =>
      rw [Gate.value, ← hoperand a List.mem_cons_self, ← hone]
      rfl
    | eq value o => rfl
    | eqw a o =>
      rw [Gate.value, ← hoperand a List.mem_cons_self]
      rfl

theorem mem_outs_of_le {a : ℕ} (hge : c.tniw ≤ a) (hlt : a < c.nwires) : a ∈ outs c.gates := by
  have hsubset : (outs c.gates).toFinset ⊆ Finset.Ico c.tniw c.nwires := by
    intro b hb
    exact Finset.mem_Ico.2 (c.mem_outs b (List.mem_toFinset.1 hb))
  have hcard : (Finset.Ico c.tniw c.nwires).card ≤ (outs c.gates).toFinset.card := by
    rw [Nat.card_Ico, List.toFinset_card_of_nodup c.nodup, outs, List.length_map, nwires,
      Nat.add_sub_cancel_left]
  rw [← List.mem_toFinset, Finset.eq_of_subset_of_card_le hsubset hcard]
  exact Finset.mem_Ico.2 ⟨hge, hlt⟩

theorem eval_circuit (hlit : c.LiteralsFit) {inputs : List F2} (hinputs : inputs.length = c.tniw) :
    (c.circuit hlit).eval inputs = c.outputs.map fun a =>
      if a < c.tniw then inputs.getD 0 0 else c.wires (c.reordered inputs) a := by
  have hlen : ((c.circuit hlit).wires inputs).length = c.tniw + (1 + c.gates.length + c.tnow) := by
    rw [Inferno.Circuit.length_wires, hinputs]
    congr 1
    exact length_ops
  have houtputs : c.outputs.length = c.tnow := by
    rw [outputs, List.length_map, List.length_range]
  have hnoutputs : (c.circuit hlit).noutputs = c.tnow := rfl
  apply List.ext_getElem
  · rw [Inferno.Circuit.eval, List.length_drop, hlen, hnoutputs, List.length_map, houtputs]
    omega
  intro k hk hk'
  rw [List.length_map] at hk'
  let a := c.outputs[k]
  have ha : c.outputs[k]? = some a := List.getElem?_eq_getElem hk'
  have hop : (c.circuit hlit).ops[1 + c.gates.length + k]? = some (.copy (c.outputSource a)) := by
    have hindex : 1 + c.gates.length + k = c.gates.length + k + 1 := by omega
    change c.ops[1 + c.gates.length + k]? = _
    rw [ops, List.cons_append, hindex, List.getElem?_cons_succ,
      List.getElem?_append_right (by rw [List.length_map]; omega), List.length_map,
      Nat.add_sub_cancel_left, List.getElem?_map, ha, Option.map_some]
  have hwire := Inferno.getD_wires (c := c.circuit hlit) hinputs
    (p := (.copy (c.outputSource a), 1 + c.gates.length + k)) (List.mem_zipIdx_iff_getElem?.2 hop)
  have heval : ((c.circuit hlit).eval inputs)[k] =
      ((c.circuit hlit).wires inputs).getD (c.outputSource a) 0 := by
    have hindex : ((c.circuit hlit).wires inputs).length - (c.circuit hlit).noutputs + k =
        1 + c.gates.length + k + (c.circuit hlit).ninputs := by
      change _ = 1 + c.gates.length + k + c.tniw
      rw [hlen, hnoutputs]
      omega
    simp only [Inferno.Circuit.eval, List.getElem_drop]
    rw [← List.getD_eq_getElem _ 0, hindex, hwire]
    rfl
  have haout : a < c.nwires := by
    have hle : c.tnow ≤ c.nwires := c.outputs_le
    have hvalue : a = c.nwires - c.tnow + k := by simp [a, outputs]
    omega
  rw [heval, List.getElem_map]
  change _ = if a < c.tniw then _ else _
  split_ifs with hlt
  · have hnot : a ∉ outs c.gates := fun hmem => absurd hlt (Nat.not_lt.2 (c.mem_outs a hmem).1)
    rw [outputSource, if_neg hnot, getD_wires_circuit hlit hinputs ((Nat.zero_le _).trans_lt hlt)]
  · have hmem := mem_outs_of_le (Nat.le_of_not_lt hlt) haout
    obtain ⟨g, hg, hout⟩ := exists_gate_of_mem_outs hmem
    rw [outputSource, if_pos hmem, wires_circuit hlit hinputs hg, hout]

/-! ## Files that are not read -/

/-- What a gate asserts of the wire table when its operation is emitted. -/
def Asserts (tniw : ℕ) (wl : List (ℕ × WireKind)) (g : Gate) : Prop :=
  (∃ n, wl[shift tniw g.out]? = some (n, .output)) ∧
    (∀ value o, g = .eq value o → shift tniw value.toNat ≤ 1 ∧
      ∃ n, wl[shift tniw value.toNat]? = some (n, .input)) ∧
    ∀ a o, g = .eqw a o → ∃ n, wl[shift tniw a]? = some (n, .input)

theorem asserts_of_emit {tniw tnow nwires : ℕ} {wl : List (ℕ × WireKind)} {g : Gate}
    {e e' : Emission} (h : e.emit tniw tnow nwires wl (g.entry tniw) = .ok e') :
    Asserts tniw wl g := by
  simp only [Emission.emit, Gate.entry, bind_eq_ok, nth_eq_ok] at h
  obtain ⟨⟨w1, wk1⟩, h1, ⟨w2, wk2⟩, h2, ⟨w3, wk3⟩, h3, h⟩ := h
  cases g with
  | and a b o | xor a b o =>
    simp only [Gate.kind, bind_eq_ok, ensure_eq_ok] at h
    obtain ⟨-, -, -, -, -, hout, -⟩ := h
    rw [hout] at h3
    exact ⟨⟨w3, h3⟩, by simp, by simp⟩
  | inv a o =>
    simp only [Gate.kind, bind_eq_ok, ensure_eq_ok] at h
    obtain ⟨-, -, -, hout, -⟩ := h
    rw [hout] at h2
    exact ⟨⟨w2, h2⟩, by simp, by simp⟩
  | eq value o =>
    simp only [Gate.kind, bind_eq_ok, ensure_eq_ok] at h
    obtain ⟨-, hin, -, hout, h⟩ := h
    rw [hin] at h1
    rw [hout] at h2
    refine ⟨⟨w2, h2⟩, fun v o' heq => ?_, by simp⟩
    cases heq
    refine ⟨?_, w1, h1⟩
    by_contra hgt
    have hshift : shift tniw (((Gate.eq value o).operands ++ [(Gate.eq value o).out, 0]).getD 0 0) =
        shift tniw value.toNat - 2 + 2 := by
      change shift tniw value.toNat = _
      omega
    rw [hshift] at h
    cases h
  | eqw a o =>
    simp only [Gate.kind, bind_eq_ok, ensure_eq_ok] at h
    obtain ⟨-, hin, -, hout, -⟩ := h
    rw [hin] at h1
    rw [hout] at h2
    refine ⟨⟨w2, h2⟩, by simp, fun a' o' heq => ?_⟩
    cases heq
    exact ⟨w1, h1⟩

theorem asserts_of_foldlM {tniw tnow nwires : ℕ} {wl : List (ℕ × WireKind)} {gates : List Gate}
    {e e' : Emission}
    (h : (gates.map (Gate.entry tniw)).foldlM (Emission.emit tniw tnow nwires wl) e = .ok e') :
    ∀ g ∈ gates, Asserts tniw wl g := by
  induction gates generalizing e with
  | nil => exact fun _ h => by cases h
  | cons g gates ih =>
    rw [List.map_cons, List.foldlM_cons, bind_eq_ok] at h
    obtain ⟨e₁, he₁, h⟩ := h
    rintro g' (- | ⟨-, hg'⟩)
    · exact asserts_of_emit he₁
    · exact ih h g' hg'

theorem literalsFit_of_read {circuit : Circuit F2} (h : readBristolFashion c.lines = .ok circuit) :
    c.LiteralsFit ∧ c.CopiesInputs := by
  rw [read_lines, bind_eq_ok] at h
  obtain ⟨m, hm, h⟩ := h
  rw [bind_eq_ok] at h
  obtain ⟨e, he, -⟩ := h
  rw [gl_foldlM_mapGate rfl hm] at he
  have hasserts := asserts_of_foldlM he
  -- the wire of a gate's output is no input
  have houtput : ∀ a n, c.tniw ≤ a → a < c.nwires → m.wl[shift c.tniw a]? ≠ some (n, .input) := by
    intro a n hge hlt hin
    obtain ⟨g, hg, rfl⟩ := List.mem_map.1 (mem_outs_of_le hge hlt)
    obtain ⟨n', hout⟩ := (hasserts g hg).1
    rw [hin] at hout
    cases hout
  constructor
  · intro value out hg
    obtain ⟨hle, n, hin⟩ := (hasserts _ hg).2.1 value out rfl
    by_contra hge
    have hge' := Nat.le_of_not_lt hge
    have hlt := (c.mem_outs out (List.mem_map_of_mem hg)).2
    rw [shift, if_pos hge'] at hle
    refine houtput value.toNat n hge' ?_ hin
    exact lt_of_le_of_lt (by omega) hlt
  · intro a out hg
    obtain ⟨n, hin⟩ := (hasserts _ hg).2.2 a out rfl
    by_contra hge
    obtain ⟨before, after, hsplit⟩ := List.append_of_mem hg
    have hmem : a ∈ outs before :=
      (c.topological before _ after hsplit a List.mem_cons_self).resolve_left hge
    have hall : a ∈ outs c.gates := by
      rw [hsplit, outs, List.map_append]
      exact List.mem_append_left _ hmem
    exact houtput a n (Nat.le_of_not_lt hge) (c.mem_outs a hall).2 hin

/-! ## When a file is read as it is meant -/

/-- Outputs that are input wires are the first one. -/
def PassesFirst (c : BristolCircuit) : Prop := ∀ a ∈ c.outputs, a < c.tniw → a = 0

/-- The outputs of gates do not change when the inputs are put in the order of their first use. -/
def IgnoresOrder (c : BristolCircuit) : Prop :=
  ∀ inputs : List F2, inputs.length = c.tniw → ∀ a ∈ c.outputs, c.tniw ≤ a →
    c.wires (c.reordered inputs) a = c.wires (inputs.getD · 0) a

/-- A file is read, and the circuit computes what the file says, if and only if literals are numbers
of inputs, only inputs are copied, and the outputs do not depend on the numbers of the inputs. -/
theorem readsTo_iff (c : BristolCircuit) : c.ReadsTo ↔
    c.LiteralsFit ∧ c.CopiesInputs ∧ c.PassesFirst ∧ c.IgnoresOrder := by
  constructor
  · rintro ⟨circuit, hread, heval⟩
    obtain ⟨hlit, hcopies⟩ := literalsFit_of_read hread
    rw [read_circuit hlit hcopies] at hread
    obtain rfl := Except.ok.inj hread
    have hvalues : ∀ inputs : List F2, inputs.length = c.tniw → ∀ a ∈ c.outputs,
        (if a < c.tniw then inputs.getD 0 0 else c.wires (c.reordered inputs) a) =
          c.wires (inputs.getD · 0) a := by
      intro inputs hinputs
      have h := heval inputs hinputs
      rw [eval_circuit hlit hinputs, eval] at h
      exact List.map_inj_left.1 h
    refine ⟨hlit, hcopies, fun a ha hlt => ?_, fun inputs hinputs a ha hge => ?_⟩
    · -- an input vector that is one at this wire only
      let inputs : List F2 := (List.range c.tniw).map fun i => if i = a then 1 else 0
      have hget : ∀ i < c.tniw, inputs.getD i 0 = if i = a then 1 else 0 := by
        intro i hi
        rw [List.getD_eq_getElem?_getD, List.getElem?_map, List.getElem?_range hi, Option.map_some,
          Option.getD_some]
      have h := hvalues inputs (by rw [List.length_map, List.length_range]) a ha
      rw [if_pos hlt, c.wires_input _ hlt, hget a hlt, hget 0 ((Nat.zero_le a).trans_lt hlt),
        if_pos rfl] at h
      by_contra hne
      rw [if_neg (Ne.symm hne)] at h
      exact zero_ne_one h
    · have h := hvalues inputs hinputs a ha
      rwa [if_neg (Nat.not_lt.2 hge)] at h
  · rintro ⟨hlit, hcopies, hfirst, horder⟩
    refine ⟨c.circuit hlit, read_circuit hlit hcopies, fun inputs hinputs => ?_⟩
    rw [eval_circuit hlit hinputs, eval]
    refine List.map_congr_left fun a ha => ?_
    split_ifs with hlt
    · rw [c.wires_input _ hlt, hfirst a ha hlt]
    · exact horder inputs hinputs a ha (Nat.le_of_not_lt hlt)

/-- The first input without the second one, where the second one is read first. -/
def withoutCircuit : BristolCircuit where
  wiv := [1, 1]
  wov := [1]
  gates := [.inv 1 2, .and 2 0 3]
  nodup := by decide
  mem_outs := by decide
  topological := by
    intro before g after hsplit a ha
    rcases before with - | ⟨g₁, - | ⟨g₂, before⟩⟩
    · obtain ⟨rfl, -⟩ := List.cons.inj hsplit
      rw [List.mem_singleton.1 ha]
      exact .inl (by decide)
    · obtain ⟨rfl, hrest⟩ := List.cons.inj hsplit
      obtain ⟨rfl, -⟩ := List.cons.inj hrest
      rcases List.mem_pair.1 ha with rfl | rfl
      · exact .inr (by decide)
      · exact .inl (by decide)
    · have hlen := congrArg List.length hsplit
      simp at hlen
  outputs_le := by decide

theorem not_readsTo_without : ¬ withoutCircuit.ReadsTo := by
  rintro ⟨circuit, hread, heval⟩
  obtain ⟨hlit, hcopies⟩ := literalsFit_of_read hread
  rw [read_circuit hlit hcopies] at hread
  obtain rfl := Except.ok.inj hread
  have h := heval [1, 0] rfl
  rw [eval_circuit hlit rfl] at h
  revert h
  decide

end BristolCircuit

end EdaBitGen.Bristol
