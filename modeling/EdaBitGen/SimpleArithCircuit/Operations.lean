import EdaBitGen.SimpleArithCircuit.Numbering

/-!
# The operations that are read

If literals are numbers of input wires and only inputs are copied, every assertion of the reader
holds and every gate becomes one operation.
-/

namespace EdaBitGen.Bristol

open Inferno (Circuit Op)

/-! ## All gates -/

theorem firstUses_append_singleton (tniw : ℕ) (done : List Gate) (g : Gate) :
    BristolCircuit.firstUses tniw (done ++ [g]) =
      g.operands.foldl (use tniw) (BristolCircuit.firstUses tniw done) := by
  rw [BristolCircuit.firstUses, List.flatMap_append, List.foldl_append, List.flatMap_cons,
    List.flatMap_nil, List.append_nil]
  rfl

namespace BristolCircuit

variable {c : BristolCircuit}

/-- Literals are numbers of input wires. -/
def LiteralsFit (c : BristolCircuit) : Prop :=
  ∀ value out, Gate.eq value out ∈ c.gates → value.toNat < c.tniw

/-- Only input wires are copied. -/
def CopiesInputs (c : BristolCircuit) : Prop :=
  ∀ a out, Gate.eqw a out ∈ c.gates → a < c.tniw

/-- The table before the first gate. -/
def start (c : BristolCircuit) : Mapping :=
  ⟨(List.replicate (c.nwires + 1) (0, WireKind.unassigned)).set c.tniw (c.tniw, .constant), 0,
    c.tniw + 1, []⟩

theorem tniw_le : c.tniw ≤ c.nwires := Nat.le_add_right _ _

theorem numbered_start : Numbered c.tniw c.nwires [] [] c.start := by
  have hle := c.tniw_le
  refine ⟨?_, rfl, rfl, fun a ha => ?_, fun a ha ha' => ?_⟩
  · rw [start, List.length_set, List.length_replicate]
  · have hlt : a < c.nwires + 1 := by omega
    rw [start, List.getElem?_set, if_neg (by omega), List.getElem?_replicate, if_pos hlt]
    simp
  · have hlt : a + 1 < c.nwires + 1 := by omega
    rw [start, List.getElem?_set, if_neg (by omega), List.getElem?_replicate, if_pos hlt]
    simp

theorem operands_of (hlit : c.LiteralsFit) {before after : List Gate} {g : Gate}
    (hsplit : c.gates = before ++ g :: after) :
    ∀ a ∈ g.operands, a < c.tniw ∨ a ∈ outs before := by
  intro a ha
  have htop := c.topological before g after hsplit
  cases g with
  | eq value out =>
    have hmem : Gate.eq value out ∈ c.gates := by rw [hsplit]; simp
    rw [List.mem_singleton.1 ha]
    exact .inl (hlit value out hmem)
  | and b b' o => exact htop a ha
  | xor b b' o => exact htop a ha
  | inv b o => exact htop a ha
  | eqw b o => exact htop a ha

theorem numbered_run (hlit : c.LiteralsFit) : ∃ m, c.gates.foldlM (mapGate c.tniw) c.start = .ok m ∧
    Numbered c.tniw c.nwires (firstUses c.tniw c.gates) (outs c.gates) m := by
  have hrun : ∀ done rest : List Gate, c.gates = done ++ rest → ∀ m : Mapping,
      Numbered c.tniw c.nwires (firstUses c.tniw done) (outs done) m →
      ∃ m', rest.foldlM (mapGate c.tniw) m = .ok m' ∧
        Numbered c.tniw c.nwires (firstUses c.tniw c.gates) (outs c.gates) m' := by
    intro done rest
    induction rest generalizing done with
    | nil =>
      intro hsplit m hm
      rw [List.append_nil] at hsplit
      rw [hsplit]
      exact ⟨m, rfl, hm⟩
    | cons g rest ih =>
      intro hsplit m hm
      have hwritten : ∀ b ∈ outs done, c.tniw ≤ b ∧ b < c.nwires := by
        intro b hb
        apply c.mem_outs b
        rw [hsplit, outs, List.map_append]
        exact List.mem_append_left _ hb
      have hg : g.out ∈ outs c.gates := by
        rw [hsplit, outs]
        simp
      have hnew : g.out ∉ outs done := by
        have hnodup := c.nodup
        rw [hsplit, outs, List.map_append, List.map_cons] at hnodup
        intro hmem
        exact (List.nodup_append.1 hnodup).2.2 _ hmem _ List.mem_cons_self rfl
      obtain ⟨m₁, hm₁, h₁⟩ := hm.mapGate c.tniw_le hwritten (operands_of hlit hsplit)
        (c.mem_outs _ hg) hnew
      have houts : outs done ++ [g.out] = outs (done ++ [g]) := by
        rw [outs, outs, List.map_append, List.map_singleton]
      rw [← firstUses_append_singleton, houts] at h₁
      obtain ⟨m₂, hm₂, h₂⟩ := ih (done ++ [g]) (by rw [hsplit, List.append_assoc]; rfl) m₁ h₁
      refine ⟨m₂, ?_, h₂⟩
      rw [List.foldlM_cons, hm₁, ok_bind, hm₂]
  exact hrun [] c.gates rfl c.start numbered_start

/-- The number that the reader gives to a wire. -/
def number (c : BristolCircuit) (a : ℕ) : ℕ :=
  if a < c.tniw then c.renumber a else c.tniw + 1 + (outs c.gates).idxOf a

theorem foldl_use_spec (tniw : ℕ) (xs : List ℕ) {seen : List ℕ} (hnodup : seen.Nodup)
    (hlt : ∀ a ∈ seen, a < tniw) : (xs.foldl (use tniw) seen).Nodup ∧
      ∀ a, a ∈ xs.foldl (use tniw) seen ↔ a ∈ seen ∨ a ∈ xs ∧ a < tniw := by
  induction xs generalizing seen with
  | nil => exact ⟨hnodup, by simp⟩
  | cons x xs ih =>
    by_cases hx : x < tniw ∧ x ∉ seen
    · have huse : use tniw seen x = seen ++ [x] := if_pos hx
      have hnodup' : (seen ++ [x]).Nodup :=
        List.nodup_append.2 ⟨hnodup, List.nodup_singleton x, by
          rintro a ha b hb rfl
          exact hx.2 (List.mem_singleton.1 hb ▸ ha)⟩
      have hlt' : ∀ a ∈ seen ++ [x], a < tniw := by
        intro a ha
        rcases List.mem_append.1 ha with h | h
        · exact hlt a h
        · exact List.mem_singleton.1 h ▸ hx.1
      obtain ⟨h₁, h₂⟩ := ih hnodup' hlt'
      rw [List.foldl_cons, huse]
      refine ⟨h₁, fun a => (h₂ a).trans ?_⟩
      by_cases hax : a = x
      · subst hax
        simp [hx.1]
      · simp [hax]
    · have huse : use tniw seen x = seen := if_neg hx
      obtain ⟨h₁, h₂⟩ := ih hnodup hlt
      rw [List.foldl_cons, huse]
      refine ⟨h₁, fun a => (h₂ a).trans ?_⟩
      by_cases hax : a = x
      · subst hax
        have himp : a < tniw → a ∈ seen := fun h => by_contra fun hn => hx ⟨h, hn⟩
        simp only [List.mem_cons, true_or, true_and]
        constructor
        · rintro (h | h)
          · exact .inl h
          · exact .inr h.2
        · rintro (h | h)
          · exact .inl h
          · exact .inl (himp h)
      · simp [hax]

theorem renumber_lt {g : Gate} (hg : g ∈ c.gates) {a : ℕ} (ha : a ∈ g.operands)
    (hlt : a < c.tniw) : a ∈ firstUses c.tniw c.gates ∧ c.renumber a < c.tniw := by
  obtain ⟨hnodup, hmem⟩ := foldl_use_spec c.tniw (c.gates.flatMap Gate.operands)
    List.nodup_nil (by simp)
  have hin : a ∈ firstUses c.tniw c.gates :=
    (hmem a).2 (.inr ⟨List.mem_flatMap.2 ⟨g, hg, ha⟩, hlt⟩)
  have hsubset : firstUses c.tniw c.gates ⊆ List.range c.tniw := by
    intro b hb
    rcases (hmem b).1 hb with h | h
    · cases h
    · exact List.mem_range.2 h.2
  have hlen := (List.subperm_of_subset hnodup hsubset).length_le
  rw [List.length_range] at hlen
  exact ⟨hin, (List.idxOf_lt_length_of_mem hin).trans_le hlen⟩

theorem lookup {m : Mapping}
    (hm : Numbered c.tniw c.nwires (firstUses c.tniw c.gates) (outs c.gates) m) {g : Gate}
    (hg : g ∈ c.gates) {a : ℕ} (ha : a ∈ g.operands ∧ a < c.tniw ∨ a ∈ outs c.gates) :
    m.wl[shift c.tniw a]? = some (c.number a, if a < c.tniw then .input else .output) := by
  rcases ha with ⟨hop, hlt⟩ | hmem
  · have hin := (renumber_lt hg hop hlt).1
    rw [shift, if_neg (Nat.not_le.2 hlt), hm.input a hlt, if_pos hin, number, if_pos hlt, if_pos hlt]
    rfl
  · obtain ⟨hge, hlt⟩ := c.mem_outs a hmem
    have hge' : c.tniw ≤ a := hge
    rw [shift, if_pos hge', hm.output a hge' hlt, if_pos hmem, number, if_neg (Nat.not_lt.2 hge'),
      if_neg (Nat.not_lt.2 hge')]

/-- The operation of a gate. -/
def op (c : BristolCircuit) : Gate → Op F2
  | .and a b _ => .mul (c.number a) (c.number b)
  | .xor a b _ => .add (c.number a) (c.number b)
  | .inv a _ => .add (c.number a) c.tniw
  | .eq value _ => .constant (if value then 1 else 0)
  | .eqw a _ => .copy (c.number a)

theorem emit_eq (hlit : c.LiteralsFit) (hcopies : c.CopiesInputs) {m : Mapping}
    (hm : Numbered c.tniw c.nwires (firstUses c.tniw c.gates) (outs c.gates) m) {g : Gate}
    (hg : g ∈ c.gates) (e : Emission) :
    e.emit c.tniw c.tnow c.nwires m.wl (g.entry c.tniw) =
      e.push c.nwires c.tnow (c.op g) (g.out + 1) := by
  have hout : g.out ∈ outs c.gates := List.mem_map_of_mem hg
  have hge : c.tniw ≤ g.out := (c.mem_outs _ hout).1
  have hwout := lookup hm hg (.inr hout)
  have hshift : shift c.tniw g.out = g.out + 1 := if_pos hge
  rw [hshift, if_neg (Nat.not_lt.2 hge)] at hwout
  obtain ⟨before, after, hsplit⟩ := List.append_of_mem hg
  have hwire : ∀ a ∈ g.operands, m.wl[shift c.tniw a]? =
      some (c.number a, if a < c.tniw then .input else .output) := by
    intro a ha
    rcases operands_of hlit hsplit a ha with hlt | hmem
    · exact lookup hm hg (.inl ⟨ha, hlt⟩)
    · apply lookup hm hg
      rw [hsplit, outs, List.map_append]
      exact .inr (List.mem_append_left _ hmem)
  have hsource : ∀ a, (shift c.tniw a < c.tniw ∧
      (if a < c.tniw then WireKind.input else .output) = .input) ∨
      (if a < c.tniw then WireKind.input else .output) = .output := by
    intro a
    by_cases hlt : a < c.tniw
    · rw [if_pos hlt, shift, if_neg (Nat.not_le.2 hlt)]
      exact .inl ⟨hlt, rfl⟩
    · exact .inr (if_neg hlt)
  obtain ⟨⟨third, kind⟩, hthird⟩ : ∃ third, m.wl[shift c.tniw 0]? = some third := by
    have hlen := hm.length_wl
    have hnwires : 0 < c.nwires := by
      have hlt := (c.mem_outs _ hout).2
      exact (Nat.zero_le _).trans_lt hlt
    have hlt : shift c.tniw 0 < m.wl.length := by
      rw [shift, hlen]
      split_ifs <;> omega
    exact ⟨_, List.getElem?_eq_getElem hlt⟩
  simp only [Emission.emit, Gate.entry]
  cases g with
  | and a b o | xor a b o =>
    have ha := hwire a List.mem_cons_self
    have hb := hwire b (List.mem_cons_of_mem _ List.mem_cons_self)
    simp only [Gate.out] at hwout hshift
    simp only [Gate.kind, Gate.operands, Gate.sources, Gate.out, List.cons_append, List.nil_append,
      List.getD_cons_zero, List.getD_cons_succ, hshift, nth_of_some ha, nth_of_some hb,
      nth_of_some hwout, ok_bind, ensure_of (hsource a), ensure_of (hsource b), ensure_of trivial]
    rfl
  | inv a o =>
    have ha := hwire a List.mem_cons_self
    simp only [Gate.out] at hwout hshift
    simp only [Gate.kind, Gate.operands, Gate.sources, Gate.out, List.cons_append, List.nil_append,
      List.getD_cons_zero, List.getD_cons_succ, hshift, nth_of_some ha, nth_of_some hthird,
      nth_of_some hwout, ok_bind, ensure_of (hsource a), ensure_of trivial]
    rfl
  | eq value o =>
    have hlt := hlit value o hg
    have ha := hwire value.toNat List.mem_cons_self
    have hsame : shift c.tniw value.toNat = value.toNat := if_neg (Nat.not_le.2 hlt)
    rw [hsame, if_pos hlt] at ha
    simp only [Gate.out] at hwout hshift
    simp only [Gate.kind, Gate.operands, Gate.out, List.cons_append, List.nil_append,
      List.getD_cons_zero, List.getD_cons_succ, hshift, hsame, nth_of_some ha, nth_of_some hthird,
      nth_of_some hwout, ok_bind, ensure_of trivial]
    cases value <;> rfl
  | eqw a o =>
    have hlt := hcopies a o hg
    have ha := hwire a List.mem_cons_self
    rw [if_pos hlt] at ha
    simp only [Gate.out] at hwout hshift
    simp only [Gate.kind, Gate.operands, Gate.sources, Gate.out, List.cons_append, List.nil_append,
      List.getD_cons_zero, List.getD_cons_succ, hshift, nth_of_some ha, nth_of_some hthird,
      nth_of_some hwout, ok_bind, ensure_of trivial]
    rfl

/-! ## The file -/

/-- The operations before the first gate. -/
def firstOps (c : BristolCircuit) : Emission :=
  ⟨[.constant 1], List.replicate (c.tnow + 1) 0, c.tniw + 1⟩

/-- The copies of the outputs. -/
def copies (c : BristolCircuit) (owl : List ℕ) : List (Op F2) :=
  (List.range c.tnow).map fun i => .copy (owl.getD (i + 1) 0)

theorem read_lines (c : BristolCircuit) : readBristolFashion c.lines =
    (c.gates.foldlM (mapGate c.tniw) c.start >>= fun m =>
      m.gl.foldlM (Emission.emit c.tniw c.tnow c.nwires m.wl) c.firstOps >>= fun e =>
        match Circuit.new c.tniw c.tnow (e.ops ++ c.copies e.owl) with
        | some circuit => .ok circuit
        | none => .error .panic) := by
  have hgates : ∀ k g, c.gates[k]? = some g → c.lines[3 + (0 + k + 1)]? = some g.line := by
    intro k g hk
    have hindex : 3 + (0 + k + 1) = k + 4 := by omega
    rw [hindex, lines, List.getElem?_append_right (by simp)]
    simp [hk]
  have hloop := foldlM_readGate c.tniw hgates c.start
  simp only [Nat.zero_add] at hloop
  have hsize : c.tniw < (List.replicate (c.nwires + 1) (0, WireKind.unassigned)).length := by
    have hle := c.tniw_le
    rw [List.length_replicate]
    omega
  have hinputs : valueLine 2 "Unable to parse line" (c.lines.getD 1 []) = .ok c.tniw :=
    valueLine_num _ _ _
  have houtputs : valueLine 3 "param error" (c.lines.getD 2 []) = .ok c.tnow :=
    valueLine_num _ _ _
  have hhead : lineToNums (c.lines.getD 0 []) = .ok [c.gates.length, c.nwires] := rfl
  have hempty : lineToNums (c.lines.getD 3 []) = .ok [] := rfl
  rw [readBristolFashion, hhead]
  simp only [ok_bind, hinputs, houtputs, hempty, ensure_of hsize]
  rw [← hloop]
  rfl

/-- The operations of the gates `done`, with the places of the outputs among them. -/
structure Emitted (c : BristolCircuit) (done : List Gate) (e : Emission) : Prop where
  ops_eq : e.ops = .constant 1 :: done.map c.op
  cow_eq : e.cow = c.tniw + 1 + done.length
  length_owl : e.owl.length = c.tnow + 1
  owl_eq : ∀ k < c.tnow, e.owl.getD (k + 1) 0 =
    if c.nwires - c.tnow + k ∈ outs done then
      c.tniw + 1 + (outs done).idxOf (c.nwires - c.tnow + k)
    else 0

theorem Emitted.push {done : List Gate} {e : Emission} (h : c.Emitted done e) {g : Gate}
    (hlt : g.out < c.nwires) (hnew : g.out ∉ outs done) :
    ∃ e', e.push c.nwires c.tnow (c.op g) (g.out + 1) = .ok e' ∧ c.Emitted (done ++ [g]) e' := by
  have hle : c.tnow ≤ c.nwires := c.outputs_le
  have houts : outs (done ++ [g]) = outs done ++ [g.out] := by
    rw [outs, List.map_append, List.map_singleton]
    rfl
  refine ⟨_, by rw [Emission.push, ensure_of hle]; rfl, ?_, ?_, ?_, fun k hk => ?_⟩
  · rw [h.ops_eq, List.map_append, List.map_singleton, List.cons_append]
  · change e.cow + 1 = _
    rw [h.cow_eq, List.length_append, List.length_singleton, Nat.add_assoc]
  · dsimp only
    split_ifs
    · rw [List.length_set, h.length_owl]
    · exact h.length_owl
  · have hold := h.owl_eq k hk
    have hlen := h.length_owl
    have hcow := h.cow_eq
    rw [houts]
    dsimp only
    by_cases hat : g.out = c.nwires - c.tnow + k
    · -- the place of this output
      have hplace : c.tnow - (c.nwires - (g.out + 1)) = k + 1 := by omega
      rw [if_pos (by omega), hplace, ← hat, if_pos (by simp), List.idxOf_append_of_notMem hnew,
        List.getD_eq_getElem?_getD, List.getElem?_set, if_pos rfl, if_pos (by omega), hcow]
      simp [outs]
    · have hsame : (if c.nwires - c.tnow ≤ g.out + 1 then
          e.owl.set (c.tnow - (c.nwires - (g.out + 1))) e.cow else e.owl).getD (k + 1) 0 =
          e.owl.getD (k + 1) 0 := by
        split_ifs with hin
        · have hne : c.tnow - (c.nwires - (g.out + 1)) ≠ k + 1 := by omega
          rw [List.getD_eq_getElem?_getD, List.getElem?_set, if_neg hne, List.getD_eq_getElem?_getD]
        · rfl
      rw [hsame, hold]
      by_cases hmem : c.nwires - c.tnow + k ∈ outs done
      · rw [if_pos hmem, if_pos (List.mem_append_left _ hmem), List.idxOf_append_of_mem hmem]
      · rw [if_neg hmem, if_neg]
        simp [hmem, Ne.symm hat]

/-- The place of an output. -/
def outputSource (c : BristolCircuit) (a : ℕ) : ℕ :=
  if a ∈ outs c.gates then c.tniw + 1 + (outs c.gates).idxOf a else 0

/-- The operations that are read. -/
def ops (c : BristolCircuit) : List (Op F2) :=
  .constant 1 :: c.gates.map c.op ++ c.outputs.map fun a => .copy (c.outputSource a)

theorem emitted_run (hlit : c.LiteralsFit) (hcopies : c.CopiesInputs) {m : Mapping}
    (hm : Numbered c.tniw c.nwires (firstUses c.tniw c.gates) (outs c.gates) m) :
    ∃ e, (c.gates.map (Gate.entry c.tniw)).foldlM (Emission.emit c.tniw c.tnow c.nwires m.wl)
      c.firstOps = .ok e ∧ c.Emitted c.gates e := by
  have hrun : ∀ done rest : List Gate, c.gates = done ++ rest → ∀ e, c.Emitted done e →
      ∃ e', (rest.map (Gate.entry c.tniw)).foldlM
        (Emission.emit c.tniw c.tnow c.nwires m.wl) e = .ok e' ∧ c.Emitted c.gates e' := by
    intro done rest
    induction rest generalizing done with
    | nil =>
      intro hsplit e he
      rw [List.append_nil] at hsplit
      exact ⟨e, rfl, by rwa [hsplit]⟩
    | cons g rest ih =>
      intro hsplit e he
      have hg : g ∈ c.gates := by rw [hsplit]; simp
      have hlt := (c.mem_outs g.out (List.mem_map_of_mem hg)).2
      have hnew : g.out ∉ outs done := by
        have hnodup := c.nodup
        rw [hsplit, outs, List.map_append, List.map_cons] at hnodup
        intro hmem
        exact (List.nodup_append.1 hnodup).2.2 _ hmem _ List.mem_cons_self rfl
      obtain ⟨e₁, he₁, h₁⟩ := he.push hlt hnew
      obtain ⟨e₂, he₂, h₂⟩ := ih (done ++ [g]) (by rw [hsplit, List.append_assoc]; rfl) e₁ h₁
      refine ⟨e₂, ?_, h₂⟩
      rw [List.map_cons, List.foldlM_cons, emit_eq hlit hcopies hm hg, he₁, ok_bind, he₂]
  refine hrun [] c.gates rfl c.firstOps ⟨rfl, rfl, List.length_replicate, fun k hk => ?_⟩
  rw [firstOps, List.getD_eq_getElem?_getD, List.getElem?_replicate]
  split_ifs <;> simp_all [outs]

theorem read_eq (hlit : c.LiteralsFit) (hcopies : c.CopiesInputs) : readBristolFashion c.lines =
    match Circuit.new c.tniw c.tnow c.ops with
    | some circuit => .ok circuit
    | none => .error .panic := by
  obtain ⟨m, hrun, hm⟩ := numbered_run hlit
  obtain ⟨e, hemit, he⟩ := emitted_run hlit hcopies hm
  have hgl : m.gl = c.gates.map (Gate.entry c.tniw) := gl_foldlM_mapGate rfl hrun
  have hops : e.ops ++ c.copies e.owl = c.ops := by
    rw [he.ops_eq, ops, copies, outputs, List.map_map]
    congr 1
    refine List.map_congr_left fun k hk => ?_
    rw [he.owl_eq k (List.mem_range.1 hk)]
    rfl
  rw [read_lines, hrun, ok_bind, hgl, hemit, ok_bind, hops]

end BristolCircuit

end EdaBitGen.Bristol
