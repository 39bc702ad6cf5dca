import EdaBitGen.SimpleArithCircuit.Reader

/-!
# The numbers of wires

Lines of gates are read as these gates.  Input wires get numbers in the order in which they first
appear, and the outputs of gates in the order of the gates.
-/

namespace EdaBitGen.Bristol

/-! ## Lines -/

@[simp] theorem bind_eq_ok {ε α β : Type} {x : Except ε α} {f : α → Except ε β} {b : β} :
    (x >>= f) = .ok b ↔ ∃ a, x = .ok a ∧ f a = .ok b := by
  cases x <;> simp [Bind.bind, Except.bind]

theorem ok_bind {ε α β : Type} (a : α) (f : α → Except ε β) : (Except.ok a >>= f) = f a := rfl

theorem foldlM_induction {ε σ α : Type} {f : σ → α → Except ε σ} {P : σ → List α → Prop}
    (hstep : ∀ s done a s', P s done → f s a = .ok s' → P s' (done ++ [a])) {xs : List α} {s s' : σ}
    (hstart : P s []) (h : xs.foldlM f s = .ok s') : P s' xs := by
  have hrun : ∀ (xs done : List α) (s : σ), P s done → xs.foldlM f s = .ok s' → P s' (done ++ xs) := by
    intro xs
    induction xs with
    | nil =>
      intro done s hs h
      obtain rfl := Except.ok.inj h
      rwa [List.append_nil]
    | cons a xs ih =>
      intro done s hs h
      rw [List.foldlM_cons, bind_eq_ok] at h
      obtain ⟨s₁, hs₁, h⟩ := h
      have hfinal := ih (done ++ [a]) s₁ (hstep s done a s₁ hs hs₁) h
      rwa [List.append_assoc, List.singleton_append] at hfinal
  exact hrun xs [] s hstart h

@[simp] theorem nth_eq_ok {α : Type} {xs : List α} {i : ℕ} {x : α} :
    nth xs i = .ok x ↔ xs[i]? = some x := by
  rw [nth]
  cases xs[i]? <;> simp

theorem nth_of_some {α : Type} {xs : List α} {i : ℕ} {x : α} (h : xs[i]? = some x) :
    nth xs i = .ok x := nth_eq_ok.2 h

theorem ensure_eq_ok {p : Prop} [Decidable p] {u : Unit} : ensure p = .ok u ↔ p := by
  rw [ensure]
  split_ifs with h <;> simp [h]

theorem ensure_of {p : Prop} [Decidable p] (h : p) : ensure p = .ok () := ensure_eq_ok.2 h

theorem lineToNums_num (nums : List ℕ) : lineToNums (nums.map Token.num) = .ok nums := by
  induction nums with
  | nil => rfl
  | cons n nums ih =>
    rw [lineToNums] at ih ⊢
    rw [List.map_cons, List.mapM_cons, ih]
    rfl

theorem valueLine_num (linenum : ℕ) (message : String) (wv : List ℕ) :
    valueLine linenum message (.num wv.length :: wv.map Token.num) = .ok wv.sum := by
  have h := lineToNums_num (wv.length :: wv)
  rw [List.map_cons] at h
  rw [valueLine, h]
  simp [Bind.bind, Except.bind]

namespace Gate

/-- The kind of a gate. -/
def kind : Gate → GateKind
  | .and _ _ _ => .and
  | .xor _ _ _ => .xor
  | .inv _ _ => .inv
  | .eq _ _ => .eq
  | .eqw _ _ => .eqw

/-- What the reader remembers of a gate. -/
def entry (tniw : ℕ) (g : Gate) : GateKind × ℕ × ℕ × ℕ :=
  (g.kind, shift tniw ((g.operands ++ [g.out, 0]).getD 0 0),
    shift tniw ((g.operands ++ [g.out, 0]).getD 1 0),
    shift tniw ((g.operands ++ [g.out, 0]).getD 2 0))

end Gate

theorem readGate_eq (tniw : ℕ) {lines : List (List Token)} (m : Mapping) {i : ℕ} {g : Gate}
    (h : lines[3 + i]? = some g.line) : m.readGate tniw lines i =
      (g.operands.map (shift tniw)).foldlM Mapping.assignInput
        { m with gl := m.gl ++ [g.entry tniw] } >>= fun m => m.assignOutput (shift tniw g.out) := by
  have hline : lines.getD (3 + i) [] = g.line := by
    rw [List.getD_eq_getElem?_getD, h, Option.getD_some]
  have hout : ∀ m : Mapping, m.assignOutput (shift tniw g.out) =
      [shift tniw g.out].foldlM Mapping.assignOutput m := by
    intro m
    rw [List.foldlM_cons]
    simp only [List.foldlM_nil, bind_pure]
  simp only [hout]
  rw [Mapping.readGate, hline]
  cases g with
  | and a b o => rfl
  | xor a b o => rfl
  | inv a o => rfl
  | eq v o => rfl
  | eqw a o => rfl

/-! ## The gates in the mapping -/

/-- What the reader does for a gate. -/
def mapGate (tniw : ℕ) (m : Mapping) (g : Gate) : Except Failure Mapping :=
  (g.operands.map (shift tniw)).foldlM Mapping.assignInput
    { m with gl := m.gl ++ [g.entry tniw] } >>= fun m => m.assignOutput (shift tniw g.out)

theorem foldlM_readGate (tniw : ℕ) {lines : List (List Token)} {gates : List Gate} {start : ℕ}
    (h : ∀ k g, gates[k]? = some g → lines[3 + (start + k + 1)]? = some g.line) (m : Mapping) :
    ((List.range gates.length).map (start + · + 1)).foldlM (Mapping.readGate tniw lines) m =
      gates.foldlM (mapGate tniw) m := by
  induction gates generalizing start m with
  | nil => rfl
  | cons g gates ih =>
    have hfirst := readGate_eq tniw m (h 0 g rfl)
    have hrest : ∀ k g', gates[k]? = some g' → lines[3 + (start + 1 + k + 1)]? = some g'.line := by
      intro k g' hk
      have hline := h (k + 1) g' hk
      rwa [Nat.add_comm k 1, ← Nat.add_assoc start 1 k] at hline
    rw [List.length_cons, List.range_succ_eq_map, List.map_cons, List.map_map, List.foldlM_cons,
      List.foldlM_cons, hfirst]
    congr 1
    funext m'
    rw [← ih hrest]
    congr 1
    refine List.map_congr_left fun k _ => ?_
    rw [Function.comp_apply]
    omega

theorem gl_assignInput {m m' : Mapping} {iw : ℕ} (h : m.assignInput iw = .ok m') :
    m'.gl = m.gl := by
  rw [Mapping.assignInput, bind_eq_ok] at h
  obtain ⟨⟨k, kind⟩, -, h⟩ := h
  cases kind <;> obtain rfl := Except.ok.inj h <;> rfl

theorem gl_assignOutput {m m' : Mapping} {ow : ℕ} (h : m.assignOutput ow = .ok m') :
    m'.gl = m.gl := by
  rw [Mapping.assignOutput, bind_eq_ok] at h
  obtain ⟨⟨k, kind⟩, -, h⟩ := h
  cases kind <;> obtain rfl := Except.ok.inj h <;> rfl

theorem gl_mapGate {tniw : ℕ} {m m' : Mapping} {g : Gate} (h : mapGate tniw m g = .ok m') :
    m'.gl = m.gl ++ [g.entry tniw] := by
  rw [mapGate, bind_eq_ok] at h
  obtain ⟨m₁, hm₁, h⟩ := h
  rw [gl_assignOutput h]
  exact foldlM_induction (P := fun s _ => s.gl = m.gl ++ [g.entry tniw])
    (fun s _ a s' hs hstep => (gl_assignInput hstep).trans hs) rfl hm₁

theorem gl_foldlM_mapGate {tniw : ℕ} {m m' : Mapping} {gates : List Gate} (hm : m.gl = [])
    (h : gates.foldlM (mapGate tniw) m = .ok m') : m'.gl = gates.map (Gate.entry tniw) :=
  foldlM_induction (P := fun s done => s.gl = done.map (Gate.entry tniw))
    (fun s done g s' hs hstep => by
      rw [gl_mapGate hstep, hs, List.map_append, List.map_singleton]) hm h

/-! ## The numbers of wires -/

/-- Note an input wire that appears for the first time. -/
def use (tniw : ℕ) (seen : List ℕ) (a : ℕ) : List ℕ :=
  if a < tniw ∧ a ∉ seen then seen ++ [a] else seen

/-- The wires `seen` and `written` have numbers, in this order, and no others. -/
structure Numbered (tniw nwires : ℕ) (seen written : List ℕ) (m : Mapping) : Prop where
  length_wl : m.wl.length = nwires + 1
  ciw_eq : m.ciw = seen.length
  cow_eq : m.cow = tniw + 1 + written.length
  input : ∀ a < tniw, m.wl[a]? =
    some (if a ∈ seen then (seen.idxOf a, .input) else (0, .unassigned))
  output : ∀ a, tniw ≤ a → a < nwires → m.wl[a + 1]? =
    some (if a ∈ written then (tniw + 1 + written.idxOf a, .output) else (0, .unassigned))

namespace Numbered

variable {tniw nwires : ℕ} {seen written : List ℕ} {m : Mapping}

theorem assignInput (h : Numbered tniw nwires seen written m) (hle : tniw ≤ nwires) {a : ℕ}
    (ha : a < tniw ∨ a ∈ written) (hwritten : ∀ b ∈ written, tniw ≤ b ∧ b < nwires) :
    ∃ m', m.assignInput (shift tniw a) = .ok m' ∧
      Numbered tniw nwires (use tniw seen a) written m' ∧ m'.gl = m.gl := by
  by_cases hlt : a < tniw
  · have hshift : shift tniw a = a := if_neg (Nat.not_le.2 hlt)
    have hget := h.input a hlt
    by_cases hseen : a ∈ seen
    · rw [if_pos hseen] at hget
      refine ⟨m, ?_, ?_, rfl⟩
      · rw [Mapping.assignInput, hshift, nth_of_some hget]
        rfl
      · rw [use, if_neg fun hand => hand.2 hseen]
        exact h
    · rw [if_neg hseen] at hget
      refine ⟨{ m with wl := m.wl.set a (m.ciw, .input), ciw := m.ciw + 1 }, ?_, ?_, rfl⟩
      · rw [Mapping.assignInput, hshift, nth_of_some hget]
        rfl
      · rw [use, if_pos ⟨hlt, hseen⟩]
        have hlen : a < m.wl.length := by
          rw [h.length_wl]
          omega
        refine ⟨by rw [List.length_set, h.length_wl], ?_, h.cow_eq, fun b hb => ?_, fun b hb hb' => ?_⟩
        · rw [List.length_append, h.ciw_eq, List.length_singleton]
        · rw [List.getElem?_set]
          by_cases hab : a = b
          · subst hab
            rw [if_pos rfl, if_pos hlen, if_pos (by simp), h.ciw_eq, List.idxOf_append_of_notMem hseen]
            simp
          · rw [if_neg hab, h.input b hb]
            by_cases hb' : b ∈ seen
            · rw [if_pos hb', if_pos (List.mem_append_left _ hb'), List.idxOf_append_of_mem hb']
            · rw [if_neg hb', if_neg]
              simp [hb', Ne.symm hab]
        · have hne : a ≠ b + 1 := by omega
          rw [List.getElem?_set, if_neg hne]
          exact h.output b hb hb'
  · have hmem := ha.resolve_left hlt
    have hge := Nat.le_of_not_lt hlt
    have hshift : shift tniw a = a + 1 := if_pos hge
    have hget := h.output a hge (hwritten a hmem).2
    rw [if_pos hmem] at hget
    refine ⟨m, ?_, ?_, rfl⟩
    · rw [Mapping.assignInput, hshift, nth_of_some hget]
      rfl
    · rw [use, if_neg fun hand => hlt hand.1]
      exact h

theorem assignOutput (h : Numbered tniw nwires seen written m) {a : ℕ} (hge : tniw ≤ a)
    (ha : a < nwires) (hnew : a ∉ written) :
    ∃ m', m.assignOutput (shift tniw a) = .ok m' ∧
      Numbered tniw nwires seen (written ++ [a]) m' ∧ m'.gl = m.gl := by
  have hshift : shift tniw a = a + 1 := if_pos hge
  have hget := h.output a hge ha
  rw [if_neg hnew] at hget
  refine ⟨{ m with wl := m.wl.set (a + 1) (m.cow, .output), cow := m.cow + 1 }, ?_, ?_, rfl⟩
  · rw [Mapping.assignOutput, hshift, nth_of_some hget]
    rfl
  · have hlen : a + 1 < m.wl.length := by
      rw [h.length_wl]
      omega
    refine ⟨by rw [List.length_set, h.length_wl], h.ciw_eq, ?_, fun b hb => ?_, fun b hb hb' => ?_⟩
    · change m.cow + 1 = _
      rw [List.length_append, h.cow_eq, List.length_singleton, Nat.add_assoc]
    · have hne : a + 1 ≠ b := by omega
      rw [List.getElem?_set, if_neg hne]
      exact h.input b hb
    · rw [List.getElem?_set]
      by_cases hab : a = b
      · subst hab
        rw [if_pos rfl, if_pos hlen, if_pos (by simp), h.cow_eq, List.idxOf_append_of_notMem hnew]
        simp
      · rw [if_neg (by omega), h.output b hb hb']
        by_cases hmem : b ∈ written
        · rw [if_pos hmem, if_pos (List.mem_append_left _ hmem), List.idxOf_append_of_mem hmem]
        · rw [if_neg hmem, if_neg]
          simp [hmem, Ne.symm hab]

theorem foldlM_assignInput (hle : tniw ≤ nwires) (hwritten : ∀ b ∈ written, tniw ≤ b ∧ b < nwires)
    {operands : List ℕ} (hop : ∀ a ∈ operands, a < tniw ∨ a ∈ written)
    (h : Numbered tniw nwires seen written m) :
    ∃ m', (operands.map (shift tniw)).foldlM Mapping.assignInput m = .ok m' ∧
      Numbered tniw nwires (operands.foldl (use tniw) seen) written m' ∧ m'.gl = m.gl := by
  induction operands generalizing seen m with
  | nil => exact ⟨m, rfl, h, rfl⟩
  | cons a operands ih =>
    obtain ⟨m₁, hm₁, h₁, hgl₁⟩ := h.assignInput hle (hop a List.mem_cons_self) hwritten
    obtain ⟨m₂, hm₂, h₂, hgl₂⟩ := ih (fun b hb => hop b (List.mem_cons_of_mem _ hb)) h₁
    refine ⟨m₂, ?_, h₂, hgl₂.trans hgl₁⟩
    rw [List.map_cons, List.foldlM_cons, hm₁, ok_bind, hm₂]

theorem mapGate (hle : tniw ≤ nwires) (hwritten : ∀ b ∈ written, tniw ≤ b ∧ b < nwires) {g : Gate}
    (hop : ∀ a ∈ g.operands, a < tniw ∨ a ∈ written) (hout : tniw ≤ g.out ∧ g.out < nwires)
    (hnew : g.out ∉ written) (h : Numbered tniw nwires seen written m) :
    ∃ m', Bristol.mapGate tniw m g = .ok m' ∧
      Numbered tniw nwires (g.operands.foldl (use tniw) seen) (written ++ [g.out]) m' := by
  have hstart : Numbered tniw nwires seen written { m with gl := m.gl ++ [g.entry tniw] } :=
    ⟨h.length_wl, h.ciw_eq, h.cow_eq, h.input, h.output⟩
  obtain ⟨m₁, hm₁, h₁, -⟩ := foldlM_assignInput hle hwritten hop hstart
  obtain ⟨m₂, hm₂, h₂, -⟩ := h₁.assignOutput hout.1 hout.2 hnew
  refine ⟨m₂, ?_, h₂⟩
  rw [Bristol.mapGate, hm₁, ok_bind, hm₂]

end Numbered

end EdaBitGen.Bristol
