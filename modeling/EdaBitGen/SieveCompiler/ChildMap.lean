import EdaBitGen.SieveCompiler.WireMap

/-!
# The cells of a child map

The ranges that a child borrows lie one after the other, with room for the counter.
-/

namespace EdaBitGen.SieveCompiler

namespace WireMap

variable {V : Type}

/-! ## Lookup -/

theorem allocationOf_spec {m : WireMap V} {wire : ℕ} {a : Allocation V}
    (h : m.allocationOf wire = some a) : a ∈ m ∧ a.start ≤ wire ∧ wire < a.stop := by
  have hfound := List.find?_some h
  rw [Bool.and_eq_true, decide_eq_true_iff, decide_eq_true_iff] at hfound
  exact ⟨List.mem_of_find?_eq_some h, hfound⟩

theorem lookup_append (m m' : WireMap V) (wire : ℕ) :
    (m ++ m').lookup wire = (m.lookup wire).or (m'.lookup wire) := by
  unfold lookup
  rw [allocationOf, List.find?_append]
  cases h : m.allocationOf wire with
  | none =>
    rw [allocationOf] at h
    rw [h]
    rfl
  | some a =>
    obtain ⟨-, hstart, hstop⟩ := allocationOf_spec h
    rw [allocationOf] at h
    rw [h]
    have hlt : wire - a.start < a.cells.length := by
      unfold Allocation.stop at hstop
      omega
    simp [hlt]

theorem lookup_nil (wire : ℕ) : lookup ([] : WireMap V) wire = none := rfl

theorem lookup_single (start : ℕ) (cells : List (Cell V)) (wire : ℕ) :
    lookup [⟨start, cells⟩] wire = if start ≤ wire then cells[wire - start]? else none := by
  unfold lookup allocationOf
  have hiff : (decide (start ≤ wire) && decide (wire < Allocation.stop ⟨start, cells⟩)) = true ↔
      start ≤ wire ∧ wire < start + cells.length := by
    rw [Bool.and_eq_true, decide_eq_true_iff, decide_eq_true_iff]
    rfl
  by_cases h : start ≤ wire ∧ wire < start + cells.length
  · rw [List.find?_cons_of_pos, if_pos h.1]
    · rfl
    · exact hiff.2 h
  · rw [List.find?_cons_of_neg]
    swap
    · exact fun hfound => h (hiff.1 hfound)
    split
    · rw [List.getElem?_eq_none (by omega)]
      rfl
    · rfl

/-- The parts of a map, one after the other. -/
def blocks : ℕ → List (List (Cell V)) → WireMap V
  | _, [] => []
  | pos, cells :: parts =>
    if cells.length = 0 then blocks pos parts
    else ⟨pos, cells⟩ :: blocks (pos + cells.length) parts

theorem lookup_blocks (pos : ℕ) (parts : List (List (Cell V))) (wire : ℕ) :
    (blocks pos parts).lookup wire = if pos ≤ wire then parts.flatten[wire - pos]? else none := by
  induction parts generalizing pos with
  | nil => simp [blocks, lookup_nil]
  | cons cells parts ih =>
    unfold blocks
    split
    · rename_i hempty
      rw [ih, List.eq_nil_of_length_eq_zero hempty, List.flatten_cons, List.nil_append]
    · rw [← List.singleton_append, lookup_append, lookup_single, ih, List.flatten_cons]
      by_cases hpos : pos ≤ wire
      · rw [if_pos hpos, if_pos hpos]
        by_cases hin : wire - pos < cells.length
        · rw [List.getElem?_append_left hin, List.getElem?_eq_getElem hin]
          rfl
        · rw [List.getElem?_append_right (Nat.le_of_not_lt hin),
            List.getElem?_eq_none (Nat.le_of_not_lt hin), if_pos (by omega), Option.none_or]
          congr 1
          omega
      · rw [if_neg hpos, if_neg hpos, if_neg (by omega)]
        rfl

/-- A map up to a position. -/
def Below (m : WireMap V) (pos : ℕ) : Prop := ∀ a ∈ m, a.stop ≤ pos

theorem start_le_of_mem_blocks {pos : ℕ} {parts : List (List (Cell V))} {a : Allocation V}
    (ha : a ∈ blocks pos parts) : pos ≤ a.start := by
  induction parts generalizing pos with
  | nil => cases ha
  | cons cells parts ih =>
    unfold blocks at ha
    split at ha
    · exact ih ha
    · rcases List.mem_cons.1 ha with rfl | hmem
      · exact le_rfl
      · exact (Nat.le_add_right _ _).trans (ih hmem)

theorem below_blocks (pos : ℕ) (parts : List (List (Cell V))) :
    Below (blocks pos parts) (pos + parts.flatten.length) := by
  induction parts generalizing pos with
  | nil => exact nofun
  | cons cells parts ih =>
    intro a ha
    rw [List.flatten_cons, List.length_append]
    unfold blocks at ha
    split at ha
    · have := ih pos a ha
      omega
    · rcases List.mem_cons.1 ha with rfl | hmem
      · show pos + cells.length ≤ _
        omega
      · have := ih _ a hmem
        omega

theorem Below.append {m m' : WireMap V} {pos pos' : ℕ} (h : Below m pos) (h' : Below m' pos')
    (hle : pos ≤ pos') : Below (m ++ m') pos' := by
  intro a ha
  rcases List.mem_append.1 ha with hmem | hmem
  · exact (h a hmem).trans hle
  · exact h' a hmem

theorem allocFromAllocation_eq {m : WireMap V} {start : ℕ} {cells : List (Cell V)}
    (hpos : cells.length ≠ 0) (hlen : cells.length < 2 ^ 48)
    (hfree : ∀ a ∈ m, start + cells.length ≤ a.start ∨ a.stop ≤ start) :
    m.allocFromAllocation start cells = .ok (m ++ [⟨start, cells⟩]) := by
  have hall : (m.all fun a => a.cells.length = 0 || start + cells.length ≤ a.start ||
      a.stop ≤ start) = true := by
    rw [List.all_eq_true]
    intro a ha
    have := hfree a ha
    simp only [Bool.or_eq_true, decide_eq_true_iff]
    omega
  simp only [allocFromAllocation, require, if_pos hpos, if_pos hlen, if_pos hall]
  rfl

/-! ## Borrowing -/

/-- The caller's map can lend a range. -/
def Lends (parent : WireMap V) (r : WireRange) (a : Allocation V) : Prop :=
  parent.immutablyBorrowAllocation r = .ok a ∧ a.cells.length < 2 ^ 48

theorem Lends.len_lt {parent : WireMap V} {r : WireRange} {a : Allocation V}
    (h : parent.Lends r a) : r.len < 2 ^ 48 := by
  obtain ⟨hborrow, hlen⟩ := h
  unfold immutablyBorrowAllocation at hborrow
  cases hfind : parent.allocationOf r.start with
  | none => simp [hfind] at hborrow
  | some b =>
    obtain ⟨-, hstart, -⟩ := allocationOf_spec hfind
    by_cases hstop : r.inclusiveEnd < b.stop
    · simp only [hfind, require, if_pos hstop] at hborrow
      obtain rfl : b = a := Except.ok.inj hborrow
      unfold Allocation.stop at hstop
      unfold WireRange.len
      split <;> omega
    · simp [hfind, require, hstop, bind, Except.bind] at hborrow

/-- Ranges with wires do not conflict. -/
def Apart (r r' : WireRange) : Prop := r.len ≠ 0 → r'.len ≠ 0 → r'.overlaps r = false

def mutableCells (r : WireRange) : List (Cell V) := (wiresOf r).map Cell.borrowedMutable

def immutableCells (r : WireRange) : List (Cell V) := (wiresOf r).map Cell.borrowedImmutable

@[simp] theorem length_mutableCells (r : WireRange) :
    (mutableCells r : List (Cell V)).length = r.len := by
  simp [mutableCells, wiresOf]

@[simp] theorem length_immutableCells (r : WireRange) :
    (immutableCells r : List (Cell V)).length = r.len := by
  simp [immutableCells, wiresOf]

theorem Below.allocFromAllocation {m : WireMap V} {pos : ℕ} (h : m.Below pos)
    {cells : List (Cell V)} (hpos : cells.length ≠ 0) (hlen : cells.length < 2 ^ 48) :
    m.allocFromAllocation pos cells = .ok (m ++ [⟨pos, cells⟩]) ∧
      Below (m ++ [⟨pos, cells⟩]) (pos + cells.length) := by
  constructor
  · exact allocFromAllocation_eq hpos hlen fun b hb => .inr (h b hb)
  · apply h.append ?_ (Nat.le_add_right _ _)
    intro b hb
    obtain rfl := List.mem_singleton.1 hb
    exact le_rfl

theorem not_any_overlaps {r : WireRange} {borrowed : List WireRange}
    (h : ∀ r' ∈ borrowed, r.overlaps r' = false) : (!borrowed.any r.overlaps) = true := by
  rw [Bool.not_eq_true', List.any_eq_false]
  intro r' hr'
  rw [h r' hr']
  exact Bool.false_ne_true

theorem borrowMutables_eq {parent : WireMap V} (outs : List WireRange) :
    ∀ (pos : ℕ) (borrowed : List WireRange) (m : WireMap V), m.Below pos →
      (∀ r ∈ outs, r.len ≠ 0 → ∃ a, parent.Lends r a ∧ a.isMutable = true) →
      outs.Pairwise Apart → (∀ r ∈ outs, r.len ≠ 0 → ∀ r' ∈ borrowed, r.overlaps r' = false) →
      ∃ borrowed', borrowMutables parent (placeOutputs pos outs) borrowed m =
          .ok (borrowed', m ++ blocks pos (outs.map mutableCells)) ∧
        ∀ r ∈ borrowed', r ∈ borrowed ∨ r ∈ outs ∧ r.len ≠ 0 := by
  induction outs with
  | nil => exact fun pos borrowed m _ _ _ _ => ⟨borrowed, by simp [borrowMutables, placeOutputs, blocks], fun r => .inl⟩
  | cons r outs ih =>
    intro pos borrowed m hbelow hlends hapart hborrowed
    obtain ⟨hhead, hlends⟩ := List.forall_mem_cons.1 hlends
    obtain ⟨hfree, hborrowed⟩ := List.forall_mem_cons.1 hborrowed
    obtain ⟨hnext, hapart⟩ := List.pairwise_cons.1 hapart
    rw [placeOutputs, borrowMutables, List.map_cons, blocks, length_mutableCells]
    dsimp only
    by_cases hempty : r.len = 0
    · rw [if_pos hempty, if_pos hempty, hempty, Nat.add_zero]
      obtain ⟨borrowed', hok, hmem⟩ := ih pos borrowed m hbelow hlends hapart hborrowed
      exact ⟨borrowed', hok, fun r' hr' => (hmem r' hr').imp id fun h => ⟨.tail _ h.1, h.2⟩⟩
    · obtain ⟨a, ha, hmutable⟩ := hhead hempty
      have hconflict := not_any_overlaps (hfree hempty)
      obtain ⟨halloc, hbelow'⟩ := Below.allocFromAllocation hbelow
        (show (mutableCells r : List (Cell V)).length ≠ 0 by rwa [length_mutableCells]) (by rw [length_mutableCells]; exact ha.len_lt)
      rw [length_mutableCells] at hbelow'
      obtain ⟨borrowed', hok, hmem⟩ := ih (pos + r.len) (r :: borrowed) _ hbelow' hlends hapart
        fun r' hr' hne => List.forall_mem_cons.2 ⟨hnext r' hr' hempty hne, hborrowed r' hr' hne⟩
      refine ⟨borrowed', ?_, fun r' hr' => ?_⟩
      · rw [if_neg hempty, if_neg hempty]
        rw [List.append_assoc, List.singleton_append] at hok
        simp only [require, if_pos hconflict, ha.1, bind, Except.bind, hmutable, if_true]
        have hcells : (wiresOf r).map Cell.borrowedMutable = (mutableCells r : List (Cell V)) := rfl
        rw [hcells, halloc]
        exact hok
      · rcases hmem r' hr' with hin | ⟨hin, hne⟩
        · rcases List.mem_cons.1 hin with rfl | hin
          · exact .inr ⟨.head _, hempty⟩
          · exact .inl hin
        · exact .inr ⟨.tail _ hin, hne⟩

theorem borrowImmutables_eq {parent : WireMap V} {borrowed : List WireRange}
    (ins : List WireRange) : ∀ (pos : ℕ) (m : WireMap V) (ranges : List DestinationRange),
      m.Below pos →
      (∀ r ∈ ins, r.len ≠ 0 → (∃ a, parent.Lends r a) ∧ ∀ r' ∈ borrowed, r.overlaps r' = false) →
      borrowImmutables parent borrowed (placeOutputs pos ins ++ ranges) m =
        borrowImmutables parent borrowed ranges (m ++ blocks pos (ins.map immutableCells)) := by
  induction ins with
  | nil => 
    intro pos m ranges _ _
    rw [placeOutputs, List.nil_append, List.map_nil, blocks, List.append_nil]
  | cons r ins ih =>
    intro pos m ranges hbelow hins
    obtain ⟨hhead, hins⟩ := List.forall_mem_cons.1 hins
    rw [placeOutputs, List.cons_append, borrowImmutables, List.map_cons, blocks,
      length_immutableCells]
    dsimp only
    by_cases hempty : r.len = 0
    · rw [if_pos hempty, if_pos hempty, hempty, Nat.add_zero]
      exact ih pos m ranges hbelow hins
    · obtain ⟨⟨a, ha⟩, hfree⟩ := hhead hempty
      have hconflict := not_any_overlaps hfree
      obtain ⟨halloc, hbelow'⟩ := Below.allocFromAllocation hbelow
        (show (immutableCells r : List (Cell V)).length ≠ 0 by rwa [length_immutableCells]) (by rw [length_immutableCells]; exact ha.len_lt)
      rw [length_immutableCells] at hbelow'
      rw [if_neg hempty, if_neg hempty]
      simp only [require, if_pos hconflict, ha.1]
      show (m.allocFromAllocation pos (immutableCells r) >>= _) = _
      rw [halloc]
      refine (ih (pos + r.len) _ ranges hbelow' hins).trans ?_
      rw [List.append_assoc, List.singleton_append]

/-- What the caller's map needs to lend the ranges of a call. -/
structure Lendable (parent : WireMap V) (outs ins : List WireRange) : Prop where
  outsLent : ∀ r ∈ outs, r.len ≠ 0 → ∃ a, parent.Lends r a ∧ a.isMutable = true
  insLent : ∀ r ∈ ins, r.len ≠ 0 → ∃ a, parent.Lends r a
  outsApart : outs.Pairwise Apart
  insApart : ∀ r ∈ ins, ∀ r' ∈ outs, Apart r' r

def outCells (outs : List WireRange) : List (Cell V) := (outs.map mutableCells).flatten

def inCells (ins : List WireRange) : List (Cell V) := (ins.map immutableCells).flatten

@[simp] theorem length_outCells (outs : List WireRange) :
    (outCells outs : List (Cell V)).length = (outs.map WireRange.len).sum := by
  simp [outCells, Function.comp_def]

@[simp] theorem length_inCells (ins : List WireRange) :
    (inCells ins : List (Cell V)).length = (ins.map WireRange.len).sum := by
  simp [inCells, Function.comp_def]

/-- The child's allocations, with a gap for the counter. -/
def borrowedMap (outs env rest : List WireRange) (gap : ℕ) : WireMap V :=
  blocks 0 (outs.map mutableCells) ++
    blocks (outs.map WireRange.len).sum (env.map immutableCells) ++
    blocks ((outs.map WireRange.len).sum + (env.map WireRange.len).sum + gap)
      (rest.map immutableCells)

theorem borrowChild_eq {parent : WireMap V} {outs env rest : List WireRange}
    (h : parent.Lendable outs (env ++ rest)) (gap : ℕ) :
    parent.borrowChild (placeOutputs 0 outs)
      (placeOutputs (outs.map WireRange.len).sum env ++
        placeOutputs ((outs.map WireRange.len).sum + (env.map WireRange.len).sum + gap) rest) =
      .ok (borrowedMap outs env rest gap) := by
  obtain ⟨borrowed, hok, hmem⟩ := borrowMutables_eq outs 0 [] [] nofun h.outsLent h.outsApart
    fun _ _ _ _ => nofun
  have hins : ∀ r ∈ env ++ rest, r.len ≠ 0 →
      (∃ a, parent.Lends r a) ∧ ∀ r' ∈ borrowed, r.overlaps r' = false := by
    refine fun r hr hne => ⟨h.insLent r hr hne, fun r' hr' => ?_⟩
    obtain ⟨hin, hne'⟩ := (hmem r' hr').resolve_left List.not_mem_nil
    exact h.insApart r hr r' hin hne' hne
  have hlenOuts : ((outs.map mutableCells).flatten : List (Cell V)).length =
      (outs.map WireRange.len).sum := length_outCells outs
  have hlenEnv : ((env.map immutableCells).flatten : List (Cell V)).length =
      (env.map WireRange.len).sum := length_inCells env
  have hbelow : Below (blocks 0 (outs.map mutableCells) : WireMap V) (outs.map WireRange.len).sum := by
    have := below_blocks 0 (outs.map (mutableCells : WireRange → List (Cell V)))
    rwa [hlenOuts, Nat.zero_add] at this
  have hbelow' := hbelow.append
    (below_blocks (outs.map WireRange.len).sum (env.map (immutableCells : WireRange → List (Cell V))))
    (Nat.le_add_right _ _)
  rw [hlenEnv] at hbelow'
  unfold borrowChild
  rw [hok]
  show borrowImmutables parent borrowed _ ([] ++ blocks 0 _) = _
  rw [List.nil_append, borrowImmutables_eq env _ _ _ hbelow fun r hr =>
    hins r (List.mem_append_left _ hr)]
  rw [← List.append_nil (placeOutputs (_ + gap) rest), borrowImmutables_eq rest _ _ _
    (fun a ha => (hbelow' a ha).trans (Nat.le_add_right _ _)) fun r hr =>
    hins r (List.mem_append_right _ hr)]
  rfl

theorem lookup_borrowedMap (outs env rest : List WireRange) (gap wire : ℕ) :
    (borrowedMap outs env rest gap : WireMap V).lookup wire =
      if wire < (outs.map WireRange.len).sum + (env.map WireRange.len).sum then
        (outCells outs ++ inCells env)[wire]?
      else if (outs.map WireRange.len).sum + (env.map WireRange.len).sum + gap ≤ wire then
        (inCells rest)[wire - ((outs.map WireRange.len).sum + (env.map WireRange.len).sum + gap)]?
      else none := by
  have hlenOuts := length_outCells (V := V) outs
  have hlenEnv := length_inCells (V := V) env
  have houts : (blocks 0 (outs.map mutableCells) : WireMap V).lookup wire =
      (outCells outs)[wire]? := (lookup_blocks ..).trans (if_pos (Nat.zero_le wire))
  have henvs : (blocks (outs.map WireRange.len).sum (env.map immutableCells) : WireMap V).lookup
      wire = if (outs.map WireRange.len).sum ≤ wire then
        (inCells env)[wire - (outs.map WireRange.len).sum]? else none := lookup_blocks ..
  have hrests : (blocks ((outs.map WireRange.len).sum + (env.map WireRange.len).sum + gap)
      (rest.map immutableCells) : WireMap V).lookup wire =
        if (outs.map WireRange.len).sum + (env.map WireRange.len).sum + gap ≤ wire then
          (inCells rest)[wire - ((outs.map WireRange.len).sum + (env.map WireRange.len).sum + gap)]?
        else none := lookup_blocks ..
  rw [borrowedMap, lookup_append, lookup_append, houts, henvs, hrests]
  by_cases hout : wire < (outs.map WireRange.len).sum
  · rw [if_neg (by omega), Option.or_none, if_neg (by omega), Option.or_none, if_pos (by omega),
      List.getElem?_append_left (by omega)]
  · rw [List.getElem?_eq_none (by omega), if_pos (by omega), Option.none_or]
    by_cases henv : wire < (outs.map WireRange.len).sum + (env.map WireRange.len).sum
    · rw [if_neg (by omega), if_pos henv, Option.or_none, List.getElem?_append_right (by omega),
        hlenOuts]
    · rw [List.getElem?_eq_none (by omega), if_neg henv, Option.none_or]

/-- The parameter wires of a closure. -/
def paramCells (outs env : List WireRange) (counter : List (Cell V)) (rest : List WireRange) :
    List (Cell V) :=
  outCells outs ++ inCells env ++ counter ++ inCells rest

theorem getElem?_paramCells (outs env : List WireRange) (counter : List (Cell V))
    (rest : List WireRange) (wire : ℕ) : (paramCells outs env counter rest)[wire]? =
      if wire < (outs.map WireRange.len).sum + (env.map WireRange.len).sum then
        (outCells outs ++ inCells env)[wire]?
      else if (outs.map WireRange.len).sum + (env.map WireRange.len).sum + counter.length ≤ wire then
        (inCells rest)[wire -
          ((outs.map WireRange.len).sum + (env.map WireRange.len).sum + counter.length)]?
      else counter[wire - ((outs.map WireRange.len).sum + (env.map WireRange.len).sum)]? := by
  have hlen : (outCells outs ++ inCells env : List (Cell V)).length =
      (outs.map WireRange.len).sum + (env.map WireRange.len).sum := by
    rw [List.length_append, length_outCells, length_inCells]
  rw [paramCells, List.append_assoc]
  by_cases hfirst : wire < (outs.map WireRange.len).sum + (env.map WireRange.len).sum
  · rw [if_pos hfirst, List.getElem?_append_left (by omega)]
  · rw [if_neg hfirst, List.getElem?_append_right (by omega), hlen]
    split
    · rw [List.getElem?_append_right (by omega)]
      congr 1
      omega
    · rw [List.getElem?_append_left (by omega)]

end WireMap

end EdaBitGen.SieveCompiler
