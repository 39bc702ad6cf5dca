import EdaBitGen.SieveCompiler.Emission

/-!
# Positions

The bits of a condition from both ends, and the wires of a branch when each output range starts again
at the first one.
-/

namespace EdaBitGen.SieveCompiler

variable {p : ℕ}

/-! ## Bits from both ends -/

theorem bitsValue_append_replicate (bits : List Bool) (n : ℕ) :
    bitsValue (bits ++ List.replicate n false) = bitsValue bits * 2 ^ n := by
  induction n with
  | zero => rw [List.replicate_zero, List.append_nil, Nat.pow_zero, Nat.mul_one]
  | succ n ih =>
    rw [List.replicate_succ', ← List.append_assoc, bitsValue_append, ih, Nat.pow_succ]
    show 2 * _ + 0 = _
    ring

theorem bitsValue_replicate_true (n : ℕ) : bitsValue (List.replicate n true) + 1 = 2 ^ n := by
  induction n with
  | zero => rfl
  | succ n ih =>
    rw [List.replicate_succ', bitsValue_append, Nat.pow_succ, ← ih]
    show 2 * _ + 1 + 1 = _
    ring

theorem bitsValue_eq_zero {bits : List Bool} : bitsValue bits = 0 ↔ ∀ b ∈ bits, b = false := by
  induction bits using List.reverseRecOn with
  | nil => exact ⟨fun _ b hb => absurd hb List.not_mem_nil, fun _ => rfl⟩
  | append_singleton bits b ih =>
    rw [bitsValue_append, List.forall_mem_append, List.forall_mem_singleton, ← ih]
    cases b with
    | false =>
      show 2 * bitsValue bits + 0 = 0 ↔ _
      simp
    | true =>
      show 2 * bitsValue bits + 1 = 0 ↔ _
      simp

theorem lowFirst_lt (cond : List (ZMod p)) : lowFirst cond < 2 ^ cond.length := by
  have h := bitsValue_lt (cond.reverse.map fun x => x.val.testBit 0)
  rwa [List.length_map, List.length_reverse] at h

theorem lowFirst_eq_highFirst {cond : List (ZMod p)} (h : cond.length = 1) :
    lowFirst cond = highFirst cond := by
  obtain ⟨x, rfl⟩ := List.length_eq_one_iff.1 h
  rfl

theorem lowFirst_eq_zero (cond : List (ZMod p)) : lowFirst cond = 0 ↔ highFirst cond = 0 := by
  unfold lowFirst highFirst
  rw [bitsValue_eq_zero, bitsValue_eq_zero, List.map_reverse]
  exact ⟨fun h b hb => h b (List.mem_reverse.2 hb), fun h b hb => h b (List.mem_reverse.1 hb)⟩

theorem testBit_one : (1 : ZMod 2).val.testBit 0 = true := rfl

theorem testBit_zero (p : ℕ) : (0 : ZMod p).val.testBit 0 = false := by
  rw [ZMod.val_zero, Nat.zero_testBit]

theorem highFirst_replicate_zero (n : ℕ) : highFirst (List.replicate n (0 : ZMod p)) = 0 := by
  unfold highFirst
  rw [List.map_replicate, testBit_zero, bitsValue_eq_zero]
  exact fun b hb => List.eq_of_mem_replicate hb

theorem firstBit (n : ℕ) : lowFirst ((1 : ZMod 2) :: List.replicate n 0) = 1 ∧
    highFirst ((1 : ZMod 2) :: List.replicate n 0) = 2 ^ n := by
  have hzeros : bitsValue (List.replicate n false) = 0 := bitsValue_eq_zero.2 fun b hb =>
    List.eq_of_mem_replicate hb
  unfold lowFirst highFirst
  constructor
  · rw [List.reverse_cons, List.reverse_replicate, List.map_append, List.map_replicate, testBit_zero]
    exact (bitsValue_append _ true).trans (by rw [hzeros]; rfl)
  · rw [List.map_cons, List.map_replicate, testBit_zero]
    exact (bitsValue_append_replicate [true] n).trans (Nat.one_mul _)

theorem lowFirst_replicate_one (n : ℕ) :
    lowFirst (List.replicate n (1 : ZMod 2)) + 1 = 2 ^ n := by
  unfold lowFirst
  rw [List.reverse_replicate, List.map_replicate, testBit_one, bitsValue_replicate_true]

/-! ## Rows by position -/

/-- The output ranges when each of them starts at the first wire of a branch. -/
def restarted (sizes : List ℕ) (wires : List (ZMod p)) : List (List (ZMod p)) :=
  sizes.map fun size => (List.range size).map fun j => wires.getD j 0

theorem map_getD_range (wires : List (ZMod p)) :
    (List.range wires.length).map (fun j => wires.getD j 0) = wires := by
  apply List.ext_getElem
  · rw [List.length_map, List.length_range]
  · intro j hj hj'
    rw [List.getElem_map, List.getElem_range, List.getD_eq_getElem?_getD,
      List.getElem?_eq_getElem hj']
    rfl

theorem getD_eq_zero {wires : List (ZMod p)} (h : ∀ x ∈ wires, x = 0) (j : ℕ) :
    wires.getD j 0 = 0 := by
  rw [List.getD_eq_getElem?_getD]
  cases hget : wires[j]? with
  | none => rfl
  | some x => exact h x (List.mem_of_getElem? hget)

theorem restarted_zero {wires : List (ZMod p)} (h : ∀ x ∈ wires, x = 0) (sizes : List ℕ) :
    restarted sizes wires = sizes.map fun size => List.replicate size 0 := by
  refine List.map_congr_left fun size _ => ?_
  rw [List.map_congr_left fun j _ => getD_eq_zero h j, List.map_const', List.length_range]

theorem eq_of_no_wires {rows rows' : List (List (ZMod p))} {sizes : List ℕ}
    (h : rows.map List.length = sizes) (h' : rows'.map List.length = sizes) (hsum : sizes.sum = 0) :
    rows = rows' := by
  have hnil : ∀ rows : List (List (ZMod p)), rows.map List.length = sizes →
      rows = sizes.map fun _ => [] := by
    rintro rows rfl
    rw [List.map_map]
    refine ((List.map_congr_left fun row hrow => ?_).trans (List.map_id _)).symm
    have hzero := List.sum_eq_zero_iff.1 hsum row.length (List.mem_map_of_mem hrow)
    exact (List.length_eq_zero_iff.1 hzero).symm
  rw [hnil rows h, hnil rows' h']

theorem restarted_flatten {rows : List (List (ZMod p))}
    (h : ((rows.map List.length).filter (· ≠ 0)).length ≤ 1) :
    restarted (rows.map List.length) rows.flatten = rows := by
  induction rows with
  | nil => rfl
  | cons row rows ih =>
    rw [List.map_cons] at h ⊢
    cases row with
    | nil =>
      rw [List.filter_cons_of_neg (by simp)] at h
      exact congrArg ([] :: ·) (ih h)
    | cons x row =>
      rw [List.filter_cons_of_pos (by simp), List.length_cons] at h
      have hempty : (rows.map List.length).filter (· ≠ 0) = [] :=
        List.length_eq_zero_iff.1 (by omega)
      have hrows : ∀ row' ∈ rows, row' = [] := by
        intro row' hrow'
        have hlen := List.filter_eq_nil_iff.1 hempty row'.length (List.mem_map_of_mem hrow')
        exact List.length_eq_zero_iff.1 (by simpa using hlen)
      have hflat : rows.flatten = [] := List.flatten_eq_nil_iff.2 hrows
      rw [List.flatten_cons, hflat, List.append_nil]
      refine congrArg₂ List.cons (map_getD_range _) ?_
      rw [List.map_map]
      refine (List.map_congr_left fun row' hrow' => ?_).trans (List.map_id _)
      rw [hrows row' hrow']
      rfl

/-- Rows that tell the first range with wires from the others. -/
def marked (p : ℕ) : List ℕ → List (List (ZMod p))
  | [] => []
  | 0 :: sizes => [] :: marked p sizes
  | (k + 1) :: sizes => List.replicate (k + 1) 0 :: sizes.map fun size => List.replicate size 1

theorem map_length_marked (sizes : List ℕ) : (marked p sizes).map List.length = sizes := by
  fun_induction marked p sizes with
  | case1 => rfl
  | case2 sizes ih => rw [List.map_cons, ih]; rfl
  | case3 k sizes =>
    rw [List.map_cons, List.length_replicate, List.map_map]
    refine congrArg _ ((List.map_congr_left fun size _ => ?_).trans (List.map_id _))
    exact List.length_replicate

theorem oneRange_of_marked (hp : (1 : ZMod p) ≠ 0) {sizes : List ℕ}
    (h : marked p sizes = restarted sizes (marked p sizes).flatten) :
    (sizes.filter (· ≠ 0)).length ≤ 1 := by
  fun_induction marked p sizes with
  | case1 => exact Nat.zero_le 1
  | case2 sizes ih =>
    rw [List.filter_cons_of_neg (by simp)]
    exact ih (List.cons.inj h).2
  | case3 k sizes =>
    have hrest := (List.cons.inj h).2
    have hzero : ∀ size ∈ sizes, size = 0 := by
      intro size hsize
      have hrow := List.map_inj_left.1 hrest size hsize
      cases size with
      | zero => rfl
      | succ size =>
        rw [List.replicate_succ, List.range_succ_eq_map, List.map_cons] at hrow
        exact absurd (List.cons.inj hrow).1 hp
    have hempty : sizes.filter (· ≠ 0) = [] := by
      apply List.filter_eq_nil_iff.2
      intro size hsize
      simp [hzero size hsize]
    rw [List.filter_cons_of_pos (by simp), hempty]
    exact le_rfl

end EdaBitGen.SieveCompiler
