import EdaBitGen.SieveCompiler.Emission

/-!
# The emissions of a mux

Each output wire has the value of its branch wires for the selectors, and the prover's values satisfy
all assertions when the selectors of a strict mux have a one.
-/

namespace EdaBitGen.SieveCompiler.Mux

open ValuedWire

variable {p : ℕ} [Fact p.Prime] (m : Mux p) (v : m.Values) {c : Circuit (ZMod p)}

/-- The selectors of a number. -/
def oneHot (p n cond : ℕ) : List (ZMod p) :=
  (List.range n).map fun i => if cond = i then 1 else 0

theorem oneHot_succ (n cond : ℕ) :
    oneHot p (n + 1) cond = oneHot p n cond ++ [if cond = n then 1 else 0] := by
  rw [oneHot, List.range_succ, List.map_append]
  rfl

theorem oneHot_getElem? {n cond i : ℕ} {x : ZMod p} (h : (oneHot p n cond)[i]? = some x) :
    i < n ∧ x = if cond = i then 1 else 0 := by
  unfold oneHot at h
  rw [List.getElem?_map, Option.map_eq_some_iff] at h
  obtain ⟨j, hj, rfl⟩ := h
  have ⟨hlt, hget⟩ := List.getElem?_eq_some_iff.1 hj
  rw [List.length_range] at hlt
  rw [List.getElem_range] at hget
  subst hget
  exact ⟨hlt, rfl⟩

theorem sum_oneHot (bs : List (ZMod p)) (cond : ℕ) :
    (List.zipWith (· * ·) (oneHot p bs.length cond) bs).sum = bs.getD cond 0 := by
  induction bs using List.reverseRecOn with
  | nil => rfl
  | append_singleton bs b ih =>
    have hlen : (oneHot p bs.length cond).length = bs.length := by
      rw [oneHot, List.length_map, List.length_range]
    rw [List.length_append, List.length_singleton, oneHot_succ, List.zipWith_append hlen,
      List.sum_append, ih, List.getD_eq_getElem?_getD, List.getD_eq_getElem?_getD]
    show _ + (((if cond = bs.length then 1 else 0) * b) + 0) = _
    rcases lt_trichotomy cond bs.length with hlt | rfl | hgt
    · rw [if_neg hlt.ne, List.getElem?_append_left hlt, zero_mul, add_zero, add_zero]
    · rw [if_pos rfl, List.getElem?_append_right le_rfl, List.getElem?_eq_none le_rfl, Nat.sub_self]
      show 0 + (1 * b + 0) = b
      rw [one_mul, add_zero, zero_add]
    · rw [if_neg hgt.ne', List.getElem?_eq_none hgt.le, List.getElem?_eq_none (by simp; omega)]
      show 0 + (0 * b + 0) = 0
      rw [zero_mul, add_zero, add_zero]

/-- The wires are the selectors of a number. -/
structure Selected (c : Circuit (ZMod p)) (g : List (ValuedWire (ZMod p))) (n cond : ℕ) : Prop where
  tracked : ∀ w ∈ g, w.Tracked c
  values : g.map (·.2) = oneHot p n cond

theorem Selected.mono {c c' : Circuit (ZMod p)} {g : List (ValuedWire (ZMod p))} {n cond : ℕ}
    (h : Selected c g n cond) (hle : c.Le c') : Selected c' g n cond :=
  ⟨fun w hw => (h.tracked w hw).mono hle, h.values⟩

/-! ## Selectors by value -/

theorem emits_assertSelector {cond : ValuedWire (ZMod p)} (hcond : cond.Tracked c)
    {g : ValuedWire (ZMod p)} {i : ℕ} (hi : i < p) (hg : g.Honest c)
    (hvalue : g.2 = if cond.2 = i then 1 else 0) :
    Emits (assertSelector cond (g, i)) c fun _ c' => g.Tracked c' := by
  refine Emits.lift_bind (if_pos hi) ((emits_fix _).bind fun x' c₁ hle hx' => ?_)
  have hx : ∀ A, c.Sat A → linear cond.1 1 (constant 1) (-(i : ZMod p)) A = cond.2 - i := by
    intro A hA
    unfold linear constant
    rw [hcond A hA]
    ring
  have hb : ∀ A, linear (constant 1) 1 g.1 (-1) A = 1 - g.1 A := by
    intro A
    unfold linear constant
    ring
  have hb' : cond.2 - i = 0 → (1 : ZMod p) - g.2 = 0 := by
    intro h
    rw [hvalue, if_pos (sub_eq_zero.1 h), sub_self]
  have hb'' : cond.2 - i ≠ 0 → (1 : ZMod p) - g.2 = 1 := by
    intro h
    rw [hvalue, if_neg fun heq => h (sub_eq_zero.2 heq), sub_zero]
  have hinverse := emits_assertMultiply (c := c₁)
    (x := linear cond.1 1 (constant 1) (-(i : ZMod p))) (y := x')
    (z := linear (constant 1) 1 g.1 (-1)) fun hc A hA => by
      have hsat := hle.sat A (hc A hA)
      have hx'A : x' A = _ := hx' A (hc A hA) hA
      rw [hx A hsat, hb, hg A hsat (hle.follows A hA), hx'A]
      by_cases hzero : cond.2 - i = 0
      · rw [hb' hzero, hzero, zero_mul]
      · rw [if_pos hzero, hb'' hzero, mul_inv_cancel₀ hzero]
  refine hinverse.bind fun _ c₂ hle₂ hholds => ?_
  have hback := emits_assertMultiply (c := c₂)
    (x := linear cond.1 1 (constant 1) (-(i : ZMod p))) (y := linear (constant 1) 1 g.1 (-1))
    (z := linear cond.1 1 (constant 1) (-(i : ZMod p))) fun hc A hA => by
      have hsat := hle.sat A (hle₂.sat A (hc A hA))
      rw [hx A hsat, hb, hg A hsat (hle.follows A (hle₂.follows A hA))]
      by_cases hzero : cond.2 - i = 0
      · rw [hzero, zero_mul]
      · rw [hb'' hzero, mul_one]
  refine hback.mono fun _ c₃ hle₃ hholds₃ A hA => ?_
  have hfirst := hholds A (hle₃.sat A hA)
  have hsecond := hholds₃ A hA
  rw [hx A (hle.sat A (hle₂.sat A (hle₃.sat A hA))), hb] at hfirst hsecond
  rw [hvalue]
  -- The first assertion gives the one, the second one the zeros.
  by_cases hzero : cond.2 - i = 0
  · rw [hzero, zero_mul] at hfirst
    rw [if_pos (sub_eq_zero.1 hzero)]
    exact (sub_eq_zero.1 hfirst.symm).symm
  · rw [if_neg fun heq => hzero (sub_eq_zero.2 heq)]
    have hone : 1 - g.1 A = 1 := mul_left_cancel₀ hzero (hsecond.trans (mul_one _).symm)
    exact sub_eq_self.1 hone

theorem val_eq_iff (x : ZMod p) {i : ℕ} (hi : i < p) : x.val = i ↔ x = i := by
  constructor
  · rintro rfl
    exact (ZMod.natCast_zmod_val x).symm
  · rintro rfl
    exact ZMod.val_natCast_of_lt hi

theorem emits_assertSelectors {cond : ValuedWire (ZMod p)} (hcond : cond.Tracked c)
    {g : List (ValuedWire (ZMod p))} {n : ℕ} (hn : n ≤ p) (hg : ∀ w ∈ g, w.Honest c)
    (hvalues : g.map (·.2) = oneHot p n cond.2.val) :
    Emits (g.zipIdx.forM (assertSelector cond)) c fun _ c' => Selected c' g n cond.2.val := by
  have hassert := Emits.forM (c := c) (f := assertSelector cond)
    (Q := fun w c' => Tracked c' w.1) (fun _ _ _ hle h => h.mono hle) g.zipIdx
    fun w hw c' hle => by
      have hget := List.mem_zipIdx_iff_getElem?.1 hw
      have hvalue : (g.map (·.2))[w.2]? = (oneHot p n cond.2.val)[w.2]? := by rw [hvalues]
      rw [List.getElem?_map, hget] at hvalue
      have ⟨hi, hw₁⟩ := oneHot_getElem? hvalue.symm
      have hip : w.2 < p := by omega
      simp only [val_eq_iff cond.2 hip] at hw₁
      apply emits_assertSelector (hcond.mono hle) hip _ hw₁
      exact (hg w.1 (List.mem_of_getElem? hget)).mono hle
  refine hassert.mono fun _ c' _ htracked => ⟨fun w hw => ?_, hvalues⟩
  obtain ⟨i, hi⟩ := List.mem_iff_getElem?.1 hw
  exact htracked (w, i) (List.mem_zipIdx_iff_getElem?.2 hi)

theorem emits_addSelector {cond : ValuedWire (ZMod p)} (hcond : cond.Tracked c)
    {g : List (ValuedWire (ZMod p))} {k : ℕ} (hk : k < p) (hg : Selected c g k cond.2.val) :
    Emits (addSelector cond g k) c fun g' c' => Selected c' g' (k + 1) cond.2.val := by
  unfold addSelector
  refine Emits.lift_bind (if_pos hk) ((emits_fix _).bind fun gI c₁ hle hgI => ?_)
  refine (emits_assertSelectors (hcond.mono hle) (n := k + 1) hk ?_ ?_).bind
    fun _ c₂ _ hselected => .pure hselected
  · intro w hw
    rcases List.mem_append.1 hw with hw | hw
    · exact (hg.tracked w hw).honest.mono hle
    · rw [List.mem_singleton.1 hw]
      exact hgI
  · rw [oneHot_succ, List.map_append, hg.values]
    simp only [val_eq_iff cond.2 hk]
    rfl

theorem emits_valueSelectors {cond : ValuedWire (ZMod p)} {rest : List (ValuedWire (ZMod p))}
    (hcond : cond.Tracked c) (hn : m.numBranches ≤ p) :
    Emits (m.valueSelectors (cond :: rest)) c fun g c' =>
      Selected c' g m.numBranches cond.2.val := by
  have hrange : ∀ n ≤ p, Emits ((List.range n).foldlM (addSelector cond) []) c fun g c' =>
      Selected c' g n cond.2.val := by
    intro n hn
    induction n with
    | zero => exact .pure ⟨fun _ hw => absurd hw List.not_mem_nil, rfl⟩
    | succ n ih =>
      rw [List.range_succ, List.foldlM_append]
      refine (ih (by omega)).bind fun g c' hle hg => ?_
      rw [List.foldlM_cons]
      refine (emits_addSelector (hcond.mono hle) (by omega) hg).bind fun g' c'' _ hg' => ?_
      exact .pure hg'
  exact hrange m.numBranches hn

theorem emits_bitSelector [Fact (Nat.Prime 2)] {c : Circuit (ZMod 2)}
    {cond : List (ValuedWire (ZMod 2))} (hne : cond ≠ []) (hcond : ∀ w ∈ cond, w.Tracked c) {i : ℕ}
    (hi : i < 2 ^ cond.length) : Emits (bitSelector cond i) c fun w c' =>
      w.Tracked c' ∧ w.2 = if highFirst (cond.map (·.2)) = i then 1 else 0 := by
  have hprod := prod_inverted (cond.map (·.2)) (i := i) (by rwa [List.length_map])
  rw [List.length_map, List.zip_map_right, List.map_map] at hprod
  unfold bitSelector
  refine Emits.lift_bind ((toKFlippedBits_eq i cond.length).trans (if_pos hi)) ?_
  have hlen : ((inverted 2 i cond.length).reverse.zip cond).length = cond.length := by
    rw [List.length_zip, List.length_reverse, length_inverted, Nat.min_self]
  have htracked : ∀ b ∈ (inverted 2 i cond.length).reverse.zip cond,
      Tracked c (linear b.2.1 1 (constant 1) b.1, b.2.2 + b.1) := by
    intro b hb A hA
    have hw := hcond b.2 (List.of_mem_zip hb).2 A hA
    show 1 * b.2.1 A + b.1 * 1 = _
    rw [hw, one_mul, mul_one]
  cases hzip : (inverted 2 i cond.length).reverse.zip cond with
  | nil =>
    rw [hzip] at hlen
    exact absurd (List.length_eq_zero_iff.1 hlen.symm) hne
  | cons b bs =>
    rw [hzip] at htracked hprod
    have ⟨hb, hbs⟩ := List.forall_mem_cons.1 htracked
    refine (emits_prod hb (List.forall_mem_map.2 hbs)).mono fun w c' _ hw => ⟨hw.1, ?_⟩
    rw [hw.2, ← hprod, List.map_cons, List.prod_cons, List.map_map]
    rfl

theorem emits_bitSelectors [Fact (Nat.Prime 2)] {c : Circuit (ZMod 2)} (m : Mux 2)
    (cond : List (ValuedWire (ZMod 2))) (hne : cond ≠ []) (hcond : ∀ w ∈ cond, w.Tracked c)
    (hn : m.numBranches ≤ 2 ^ cond.length) : Emits (m.bitSelectors cond) c fun g c' =>
      Selected c' g m.numBranches (highFirst (cond.map (·.2))) := by
  have hall := Emits.mapM (c := c) (f := bitSelector cond)
    (Q := fun i w c' => w.Tracked c' ∧ w.2 = if highFirst (cond.map (·.2)) = i then 1 else 0)
    (fun _ _ _ _ hle h => ⟨h.1.mono hle, h.2⟩) (List.range m.numBranches) fun i hi c' hle =>
      emits_bitSelector hne (fun w hw => (hcond w hw).mono hle)
        (lt_of_lt_of_le (List.mem_range.1 hi) hn)
  refine hall.mono fun g c' _ hg => 
    ⟨forall₂_right hg fun _ _ h => h.1, forall₂_map (hg.imp fun _ _ h => h.2)⟩

/-! ## Outputs -/

theorem emits_sum {s : ValuedWire (ZMod p)} (hs : s.Tracked c)
    {xs : List (ValuedWire (ZMod p) × ValuedWire (ZMod p))}
    (hxs : ∀ b ∈ xs, b.1.Tracked c ∧ b.2.Tracked c) :
    Emits (xs.foldlM (fun sum b => do
      let prod ← mul b.2 b.1
      pure (linear sum.1 1 prod.1 1, sum.2 + prod.2)) s) c fun w c' =>
        Tracked c' w ∧ w.2 = s.2 + (xs.map fun b => b.2.2 * b.1.2).sum := by
  induction xs generalizing s c with
  | nil => exact .pure ⟨hs, (add_zero _).symm⟩
  | cons b xs ih =>
    have ⟨hb, hxs⟩ := List.forall_mem_cons.1 hxs
    rw [List.foldlM_cons, bind_assoc]
    refine (emits_mul hb.2 hb.1).bind fun prod c₁ hle hprod => ?_
    rw [pure_bind]
    have hs' : Tracked c₁ (linear s.1 1 prod.1 1, s.2 + prod.2) := by
      intro A hA
      show 1 * s.1 A + 1 * prod.1 A = _
      rw [hs A (hle.sat A hA), hprod.1 A hA, one_mul, one_mul]
    refine (ih hs' fun y hy => ⟨(hxs y hy).1.mono hle, (hxs y hy).2.mono hle⟩).mono
      fun w c₂ _ hw => ⟨hw.1, ?_⟩
    rw [hw.2, hprod.2, List.map_cons, List.sum_cons, add_assoc]

theorem map_zip_mul {F : Type} [Mul F] (gs bs : List (ValuedWire F)) :
    ((bs.zip gs).map fun b => b.2.2 * b.1.2) =
      List.zipWith (· * ·) (gs.map (·.2)) (bs.map (·.2)) := by
  induction gs generalizing bs with
  | nil => rw [List.zip_nil_right, List.map_nil, List.map_nil, List.zipWith_nil_left]
  | cons g gs ih =>
    cases bs with
    | nil => rfl
    | cons b bs => rw [List.zip_cons_cons, List.map_cons, ih]; rfl

theorem emits_outputWire {g bs : List (ValuedWire (ZMod p))} (hg : ∀ w ∈ g, w.Tracked c)
    (hbs : ∀ w ∈ bs, w.Tracked c) (hg' : g ≠ []) (hbs' : bs ≠ []) :
    Emits (outputWire g bs) c fun w c' => w.Tracked c' ∧
      w.2 = (List.zipWith (· * ·) (g.map (·.2)) (bs.map (·.2))).sum := by
  cases g with
  | nil => exact absurd rfl hg'
  | cons g0 gs =>
    cases bs with
    | nil => exact absurd rfl hbs'
    | cons b0 bs =>
      have ⟨hg0, hgs⟩ := List.forall_mem_cons.1 hg
      have ⟨hb0, hbs⟩ := List.forall_mem_cons.1 hbs
      refine (emits_mul hg0 hb0).bind fun sum c₁ hle hsum => ?_
      refine (emits_sum hsum.1 fun b hb => ?_).mono fun w c₂ _ hw => ⟨hw.1, ?_⟩
      · have hmem := List.of_mem_zip hb
        exact ⟨(hbs _ hmem.1).mono hle, (hgs _ hmem.2).mono hle⟩
      · rw [hw.2, hsum.2, map_zip_mul]
        rfl

omit [Fact p.Prime] in
theorem exists_jthBranchWires {branchInputWires : List (List (ValuedWire (ZMod p)))} {j : ℕ}
    (h : ∀ wires ∈ branchInputWires, j < wires.length) :
    ∃ jth, branchInputWires.mapM (·[j]?) = some jth ∧
      List.Forall₂ (fun wires w => wires[j]? = some w) branchInputWires jth ∧
      ∀ w ∈ jth, ∃ wires ∈ branchInputWires, w ∈ wires := by
  induction branchInputWires with
  | nil => exact ⟨[], rfl, .nil, fun w hw => absurd hw List.not_mem_nil⟩
  | cons wires rest ih =>
    have ⟨hwires, hrest⟩ := List.forall_mem_cons.1 h
    obtain ⟨jth, hjth, hget, hmem⟩ := ih hrest
    have hw := List.getElem?_eq_getElem hwires
    refine ⟨wires[j] :: jth, ?_, .cons hw hget, List.forall_mem_cons.2 ⟨?_, fun w hw => ?_⟩⟩
    · rw [List.mapM_cons, hw, hjth]
      rfl
    · exact ⟨wires, List.mem_cons_self .., List.getElem_mem hwires⟩
    · obtain ⟨wires', hwires', hw⟩ := hmem w hw
      exact ⟨wires', List.mem_cons_of_mem _ hwires', hw⟩

/-- The value of the output wire with an index in its range. -/
def outputValue (branches : List (List (ZMod p))) (cond j : ℕ) : ZMod p :=
  (branches.map fun wires => wires.getD j 0).getD cond 0

theorem emits_outputs {g : List (ValuedWire (ZMod p))} {cond : ℕ}
    {branchInputWires : List (List (ValuedWire (ZMod p)))}
    (hg : Selected c g branchInputWires.length cond) (hne : branchInputWires ≠ [])
    (htracked : ∀ wires ∈ branchInputWires, ∀ w ∈ wires, w.Tracked c)
    (hlen : ∀ wires ∈ branchInputWires, wires.length = m.branchSizes.sum) :
    Emits (m.outputs g branchInputWires) c fun out c' =>
      (∀ ws ∈ out, ∀ w ∈ ws, w.Tracked c') ∧ out.map (List.map (·.2)) =
        m.branchSizes.map fun size => (List.range size).map
          (outputValue (branchInputWires.map (List.map (·.2))) cond) := by
  have hwire : ∀ size ∈ m.branchSizes, ∀ j ∈ List.range size, ∀ c', c.Le c' →
      Emits (do
        let jthBranchWires ← StateT.lift (branchInputWires.mapM (·[j]?))
        outputWire g jthBranchWires) c' fun w c'' => Tracked c'' w ∧
          w.2 = outputValue (branchInputWires.map (List.map (·.2))) cond j := by
    intro size hsize j hj c' hle
    have hjlt : ∀ wires ∈ branchInputWires, j < wires.length := by
      intro wires hwires
      rw [hlen wires hwires]
      exact lt_of_lt_of_le (List.mem_range.1 hj) (List.single_le_sum (by simp) _ hsize)
    obtain ⟨jth, hjth, hget, hmem⟩ := exists_jthBranchWires hjlt
    have hvalues : jth.map (·.2) = branchInputWires.map fun wires =>
        (wires.map (·.2)).getD j 0 := by
      refine forall₂_map (hget.imp fun wires w hw => ?_)
      rw [List.getD_eq_getElem?_getD, List.getElem?_map, hw]
      rfl
    have hjtracked : ∀ w ∈ jth, Tracked c' w := by
      intro w hw
      obtain ⟨wires, hwires, hw⟩ := hmem w hw
      exact (htracked wires hwires w hw).mono hle
    have hjlen : jth.length = branchInputWires.length := hget.length_eq.symm
    have hjne : jth ≠ [] := by
      intro h
      rw [h] at hjlen
      exact hne (List.length_eq_zero_iff.1 hjlen.symm)
    have hgne : g ≠ [] := by
      intro h
      have hvalue := congrArg List.length hg.values
      rw [h, oneHot, List.length_map, List.length_map, List.length_range] at hvalue
      exact hne (List.length_eq_zero_iff.1 hvalue.symm)
    refine Emits.lift_bind hjth ((emits_outputWire (fun w hw => (hg.tracked w hw).mono hle)
      hjtracked hgne hjne).mono fun w c'' _ hw => ⟨hw.1, ?_⟩)
    have hmlen : branchInputWires.length = (jth.map (·.2)).length := by
      rw [List.length_map, hjlen]
    rw [hw.2, hg.values, hmlen, sum_oneHot, hvalues, outputValue, List.map_map]
    rfl
  refine (Emits.mapM (c := c)
    (Q := fun (size : ℕ) (ws : List (ValuedWire (ZMod p))) c' =>
      (∀ w ∈ ws, Tracked c' w) ∧ ws.map (·.2) =
      (List.range size).map (outputValue (branchInputWires.map (List.map (·.2))) cond))
    (fun _ _ _ _ hle h => ⟨fun w hw => (h.1 w hw).mono hle, h.2⟩) m.branchSizes
    fun size hsize c' hle => ?_).mono fun out c' _ hout =>
      ⟨forall₂_right hout fun _ _ h => h.1, forall₂_map (hout.imp fun _ _ h => h.2)⟩
  refine (Emits.mapM (c := c') (Q := fun j w c'' => Tracked c'' w ∧
      w.2 = outputValue (branchInputWires.map (List.map (·.2))) cond j)
    (fun _ _ _ _ hle h => ⟨h.1.mono hle, h.2⟩) (List.range size)
    fun j hj c'' hle' => hwire size hsize j hj c'' (hle.trans hle')).mono fun ws c'' _ hws =>
      ⟨forall₂_right hws fun _ _ h => h.1, forall₂_map (hws.imp fun _ _ h => h.2)⟩

/-! ## Strict muxes -/

theorem sum_wires (gs : List (ValuedWire (ZMod p))) (s : WireRef (ZMod p))
    (A : Assignment (ZMod p)) : gs.foldl (fun sum gI => linear sum 1 gI.1 1) s A =
      s A + (gs.map fun g => g.1 A).sum := by
  induction gs generalizing s with
  | nil => exact (add_zero _).symm
  | cons g gs ih =>
    rw [List.foldl_cons, ih, List.map_cons, List.sum_cons, ← add_assoc]
    show 1 * s A + 1 * g.1 A + _ = _
    rw [one_mul, one_mul]

theorem exists_assertStrict {g : List (ValuedWire (ZMod p))} (hg : ∀ w ∈ g, w.Tracked c)
    (hne : g ≠ []) : ∃ x, assertStrict g = assertZero x ∧
      ∀ A, c.Sat A → x A = (g.map (·.2)).sum - 1 := by
  cases g with
  | nil => exact absurd rfl hne
  | cons g0 gs =>
    refine ⟨_, rfl, fun A hA => ?_⟩
    have hgs : (gs.map fun g => g.1 A) = gs.map (·.2) :=
      List.map_congr_left fun g hg' => hg g (List.mem_cons_of_mem _ hg') A hA
    show 1 * gs.foldl (fun sum gI => linear sum 1 gI.1 1) g0.1 A + -1 * 1 = _
    rw [sum_wires, hgs, hg g0 (List.mem_cons_self ..) A hA, List.map_cons, List.sum_cons]
    ring

theorem sum_oneHot_self (n cond : ℕ) :
    (oneHot p n cond).sum = if cond < n then 1 else 0 := by
  induction n with
  | zero => rfl
  | succ n ih =>
    rw [oneHot_succ, List.sum_append, ih, List.sum_singleton]
    rcases lt_trichotomy cond n with hlt | rfl | hgt
    · rw [if_pos hlt, if_neg hlt.ne, if_pos (by omega), add_zero]
    · rw [if_neg (lt_irrefl _), if_pos rfl, if_pos (by omega), zero_add]
    · rw [if_neg (by omega), if_neg hgt.ne', if_neg (by omega), add_zero]

/-- The emissions after the selectors. The assertions can be satisfied unless a strict mux has no
selector for its condition. -/
theorem afterSelectors {g : List (ValuedWire (ZMod p))} {cond : ℕ}
    (branchInputWires : List (List (ValuedWire (ZMod p)))) (hc : c.Valid)
    (hg : Selected c g branchInputWires.length cond) (hne : branchInputWires ≠ [])
    (htracked : ∀ wires ∈ branchInputWires, ∀ w ∈ wires, w.Tracked c)
    (hlen : ∀ wires ∈ branchInputWires, wires.length = m.branchSizes.sum) :
    ∃ out c', (do
      if m.permissiveness = .strict then assertStrict g
      m.outputs g branchInputWires : Emit (ZMod p) (List (List (ValuedWire (ZMod p))))) c =
        some (out, c') ∧
      (∀ ws ∈ out, ∀ w ∈ ws, w.Tracked c') ∧
      (out.map (List.map (·.2)) = m.branchSizes.map fun size => (List.range size).map
        (outputValue (branchInputWires.map (List.map (·.2))) cond)) ∧
      ((∃ A, c'.Sat A) ↔ (m.permissiveness = .strict → cond < branchInputWires.length)) := by
  have houtputs : ∀ c₁, c.Le c₁ → Emits (m.outputs g branchInputWires) c₁ _ := fun c₁ hle =>
    emits_outputs m (hg.mono hle) hne (fun wires hw w hw' => (htracked wires hw w hw').mono hle) hlen
  have hsat : ∀ {c' : Circuit (ZMod p)}, c'.Valid → ∃ A, c'.Sat A := fun {c'} hc' =>
    ⟨c'.honest, hc' _ c'.follows_honest⟩
  by_cases hstrict : m.permissiveness = .strict
  · have hgne : g ≠ [] := by
      intro h
      have hvalue := congrArg List.length hg.values
      rw [h, oneHot, List.length_map, List.length_map, List.length_range] at hvalue
      exact hne (List.length_eq_zero_iff.1 hvalue.symm)
    obtain ⟨x, hx, hxA⟩ := exists_assertStrict hg.tracked hgne
    have hadd : c.Le ⟨c.fixes, c.assertions ++ [.zero x]⟩ :=
      ⟨fun A hA => (Circuit.sat_append.1 hA).1, fun A hA => hA⟩
    obtain ⟨out, c', hout, hle, hvalid, hout', hvalues⟩ := houtputs _ hadd
    refine ⟨out, c', ?_, hout', hvalues, ⟨fun ⟨A, hA⟩ _ => ?_, fun hcond => hsat (hvalid ?_)⟩⟩
    · rw [if_pos hstrict, hx]
      exact hout
    · have ⟨hA', hzero⟩ := Circuit.sat_append.1 (hle.sat A hA)
      have hholds := List.forall_mem_singleton.1 hzero
      have hxzero : x A = 0 := hholds
      rw [hxA A hA', hg.values, sum_oneHot_self] at hxzero
      by_contra hge
      rw [if_neg hge, zero_sub] at hxzero
      exact one_ne_zero (neg_eq_zero.1 hxzero)
    · intro A hA
      have hA' := hc A hA
      refine Circuit.sat_append.2 ⟨hA', List.forall_mem_singleton.2 ?_⟩
      show x A = 0
      rw [hxA A hA', hg.values, sum_oneHot_self, if_pos (hcond hstrict), sub_self]
  · obtain ⟨out, c', hout, hle, hvalid, hout', hvalues⟩ := houtputs c (.refl c)
    refine ⟨out, c', ?_, hout', hvalues, ⟨fun _ h => absurd h hstrict, fun _ => hsat (hvalid hc)⟩⟩
    rw [if_neg hstrict]
    exact hout

end EdaBitGen.SieveCompiler.Mux

/-!
## The two sides of a mux

The compiled mux is the evaluated one when both orders of the condition's bits give the same branch
and only one output range has wires.
-/

namespace EdaBitGen.SieveCompiler.Mux

open ValuedWire

variable {p : ℕ} [Fact p.Prime] (m : Mux p) (v : m.Values)

/-- The compiled mux is the evaluated one, for every assignment and for the tracked values. -/
def Agrees : Prop :=
  match m.compile v ⟨[], []⟩ with
  | none => m.plaintext v = none
  | some (out, c) =>
    (∀ A, c.Sat A → m.plaintext v = some (out.map (List.map fun w => w.1 A))) ∧
      ((∃ A, c.Sat A) ↔ (m.plaintext v).isSome) ∧
      ∀ o, m.plaintext v = some o → o = out.map (List.map (·.2))

/-- Every condition fits in a `usize`. -/
def CondFits : Prop := if p = 2 then m.condCount ≤ 64 else p ≤ 2 ^ 64

/-- The orders of the bits give the same branch, or no wire shows the branch and the branch is there in
both orders. -/
def SameOrder : Prop :=
  if m.branchSizes.sum = 0 then
    m.permissiveness = .strict → ∀ cond : List (ZMod 2), cond.length = m.condCount →
      (lowFirst cond < m.numBranches ↔ highFirst cond < m.numBranches)
  else m.numBranches = 1 ∨ m.condCount = 1

/-- At most one output range has wires. -/
def OneRange : Prop := (m.branchSizes.filter (· ≠ 0)).length ≤ 1

def Faithful : Prop :=
  if m.numBranches = 0 then
    m.permissiveness = .strict ∨ (m.branchSizes.sum = 0 ∧ m.CondFits)
  else (p = 2 → m.condCount ≠ 0 ∧ m.SameOrder) ∧ m.OneRange ∧
    (m.permissiveness = .permissive → m.CondFits)

/-! ## The evaluator -/

omit [Fact p.Prime] in
/-- The branch that the evaluator takes. -/
def evaluatedBranch : ℕ := if p = 2 then lowFirst v.cond else (v.cond.headD 0).val

omit [Fact p.Prime] in
/-- The branch whose selector is one. -/
def selectedBranch : ℕ := if p = 2 then highFirst v.cond else (v.cond.headD 0).val

theorem plaintextCond_eq : m.plaintextCond v =
    if m.evaluatedBranch v < 2 ^ 64 then some (m.evaluatedBranch v) else none := by
  unfold plaintextCond evaluatedBranch
  by_cases hp : p = 2
  · subst hp
    rw [if_pos rfl, if_pos rfl, bitsToUsize_f2]
  · rw [if_neg hp, if_neg hp]
    have hlen := v.length_cond.trans (m.cond_single hp)
    obtain ⟨x, hx⟩ := List.length_eq_one_iff.1 hlen
    rw [hx]
    exact bitsToUsize_bitDecomposition x

omit [Fact p.Prime] in
theorem take_ranges {ranges : List (List (ZMod p))} {sizes : List ℕ}
    (h : ranges.map List.length = sizes) :
    ((ranges.zip sizes).map fun r => r.1.take r.2) = ranges := by
  subst h
  induction ranges with
  | nil => rfl
  | cons r ranges ih =>
    rw [List.map_cons, List.zip_cons_cons, List.map_cons, ih, List.take_length]

def evaluatedOutputs : Option (List (List (ZMod p))) :=
  match v.branchInputs[m.evaluatedBranch v]? with
  | some ranges => some ranges
  | none => if m.permissiveness = .strict then none
      else some (m.branchSizes.map fun size => List.replicate size 0)

theorem plaintext_eq : m.plaintext v =
    if m.evaluatedBranch v < 2 ^ 64 then m.evaluatedOutputs v else none := by
  unfold plaintext evaluatedOutputs
  rw [plaintextCond_eq]
  by_cases hfits : m.evaluatedBranch v < 2 ^ 64
  · rw [if_pos hfits, if_pos hfits]
    rw [Option.bind_eq_bind, Option.bind_some]
    cases hget : v.branchInputs[m.evaluatedBranch v]? with
    | none =>
      cases hperm : m.permissiveness with
      | strict => rfl
      | permissive => rfl
    | some ranges => exact congrArg some (take_ranges (v.sizes ranges (List.mem_of_getElem? hget)))
  · rw [if_neg hfits, if_neg hfits]
    rfl

def compiledOutputs : List (List (ZMod p)) :=
  m.branchSizes.map fun size => (List.range size).map
    (outputValue (v.branchInputs.map List.flatten) (m.selectedBranch v))

theorem emits_selectors (hcond : p = 2 → m.condCount ≠ 0) :
    Emits (m.selectors (v.cond.map fun x => (constant x, x))) ⟨[], []⟩ fun g c =>
      Selected c g m.numBranches (m.selectedBranch v) := by
  have haddr := m.addressable
  unfold selectedBranch selectors
  by_cases hp : p = 2
  · subst hp
    rw [if_pos rfl, if_pos rfl]
    rw [if_pos rfl] at haddr
    have hvalues : ((v.cond.map fun x => ((constant x, x) : ValuedWire (ZMod 2))).map (·.2)) =
        v.cond := by
      rw [List.map_map]
      exact List.map_id _
    have hemits := emits_bitSelectors (c := ⟨[], []⟩) m
      (v.cond.map fun x => (constant x, x)) ?_ ?_ ?_
    · rwa [hvalues] at hemits
    · intro h
      apply hcond rfl
      rw [← v.length_cond, List.map_eq_nil_iff.1 h]
      rfl
    · exact List.forall_mem_map.2 fun x _ => tracked_constant x
    · rwa [List.length_map, v.length_cond]
  · rw [if_neg hp, if_neg hp]
    rw [if_neg hp] at haddr
    obtain ⟨x, hx⟩ := List.length_eq_one_iff.1 (v.length_cond.trans (m.cond_single hp))
    rw [hx]
    exact emits_valueSelectors m (tracked_constant x) haddr

theorem compile_eq (hne : m.numBranches ≠ 0) (hcond : p = 2 → m.condCount ≠ 0) :
    ∃ out c, m.compile v ⟨[], []⟩ = some (out, c) ∧ (∀ ws ∈ out, ∀ w ∈ ws, Tracked c w) ∧
      out.map (List.map (·.2)) = m.compiledOutputs v ∧
      ((∃ A, c.Sat A) ↔ (m.permissiveness = .strict → m.selectedBranch v < m.numBranches)) := by
  obtain ⟨g, c, hg, hle, hvalid, hselected⟩ := m.emits_selectors v hcond
  have hlen : (v.branchInputs.map fun ranges => ranges.flatten.map fun x =>
      ((constant x, x) : ValuedWire (ZMod p))).length = m.numBranches := by
    rw [List.length_map, v.length_branchInputs]
  have hvalues : (v.branchInputs.map fun ranges => ranges.flatten.map fun x =>
      ((constant x, x) : ValuedWire (ZMod p))).map (List.map (·.2)) =
        v.branchInputs.map List.flatten := by
    rw [List.map_map]
    refine List.map_congr_left fun ranges _ => ?_
    show (ranges.flatten.map _).map _ = _
    rw [List.map_map]
    exact List.map_id _
  have hempty : Circuit.Valid (⟨[], []⟩ : Circuit (ZMod p)) :=
    fun _ _ a ha => absurd ha List.not_mem_nil
  have hafter := m.afterSelectors
    (v.branchInputs.map fun ranges => ranges.flatten.map fun x => (constant x, x))
    (hvalid hempty) (hlen.symm ▸ hselected) ?_ ?_ ?_
  · rw [hvalues, hlen] at hafter
    obtain ⟨out, c', hout, htracked, hout', hsat⟩ := hafter
    refine ⟨out, c', ?_, htracked, hout', hsat⟩
    exact (bind_eq hg).trans hout
  · intro h
    rw [h] at hlen
    exact hne hlen.symm
  · intro wires hwires w hw
    obtain ⟨ranges, -, rfl⟩ := List.mem_map.1 hwires
    obtain ⟨x, -, rfl⟩ := List.mem_map.1 hw
    exact tracked_constant x
  · intro wires hwires
    obtain ⟨ranges, hranges, rfl⟩ := List.mem_map.1 hwires
    rw [List.length_map, List.length_flatten, v.sizes ranges hranges]

theorem agrees_iff (hne : m.numBranches ≠ 0) (hcond : p = 2 → m.condCount ≠ 0) :
    m.Agrees v ↔ m.plaintext v =
      if m.permissiveness = .strict → m.selectedBranch v < m.numBranches
      then some (m.compiledOutputs v) else none := by
  obtain ⟨out, c, hcompile, htracked, hout, hsat⟩ := m.compile_eq v hne hcond
  have hwires : ∀ A, c.Sat A → out.map (List.map fun w => w.1 A) = m.compiledOutputs v := by
    intro A hA
    rw [← hout]
    exact List.map_congr_left fun ws hws => List.map_congr_left fun w hw => htracked ws hws w hw A hA
  unfold Agrees
  rw [hcompile]
  dsimp only
  rw [hsat]
  constructor
  · rintro ⟨hA, hsome, -⟩
    by_cases hselected : m.permissiveness = .strict → m.selectedBranch v < m.numBranches
    · obtain ⟨A, hsatA⟩ := hsat.2 hselected
      rw [if_pos hselected, hA A hsatA, hwires A hsatA]
    · rw [if_neg hselected]
      exact Option.not_isSome_iff_eq_none.1 fun h => hselected (hsome.2 h)
  · intro h
    rw [h]
    refine ⟨fun A hA => ?_, ?_, fun o ho => ?_⟩
    · rw [if_pos (hsat.1 ⟨A, hA⟩), hwires A hA]
    · split
      · exact ⟨fun _ => rfl, fun _ => ‹_›⟩
      · exact ⟨fun h => absurd h ‹_›, fun h => absurd h Bool.false_ne_true⟩
    · rw [hout]
      split at ho
      · exact (Option.some.inj ho).symm
      · cases ho

end EdaBitGen.SieveCompiler.Mux
