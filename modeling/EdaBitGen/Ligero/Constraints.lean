import EdaBitGen.Ligero.Prover
import EdaBitGen.SimpleArithCircuit.Wires

/-!
# The constraints on an honest witness

Sums over the entries of the matrices of a circuit, for a prover whose extended witness is what is on
the wires of the circuit.
-/

namespace EdaBitGen.Ligero

open Inferno (Circuit Op opValue opValue_congr getD_wires)

variable {F : Type} [Field F]

/-! ## Vectors -/

theorem dot_eq_sum {xs ys : List F} {n : ℕ} (hx : xs.length = n) (hy : ys.length = n) :
    dot xs ys = some (∑ k ∈ Finset.range n, xs.getD k 0 * ys.getD k 0) := by
  subst hx
  rw [dot, if_pos hy.symm, Option.some_inj]
  induction xs generalizing ys with
  | nil => simp
  | cons x xs ih =>
    cases ys with
    | nil => cases hy
    | cons y ys =>
      rw [List.zipWith_cons_cons, List.sum_cons, ih (Nat.succ.inj hy), List.length_cons,
        Finset.sum_range_succ']
      simp [add_comm]

theorem getD_set {xs : List F} {p : ℕ} (hp : p < xs.length) (v : F) (k : ℕ) :
    (xs.set p v).getD k 0 = if k = p then v else xs.getD k 0 := by
  rw [List.getD_eq_getElem?_getD, List.getElem?_set]
  by_cases hk : p = k
  · subst hk
    rw [if_pos rfl, if_pos hp, if_pos rfl, Option.getD_some]
  · rw [if_neg hk, if_neg (Ne.symm hk), List.getD_eq_getElem?_getD]

theorem sum_mul_set (r : ℕ → F) {xs : List F} {p : ℕ} (hp : p < xs.length) (hzero : xs.getD p 0 = 0)
    (v : F) : ∑ k ∈ Finset.range xs.length, r k * (xs.set p v).getD k 0 =
      (∑ k ∈ Finset.range xs.length, r k * xs.getD k 0) + r p * v := by
  have hterm : ∀ k ∈ Finset.range xs.length, r k * (xs.set p v).getD k 0 =
      r k * xs.getD k 0 + if k = p then r p * v else 0 := by
    intro k _
    rw [getD_set hp]
    split_ifs with h
    · rw [h, hzero, mul_zero, zero_add]
    · rw [add_zero]
  rw [Finset.sum_congr rfl hterm, Finset.sum_add_distrib, Finset.sum_ite_eq' (Finset.range _) p,
    if_pos (Finset.mem_range.2 hp)]

/-- A step that writes the values of some gates at their wires. -/
def IsWrite (g : Op F → ℕ → Option F) (ninputs : ℕ) (step : List F → Op F × ℕ → List F) : Prop :=
  ∀ xs op, step xs op = match g op.1 (op.2 + ninputs) with
    | some v => xs.set (op.2 + ninputs) v
    | none => xs

section Writes

variable {g : Op F → ℕ → Option F} {ninputs : ℕ} {step : List F → Op F × ℕ → List F}
  (hstep : IsWrite g ninputs step) {ml : ℕ}
include hstep

omit [Field F] in
theorem length_foldl_write (ops : List (Op F × ℕ)) (xs : List F) :
    (ops.foldl step xs).length = xs.length := by
  induction ops generalizing xs with
  | nil => rfl
  | cons op ops ih =>
    rw [List.foldl_cons, ih, hstep]
    split
    · exact List.length_set
    · rfl

theorem getD_foldl_write {ops : List (Op F)} (hml : ops.length + ninputs ≤ ml) (k : ℕ) :
    (ops.zipIdx.foldl step (List.replicate ml 0)).getD k 0 =
      if ninputs ≤ k then (ops[k - ninputs]?.bind fun op => g op k).getD 0 else 0 := by
  induction ops using List.reverseRecOn with
  | nil => simp
  | append_singleton ops op ih =>
    rw [List.length_append, List.length_singleton] at hml
    rw [List.zipIdx_append, List.foldl_append, List.zipIdx_singleton, List.foldl_cons,
      List.foldl_nil, hstep]
    have hlen : (ops.zipIdx.foldl step (List.replicate ml 0)).length = ml := by
      rw [length_foldl_write hstep, List.length_replicate]
    have ih' := ih (by omega)
    simp only [Nat.zero_add]
    by_cases hk : k = ops.length + ninputs
    · subst hk
      have hat : (ops ++ [op])[ops.length + ninputs - ninputs]? = some op := by simp
      rw [if_pos (Nat.le_add_left _ _), hat, Option.bind_some]
      cases hg : g op (ops.length + ninputs) with
      | none =>
        rw [Option.getD_none]
        rw [if_pos (Nat.le_add_left _ _), Nat.add_sub_cancel, List.getElem?_eq_none le_rfl] at ih'
        exact ih'
      | some v =>
        have hlt : ops.length + ninputs < (ops.zipIdx.foldl step (List.replicate ml 0)).length := by
          omega
        simp only [getD_set hlt, if_true, Option.getD_some]
    · have hsame : ninputs ≤ k → (ops ++ [op])[k - ninputs]? = ops[k - ninputs]? := by
        intro hle
        rcases Nat.lt_or_ge (k - ninputs) ops.length with hlt | hge
        · rw [List.getElem?_append_left hlt]
        · rw [List.getElem?_eq_none hge, List.getElem?_eq_none]
          rw [List.length_append, List.length_singleton]
          omega
      have hold : (ops.zipIdx.foldl step (List.replicate ml 0)).getD k 0 =
          if ninputs ≤ k then ((ops ++ [op])[k - ninputs]?.bind fun op => g op k).getD 0 else 0 := by
        rw [ih']
        split_ifs with hle
        · rw [hsame hle]
        · rfl
      cases hg : g op (ops.length + ninputs) with
      | none => exact hold
      | some v =>
        have hlt : ops.length + ninputs < (ops.zipIdx.foldl step (List.replicate ml 0)).length := by
          omega
        simp only [getD_set hlt, if_neg hk]
        exact hold

theorem sum_foldl_write (r : ℕ → F) {ops : List (Op F)} (hml : ops.length + ninputs ≤ ml) :
    ∑ k ∈ Finset.range ml, r k * (ops.zipIdx.foldl step (List.replicate ml 0)).getD k 0 =
      (ops.zipIdx.map fun op => r (op.2 + ninputs) * (g op.1 (op.2 + ninputs)).getD 0).sum := by
  induction ops using List.reverseRecOn with
  | nil => simp
  | append_singleton ops op ih =>
    rw [List.length_append, List.length_singleton] at hml
    have ih' := ih (by omega)
    have hlen : (ops.zipIdx.foldl step (List.replicate ml 0)).length = ml := by
      rw [length_foldl_write hstep, List.length_replicate]
    rw [List.zipIdx_append, List.foldl_append, List.zipIdx_singleton, List.foldl_cons,
      List.foldl_nil, hstep, List.map_append, List.sum_append, ← ih']
    simp only [Nat.zero_add, List.map_singleton, List.sum_singleton]
    cases hg : g op (ops.length + ninputs) with
    | none => simp
    | some v =>
      have hlt : ops.length + ninputs < (ops.zipIdx.foldl step (List.replicate ml 0)).length := by
        omega
      have hle : ops.length + ninputs ≤ ml := by omega
      have hzero := getD_foldl_write hstep hle (ops.length + ninputs)
      rw [if_pos (Nat.le_add_left _ _), Nat.add_sub_cancel, List.getElem?_eq_none le_rfl] at hzero
      have hset := sum_mul_set r hlt hzero v
      rw [hlen] at hset
      exact hset

end Writes

/-- The value of a matrix between two vectors. -/
def TriMat.bilinear (P : TriMat F) (r w : ℕ → F) : F :=
  (P.map fun e => e.2.2 * r e.1 * w e.2.1).sum

theorem TriMat.bilinear_append (P P' : TriMat F) (r w : ℕ → F) :
    TriMat.bilinear (P ++ P') r w = P.bilinear r w + P'.bilinear r w := by
  rw [bilinear, List.map_append, List.sum_append]
  rfl

theorem TriMat.bilinear_flatMap {α : Type} (f : α → TriMat F) (xs : List α) (r w : ℕ → F) :
    TriMat.bilinear (xs.flatMap f) r w = (xs.map fun x => (f x).bilinear r w).sum := by
  induction xs with
  | nil => rfl
  | cons x xs ih => rw [List.flatMap_cons, bilinear_append, ih, List.map_cons, List.sum_cons]

theorem TriMat.length_combine (P : TriMat F) (n : ℕ) (ra : List F) :
    (P.combine n ra).length = n := by simp [combine]

theorem TriMat.sum_combine (P : TriMat F) {n : ℕ} (ra : List F) (w : ℕ → F)
    (hcols : ∀ e ∈ P, e.2.1 < n) :
    ∑ c ∈ Finset.range n, (P.combine n ra).getD c 0 * w c = P.bilinear (ra.getD · 0) w := by
  have hget : ∀ (P : TriMat F), ∀ c ∈ Finset.range n, (TriMat.combine P n ra).getD c 0 =
      ((P.filter fun e => e.2.1 = c).map fun e => e.2.2 * ra.getD e.1 0).sum := by
    intro P c hc
    exact getD_map_range _ (Finset.mem_range.1 hc)
  induction P with
  | nil =>
    refine Finset.sum_eq_zero fun c hc => ?_
    rw [hget _ c hc]
    simp
  | cons e P ih =>
    have hterm : ∀ c ∈ Finset.range n, (TriMat.combine (e :: P) n ra).getD c 0 * w c =
        (if c = e.2.1 then e.2.2 * ra.getD e.1 0 * w e.2.1 else 0) +
          (TriMat.combine P n ra).getD c 0 * w c := by
      intro c hc
      rw [hget _ c hc, hget _ c hc, List.filter_cons]
      by_cases h : e.2.1 = c
      · rw [if_pos (decide_eq_true h), if_pos h.symm, List.map_cons, List.sum_cons, add_mul, h]
      · rw [if_neg (by simpa using h), if_neg (Ne.symm h), zero_add]
    rw [Finset.sum_congr rfl hterm, Finset.sum_add_distrib,
      ih fun e' he' => hcols e' (List.mem_cons_of_mem _ he'), Finset.sum_ite_eq' (Finset.range n),
      if_pos (Finset.mem_range.2 (hcols e List.mem_cons_self)), bilinear, bilinear, List.map_cons,
      List.sum_cons]

/-! ## Sums over the gates -/

omit [Field F] in
theorem cols_gateEntries {c : Circuit F} {gate : ℕ → Op F → TriMat F} {n : ℕ}
    (hn : c.ops.length + c.ninputs ≤ n)
    (hgate : ∀ k op, ∀ e ∈ gate k op, e.2.1 = k ∨ e.2.1 ∈ op.args) :
    ∀ e ∈ gateEntries c gate, e.2.1 < n := by
  intro e he
  obtain ⟨p, hp, he⟩ := List.mem_flatMap.1 he
  have hlt : p.2 < c.ops.length := by
    have h := List.mem_zipIdx_iff_getElem?.1 hp
    exact (List.getElem?_eq_some_iff.1 h).1
  rcases hgate _ _ e he with h | h
  · omega
  · have hargs := c.args_lt p hp _ h
    omega

theorem cols_linear (k : ℕ) (op : Op F) : ∀ e ∈ linear k op, e.2.1 = k ∨ e.2.1 ∈ op.args := by
  cases op <;> simp [linear, Op.args]

omit [Field F] in
theorem isWrite_setConstant (ninputs : ℕ) :
    IsWrite (fun (op : Op F) _ => match op with
      | .constant f => some f
      | _ => none) ninputs (setConstant ninputs) := by
  rintro xs ⟨op, s⟩
  cases op <;> rfl

theorem isWrite_setProduct (pick : ℕ → ℕ → ℕ → ℕ) (w : List F) (ninputs : ℕ) :
    IsWrite (fun (op : Op F) k => match op with
      | .mul i j => some (w.getD (pick i j k) 0)
      | _ => none) ninputs (setProduct pick w ninputs) := by
  rintro xs ⟨op, s⟩
  cases op <;> rfl

theorem sum_elements {c : Circuit F} {ml : ℕ} (hml : c.ops.length + c.ninputs ≤ ml)
    (pick : ℕ → ℕ → ℕ → ℕ) (w : List F) (r : ℕ → F) :
    ∑ k ∈ Finset.range ml, r k *
      (c.ops.zipIdx.foldl (setProduct pick w c.ninputs) (List.replicate ml 0)).getD k 0 =
      (gateEntries c (products pick)).bilinear r (w.getD · 0) := by
  rw [sum_foldl_write (isWrite_setProduct pick w c.ninputs) r hml, gateEntries,
    TriMat.bilinear_flatMap]
  congr 1
  refine List.map_congr_left fun p _ => ?_
  obtain ⟨op, s⟩ := p
  cases op <;> simp [products, TriMat.bilinear]

theorem bilinear_linear {c : Circuit F} {w : ℕ → F}
    (hw : ∀ p ∈ c.ops.zipIdx, w (p.2 + c.ninputs) = opValue w p.1) {ml : ℕ}
    (hml : c.ops.length + c.ninputs ≤ ml) (r : ℕ → F) :
    (gateEntries c linear).bilinear r w =
      ∑ k ∈ Finset.range ml, r k * (constants c ml).getD k 0 := by
  rw [constants, sum_foldl_write (isWrite_setConstant c.ninputs) r hml, gateEntries,
    TriMat.bilinear_flatMap]
  congr 1
  refine List.map_congr_left fun p hp => ?_
  have hp' := hw p hp
  obtain ⟨op, s⟩ := p
  cases op with
  | mul i j => simp [linear, TriMat.bilinear]
  | add i j =>
    simp only [linear, TriMat.bilinear, List.map_cons, List.map_nil, List.sum_cons, List.sum_nil,
      Option.getD_none, mul_zero, hp', opValue]
    ring
  | sub i j =>
    simp only [linear, TriMat.bilinear, List.map_cons, List.map_nil, List.sum_cons, List.sum_nil,
      Option.getD_none, mul_zero, hp', opValue]
    ring
  | constant f => simp [linear, TriMat.bilinear, hp', opValue]
  | copy i =>
    simp only [linear, TriMat.bilinear, List.map_cons, List.map_nil, List.sum_cons, List.sum_nil,
      Option.getD_none, mul_zero, hp', opValue]
    ring

/-! ## The extended witness -/

omit [Field F] in
theorem length_assign {xs ys : List F} {start : ℕ} (h : start + ys.length ≤ xs.length) :
    (assign xs start ys).length = xs.length := by
  rw [assign, List.length_append, List.length_append, List.length_take, List.length_drop]
  omega

theorem getD_assign {xs ys : List F} {start : ℕ} (h : start + ys.length ≤ xs.length) (k : ℕ) :
    (assign xs start ys).getD k 0 =
      if start ≤ k ∧ k < start + ys.length then ys.getD (k - start) 0 else xs.getD k 0 := by
  have htake : (xs.take start).length = start := by
    rw [List.length_take]
    omega
  simp only [assign, List.append_assoc, List.getD_eq_getElem?_getD]
  by_cases hlt : k < start
  · rw [List.getElem?_append_left (by omega), List.getElem?_take_of_lt hlt, if_neg (by omega)]
  · rw [List.getElem?_append_right (by omega), htake]
    by_cases hin : k - start < ys.length
    · rw [List.getElem?_append_left hin, if_pos (by omega)]
    · rw [List.getElem?_append_right (by omega), List.getElem?_drop, if_neg (by omega)]
      congr 2
      omega

variable [FieldForLigero F]

/-- The extended witness of a prover, with what is on the wires and a mask. -/
def extWitness (pub : Public F) (c : Circuit F) (inp : List F) (mask : F) : List F :=
  assign (assign (List.replicate (pub.params.m * pub.params.l) 0) 0 (c.wires inp))
    pub.sharedMask.start [mask]

section

variable {c : Circuit F} {shared : Option Range} {pub : Public F} (hpub : IsPublic c shared pub)
  {inp : List F} (hinp : inp.length = c.ninputs) (mask : F)
include hpub hinp

theorem length_assign_wires :
    (assign (List.replicate (pub.params.m * pub.params.l) 0) 0 (c.wires inp)).length =
      pub.params.m * pub.params.l := by
  have hsize := hpub.size_le
  have hwires := c.length_wires inp
  rw [length_assign, List.length_replicate]
  rw [List.length_replicate]
  omega

theorem length_extWitness :
    (extWitness pub c inp mask).length = pub.params.m * pub.params.l := by
  have hsize := hpub.size_le
  have hinner := length_assign_wires hpub hinp
  rw [extWitness, length_assign, hinner]
  rw [hinner, List.length_singleton, hpub.mask_start]
  omega

theorem getD_extWitness (k : ℕ) : (extWitness pub c inp mask).getD k 0 =
    if k = pub.sharedMask.start then mask else (c.wires inp).getD k 0 := by
  have hsize := hpub.size_le
  have hwires := c.length_wires inp
  have hinner := length_assign_wires hpub hinp
  rw [extWitness, getD_assign, getD_assign]
  · by_cases hk : k = pub.sharedMask.start
    · rw [if_pos hk, if_pos (by rw [hk, List.length_singleton]; omega), hk, Nat.sub_self]
      rfl
    · rw [if_neg hk, if_neg (by rw [List.length_singleton]; omega)]
      split_ifs with h
      · rw [Nat.sub_zero]
      · rw [List.getD_eq_getElem?_getD, List.getD_eq_getElem?_getD,
          List.getElem?_eq_none (by omega : (c.wires inp).length ≤ k), List.getElem?_replicate]
        split_ifs <;> rfl
  · rw [List.length_replicate]
    omega
  · rw [hinner, List.length_singleton, hpub.mask_start]
    omega

theorem opValue_extWitness {p : Op F × ℕ} (hp : p ∈ c.ops.zipIdx) :
    (extWitness pub c inp mask).getD (p.2 + c.ninputs) 0 =
      opValue ((extWitness pub c inp mask).getD · 0) p.1 := by
  have hlt : p.2 < c.ops.length :=
    (List.getElem?_eq_some_iff.1 (List.mem_zipIdx_iff_getElem?.1 hp)).1
  have hmask := hpub.mask_start
  rw [getD_extWitness hpub hinp, if_neg (by omega), getD_wires hinp hp]
  refine opValue_congr fun i hi => ?_
  have hargs := c.args_lt p hp i hi
  rw [getD_extWitness hpub hinp, if_neg (by omega)]

end

/-! ## The shared check -/

omit [FieldForLigero F] in
theorem bilinear_shared_row (m : ℕ) (r : ℕ → F) (w row : List F) {start : ℕ}
    (hle : start + row.length ≤ w.length) :
    TriMat.bilinear (List.zipWith (fun s x => (m, s, x)) (List.range' start row.length) row) r
        (w.getD · 0) =
      r m * (List.zipWith (· * ·) row ((w.drop start).take row.length)).sum := by
  induction row generalizing start with
  | nil => simp [TriMat.bilinear]
  | cons x row ih =>
    rw [List.length_cons] at hle
    have hlt : start < w.length := by omega
    have ih' := @ih (start + 1) (by omega)
    rw [TriMat.bilinear] at ih' ⊢
    rw [List.length_cons, List.range'_succ, List.zipWith_cons_cons, List.map_cons, List.sum_cons,
      ih', List.drop_eq_getElem_cons hlt, List.take_succ_cons, List.zipWith_cons_cons,
      List.sum_cons, List.getD_eq_getElem?_getD, List.getElem?_eq_getElem hlt, Option.getD_some]
    ring

omit [FieldForLigero F] in
theorem bilinear_append_zero {w : ℕ → F} {j : ℕ} (hzero : w j = 0) (r : ℕ → F) (i : ℕ) (x : F)
    (P Q : TriMat F) :
    TriMat.bilinear (P ++ [(i, j, x)] ++ Q) r w = P.bilinear r w + Q.bilinear r w := by
  have hentry : TriMat.bilinear [(i, j, x)] r w = 0 := by
    simp only [TriMat.bilinear, List.map_singleton, List.sum_singleton, hzero, mul_zero]
  rw [TriMat.bilinear_append, TriMat.bilinear_append, hentry, add_zero]

omit [FieldForLigero F] in
theorem makeQshared_singleton {w : List F} {shared sharedMask : Range} (hone : sharedMask.len = 1)
    (hmask : sharedMask.start < w.length) (row : List F) :
    makeQshared w shared sharedMask [row] =
      [(List.zipWith (· * ·) row ((w.drop shared.start).take shared.len)).sum +
        w.getD sharedMask.start 0] := by
  have hlast : ((w.drop sharedMask.start).take 1) = [w.getD sharedMask.start 0] := by
    rw [List.drop_eq_getElem_cons hmask, List.take_succ_cons, List.take_zero,
      List.getD_eq_getElem?_getD, List.getElem?_eq_getElem hmask, Option.getD_some]
  rw [makeQshared, hone, hlast]
  rfl

section

variable {c : Circuit F} {shared : Option Range} {pub pub' : Public F}
  (hpub : IsPublic c shared pub)

include hpub

theorem getD_badd_assign (x : F) (k : ℕ) :
    (pub.badd.take pub.sharedMask.start ++ [x] ++ pub.badd.drop pub.sharedMask.stop).getD k 0 =
      (if k = pub.sharedMask.start then x else 0) +
        (constants c (pub.params.m * pub.params.l)).getD k 0 := by
  have hsize := hpub.size_le
  have hstart := hpub.mask_start
  have hstop : pub.sharedMask.stop = pub.sharedMask.start + 1 := by rw [hpub.mask_stop, hstart]
  have hconstant := getD_foldl_write (isWrite_setConstant c.ninputs)
    (show c.ops.length + c.ninputs ≤ pub.params.m * pub.params.l by omega) pub.sharedMask.start
  rw [if_pos (by omega), List.getElem?_eq_none (by omega), Option.bind_none,
    Option.getD_none] at hconstant
  have hroom : pub.sharedMask.start + [x].length ≤ pub.badd.length := by
    rw [hpub.length_badd, List.length_singleton]
    omega
  have hassign := getD_assign hroom k
  rw [assign, List.length_singleton, ← hstop] at hassign
  rw [hassign, hpub.badd_eq]
  by_cases hk : k = pub.sharedMask.start
  · rw [if_pos hk, if_pos (by omega), hk, Nat.sub_self, constants, hconstant]
    simp
  · rw [if_neg hk, if_neg (by omega), zero_add]

theorem shared_bounds
    (hshared : ∀ r ∈ shared, r.start ≤ r.stop ∧ r.stop ≤ c.ops.length + c.ninputs) :
    pub.shared.start ≤ pub.shared.stop ∧ pub.shared.stop ≤ c.ops.length + c.ninputs := by
  rw [hpub.shared_eq]
  cases shared with
  | none => exact ⟨le_rfl, Nat.zero_le _⟩
  | some r => exact hshared r rfl

variable {inp : List F} (hinp : inp.length = c.ninputs) {mask : F}
  (hzero : (c.wires inp).getD (c.ops.length + c.ninputs - 1) 0 = 0)
  (hshared : ∀ r ∈ shared, r.start ≤ r.stop ∧ r.stop ≤ c.ops.length + c.ninputs) {row : List F}
  (hfinal : pub.finalizePadd [row]
    (makeQshared (extWitness pub c inp mask) pub.shared pub.sharedMask [row]) = some pub')
include hinp hzero hshared hfinal

theorem bilinear_finalizePadd (r : ℕ → F) :
    pub'.Padd.bilinear r ((extWitness pub c inp mask).getD · 0) =
      ∑ k ∈ Finset.range (pub.params.m * pub.params.l), r k * pub'.badd.getD k 0 := by
  have hsize := hpub.size_le
  have hlen := length_extWitness hpub hinp mask
  have hstart := hpub.mask_start
  have hone : pub.sharedMask.len = 1 := hpub.mask_len
  let w := extWitness pub c inp mask
  let sum := (List.zipWith (· * ·) row ((w.drop pub.shared.start).take pub.shared.len)).sum
  have hmask : pub.sharedMask.start < w.length := by
    change _ < (extWitness pub c inp mask).length
    omega
  rw [Public.finalizePadd, makeQshared_singleton hone hmask] at hfinal
  split at hfinal
  · rename_i hcond
    have hrow : row.length = pub.shared.len := hcond.1 row (List.mem_singleton_self _)
    have hrange : pub.shared.start + row.length ≤ w.length := by
      have hbounds := shared_bounds hpub hshared
      rw [hrow, Range.len]
      change _ ≤ (extWitness pub c inp mask).length
      omega
    obtain rfl := Option.some.inj hfinal
    have hzero' : w.getD (c.ops.length + c.ninputs - 1) 0 = 0 := by
      rw [getD_extWitness hpub hinp mask, if_neg (by omega), hzero]
    have hshared' := bilinear_shared_row pub.sharedMask.start r w row hrange
    have hindices : pub.shared.indices = List.range' pub.shared.start row.length := by
      rw [Range.indices, hrow]
    have hmaskIndices : pub.sharedMask.indices = [pub.sharedMask.start] := by
      rw [Range.indices, hone]
      rfl
    have hgates := bilinear_linear (w := fun k => (extWitness pub c inp mask).getD k 0)
      (fun p hp => opValue_extWitness hpub hinp mask hp)
      (show c.ops.length + c.ninputs ≤ pub.params.m * pub.params.l by omega) r
    simp only [getD_badd_assign hpub, mul_add, Finset.sum_add_distrib, mul_ite, mul_zero]
    rw [Finset.sum_ite_eq' (Finset.range _) pub.sharedMask.start,
      if_pos (Finset.mem_range.2 (by omega)), ← hgates, hpub.Padd_eq]
    have hsum : (List.zipWith (· * ·) row ((w.drop pub.shared.start).take row.length)).sum =
        sum := by rw [hrow]
    have hshape : (pub.sharedMask.indices.zip [row]).flatMap (fun row =>
        List.zipWith (fun s r => (row.1, s, r)) pub.shared.indices row.2 ++ [(row.1, row.1, 1)]) =
        List.zipWith (fun s r => (pub.sharedMask.start, s, r))
          (List.range' pub.shared.start row.length) row ++
          [(pub.sharedMask.start, pub.sharedMask.start, (1 : F))] := by
      rw [hmaskIndices, hindices, List.zip_cons_cons, List.zip_nil_right, List.flatMap_cons,
        List.flatMap_nil, List.append_nil]
    rw [hshape]
    change TriMat.bilinear _ r (w.getD · 0) = _
    rw [bilinear_append_zero hzero', TriMat.bilinear_append, hshared', hsum]
    simp only [TriMat.bilinear, List.map_cons, List.map_nil, List.sum_cons, List.sum_nil]
    ring
  · cases hfinal

end

end EdaBitGen.Ligero
