import EdaBitGen.Ligero.Constraints

/-!
# The check of the products

On an honest polynomial the check at the opened columns always passes, and the check at the secrets'
points tests the products in all columns of the rows but the last one.
-/

namespace EdaBitGen.Ligero

open Fft Coefficients Polynomial

variable {F : Type} [Field F]

/-! ## Combinations -/

theorem ofCoeffs_map_mul_right (a : F) (l : List F) :
    ofCoeffs (l.map (· * a)) = C a * ofCoeffs l := by
  simp only [mul_comm _ a]
  exact ofCoeffs_map_mul a l

theorem ofCoeffs_foldl_padd_map {α : Type} (g : α → List F) (init : List F) (rows : List α) :
    ofCoeffs (rows.foldl (fun acc row => padd acc (g row)) init) =
      ofCoeffs init + (rows.map fun row => ofCoeffs (g row)).sum := by
  rw [← List.foldl_map, ofCoeffs_foldl_padd, List.map_map]
  rfl

variable [FieldForLigero F] {params : Params F}

/-! ## The polynomial of the products -/

section

variable (X Y Z : Fin params.m → RowPoly params) (B : RowPoly params) (rq : Fin params.m → F)

noncomputable def honestP0 : List F :=
  makeP0 params B.codeword (makePa params (codewords X)) (makePa params (codewords Y))
    (makePa params (codewords Z)) (List.ofFn rq)

theorem makePa_codewords :
    makePa params (codewords X) = List.ofFn fun i => toCoeffs (params.k + 1) (X i).poly := by
  rw [makePa, codewords, List.map_ofFn]
  congr 1
  funext i
  exact (X i).take_fft3Inverse_codeword

theorem ofCoeffs_honestP0 : ofCoeffs (honestP0 X Y Z B rq) =
    B.poly + ∑ i, C (rq i) * ((X i).poly * (Y i).poly - (Z i).poly) := by
  have hzip : ∀ {α β : Type} (f : Fin params.m → α) (g : Fin params.m → β),
      (List.ofFn f).zip (List.ofFn g) = List.ofFn fun i => (f i, g i) := by
    intro α β f g
    simp only [List.ofFn_eq_map, List.zip_map']
  have hne : ∀ P : RowPoly params, toCoeffs (params.k + 1) P.poly ≠ [] := by
    intro P h
    have hlen := congrArg List.length h
    rw [length_toCoeffs] at hlen
    exact Nat.succ_ne_zero _ hlen
  have hle : ∀ P : RowPoly params, (toCoeffs (params.k + 1) P.poly).length ≤ params.k + 1 :=
    fun P => (length_toCoeffs _ _).le
  rw [honestP0, makeP0, makePa_codewords, makePa_codewords, makePa_codewords, hzip, hzip, hzip,
    ofCoeffs_foldl_padd_map, RowPoly.fft3Inverse_codeword, ofCoeffs_toCoeffs B.degree_lt_shares,
    List.map_ofFn, List.sum_ofFn]
  refine congrArg (B.poly + ·) (Finset.sum_congr rfl fun i _ => ?_)
  rw [Function.comp_apply, ofCoeffs_map_mul_right, ofCoeffs_psub,
    ofCoeffs_pmul2 params (hne _) (hne _) (hle _) (hle _), ofCoeffs_toCoeffs (X i).degree_lt,
    ofCoeffs_toCoeffs (Y i).degree_lt, ofCoeffs_toCoeffs (Z i).degree_lt]

variable [DecidableEq F]

/-- The columns that are opened of a matrix of codewords. -/
noncomputable def openedColumns (Q : List ℕ) (X : Fin params.m → RowPoly params) : List (List F) :=
  Q.map (column (codewords X))

omit [DecidableEq F] in
theorem column_codewords {j : ℕ} (hj : j < params.n) :
    column (codewords X) j = List.ofFn fun i => (X i).entry j := by
  rw [column, codewords, List.map_ofFn]
  congr 1
  funext i
  exact (X i).getD_codeword hj

omit [DecidableEq F] in
theorem eval_honestP0 (x : F) : (ofCoeffs (honestP0 X Y Z B rq)).eval x =
    B.poly.eval x + ∑ i, rq i * ((X i).poly.eval x * (Y i).poly.eval x - (Z i).poly.eval x) := by
  rw [ofCoeffs_honestP0, eval_add, eval_finsetSum]
  simp only [eval_mul, eval_C, eval_sub]

theorem all_fft2Peval_iff (q : List F) :
    ((params.fft2Peval q).take params.l).tail.all (· = 0) = true ↔
      ∀ c, c + 1 < params.l → (ofCoeffs q).eval (params.omegaSecrets ^ (c + 1)) = 0 := by
  have hk := params.l_add_t
  rw [fft2Peval_eq, ← List.map_take, List.take_range, Nat.min_eq_left (by omega), ← List.map_tail,
    List.tail_range]
  simp only [List.all_map, List.all_eq_true, List.mem_range'_1, Function.comp_apply,
    decide_eq_true_eq]
  constructor
  · intro h c hc
    exact h (c + 1) ⟨by omega, by omega⟩
  · rintro h c ⟨hpos, hlt⟩
    obtain ⟨d, rfl⟩ := Nat.exists_eq_add_of_le hpos
    rw [Nat.add_comm]
    exact h d (by omega)

theorem quadraticCheck_honest {Q : List ℕ} (hQ : ∀ j ∈ Q, j < params.n)
    (hB : ∀ c < params.l, B.row c = 0) :
    quadraticCheck params (List.ofFn rq) (honestP0 X Y Z B rq) Q
        (Q.map fun j => B.codeword.getD j 0) (openedColumns Q X) (openedColumns Q Y)
        (openedColumns Q Z) = some true ↔
      ∀ c, c + 1 < params.l →
        ∑ i, rq i * ((X i).row c * (Y i).row c - (Z i).row c) = 0 := by
  have hsecrets : ((params.fft2Peval (honestP0 X Y Z B rq)).take params.l).tail.all (· = 0) = true ↔
      ∀ c, c + 1 < params.l →
        ∑ i, rq i * ((X i).row c * (Y i).row c - (Z i).row c) = 0 := by
    rw [all_fft2Peval_iff]
    refine forall_congr' fun c => forall_congr' fun hc => ?_
    have hzero : B.poly.eval (params.omegaSecrets ^ (c + 1)) = 0 := hB c (Nat.lt_of_succ_lt hc)
    rw [eval_honestP0, hzero, zero_add]
    rfl
  rw [quadraticCheck, openedColumns, openedColumns, openedColumns, List.zip_map', List.zip_map',
    List.zip_map', zip_map_self, checkAll_some (p := fun _ => true), ← hsecrets]
  · split_ifs with h
    · exact iff_of_true (by simp) h
    · exact iff_of_false (by simp) h
  · intro x hx
    obtain ⟨j, hj, rfl⟩ := List.mem_map.1 hx
    have hjn := hQ j hj
    simp only [column_codewords _ hjn, zipWith_ofFn, dot_ofFn, B.getD_codeword hjn,
      Option.bind_eq_bind, Option.bind_some, peval3_eq, eval_honestP0, RowPoly.entry, decide_true]

end

section

variable (params) (x y z : Fin params.m → Fin params.l → F)
  (xRandom yRandom zRandom : Fin params.m → Fin params.t → F) (u0Random : Fin params.t → F)

variable [DecidableEq F]

/-- The verifier accepts the products of a prover who follows the protocol. -/
def QuadraticAccepts (rq : Fin params.m → F) (Q : List (Fin params.n)) : Prop :=
  let Ux := encodeRows params x xRandom
  let Uy := encodeRows params y yRandom
  let Uz := encodeRows params z zRandom
  let u0 := params.encode (List.replicate params.l 0) (List.ofFn u0Random)
  let p0 := makeP0 params u0 (makePa params Ux) (makePa params Uy) (makePa params Uz) (List.ofFn rq)
  let opened (U : List (List F)) := Q.map fun j => column U j.val
  quadraticCheck params (List.ofFn rq) p0 (Q.map Fin.val) (Q.map fun j => u0.getD j.val 0) (opened Ux)
    (opened Uy) (opened Uz) = some true

theorem quadraticAccepts_iff (Q : List (Fin params.n)) :
    (∀ rq, QuadraticAccepts params x y z xRandom yRandom zRandom u0Random rq Q) ↔
      ∀ i (c : Fin params.l), c.val + 1 < params.l → x i c * y i c = z i c := by
  obtain ⟨X, hX, hx⟩ := exists_encodeRows params x xRandom
  obtain ⟨Y, hY, hy⟩ := exists_encodeRows params y yRandom
  obtain ⟨Z, hZ, hz⟩ := exists_encodeRows params z zRandom
  let B := RowPoly.ofRow (List.replicate params.l 0) (List.ofFn u0Random) List.length_replicate
    List.length_ofFn
  have hB : ∀ c < params.l, B.row c = 0 := by
    intro c hc
    rw [RowPoly.row_ofRow _ _ hc]
    simp
  have hQ : ∀ j ∈ Q.map Fin.val, j < params.n := by
    intro j hj
    obtain ⟨q, -, rfl⟩ := List.mem_map.1 hj
    exact q.isLt
  have haccepts : ∀ rq, QuadraticAccepts params x y z xRandom yRandom zRandom u0Random rq Q ↔
      ∀ c, c + 1 < params.l →
        ∑ i, rq i * ((X i).row c * (Y i).row c - (Z i).row c) = 0 := by
    intro rq
    rw [← quadraticCheck_honest X Y Z B rq hQ hB, QuadraticAccepts, hX, hY, hZ,
      RowPoly.encode_eq List.length_replicate List.length_ofFn, openedColumns, openedColumns,
      openedColumns, List.map_map, List.map_map, List.map_map, List.map_map]
    rfl
  simp only [haccepts]
  constructor
  · intro h i c hc
    have hsingle := h (Pi.single i 1) c hc
    rw [Finset.sum_eq_single i] at hsingle
    · rw [Pi.single_eq_same, one_mul, hx, hy, hz] at hsingle
      exact sub_eq_zero.1 hsingle
    · intro j _ hne
      rw [Pi.single_eq_of_ne hne, zero_mul]
    · intro hmem
      exact absurd (Finset.mem_univ i) hmem
  · intro h rq c hc
    refine Finset.sum_eq_zero fun i _ => ?_
    have hrow := h i ⟨c, Nat.lt_of_succ_lt hc⟩ hc
    rw [← hx, ← hy, ← hz] at hrow
    rw [hrow, sub_self, mul_zero]

/-- The check tests the products in all columns exactly when those in the last column are right
whenever all the others are. -/
theorem quadratic_covers_iff (Q : List (Fin params.n)) :
    ((∀ rq, QuadraticAccepts params x y z xRandom yRandom zRandom u0Random rq Q) ↔
        ∀ i c, x i c * y i c = z i c) ↔
      ((∀ i (c : Fin params.l), c.val + 1 < params.l → x i c * y i c = z i c) →
        ∀ i (c : Fin params.l), c.val + 1 = params.l → x i c * y i c = z i c) := by
  rw [quadraticAccepts_iff]
  constructor
  · intro h hbefore i c _
    exact h.1 hbefore i c
  · intro h
    refine ⟨fun hbefore i c => ?_, fun hall i c _ => hall i c⟩
    rcases Nat.lt_or_eq_of_le (Nat.succ_le_of_lt c.isLt) with hlt | heq
    · exact hbefore i c hlt
    · exact h hbefore i c heq

end

/-- A product that is wrong in the last column, with all columns opened. -/
theorem not_quadratic_covers :
    ¬ ((∀ rq, QuadraticAccepts smallParams 0 0 (fun _ c => if c.val = 65 then 1 else 0) 0 0 0 0 rq
        (List.finRange smallParams.n)) ↔
      ∀ (_ : Fin smallParams.m) (c : Fin smallParams.l),
        (0 : F2e19x3e26) * 0 = if c.val = 65 then 1 else 0) := by
  rw [quadraticAccepts_iff]
  intro h
  have hlast := h.1 (fun i c hc => ?_) ⟨0, by decide⟩ ⟨65, by decide⟩
  · simp at hlast
  · have hlt : c.val + 1 < 66 := hc
    have hne : c.val ≠ 65 := by omega
    rw [if_neg hne]
    exact mul_zero 0

end EdaBitGen.Ligero

/-!
# Combinations of codewords

The polynomial that a prover sends for combined constraints is a blinding polynomial and the products
of the polynomials of the rows with those of the combined constraints.  Its sum at the secrets'
points is the value of the combined constraints, and it passes the check at every column.
-/

namespace EdaBitGen.Ligero

open Fft Coefficients Polynomial

variable {F : Type} [Field F] [FieldForLigero F] {params : Params F}

/-! ## Rows -/

theorem map_range_eq_ofFn {α : Type} (f : ℕ → α) (n : ℕ) :
    (List.range n).map f = List.ofFn fun i : Fin n => f i := by
  rw [← List.map_coe_finRange_eq_range, List.map_map, List.ofFn_eq_map]
  rfl

omit [FieldForLigero F] in
theorem sum_eq_sum_getD (xs : List F) :
    xs.sum = ∑ k ∈ Finset.range xs.length, xs.getD k 0 := by
  induction xs with
  | nil => rfl
  | cons x xs ih =>
    rw [List.sum_cons, ih, List.length_cons, Finset.sum_range_succ']
    simp [add_comm]

variable (params) in
theorem exact_eq_ofFn {xs : List F} {m : ℕ} (h : xs.length = m * params.l) :
    Chunks.exact params.l xs = List.ofFn fun i : Fin m => (xs.drop (i * params.l)).take params.l := by
  rw [Chunks.exact, h, Nat.mul_div_cancel _ params.l_pos, map_range_eq_ofFn]

theorem length_chunk {xs : List F} {m : ℕ} (h : xs.length = m * params.l) (i : Fin m) :
    ((xs.drop (i * params.l)).take params.l).length = params.l := by
  have hle : (i.val + 1) * params.l ≤ m * params.l := Nat.mul_le_mul_right _ i.isLt
  rw [Nat.succ_mul] at hle
  rw [List.length_take, List.length_drop]
  omega

theorem getD_chunk (xs : List F) (i : ℕ) {c : ℕ} (hc : c < params.l) :
    ((xs.drop (i * params.l)).take params.l).getD c 0 = xs.getD (i * params.l + c) 0 := by
  rw [List.getD_eq_getElem?_getD, List.getElem?_take_of_lt hc, List.getElem?_drop,
    List.getD_eq_getElem?_getD]

variable (params) in
theorem encodeInterleaved_eq {ws : List F} (hws : ws.length = params.m * params.l)
    (random : Fin params.m → Fin params.t → F) :
    params.encodeInterleaved ws (List.ofFn fun i => List.ofFn (random i)) = codewords fun i =>
      RowPoly.ofRow _ (List.ofFn (random i)) (length_chunk hws i) List.length_ofFn := by
  rw [Params.encodeInterleaved, exact_eq_ofFn params hws, zipWith_ofFn, codewords]
  congr 1
  funext i
  exact RowPoly.encode_eq _ _

variable (params) in
theorem exists_encodeInterleaved {ws : List F} (hws : ws.length = params.m * params.l)
    (random : Fin params.m → Fin params.t → F) : ∃ X : Fin params.m → RowPoly params,
      params.encodeInterleaved ws (List.ofFn fun i => List.ofFn (random i)) = codewords X ∧
        ∀ i : Fin params.m, ∀ c < params.l, (X i).row c = ws.getD (i * params.l + c) 0 := by
  refine ⟨_, encodeInterleaved_eq params hws random, fun i c hc => ?_⟩
  rw [RowPoly.row_ofRow _ _ hc, getD_chunk ws i hc]

namespace RandomRow

variable (r : RandomRow params)

theorem exists_codeword : ∃ B : RowPoly params, r.codeword = B.codeword :=
  ⟨_, RowPoly.encode_eq List.length_ofFn List.length_ofFn⟩

theorem exists_zeroCodeword : ∃ B : RowPoly params, r.zeroCodeword = B.codeword ∧
    ∑ c ∈ Finset.range params.l, B.row c = 0 := by
  have hl := params.l_pos
  let w := List.ofFn r.row
  have hw : w.length = params.l := List.length_ofFn
  let ws := w.set (params.l - 1) (w.getD (params.l - 1) 0 - w.sum)
  have hws : ws.length = params.l := List.length_set.trans hw
  refine ⟨RowPoly.ofRow ws (List.ofFn r.random) hws List.length_ofFn,
    RowPoly.encode_eq hws List.length_ofFn, ?_⟩
  have hsum : w.sum = ∑ c ∈ Finset.range params.l, w.getD c 0 := by rw [← hw, sum_eq_sum_getD]
  have hterm : ∀ c ∈ Finset.range params.l,
      (RowPoly.ofRow ws (List.ofFn r.random) hws List.length_ofFn).row c =
        w.getD c 0 + if c = params.l - 1 then -w.sum else 0 := by
    intro c hc
    have hlast : params.l - 1 < w.length := by omega
    rw [RowPoly.row_ofRow _ _ (Finset.mem_range.1 hc), getD_set hlast]
    split_ifs with h
    · rw [h, sub_eq_add_neg]
    · rw [add_zero]
  rw [Finset.sum_congr rfl hterm, Finset.sum_add_distrib, Finset.sum_ite_eq' (Finset.range _),
    if_pos (Finset.mem_range.2 (by omega)), ← hsum, add_neg_cancel]

end RandomRow

omit [FieldForLigero F] in
theorem length_foldl_padd_map {α : Type} {g : α → List F} (acc : List F) {rows : List α} {n : ℕ}
    (hlen : ∀ row ∈ rows, (g row).length = n) (hne : rows ≠ []) :
    (rows.foldl (fun acc row => padd acc (g row)) acc).length = max acc.length n := by
  induction rows generalizing acc with
  | nil => exact absurd rfl hne
  | cons row rows ih =>
    have hstep : (padd acc (g row)).length = max acc.length n := by
      rw [length_padd, hlen row List.mem_cons_self]
    rw [List.foldl_cons]
    by_cases hrows : rows = []
    · rw [hrows, List.foldl_nil, hstep]
    · rw [ih _ (fun r hr => hlen r (List.mem_cons_of_mem _ hr)) hrows, hstep, max_assoc, max_self]

/-! ## Combined rows -/

/-- Rows of combined constraints with the polynomials of codewords. -/
abbrev Terms (params : Params F) := List (List F × RowPoly params)

/-- The products of all terms, and a blinding polynomial. -/
noncomputable def combination (terms : Terms params) (B : RowPoly params) : List F :=
  terms.foldl (fun acc rp => padd acc (params.pmul2 rp.1 (toCoeffs (params.k + 1) rp.2.poly)))
    (toCoeffs (params.n + 1) B.poly)

section

variable {terms : Terms params} (B : RowPoly params)
  (hterms : ∀ rp ∈ terms, rp.1.length = params.k + 1)
include hterms

theorem pmul2_term {rp : List F × RowPoly params} (hrp : rp ∈ terms) :
    params.pmul2 rp.1 (toCoeffs (params.k + 1) rp.2.poly) =
      toCoeffs (2 * params.k + 1) (ofCoeffs rp.1 * rp.2.poly) ∧
    ofCoeffs (params.pmul2 rp.1 (toCoeffs (params.k + 1) rp.2.poly)) =
      ofCoeffs rp.1 * rp.2.poly := by
  have hlen := hterms rp hrp
  have hne : rp.1 ≠ [] := by
    rintro h
    rw [h] at hlen
    cases hlen
  have hne' : toCoeffs (params.k + 1) rp.2.poly ≠ [] := by
    rintro h
    have hlen' := length_toCoeffs (params.k + 1) rp.2.poly
    rw [h] at hlen'
    cases hlen'
  constructor
  · rw [pmul2_eq params hne hne' hlen.le (length_toCoeffs _ _).le, hlen, length_toCoeffs,
      ofCoeffs_toCoeffs rp.2.degree_lt]
    congr 1
    omega
  · rw [ofCoeffs_pmul2 params hne hne' hlen.le (length_toCoeffs _ _).le,
      ofCoeffs_toCoeffs rp.2.degree_lt]

theorem ofCoeffs_combination : ofCoeffs (combination terms B) =
    B.poly + (terms.map fun rp => ofCoeffs rp.1 * rp.2.poly).sum := by
  rw [combination, ofCoeffs_foldl_padd_map, ofCoeffs_toCoeffs B.degree_lt_shares]
  congr 2
  exact List.map_congr_left fun rp hrp => (pmul2_term hterms hrp).2

theorem length_combination (hne : terms ≠ []) :
    (combination terms B).length = max (params.n + 1) (2 * params.k + 1) := by
  have hlen : ∀ rp ∈ terms,
      (params.pmul2 rp.1 (toCoeffs (params.k + 1) rp.2.poly)).length = 2 * params.k + 1 := by
    intro rp hrp
    rw [(pmul2_term hterms hrp).1, length_toCoeffs]
  rw [combination, length_foldl_padd_map _ hlen hne, length_toCoeffs]

theorem sumAtSecrets_combination [DecidableEq F]
    (hB : ∑ c ∈ Finset.range params.l, B.row c = 0) :
    sumAtSecrets params (combination terms B) = (terms.map fun rp =>
      ∑ c ∈ Finset.range params.l,
        (ofCoeffs rp.1).eval (params.omegaSecrets ^ (c + 1)) * rp.2.row c).sum := by
  have hrows : ∀ ts : Terms params, ∑ c ∈ Finset.range params.l,
      ((ts.map fun rp => ofCoeffs rp.1 * rp.2.poly).sum).eval (params.omegaSecrets ^ (c + 1)) =
      (ts.map fun rp => ∑ c ∈ Finset.range params.l,
        (ofCoeffs rp.1).eval (params.omegaSecrets ^ (c + 1)) * rp.2.row c).sum := by
    intro ts
    induction ts with
    | nil => simp
    | cons rp ts ih =>
      simp only [List.map_cons, List.sum_cons, eval_add, Finset.sum_add_distrib, ih, eval_mul]
      rfl
  have hsum := Finset.sum_range (n := params.l) fun c =>
    (ofCoeffs (combination terms B)).eval (params.omegaSecrets ^ (c + 1))
  rw [sumAtSecrets_eq, ← hsum, ofCoeffs_combination B hterms]
  simp only [eval_add, Finset.sum_add_distrib]
  rw [hrows, add_eq_right]
  exact hB

omit hterms in
theorem getD_fft3 {p : List F} (hp : p.length ≤ params.n + 1) {j : ℕ} (hj : j < params.n) :
    (params.fft3 p).getD j 0 = (ofCoeffs p).eval (params.omegaShares ^ (j + 1)) := by
  have hlen : (padTo (params.n + 1) p).length = params.n + 1 := by
    rw [length_padTo, max_eq_left hp]
  rw [Params.fft3, params.isTransform_shares _ hlen, ofCoeffs_padTo, List.range_succ_eq_map,
    List.map_cons, List.tail_cons, List.map_map]
  exact getD_map_range _ hj

theorem openedCheck_combination [DecidableEq F] {Q : List ℕ} (hQ : ∀ j ∈ Q, j < params.n) :
    openedCheck params (terms.map Prod.fst) (combination terms B) Q
      (Q.map fun j => terms.map fun rp => rp.2.entry j) (Q.map B.entry) = some true := by
  let d (j : ℕ) : F := (terms.map fun rp =>
    (ofCoeffs rp.1).eval (params.omegaShares ^ (j + 1)) * rp.2.entry j).sum
  have hrows : ∀ (j : ℕ) (ts : Terms params),
      ((ts.map fun rp => ofCoeffs rp.1 * rp.2.poly).sum).eval (params.omegaShares ^ (j + 1)) =
        (ts.map fun rp =>
          (ofCoeffs rp.1).eval (params.omegaShares ^ (j + 1)) * rp.2.entry j).sum := by
    intro j ts
    induction ts with
    | nil => simp
    | cons rp ts ih =>
      rw [List.map_cons, List.sum_cons, eval_add, eval_mul, ih, List.map_cons, List.sum_cons]
      rfl
  apply openedCheck_eq_true params (d := d)
  · intro j hj
    have hkn := params.k_lt_n
    have hcolumn : column ((terms.map Prod.fst).map params.fft3) j =
        terms.map fun rp => (ofCoeffs rp.1).eval (params.omegaShares ^ (j + 1)) := by
      rw [column, List.map_map, List.map_map]
      refine List.map_congr_left fun rp hrp => ?_
      exact getD_fft3 (by rw [hterms rp hrp]; omega) (hQ j hj)
    rw [hcolumn, dot, if_pos (by rw [List.length_map, List.length_map]), List.zipWith_map,
      List.zipWith_self]
  · intro j _
    rw [peval3_eq, ofCoeffs_combination B hterms, eval_add, hrows]
    rfl

end

/-! ## Combined vectors -/

theorem eval_fft2Inverse {row : List F} (hrow : row.length = params.l) {c : ℕ} (hc : c < params.l) :
    (ofCoeffs (params.fft2Inverse row)).eval (params.omegaSecrets ^ (c + 1)) = row.getD c 0 := by
  have hω := params.isPrimitiveRoot_omegaSecrets
  have hk := params.l_add_t
  rw [← params.k_add_one] at hω
  have hlen : (padTo (params.k + 1) (0 :: row)).length = params.k + 1 := by
    rw [length_padTo, List.length_cons]
    omega
  have h := params.isTransform_secrets_inv.eval_inverse hω hlen (j := c + 1) (by omega)
  rw [Params.fft2Inverse, fft2Inverse_eq, h, padTo,
    List.getD_append _ _ _ _ (by rw [List.length_cons]; omega), List.getD_cons_succ]

theorem length_fft2Inverse {row : List F} (hrow : row.length = params.l) :
    (params.fft2Inverse row).length = params.k + 1 := by
  have hk := params.l_add_t
  apply params.isTransform_secrets_inv.length_inverse
  rw [length_padTo, List.length_cons]
  omega

/-- The rows of a vector, each with a codeword. -/
def rowTerms (v : List F) (X : Fin params.m → RowPoly params) : Terms params :=
  List.ofFn fun i => (params.fft2Inverse ((v.drop (i * params.l)).take params.l), X i)

section

variable {v : List F} (hv : v.length = params.m * params.l) (X : Fin params.m → RowPoly params)
include hv

theorem length_of_mem_rowTerms : ∀ rp ∈ rowTerms v X, rp.1.length = params.k + 1 := by
  intro rp hrp
  obtain ⟨i, rfl⟩ := List.mem_ofFn.1 hrp
  exact length_fft2Inverse (length_chunk hv i)

theorem fst_rowTerms :
    (rowTerms v X).map Prod.fst = (Chunks.exact params.l v).map params.fft2Inverse := by
  rw [exact_eq_ofFn params hv, rowTerms, List.map_ofFn, List.map_ofFn]
  rfl

theorem sum_rowTerms {x : ℕ → F}
    (hX : ∀ i : Fin params.m, ∀ c < params.l, (X i).row c = x (i * params.l + c)) :
    ((rowTerms v X).map fun rp => ∑ c ∈ Finset.range params.l,
      (ofCoeffs rp.1).eval (params.omegaSecrets ^ (c + 1)) * rp.2.row c).sum =
      ∑ k ∈ Finset.range (params.m * params.l), v.getD k 0 * x k := by
  rw [Fourier.sum_range_mul, Finset.sum_range, rowTerms, List.map_ofFn, List.sum_ofFn]
  refine Finset.sum_congr rfl fun i _ => Finset.sum_congr rfl fun c hc => ?_
  have hc' := Finset.mem_range.1 hc
  rw [eval_fft2Inverse (length_chunk hv i) hc', getD_chunk v i hc', hX i c hc']

end

theorem entries_rowTerms (v : List F) (X : Fin params.m → RowPoly params) {j : ℕ}
    (hj : j < params.n) :
    (rowTerms v X).map (fun rp => rp.2.entry j) = column (codewords X) j := by
  rw [column_codewords X hj, rowTerms, List.map_ofFn]
  rfl

theorem makeQadd_eq {radd : List F} {Padd : TriMat F} (W : Fin params.m → RowPoly params)
    (B : RowPoly params) :
    makeQadd params B.codeword (makePa params (codewords W)) Padd radd =
      combination (rowTerms (Padd.combine (params.m * params.l) radd) W) B := by
  have hv := TriMat.length_combine Padd (params.m * params.l) radd
  have hzip : (makeRa params radd Padd).zip (makePa params (codewords W)) =
      (rowTerms (Padd.combine (params.m * params.l) radd) W).map fun rp =>
        (rp.1, toCoeffs (params.k + 1) rp.2.poly) := by
    rw [makeRa, exact_eq_ofFn params hv, makePa_codewords, rowTerms, List.map_ofFn, List.map_ofFn]
    exact zipWith_ofFn Prod.mk _ _
  rw [makeQadd, hzip, List.foldl_map, RowPoly.fft3Inverse_codeword, combination]

/-- The terms of the constraints that a vector is the product of a matrix and the witness. -/
def imlTerms (params : Params F) (ra : List F) (Pa : TriMat F) (X W : Fin params.m → RowPoly params) :
    Terms params :=
  rowTerms ra X ++
    rowTerms (TriMat.combine (Pa.map fun e => (e.1, e.2.1, -e.2.2)) (params.m * params.l) ra) W

section

variable {ra : List F} (hra : ra.length = params.m * params.l) (Pa : TriMat F)
  (X W : Fin params.m → RowPoly params)
include hra

theorem length_of_mem_imlTerms : ∀ rp ∈ imlTerms params ra Pa X W, rp.1.length = params.k + 1 := by
  intro rp hrp
  rcases List.mem_append.1 hrp with h | h
  · exact length_of_mem_rowTerms hra X rp h
  · exact length_of_mem_rowTerms (TriMat.length_combine _ _ _) W rp h

theorem fst_imlTerms :
    (imlTerms params ra Pa X W).map Prod.fst = makeRaImlPaNeg params ra Pa := by
  have hlen := TriMat.length_combine (Pa.map fun e => (e.1, e.2.1, -e.2.2))
    (params.m * params.l) ra
  rw [imlTerms, List.map_append, fst_rowTerms hra, fst_rowTerms hlen, makeRaImlPaNeg,
    ← List.map_append, Chunks.exact_append_of_length params.l_pos hra]

theorem makeQa_eq (B : RowPoly params) :
    makeQa params (makePa params (codewords W)) Pa (codewords X) B.codeword ra =
      combination (imlTerms params ra Pa X W) B := by
  have hfst : (makeRaImlPaNeg params ra Pa).map (List.take (params.k + 1)) =
      (imlTerms params ra Pa X W).map Prod.fst := by
    rw [← fst_imlTerms hra Pa X W, List.map_map]
    refine List.map_congr_left fun rp hrp => ?_
    exact List.take_of_length_le (length_of_mem_imlTerms hra Pa X W rp hrp).le
  have hsnd : ((codewords X).map params.fft3Inverse ++ makePa params (codewords W)).map
      (List.take (params.k + 1)) =
      (imlTerms params ra Pa X W).map fun rp => toCoeffs (params.k + 1) rp.2.poly := by
    have hW : (makePa params (codewords W)).map (List.take (params.k + 1)) =
        makePa params (codewords W) := by
      rw [makePa_codewords, List.map_ofFn]
      congr 1
      funext i
      exact List.take_of_length_le (length_toCoeffs _ _).le
    have hX : ((codewords X).map params.fft3Inverse).map (List.take (params.k + 1)) =
        makePa params (codewords X) := by
      rw [List.map_map]
      rfl
    rw [List.map_append, hW, hX, makePa_codewords, makePa_codewords, imlTerms, List.map_append,
      rowTerms, rowTerms, List.map_ofFn, List.map_ofFn]
    rfl
  have hzip : ((makeRaImlPaNeg params ra Pa).map (List.take (params.k + 1))).zip
      (((codewords X).map params.fft3Inverse ++ makePa params (codewords W)).map
        (List.take (params.k + 1))) = ((makeRaImlPaNeg params ra Pa).zip
      ((codewords X).map params.fft3Inverse ++ makePa params (codewords W))).map
        (Prod.map (List.take (params.k + 1)) (List.take (params.k + 1))) := List.zip_map
  rw [hfst, hsnd, List.zip_map'] at hzip
  rw [makeQa, RowPoly.fft3Inverse_codeword, combination]
  have hfold := congrArg (List.foldl (fun acc (rp : List F × List F) =>
    padd acc (params.pmul2 rp.1 rp.2)) (toCoeffs (params.n + 1) B.poly)) hzip
  rw [List.foldl_map, List.foldl_map] at hfold
  exact hfold.symm

omit hra in
theorem entries_imlTerms {j : ℕ} (hj : j < params.n) :
    (imlTerms params ra Pa X W).map (fun rp => rp.2.entry j) =
      column (codewords X) j ++ column (codewords W) j := by
  rw [imlTerms, List.map_append, entries_rowTerms _ _ hj, entries_rowTerms _ _ hj]

end

end EdaBitGen.Ligero
