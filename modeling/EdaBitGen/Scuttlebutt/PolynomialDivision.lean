import EdaBitGen.Scuttlebutt.F61p

/-!
# Division and interpolation of polynomials

Long division subtracts multiples of the divisor by monomials, and Lagrange's interpolation
multiplies by linear factors.  So they need a convolution that multiplies by monomials and by linear
polynomials only, which that of `F61p` does without an overflow.
-/

namespace EdaBitGen

open Coefficients Polynomial

/-! ## Monomials -/

/-- The convolution multiplies by polynomials with at most one coefficient that is not zero. -/
def Convolve.Monomial {F : Type} [Field F] (cv : Convolve F) : Prop :=
  ∀ x0 xs y0 ys k, (∀ i ≠ k, (x0 :: xs).getD i 0 = 0) → cv.Multiplies x0 xs y0 ys

theorem monomial_default {F : Type} [Field F] : (Convolve.default : Convolve F).Monomial :=
  fun x0 xs y0 ys _ _ => Convolve.multiplies_default x0 xs y0 ys

theorem monomial_f61p : F61p.convolve.Monomial := by
  intro x0 xs y0 ys k hk
  refine F61p.multiplies_convolve fun n => ?_
  have hterm : F61p.productTerm (x0 :: xs) (y0 :: ys) n ≤
      ((x0 :: xs).getD k 0).val * ((y0 :: ys).getD (n - k) 0).val := by
    have hzero : ∀ i ∈ Finset.range (n + 1), i ≠ k →
        ((x0 :: xs).getD i 0).val * ((y0 :: ys).getD (n - i) 0).val = 0 := fun i _ hi => by
      rw [hk i hi, ZMod.val_zero, Nat.zero_mul]
    unfold F61p.productTerm
    by_cases hkn : k ∈ Finset.range (n + 1)
    · rw [Finset.sum_eq_single_of_mem k hkn hzero]
    · rw [Finset.sum_eq_zero fun i hi => hzero i hi (ne_of_mem_of_not_mem hi hkn)]
      exact Nat.zero_le _
  have hx := (ZMod.val_lt ((x0 :: xs).getD k 0)).le
  have hy := (ZMod.val_lt ((y0 :: ys).getD (n - k) 0)).le
  exact hterm.trans_lt ((Nat.mul_le_mul hx hy).trans_lt (by norm_num))

namespace GeneralPolynomial

variable {F : Type} [Field F]

def one : GeneralPolynomial F := ⟨1, []⟩

/-- Write the coefficient of `x^i`. -/
def setCoeff (p : GeneralPolynomial F) (i : ℕ) (c : F) : GeneralPolynomial F :=
  if i = 0 then ⟨c, p.coefficients⟩ else ⟨p.constant, p.coefficients.set (i - 1) c⟩

def subAssign (p q : GeneralPolynomial F) : GeneralPolynomial F :=
  let coefficients := resize p.coefficients (max p.coefficients.length q.coefficients.length)
  ⟨p.constant - q.constant, coefficients.mapIdx fun i a => a - q.coefficients.getD i 0⟩

/-- Equality of coefficients, where missing ones are zero. -/
def ctEq (p q : GeneralPolynomial F) : Prop :=
  p.constant = q.constant ∧ ∀ i < max p.coefficients.length q.coefficients.length,
    p.coefficients.getD i 0 = q.coefficients.getD i 0

instance [DecidableEq F] (p q : GeneralPolynomial F) : Decidable (p.ctEq q) :=
  inferInstanceAs (Decidable (_ ∧ _))

section Division

variable [DecidableEq F] (cv : Convolve F)

/-- One step of the division, for a remainder whose degree is not below that of the divisor. -/
def divmodStep (divisor q r : GeneralPolynomial F) : GeneralPolynomial F × GeneralPolynomial F :=
  let b := r.degree
  let d := divisor.degree
  let t := setCoeff ⟨0, List.replicate (b - d) 0⟩ (b - d) (r.coeff b / divisor.coeff d)
  (q.addAssign t, r.subAssign (mulAssign cv t divisor))

/-- The loop, as long as the fuel lasts. -/
def divmodLoop (divisor : GeneralPolynomial F) :
    ℕ → GeneralPolynomial F → GeneralPolynomial F →
      Option (GeneralPolynomial F × GeneralPolynomial F)
  | 0, _, _ => none
  | fuel + 1, q, r =>
    if ¬r.ctEq zero ∧ divisor.degree ≤ r.degree then
      divmodLoop divisor fuel (divmodStep cv divisor q r).1 (divmodStep cv divisor q r).2
    else
      some (q, r)

def divmod (fuel : ℕ) (p divisor : GeneralPolynomial F) :
    Option (GeneralPolynomial F × GeneralPolynomial F) :=
  divmodLoop cv divisor fuel zero p

end Division

section Interpolate

variable [DecidableEq F] (cv : Convolve F)

/-- The factor of a basis polynomial that is zero at `xm` and one at `xj`. -/
def basisFactor (xj xm : F) : GeneralPolynomial F :=
  let deltaXInverse := (xj - xm)⁻¹
  ⟨-xm * deltaXInverse, [deltaXInverse]⟩

/-- The basis polynomial of point `j`, where abscissas that collide are an error. -/
def basisPolynomial (points : List (F × F)) (j : ℕ) : Option (GeneralPolynomial F) :=
  (List.range points.length).foldlM (fun l m =>
    let xj := (points.getD j (0, 0)).1
    let xm := (points.getD m (0, 0)).1
    if m = j then some l
    else if xm = xj then none
    else some (mulAssign cv l (basisFactor xj xm))) one

def interpolate (points : List (F × F)) : Option (GeneralPolynomial F) :=
  if points = [] then none
  else (List.range points.length).foldlM (fun out j => do
    let l ← basisPolynomial cv points j
    pure (out.addAssign (l.mulConstant (points.getD j (0, 0)).2)))
      ⟨0, List.replicate (points.length - 1) 0⟩

end Interpolate

/-! ## The polynomials of the operations -/

theorem coeff_succ_eq (p : GeneralPolynomial F) (i : ℕ) :
    p.coeff (i + 1) = p.coefficients.getD i 0 := rfl

theorem getD_resize (l : List F) {n i : ℕ} (hi : i < n) : (resize l n).getD i 0 = l.getD i 0 := by
  rw [List.getD_eq_getElem?_getD, List.getD_eq_getElem?_getD, resize]
  by_cases hl : i < l.length
  · simp [List.getElem?_append, hi, hl]
  · have hnone : l[i]? = none := List.getElem?_eq_none (Nat.le_of_not_lt hl)
    have hright : (l.take n).length ≤ i := by
      rw [List.length_take]
      omega
    rw [hnone, List.getElem?_append_right hright, List.getElem?_replicate]
    split <;> rfl

theorem toPoly_subAssign (p q : GeneralPolynomial F) :
    (p.subAssign q).toPoly = p.toPoly - q.toPoly := by
  ext i
  rw [coeff_sub, coeff_toPoly, coeff_toPoly, coeff_toPoly]
  cases i with
  | zero => rfl
  | succ i =>
    simp only [coeff_succ_eq, subAssign]
    have hlen := length_resize p.coefficients (max p.coefficients.length q.coefficients.length)
    by_cases hi : i < max p.coefficients.length q.coefficients.length
    · rw [← getD_resize p.coefficients hi]
      simp [List.getD_eq_getElem?_getD, hlen, hi]
    · rw [List.getD_eq_getElem?_getD, List.getElem?_eq_none (by simpa [hlen] using hi),
        List.getD_eq_getElem?_getD, List.getElem?_eq_none (by omega), List.getD_eq_getElem?_getD,
        List.getElem?_eq_none (by omega)]
      simp

theorem ctEq_iff (p q : GeneralPolynomial F) : p.ctEq q ↔ p.toPoly = q.toPoly := by
  have hcoeff : p.toPoly = q.toPoly ↔ ∀ i, p.coeff i = q.coeff i := by
    simp only [Polynomial.ext_iff, coeff_toPoly]
  rw [hcoeff]
  refine ⟨fun h i => ?_, fun h => ⟨h 0, fun i _ => h (i + 1)⟩⟩
  cases i with
  | zero => exact h.1
  | succ i =>
    by_cases hi : i < max p.coefficients.length q.coefficients.length
    · exact h.2 i hi
    · rw [coeff_succ_eq, coeff_succ_eq, List.getD_eq_getElem?_getD,
        List.getElem?_eq_none (by omega), List.getD_eq_getElem?_getD, List.getElem?_eq_none (by omega)]

theorem toPoly_setCoeff_monomial (k : ℕ) (c : F) :
    (setCoeff ⟨0, List.replicate k 0⟩ k c).toPoly = C c * X ^ k := by
  cases k with
  | zero => simp [setCoeff, toPoly]
  | succ k =>
    have hset : (List.replicate (k + 1) (0 : F)).set k c = List.replicate k 0 ++ [c] := by
      rw [List.replicate_succ', List.set_append_right _ _ (by simp), List.length_replicate,
        Nat.sub_self, List.set_cons_zero]
    rw [setCoeff, if_neg (Nat.succ_ne_zero k), Nat.add_sub_cancel, toPoly, hset, ofCoeffs_cons,
      ofCoeffs_append, ofCoeffs_replicate_zero, List.length_replicate]
    simp only [ofCoeffs_cons, ofCoeffs_nil, C_0]
    ring

section Division

variable [DecidableEq F] {cv : Convolve F}

omit [DecidableEq F] in
theorem coeff_leading (p : GeneralPolynomial F) :
    p.coeff p.toPoly.natDegree = p.toPoly.leadingCoeff := by
  rw [← coeff_toPoly, leadingCoeff]

theorem toPoly_mulAssign_monomial (hcv : cv.Monomial) (k : ℕ) (c : F) (q : GeneralPolynomial F) :
    (mulAssign cv (setCoeff ⟨0, List.replicate k 0⟩ k c) q).toPoly = C c * X ^ k * q.toPoly := by
  have hzero : ∀ i ≠ k, ((setCoeff ⟨0, List.replicate k 0⟩ k c : GeneralPolynomial F)).coeff i = 0 := by
    intro i hi
    rw [← coeff_toPoly, toPoly_setCoeff_monomial, coeff_C_mul_X_pow, if_neg hi]
  rw [← toPoly_setCoeff_monomial]
  refine (mulAssign_eq (hcv _ _ _ _ k fun i hi => ?_)).1
  have h := hzero i hi
  cases i with
  | zero => exact h
  | succ i =>
    rw [List.getD_cons_succ, List.getD_eq_getElem?_getD, List.getElem?_take]
    split_ifs
    · rw [← List.getD_eq_getElem?_getD]
      exact h
    · rfl

theorem divmodStep_spec (hcv : cv.Monomial) {divisor q r : GeneralPolynomial F}
    (hdivisor : divisor.toPoly ≠ 0) (hr : r.toPoly ≠ 0) (hdegree : divisor.degree ≤ r.degree) :
    (divmodStep cv divisor q r).1.toPoly * divisor.toPoly + (divmodStep cv divisor q r).2.toPoly =
        q.toPoly * divisor.toPoly + r.toPoly ∧
      (divmodStep cv divisor q r).2.toPoly.degree < r.toPoly.degree := by
  have hlead : divisor.toPoly.leadingCoeff ≠ 0 := leadingCoeff_ne_zero.2 hdivisor
  have hquot : r.toPoly.leadingCoeff / divisor.toPoly.leadingCoeff ≠ 0 :=
    div_ne_zero (leadingCoeff_ne_zero.2 hr) hlead
  have hle : divisor.toPoly.natDegree ≤ r.toPoly.natDegree := by
    rwa [← degree_eq, ← degree_eq]
  simp only [divmodStep, (addAssign_eq _ _).1, toPoly_subAssign, toPoly_mulAssign_monomial hcv,
    toPoly_setCoeff_monomial, coeff_leading, degree_eq]
  refine ⟨by ring, degree_sub_lt_left ?_ hr ?_⟩
  · rw [degree_mul, degree_C_mul_X_pow _ hquot, degree_eq_natDegree hr,
      degree_eq_natDegree hdivisor, ← Nat.cast_add, Nat.sub_add_cancel hle]
  · rw [leadingCoeff_mul, leadingCoeff_C_mul_X_pow, div_mul_cancel₀ _ hlead]

/-- With fuel for every degree of the remainder the loop ends, with the identity of the division. -/
theorem divmodLoop_spec (hcv : cv.Monomial) {divisor : GeneralPolynomial F}
    (hdivisor : divisor.toPoly ≠ 0) (n : ℕ) (q r : GeneralPolynomial F) (hr : r.toPoly.degree < n) :
    ∃ q' r', (∀ fuel, n < fuel → divmodLoop cv divisor fuel q r = some (q', r')) ∧
      q'.toPoly * divisor.toPoly + r'.toPoly = q.toPoly * divisor.toPoly + r.toPoly ∧
      (r'.toPoly = 0 ∨ r'.degree < divisor.degree) := by
  induction n generalizing q r with
  | zero =>
    have hzero : r.toPoly = 0 := by
      rw [← degree_eq_bot]
      exact Nat.WithBot.lt_zero_iff.1 hr
    refine ⟨q, r, fun fuel hfuel => ?_, rfl, Or.inl hzero⟩
    obtain ⟨fuel, rfl⟩ := Nat.exists_eq_succ_of_ne_zero hfuel.ne'
    rw [divmodLoop, if_neg fun h => h.1 ((ctEq_iff _ _).2 (by rw [hzero, toPoly_zero]))]
  | succ n ih =>
    by_cases hstep : ¬r.ctEq zero ∧ divisor.degree ≤ r.degree
    · have hne : r.toPoly ≠ 0 := fun hzero =>
        hstep.1 ((ctEq_iff _ _).2 (by rw [hzero, toPoly_zero]))
      obtain ⟨hidentity, hlt⟩ := divmodStep_spec (q := q) hcv hdivisor hne hstep.2
      have hlt' : (divmodStep cv divisor q r).2.toPoly.degree < n :=
        hlt.trans_le (Order.lt_succ_iff.1 (by exact_mod_cast hr))
      obtain ⟨q', r', hloop, heq, hend⟩ := ih _ _ hlt'
      refine ⟨q', r', fun fuel hfuel => ?_, heq.trans hidentity, hend⟩
      obtain ⟨fuel, rfl⟩ := Nat.exists_eq_succ_of_ne_zero (Nat.ne_zero_of_lt hfuel)
      rw [divmodLoop, if_pos hstep]
      exact hloop fuel (Nat.lt_of_succ_lt_succ hfuel)
    · refine ⟨q, r, fun fuel hfuel => ?_, rfl, ?_⟩
      · obtain ⟨fuel, rfl⟩ := Nat.exists_eq_succ_of_ne_zero (Nat.ne_zero_of_lt hfuel)
        rw [divmodLoop, if_neg hstep]
      · by_cases hzero : r.toPoly = 0
        · exact Or.inl hzero
        · refine Or.inr (Nat.lt_of_not_le fun hle => hstep ⟨fun h => hzero ?_, hle⟩)
          rw [(ctEq_iff _ _).1 h, toPoly_zero]

end Division

section Interpolate

variable [DecidableEq F] {cv : Convolve F} {points : List (F × F)}

/-- The abscissa of point `i`. -/
def abscissa (points : List (F × F)) (i : ℕ) : F := (points.getD i (0, 0)).1

/-- The ordinate of point `i`. -/
def ordinate (points : List (F × F)) (i : ℕ) : F := (points.getD i (0, 0)).2

omit [DecidableEq F] in
theorem injOn_abscissa (h : (points.map Prod.fst).Nodup) :
    Set.InjOn (abscissa points) (Finset.range points.length) := by
  intro i hi j hj hij
  have hi' : i < (points.map Prod.fst).length := by simpa using hi
  have hj' : j < (points.map Prod.fst).length := by simpa using hj
  have hinj : (points.map Prod.fst)[i] = (points.map Prod.fst)[j] ↔ i = j := h.getElem_inj_iff
  refine hinj.1 ?_
  rw [List.length_map] at hi' hj'
  simpa [abscissa, List.getD_eq_getElem?_getD, hi', hj'] using hij

omit [DecidableEq F] in
theorem toPoly_basisFactor (xj xm : F) :
    (basisFactor xj xm).toPoly = Lagrange.basisDivisor xj xm := by
  simp only [basisFactor, toPoly, ofCoeffs_cons, ofCoeffs_nil, Lagrange.basisDivisor, C_mul, C_neg]
  ring

theorem basisPolynomial_eq (hcv : cv.Linear) (h : (points.map Prod.fst).Nodup) {j : ℕ}
    (hj : j < points.length) :
    ∃ l, basisPolynomial cv points j = some l ∧
      l.toPoly = Lagrange.basis (Finset.range points.length) (abscissa points) j := by
  have hloop : ∀ k ≤ points.length, ∃ l, (List.range k).foldlM (fun l m =>
      let xj := (points.getD j (0, 0)).1
      let xm := (points.getD m (0, 0)).1
      if m = j then some l
      else if xm = xj then none
      else some (mulAssign cv l (basisFactor xj xm))) one = some l ∧
      l.toPoly = ∏ m ∈ (Finset.range k).erase j,
        Lagrange.basisDivisor (abscissa points j) (abscissa points m) := by
    intro k
    induction k with
    | zero => exact fun _ => ⟨one, rfl, by simp [one, toPoly]⟩
    | succ k ih =>
      intro hk
      obtain ⟨l, hfold, hpoly⟩ := ih (by omega)
      rw [List.range_succ, List.foldlM_append, hfold, Finset.range_add_one]
      by_cases hkj : k = j
      · subst hkj
        refine ⟨l, by simp, ?_⟩
        rw [Finset.erase_insert Finset.notMem_range_self, hpoly,
          Finset.erase_eq_of_notMem Finset.notMem_range_self]
      · have hne : abscissa points k ≠ abscissa points j := fun heq =>
          hkj (injOn_abscissa h (Finset.mem_coe.2 (Finset.mem_range.2 hk))
            (Finset.mem_coe.2 (Finset.mem_range.2 hj)) heq)
        refine ⟨mulAssign cv l (basisFactor (abscissa points j) (abscissa points k)), ?_, ?_⟩
        · have hne' : (points.getD k (0, 0)).1 ≠ (points.getD j (0, 0)).1 := hne
          simp only [Option.bind_eq_bind, Option.bind_some, List.foldlM_cons, List.foldlM_nil,
            if_neg hkj, if_neg hne']
          rfl
        · have hmul := hcv l.constant (l.coefficients.take l.degree)
            (basisFactor (abscissa points j) (abscissa points k)).constant
            ((basisFactor (abscissa points j) (abscissa points k)).coefficients.take
              (basisFactor (abscissa points j) (abscissa points k)).degree)
            (List.length_take_le' _ _)
          rw [(mulAssign_eq hmul).1, hpoly, toPoly_basisFactor, Finset.erase_insert_of_ne hkj,
            Finset.prod_insert (fun hmem => Finset.notMem_range_self (Finset.mem_of_mem_erase hmem)),
            mul_comm]
  obtain ⟨l, hfold, hpoly⟩ := hloop points.length le_rfl
  exact ⟨l, hfold, hpoly⟩

theorem interpolate_eq (hcv : cv.Linear) (hne : points ≠ []) (h : (points.map Prod.fst).Nodup) :
    ∃ p, interpolate cv points = some p ∧ p.toPoly = Lagrange.interpolate
      (Finset.range points.length) (abscissa points) (ordinate points) := by
  have hloop : ∀ k ≤ points.length, ∃ p, (List.range k).foldlM (fun out j => do
      let l ← basisPolynomial cv points j
      pure (out.addAssign (l.mulConstant (points.getD j (0, 0)).2)))
        (⟨0, List.replicate (points.length - 1) 0⟩ : GeneralPolynomial F) = some p ∧
      p.toPoly = ∑ j ∈ Finset.range k, C (ordinate points j) *
        Lagrange.basis (Finset.range points.length) (abscissa points) j := by
    intro k
    induction k with
    | zero => exact fun _ => ⟨_, rfl, by simp [toPoly]⟩
    | succ k ih =>
      intro hk
      obtain ⟨p, hfold, hpoly⟩ := ih (by omega)
      obtain ⟨l, hl, hbasis⟩ := basisPolynomial_eq hcv h hk
      refine ⟨p.addAssign (l.mulConstant (ordinate points k)), ?_, ?_⟩
      · rw [List.range_succ, List.foldlM_append, hfold]
        simp [hl, ordinate]
      · rw [(addAssign_eq _ _).1, toPoly_mulConstant, hpoly, hbasis, Finset.sum_range_succ]
  obtain ⟨p, hfold, hpoly⟩ := hloop points.length le_rfl
  refine ⟨p, ?_, ?_⟩
  · rw [interpolate, if_neg hne]
    exact hfold
  · rw [hpoly, Lagrange.interpolate_apply]

theorem interpolate_spec (hcv : cv.Linear) (hne : points ≠ []) (h : (points.map Prod.fst).Nodup) :
    ∃ p, interpolate cv points = some p ∧ p.degree < points.length ∧
      ∀ xy ∈ points, p.eval xy.1 = xy.2 := by
  obtain ⟨p, hp, hpoly⟩ := interpolate_eq hcv hne h
  refine ⟨p, hp, ?_, fun xy hxy => ?_⟩
  · have hlt := Lagrange.degree_interpolate_lt (ordinate points) (injOn_abscissa h)
    rw [← hpoly, Finset.card_range] at hlt
    rw [degree_eq]
    rcases eq_or_ne p.toPoly 0 with hzero | hpos
    · rw [hzero, natDegree_zero]
      exact List.length_pos_iff.2 hne
    · exact (natDegree_lt_iff_degree_lt hpos).2 hlt
  · obtain ⟨i, hi, rfl⟩ := List.mem_iff_getElem.1 hxy
    have hnode := Lagrange.eval_interpolate_at_node (ordinate points) (injOn_abscissa h)
      (Finset.mem_range.2 hi)
    rw [← hpoly, ← eval_eq] at hnode
    simpa [abscissa, ordinate, List.getD_eq_getElem?_getD, hi] using hnode

end Interpolate

section Fields

variable [DecidableEq F] {cv : Convolve F}

/-- Division by a divisor that is not zero ends, whatever fuel is left, with quotient and remainder,
and an interpolation of points with distinct abscissas goes through all of them. -/
def DividesAndInterpolates (cv : Convolve F) : Prop :=
  (∀ a b : GeneralPolynomial F, ¬b.ctEq zero → ∃ q r,
    (∀ fuel, a.coefficients.length + 1 < fuel → divmod cv fuel a b = some (q, r)) ∧
      a.toPoly = q.toPoly * b.toPoly + r.toPoly ∧ (r.ctEq zero ∨ r.degree < b.degree)) ∧
  ∀ points : List (F × F), points ≠ [] → (points.map Prod.fst).Nodup →
    ∃ p, interpolate cv points = some p ∧ p.degree < points.length ∧
      ∀ xy ∈ points, p.eval xy.1 = xy.2

theorem dividesAndInterpolates (hmonomial : cv.Monomial) (hlinear : cv.Linear) :
    DividesAndInterpolates cv := by
  refine ⟨fun a b hb => ?_, fun points hne h => interpolate_spec hlinear hne h⟩
  have hb' : b.toPoly ≠ 0 := fun hzero => hb ((ctEq_iff _ _).2 (by rw [hzero, toPoly_zero]))
  have ha : a.toPoly.degree < (a.coefficients.length + 1 : ℕ) := by
    have hlt := degree_ofCoeffs_lt (a.constant :: a.coefficients)
    rwa [List.length_cons] at hlt
  obtain ⟨q, r, hloop, heq, hend⟩ := divmodLoop_spec hmonomial hb' _ zero a ha
  rw [toPoly_zero, zero_mul, zero_add] at heq
  refine ⟨q, r, hloop, heq.symm, hend.imp_left fun hzero => (ctEq_iff _ _).2 ?_⟩
  rw [hzero, toPoly_zero]

end Fields

/-- Division and interpolation are right over the fields with the inherited convolution and over
`F61p`. -/
theorem divmod_interpolate :
    (∀ (F : Type) [Field F] [DecidableEq F],
      DividesAndInterpolates (Convolve.default : Convolve F)) ∧
    DividesAndInterpolates F61p.convolve :=
  ⟨fun _ _ _ => dividesAndInterpolates monomial_default linear_default,
    dividesAndInterpolates monomial_f61p linear_f61p⟩

/-- There is no polynomial for an empty list of points. -/
theorem not_interpolate_nil :
    ¬∃ p, interpolate (Convolve.default : Convolve F2) [] = some p := nofun

end GeneralPolynomial

end EdaBitGen
