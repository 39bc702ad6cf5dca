import Mathlib

/-!
# Coefficient lists and declared degrees

`ofCoeffs` reads a list as the coefficients of a polynomial, the constant first.  A `DegPoly` is a
polynomial with a declared degree, which may exceed its own: its leading coefficient is the one at
the declared degree, and a sum first raises the summand of smaller degree by a power of `X`.
-/

open Polynomial

namespace Coefficients

variable {R : Type*} [CommRing R]

/-! ## Lists of coefficients -/

noncomputable def ofCoeffs (l : List R) : R[X] :=
  l.foldr (fun a p => C a + X * p) 0

@[simp] theorem ofCoeffs_nil : ofCoeffs ([] : List R) = 0 := rfl

@[simp] theorem ofCoeffs_cons (a : R) (l : List R) : ofCoeffs (a :: l) = C a + X * ofCoeffs l := rfl

theorem coeff_ofCoeffs (l : List R) (i : ℕ) : (ofCoeffs l).coeff i = l.getD i 0 := by
  induction l generalizing i with
  | nil => simp
  | cons a l ih => cases i <;> simp [ih, coeff_C]

theorem natDegree_ofCoeffs_cons_le (a : R) (l : List R) :
    (ofCoeffs (a :: l)).natDegree ≤ l.length := by
  rw [natDegree_le_iff_coeff_eq_zero]
  intro i hi
  have hlen : (a :: l).length ≤ i := hi
  rw [coeff_ofCoeffs, List.getD_eq_getElem?_getD, List.getElem?_eq_none hlen, Option.getD_none]

theorem ofCoeffs_append (l k : List R) :
    ofCoeffs (l ++ k) = ofCoeffs l + X ^ l.length * ofCoeffs k := by
  induction l with
  | nil => simp
  | cons a l ih =>
    rw [List.cons_append, ofCoeffs_cons, ofCoeffs_cons, ih, List.length_cons]
    ring

@[simp] theorem ofCoeffs_replicate_zero (n : ℕ) : ofCoeffs (List.replicate n (0 : R)) = 0 := by
  induction n with
  | zero => rfl
  | succ n ih => rw [List.replicate_succ, ofCoeffs_cons, ih, C_0, mul_zero, add_zero]

theorem ofCoeffs_map_mul (c : R) (l : List R) :
    ofCoeffs (l.map (c * ·)) = C c * ofCoeffs l := by
  induction l with
  | nil => simp
  | cons a l ih =>
    rw [List.map_cons, ofCoeffs_cons, ofCoeffs_cons, ih, C_mul]
    ring

theorem eval_ofCoeffs (l : List R) (x : R) :
    (ofCoeffs l).eval x = l.foldr (fun a acc => acc * x + a) 0 := by
  induction l with
  | nil => simp
  | cons a l ih =>
    rw [ofCoeffs_cons, eval_add, eval_C, eval_mul, eval_X, ih, List.foldr_cons]
    ring

theorem ofCoeffs_zipWith_add {l k : List R} (h : l.length = k.length) :
    ofCoeffs (List.zipWith (· + ·) l k) = ofCoeffs l + ofCoeffs k := by
  induction l generalizing k with
  | nil =>
    rw [List.length_eq_zero_iff.1 h.symm]
    simp
  | cons a l ih =>
    cases k with
    | nil => cases h
    | cons b k =>
      rw [List.zipWith_cons_cons, ofCoeffs_cons, ofCoeffs_cons, ofCoeffs_cons,
        ih (Nat.succ.inj h), C_add]
      ring

theorem ofCoeffs_zipWith_sub {l k : List R} (h : l.length = k.length) :
    ofCoeffs (List.zipWith (· - ·) l k) = ofCoeffs l - ofCoeffs k := by
  induction l generalizing k with
  | nil =>
    rw [List.length_eq_zero_iff.1 h.symm]
    simp
  | cons a l ih =>
    cases k with
    | nil => cases h
    | cons b k =>
      rw [List.zipWith_cons_cons, ofCoeffs_cons, ofCoeffs_cons, ofCoeffs_cons,
        ih (Nat.succ.inj h), C_sub]
      ring

theorem degree_ofCoeffs_lt (l : List R) : (ofCoeffs l).degree < l.length := by
  rw [degree_lt_iff_coeff_zero]
  intro i hi
  rw [coeff_ofCoeffs, List.getD_eq_getElem?_getD, List.getElem?_eq_none hi, Option.getD_none]

theorem degree_mul_ofCoeffs_lt {l k : List R} (hl : l ≠ []) (hk : k ≠ []) :
    (ofCoeffs l * ofCoeffs k).degree < ((l.length + k.length - 1 : ℕ) : WithBot ℕ) := by
  obtain ⟨a, l, rfl⟩ := List.exists_cons_of_ne_nil hl
  obtain ⟨b, k, rfl⟩ := List.exists_cons_of_ne_nil hk
  have ha := natDegree_ofCoeffs_cons_le a l
  have hb := natDegree_ofCoeffs_cons_le b k
  have hmul := natDegree_mul_le (p := ofCoeffs (a :: l)) (q := ofCoeffs (b :: k))
  refine degree_le_natDegree.trans_lt (Nat.cast_lt.2 ?_)
  rw [List.length_cons, List.length_cons]
  omega

/-- The first coefficients of a polynomial. -/
noncomputable def toCoeffs (n : ℕ) (p : R[X]) : List R := (List.range n).map p.coeff

@[simp] theorem length_toCoeffs (n : ℕ) (p : R[X]) : (toCoeffs n p).length = n := by
  simp [toCoeffs]

theorem ofCoeffs_toCoeffs {n : ℕ} {p : R[X]} (h : p.degree < n) : ofCoeffs (toCoeffs n p) = p := by
  ext i
  rw [coeff_ofCoeffs, toCoeffs, List.getD_eq_getElem?_getD, List.getElem?_map]
  by_cases hi : i < n
  · rw [List.getElem?_range hi, Option.map_some, Option.getD_some]
  · rw [List.getElem?_eq_none (by simpa using hi), Option.map_none, Option.getD_none,
      coeff_eq_zero_of_degree_lt (h.trans_le (Nat.cast_le.2 (Nat.le_of_not_lt hi)))]

theorem take_toCoeffs (d n : ℕ) (p : R[X]) : (toCoeffs n p).take d = toCoeffs (min d n) p := by
  rw [toCoeffs, ← List.map_take, List.take_range, toCoeffs]

/-- Add the entries of `l` to those of `zs`, from the position `o` on. -/
def addFrom (zs : List R) (o : ℕ) : List R → List R
  | [] => zs
  | a :: l => addFrom (zs.modify o (· + a)) (o + 1) l

@[simp] theorem length_addFrom (zs : List R) (o : ℕ) (l : List R) :
    (addFrom zs o l).length = zs.length := by
  induction l generalizing zs o with
  | nil => rfl
  | cons a l ih => rw [addFrom, ih, List.length_modify]

theorem ofCoeffs_modify (zs : List R) {o : ℕ} (a : R) (ho : o < zs.length) :
    ofCoeffs (zs.modify o (· + a)) = ofCoeffs zs + X ^ o * C a := by
  induction zs generalizing o with
  | nil => simp at ho
  | cons z zs ih =>
    cases o with
    | zero =>
      rw [List.modify_zero_cons, ofCoeffs_cons, ofCoeffs_cons, C_add]
      ring
    | succ o =>
      have h := ih (Nat.lt_of_succ_lt_succ ho)
      rw [List.modify_succ_cons, ofCoeffs_cons, ofCoeffs_cons, h]
      ring

theorem ofCoeffs_addFrom (zs : List R) {o : ℕ} {l : List R} (ho : o + l.length ≤ zs.length) :
    ofCoeffs (addFrom zs o l) = ofCoeffs zs + X ^ o * ofCoeffs l := by
  induction l generalizing zs o with
  | nil => simp [addFrom]
  | cons a l ih =>
    rw [List.length_cons] at ho
    have hlen : o + 1 + l.length ≤ (zs.modify o (· + a)).length := by
      rw [List.length_modify]
      omega
    rw [addFrom, ih _ hlen, ofCoeffs_modify zs a (by omega), ofCoeffs_cons]
    ring

end Coefficients

/-! ## Declared degrees -/

/-- A polynomial with a declared degree. -/
structure DegPoly (R : Type*) [CommRing R] where
  poly : R[X]
  degree : ℕ
  natDegree_le : poly.natDegree ≤ degree

namespace DegPoly

variable {R : Type*} [CommRing R]

/-- The coefficient at the declared degree. -/
def lead (a : DegPoly R) : R := a.poly.coeff a.degree

/-- The zero polynomial of declared degree `d`. -/
noncomputable def zero (d : ℕ) : DegPoly R := ⟨0, d, by simp⟩

/-- Multiply by a power of `X`. -/
noncomputable def raise (n : ℕ) (a : DegPoly R) : DegPoly R where
  poly := X ^ n * a.poly
  degree := n + a.degree
  natDegree_le := by
    refine natDegree_mul_le.trans ?_
    have h := natDegree_X_pow_le (R := R) n
    have ha := a.natDegree_le
    omega

theorem degree_align (a b : DegPoly R) :
    (a.raise (b.degree - a.degree)).degree = max a.degree b.degree := by
  simp only [raise]
  omega

noncomputable def add (a b : DegPoly R) : DegPoly R where
  poly := (a.raise (b.degree - a.degree)).poly + (b.raise (a.degree - b.degree)).poly
  degree := max a.degree b.degree
  natDegree_le := by
    refine (natDegree_add_le _ _).trans (max_le ?_ ?_)
    · exact (raise _ a).natDegree_le.trans (degree_align a b).le
    · exact (raise _ b).natDegree_le.trans ((degree_align b a).trans (max_comm _ _)).le

noncomputable def smul (c : R) (a : DegPoly R) : DegPoly R where
  poly := C c * a.poly
  degree := a.degree
  natDegree_le := (natDegree_C_mul_le _ _).trans a.natDegree_le

noncomputable def mul (a b : DegPoly R) : DegPoly R where
  poly := a.poly * b.poly
  degree := a.degree + b.degree
  natDegree_le := natDegree_mul_le.trans (Nat.add_le_add a.natDegree_le b.natDegree_le)

/-- Add a constant to the leading coefficient. -/
noncomputable def addConstant (c : R) (a : DegPoly R) : DegPoly R where
  poly := a.poly + C c * X ^ a.degree
  degree := a.degree
  natDegree_le :=
    (natDegree_add_le _ _).trans (max_le a.natDegree_le (natDegree_C_mul_X_pow_le _ _))

@[simp] theorem degree_add (a b : DegPoly R) : (a.add b).degree = max a.degree b.degree := rfl

@[simp] theorem degree_smul (c : R) (a : DegPoly R) : (a.smul c).degree = a.degree := rfl

@[simp] theorem degree_mul (a b : DegPoly R) : (a.mul b).degree = a.degree + b.degree := rfl

@[simp] theorem degree_addConstant (c : R) (a : DegPoly R) :
    (a.addConstant c).degree = a.degree := rfl

@[simp] theorem lead_raise (n : ℕ) (a : DegPoly R) : (a.raise n).lead = a.lead := by
  simp [lead, raise, coeff_X_pow_mul']

@[simp] theorem lead_add (a b : DegPoly R) : (a.add b).lead = a.lead + b.lead := by
  have ha : (a.raise (b.degree - a.degree)).poly.coeff (max a.degree b.degree) = a.lead := by
    rw [← degree_align a b]
    exact lead_raise _ a
  have hb : (b.raise (a.degree - b.degree)).poly.coeff (max a.degree b.degree) = b.lead := by
    rw [max_comm, ← degree_align b a]
    exact lead_raise _ b
  simp only [add, lead, coeff_add]
  rw [ha, hb]
  rfl

@[simp] theorem lead_smul (c : R) (a : DegPoly R) : (a.smul c).lead = c * a.lead := by
  simp [lead, smul]

@[simp] theorem lead_mul (a b : DegPoly R) : (a.mul b).lead = a.lead * b.lead :=
  coeff_mul_add_eq_of_natDegree_le a.natDegree_le b.natDegree_le

@[simp] theorem lead_addConstant (c : R) (a : DegPoly R) :
    (a.addConstant c).lead = a.lead + c := by
  simp [lead, addConstant]

@[simp] theorem eval_raise (n : ℕ) (a : DegPoly R) (x : R) :
    (a.raise n).poly.eval x = x ^ n * a.poly.eval x := by
  simp [raise]

theorem eval_add (a b : DegPoly R) (x : R) :
    (a.add b).poly.eval x =
      x ^ (b.degree - a.degree) * a.poly.eval x + x ^ (a.degree - b.degree) * b.poly.eval x := by
  simp [add]

@[simp] theorem eval_smul (c : R) (a : DegPoly R) (x : R) :
    (a.smul c).poly.eval x = c * a.poly.eval x := by
  simp [smul]

@[simp] theorem eval_mul (a b : DegPoly R) (x : R) :
    (a.mul b).poly.eval x = a.poly.eval x * b.poly.eval x := by
  simp [mul]

@[simp] theorem eval_addConstant (c : R) (a : DegPoly R) (x : R) :
    (a.addConstant c).poly.eval x = a.poly.eval x + c * x ^ a.degree := by
  simp [addConstant]

/-- A polynomial whose leading coefficient vanishes has a degree below the declared one. -/
theorem natDegree_lt_of_lead_eq_zero {a : DegPoly R} (hd : 0 < a.degree) (h : a.lead = 0) :
    a.poly.natDegree < a.degree := by
  refine lt_of_le_of_ne a.natDegree_le fun heq => ?_
  have hpoly : a.poly = 0 := by
    rw [← leadingCoeff_eq_zero, leadingCoeff, heq]
    exact h
  rw [hpoly, natDegree_zero] at heq
  omega

end DegPoly
