import Mathlib

/-!
# Newton's form of an interpolation

The divided differences of the values at nodes are the coefficients of the polynomial through them in
Newton's basis, and are computed from their neighbours.
-/

open Polynomial Finset

namespace Interpolation

variable {F : Type*} [Field F] (v r : ℕ → F)

/-- The leading coefficient of the polynomial through the nodes from `a` to `a + j`. -/
noncomputable def dividedDifference (a j : ℕ) : F :=
  (Lagrange.interpolate (Icc a (a + j)) v r).coeff j

theorem dividedDifference_zero (a : ℕ) : dividedDifference v r a 0 = r a := by
  rw [dividedDifference, Nat.add_zero, Icc_self, Lagrange.interpolate_singleton, coeff_C_zero]

variable {r} in
theorem dividedDifference_congr {r' : ℕ → F} {a j : ℕ} (h : ∀ i ∈ Icc a (a + j), r i = r' i) :
    dividedDifference v r a j = dividedDifference v r' a j := by
  rw [dividedDifference, Lagrange.interpolate_eq_of_values_eq_on _ _ h, ← dividedDifference]

variable {v}

theorem natDegree_interpolate_le {s : Finset ℕ} {n : ℕ} (hv : Set.InjOn v s) (hs : #s = n + 1) :
    (Lagrange.interpolate s v r).natDegree ≤ n := by
  refine natDegree_le_iff_degree_le.2 ((Lagrange.degree_interpolate_le r hv).trans ?_)
  rw [hs, Nat.add_sub_cancel]

/-- A product with a divisor of degree one gives the coefficient above the leading one. -/
theorem coeff_mul_basisDivisor {p : F[X]} {n : ℕ} (hp : p.natDegree ≤ n) (x y : F) :
    (p * Lagrange.basisDivisor x y).coeff (n + 1) = p.coeff n * (x - y)⁻¹ := by
  have hzero : p.coeff (n + 1) = 0 := coeff_eq_zero_of_natDegree_lt (by omega)
  rw [Lagrange.basisDivisor, mul_left_comm, coeff_C_mul, mul_sub, coeff_sub, coeff_mul_X,
    coeff_mul_C, hzero, zero_mul, sub_zero, mul_comm]

theorem dividedDifference_succ {a j : ℕ} (hv : Set.InjOn v (Icc a (a + (j + 1)))) :
    dividedDifference v r a (j + 1) =
      (dividedDifference v r (a + 1) j - dividedDifference v r a j) *
        (v (a + (j + 1)) - v a)⁻¹ := by
  have hleft : (Icc a (a + (j + 1))).erase (a + (j + 1)) = Icc a (a + j) := by
    ext i
    rw [mem_erase, mem_Icc, mem_Icc]
    omega
  have hright : (Icc a (a + (j + 1))).erase a = Icc (a + 1) (a + 1 + j) := by
    ext i
    rw [mem_erase, mem_Icc, mem_Icc]
    omega
  have hsub : ∀ {s : Finset ℕ}, s ⊆ Icc a (a + (j + 1)) → Set.InjOn v s :=
    fun hs => hv.mono (coe_subset.2 hs)
  have hdegree := natDegree_interpolate_le r (n := j) (hsub (hleft ▸ erase_subset _ _))
    (by rw [Nat.card_Icc]; omega)
  have hdegree' := natDegree_interpolate_le r (n := j) (hsub (hright ▸ erase_subset _ _))
    (by rw [Nat.card_Icc]; omega)
  rw [dividedDifference, Lagrange.interpolate_eq_add_interpolate_erase r hv
    (left_mem_Icc.2 (Nat.le_add_right a (j + 1))) (right_mem_Icc.2 (Nat.le_add_right a (j + 1)))
    (by omega), hleft, hright, coeff_add, coeff_mul_basisDivisor hdegree,
    coeff_mul_basisDivisor hdegree', ← dividedDifference, ← dividedDifference,
    ← neg_sub (v (a + (j + 1))) (v a), inv_neg]
  ring

/-- One node more adds a multiple of the polynomial with the nodes before as roots. -/
theorem interpolate_range_succ {n : ℕ} (hv : Set.InjOn v (range (n + 1))) :
    Lagrange.interpolate (range (n + 1)) v r =
      Lagrange.interpolate (range n) v r +
        C (dividedDifference v r 0 n) * Lagrange.nodal (range n) v := by
  have hv' : Set.InjOn v (range n) := hv.mono (coe_subset.2 (range_subset_range.2 (Nat.le_succ n)))
  have hIcc : Icc 0 (0 + n) = range (n + 1) := by
    ext i
    rw [mem_Icc, mem_range]
    omega
  have hlt : (Lagrange.interpolate (range n) v r).degree < n := by
    simpa using Lagrange.degree_interpolate_lt r hv'
  have hnodal : (Lagrange.nodal (range n) v).natDegree = n := by
    rw [Lagrange.natDegree_nodal, card_range]
  rw [← sub_eq_zero]
  refine eq_zero_of_degree_lt_of_eval_index_eq_zero _ hv' ?_ fun i hi => ?_
  · rw [card_range]
    refine (degree_lt_iff_coeff_zero _ _).2 fun m hm => ?_
    have hlow : (Lagrange.interpolate (range n) v r).coeff m = 0 :=
      coeff_eq_zero_of_degree_lt (hlt.trans_le (by exact_mod_cast hm))
    rw [coeff_sub, coeff_add, hlow, zero_add, coeff_C_mul]
    rcases hm.eq_or_lt with rfl | hm
    · rw [dividedDifference, hIcc]
      have hmonic := (Lagrange.nodal_monic (s := range n) (v := v)).coeff_natDegree
      rw [hnodal] at hmonic
      rw [hmonic, mul_one, sub_self]
    · have hdegree := natDegree_interpolate_le r (n := n) hv (card_range _)
      rw [coeff_eq_zero_of_natDegree_lt (hdegree.trans_lt hm),
        coeff_eq_zero_of_natDegree_lt (hnodal.trans_lt hm), mul_zero, sub_zero]
  · have hmem : i ∈ range (n + 1) := mem_range.2 ((mem_range.1 hi).trans (Nat.lt_succ_self n))
    rw [eval_sub, eval_add, eval_mul, Lagrange.eval_interpolate_at_node r hv hmem,
      Lagrange.eval_interpolate_at_node r hv' hi, Lagrange.eval_nodal_at_node hi, mul_zero, add_zero,
      sub_self]

theorem eval_interpolate_range {n : ℕ} (hv : Set.InjOn v (range n)) (x : F) :
    (Lagrange.interpolate (range n) v r).eval x =
      ∑ i ∈ range n, dividedDifference v r 0 i * ∏ m ∈ range i, (x - v m) := by
  induction n with
  | zero => simp
  | succ n ih =>
    rw [interpolate_range_succ r hv, eval_add, eval_mul, eval_C, Lagrange.eval_nodal,
      ih (hv.mono (coe_subset.2 (range_subset_range.2 (Nat.le_succ n)))), sum_range_succ]

theorem eval_eq_sum_dividedDifference {p : F[X]} {n : ℕ} (hv : Set.InjOn v (range n))
    (hp : p.degree < n) (x : F) :
    p.eval x = ∑ i ∈ range n, dividedDifference v (fun i => p.eval (v i)) 0 i *
      ∏ m ∈ range i, (x - v m) := by
  rw [← eval_interpolate_range _ hv, ← Lagrange.eq_interpolate hv (by rwa [card_range])]

theorem eval_eq_sum_basis [DecidableEq F] {p : F[X]} {s : Finset F} (hp : p.degree < #s) (x : F) :
    p.eval x = ∑ u ∈ s, (∏ w ∈ s.erase u, (x - w)) * (∏ w ∈ s.erase u, (u - w))⁻¹ * p.eval u := by
  have hv : Set.InjOn (fun u : F => u) s := fun _ _ _ _ h => h
  nth_rewrite 1 [Lagrange.eq_interpolate hv hp, Lagrange.interpolate_eq_sum]
  rw [eval_finsetSum]
  refine sum_congr rfl fun u _ => ?_
  rw [eval_mul, eval_C, eval_prod, div_eq_mul_inv]
  simp only [eval_sub, eval_X, eval_C]
  ring

end Interpolation
