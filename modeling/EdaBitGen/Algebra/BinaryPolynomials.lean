import EdaBitGen.Algebra.Coefficients

/-!
# Words as polynomials over two elements

The bits of a word are the coefficients of a polynomial, the lowest bit first. A map of words that
respects the sum of words reduces modulo a polynomial when it does so for the powers of `X`, and the
remainders of the powers are found by repeated multiplication with `X`.
-/

open Polynomial Coefficients

namespace BinaryPolynomials

variable {w n : ℕ}

def coefficient (b : Bool) : ZMod 2 := if b then 1 else 0

noncomputable def toPoly (x : BitVec w) : (ZMod 2)[X] :=
  ofCoeffs ((List.range w).map fun i => coefficient (x.getLsbD i))

theorem coeff_toPoly (x : BitVec w) (i : ℕ) : (toPoly x).coeff i = coefficient (x.getLsbD i) := by
  rw [toPoly, coeff_ofCoeffs, List.getD_eq_getElem?_getD, List.getElem?_map]
  by_cases hi : i < w
  · rw [List.getElem?_range hi]
    rfl
  · rw [List.getElem?_eq_none (by rw [List.length_range]; omega), x.getLsbD_of_ge i (by omega)]
    rfl

theorem coefficient_xor (a b : Bool) : coefficient (a ^^ b) = coefficient a + coefficient b := by
  revert a b
  decide

theorem toPoly_xor (x y : BitVec w) : toPoly (x ^^^ y) = toPoly x + toPoly y := by
  ext i
  rw [coeff_add, coeff_toPoly, coeff_toPoly, coeff_toPoly, BitVec.getLsbD_xor, coefficient_xor]

theorem toPoly_zero : toPoly (0 : BitVec w) = 0 := by
  ext i
  rw [coeff_toPoly, coeff_zero]
  exact congrArg coefficient BitVec.getLsbD_zero

theorem toPoly_twoPow {i : ℕ} (hi : i < w) : toPoly (BitVec.twoPow w i) = X ^ i := by
  ext k
  rw [coeff_toPoly, coeff_X_pow, BitVec.getLsbD_twoPow, decide_eq_true hi, Bool.true_and, coefficient]
  simp [eq_comm]

theorem toPoly_injective {x y : BitVec w} (h : toPoly x = toPoly y) : x = y := by
  apply BitVec.eq_of_getLsbD_eq
  intro i _
  have hcoeff := congrArg (fun p => coeff p i) h
  rw [coeff_toPoly, coeff_toPoly] at hcoeff
  revert hcoeff
  cases x.getLsbD i <;> cases y.getLsbD i <;> decide

/-- A word without bits from `d` on. -/
def Below (d : ℕ) (x : BitVec w) : Prop := ∀ i ≥ d, x.getLsbD i = false

theorem below_of_toNat_lt {d : ℕ} {x : BitVec w} (h : x.toNat < 2 ^ d) : Below d x := fun _ hi =>
  Nat.testBit_lt_two_pow (lt_of_lt_of_le h (Nat.pow_le_pow_right (by omega) hi))

theorem below_width (x : BitVec w) : Below w x := fun i hi => x.getLsbD_of_ge i hi

theorem Below.degree_lt {d : ℕ} {x : BitVec w} (h : Below d x) : (toPoly x).degree < d := by
  rw [degree_lt_iff_coeff_zero]
  intro i hi
  rw [coeff_toPoly, h i hi]
  rfl

/-- A word that holds the product of two polynomials below `d` has one bit less than twice `d`. -/
theorem Below.of_toPoly_mul {d : ℕ} (hd : 0 < d) {x y : BitVec w} (hx : Below d x) (hy : Below d y)
    {z : BitVec n} (hz : toPoly z = toPoly x * toPoly y) : Below (2 * d - 1) z := by
  intro i hi
  have hcoeff : (toPoly z).coeff i = 0 := by
    rw [hz]
    by_cases hx0 : toPoly x = 0
    · rw [hx0, zero_mul, coeff_zero]
    by_cases hy0 : toPoly y = 0
    · rw [hy0, mul_zero, coeff_zero]
    apply coeff_eq_zero_of_natDegree_lt
    have hxdeg := (natDegree_lt_iff_degree_lt hx0).2 hx.degree_lt
    have hydeg := (natDegree_lt_iff_degree_lt hy0).2 hy.degree_lt
    rw [natDegree_mul hx0 hy0]
    omega
  rw [coeff_toPoly] at hcoeff
  revert hcoeff
  cases z.getLsbD i <;> decide

theorem toPoly_shiftLeft {d k : ℕ} {x : BitVec w} (h : Below d x) (hd : d + k ≤ w) :
    toPoly (x <<< k) = X ^ k * toPoly x := by
  ext i
  rw [coeff_X_pow_mul', coeff_toPoly, BitVec.getLsbD_shiftLeft]
  by_cases hi : k ≤ i
  · rw [if_pos hi, coeff_toPoly]
    by_cases hiw : i < w
    · have hik : ¬i < k := by omega
      simp [hiw, hik]
    · rw [h (i - k) (by omega)]
      simp
  · rw [if_neg hi]
    simp [coefficient, Nat.lt_of_not_le hi]

theorem toPoly_setWidth {d : ℕ} {x : BitVec w} (h : Below d x) (hd : d ≤ n) :
    toPoly (x.setWidth n) = toPoly x := by
  ext i
  rw [coeff_toPoly, coeff_toPoly, BitVec.getLsbD_setWidth]
  by_cases hi : i < n
  · simp [hi]
  · rw [h i (by omega), Bool.and_false]

theorem toPoly_append {a b : ℕ} (u : BitVec a) (l : BitVec b) :
    toPoly (u ++ l) = X ^ b * toPoly u + toPoly l := by
  ext i
  rw [coeff_add, coeff_X_pow_mul', coeff_toPoly, coeff_toPoly, BitVec.getLsbD_append]
  by_cases hi : i < b
  · rw [if_pos hi, if_neg (by omega), zero_add, coeff_toPoly]
  · rw [if_neg hi, if_pos (by omega), coeff_toPoly, l.getLsbD_of_ge i (by omega)]
    exact (add_zero _).symm

/-! ## A modulus -/

/-- The word of a polynomial of degree `d` with leading coefficient one. -/
structure Modulus (d : ℕ) (p : BitVec w) : Prop where
  lt : d < w
  top : p.getLsbD d = true
  below : Below (d + 1) p

namespace Modulus

variable {d : ℕ} {p : BitVec w} (h : Modulus d p)

include h

theorem monic : (toPoly p).Monic := by
  apply monic_of_natDegree_le_of_coeff_eq_one d
  · rw [natDegree_le_iff_coeff_eq_zero]
    intro i hi
    rw [coeff_toPoly, h.below i hi]
    rfl
  · rw [coeff_toPoly, h.top]
    rfl

theorem degree_eq : (toPoly p).degree = d := by
  apply le_antisymm
  · rw [degree_le_iff_coeff_zero]
    intro i hi
    rw [coeff_toPoly, h.below i (Nat.lt_of_succ_le (by exact_mod_cast hi))]
    rfl
  · apply le_degree_of_ne_zero
    rw [coeff_toPoly, h.top]
    decide

end Modulus

/-- The product of a word below the degree of a modulus and `X`, less the modulus if it is too large. -/
def timesX (p : BitVec w) (d : ℕ) (x : BitVec w) : BitVec w :=
  (x <<< 1) ^^^ (if x.getLsbD (d - 1) then p else 0)

theorem toPoly_timesX {d : ℕ} {p x : BitVec w} (hp : Modulus d p) (hx : Below d x) :
    toPoly (timesX p d x) %ₘ toPoly p = X * toPoly x %ₘ toPoly p := by
  have hif : toPoly (if x.getLsbD (d - 1) then p else 0) %ₘ toPoly p = 0 := by
    split
    · exact modByMonic_self hp.monic
    · rw [toPoly_zero, zero_modByMonic]
  rw [timesX, toPoly_xor, add_modByMonic, hif, add_zero,
    toPoly_shiftLeft hx (by have := hp.lt; omega), pow_one]

/-- A map from words of `k` bits to words below the degree of a modulus, which finds the remainder of
each power from the one before it. -/
structure Reduction (p : BitVec n) (d k : ℕ) (f : BitVec w → BitVec n) : Prop where
  map_xor : ∀ x y, f (x ^^^ y) = f x ^^^ f y
  one : f (BitVec.twoPow w 0) = BitVec.twoPow n 0
  succ : ∀ i < k - 1, f (BitVec.twoPow w (i + 1)) = timesX p d (f (BitVec.twoPow w i))
  lt : ∀ i < k, (f (BitVec.twoPow w i)).toNat < 2 ^ d

namespace Reduction

variable {p : BitVec n} {d k : ℕ} {f : BitVec w → BitVec n}

theorem map_zero (h : Reduction p d k f) : f 0 = 0 := by
  have hzero := h.map_xor 0 0
  rwa [BitVec.xor_self, BitVec.xor_self] at hzero

theorem toPoly_twoPow (h : Reduction p d k f) (hp : Modulus d p) {i : ℕ} (hi : i < k) :
    toPoly (f (BitVec.twoPow w i)) %ₘ toPoly p = X ^ i %ₘ toPoly p := by
  induction i with
  | zero => rw [h.one, BinaryPolynomials.toPoly_twoPow (by have := hp.lt; omega)]
  | succ i ih =>
    have hprev := ih (by omega)
    rw [h.succ i (by omega), toPoly_timesX hp (below_of_toNat_lt (h.lt i (by omega))), pow_succ']
    have hdvd : toPoly p ∣ X * toPoly (f (BitVec.twoPow w i)) - X * X ^ i := by
      rw [← mul_sub]
      apply Dvd.dvd.mul_left
      rw [← modByMonic_eq_zero_iff_dvd hp.monic, sub_modByMonic, hprev, sub_self]
    rw [← modByMonic_eq_zero_iff_dvd hp.monic, sub_modByMonic] at hdvd
    exact sub_eq_zero.1 hdvd

theorem spec (h : Reduction p d k f) (hp : Modulus d p) (hk : k ≤ w) {x : BitVec w} (hx : Below k x) :
    Below d (f x) ∧ toPoly (f x) = toPoly x %ₘ toPoly p := by
  have hall : ∀ j ≤ k, ∀ x : BitVec w, Below j x →
      Below d (f x) ∧ toPoly (f x) %ₘ toPoly p = toPoly x %ₘ toPoly p := by
    intro j
    induction j with
    | zero =>
      intro _ x hx
      have hzero : x = 0 := by
        apply BitVec.eq_of_getLsbD_eq
        intro i _
        rw [hx i (Nat.zero_le i)]
        exact BitVec.getLsbD_zero.symm
      rw [hzero, h.map_zero, toPoly_zero, toPoly_zero]
      exact ⟨fun i _ => BitVec.getLsbD_zero, rfl⟩
    | succ j ih =>
      intro hj x hx
      by_cases hbit : x.getLsbD j
      · -- The highest bit is split off.
        have hsplit : x = (x ^^^ BitVec.twoPow w j) ^^^ BitVec.twoPow w j := by
          rw [BitVec.xor_assoc, BitVec.xor_self, BitVec.xor_zero]
        have hrest : Below j (x ^^^ BitVec.twoPow w j) := by
          intro i hi
          rw [BitVec.getLsbD_xor, BitVec.getLsbD_twoPow]
          by_cases hij : i = j
          · subst hij
            rw [hbit, decide_eq_true (by omega)]
            simp
          · rw [hx i (by omega)]
            simp [Ne.symm hij]
        have ⟨hbelow, hmod⟩ := ih (by omega) _ hrest
        have htop := below_of_toNat_lt (h.lt j (by omega))
        refine ⟨?_, ?_⟩
        · rw [hsplit, h.map_xor]
          intro i hi
          rw [BitVec.getLsbD_xor, hbelow i hi, htop i hi]
          rfl
        · rw [hsplit, h.map_xor, toPoly_xor, toPoly_xor, add_modByMonic, add_modByMonic, hmod,
            h.toPoly_twoPow hp (by omega), BinaryPolynomials.toPoly_twoPow (by omega)]
      · apply ih (by omega)
        intro i hi
        by_cases hij : i = j
        · rw [hij]
          exact Bool.eq_false_of_not_eq_true hbit
        · exact hx i (by omega)
  have ⟨hbelow, hmod⟩ := hall k (le_refl k) x hx
  refine ⟨hbelow, ?_⟩
  rwa [(modByMonic_eq_self_iff hp.monic).2 (by rw [hp.degree_eq]; exact hbelow.degree_lt)] at hmod

end Reduction

end BinaryPolynomials
