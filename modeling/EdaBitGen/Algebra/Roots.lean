import Mathlib

/-!
# Counting the roots of checks

A check that accepts on the zeros of a polynomial in a secret accepts for few values of the secret.
`powerSum χ cs` is the sum of the `cs` with the powers of a challenge `χ`, from the first power on.
-/

open Polynomial

namespace Roots

variable {F : Type*} [Field F]

/-- A nonzero polynomial of degree at most `n` vanishes at no more than `n` points. -/
theorem encard_roots_le {p : F[X]} (hp : p ≠ 0) {n : ℕ} (hn : p.natDegree ≤ n) :
    {x | p.eval x = 0}.encard ≤ n := by
  classical
  have hset : {x | p.eval x = 0} = (p.roots.toFinset : Set F) := by
    ext x
    simp [hp]
  rw [hset, Set.encard_coe_eq_coe_finsetCard]
  have hcard : p.roots.toFinset.card ≤ n :=
    (Multiset.toFinset_card_le _).trans (p.card_roots'.trans hn)
  exact_mod_cast hcard

theorem encard_affine_le_one {a b : F} (hb : b ≠ 0) : {x | a + b * x = 0}.encard ≤ 1 := by
  have hp : C b * X + C a ≠ 0 := fun h => hb (by simpa using congrArg (·.coeff 1) h)
  have h := encard_roots_le hp (n := 1) natDegree_linear_le
  simpa [add_comm] using h

theorem encard_quadratic_le_two {a b c : F} (hc : c ≠ 0) :
    {x | a + b * x + c * x ^ 2 = 0}.encard ≤ 2 := by
  have hp : C c * X ^ 2 + C b * X + C a ≠ 0 := fun h => hc (by
    simpa [coeff_X, coeff_C] using congrArg (·.coeff 2) h)
  have h := encard_roots_le hp (n := 2) natDegree_quadratic_le
  simpa [add_comm, add_left_comm, add_assoc] using h

/-- The sum of `cs` with the powers of `χ`. -/
def powerSum (χ : F) (cs : List F) : F :=
  ∑ i : Fin cs.length, χ ^ (i.val + 1) * cs.get i

@[simp] theorem powerSum_nil (χ : F) : powerSum χ [] = 0 := rfl

theorem powerSum_ofFn (χ : F) {n : ℕ} (f : Fin n → F) :
    powerSum χ (List.ofFn f) = ∑ i, χ ^ (i.val + 1) * f i := by
  refine Fintype.sum_equiv (finCongr List.length_ofFn) _ _ fun i => ?_
  rw [List.get_ofFn]
  rfl

theorem powerSum_cons (χ c : F) (cs : List F) :
    powerSum χ (c :: cs) = χ * (c + powerSum χ cs) := by
  have h := Fin.sum_univ_succ fun i : Fin (cs.length + 1) => χ ^ (i.val + 1) * (c :: cs).get i
  refine h.trans ?_
  simp [powerSum, mul_add, Finset.mul_sum, pow_succ', mul_assoc]

theorem powerSum_eq_zero_of_forall (χ : F) {cs : List F} (h : ∀ c ∈ cs, c = 0) :
    powerSum χ cs = 0 := by
  induction cs with
  | nil => rfl
  | cons c cs ih =>
    obtain ⟨hc, hcs⟩ := List.forall_mem_cons.1 h
    rw [powerSum_cons, hc, ih hcs, add_zero, mul_zero]

/-- The sum of `cs` with the powers of `χ` from `χ ^ 0` on, by Horner's rule. -/
def hornerSum (χ : F) : List F → F
  | [] => 0
  | c :: cs => c + χ * hornerSum χ cs

theorem powerSum_eq_mul_hornerSum (χ : F) (cs : List F) :
    powerSum χ cs = χ * hornerSum χ cs := by
  induction cs with
  | nil => simp [hornerSum]
  | cons c cs ih => rw [powerSum_cons, hornerSum, ih]

/-- The polynomial whose value at `χ` is `powerSum χ cs`. -/
noncomputable def powerPoly : List F → F[X]
  | [] => 0
  | c :: cs => X * (C c + powerPoly cs)

theorem eval_powerPoly (χ : F) (cs : List F) : (powerPoly cs).eval χ = powerSum χ cs := by
  induction cs with
  | nil => simp [powerPoly]
  | cons c cs ih => simp [powerPoly, powerSum_cons, ih]

theorem natDegree_powerPoly_le (cs : List F) : (powerPoly cs).natDegree ≤ cs.length := by
  induction cs with
  | nil => simp [powerPoly]
  | cons c cs ih =>
    have hC : (C c + powerPoly cs).natDegree ≤ cs.length :=
      (natDegree_add_le _ _).trans (max_le (by simp) ih)
    calc (X * (C c + powerPoly cs)).natDegree
        ≤ (X : F[X]).natDegree + (C c + powerPoly cs).natDegree := natDegree_mul_le
      _ ≤ 1 + cs.length := Nat.add_le_add natDegree_X_le hC
      _ = (c :: cs).length := by simp [add_comm]

theorem powerPoly_ne_zero {cs : List F} (h : ∃ c ∈ cs, c ≠ 0) : powerPoly cs ≠ 0 := by
  induction cs with
  | nil => simp at h
  | cons c cs ih =>
    refine mul_ne_zero X_ne_zero fun h0 => ?_
    have hc : c = 0 := by
      have h1 := congrArg (·.coeff 0) h0
      cases cs <;> simpa [powerPoly] using h1
    obtain ⟨d, hd, hne⟩ := h
    rcases List.mem_cons.1 hd with rfl | hd
    · exact hne hc
    · exact ih ⟨d, hd, hne⟩ (by simpa [hc] using h0)

/-- If some coefficient is not zero, at most as many challenges as coefficients make the sum
zero. -/
theorem encard_powerSum_le {cs : List F} (h : ∃ c ∈ cs, c ≠ 0) :
    {χ | powerSum χ cs = 0}.encard ≤ cs.length := by
  simp only [← eval_powerPoly]
  exact encard_roots_le (powerPoly_ne_zero h) (natDegree_powerPoly_le cs)

theorem sq_sub_self_eq_zero [Finite F] (hcard : Nat.card F ≤ 2) (x : F) : x ^ 2 - x = 0 := by
  have : Fintype F := Fintype.ofFinite F
  have hle : Fintype.card F ≤ 2 := by rwa [← Nat.card_eq_fintype_card]
  have hcard' : Fintype.card F = 2 := le_antisymm hle Fintype.one_lt_card
  rw [sub_eq_zero, ← hcard', FiniteField.pow_card]

/-! ## Powers of an element of an extension -/

section Extension

variable {K L : Type*} [Field K] [Field L] [Algebra K L]

/-- The polynomial whose value at `χ` is `hornerSum χ cs`. -/
noncomputable def hornerPoly : List K → K[X]
  | [] => 0
  | c :: cs => C c + X * hornerPoly cs

theorem aeval_hornerPoly (χ : L) (cs : List K) :
    aeval χ (hornerPoly cs) = hornerSum χ (cs.map (algebraMap K L)) := by
  induction cs with
  | nil => simp [hornerPoly, hornerSum]
  | cons c cs ih => simp [hornerPoly, hornerSum, ih]

theorem degree_hornerPoly_lt (cs : List K) : (hornerPoly cs).degree < cs.length := by
  induction cs with
  | nil => simp [hornerPoly]
  | cons c cs ih =>
    have hX : (X * hornerPoly cs).degree < ((cs.length + 1 : ℕ) : WithBot ℕ) := by
      rcases eq_or_ne (hornerPoly cs) 0 with h0 | h0
      · simp [h0]
      · rw [degree_mul, degree_X, degree_eq_natDegree h0] at *
        norm_cast at *
        omega
    refine lt_of_le_of_lt (degree_add_le _ _) (max_lt ?_ hX)
    exact lt_of_le_of_lt degree_C_le (by exact_mod_cast Nat.succ_pos cs.length)

theorem hornerPoly_ne_zero {cs : List K} (h : ∃ c ∈ cs, c ≠ 0) : hornerPoly cs ≠ 0 := by
  induction cs with
  | nil => simp at h
  | cons c cs ih =>
    intro h0
    have hc : c = 0 := by simpa [hornerPoly] using congrArg (·.coeff 0) h0
    obtain ⟨d, hd, hne⟩ := h
    rcases List.mem_cons.1 hd with rfl | hd
    · exact hne hc
    · refine mul_ne_zero X_ne_zero (ih ⟨d, hd, hne⟩) ?_
      simpa [hornerPoly, hc] using h0

/-- The sum of elements of the base field with the powers of an element of large degree is not
zero, unless they all are. -/
theorem powerSum_ne_zero {χ : L} (hχ : χ ≠ 0) {cs : List K} (h : ∃ c ∈ cs, c ≠ 0)
    (hlen : cs.length ≤ (minpoly K χ).natDegree) :
    powerSum χ (cs.map (algebraMap K L)) ≠ 0 := by
  intro h0
  rw [powerSum_eq_mul_hornerSum, ← aeval_hornerPoly] at h0
  have hroot := (mul_eq_zero.1 h0).resolve_left hχ
  have hdeg := minpoly.degree_le_of_ne_zero K χ (hornerPoly_ne_zero h) hroot
  have hlt := lt_of_le_of_lt hdeg (degree_hornerPoly_lt cs)
  have hmin : (minpoly K χ).natDegree < cs.length := by
    rcases eq_or_ne (minpoly K χ) 0 with hz | hz
    · obtain ⟨c, hc, -⟩ := h
      rw [hz, natDegree_zero]
      exact List.length_pos_of_mem hc
    · rw [degree_eq_natDegree hz] at hlt
      exact_mod_cast hlt
  omega

theorem exists_ne_zero_minpoly [Finite L] :
    ∃ χ : L, χ ≠ 0 ∧ (minpoly K χ).natDegree = Module.finrank K L := by
  have : Finite K := Finite.of_injective _ (algebraMap K L).injective
  obtain ⟨α, hα⟩ := Field.exists_primitive_element K L
  rcases eq_or_ne α 0 with rfl | h0
  · refine ⟨1, one_ne_zero, ?_⟩
    rw [← (Field.primitive_element_iff_minpoly_natDegree_eq K (0 : L)).1 hα]
    rw [minpoly.zero, minpoly.one, natDegree_X, ← C_1, natDegree_X_sub_C]
  · exact ⟨α, h0, (Field.primitive_element_iff_minpoly_natDegree_eq K α).1 hα⟩

/-- More elements than the degree of the extension have a relation with the powers of `χ`. -/
theorem exists_powerSum_eq_zero [FiniteDimensional K L] (χ : L) {n : ℕ}
    (hn : Module.finrank K L < n) :
    ∃ cs : List K, cs.length = n ∧ (∃ c ∈ cs, c ≠ 0) ∧
      powerSum χ (cs.map (algebraMap K L)) = 0 := by
  have hdep : ¬LinearIndependent K fun i : Fin n => χ ^ (i.val + 1) := fun h => by
    have := h.fintype_card_le_finrank
    rw [Fintype.card_fin] at this
    omega
  obtain ⟨g, hg, i, hi⟩ := Fintype.not_linearIndependent_iff.1 hdep
  refine ⟨List.ofFn g, List.length_ofFn, ⟨g i, List.mem_ofFn.2 ⟨i, rfl⟩, hi⟩, ?_⟩
  rw [← hg, List.map_ofFn, powerSum_ofFn]
  exact Finset.sum_congr rfl fun j _ => by rw [Function.comp_apply, Algebra.smul_def, mul_comm]

end Extension

end Roots

/-!
## Roots in a finite field

How many roots a polynomial has in a finite field, by its greatest common divisor with the polynomial
that has all elements as roots; and for polynomials whose exponents are powers of the size of a
subfield, by that of a polynomial of lower degree over the subfield.
-/

namespace FiniteRoots

open Polynomial FiniteField Module

section Common

variable {K : Type*} [Field K]

open Classical in
/-- The degree of the greatest common divisor. -/
noncomputable def gcdDegree (p q : K[X]) : ℕ := (EuclideanDomain.gcd p q).natDegree

theorem exists_gcd (p q : K[X]) : ∃ g : K[X], g.natDegree = gcdDegree p q ∧ g ∣ p ∧ g ∣ q ∧
    ∃ u v, g = p * u + q * v := by
  classical
  exact ⟨EuclideanDomain.gcd p q, rfl, EuclideanDomain.gcd_dvd_left p q,
    EuclideanDomain.gcd_dvd_right p q, _, _, EuclideanDomain.gcd_eq_gcd_ab p q⟩

theorem gcdDegree_of_dvd {p q : K[X]} (h : p ∣ q) : gcdDegree p q = p.natDegree := by
  classical
  refine natDegree_eq_of_degree_eq (degree_eq_degree_of_associated (associated_of_dvd_dvd ?_ ?_))
  · exact EuclideanDomain.gcd_dvd_left p q
  · exact EuclideanDomain.dvd_gcd dvd_rfl h

end Common

section Roots

variable {L : Type*} [Field L] [Finite L]

/-- A polynomial has as many roots as the degree of its common divisor with the polynomial of all
elements. -/
theorem card_roots_eq (p : L[X]) :
    Nat.card {x : L // p.eval x = 0} = gcdDegree p (X ^ Nat.card L - X) := by
  classical
  have := Fintype.ofFinite L
  obtain ⟨g, hg, ⟨w, hw⟩, hdvd, u, v, hbezout⟩ := exists_gcd p (X ^ Nat.card L - X)
  rw [← hg]
  rw [Nat.card_eq_fintype_card] at hdvd hbezout
  have hne : (X ^ Fintype.card L - X : L[X]) ≠ 0 :=
    X_pow_card_sub_X_ne_zero L Fintype.one_lt_card
  have hg0 : g ≠ 0 := ne_zero_of_dvd_ne_zero hne hdvd
  have hsplits : g.Splits := by
    have h := (isSplittingField_sub L L).splits
    rw [Algebra.algebraMap_self, Polynomial.map_id] at h
    exact h.of_dvd hne hdvd
  have hnodup : g.roots.Nodup := by
    refine Multiset.nodup_of_le (roots.le_of_dvd hne hdvd) ?_
    rw [roots_X_pow_card_sub_X]
    exact Finset.univ.nodup
  have hroot : ∀ x, p.eval x = 0 ↔ x ∈ g.roots.toFinset := by
    intro x
    rw [Multiset.mem_toFinset, mem_roots hg0, IsRoot.def]
    constructor
    · intro hx
      rw [hbezout, eval_add, eval_mul, eval_mul, hx, eval_sub, eval_pow, eval_X, pow_card, sub_self,
        zero_mul, zero_mul, add_zero]
    · intro hx
      rw [hw, eval_mul, hx, zero_mul]
  rw [Nat.card_congr (Equiv.subtypeEquivRight hroot), Nat.card_eq_fintype_card, Fintype.card_coe,
    Multiset.toFinset_card_of_nodup hnodup, hsplits.natDegree_eq_card_roots]

end Roots

/-! ## Powers of the Frobenius map -/

section Frobenius

variable (K L : Type*) [Field K] [Fintype K] [Field L] [Algebra K L]

/-- The Frobenius map in place of the variable. -/
noncomputable def frobeniusMap (p : K[X]) : L →ₗ[K] L := aeval (frobeniusAlgHom K L).toLinearMap p

theorem frobeniusMap_mul (p q : K[X]) (x : L) :
    frobeniusMap K L (p * q) x = frobeniusMap K L p (frobeniusMap K L q x) := by
  rw [frobeniusMap, map_mul]
  rfl

theorem frobeniusMap_add (p q : K[X]) (x : L) :
    frobeniusMap K L (p + q) x = frobeniusMap K L p x + frobeniusMap K L q x := by
  rw [frobeniusMap, map_add]
  rfl

/-- The polynomial whose exponents are the powers of the size of the field. -/
noncomputable def linearized (p : K[X]) : L[X] :=
  p.sum fun i c => monomial (Fintype.card K ^ i) (algebraMap K L c)

theorem frobeniusMap_apply (p : K[X]) (x : L) : frobeniusMap K L p x = (linearized K L p).eval x := by
  rw [frobeniusMap, aeval_def, eval₂_eq_sum, linearized, Polynomial.sum, Polynomial.sum, eval_finsetSum,
    LinearMap.sum_apply]
  refine Finset.sum_congr rfl fun i _ => ?_
  rw [eval_monomial, Module.End.mul_apply, Module.algebraMap_end_apply, Module.End.coe_pow,
    AlgHom.coe_toLinearMap, coe_frobeniusAlgHom, pow_iterate, Algebra.smul_def]

theorem coeff_linearized (p : K[X]) (i : ℕ) :
    (linearized K L p).coeff (Fintype.card K ^ i) = algebraMap K L (p.coeff i) := by
  have hinj : ∀ j, Fintype.card K ^ j = Fintype.card K ^ i ↔ j = i := fun j =>
    Nat.pow_right_inj Fintype.one_lt_card
  rw [linearized, Polynomial.sum, finsetSum_coeff]
  simp only [coeff_monomial, hinj]
  rw [Finset.sum_ite_eq' p.support i]
  split
  · rfl
  · rename_i hnot
    rw [notMem_support_iff.1 hnot, map_zero]

theorem linearized_ne_zero {p : K[X]} (hp : p ≠ 0) : linearized K L p ≠ 0 := by
  intro hzero
  have hcoeff := coeff_linearized K L p p.natDegree
  rw [hzero, coeff_zero] at hcoeff
  exact hp (leadingCoeff_eq_zero.1 ((map_eq_zero _).1 hcoeff.symm))

theorem natDegree_linearized_le (p : K[X]) :
    (linearized K L p).natDegree ≤ Fintype.card K ^ p.natDegree := by
  refine natDegree_sum_le_of_forall_le _ _ fun i hi => (natDegree_monomial_le _).trans ?_
  exact Nat.pow_le_pow_right Fintype.card_pos (le_natDegree_of_mem_supp i hi)

variable [Finite L]

theorem card_ker (p : K[X]) : Nat.card {x : L // (linearized K L p).eval x = 0} =
    Fintype.card K ^ finrank K (LinearMap.ker (frobeniusMap K L p)) := by
  have hset : ∀ x, (linearized K L p).eval x = 0 ↔ x ∈ LinearMap.ker (frobeniusMap K L p) := fun x => by
    rw [LinearMap.mem_ker, frobeniusMap_apply]
  rw [Nat.card_congr (Equiv.subtypeEquivRight hset), ← Nat.card_eq_fintype_card]
  exact Module.natCard_eq_pow_finrank

theorem finrank_ker_le {p : K[X]} (hp : p ≠ 0) :
    finrank K (LinearMap.ker (frobeniusMap K L p)) ≤ p.natDegree := by
  classical
  have := Fintype.ofFinite L
  refine (Nat.pow_le_pow_iff_right (Fintype.one_lt_card : 1 < Fintype.card K)).1 ?_
  rw [← card_ker]
  refine le_trans ?_ (natDegree_linearized_le K L p)
  have hroot : ∀ x, (linearized K L p).eval x = 0 ↔ x ∈ (linearized K L p).roots.toFinset := by
    intro x
    rw [Multiset.mem_toFinset, mem_roots (linearized_ne_zero K L hp), IsRoot.def]
  rw [Nat.card_congr (Equiv.subtypeEquivRight hroot), Nat.card_eq_fintype_card, Fintype.card_coe]
  exact (Multiset.toFinset_card_le _).trans (card_roots' _)

theorem frobeniusMap_pow_sub_one (x : L) : frobeniusMap K L (X ^ finrank K L - 1) x = 0 := by
  rw [← minpoly_frobeniusAlgHom, frobeniusMap, minpoly.aeval]
  rfl

/-- A divisor of the polynomial that is zero on the field has a kernel of its degree. -/
theorem finrank_ker_of_dvd {p : K[X]} (h : p ∣ X ^ finrank K L - 1) :
    finrank K (LinearMap.ker (frobeniusMap K L p)) = p.natDegree := by
  obtain ⟨q, hq⟩ := h
  have hpos : 0 < finrank K L := finrank_pos
  have hne : p * q ≠ 0 := hq ▸ X_pow_sub_C_ne_zero hpos 1
  have hp : p ≠ 0 := left_ne_zero_of_mul hne
  have hq0 : q ≠ 0 := right_ne_zero_of_mul hne
  have hdegree : p.natDegree + q.natDegree = finrank K L := by
    rw [← natDegree_mul hp hq0, ← hq, ← C_1, natDegree_X_pow_sub_C]
  -- What the other factor maps to is in the kernel.
  have hrange : LinearMap.range (frobeniusMap K L q) ≤ LinearMap.ker (frobeniusMap K L p) := by
    rintro _ ⟨x, rfl⟩
    rw [LinearMap.mem_ker, ← frobeniusMap_mul, ← hq, frobeniusMap_pow_sub_one]
  have hrank := LinearMap.finrank_range_add_finrank_ker (frobeniusMap K L q)
  have hle := Submodule.finrank_mono hrange
  have hker := finrank_ker_le K L hp
  have hker' := finrank_ker_le K L hq0
  omega

/-- How many roots a polynomial has whose exponents are powers of the size of a subfield. -/
theorem card_linearized_roots (p : K[X]) : Nat.card {x : L // (linearized K L p).eval x = 0} =
    Fintype.card K ^ gcdDegree p (X ^ finrank K L - 1) := by
  obtain ⟨g, hg, ⟨w, hw⟩, hdvd, u, v, hbezout⟩ := exists_gcd p (X ^ finrank K L - 1)
  have hker : LinearMap.ker (frobeniusMap K L p) = LinearMap.ker (frobeniusMap K L g) := by
    ext x
    rw [LinearMap.mem_ker, LinearMap.mem_ker]
    constructor
    · intro hx
      rw [hbezout, mul_comm p, mul_comm (_ - 1), frobeniusMap_add, frobeniusMap_mul, frobeniusMap_mul, hx,
        frobeniusMap_pow_sub_one, map_zero, map_zero, add_zero]
    · intro hx
      rw [hw, mul_comm, frobeniusMap_mul, hx, map_zero]
  rw [card_ker, hker, finrank_ker_of_dvd K L hdvd, hg]

end Frobenius

end FiniteRoots
