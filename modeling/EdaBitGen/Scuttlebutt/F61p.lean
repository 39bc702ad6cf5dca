import EdaBitGen.Fields
import EdaBitGen.Scuttlebutt.Polynomial

/-!
# The convolution of `F61p`

`F61p` adds up the products of a coefficient in a 128-bit integer and reduces the sum once.
-/

namespace EdaBitGen

open Coefficients Polynomial

namespace F61p

/-- The residue of a 128-bit integer. -/
def fullReduce (k : ℕ) : ℕ :=
  let i := k % 2 ^ 61 + k / 2 ^ 61
  let j := i % 2 ^ 61 + i / 2 ^ 61
  if j < 2 ^ 61 - 1 then j else j - (2 ^ 61 - 1)

/-- The product of two entries, before any reduction. -/
def rlmul (x y : F61p) : ℕ := x.val * y.val

/-- Add terms up in a 128-bit integer, which wraps around. -/
def accumulate (t : ℕ) (terms : List ℕ) : ℕ :=
  terms.foldl (fun t x => (t + x) % 2 ^ 128) t

/-- The convolution, where `ys` is no longer than `xs`. -/
def convolveLonger : Convolve F61p := fun x0 xs y0 ys =>
  let xDeg := xs.length
  let yDeg := ys.length
  let zDeg := xDeg + yDeg
  let products (lo hi k : ℕ) :=
    (List.range' lo (hi - lo)).map fun i => rlmul (xs.getD i 0) (ys.getD (k - i - 1) 0)
  (x0 * y0,
    if yDeg = 0 then xs.map (· * y0)
    else
      ((List.range' 0 yDeg).map fun k => ((fullReduce (accumulate
        (rlmul x0 (ys.getD k 0) + rlmul (xs.getD k 0) y0) (products 0 k k)) : ℕ) : F61p)) ++
      ((List.range' yDeg (xDeg - yDeg)).map fun k => ((fullReduce (accumulate
        (rlmul (xs.getD k 0) y0) (products (k - yDeg) k k)) : ℕ) : F61p)) ++
      ((List.range' xDeg (zDeg - 1 - xDeg)).map fun k => ((fullReduce (accumulate
        0 (products (k - yDeg) xDeg k)) : ℕ) : F61p)) ++
      [xs.getD (xDeg - 1) 0 * ys.getD (yDeg - 1) 0])

def convolve : Convolve F61p := fun x0 xs y0 ys =>
  if ys.length > xs.length then convolveLonger y0 ys x0 xs else convolveLonger x0 xs y0 ys

/-- The `n`-th coefficient of the product of two polynomials, over the integers. -/
def productTerm (xs ys : List F61p) (n : ℕ) : ℕ :=
  ∑ i ∈ Finset.range (n + 1), (xs.getD i 0).val * (ys.getD (n - i) 0).val

/-- No coefficient of the product of the two polynomials leaves 128 bits before it is reduced. -/
def Fits (xs ys : List F61p) : Prop := ∀ n, productTerm xs ys n < 2 ^ 128

/-! ## The reduction -/

theorem natCast_two_pow : ((2 ^ 61 : ℕ) : F61p) = 1 := by
  have h : 2 ^ 61 ≡ 1 [MOD 2 ^ 61 - 1] := by decide
  exact ((ZMod.natCast_eq_natCast_iff _ _ _).2 h).trans Nat.cast_one

theorem cast_split (k : ℕ) : ((k % 2 ^ 61 + k / 2 ^ 61 : ℕ) : F61p) = k := by
  have h : (k : F61p) = ((2 ^ 61 * (k / 2 ^ 61) + k % 2 ^ 61 : ℕ) : F61p) := by
    rw [Nat.div_add_mod]
  rw [h, Nat.cast_add, Nat.cast_add, Nat.cast_mul, natCast_two_pow, one_mul, add_comm]

theorem cast_fullReduce (k : ℕ) : (fullReduce k : F61p) = k := by
  simp only [fullReduce]
  split_ifs with h
  · rw [cast_split, cast_split]
  · rw [Nat.cast_sub (Nat.le_of_not_lt h), cast_split, cast_split, ZMod.natCast_self, sub_zero]

theorem accumulate_eq {t : ℕ} {terms : List ℕ} (h : t + terms.sum < 2 ^ 128) :
    accumulate t terms = t + terms.sum := by
  induction terms generalizing t with
  | nil => rfl
  | cons x terms ih =>
    rw [List.sum_cons] at h
    have hx : (t + x) % 2 ^ 128 = t + x := Nat.mod_eq_of_lt (by omega)
    have hrec := ih (t := t + x) (by omega)
    unfold accumulate at hrec ⊢
    rw [List.foldl_cons, hx, hrec, List.sum_cons]
    omega

theorem cast_reduce {t : ℕ} {terms : List ℕ} (h : t + terms.sum < 2 ^ 128) :
    ((fullReduce (accumulate t terms) : ℕ) : F61p) = ((t + terms.sum : ℕ) : F61p) := by
  rw [accumulate_eq h, cast_fullReduce]

/-! ## The coefficients of the product -/

theorem cast_productTerm (xs ys : List F61p) (n : ℕ) :
    (productTerm xs ys n : F61p) = (ofCoeffs xs * ofCoeffs ys).coeff n := by
  rw [coeff_mul, Finset.Nat.sum_antidiagonal_eq_sum_range_succ_mk, productTerm, Nat.cast_sum]
  refine Finset.sum_congr rfl fun i _ => ?_
  rw [coeff_ofCoeffs, coeff_ofCoeffs, Nat.cast_mul, ZMod.natCast_zmod_val, ZMod.natCast_zmod_val]

theorem productTerm_comm (xs ys : List F61p) (n : ℕ) :
    productTerm xs ys n = productTerm ys xs n := by
  unfold productTerm
  rw [← Finset.sum_range_reflect]
  refine Finset.sum_congr rfl fun i hi => ?_
  have hle : i ≤ n := Nat.lt_succ_iff.1 (Finset.mem_range.1 hi)
  have hsub : n + 1 - 1 - i = n - i := by omega
  have hback : n - (n - i) = i := by omega
  rw [hsub, hback, mul_comm]

theorem productTerm_succ (x0 : F61p) (xs : List F61p) (y0 : F61p) (ys : List F61p) (k : ℕ) :
    productTerm (x0 :: xs) (y0 :: ys) (k + 1) = rlmul x0 (ys.getD k 0) + rlmul (xs.getD k 0) y0 +
      ∑ i ∈ Finset.range k, rlmul (xs.getD i 0) (ys.getD (k - i - 1) 0) := by
  unfold productTerm
  rw [Finset.sum_range_succ', Finset.sum_range_succ]
  have hmid : ∀ i ∈ Finset.range k, ((x0 :: xs).getD (i + 1) 0).val *
      ((y0 :: ys).getD (k + 1 - (i + 1)) 0).val =
        rlmul (xs.getD i 0) (ys.getD (k - i - 1) 0) := by
    intro i hi
    have hlt := Finset.mem_range.1 hi
    have hsub : k + 1 - (i + 1) = (k - i - 1) + 1 := by omega
    rw [hsub, List.getD_cons_succ, List.getD_cons_succ, rlmul]
  rw [Finset.sum_congr rfl hmid]
  simp only [List.getD_cons_zero, List.getD_cons_succ, Nat.sub_self, Nat.sub_zero, rlmul]
  omega

theorem getD_eq_zero {l : List F61p} {i : ℕ} (h : l.length ≤ i) : l.getD i 0 = 0 := by
  rw [List.getD_eq_getElem?_getD, List.getElem?_eq_none h, Option.getD_none]

theorem rlmul_zero_left (y : F61p) : rlmul 0 y = 0 := by
  rw [rlmul, ZMod.val_zero, zero_mul]

theorem rlmul_zero_right (x : F61p) : rlmul x 0 = 0 := by
  rw [rlmul, ZMod.val_zero, mul_zero]

theorem sum_range'_map {f : ℕ → ℕ} {a b k : ℕ} (hk : b ≤ k)
    (h : ∀ i < k, i < a ∨ b ≤ i → f i = 0) :
    ((List.range' a (b - a)).map f).sum = ∑ i ∈ Finset.range k, f i := by
  have hico : ((List.range' a (b - a)).map f).sum = ∑ i ∈ Finset.Ico a b, f i := rfl
  rw [hico]
  refine Finset.sum_subset ?_ ?_
  · intro i hi
    have := Finset.mem_Ico.1 hi
    exact Finset.mem_range.2 (by omega)
  · intro i hi hout
    have hlt := Finset.mem_range.1 hi
    refine h i hlt ?_
    by_contra hboth
    exact hout (Finset.mem_Ico.2 (by omega))

theorem range_split {a b z : ℕ} (hab : a ≤ b) (hbz : b ≤ z) :
    List.range (z + 1) =
      List.range' 0 a ++ List.range' a (b - a) ++ List.range' b (z - b) ++ [z] := by
  have h1 : List.range' 0 a ++ List.range' a (b - a) = List.range' 0 b := by
    have h := List.range'_append_1 (s := 0) (m := a) (n := b - a)
    rwa [Nat.zero_add, Nat.add_sub_cancel' hab] at h
  have h2 : List.range' 0 b ++ List.range' b (z - b) = List.range' 0 z := by
    have h := List.range'_append_1 (s := 0) (m := b) (n := z - b)
    rwa [Nat.zero_add, Nat.add_sub_cancel' hbz] at h
  rw [h1, h2, List.range_succ, List.range_eq_range']

section Ranges

variable {x0 : F61p} {xs : List F61p} {y0 : F61p} {ys : List F61p} {k : ℕ}

theorem productTerm_low : productTerm (x0 :: xs) (y0 :: ys) (k + 1) =
    rlmul x0 (ys.getD k 0) + rlmul (xs.getD k 0) y0 +
      ((List.range' 0 (k - 0)).map fun i => rlmul (xs.getD i 0) (ys.getD (k - i - 1) 0)).sum := by
  rw [productTerm_succ, sum_range'_map (le_refl k) (fun i hi hout => by omega)]

theorem productTerm_mid (hy : ys.length ≤ k) : productTerm (x0 :: xs) (y0 :: ys) (k + 1) =
    rlmul (xs.getD k 0) y0 + ((List.range' (k - ys.length) (k - (k - ys.length))).map fun i =>
      rlmul (xs.getD i 0) (ys.getD (k - i - 1) 0)).sum := by
  rw [productTerm_succ, getD_eq_zero hy, rlmul_zero_right, Nat.zero_add]
  refine congrArg _ (sum_range'_map (le_refl k) fun i hi hout => ?_).symm
  rw [getD_eq_zero (l := ys) (by omega), rlmul_zero_right]

theorem productTerm_high (hx : xs.length ≤ k) (hy : ys.length ≤ k) :
    productTerm (x0 :: xs) (y0 :: ys) (k + 1) =
      ((List.range' (k - ys.length) (xs.length - (k - ys.length))).map fun i =>
        rlmul (xs.getD i 0) (ys.getD (k - i - 1) 0)).sum := by
  rw [productTerm_succ, getD_eq_zero hy, rlmul_zero_right, getD_eq_zero hx, rlmul_zero_left,
    Nat.zero_add]
  refine (sum_range'_map hx fun i hi hout => ?_).symm
  rcases hout with hout | hout
  · rw [getD_eq_zero (l := ys) (by omega), rlmul_zero_right]
  · rw [getD_eq_zero (l := xs) hout, rlmul_zero_left]

theorem productTerm_last (hlen : ys.length ≤ xs.length) (hy : ys.length ≠ 0) :
    productTerm (x0 :: xs) (y0 :: ys) (xs.length + ys.length - 1 + 1) =
      rlmul (xs.getD (xs.length - 1) 0) (ys.getD (ys.length - 1) 0) := by
  have hstart : xs.length + ys.length - 1 - ys.length = xs.length - 1 := by omega
  have hone : xs.length - (xs.length - 1) = 1 := by omega
  have hlast : xs.length + ys.length - 1 - (xs.length - 1) - 1 = ys.length - 1 := by omega
  rw [productTerm_high (by omega) (by omega), hstart, hone, List.range'_one, List.map_singleton,
    List.sum_singleton, hlast]

theorem productTerm_beyond (hk : xs.length + ys.length ≤ k) :
    productTerm (x0 :: xs) (y0 :: ys) (k + 1) = 0 := by
  rw [productTerm_high (by omega) (by omega)]
  refine List.sum_eq_zero fun t ht => ?_
  obtain ⟨i, hi, rfl⟩ := List.mem_map.1 ht
  have hbounds := List.mem_range'_1.1 hi
  omega

end Ranges

/-- The three ranges of the loop see to the coefficients from the first on to the last but one. -/
theorem convolveLonger_snd {x0 : F61p} {xs : List F61p} {y0 : F61p} {ys : List F61p}
    (hlen : ys.length ≤ xs.length) (hy : ys.length ≠ 0) (h : Fits (x0 :: xs) (y0 :: ys)) :
    (convolveLonger x0 xs y0 ys).2 = (List.range (xs.length + ys.length)).map fun k =>
      (productTerm (x0 :: xs) (y0 :: ys) (k + 1) : F61p) := by
  have hz : xs.length + ys.length = (xs.length + ys.length - 1) + 1 := by omega
  rw [hz, range_split hlen (by omega)]
  simp only [convolveLonger, if_neg hy, List.map_append, List.map_singleton]
  congr 1
  · congr 1
    · congr 1
      · refine List.map_congr_left fun k _ => ?_
        have hfit := h (k + 1)
        rw [productTerm_low] at hfit ⊢
        exact cast_reduce hfit
      · refine List.map_congr_left fun k hk => ?_
        have hky := List.mem_range'_1.1 hk
        have hfit := h (k + 1)
        rw [productTerm_mid hky.1] at hfit ⊢
        exact cast_reduce hfit
    · refine List.map_congr_left fun k hk => ?_
      have hkx := List.mem_range'_1.1 hk
      have hfit := h (k + 1)
      rw [productTerm_high hkx.1 (hlen.trans hkx.1), ← Nat.zero_add (List.sum _)] at hfit ⊢
      exact cast_reduce hfit
  · rw [productTerm_last hlen hy, rlmul, Nat.cast_mul, ZMod.natCast_zmod_val, ZMod.natCast_zmod_val]

theorem multiplies_convolveLonger {x0 : F61p} {xs : List F61p} {y0 : F61p} {ys : List F61p}
    (hlen : ys.length ≤ xs.length) (h : Fits (x0 :: xs) (y0 :: ys)) :
    Convolve.Multiplies convolveLonger x0 xs y0 ys := by
  by_cases hy : ys.length = 0
  · have hnil : ys = [] := List.length_eq_zero_iff.1 hy
    have hmul : (fun a : F61p => a * y0) = fun a => y0 * a := funext fun a => mul_comm a y0
    subst hnil
    refine ⟨by simp [convolveLonger], ?_⟩
    simp only [convolveLonger, List.length_nil, if_true, hmul, ofCoeffs_cons, ofCoeffs_map_mul,
      ofCoeffs_nil, C_mul]
    ring
  · have hsnd := convolveLonger_snd hlen hy h
    refine ⟨by rw [hsnd, List.length_map, List.length_range], ?_⟩
    ext n
    rw [hsnd, ← cast_productTerm, coeff_ofCoeffs]
    cases n with
    | zero => simp [convolveLonger, productTerm]
    | succ k =>
      rw [List.getD_cons_succ]
      by_cases hk : k < xs.length + ys.length
      · simp [hk]
      · rw [productTerm_beyond (Nat.le_of_not_lt hk),
          getD_eq_zero (by simpa using Nat.le_of_not_lt hk), Nat.cast_zero]

theorem multiplies_convolve {x0 : F61p} {xs : List F61p} {y0 : F61p} {ys : List F61p}
    (h : Fits (x0 :: xs) (y0 :: ys)) : Convolve.Multiplies convolve x0 xs y0 ys := by
  by_cases hlen : ys.length > xs.length
  · have hfit : Fits (y0 :: ys) (x0 :: xs) := fun n => by
      rw [productTerm_comm]
      exact h n
    have hmul := multiplies_convolveLonger (Nat.le_of_lt hlen) hfit
    have heq : convolve x0 xs y0 ys = convolveLonger y0 ys x0 xs := if_pos hlen
    exact ⟨by rw [heq, hmul.length_eq, Nat.add_comm], by rw [heq, hmul.ofCoeffs_eq, mul_comm]⟩
  · have hmul := multiplies_convolveLonger (Nat.le_of_not_lt hlen) h
    have heq : convolve x0 xs y0 ys = convolveLonger x0 xs y0 ys := if_neg hlen
    exact ⟨by rw [heq, hmul.length_eq], by rw [heq, hmul.ofCoeffs_eq]⟩

theorem fits_of_length_le {xs ys : List F61p} (h : xs.length ≤ 64) : Fits xs ys := by
  intro n
  have hterm : ∀ i ∈ (Finset.range (n + 1)).filter (· < xs.length),
      (xs.getD i 0).val * (ys.getD (n - i) 0).val ≤ (2 ^ 61 - 2) * (2 ^ 61 - 2) := by
    intro i _
    have hx := ZMod.val_lt (xs.getD i 0)
    have hy := ZMod.val_lt (ys.getD (n - i) 0)
    exact Nat.mul_le_mul (by omega) (by omega)
  have hsum : productTerm xs ys n = ∑ i ∈ (Finset.range (n + 1)).filter (· < xs.length),
      (xs.getD i 0).val * (ys.getD (n - i) 0).val := by
    refine (Finset.sum_filter_of_ne fun i _ hne => ?_).symm
    by_contra hle
    rw [getD_eq_zero (Nat.le_of_not_lt hle), ZMod.val_zero, Nat.zero_mul] at hne
    exact hne rfl
  have hcard : ((Finset.range (n + 1)).filter (· < xs.length)).card ≤ 64 := by
    refine (Finset.card_le_card (t := Finset.range xs.length) fun i hi => ?_).trans
      ((Finset.card_range _).le.trans h)
    exact Finset.mem_range.2 (Finset.mem_filter.1 hi).2
  have hbound := Finset.sum_le_card_nsmul _ _ _ hterm
  rw [hsum]
  refine lt_of_le_of_lt hbound ?_
  rw [smul_eq_mul]
  calc _ ≤ 64 * ((2 ^ 61 - 2) * (2 ^ 61 - 2)) := Nat.mul_le_mul_right _ hcard
    _ < 2 ^ 128 := by norm_num

end F61p

theorem linear_f61p : F61p.convolve.Linear := by
  intro x0 xs y0 ys hlen
  refine F61p.multiplies_convolve fun n => ?_
  rw [F61p.productTerm_comm]
  refine F61p.fits_of_length_le ?_ n
  rw [List.length_cons]
  omega

end EdaBitGen
