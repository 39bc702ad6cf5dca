import EdaBitGen.Algebra.Coefficients

/-!
# Polynomials over finite fields

A polynomial is its constant and the vector of the other coefficients, whose last entries may be
zero.  A field multiplies the coefficients of two polynomials with its own `convolve`, which most
fields inherit.
-/

namespace EdaBitGen

open Coefficients Polynomial

/-- A polynomial: `coefficients[i]` is the coefficient of `x^(i + 1)`. -/
structure GeneralPolynomial (F : Type) where
  constant : F
  coefficients : List F
deriving DecidableEq

/-- The constant and the other coefficients of the product of two polynomials, from theirs. -/
abbrev Convolve (F : Type) := F → List F → F → List F → F × List F

/-- Resize a vector to `n` entries, with zeros. -/
def resize {F : Type} [Zero F] (l : List F) (n : ℕ) : List F :=
  l.take n ++ List.replicate (n - l.length) 0

namespace Convolve

variable {F : Type} [Field F]

/-- Add `xs[i] * ys[j]` to the entry `o + i + j + 1`, for all `i` and `j`. -/
def addRows (zs : List F) (o : ℕ) (ys : List F) : List F → List F
  | [] => zs
  | x :: xs => addRows (addFrom zs (o + 1) (ys.map (x * ·))) (o + 1) ys xs

/-- The convolution of a field that does not define its own. -/
def default : Convolve F := fun x0 xs y0 ys =>
  let zs := ys.map (x0 * ·) ++ List.replicate xs.length 0
  let zs := addFrom zs 0 (xs.map (y0 * ·))
  (x0 * y0, addRows zs 0 ys xs)

/-- The convolution `cv` multiplies these two polynomials. -/
structure Multiplies (cv : Convolve F) (x0 : F) (xs : List F) (y0 : F) (ys : List F) : Prop where
  length_eq : (cv x0 xs y0 ys).2.length = xs.length + ys.length
  ofCoeffs_eq : ofCoeffs ((cv x0 xs y0 ys).1 :: (cv x0 xs y0 ys).2) =
    ofCoeffs (x0 :: xs) * ofCoeffs (y0 :: ys)

@[simp] theorem length_addRows (zs : List F) (o : ℕ) (ys xs : List F) :
    (addRows zs o ys xs).length = zs.length := by
  induction xs generalizing zs o with
  | nil => rfl
  | cons x xs ih => rw [addRows, ih, length_addFrom]

theorem ofCoeffs_addRows (zs : List F) {o : ℕ} {ys xs : List F}
    (h : o + xs.length + ys.length ≤ zs.length) :
    ofCoeffs (addRows zs o ys xs) = ofCoeffs zs + X ^ (o + 1) * (ofCoeffs xs * ofCoeffs ys) := by
  induction xs generalizing zs o with
  | nil => simp [addRows]
  | cons x xs ih =>
    rw [List.length_cons] at h
    have hrow : o + 1 + (ys.map (x * ·)).length ≤ zs.length := by
      rw [List.length_map]
      omega
    have hrest : o + 1 + xs.length + ys.length ≤
        (addFrom zs (o + 1) (ys.map (x * ·))).length := by
      rw [length_addFrom]
      omega
    rw [addRows, ih _ hrest, ofCoeffs_addFrom zs hrow, ofCoeffs_map_mul, ofCoeffs_cons]
    ring

theorem multiplies_default (x0 : F) (xs : List F) (y0 : F) (ys : List F) :
    Multiplies default x0 xs y0 ys := by
  refine ⟨?_, ?_⟩
  · simp [default, Nat.add_comm]
  · have hrows : 0 + xs.length + ys.length ≤
        (addFrom (ys.map (x0 * ·) ++ List.replicate xs.length 0) 0 (xs.map (y0 * ·))).length := by
      simp [Nat.add_comm]
    have hcol : 0 + (xs.map (y0 * ·)).length ≤
        (ys.map (x0 * ·) ++ List.replicate xs.length 0).length := by simp
    simp only [default, ofCoeffs_cons]
    rw [ofCoeffs_addRows _ hrows, ofCoeffs_addFrom _ hcol, ofCoeffs_append, ofCoeffs_map_mul,
      ofCoeffs_map_mul, ofCoeffs_replicate_zero, C_mul]
    ring

/-- The convolution multiplies by polynomials of degree at most one. -/
def Linear (cv : Convolve F) : Prop :=
  ∀ x0 xs y0 ys, ys.length ≤ 1 → cv.Multiplies x0 xs y0 ys

end Convolve

theorem linear_default {F : Type} [Field F] : (Convolve.default : Convolve F).Linear :=
  fun x0 xs y0 ys _ => Convolve.multiplies_default x0 xs y0 ys

/-! ## Operations -/

namespace GeneralPolynomial

variable {F : Type} [Field F]

def zero : GeneralPolynomial F := ⟨0, []⟩

/-- The coefficients, from the constant one on. -/
def ofSlice : List F → GeneralPolynomial F
  | [] => zero
  | c :: cs => ⟨c, cs⟩

/-- Multiply by `x^n`. -/
def shiftMut (n : ℕ) (p : GeneralPolynomial F) : GeneralPolynomial F :=
  if n = 0 then p
  else
    let coefficients := List.replicate n 0 ++ p.coefficients
    ⟨coefficients.getD (n - 1) 0, coefficients.set (n - 1) p.constant⟩

def degree [DecidableEq F] (p : GeneralPolynomial F) : ℕ :=
  p.coefficients.length - (p.coefficients.reverse.takeWhile (· = 0)).length

/-- Evaluate with Horner's rule. -/
def eval (p : GeneralPolynomial F) (x : F) : F :=
  match p.coefficients.reverse with
  | [] => p.constant
  | head :: reversed => reversed.foldl (fun acc c => acc * x + c) head * x + p.constant

/-- The coefficient of `x^i`, where there is one. -/
def coeff (p : GeneralPolynomial F) (i : ℕ) : F := (p.constant :: p.coefficients).getD i 0

/-- Add `l` to the coefficients from that of `x^o` on. -/
def addAt (p : GeneralPolynomial F) (o : ℕ) (l : List F) : GeneralPolynomial F :=
  match addFrom (p.constant :: p.coefficients) o l with
  | [] => p
  | c :: cs => ⟨c, cs⟩

def addAssign (p q : GeneralPolynomial F) : GeneralPolynomial F :=
  let coefficients := resize p.coefficients (max p.coefficients.length q.coefficients.length)
  addAt ⟨p.constant, coefficients⟩ 0 (q.constant :: q.coefficients)

def mulConstant (p : GeneralPolynomial F) (c : F) : GeneralPolynomial F :=
  ⟨p.constant * c, p.coefficients.map (· * c)⟩

def mulAssign [DecidableEq F] (cv : Convolve F) (p q : GeneralPolynomial F) : GeneralPolynomial F :=
  let z := cv p.constant (p.coefficients.take p.degree) q.constant (q.coefficients.take q.degree)
  ⟨z.1, z.2⟩

/-! ## The polynomial of the coefficients -/

noncomputable def toPoly (p : GeneralPolynomial F) : F[X] := ofCoeffs (p.constant :: p.coefficients)

@[simp] theorem toPoly_zero : (zero : GeneralPolynomial F).toPoly = 0 := by simp [toPoly, zero]

@[simp] theorem toPoly_ofSlice (v : List F) : (ofSlice v).toPoly = ofCoeffs v := by
  cases v with
  | nil => exact toPoly_zero
  | cons c cs => rfl

theorem coeff_toPoly (p : GeneralPolynomial F) (i : ℕ) : p.toPoly.coeff i = p.coeff i :=
  coeff_ofCoeffs _ i

theorem eval_eq (p : GeneralPolynomial F) (x : F) : p.eval x = p.toPoly.eval x := by
  have hpoly : p.toPoly.eval x =
      p.coefficients.reverse.foldl (fun acc c => acc * x + c) 0 * x + p.constant := by
    rw [toPoly, eval_ofCoeffs, List.foldr_cons, List.foldl_reverse]
  rw [hpoly, eval]
  cases p.coefficients.reverse with
  | nil => simp
  | cons head reversed => simp

theorem length_resize (l : List F) (n : ℕ) : (resize l n).length = n := by
  rw [resize, List.length_append, List.length_take, List.length_replicate]
  omega

theorem toPoly_shiftMut (n : ℕ) (p : GeneralPolynomial F) :
    (p.shiftMut n).toPoly = X ^ n * p.toPoly := by
  cases n with
  | zero => simp [shiftMut]
  | succ n =>
    have hsplit : List.replicate (n + 1) (0 : F) ++ p.coefficients =
        List.replicate n 0 ++ 0 :: p.coefficients := by
      rw [List.replicate_succ', List.append_assoc, List.singleton_append]
    have hlen : (List.replicate n (0 : F)).length = n := List.length_replicate
    simp only [shiftMut, Nat.add_one_ne_zero, if_false, Nat.add_sub_cancel, hsplit, toPoly]
    have hget : (List.replicate n (0 : F) ++ 0 :: p.coefficients).getD n 0 = 0 := by
      simp
    have hset : (List.replicate n (0 : F) ++ 0 :: p.coefficients).set n p.constant =
        List.replicate n 0 ++ p.constant :: p.coefficients := by
      rw [List.set_append_right _ _ hlen.le, hlen, Nat.sub_self, List.set_cons_zero]
    rw [hget, hset, ofCoeffs_cons, ofCoeffs_append, ofCoeffs_replicate_zero, hlen]
    simp only [ofCoeffs_cons, C_0]
    ring

theorem length_addAt (p : GeneralPolynomial F) (o : ℕ) (l : List F) :
    (p.addAt o l).coefficients.length = p.coefficients.length := by
  have hlength := length_addFrom (p.constant :: p.coefficients) o l
  unfold addAt
  cases hadd : addFrom (p.constant :: p.coefficients) o l with
  | nil => rfl
  | cons c cs =>
    rw [hadd] at hlength
    exact Nat.succ.inj hlength

theorem addAt_eq (p : GeneralPolynomial F) {o : ℕ} {l : List F}
    (h : o + l.length ≤ p.coefficients.length + 1) :
    (p.addAt o l).toPoly = p.toPoly + X ^ o * ofCoeffs l ∧
      (p.addAt o l).coefficients.length = p.coefficients.length := by
  have hpoly := ofCoeffs_addFrom (p.constant :: p.coefficients) (o := o) (l := l) (by simpa using h)
  have hlen := length_addFrom (p.constant :: p.coefficients) o l
  refine ⟨?_, p.length_addAt o l⟩
  unfold addAt
  cases hadd : addFrom (p.constant :: p.coefficients) o l with
  | nil => simp [hadd] at hlen
  | cons c cs =>
    rw [hadd] at hpoly
    exact hpoly

theorem toPoly_mulConstant (p : GeneralPolynomial F) (c : F) :
    (p.mulConstant c).toPoly = C c * p.toPoly := by
  have hmul : (fun a : F => a * c) = fun a => c * a := funext fun a => mul_comm a c
  simp only [mulConstant, toPoly, ofCoeffs_cons, hmul, ofCoeffs_map_mul, C_mul]
  ring

/-! ## The degree -/

section Degree

variable [DecidableEq F]

theorem degree_le (p : GeneralPolynomial F) : p.degree ≤ p.coefficients.length :=
  Nat.sub_le _ _

theorem exists_trailing_zeros (l : List F) :
    ∃ (k : List F) (m : ℕ), l = k ++ List.replicate m 0 ∧
      l.length - (l.reverse.takeWhile (· = 0)).length = k.length ∧
      (0 < k.length → k.getD (k.length - 1) 0 ≠ 0) := by
  induction l using List.reverseRecOn with
  | nil => exact ⟨[], 0, by simp⟩
  | append_singleton l a ih =>
    by_cases ha : a = 0
    · obtain ⟨k, m, hl, hk, hlast⟩ := ih
      refine ⟨k, m + 1, ?_, ?_, hlast⟩
      · rw [hl, ha, List.append_assoc, ← List.replicate_succ']
      · rw [List.reverse_append, List.reverse_singleton, List.singleton_append,
          List.takeWhile_cons_of_pos (by simpa using ha), List.length_append, List.length_cons,
          List.length_cons, List.length_nil, ← hk]
        omega
    · refine ⟨l ++ [a], 0, by simp, ?_, fun _ => ?_⟩
      · rw [List.reverse_append, List.reverse_singleton, List.singleton_append,
          List.takeWhile_cons_of_neg (by simpa using ha), List.length_nil, Nat.sub_zero]
      · simpa using ha

theorem ofCoeffs_take_degree (p : GeneralPolynomial F) :
    ofCoeffs (p.coefficients.take p.degree) = ofCoeffs p.coefficients := by
  obtain ⟨k, m, hl, hk, -⟩ := exists_trailing_zeros p.coefficients
  have htake : p.coefficients.take p.degree = k := by
    rw [degree, hk, hl, List.take_left]
  rw [htake, hl, ofCoeffs_append, ofCoeffs_replicate_zero, mul_zero, add_zero]

theorem degree_eq (p : GeneralPolynomial F) : p.degree = p.toPoly.natDegree := by
  refine le_antisymm ?_ ?_
  · obtain ⟨k, m, hl, hk, hlast⟩ := exists_trailing_zeros p.coefficients
    rw [← degree] at hk
    rcases Nat.eq_zero_or_pos k.length with h0 | hpos
    · omega
    · refine le_natDegree_of_ne_zero ?_
      have hcoeff : p.toPoly.coeff p.degree = k.getD (k.length - 1) 0 := by
        obtain ⟨j, hj⟩ : ∃ j, k.length = j + 1 := ⟨k.length - 1, by omega⟩
        rw [coeff_toPoly, coeff, hk, hj, List.getD_cons_succ, hl, Nat.add_sub_cancel]
        simp [List.getElem?_append_left (show j < k.length by omega)]
      rw [hcoeff]
      exact hlast hpos
  · have hpoly : p.toPoly = ofCoeffs (p.constant :: p.coefficients.take p.degree) := by
      rw [toPoly, ofCoeffs_cons, ofCoeffs_cons, ofCoeffs_take_degree]
    rw [hpoly]
    refine (natDegree_ofCoeffs_cons_le _ _).trans ?_
    rw [List.length_take]
    exact Nat.min_le_left _ _

theorem ofCoeffs_resize {p : GeneralPolynomial F} {n : ℕ} (h : p.degree ≤ n) :
    ofCoeffs (resize p.coefficients n) = ofCoeffs p.coefficients := by
  ext i
  rw [coeff_ofCoeffs, coeff_ofCoeffs]
  by_cases hi : i < n
  · by_cases hl : i < p.coefficients.length
    · simp [resize, List.getElem?_append, hi, hl]
    · have hnone : p.coefficients[i]? = none := List.getElem?_eq_none (Nat.le_of_not_lt hl)
      have hright : (p.coefficients.take n).length ≤ i := by
        rw [List.length_take]
        omega
      rw [List.getD_eq_getElem?_getD, List.getD_eq_getElem?_getD, hnone, resize,
        List.getElem?_append_right hright, List.getElem?_replicate]
      split <;> rfl
  · have hcoeff : p.toPoly.coeff (i + 1) = 0 := by
      refine coeff_eq_zero_of_natDegree_lt ?_
      rw [← degree_eq]
      omega
    rw [coeff_toPoly, coeff, List.getD_cons_succ] at hcoeff
    rw [hcoeff, List.getD_eq_getElem?_getD, List.getElem?_eq_none, Option.getD_none]
    rw [length_resize]
    omega

theorem addAssign_eq (p q : GeneralPolynomial F) :
    (p.addAssign q).toPoly = p.toPoly + q.toPoly ∧
      (p.addAssign q).coefficients.length =
        max p.coefficients.length q.coefficients.length := by
  have hlen := length_resize p.coefficients (max p.coefficients.length q.coefficients.length)
  have hfit : 0 + (q.constant :: q.coefficients).length ≤
      (resize p.coefficients (max p.coefficients.length q.coefficients.length)).length + 1 := by
    rw [hlen, List.length_cons]
    omega
  obtain ⟨hpoly, hadd⟩ := addAt_eq
    ⟨p.constant, resize p.coefficients (max p.coefficients.length q.coefficients.length)⟩ hfit
  refine ⟨?_, hadd.trans hlen⟩
  rw [addAssign, hpoly]
  simp only [toPoly, ofCoeffs_cons]
  rw [ofCoeffs_resize (p.degree_le.trans (Nat.le_max_left _ _))]
  ring

theorem mulAssign_eq {cv : Convolve F} {p q : GeneralPolynomial F}
    (h : cv.Multiplies p.constant (p.coefficients.take p.degree) q.constant
      (q.coefficients.take q.degree)) :
    (mulAssign cv p q).toPoly = p.toPoly * q.toPoly ∧
      (mulAssign cv p q).coefficients.length = p.degree + q.degree := by
  refine ⟨?_, ?_⟩
  · have hmul := h.ofCoeffs_eq
    simp only [ofCoeffs_cons, ofCoeffs_take_degree] at hmul
    simp only [toPoly, mulAssign, ofCoeffs_cons]
    exact hmul
  · have hp := p.degree_le
    have hq := q.degree_le
    rw [mulAssign, h.length_eq, List.length_take, List.length_take]
    omega

end Degree

end GeneralPolynomial

end EdaBitGen
