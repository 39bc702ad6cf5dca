import EdaBitGen.Algebra.Interpolation
import EdaBitGen.Data.Lists

/-!
# Sharings and polynomials of one evaluation

The parties of an evaluation in the head hold additive shares of a secret, with a correction that
belongs to no party.  The prover also knows the secret.  Polynomials are evaluated on sharings by
Lagrange's formula, and on secrets by Newton's.
-/

namespace EdaBitGen.Inferno

/-! ## Sharings -/

/-- The shares of the parties, and the correction. -/
abbrev CorrectionSharing (F : Type) (N : ℕ) := (Fin N → F) × F

/-- A sharing with its secret. -/
abbrev SecretSharing (F : Type) (N : ℕ) := CorrectionSharing F N × F

/-- What a sharing of a prime field's element is in the field. -/
class LinearSharing (F SP S : Type) where
  liftIntoSuperfield : SP → S
  multiplyBySuperfield : SP → F → S

section Sharing

variable {Fp F : Type} [Field Fp] [Field F] [Algebra Fp F] {N : ℕ}

namespace CorrectionSharing

instance : LinearSharing F (CorrectionSharing Fp N) (CorrectionSharing F N) where
  liftIntoSuperfield x := (fun i => algebraMap Fp F (x.1 i), algebraMap Fp F x.2)
  multiplyBySuperfield x y := (fun i => algebraMap Fp F (x.1 i) * y, algebraMap Fp F x.2 * y)

/-- A sharing of `secret`, with what the parties draw as shares. -/
def new (secret : F) (draws : Fin N → F) : CorrectionSharing F N :=
  (draws, secret - ∑ i, draws i)

def newNonRandom (secret : F) : CorrectionSharing F N :=
  (fun i => if (i : ℕ) = 0 then secret else 0, 0)

def reconstruct (s : CorrectionSharing F N) : F :=
  ∑ i, s.1 i + s.2

/-- The shares are the same for all parties but one; the correction is not looked at. -/
def checkEquality [DecidableEq F] (s other : CorrectionSharing F N) (exclude : ℕ) : Bool :=
  decide (∀ i : Fin N, (i : ℕ) ≠ exclude → s.1 i = other.1 i)

end CorrectionSharing

namespace SecretSharing

instance : LinearSharing F (SecretSharing Fp N) (SecretSharing F N) where
  liftIntoSuperfield x := (LinearSharing.liftIntoSuperfield F x.1, algebraMap Fp F x.2)
  multiplyBySuperfield x y := (LinearSharing.multiplyBySuperfield x.1 y, algebraMap Fp F x.2 * y)

def new (secret : F) (draws : Fin N → F) : SecretSharing F N :=
  (CorrectionSharing.new secret draws, secret)

def newNonRandom (secret : F) : SecretSharing F N :=
  (CorrectionSharing.newNonRandom secret, secret)

/-- A sharing of the sum of what the parties draw. -/
def random (draws : Fin N → F) : SecretSharing F N :=
  ((draws, 0), ∑ i, draws i)

/-- The sharing without the share of one party. -/
def extract (s : SecretSharing F N) (exclude : ℕ) : CorrectionSharing F N :=
  (fun i => if (i : ℕ) = exclude then 0 else s.1.1 i, s.1.2)

def dot (xs ys : List (SecretSharing F N)) : F :=
  (List.zipWith (fun x y => x.2 * y.2) xs ys).sum

end SecretSharing

end Sharing

section Lagrange

variable {F S : Type} [Field F] [DecidableEq F] [AddCommMonoid S] [SMul F S]

/-- The product of `e - x` over the points other than `u`. -/
def lagrangeNumerator (points : List F) (u e : F) : F :=
  points.foldl (fun numerator point => if point = u then numerator else numerator * (e - point)) 1

def lagrangeDenominator (points : List F) (u : F) : F :=
  (lagrangeNumerator points u u)⁻¹

/-- The denominators that an evaluator keeps for its points. -/
def LagrangeEvaluator.new (points : List F) : List F :=
  points.map (lagrangeDenominator points)

/-- The basis polynomials at `e`. -/
def basisPolynomial (denominators points : List F) (e : F) : List F :=
  List.zipWith (fun point denominator => lagrangeNumerator points point e * denominator) points
    denominators

omit [Field F] [DecidableEq F] in
/-- The polynomial with the values `coefficients`, from the basis polynomials at a point. -/
def evalWithBasisPolynomial (coefficients : List S) (polynomial : List F) : S :=
  (List.zipWith (fun x y => x • y) polynomial coefficients).sum

end Lagrange

namespace NewtonPolynomial

variable {F : Type} [Field F]

/-- The inverse of the difference of two points: in row `j`, entry `i` of the triangle. -/
def cache (points : List F) (j i : ℕ) : F :=
  (points.getD i 0 - points.getD (i - j) 0)⁻¹

/-- One pass over the values from the last one down to the one at `j`. -/
def pass (points : List F) (j : ℕ) (values : List F) : List F :=
  values.mapIdx fun i value =>
    if j ≤ i then (value - values.getD (i - 1) 0) * cache points j i else value

/-- The coefficients of the polynomial with these values. -/
def interpolate (points values : List F) : List F :=
  (List.range (values.length - 1)).foldl (fun values j => pass points (j + 1) values) values

/-- The basis polynomials at a point. -/
def basisPolynomial (points : List F) (point : F) : List F :=
  ((points.take (points.length - 1)).foldl (fun acc x =>
    (acc.1 ++ [acc.2 * (point - x)], acc.2 * (point - x))) ([1], 1)).1

def evalWithBasisPolynomial (polynomial coefficients : List F) : F :=
  (List.zipWith (· * ·) coefficients polynomial).sum

end NewtonPolynomial

end EdaBitGen.Inferno

/-!
## Both formulas give the values of the polynomial

On distinct points Lagrange's formula and Newton's give the values of the polynomial through the
values at the points.
-/

namespace EdaBitGen.Inferno

open Interpolation Polynomial

variable {F : Type} [Field F] {points : List F} {p : F[X]}

section Lagrange

variable [DecidableEq F]

theorem lagrangeNumerator_eq_prod (h : points.Nodup) (u e : F) :
    lagrangeNumerator points u e = ∏ w ∈ points.toFinset.erase u, (e - w) := by
  have hfold : ∀ start : F, points.foldl (fun numerator point =>
      if point = u then numerator else numerator * (e - point)) start =
      start * ((points.filter (· ≠ u)).map (e - ·)).prod := by
    induction points with
    | nil => exact fun start => (mul_one start).symm
    | cons point points ih =>
      intro start
      rw [List.foldl_cons, ih h.of_cons]
      by_cases hu : point = u
      · rw [if_pos hu, List.filter_cons_of_neg (by simpa using hu)]
      · rw [if_neg hu, List.filter_cons_of_pos (by simpa using hu), List.map_cons, List.prod_cons,
          mul_assoc]
  rw [lagrangeNumerator, hfold, one_mul, ← List.prod_toFinset _ (h.filter _), List.toFinset_filter]
  refine Finset.prod_congr (Finset.ext fun w => ?_) fun _ _ => rfl
  simp [and_comm]

theorem evalWithBasisPolynomial_eval (h : points.Nodup) (hp : p.degree < points.length) (e : F) :
    evalWithBasisPolynomial (points.map p.eval)
      (basisPolynomial (LagrangeEvaluator.new points) points e) = p.eval e := by
  have hcard : p.degree < points.toFinset.card := by rwa [List.toFinset_card_of_nodup h]
  rw [evalWithBasisPolynomial, basisPolynomial, LagrangeEvaluator.new,
    @List.zipWith_map_right _ _ _ _ points, List.zipWith_self, List.zipWith_map, List.zipWith_self,
    eval_eq_sum_basis hcard e, List.sum_toFinset _ h]
  refine congrArg List.sum (List.map_congr_left fun u _ => ?_)
  rw [lagrangeDenominator, lagrangeNumerator_eq_prod h, lagrangeNumerator_eq_prod h, smul_eq_mul]

end Lagrange

/-! ## Newton's formula -/

namespace NewtonPolynomial

theorem injOn_getD (h : points.Nodup) :
    Set.InjOn (fun i => points.getD i 0) (Finset.range points.length) := by
  intro i hi j hj hij
  have hi' : i < points.length := Finset.mem_range.1 hi
  have hj' : j < points.length := Finset.mem_range.1 hj
  simp only [List.getD_eq_getElem?_getD, hi', hj', List.getElem?_eq_getElem,
    Option.getD_some] at hij
  exact h.getElem_inj_iff.1 hij

theorem foldl_pass (h : points.Nodup) {values : List F} (hlen : values.length = points.length)
    (j : ℕ) :
    (List.range j).foldl (fun values j => pass points (j + 1) values) values =
      (List.range points.length).map fun i => dividedDifference (fun i => points.getD i 0)
        (fun i => values.getD i 0) (i - min i j) (min i j) := by
  induction j with
  | zero =>
    refine List.ext_getElem (by simp [hlen]) fun i hi _ => ?_
    have hi' : i < values.length := hi
    simp [dividedDifference_zero, List.getD_eq_getElem?_getD, hi']
  | succ j ih =>
    rw [List.range_succ, List.foldl_append, ih, List.foldl_cons, List.foldl_nil]
    refine List.ext_getElem (by simp [pass]) fun i hi hi' => ?_
    have hlt : i < points.length := by simpa using hi'
    simp only [pass, List.getElem_mapIdx, List.getElem_map, List.getElem_range]
    by_cases hij : j + 1 ≤ i
    · obtain ⟨a, rfl⟩ := Nat.exists_eq_add_of_le' hij
      have hprev : a + (j + 1) - 1 < points.length := by omega
      have hinj : Set.InjOn (fun i => points.getD i 0) (Finset.Icc a (a + (j + 1))) :=
        (injOn_getD h).mono fun i hi => Finset.mem_coe.2 (Finset.mem_range.2 (by
          have := (Finset.mem_Icc.1 (Finset.mem_coe.1 hi)).2
          omega))
      rw [if_pos hij, List.getD_eq_getElem?_getD, List.getElem?_map, List.getElem?_range hprev,
        Option.map_some, Option.getD_some, Nat.min_eq_right (by omega), Nat.min_eq_right (by omega),
        Nat.min_eq_right hij, Nat.add_sub_cancel, dividedDifference_succ _ hinj, cache,
        Nat.add_sub_cancel, show a + (j + 1) - j = a + 1 by omega,
        show a + (j + 1) - 1 - j = a by omega]
    · rw [if_neg hij, Nat.min_eq_left (by omega), Nat.min_eq_left (by omega)]

theorem interpolate_eq (h : points.Nodup) {values : List F} (hlen : values.length = points.length) :
    interpolate points values = (List.range points.length).map fun i =>
      dividedDifference (fun i => points.getD i 0) (fun i => values.getD i 0) 0 i := by
  rw [interpolate, foldl_pass h hlen]
  refine List.map_congr_left fun i hi => ?_
  have hi' := List.mem_range.1 hi
  rw [Nat.min_eq_left (by omega), Nat.sub_self]

theorem basisPolynomial_eq (hpos : 0 < points.length) (x : F) :
    basisPolynomial points x = (List.range points.length).map fun i =>
      ∏ m ∈ Finset.range i, (x - points.getD m 0) := by
  have hfold : ∀ n ≤ points.length, (points.take n).foldl (fun acc y =>
      (acc.1 ++ [acc.2 * (x - y)], acc.2 * (x - y))) (([1], 1) : List F × F) =
      ((List.range (n + 1)).map fun i => ∏ m ∈ Finset.range i, (x - points.getD m 0),
        ∏ m ∈ Finset.range n, (x - points.getD m 0)) := by
    intro n hn
    induction n with
    | zero => rfl
    | succ n ih =>
      have hlt : n < points.length := hn
      rw [← List.take_concat_get' _ _ hlt, List.foldl_append, ih hlt.le, List.foldl_cons,
        List.foldl_nil, List.range_succ (n := n + 1), List.map_append, List.map_singleton,
        Finset.prod_range_succ _ n, List.getD_eq_getElem?_getD, List.getElem?_eq_getElem hlt,
        Option.getD_some]
  rw [basisPolynomial, hfold _ (Nat.sub_le _ _), Nat.sub_add_cancel hpos]

theorem evalWithBasisPolynomial_interpolate (h : points.Nodup) (hpos : 0 < points.length)
    (hp : p.degree < points.length) (x : F) :
    evalWithBasisPolynomial (basisPolynomial points x) (interpolate points (points.map p.eval)) =
      p.eval x := by
  rw [interpolate_eq h (List.length_map _), basisPolynomial_eq hpos, evalWithBasisPolynomial,
    List.zipWith_map, List.zipWith_self, eval_eq_sum_dividedDifference (injOn_getD h) hp x,
    ← List.toFinset_range, List.sum_toFinset _ List.nodup_range]
  refine congrArg List.sum (List.map_congr_left fun i hi => ?_)
  rw [dividedDifference_congr _ fun m hm => ?_]
  have hm' : m < points.length := by
    have := (Finset.mem_Icc.1 hm).2
    have := List.mem_range.1 hi
    omega
  simp [List.getD_eq_getElem?_getD, hm']

end NewtonPolynomial

end EdaBitGen.Inferno
