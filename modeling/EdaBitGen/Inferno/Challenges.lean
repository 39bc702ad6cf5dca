import EdaBitGen.Algebra.Coefficients
import EdaBitGen.Algebra.Roots
import EdaBitGen.Inferno.Hiding

/-!
# Challenges that miss a wrong product

The verifier sees one combination of all products, whose coefficients come from one challenge: each is
the square of the one before.  So the challenges that miss a wrong product are the roots of a
polynomial whose exponents are powers of two, which may have more roots than there are products.
-/

namespace EdaBitGen.Inferno

open Polynomial FiniteRoots Coefficients

section Combination

variable {Fp F : Type} [Field Fp] [Field F] [Algebra Fp F] {N : ℕ}

/-- How far the outputs of the multiplications are from the products of their inputs. -/
def deviations (xs ys zs : List (SecretSharing Fp N)) : List Fp :=
  (xs.zip (ys.zip zs)).map fun p => reveal p.1 * reveal p.2.1 - reveal p.2.2

/-- The product of the lifted inputs less the lifted outputs. -/
def combination (xs ys zs : List (SecretSharing Fp N)) (challenge : F) : F :=
  let round : Round (SecretSharing F N) := round1 xs ys zs challenge
  (List.zipWith (· * ·) round.revealed.1 round.revealed.2).sum - (round.z.map reveal).getD 0

variable (F) in
/-- The polynomial of the combination in the challenge. -/
noncomputable def challengePolynomial (ds : List Fp) : F[X] :=
  (ds.mapIdx fun i d => monomial (2 ^ i) (algebraMap Fp F d)).sum

theorem iterate_square (r : F) (i : ℕ) : (fun r : F => r * r)^[i] r = r ^ 2 ^ i := by
  induction i generalizing r with
  | zero => exact (pow_one r).symm
  | succ i ih => rw [Function.iterate_succ_apply, ih, ← pow_two, ← pow_mul, pow_succ']

theorem combination_eq (xs ys zs : List (SecretSharing Fp N)) (challenge : F) :
    combination xs ys zs challenge =
      ((deviations xs ys zs).mapIdx fun i d => challenge ^ 2 ^ i * algebraMap Fp F d).sum := by
  rw [combination, deviations, round1, Round.revealed]
  dsimp only
  generalize xs.zip (ys.zip zs) = ps
  simp only [← iterate_square, Option.map_some, Option.getD_some]
  induction ps generalizing challenge with
  | nil => simp
  | cons p ps ih =>
    have ih := ih (challenge * challenge)
    simp only [List.mapIdx_cons, List.map_cons, List.zipWith_cons_cons, List.sum_cons,
      Function.iterate_succ_apply, Function.iterate_zero_apply, map_add, reveal_multiply,
      reveal_lift] at ih ⊢
    rw [← ih, map_sub, map_mul]
    ring

end Combination

/-! ## Missed deviations -/

section Missed

variable {p N : ℕ} [Fact p.Prime] (F : Type) [Field F] [Algebra (ZMod p) F]

/-- If an output is not the product of its inputs, then no more challenges miss it than there are
multiplications. -/
def FewMissed (xs ys zs : List (SecretSharing (ZMod p) N)) : Prop :=
  (∃ d ∈ deviations xs ys zs, d ≠ 0) →
    Nat.card {challenge : F // combination xs ys zs challenge = 0} ≤ xs.length

theorem eval_sum_monomial (ds : List (ZMod p)) (exponent : ℕ → ℕ) (r : F) :
    (ds.mapIdx fun i d => monomial (exponent i) (algebraMap (ZMod p) F d)).sum.eval r =
      (ds.mapIdx fun i d => r ^ exponent i * algebraMap (ZMod p) F d).sum := by
  induction ds generalizing exponent with
  | nil => simp
  | cons d ds ih =>
    rw [List.mapIdx_cons, List.mapIdx_cons, List.sum_cons, List.sum_cons, eval_add, eval_monomial,
      ih fun i => exponent (i + 1), mul_comm]

variable {F} in
theorem combination_eq_eval (xs ys zs : List (SecretSharing (ZMod p) N)) (challenge : F) :
    combination xs ys zs challenge =
      (challengePolynomial F (deviations xs ys zs)).eval challenge := by
  rw [combination_eq, challengePolynomial]
  exact (eval_sum_monomial F _ (2 ^ ·) challenge).symm

theorem card_missed [Finite F] (xs ys zs : List (SecretSharing (ZMod p) N)) :
    Nat.card {challenge : F // combination xs ys zs challenge = 0} =
      gcdDegree (challengePolynomial F (deviations xs ys zs)) (X ^ Nat.card F - X) := by
  simp only [combination_eq_eval]
  exact card_roots_eq _

end Missed

/-! ## Binary fields -/

section Binary

variable {N : ℕ} (F : Type) [Field F] [Algebra (ZMod 2) F]

theorem eval_linearized (ds : List (ZMod 2)) (challenge : F) :
    (linearized (ZMod 2) F (ofCoeffs ds)).eval challenge =
      (ds.mapIdx fun i d => challenge ^ 2 ^ i * algebraMap (ZMod 2) F d).sum := by
  rw [← frobeniusMap_apply]
  induction ds generalizing challenge with
  | nil => simp [frobeniusMap]
  | cons d ds ih =>
    have hsquare : frobeniusMap (ZMod 2) F X challenge = challenge ^ 2 := by
      rw [frobeniusMap, aeval_X]
      rfl
    rw [ofCoeffs_cons, mul_comm X, frobeniusMap_add, frobeniusMap_mul, hsquare, ih, List.mapIdx_cons,
      List.sum_cons]
    congr 1
    · rw [frobeniusMap, aeval_C, Module.algebraMap_end_apply, Algebra.smul_def, mul_comm, pow_zero,
        pow_one]
    · simp only [pow_succ' 2, pow_mul]

theorem card_missed_two [Finite F] (xs ys zs : List (SecretSharing (ZMod 2) N)) :
    Nat.card {challenge : F // combination xs ys zs challenge = 0} =
      2 ^ gcdDegree (ofCoeffs (deviations xs ys zs)) (X ^ Module.finrank (ZMod 2) F - 1) := by
  simp only [combination_eq, ← eval_linearized]
  rw [card_linearized_roots, ZMod.card]

end Binary

/-! ## How many challenges miss -/

section Counting

/-- The challenges that miss are few exactly if the common divisor of the deviations' polynomial and
the polynomial of all elements is of low degree.  Over a binary field this is about the polynomial with
the deviations as coefficients. -/
theorem fewMissed_iff {p N : ℕ} [Fact p.Prime] (F : Type) [Field F] [Finite F]
    [Algebra (ZMod p) F] (xs ys zs : List (SecretSharing (ZMod p) N)) :
    FewMissed F xs ys zs ↔
      ((∃ d ∈ deviations xs ys zs, d ≠ 0) →
        if p = 2 then
          2 ^ gcdDegree (ofCoeffs (deviations xs ys zs)) (X ^ Module.finrank (ZMod p) F - 1) ≤
            xs.length
        else
          gcdDegree (challengePolynomial F (deviations xs ys zs)) (X ^ Nat.card F - X) ≤
            xs.length) := by
  refine imp_congr_right fun _ => ?_
  split
  · rename_i htwo
    subst htwo
    rw [card_missed_two]
  · rw [card_missed]

noncomputable section

/-- A sharing of a bit. -/
def sharedBit (b : ZMod 2) : SecretSharing (ZMod 2) 16 := SecretSharing.newNonRandom b

theorem reveal_sharedBit (b : ZMod 2) : reveal (sharedBit b) = b := by
  simp [reveal, sharedBit, SecretSharing.newNonRandom, CorrectionSharing.newNonRandom,
    CorrectionSharing.reconstruct, Fin.sum_univ_succ]

/-- One wrong product is missed by one challenge. -/
theorem fewMissed_single :
    FewMissed (GaloisField 2 64) [sharedBit 1] [sharedBit 1] [sharedBit 0] := by
  refine (fewMissed_iff (GaloisField 2 64) _ _ _).2 fun _ => ?_
  rw [if_pos rfl, gcdDegree_of_dvd]
  · simp [deviations, reveal_sharedBit]
  · simp [deviations, reveal_sharedBit]

/-- With the first and the third of three products wrong, there are four challenges that miss. -/
theorem not_fewMissed_third :
    ¬ FewMissed (GaloisField 2 64) [sharedBit 1, sharedBit 0, sharedBit 1]
      [sharedBit 1, sharedBit 0, sharedBit 1] [sharedBit 0, sharedBit 0, sharedBit 0] := by
  intro h
  have hds : deviations [sharedBit 1, sharedBit 0, sharedBit 1] [sharedBit 1, sharedBit 0, sharedBit 1]
      [sharedBit 0, sharedBit 0, sharedBit 0] = [1, 0, 1] := by
    simp [deviations, reveal_sharedBit]
  have hcard := h ⟨1, by rw [hds]; simp, one_ne_zero⟩
  have hpoly : (ofCoeffs [1, 0, 1] : (ZMod 2)[X]) = X ^ 2 - C 1 := by
    have hneg : (-1 : ZMod 2) = 1 := rfl
    rw [sub_eq_add_neg, ← C_neg, hneg]
    simp [pow_two, add_comm]
  have hdvd : (X ^ 2 - C 1 : (ZMod 2)[X]) ∣ X ^ Module.finrank (ZMod 2) (GaloisField 2 64) - 1 := by
    rw [GaloisField.finrank 2 (by norm_num), C_1, pow_mul X 2 32]
    exact sub_one_dvd_pow_sub_one _ _
  rw [card_missed_two, hds, hpoly, gcdDegree_of_dvd hdvd, natDegree_X_pow_sub_C] at hcard
  exact absurd hcard (by decide)

end

end Counting

end EdaBitGen.Inferno
