import EdaBitGen.Inferno.Sharing
import EdaBitGen.Scuttlebutt.Fft

/-!
# Packed secret sharing

The secrets and some random elements are the values of a polynomial at the powers of a root of unity
of order a power of 2, the shares its values at the powers of a root of order a power of 3.  At one
the polynomial is zero.
-/

namespace EdaBitGen

open Fft Coefficients Polynomial

namespace Inferno.NewtonPolynomial

variable {F : Type} [Field F]

/-- The value at a point, from the coefficients in Newton's basis. -/
def eval (points coefficients : List F) (point : F) : F :=
  let s := (List.range (coefficients.length - 1)).foldl (fun s i =>
    (s.1 + coefficients.getD i 0 * s.2, s.2 * (point - points.getD i 0))) ((0, 1) : F × F)
  s.1 + coefficients.getLastD 0 * s.2

theorem eval_eq_sum {points coefficients : List F} (point : F) (hpos : 0 < coefficients.length) :
    eval points coefficients point = ∑ i ∈ Finset.range coefficients.length,
      coefficients.getD i 0 * ∏ m ∈ Finset.range i, (point - points.getD m 0) := by
  have hfold : ∀ n, (List.range n).foldl (fun s i =>
      (s.1 + coefficients.getD i 0 * s.2, s.2 * (point - points.getD i 0))) ((0, 1) : F × F) =
      (∑ i ∈ Finset.range n, coefficients.getD i 0 *
        ∏ m ∈ Finset.range i, (point - points.getD m 0),
        ∏ m ∈ Finset.range n, (point - points.getD m 0)) := by
    intro n
    induction n with
    | zero => rfl
    | succ n ih =>
      rw [List.range_succ, List.foldl_append, ih, List.foldl_cons, List.foldl_nil,
        Finset.sum_range_succ, Finset.prod_range_succ]
  have hlast : coefficients.getLastD 0 = coefficients.getD (coefficients.length - 1) 0 := by
    rw [List.getLastD_eq_getLast?, List.getLast?_eq_getElem?, List.getD_eq_getElem?_getD]
  have hsplit : coefficients.length = coefficients.length - 1 + 1 := by omega
  rw [eval, hfold, hlast]
  conv_rhs => rw [hsplit, Finset.sum_range_succ]

theorem eval_eq_evalWithBasisPolynomial {points coefficients : List F} (point : F)
    (hlen : coefficients.length = points.length) (hpos : 0 < points.length) :
    eval points coefficients point =
      evalWithBasisPolynomial (basisPolynomial points point) coefficients := by
  have hcoefficients : coefficients =
      (List.range points.length).map fun i => coefficients.getD i 0 := by
    rw [← hlen]
    refine List.ext_getElem (by simp) fun i hi _ => ?_
    simp [List.getD_eq_getElem?_getD, hi]
  rw [eval_eq_sum point (hlen ▸ hpos), hlen, basisPolynomial_eq hpos, evalWithBasisPolynomial]
  conv_rhs => rw [hcoefficients]
  rw [List.zipWith_map, List.zipWith_self, ← List.toFinset_range,
    List.sum_toFinset _ List.nodup_range]

end Inferno.NewtonPolynomial

/-! ## The generator -/

structure PackedSecretSharingGenerator (F : Type) [Field F] where
  threshold : ℕ
  shareCount : ℕ
  secretCount : ℕ
  omegaSecrets : F
  omegaShares : F
  kexp : ℕ
  nexp : ℕ
  secrets_points : secretCount + threshold + 1 = 2 ^ kexp
  shares_points : shareCount + 1 = 3 ^ nexp
  points_lt : secretCount + threshold + 1 < shareCount + 1
  orderOf_omegaSecrets : orderOf omegaSecrets = 2 ^ kexp
  orderOf_omegaShares : orderOf omegaShares = 3 ^ nexp

namespace PackedSecretSharingGenerator

variable {F : Type} [Field F] (pss : PackedSecretSharingGenerator F)

def reconstructLimit : ℕ := pss.threshold + pss.secretCount

def recoverPolynomial (secrets randomness : List F) : List F :=
  -- the value at point one is zero
  fft2Inverse (0 :: (secrets ++ randomness)) pss.omegaSecrets

def share (secrets randomness : List F) : List F :=
  let poly := pss.recoverPolynomial secrets randomness
  let poly := poly ++ List.replicate (pss.shareCount - pss.reconstructLimit) 0
  (fft3 poly pss.omegaShares).tail

def reconstruct (indices : List ℕ) (shares : List F) : List F :=
  let points := 1 :: indices.map fun x => pss.omegaShares ^ (x + 1)
  let values := 0 :: shares
  let coefficients := Inferno.NewtonPolynomial.interpolate points values
  (((List.range' 1 (pss.reconstructLimit - 1)).map fun e => pss.omegaSecrets ^ e).map fun point =>
    Inferno.NewtonPolynomial.eval points coefficients point).take pss.secretCount

theorem isPrimitiveRoot_omegaSecrets :
    IsPrimitiveRoot pss.omegaSecrets (pss.secretCount + pss.threshold + 1) := by
  rw [pss.secrets_points]
  exact IsPrimitiveRoot.iff_orderOf.2 pss.orderOf_omegaSecrets

theorem isPrimitiveRoot_omegaShares : IsPrimitiveRoot pss.omegaShares (pss.shareCount + 1) := by
  rw [pss.shares_points]
  exact IsPrimitiveRoot.iff_orderOf.2 pss.orderOf_omegaShares

theorem omegaSecrets_pow_ne {a b : ℕ} (ha : 0 < a)
    (ha' : a < pss.secretCount + pss.threshold + 1) :
    pss.omegaSecrets ^ a ≠ pss.omegaShares ^ b := by
  intro h
  have hsecrets : (pss.omegaSecrets ^ a) ^ 2 ^ pss.kexp = 1 := by
    rw [← pow_mul, Nat.mul_comm, pow_mul, ← pss.orderOf_omegaSecrets, pow_orderOf_eq_one, one_pow]
  have hshares : (pss.omegaSecrets ^ a) ^ 3 ^ pss.nexp = 1 := by
    rw [h, ← pow_mul, Nat.mul_comm, pow_mul, ← pss.orderOf_omegaShares, pow_orderOf_eq_one, one_pow]
  have hcoprime : (2 ^ pss.kexp).Coprime (3 ^ pss.nexp) := Nat.Coprime.pow _ _ (by decide)
  have hone := (pow_eq_one_iff_of_coprime hcoprime).1 ⟨hsecrets, hshares⟩
  exact pss.isPrimitiveRoot_omegaSecrets.pow_ne_one_of_pos_of_lt ha.ne' ha' hone

/-! ## The polynomial -/

section Polynomial

variable {secrets randomness : List F} (hsecrets : secrets.length = pss.secretCount)
  (hrandomness : randomness.length = pss.threshold)
include hsecrets hrandomness

theorem length_values :
    (0 :: (secrets ++ randomness)).length = pss.secretCount + pss.threshold + 1 := by
  rw [List.length_cons, List.length_append, hsecrets, hrandomness]

theorem length_recoverPolynomial : (pss.recoverPolynomial secrets randomness).length =
    pss.secretCount + pss.threshold + 1 := by
  have hinv := isTransform_fft2 (IsPrimitiveRoot.iff_orderOf.2 pss.orderOf_omegaSecrets).inv
  rw [← pss.secrets_points] at hinv
  exact hinv.length_inverse (pss.length_values hsecrets hrandomness)

theorem degree_recoverPolynomial : (ofCoeffs (pss.recoverPolynomial secrets randomness)).degree <
    ((pss.secretCount + pss.threshold + 1 : ℕ) : WithBot ℕ) := by
  rw [← pss.length_recoverPolynomial hsecrets hrandomness]
  exact degree_ofCoeffs_lt _

theorem eval_recoverPolynomial {j : ℕ} (hj : j < pss.secretCount + pss.threshold + 1) :
    (ofCoeffs (pss.recoverPolynomial secrets randomness)).eval (pss.omegaSecrets ^ j) =
      (0 :: (secrets ++ randomness)).getD j 0 := by
  have hinv := isTransform_fft2 (IsPrimitiveRoot.iff_orderOf.2 pss.orderOf_omegaSecrets).inv
  rw [← pss.secrets_points] at hinv
  exact hinv.eval_inverse pss.isPrimitiveRoot_omegaSecrets
    (pss.length_values hsecrets hrandomness) hj

theorem share_eq : pss.share secrets randomness = (List.range pss.shareCount).map fun i =>
    (ofCoeffs (pss.recoverPolynomial secrets randomness)).eval (pss.omegaShares ^ (i + 1)) := by
  have hlt := pss.points_lt
  have hlimit : pss.reconstructLimit = pss.secretCount + pss.threshold := Nat.add_comm _ _
  have hlen : (pss.recoverPolynomial secrets randomness ++
      List.replicate (pss.shareCount - pss.reconstructLimit) 0).length = pss.shareCount + 1 := by
    rw [List.length_append, pss.length_recoverPolynomial hsecrets hrandomness,
      List.length_replicate]
    omega
  have hfft := isTransform_fft3 (IsPrimitiveRoot.iff_orderOf.2 pss.orderOf_omegaShares)
  rw [← pss.shares_points] at hfft
  rw [share, hfft _ hlen, ofCoeffs_append, ofCoeffs_replicate_zero, mul_zero, add_zero,
    List.range_succ_eq_map, List.map_cons, List.tail_cons, List.map_map]
  rfl

theorem getD_share {i : ℕ} (hi : i < pss.shareCount) :
    (pss.share secrets randomness).getD i 0 =
      (ofCoeffs (pss.recoverPolynomial secrets randomness)).eval (pss.omegaShares ^ (i + 1)) := by
  rw [pss.share_eq hsecrets hrandomness, List.getD_eq_getElem?_getD, List.getElem?_map,
    List.getElem?_range hi, Option.map_some, Option.getD_some]

end Polynomial

/-- Enough shares give back the secrets. -/
def Reconstructs : Prop :=
  ∀ (secrets : Fin pss.secretCount → F) (randomness : Fin pss.threshold → F)
    (indices : List (Fin pss.shareCount)), indices.Nodup → pss.reconstructLimit ≤ indices.length →
    pss.reconstruct (indices.map Fin.val) (indices.map fun i =>
      (pss.share (List.ofFn secrets) (List.ofFn randomness)).getD i.val 0) = List.ofFn secrets

theorem nodup_points {indices : List (Fin pss.shareCount)} (h : indices.Nodup) :
    (1 :: (indices.map Fin.val).map fun x => pss.omegaShares ^ (x + 1)).Nodup := by
  rw [List.nodup_cons, List.map_map]
  constructor
  · rintro hmem
    obtain ⟨i, -, hi⟩ := List.mem_map.1 hmem
    exact pss.isPrimitiveRoot_omegaShares.pow_ne_one_of_pos_of_lt (Nat.succ_ne_zero _)
      (Nat.succ_lt_succ i.isLt) hi
  · refine h.map fun i j hij => Fin.ext (Nat.succ.inj ?_)
    exact pss.isPrimitiveRoot_omegaShares.pow_inj (Nat.succ_lt_succ i.isLt)
      (Nat.succ_lt_succ j.isLt) hij

theorem reconstruct_share (secrets : Fin pss.secretCount → F) (randomness : Fin pss.threshold → F)
    {indices : List (Fin pss.shareCount)} (hnodup : indices.Nodup)
    (hlen : pss.reconstructLimit ≤ indices.length) :
    pss.reconstruct (indices.map Fin.val) (indices.map fun i =>
      (pss.share (List.ofFn secrets) (List.ofFn randomness)).getD i.val 0) =
      (List.ofFn secrets).take (pss.reconstructLimit - 1) := by
  have hlimit : pss.reconstructLimit = pss.secretCount + pss.threshold := Nat.add_comm _ _
  have hsecrets : (List.ofFn secrets).length = pss.secretCount := List.length_ofFn
  have hrandomness : (List.ofFn randomness).length = pss.threshold := List.length_ofFn
  have hone := pss.eval_recoverPolynomial hsecrets hrandomness (Nat.succ_pos _)
  rw [pow_zero, List.getD_cons_zero] at hone
  have hvalues : 0 :: indices.map (fun i =>
      (pss.share (List.ofFn secrets) (List.ofFn randomness)).getD i.val 0) =
      (1 :: (indices.map Fin.val).map fun x => pss.omegaShares ^ (x + 1)).map
        (ofCoeffs (pss.recoverPolynomial (List.ofFn secrets) (List.ofFn randomness))).eval := by
    rw [List.map_cons, hone, List.map_map, List.map_map]
    congr 1
    exact List.map_congr_left fun i _ => pss.getD_share hsecrets hrandomness i.isLt
  have hdegree : (ofCoeffs (pss.recoverPolynomial (List.ofFn secrets)
      (List.ofFn randomness))).degree <
      ((1 :: (indices.map Fin.val).map fun x => pss.omegaShares ^ (x + 1)).length :
        WithBot ℕ) := by
    refine (pss.degree_recoverPolynomial hsecrets hrandomness).trans_le (Nat.cast_le.2 ?_)
    rw [List.length_cons, List.length_map, List.length_map]
    omega
  have heval : ∀ x : F, Inferno.NewtonPolynomial.eval
      (1 :: (indices.map Fin.val).map fun x => pss.omegaShares ^ (x + 1))
      (Inferno.NewtonPolynomial.interpolate
        (1 :: (indices.map Fin.val).map fun x => pss.omegaShares ^ (x + 1))
        ((1 :: (indices.map Fin.val).map fun x => pss.omegaShares ^ (x + 1)).map
          (ofCoeffs (pss.recoverPolynomial (List.ofFn secrets) (List.ofFn randomness))).eval)) x =
      (ofCoeffs (pss.recoverPolynomial (List.ofFn secrets) (List.ofFn randomness))).eval x := by
    intro x
    have hpoints := pss.nodup_points hnodup
    have hpos : 0 < (1 :: (indices.map Fin.val).map fun x => pss.omegaShares ^ (x + 1)).length :=
      Nat.succ_pos _
    have hinterpolate := Inferno.NewtonPolynomial.interpolate_eq hpoints
      (List.length_map (ofCoeffs (pss.recoverPolynomial (List.ofFn secrets)
        (List.ofFn randomness))).eval)
    rw [Inferno.NewtonPolynomial.eval_eq_evalWithBasisPolynomial x _ hpos,
      Inferno.NewtonPolynomial.evalWithBasisPolynomial_interpolate hpoints hpos hdegree]
    rw [hinterpolate, List.length_map, List.length_range]
  rw [reconstruct, hvalues]
  simp only [heval]
  rw [List.map_map]
  apply List.ext_getElem
  · rw [List.length_take, List.length_map, List.length_range', List.length_take, hsecrets,
      Nat.min_comm]
  · intro j hj hj'
    rw [List.length_take, hsecrets] at hj'
    have hjs : j < (List.ofFn secrets).length := by omega
    rw [List.getElem_take, List.getElem_map, List.getElem_range', Function.comp_apply,
      Nat.one_mul, Nat.add_comm, pss.eval_recoverPolynomial hsecrets hrandomness (by omega),
      List.getD_cons_succ, List.getD_append _ _ _ _ hjs, List.getD_eq_getElem _ 0 hjs,
      List.getElem_take]

theorem reconstructs_iff : pss.Reconstructs ↔ 0 < pss.threshold ∨ pss.secretCount = 0 := by
  have hlimit : pss.reconstructLimit = pss.secretCount + pss.threshold := Nat.add_comm _ _
  constructor
  · intro h
    by_contra hnot
    rw [not_or] at hnot
    have hlt := pss.points_lt
    have hcount : pss.reconstructLimit ≤ (List.finRange pss.shareCount).length := by
      rw [List.length_finRange]
      omega
    have hall := h (fun _ => 0) (fun _ => 0) (List.finRange pss.shareCount)
      (List.nodup_finRange _) hcount
    rw [pss.reconstruct_share _ _ (List.nodup_finRange _) hcount] at hall
    have hlen := congrArg List.length hall
    rw [List.length_take, List.length_ofFn] at hlen
    omega
  · intro h secrets randomness indices hnodup hlen
    rw [pss.reconstruct_share secrets randomness hnodup hlen]
    refine List.take_of_length_le ?_
    rw [List.length_ofFn]
    omega

/-! ## Privacy -/

/-- For fixed secrets, any `threshold` shares are any values, each for one choice of the random
elements. -/
def Private : Prop :=
  ∀ (secrets : Fin pss.secretCount → F) (indices : Fin pss.threshold → Fin pss.shareCount),
    Function.Injective indices →
    Function.Bijective fun (randomness : Fin pss.threshold → F) (i : Fin pss.threshold) =>
      (pss.share (List.ofFn secrets) (List.ofFn randomness)).getD (indices i) 0

/-- One, the points of the secrets and some points of shares. -/
def node (indices : Fin pss.threshold → Fin pss.shareCount) :
    Option (Fin pss.secretCount ⊕ Fin pss.threshold) → F
  | none => 1
  | some (.inl j) => pss.omegaSecrets ^ (j.val + 1)
  | some (.inr i) => pss.omegaShares ^ ((indices i).val + 1)

theorem node_injective {indices : Fin pss.threshold → Fin pss.shareCount}
    (h : Function.Injective indices) : Function.Injective (pss.node indices) := by
  have hsecrets : ∀ j : Fin pss.secretCount,
      j.val + 1 < pss.secretCount + pss.threshold + 1 := fun j => by omega
  have hshares : ∀ i : Fin pss.threshold, (indices i).val + 1 < pss.shareCount + 1 :=
    fun i => Nat.succ_lt_succ (indices i).isLt
  have hones : ∀ j, pss.omegaSecrets ^ (j + 1) = 1 → ¬ j + 1 < pss.secretCount + pss.threshold + 1 :=
    fun j hj hlt =>
      pss.isPrimitiveRoot_omegaSecrets.pow_ne_one_of_pos_of_lt (Nat.succ_ne_zero _) hlt hj
  have hones' : ∀ j, pss.omegaShares ^ (j + 1) = 1 → ¬ j + 1 < pss.shareCount + 1 :=
    fun j hj hlt =>
      pss.isPrimitiveRoot_omegaShares.pow_ne_one_of_pos_of_lt (Nat.succ_ne_zero _) hlt hj
  rintro (_ | j | i) (_ | j' | i') heq
  · rfl
  · exact absurd (hsecrets j') (hones _ heq.symm)
  · exact absurd (hshares i') (hones' _ heq.symm)
  · exact absurd (hsecrets j) (hones _ heq)
  · have := pss.isPrimitiveRoot_omegaSecrets.pow_inj (hsecrets j) (hsecrets j') heq
    rw [Fin.ext (Nat.succ.inj this)]
  · exact absurd heq (pss.omegaSecrets_pow_ne (Nat.succ_pos _) (hsecrets j))
  · exact absurd (hshares i) (hones' _ heq)
  · exact absurd heq.symm (pss.omegaSecrets_pow_ne (Nat.succ_pos _) (hsecrets j'))
  · have := pss.isPrimitiveRoot_omegaShares.pow_inj (hshares i) (hshares i') heq
    rw [h (Fin.ext (Nat.succ.inj this))]

theorem card_nodes :
    (Finset.univ : Finset (Option (Fin pss.secretCount ⊕ Fin pss.threshold))).card =
      pss.secretCount + pss.threshold + 1 := by
  rw [Finset.card_univ, Fintype.card_option, Fintype.card_sum, Fintype.card_fin, Fintype.card_fin]

/-- A polynomial is determined by its values at the points of the secrets and random elements. -/
theorem eq_of_eval_secrets {P Q : F[X]}
    (hP : P.degree < ((pss.secretCount + pss.threshold + 1 : ℕ) : WithBot ℕ))
    (hQ : Q.degree < ((pss.secretCount + pss.threshold + 1 : ℕ) : WithBot ℕ))
    (h : ∀ j < pss.secretCount + pss.threshold + 1,
      P.eval (pss.omegaSecrets ^ j) = Q.eval (pss.omegaSecrets ^ j)) : P = Q := by
  have hinj : Set.InjOn (fun j => pss.omegaSecrets ^ j)
      (Finset.range (pss.secretCount + pss.threshold + 1)) := fun i hi j hj hij =>
    pss.isPrimitiveRoot_omegaSecrets.pow_inj (Finset.mem_range.1 hi) (Finset.mem_range.1 hj) hij
  refine eq_of_degrees_lt_of_eval_index_eq _ hinj ?_ ?_ fun j hj => h j (Finset.mem_range.1 hj)
  · rwa [Finset.card_range]
  · rwa [Finset.card_range]

theorem eq_of_eval_nodes {indices : Fin pss.threshold → Fin pss.shareCount}
    (hindices : Function.Injective indices) {P Q : F[X]}
    (hP : P.degree < ((pss.secretCount + pss.threshold + 1 : ℕ) : WithBot ℕ))
    (hQ : Q.degree < ((pss.secretCount + pss.threshold + 1 : ℕ) : WithBot ℕ))
    (h : ∀ n, P.eval (pss.node indices n) = Q.eval (pss.node indices n)) : P = Q := by
  refine eq_of_degrees_lt_of_eval_index_eq Finset.univ (pss.node_injective hindices).injOn ?_ ?_
    fun n _ => h n
  · rwa [card_nodes]
  · rwa [card_nodes]

theorem getD_values (secrets : Fin pss.secretCount → F) (randomness : Fin pss.threshold → F) :
    (∀ j : Fin pss.secretCount,
      (0 :: (List.ofFn secrets ++ List.ofFn randomness)).getD (j + 1) 0 = secrets j) ∧
    ∀ j : Fin pss.threshold,
      (0 :: (List.ofFn secrets ++ List.ofFn randomness)).getD (pss.secretCount + j + 1) 0 =
        randomness j := by
  refine ⟨fun j => ?_, fun j => ?_⟩
  · rw [List.getD_cons_succ, List.getD_append _ _ _ _ (by simp), List.getD_eq_getElem _ 0 (by simp),
      List.getElem_ofFn]
  · rw [List.getD_cons_succ, List.getD_append_right _ _ _ _ (by simp),
      List.getD_eq_getElem _ 0 (by simp), List.getElem_ofFn]
    simp

theorem isPrivate : pss.Private := by
  intro secrets indices hindices
  have hsecrets : (List.ofFn secrets).length = pss.secretCount := List.length_ofFn
  constructor
  · intro r r' hshares
    have hr : (List.ofFn r).length = pss.threshold := List.length_ofFn
    have hr' : (List.ofFn r').length = pss.threshold := List.length_ofFn
    have hpoly : ofCoeffs (pss.recoverPolynomial (List.ofFn secrets) (List.ofFn r)) =
        ofCoeffs (pss.recoverPolynomial (List.ofFn secrets) (List.ofFn r')) := by
      refine pss.eq_of_eval_nodes hindices (pss.degree_recoverPolynomial hsecrets hr)
        (pss.degree_recoverPolynomial hsecrets hr') ?_
      rintro (_ | j | i)
      · have hone := pss.eval_recoverPolynomial hsecrets hr (Nat.succ_pos _)
        have hone' := pss.eval_recoverPolynomial hsecrets hr' (Nat.succ_pos _)
        rw [pow_zero] at hone hone'
        exact hone.trans hone'.symm
      · have hj : j.val + 1 < pss.secretCount + pss.threshold + 1 := by omega
        show (ofCoeffs _).eval (pss.omegaSecrets ^ _) = (ofCoeffs _).eval (pss.omegaSecrets ^ _)
        rw [pss.eval_recoverPolynomial hsecrets hr hj, pss.eval_recoverPolynomial hsecrets hr' hj,
          (pss.getD_values secrets r).1, (pss.getD_values secrets r').1]
      · have hi := congrFun hshares i
        simp only [pss.getD_share hsecrets hr (indices i).isLt,
          pss.getD_share hsecrets hr' (indices i).isLt] at hi
        exact hi
    funext j
    have hj : pss.secretCount + j.val + 1 < pss.secretCount + pss.threshold + 1 := by omega
    have hvalue := pss.eval_recoverPolynomial hsecrets hr hj
    rw [hpoly, pss.eval_recoverPolynomial hsecrets hr' hj, (pss.getD_values secrets r').2,
      (pss.getD_values secrets r).2] at hvalue
    exact hvalue.symm
  · intro y
    -- The polynomial with the secrets and the given shares.
    let value : Option (Fin pss.secretCount ⊕ Fin pss.threshold) → F := fun
      | none => 0
      | some (.inl j) => secrets j
      | some (.inr i) => y i
    let Q := Lagrange.interpolate Finset.univ (pss.node indices) value
    have hinj : Set.InjOn (pss.node indices)
        (Finset.univ : Finset (Option (Fin pss.secretCount ⊕ Fin pss.threshold))) :=
      (pss.node_injective hindices).injOn
    have hQ : ∀ n, Q.eval (pss.node indices n) = value n := fun n =>
      Lagrange.eval_interpolate_at_node value hinj (Finset.mem_univ n)
    have hdegree : Q.degree < ((pss.secretCount + pss.threshold + 1 : ℕ) : WithBot ℕ) := by
      rw [← card_nodes]
      exact Lagrange.degree_interpolate_lt value hinj
    let r : Fin pss.threshold → F := fun j =>
      Q.eval (pss.omegaSecrets ^ (pss.secretCount + j.val + 1))
    have hr : (List.ofFn r).length = pss.threshold := List.length_ofFn
    have hpoly : ofCoeffs (pss.recoverPolynomial (List.ofFn secrets) (List.ofFn r)) = Q := by
      refine pss.eq_of_eval_secrets (pss.degree_recoverPolynomial hsecrets hr) hdegree
        fun j hj => ?_
      rw [pss.eval_recoverPolynomial hsecrets hr hj]
      rcases j with _ | j
      · rw [pow_zero]
        exact (hQ none).symm
      · by_cases hjs : j < pss.secretCount
        · exact ((pss.getD_values secrets r).1 ⟨j, hjs⟩).trans (hQ (some (.inl ⟨j, hjs⟩))).symm
        · obtain ⟨d, rfl⟩ := Nat.exists_eq_add_of_le (not_lt.1 hjs)
          exact (pss.getD_values secrets r).2 ⟨d, by omega⟩
    refine ⟨r, funext fun i => ?_⟩
    show (pss.share (List.ofFn secrets) (List.ofFn r)).getD (indices i) 0 = y i
    rw [pss.getD_share hsecrets hr (indices i).isLt, hpoly]
    exact hQ (some (.inr i))

theorem packedSecretSharing_iff :
    pss.Reconstructs ∧ pss.Private ↔ 0 < pss.threshold ∨ pss.secretCount = 0 := by
  rw [reconstructs_iff, and_iff_left pss.isPrivate]

/-- One secret, without random elements and with two shares. -/
def oneSecret : PackedSecretSharingGenerator F2e19x3e26 where
  threshold := 0
  shareCount := 2
  secretCount := 1
  omegaSecrets := FieldForFFT.roots 2 1
  omegaShares := FieldForFFT.roots 3 1
  kexp := 1
  nexp := 1
  secrets_points := rfl
  shares_points := rfl
  points_lt := by decide
  orderOf_omegaSecrets := (FieldForFFT.isPrimitiveRoot_roots 1 (by decide)).eq_orderOf.symm
  orderOf_omegaShares := (FieldForFFT.isPrimitiveRoot_roots 1 (by decide)).eq_orderOf.symm

/-- The only secret is not returned. -/
theorem packedSecretSharing_oneSecret : ¬ (oneSecret.Reconstructs ∧ oneSecret.Private) := by
  rintro ⟨h, -⟩
  exact absurd (oneSecret.reconstructs_iff.1 h) (by decide)

end PackedSecretSharingGenerator

end EdaBitGen
