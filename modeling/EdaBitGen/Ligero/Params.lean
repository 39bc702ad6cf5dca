import EdaBitGen.Data.Lists
import EdaBitGen.Scuttlebutt.Fft
import EdaBitGen.Scuttlebutt.Polynomial

/-!
# Interleaved codes

A row of `l` elements, with `t` random ones, is the values of a polynomial at the first powers of a
root of unity of order `k + 1`, a power of 2.  Its codeword is the values of the polynomial at the
powers of a root of order `n + 1`, a power of 3.  At the zeroth power every polynomial is zero.
-/

namespace EdaBitGen

/-- A field for the proofs, with the bits of its elements. -/
class FieldForLigero (F : Type) [Field F] where
  fft2 : FieldForFFT 2 F
  fft3 : FieldForFFT 3 F
  fieldSize : ℕ

attribute [reducible, instance] FieldForLigero.fft2 FieldForLigero.fft3

instance : FieldForLigero F2e19x3e26 where
  fft2 := inferInstance
  fft3 := inferInstance
  fieldSize := 61

namespace Ligero

open Fft Coefficients

/-! ## Parameters -/

/-- The size of rows, codewords and interleaved codes. -/
structure Params (F : Type) [Field F] [FieldForLigero F] where
  kexp : ℕ
  nexp : ℕ
  l : ℕ
  t : ℕ
  k : ℕ
  n : ℕ
  m : ℕ
  kexp_lt : kexp < FieldForFFT.phiExp 2 F
  nexp_le : nexp ≤ FieldForFFT.phiExp 3 F
  k_add_one : k + 1 = 2 ^ kexp
  n_add_one : n + 1 = 3 ^ nexp
  l_add_t : l + t = k
  l_pos : 0 < l
  k_lt_n : k < n

variable {F : Type} [Field F] [FieldForLigero F]

namespace Params

/-- The parameters of codewords with the given power of 2, with the least power of 3 that fits. -/
def candidate (size kexp : ℕ) : Option (Params F) :=
  let t := FieldForLigero.fieldSize F
  let k := 2 ^ kexp - 1
  if hk : t < k ∧ kexp < FieldForFFT.phiExp 2 F then
    match hn : (List.range (FieldForFFT.phiExp 3 F + 1)).find? fun nexp => k < 3 ^ nexp - 1 with
    | none => none
    | some nexp => some {
        kexp := kexp
        nexp := nexp
        l := k - t
        t := t
        k := k
        n := 3 ^ nexp - 1
        m := (size + (k - t) - 1) / (k - t)
        kexp_lt := hk.2
        nexp_le := Nat.lt_succ_iff.1 (List.mem_range.1 (List.mem_of_find?_eq_some hn))
        k_add_one := Nat.sub_add_cancel (Nat.pow_pos Nat.two_pos)
        n_add_one := Nat.sub_add_cancel (Nat.pow_pos (by decide))
        l_add_t := Nat.sub_add_cancel hk.1.le
        l_pos := Nat.sub_pos_of_lt hk.1
        k_lt_n := by
          have h := List.find?_some hn
          simpa using h }
  else none

/-- The parameters for which the rows are closest in number to their length over `t`. -/
def new (size : ℕ) : Option (Params F) :=
  if size = 0 then none
  else
    ((List.range (FieldForFFT.phiExp 2 F)).filterMap (candidate size)).argmin
      fun params => ((params.l : ℤ) - params.t * params.m).natAbs

variable (params : Params F)

/-- The root whose powers are the points of the secrets. -/
def omegaSecrets : F := FieldForFFT.roots 2 params.kexp

/-- The root whose powers are the points of the shares. -/
def omegaShares : F := FieldForFFT.roots 3 params.nexp

theorem isPrimitiveRoot_omegaSecrets : IsPrimitiveRoot params.omegaSecrets (2 ^ params.kexp) :=
  FieldForFFT.isPrimitiveRoot_roots _ params.kexp_lt.le

theorem isPrimitiveRoot_omegaShares : IsPrimitiveRoot params.omegaShares (3 ^ params.nexp) :=
  FieldForFFT.isPrimitiveRoot_roots _ params.nexp_le

theorem isTransform_secrets : IsTransform (params.k + 1) params.omegaSecrets fft2 := by
  rw [params.k_add_one]
  exact isTransform_fft2 params.isPrimitiveRoot_omegaSecrets

theorem isTransform_secrets_inv : IsTransform (params.k + 1) params.omegaSecrets⁻¹ fft2 := by
  rw [params.k_add_one]
  exact isTransform_fft2 params.isPrimitiveRoot_omegaSecrets.inv

theorem isTransform_shares : IsTransform (params.n + 1) params.omegaShares fft3 := by
  rw [params.n_add_one]
  exact isTransform_fft3 params.isPrimitiveRoot_omegaShares

theorem isTransform_shares_inv : IsTransform (params.n + 1) params.omegaShares⁻¹ fft3 := by
  rw [params.n_add_one]
  exact isTransform_fft3 params.isPrimitiveRoot_omegaShares.inv

end Params

/-- The parameters of the smallest circuits. -/
def smallParams : Params F2e19x3e26 where
  kexp := 7
  nexp := 5
  l := 66
  t := 61
  k := 127
  n := 242
  m := 1
  kexp_lt := by decide
  nexp_le := by decide
  k_add_one := by decide
  n_add_one := by decide
  l_add_t := by decide
  l_pos := by decide
  k_lt_n := by decide

/-! ## Polynomials -/

/-- Fill up with zeros to a length. -/
def padTo (len : ℕ) (p : List F) : List F := p ++ List.replicate (len - p.length) 0

def padd (p q : List F) : List F :=
  let rLen := max p.length q.length
  List.zipWith (· + ·) (padTo rLen p) (padTo rLen q)

def psub (p q : List F) : List F :=
  let rLen := max p.length q.length
  List.zipWith (· - ·) (padTo rLen p) (padTo rLen q)

namespace Params

variable (params : Params F)

/-- The codeword of a row, with random elements. -/
def encode (wf randomness : List F) : List F :=
  let poly := fft2Inverse (0 :: (wf ++ randomness)) params.omegaSecrets
  (fft3 (poly ++ List.replicate (params.n - params.k) 0) params.omegaShares).tail

/-- The values at the secrets' points, the random elements at their end. -/
def decodeNoStrip (cf : List F) : List F :=
  let points := fft3Inverse (0 :: cf) params.omegaShares
  fft2 (points.take (params.k + 1)) params.omegaSecrets

def decode (cf : List F) : List F := ((params.decodeNoStrip cf).drop 1).take params.l

/-- The codewords of the rows of a matrix, with random elements for each. -/
def encodeInterleaved (ws : List F) (randomness : List (List F)) : List (List F) :=
  List.zipWith params.encode (Chunks.exact params.l ws) randomness

/-- The last coefficients of the polynomial are zero, and so is its value at the first point. -/
def codewordIsValid [DecidableEq F] (cf : List F) : Bool :=
  let coeffs0 := fft3Inverse (0 :: cf) params.omegaShares
  let points := fft2 (coeffs0.take (params.k + 1)) params.omegaSecrets
  let zeros := coeffs0.drop (params.k + 1)
  points.getD 0 0 = 0 && zeros.all (· = 0)

/-- The coefficients of the polynomial with the given values at the secrets' points. -/
def fft2Inverse (points : List F) : List F :=
  Fft.fft2Inverse (padTo (params.k + 1) (0 :: points)) params.omegaSecrets

/-- The values at the secrets' points of a polynomial of any degree. -/
def fft2Peval (coeffs : List F) : List F :=
  let coeffs0 := (Chunks.all (params.k + 1) coeffs).foldl padd (List.replicate (params.k + 1) 0)
  fft2 coeffs0 params.omegaSecrets

/-- The coefficients of the polynomial with the given values at the shares' points. -/
def fft3Inverse (points : List F) : List F :=
  Fft.fft3Inverse (padTo (params.n + 1) (0 :: points)) params.omegaShares

/-- The values at the shares' points. -/
def fft3 (coeffs : List F) : List F :=
  (Fft.fft3 (padTo (params.n + 1) coeffs) params.omegaShares).tail

/-- The value at one of the shares' points of a polynomial of any degree. -/
def peval3 (p : List F) (ix : ℕ) : F :=
  (GeneralPolynomial.ofSlice p).eval (params.omegaShares ^ ix)

/-- The product of two polynomials with at most `k + 1` coefficients. -/
def pmul2 (p q : List F) : List F :=
  let maxDeg := 2 ^ (params.kexp + 1)
  let omega := FieldForFFT.roots 2 (params.kexp + 1)
  let p0 := fft2 (padTo maxDeg p) omega
  let q0 := fft2 (padTo maxDeg q) omega
  (Fft.fft2Inverse (List.zipWith (· * ·) p0 q0) omega).take (p.length + q.length - 1)

end Params

end Ligero

end EdaBitGen
