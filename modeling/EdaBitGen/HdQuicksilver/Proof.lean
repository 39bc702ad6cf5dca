import EdaBitGen.HdQuicksilver.Homomorphism
import EdaBitGen.Algebra.Roots

/-!
# The proof for statements of higher degree

Both parties accumulate the checked MACs with the powers of a challenge `chi`.  The prover sends the
coefficients of the accumulated polynomial below the leading one, masked by a polynomial that both
sides draw from VOLEs, and the verifier compares their value at `Δ`.
-/

namespace EdaBitGen

open Coefficients Polynomial Interaction Party

structure QSStateProver (F : Type) where
  chi : F
  state : HDMacProver F
  count : ℕ

structure QSStateVerifier (F : Type) where
  delta : F
  chi : F
  state : HDMacVerifier F
  count : ℕ

/-- How often a loop over `1..(1 << bits)` runs, the bounds being 32-bit signed integers. -/
def pow2Rounds (bits : ℕ) : Option ℕ :=
  if bits < 31 then some (2 ^ bits - 1) else if bits = 31 then some 0 else none

namespace QSStateProver

variable {M G PF F : Type} [Field PF] [Field F] [DecidableEq F] [Algebra PF F]

def initWithChi (chi : F) : QSStateProver F := ⟨chi, .default, 0⟩

def checkZero (self : QSStateProver F) (mp : HDMacProver F) : Option (QSStateProver F) :=
  if mp.value = 0 then do
    let state ← self.state.addAssign mp
    some ⟨self.chi, state.mulAssignConstant self.chi, self.count + 1⟩
  else none

def checkMult (cv : Convolve F) (self : QSStateProver F) (mpA mpB mpC : HDMacProver F) :
    Option (QSStateProver F) :=
  if mpA.value * mpB.value = mpC.value then do
    let mp ← (mpA.mulAssign cv mpB).subAssign mpC
    self.checkZero mp
  else none

/-- The product of `mp`, `mp - 1` and so on. -/
def rangeProduct (cv : Convolve F) (mp : HDMacProver F) : ℕ → HDMacProver F × F
  | 0 => (mp, 0)
  | n + 1 =>
    let (acc, cst) := rangeProduct cv mp n
    let cst := cst + 1
    (acc.mulAssign cv (mp.subAssignConstant cst), cst)

def checkPow2Range (cv : Convolve F) (self : QSStateProver F) (bits : ℕ) (mp : HDMacProver F) :
    Option (QSStateProver F) :=
  if 0 < bits then do
    let n ← pow2Rounds bits
    let acc := (rangeProduct cv mp n).1
    if acc.qsDegree = 2 ^ bits then self.checkZero acc else none
  else none

def reset (self : QSStateProver F) : QSStateProver F := ⟨self.chi, .default, 0⟩

def finalizeWithMask (self : QSStateProver F) (mask : GeneralPolynomial F) :
    Party M G (FComProver PF F) (GeneralPolynomial F × QSStateProver F) := do
  assert (self.state.poly.degree < self.state.qsDegree)
    "QS state should have a zero in the most significant coefficient"
  assert (mask.degree < self.state.qsDegree)
    "assertion failed: mask.degree() < self.state.qs_degree"
  pure (mask.addAssign self.state.poly, self.reset)

variable [FiniteField PF F]

/-- Add the voles of the coordinates `is` to the coefficients `j + 1` and `j` of the mask. -/
def maskStep (j : ℕ) (is : List (Fin (FiniteField.degree PF F))) (mask : GeneralPolynomial F) :
    Party M G (FComProver PF F) (GeneralPolynomial F) :=
  is.foldlM (fun mask i => do
    let u ← FComProver.random
    let xI := makeXI PF F i
    pure ((mask.addAt (j + 1) [u.value • xI]).addAt j [-(u.mac * xI)])) mask

/-- The steps for `j` from `n - 1` down to zero. -/
def maskLoop : ℕ → GeneralPolynomial F → Party M G (FComProver PF F) (GeneralPolynomial F)
  | 0, mask => pure mask
  | n + 1, mask => do
    let mask ← maskStep n (List.finRange (FiniteField.degree PF F)) mask
    maskLoop n mask

def finalize [CanonicalSerialize M F] (self : QSStateProver F) :
    Party M G (FComProver PF F) (QSStateProver F) := do
  let qsDegree := self.state.qsDegree
  assert (qsDegree ≠ 0) "assertion failed: qs_degree != 0"
  let mask ← maskLoop (qsDegree - 1) ⟨0, List.replicate (qsDegree - 1) 0⟩
  let (proof, self) ← self.finalizeWithMask mask
  let _ ← (List.range qsDegree).mapM fun j => writeSerializable (proof.coeff j)
  flush
  pure self

end QSStateProver

namespace QSStateVerifier

variable {M G PF F : Type} [Field PF] [Field F] [DecidableEq F] [Algebra PF F]

def initWithDeltaAndChi (delta chi : F) : QSStateVerifier F := ⟨delta, chi, .default, 0⟩

def checkZero (self : QSStateVerifier F) (mv : HDMacVerifier F) : QSStateVerifier F :=
  ⟨self.delta, self.chi, (self.state.addAssign self.delta mv).mulAssignConstant self.chi,
    self.count + 1⟩

def checkMult (self : QSStateVerifier F) (mvA mvB mvC : HDMacVerifier F) : QSStateVerifier F :=
  self.checkZero ((mvA.mulAssign mvB).subAssign self.delta mvC)

def rangeProduct (delta : F) (mv : HDMacVerifier F) : ℕ → HDMacVerifier F × F
  | 0 => (mv, 0)
  | n + 1 =>
    let (acc, cst) := rangeProduct delta mv n
    let cst := cst + 1
    (acc.mulAssign (mv.subAssignConstant delta cst), cst)

def checkPow2Range (self : QSStateVerifier F) (bits : ℕ) (mv : HDMacVerifier F) :
    Option (QSStateVerifier F) := do
  let n ← pow2Rounds bits
  some (self.checkZero (rangeProduct self.delta mv n).1)

def reset (self : QSStateVerifier F) : QSStateVerifier F := ⟨self.delta, self.chi, .default, 0⟩

def finalizeWithMaskAndVerify (self : QSStateVerifier F) (mask : F)
    (proof : GeneralPolynomial F) : Bool × QSStateVerifier F :=
  (decide (proof.degree < self.state.qsDegree ∧
    proof.eval self.delta = self.state.mac + mask), self.reset)

variable (PF) [FiniteField PF F]

/-- Subtract the voles of the coordinates `is`. -/
def maskStep (is : List (Fin (FiniteField.degree PF F))) (mask : F) :
    Party M G (FComVerifier F) F :=
  is.foldlM (fun mask i => do
    let v ← FComVerifier.random
    pure (mask - v.mac * makeXI PF F i)) mask

def maskLoop (delta : F) : ℕ → F → Party M G (FComVerifier F) F
  | 0, mask => pure mask
  | n + 1, mask => do
    let mask ← maskStep PF (List.finRange (FiniteField.degree PF F)) (mask * delta)
    maskLoop delta n mask

def finalizeAndVerify [CanonicalSerialize M F] (self : QSStateVerifier F) :
    Party M G (FComVerifier F) (Bool × QSStateVerifier F) := do
  assert (self.state.qsDegree ≠ 0) "assertion failed: self.state.qs_degree != 0"
  let mask ← maskLoop PF self.delta (self.state.qsDegree - 1) 0
  let proof : List F ← (List.range self.state.qsDegree).mapM fun _ => readSerializable
  match proof with
  | [] => pure (self.finalizeWithMaskAndVerify mask ⟨0, []⟩)
  | c :: cs => pure (self.finalizeWithMaskAndVerify mask ⟨c, cs⟩)

end QSStateVerifier

/-! ## Calls and rounds -/

/-- A call of one of the checks. -/
inductive QSCall (F : Type)
  | checkZero (mp : HDMacProver F)
  | checkMult (mpA mpB mpC : HDMacProver F)
  | checkPow2Range (bits : ℕ) (mp : HDMacProver F)

namespace QSCall

variable {M G PF F : Type} [Field PF] [Field F] [DecidableEq F] [Algebra PF F]

def prover (cv : Convolve F) (self : QSStateProver F) : QSCall F → Option (QSStateProver F)
  | checkZero mp => self.checkZero mp
  | checkMult mpA mpB mpC => self.checkMult cv mpA mpB mpC
  | checkPow2Range bits mp => self.checkPow2Range cv bits mp

/-- The same call on the verifier's side of the MACs. -/
def verifier (self : QSStateVerifier F) : QSCall F → Option (QSStateVerifier F)
  | checkZero mp => some (self.checkZero (mp.key self.delta))
  | checkMult mpA mpB mpC =>
    some (self.checkMult (mpA.key self.delta) (mpB.key self.delta) (mpC.key self.delta))
  | checkPow2Range bits mp => self.checkPow2Range bits (mp.key self.delta)

/-- The value that the call asserts to be zero. -/
def value : QSCall F → F
  | checkZero mp => mp.value
  | checkMult mpA mpB mpC => mpA.value * mpB.value - mpC.value
  | checkPow2Range bits mp => ∏ k ∈ Finset.range (2 ^ bits), (mp.value - k)

/-- The degree of the statement. -/
def degree : QSCall F → ℕ
  | checkZero mp => mp.qsDegree
  | checkMult mpA mpB mpC => max (mpA.qsDegree + mpB.qsDegree) mpC.qsDegree
  | checkPow2Range bits mp => 2 ^ bits * mp.qsDegree

/-- No MAC exceeds its degree, and the bound of a range is a positive 32-bit integer. -/
def WellFormed : QSCall F → Prop
  | checkZero mp => mp.poly.degree ≤ mp.qsDegree
  | checkMult mpA mpB mpC => mpA.poly.degree ≤ mpA.qsDegree ∧ mpB.poly.degree ≤ mpB.qsDegree ∧
    mpC.poly.degree ≤ mpC.qsDegree
  | checkPow2Range bits mp => mp.poly.degree ≤ mp.qsDegree ∧ 0 < bits ∧ bits < 31

end QSCall

/-- Make the calls, then finalize, once for each list of calls. -/
def QSStateProver.rounds {M G : Type} (PF : Type) {F : Type} [Field PF] [Field F] [DecidableEq F]
    [Algebra PF F] [FiniteField PF F] [CanonicalSerialize M F] (cv : Convolve F) :
    List (List (QSCall F)) → QSStateProver F → Party M G (FComProver PF F) (QSStateProver F)
  | [], self => pure self
  | calls :: rest, self =>
    match calls.foldlM (QSCall.prover cv) self with
    | none => abort "panic"
    | some self => do
      let self ← self.finalize
      QSStateProver.rounds PF cv rest self

/-- The verifier's results of the rounds. -/
def QSStateVerifier.rounds {M G : Type} (PF : Type) {F : Type} [Field PF] [Field F] [DecidableEq F]
    [Algebra PF F] [FiniteField PF F] [CanonicalSerialize M F] :
    List (List (QSCall F)) → QSStateVerifier F →
      Party M G (FComVerifier F) (List Bool × QSStateVerifier F)
  | [], self => pure ([], self)
  | calls :: rest, self =>
    match calls.foldlM QSCall.verifier self with
    | none => abort "panic"
    | some self => do
      let (verified, self) ← self.finalizeAndVerify PF
      let (results, self) ← QSStateVerifier.rounds PF rest self
      pure (verified :: results, self)

end EdaBitGen
