import EdaBitGen.Algebra.Numerals
import EdaBitGen.Data.Lists
import EdaBitGen.HdQuicksilver.Soundness

/-!
# Range checks

An interval is covered by two shifted copies of the values of `m` bits.  A value of `m` bits is
checked at once, or in chunks that the prover commits to.
-/

namespace EdaBitGen

open Coefficients Interaction Party Limbs

/-! ## The bounds -/

/-- A signed number in a prime field. -/
def signed (P : ℕ) (x : ℤ) : ZMod P :=
  if x < 0 then -(x.natAbs : ZMod P) else x.natAbs

/-- The number of bits of an interval, and the constants that shift its two copies.  The number `p`
is one less than the modulus. -/
def qsRangeCheckPrepare (P : ℕ) (lowerBound upperBound : ℤ) : Option (ℕ × ZMod P × ZMod P) :=
  let p : ℤ := ((-1 : ZMod P).val : ℤ)
  if (0 < p ∧ p < 2 ^ 127) ∧ (-p + 1).tdiv 2 < lowerBound ∧ lowerBound < upperBound ∧
      upperBound < (p - 1).tdiv 2 then
    let m := Nat.clog 2 (upperBound - lowerBound).toNat
    if upperBound - lowerBound < 2 ^ m ∧ 2 ^ m < (p - 1).tdiv 2 then
      some (m, signed P lowerBound, signed P (2 ^ m - upperBound - 1))
    else none
  else none

/-! ## Both parties -/

section Check

variable {P : ℕ} {F : Type} [Fact P.Prime] [Field F] [DecidableEq F] [Algebra (ZMod P) F]
  [FiniteField (ZMod P) F]

/-- The coordinates of a value over the prime field. -/
def decompose (P : ℕ) [Fact P.Prime] [Algebra (ZMod P) F] [FiniteField (ZMod P) F] (x : F) :
    Fin (FiniteField.degree (ZMod P) F) → ZMod P :=
  FiniteField.fromSubfield.symm x

/-- The first coordinate as a number. -/
def valAsInt (P : ℕ) [Fact P.Prime] [Algebra (ZMod P) F] [FiniteField (ZMod P) F] (x : F) : ℕ :=
  if h : 0 < FiniteField.degree (ZMod P) F then (decompose P x ⟨0, h⟩).val else 0

/-- The value is of the prime field. -/
def IsPrimeValue (P : ℕ) [Fact P.Prime] [Algebra (ZMod P) F] [FiniteField (ZMod P) F] (x : F) :
    Prop :=
  ∀ i : Fin (FiniteField.degree (ZMod P) F), (i : ℕ) ≠ 0 → decompose P x i = 0

instance (x : F) : Decidable (IsPrimeValue P x) := by
  unfold IsPrimeValue
  infer_instance

/-- The coordinates are those of a basis that starts with one. -/
class PrimeFirst (P : ℕ) (F : Type) [Fact P.Prime] [Field F] [Algebra (ZMod P) F]
    [FiniteField (ZMod P) F] : Prop where
  decompose_algebraMap : ∀ (x : ZMod P) (i : Fin (FiniteField.degree (ZMod P) F)),
    decompose P (algebraMap (ZMod P) F x) i = if (i : ℕ) = 0 then x else 0

instance : PrimeFirst P (ZMod P) where
  decompose_algebraMap x i := by
    have hi : (i : ℕ) = 0 := by
      have hlt : (i : ℕ) < 1 := i.2
      omega
    rw [if_pos hi]
    rfl

/-- The values of the chunks, the lowest first, unless a debug assertion fails. -/
def chunkValues (P : ℕ) [Fact P.Prime] [Algebra (ZMod P) F] [FiniteField (ZMod P) F]
    (debugAssertions : Bool) (bits maxChunkSize : ℕ) (x : F) : Option (List (ZMod P)) :=
  let numChunks := numChunks bits maxChunkSize
  let val := valAsInt P x
  let chunks := (List.range (numChunks - 1)).map (limb maxChunkSize val)
  let last := val >>> ((numChunks - 1) * maxChunkSize)
  if debugAssertions = true → IsPrimeValue P x ∧ val < 2 ^ bits ∧
      (∀ c ∈ chunks, c < 2 ^ maxChunkSize) ∧ last < 2 ^ lastChunkSize bits maxChunkSize then
    some ((chunks ++ [last]).map (↑))
  else none

/-- The number of bits of the chunk at `i` of all chunks. -/
def chunkSize (bits maxChunkSize i : ℕ) : ℕ :=
  let numChunks := numChunks bits maxChunkSize
  if i % numChunks = numChunks - 1 then lastChunkSize bits maxChunkSize else maxChunkSize

attribute [local instance] atLeastTwo_two in
/-- What is asserted about the values and their chunks: the values are what the chunks make, and the
chunks are of their sizes. -/
def chunkCalls (bits maxChunkSize : ℕ) (mps chunks : List (HDMacProver F)) :
    Option (List (QSCall F)) := do
  let accs ← (mps.zip (Chunks.exact (numChunks bits maxChunkSize) chunks)).mapM fun p =>
    p.2.zipIdx.foldlM (fun acc c =>
      acc.subAssign (c.1.mulAssignConstant (2 ^ (c.2 * maxChunkSize)))) p.1
  some (accs.map .checkZero ++
    chunks.mapIdx fun i c => .checkPow2Range (chunkSize bits maxChunkSize i) c)

/-- What is asserted about values of a number of bits, with the chunks if there are any. -/
def pow2RangeCalls (bits maxChunkSize : ℕ) (mps chunks : List (HDMacProver F)) :
    Option (List (QSCall F)) :=
  if bits ≤ maxChunkSize then some (mps.map (.checkPow2Range bits))
  else chunkCalls bits maxChunkSize mps chunks

/-- The weights of the chunks are numbers of the prime field, to which they are converted. -/
def WeightsFit (P bits maxChunkSize : ℕ) : Prop :=
  ∀ i < numChunks bits maxChunkSize, 2 ^ (i * maxChunkSize) < P

instance (P bits maxChunkSize : ℕ) : Decidable (WeightsFit P bits maxChunkSize) := by
  unfold WeightsFit
  infer_instance

omit [Fact P.Prime] [Algebra (ZMod P) F] [FiniteField (ZMod P) F] [DecidableEq F] in
/-- Each value less the lower bound, and shifted so that the upper bound is the highest of its
copy. -/
def copies (a c : F) (mps : List (HDMacProver F)) : List (HDMacProver F) :=
  mps.flatMap fun mp => [mp.subAssignConstant a, mp.addAssignConstant c]

variable {M D : Type} [CanonicalSerialize M (ZMod P)] [CanonicalSerialize M F]

/-- The proof starts with the verifier's challenge, and then makes the checks. -/
def QSStateProver.runCalls {G : Type} (P : ℕ) [Algebra (ZMod P) F] (cv : Convolve F)
    (calls : Option (List (QSCall F))) : Party M G (FComProver (ZMod P) F) (QSStateProver F) := do
  let chi ← readSerializable
  match calls.bind fun calls => calls.foldlM (QSCall.prover cv) (.initWithChi chi) with
  | some qs => pure qs
  | none => abort "panic"

def qsProverCheckPow2RangeInChunks {G : Type} (cv : Convolve F) (debugAssertions : Bool)
    (bits maxChunkSize : ℕ) (mps : List (HDMacProver F)) :
    Party M G (FComProver (ZMod P) F) (QSStateProver F) := do
  assert (0 < bits) "assertion failed: bits > 0"
  assert (0 < maxChunkSize) "assertion failed: max_chunk_size > 0"
  if bits ≤ maxChunkSize then
    QSStateProver.runCalls P cv (pow2RangeCalls bits maxChunkSize mps [])
  else
    match mps.mapM fun mp => chunkValues P debugAssertions bits maxChunkSize mp.value with
    | none => abort "panic"
    | some values =>
      let chunks : List (HDMacProver F) ← values.flatten.mapM fun (value : ZMod P) => do
        let mac ← FComProver.input1 value
        pure (.ofMac ⟨value, mac⟩)
      flush
      QSStateProver.runCalls P cv (if mps = [] ∨ WeightsFit P bits maxChunkSize then
        pow2RangeCalls bits maxChunkSize mps chunks else none)

def qsProverCheckRange {G : Type} (cv : Convolve F) (debugAssertions : Bool)
    (lowerBound upperBound : ℤ) (maxChunkSize : ℕ) (mps : List (HDMacProver F)) :
    Party M G (FComProver (ZMod P) F) (QSStateProver F) :=
  match qsRangeCheckPrepare P lowerBound upperBound with
  | none => abort "panic"
  | some (m, a, c) => do
    assert (debugAssertions = true → ∀ mp ∈ mps, IsPrimeValue P mp.value ∧
      lowerBound < valAsInt P mp.value ∧ valAsInt P mp.value < upperBound) "panic"
    qsProverCheckPow2RangeInChunks cv debugAssertions m maxChunkSize
      (copies (algebraMap (ZMod P) F a) (algebraMap (ZMod P) F c) mps)

attribute [local instance] atLeastTwo_two in
omit [Fact P.Prime] [Algebra (ZMod P) F] [FiniteField (ZMod P) F] [DecidableEq F] in
/-- The verifier's checks of the values and their chunks. -/
def QSStateVerifier.checkChunks (bits maxChunkSize : ℕ) (mvs chunks : List (HDMacVerifier F))
    (qs : QSStateVerifier F) : Option (QSStateVerifier F) :=
  let delta := qs.delta
  let qs := (mvs.zip (Chunks.exact (numChunks bits maxChunkSize) chunks)).foldl
    (fun (qs : QSStateVerifier F) p => qs.checkZero (p.2.zipIdx.foldl (fun acc c =>
      acc.subAssign delta (c.1.mulAssignConstant (2 ^ (c.2 * maxChunkSize)))) p.1)) qs
  chunks.zipIdx.foldlM (fun qs c => qs.checkPow2Range (chunkSize bits maxChunkSize c.2) c.1) qs

variable [Random D F]

def qsVerifierCheckPow2RangeInChunks (P : ℕ) [Fact P.Prime] [Algebra (ZMod P) F]
    [FiniteField (ZMod P) F] [CanonicalSerialize M (ZMod P)] (bits maxChunkSize : ℕ)
    (mvs : List (HDMacVerifier F)) :
    Party M (Stream' D) (FComVerifier F) (QSStateVerifier F) := do
  assert (0 < bits) "assertion failed: bits > 0"
  assert (0 < maxChunkSize) "assertion failed: max_chunk_size > 0"
  let numChunks := numChunks bits maxChunkSize
  let checked : Option (QSStateVerifier F) ←
    if bits ≤ maxChunkSize then do
      let delta := (← get).delta
      let chi ← random F
      writeSerializable chi
      flush
      pure (mvs.foldlM (fun qs mv => qs.checkPow2Range bits mv) (.initWithDeltaAndChi delta chi))
    else do
      let chunks : List (HDMacVerifier F) ← (List.range (mvs.length * numChunks)).mapM fun _ => do
        let mv ← FComVerifier.input1 (ZMod P)
        pure (.ofMac mv)
      flush
      let delta := (← get).delta
      let chi ← random F
      writeSerializable chi
      flush
      pure (if mvs = [] ∨ WeightsFit P bits maxChunkSize then
        (QSStateVerifier.initWithDeltaAndChi delta chi).checkChunks bits maxChunkSize mvs chunks
        else none)
  match checked with
  | some qs => pure qs
  | none => abort "panic"

def qsVerifierCheckRange (P : ℕ) [Fact P.Prime] [Algebra (ZMod P) F] [FiniteField (ZMod P) F]
    [CanonicalSerialize M (ZMod P)] (lowerBound upperBound : ℤ) (maxChunkSize : ℕ)
    (mvs : List (HDMacVerifier F)) :
    Party M (Stream' D) (FComVerifier F) (QSStateVerifier F) :=
  match qsRangeCheckPrepare P lowerBound upperBound with
  | none => abort "panic"
  | some (m, a, c) => do
    let delta := (← get).delta
    qsVerifierCheckPow2RangeInChunks P m maxChunkSize
      (mvs.flatMap fun mv => [mv.subAssignConstant delta (algebraMap (ZMod P) F a),
        mv.addAssignConstant delta (algebraMap (ZMod P) F c)])

/-! ## The property -/

/-- A residue of a number of the interval. -/
def Inside (lowerBound upperBound : ℤ) (x : ZMod P) : Prop :=
  ∃ v : ℤ, lowerBound ≤ v ∧ v ≤ upperBound ∧ x = (v : ZMod P)

/-- On committed values of the interval both parties complete the check and the proof, and the
verifier accepts; and whatever chunks are committed to, what is asserted holds of values of the
interval only. -/
structure RangeExact (M D P F) [Fact P.Prime] [Field F] [DecidableEq F] [Algebra (ZMod P) F]
    [FiniteField (ZMod P) F] [CanonicalSerialize M (ZMod P)] [CanonicalSerialize M F] [Random D F]
    (cv : Convolve F) (debugAssertions : Bool) (lowerBound upperBound : ℤ) (maxChunkSize : ℕ) :
    Prop where
  complete : ∀ (Δ : F) (xs : List (MacProver (ZMod P) F)),
    (∀ x ∈ xs, Inside lowerBound upperBound x.value) →
      Sync (Correlated Δ)
        (do
          let qs ← qsProverCheckRange cv debugAssertions lowerBound upperBound maxChunkSize
            (xs.map .ofMac)
          qs.finalize : Party M (Stream' D) (FComProver (ZMod P) F) _)
        (do
          let qs ← qsVerifierCheckRange P lowerBound upperBound maxChunkSize
            (xs.map fun x => .ofMac (x.key Δ))
          qs.finalizeAndVerify (ZMod P) : Party M (Stream' D) (FComVerifier F) _)
        fun _ r => r.1 = true
  sound : ∀ (xs chunks : List (MacProver (ZMod P) F)) (m : ℕ) (a c : ZMod P)
    (calls : List (QSCall F)),
    qsRangeCheckPrepare P lowerBound upperBound = some (m, a, c) →
    (¬ m ≤ maxChunkSize → chunks.length = 2 * xs.length * numChunks m maxChunkSize) →
    pow2RangeCalls m maxChunkSize (copies (algebraMap (ZMod P) F a) (algebraMap (ZMod P) F c)
      (xs.map .ofMac)) (chunks.map .ofMac) = some calls →
    (∀ call ∈ calls, call.value = 0) → ∀ x ∈ xs, Inside lowerBound upperBound x.value

end Check

end EdaBitGen
