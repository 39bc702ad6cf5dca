import EdaBitGen.Inferno.Sharing

/-!
# One evaluation in the head

The prover shares the witness and the outputs of the multiplications, and compresses the check of the
multiplications in rounds, each with a challenge from the hashes of the parties.  The verifier runs
the same rounds on the shares of the opened parties.
-/

namespace EdaBitGen.Inferno

/-! ## Circuits -/

inductive Op (F : Type)
  | add (n m : ℕ)
  | mul (n m : ℕ)
  | sub (n m : ℕ)
  | constant (f : F)
  | copy (n : ℕ)

namespace Op

variable {F : Type}

def args : Op F → List ℕ
  | .add n m => [n, m]
  | .mul n m => [n, m]
  | .sub n m => [n, m]
  | .constant _ => []
  | .copy n => [n]

def isMul : Op F → Bool
  | .mul _ _ => true
  | _ => false

end Op

/-- A circuit whose operations read inputs and earlier results only. -/
structure Circuit (F : Type) where
  ops : List (Op F)
  ninputs : ℕ
  noutputs : ℕ
  noutputs_le : noutputs ≤ ops.length
  args_lt : ∀ p ∈ ops.zipIdx, ∀ n ∈ p.1.args, n < ninputs + p.2

namespace Circuit

variable {F : Type} [Field F] (circuit : Circuit F)

def nmuls : ℕ := (circuit.ops.filter Op.isMul).length

/-- All wires on an input. -/
def wires (inputs : List F) : List F :=
  circuit.ops.foldl (fun wires op =>
    wires ++ [match op with
      | .add n m => wires.getD n 0 + wires.getD m 0
      | .mul n m => wires.getD n 0 * wires.getD m 0
      | .sub n m => wires.getD n 0 - wires.getD m 0
      | .constant f => f
      | .copy n => wires.getD n 0]) inputs

/-- The output wires. -/
def eval (inputs : List F) : List F :=
  (circuit.wires inputs).drop ((circuit.wires inputs).length - circuit.noutputs)

/-- The wires so far with the inputs and outputs of the multiplications so far. -/
structure Trace (S : Type) where
  wires : List S
  xs : List S
  ys : List S
  zs : List S

/-- The evaluation on sharings with their secrets, with the draws for the output of each
multiplication. -/
def evalSecretSharing {N : ℕ} (inputs : List (SecretSharing F N)) (draws : ℕ → Fin N → F) :
    Option (SecretSharing F N × Trace (SecretSharing F N)) :=
  if inputs.length = circuit.ninputs ∧ circuit.noutputs = 1 then
    let trace := circuit.ops.foldl (fun t op =>
      let wire := fun n => t.wires.getD n 0
      match op with
      | .add n m => { t with wires := t.wires ++ [wire n + wire m] }
      | .sub n m => { t with wires := t.wires ++ [wire n - wire m] }
      | .mul n m =>
        let z := SecretSharing.new ((wire n).2 * (wire m).2) (draws t.zs.length)
        ⟨t.wires ++ [z], t.xs ++ [wire n], t.ys ++ [wire m], t.zs ++ [z]⟩
      | .constant f => { t with wires := t.wires ++ [SecretSharing.newNonRandom f] }
      | .copy n => { t with wires := t.wires ++ [wire n] })
      (⟨inputs, [], [], []⟩ : Trace (SecretSharing F N))
    some (trace.wires.getLastD 0, trace)
  else none

/-- The inputs of the multiplications, from sharings of the inputs and of their outputs. -/
def evalTrace {N : ℕ} (inputs mults : List (CorrectionSharing F N)) :
    Option (List (CorrectionSharing F N) × List (CorrectionSharing F N)) :=
  if inputs.length = circuit.ninputs ∧ mults.length = circuit.nmuls then
    let trace := circuit.ops.foldl (fun t op =>
      let wire := fun n => t.wires.getD n 0
      match op with
      | .add n m => { t with wires := t.wires ++ [wire n + wire m] }
      | .sub n m => { t with wires := t.wires ++ [wire n - wire m] }
      | .mul n m =>
        let z := mults.getD t.zs.length 0
        ⟨t.wires ++ [z], t.xs ++ [wire n], t.ys ++ [wire m], t.zs ++ [z]⟩
      | .constant f => { t with wires := t.wires ++ [CorrectionSharing.newNonRandom f] }
      | .copy n => { t with wires := t.wires ++ [wire n] })
      (⟨inputs, [], [], []⟩ : Trace (CorrectionSharing F N))
    some (trace.xs, trace.ys)
  else none

end Circuit

/-! ## Sizes and the cache -/

/-- The sizes that the code computes with floating point: the logarithm of the number of
multiplications rounded down, and the quotient of two lengths rounded up. -/
structure Float where
  log : ℕ → ℕ → ℕ
  ceilDiv : ℕ → ℕ → ℕ

/-- Sizes computed without rounding errors. -/
def exactFloat : Float where
  log n k := Nat.log k n
  ceilDiv n k := (n + k - 1) / k

def nrounds (float : Float) (nmuls compressionFactor : ℕ) : ℕ :=
  let n := float.log nmuls compressionFactor
  if n > 0 then n - 1 else n

/-- The points, and the sizes that something is computed for in advance: the numbers of chunks of the
evaluators and of the Newton polynomials, and those of the bases with whether the round is the final
one. -/
structure Cache (F : Type) where
  points : List F
  evaluatorSizes : Finset ℕ
  newtonSizes : Finset ℕ
  basesSizes : Finset (ℕ × Bool)

namespace Cache

variable {F : Type} [Field F] [DecidableEq F] (cache : Cache F)

def evaluators (n : ℕ) : Option (List F) :=
  if n ∈ cache.evaluatorSizes then some (LagrangeEvaluator.new (cache.points.take n)) else none

omit [Field F] [DecidableEq F] in
/-- The points of a Newton polynomial. -/
def newtonPolys (n : ℕ) : Option (List F) :=
  if n ∈ cache.newtonSizes then some (cache.points.take n) else none

omit [DecidableEq F] in
/-- The bases at the points behind the first `k`. -/
def newtonBases (k : ℕ) (finalRound : Bool) : Option (List (List F)) :=
  if (k, finalRound) ∈ cache.basesSizes then
    let nchunks := if finalRound then k + 1 else k
    let top := if finalRound then 2 * k + 1 else 2 * k - 1
    some ((List.range (top - k)).map fun u =>
      NewtonPolynomial.basisPolynomial (cache.points.take nchunks) (cache.points.getD (k + u) 0))
  else none

/-- The numbers of chunks of all rounds. -/
def chunkSizes (float : Float) (nmuls nrounds compressionFactor : ℕ) : Finset (ℕ × Bool) :=
  ((List.range (nrounds + 1)).foldl (fun acc i =>
    let dimension := float.ceilDiv acc.1 compressionFactor
    (dimension, insert (float.ceilDiv acc.1 dimension, decide (i = nrounds)) acc.2))
    (nmuls, (∅ : Finset (ℕ × Bool)))).2

omit [DecidableEq F] in
/-- The cache for a circuit, unless it needs more points than there are, or the prover reserves
fewer than no bases. -/
def new (float : Float) (generator : F) (nmuls compressionFactor : ℕ) (isProver : Bool) :
    Option (Cache F) :=
  let nrounds := nrounds float nmuls compressionFactor
  let sizes := chunkSizes float nmuls nrounds compressionFactor
  let nchunks := sizes.image fun s => if s.2 then s.1 + 1 else s.1
  if (∀ n ∈ nchunks, 0 < n ∧ 2 * n - 1 ≤ 2 * compressionFactor + 1) ∧
      (isProver = true → ∀ s ∈ sizes, s.2 = false → 2 ≤ s.1) then
    some {
      points := (List.range (2 * compressionFactor + 1)).map fun i => generator ^ (i + 1)
      evaluatorSizes := nchunks ∪ nchunks.image fun n => 2 * n - 1
      newtonSizes := if isProver then nchunks else ∅
      basesSizes := if isProver then sizes else ∅ }
  else none

end Cache

/-! ## Rounds -/

structure Round (S : Type) where
  xs : List S
  ys : List S
  z : Option S

section Rounds

variable {Fp F : Type} [Field Fp] [Field F] [Algebra Fp F] [DecidableEq F]

/-- Lift the inputs of the multiplications, each pair with a power of the challenge. -/
def round1 {SP S : Type} [AddCommMonoid S] [LinearSharing F SP S] (xs ys mults : List SP)
    (challenge : F) : Round S :=
  let powers := fun i => (fun r : F => r * r)^[i] challenge
  { xs := (xs.zip (ys.zip mults)).mapIdx fun i p =>
      LinearSharing.multiplyBySuperfield p.1 (powers i)
    ys := (xs.zip (ys.zip mults)).map fun p => LinearSharing.liftIntoSuperfield F p.2.1
    z := some ((xs.zip (ys.zip mults)).mapIdx fun i p =>
      (LinearSharing.multiplyBySuperfield p.2.2 (powers i) : S)).sum }

/-- The entries at `i` of the chunks, zero behind the end of the last one. -/
def column {S : Type} [Zero S] (dimension : ℕ) (xs : List S) (i : ℕ) : List S :=
  (Chunks.all dimension xs).map fun chunk => chunk.getD i 0

variable {N : ℕ}

/-- The draws of the parties in a compression round. -/
structure RoundDraws (F : Type) (N : ℕ) where
  hs : ℕ → Fin N → F
  rands : ℕ → (Fin N → F) × (Fin N → F)

/-- The prover's first half of a compression: the sharings of the products of the chunks and of the
values of their polynomial at the other points, and the masks in the final round. -/
def roundCompressStart (float : Float) (round : Round (SecretSharing F N)) (k : ℕ)
    (finalRound : Bool) (cache : Cache F) (draws : RoundDraws F N) :
    Option (List (SecretSharing F N) × List (SecretSharing F N × SecretSharing F N)) := do
  let dimension := float.ceilDiv round.xs.length k
  if dimension = 0 then none else
  let chunksX := Chunks.all dimension round.xs
  let chunksY := Chunks.all dimension round.ys
  let k := chunksX.length
  if k = 0 then none else
  let nchunks := if finalRound then k + 1 else k
  let cs := List.zipWith SecretSharing.dot (chunksX.take (k - 1)) (chunksY.take (k - 1))
  let z ← round.z
  let poly ← cache.newtonPolys nchunks
  let bases ← cache.newtonBases k finalRound
  let rands := if finalRound then
      (List.range dimension).map fun i =>
        (SecretSharing.random (draws.rands i).1, SecretSharing.random (draws.rands i).2)
    else []
  let mask := fun x : SecretSharing F N => if finalRound then [x.2] else []
  let dots := bases.map fun basis =>
    ((List.range dimension).map fun i =>
      let rand := rands.getD i (0, 0)
      let f := NewtonPolynomial.interpolate poly ((column dimension round.xs i).map (·.2) ++
        mask rand.1)
      let g := NewtonPolynomial.interpolate poly ((column dimension round.ys i).map (·.2) ++
        mask rand.2)
      NewtonPolynomial.evalWithBasisPolynomial basis f *
        NewtonPolynomial.evalWithBasisPolynomial basis g).sum
  let values := cs ++ [z.2 - cs.sum] ++ dots
  some (values.mapIdx fun i value => SecretSharing.new value (draws.hs i), rands)

/-- The second half of a compression, of the prover and of the verifier: all polynomials at the
challenge. -/
def roundCompressFinish {S : Type} [AddCommMonoid S] [SMul F S] (float : Float) (input : Round S)
    (compressionFactor : ℕ) (finalRound : Bool) (cache : Cache F) (challenge : F)
    (rands : List (S × S)) (hs : List S) : Option (Round S) := do
  let dimension := float.ceilDiv input.xs.length compressionFactor
  if dimension = 0 ∨ (finalRound ∧ rands.length < dimension) then none else
  let chunks := (Chunks.all dimension input.xs).length
  let nchunks := if finalRound then chunks + 1 else chunks
  if cache.points.length < 2 * nchunks - 1 then none else
  let evaluator ← cache.evaluators nchunks
  let polynomial := basisPolynomial evaluator (cache.points.take nchunks) challenge
  let mask := fun x : S => if finalRound then [x] else []
  let fs := (List.range dimension).map fun i =>
    evalWithBasisPolynomial (column dimension input.xs i ++ mask (rands.getD i (0, 0)).1) polynomial
  let gs := (List.range dimension).map fun i =>
    evalWithBasisPolynomial (column dimension input.ys i ++ mask (rands.getD i (0, 0)).2) polynomial
  let evaluator ← cache.evaluators (2 * nchunks - 1)
  let z := evalWithBasisPolynomial hs
    (basisPolynomial evaluator (cache.points.take (2 * nchunks - 1)) challenge)
  some ⟨fs, gs, some z⟩

end Rounds

end EdaBitGen.Inferno
