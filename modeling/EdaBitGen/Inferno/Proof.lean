import EdaBitGen.Inferno.Model

/-!
# The proof of one evaluation

The verifier recomputes the shares of the opened parties from their seeds, takes the hashes of the
unopened party from the proof, and compares the shares of the last round with those of the prover.
-/

namespace EdaBitGen.Inferno

/-! ## Hashes -/

/-- The hash of a party's trace, and the output of the keyed hash of all parties' hashes. -/
structure HashOracle (Hash : Type) where
  finalize : List UInt8 → Hash
  xof : ℕ → List Hash → ℕ → List UInt8

inductive Party (Hash : Type)
  | prover
  | verifier (id : ℕ) (hash : Hash)

/-- The input of each party's hasher, and the number of outputs so far. -/
structure Hashers (N : ℕ) where
  hashers : Fin N → List UInt8
  count : ℕ

namespace Hashers

variable {N : ℕ} {Hash : Type} (oracle : HashOracle Hash)

def new (N : ℕ) : Hashers N := ⟨fun _ => [], 0⟩

/-- The hashes that are combined: for a verifier, the given one in place of the unopened party's. -/
def combined (hashers : Hashers N) (party : Party Hash) : List Hash :=
  List.ofFn fun i => match party with
    | .prover => oracle.finalize (hashers.hashers i)
    | .verifier id hash => if (i : ℕ) = id then hash else oracle.finalize (hashers.hashers i)

/-- The first bytes of an output. -/
def output (hashers : Hashers N) (party : Party Hash) (n : ℕ) : List UInt8 × Hashers N :=
  (oracle.xof hashers.count (hashers.combined oracle party) n,
    { hashers with count := hashers.count + 1 })

def extractUnopenedParty (hashers : Hashers N) (party : Party Hash) (n : ℕ) : ℕ :=
  ((hashers.output oracle party 1).1.getD 0 0).toNat % n

def extractChallenge {F : Type} (fromUniformBytes : List UInt8 → F) (hashers : Hashers N)
    (party : Party Hash) : F × Hashers N :=
  let (result, hashers) := hashers.output oracle party 16
  (fromUniformBytes result, hashers)

/-- Each party's share is hashed by its hasher, the correction by none. -/
def hashSharing {F : Type} (toBytes : F → List UInt8) (hashers : Hashers N)
    (s : CorrectionSharing F N) : Hashers N :=
  { hashers with hashers := fun i => hashers.hashers i ++ toBytes (s.1 i) }

def hashCircuitSharing {F : Type} (toBytes : F → List UInt8) (hashers : Hashers N)
    (witness mults : List (CorrectionSharing F N)) : Hashers N :=
  mults.foldl (hashSharing toBytes) (witness.foldl (hashSharing toBytes) hashers)

def hashRound {F : Type} (toBytes : F → List UInt8) (hashers : Hashers N)
    (hs : List (CorrectionSharing F N)) : Hashers N :=
  hs.foldl (hashSharing toBytes) hashers

end Hashers

/-! ## The proof -/

/-- The prover's shares of the last round and of the circuit's output. -/
structure OutputShares (Fp F : Type) (N : ℕ) where
  fs : List (CorrectionSharing F N)
  gs : List (CorrectionSharing F N)
  h : CorrectionSharing F N
  output : CorrectionSharing Fp N

/-- The seeds of the opened parties, the corrections, and the shares that do not come from seeds. -/
structure OpenedPartiesShares (Fp F : Type) (N : ℕ) where
  seeds : List ℕ
  witness : List Fp
  mults : List Fp
  hs : List (List (CorrectionSharing F N))
  rands : List (CorrectionSharing F N × CorrectionSharing F N)

structure UnopenedParty (Hash : Type) where
  id : ℕ
  commitments : List Hash
  finalCommitment : Hash

structure ProofSingle (Fp F : Type) (N : ℕ) (Hash : Type) where
  output : OutputShares Fp F N
  shares : OpenedPartiesShares Fp F N
  unopened : UnopenedParty Hash

/-- How the verifier fails. -/
inductive Failure
  | panic
  | error (msg : String)

/-- The generators of the parties, and the encodings of both fields. -/
structure Encoding (Fp F : Type) where
  Rng : Type
  fromSeed : ℕ → Rng
  random : Rng → Fp × Rng
  toBytesPrime : Fp → List UInt8
  toBytes : F → List UInt8
  fromUniformBytes : List UInt8 → F

section Prover

variable {Fp F : Type} [Field Fp] [Field F] [Algebra Fp F] [DecidableEq F] {N : ℕ}

/-- The draws of the parties, by the sharings that they are for. -/
structure ProverDraws (Fp F : Type) (N : ℕ) where
  witness : ℕ → Fin N → Fp
  mults : ℕ → Fin N → Fp
  rounds : ℕ → RoundDraws F N

def OutputShares.new (round : Round (SecretSharing F N)) (output : SecretSharing Fp N) :
    Option (OutputShares Fp F N) :=
  round.z.map fun z => ⟨round.xs.map (·.1), round.ys.map (·.1), z.1, output.1⟩

/-- Both halves of the prover's compression. -/
def proverRound (float : Float) (compressionFactor : ℕ) (finalRound : Bool) (cache : Cache F)
    (challenge : F) (draws : RoundDraws F N) (round : Round (SecretSharing F N)) :
    Option (Round (SecretSharing F N)) := do
  let (hs, rands) ← roundCompressStart float round compressionFactor finalRound cache draws
  roundCompressFinish float round compressionFactor finalRound cache challenge rands hs

/-- The prover's output shares, for the challenges that it gets from the hashes. -/
def ProofSingle.prove (float : Float) (circuit : Circuit Fp) (witness : List Fp)
    (compressionFactor : ℕ) (cache : Cache F) (challenges : ℕ → F) (draws : ProverDraws Fp F N) :
    Option (OutputShares Fp F N) := do
  let nrounds := nrounds float circuit.nmuls compressionFactor
  let ws := witness.mapIdx fun i w => SecretSharing.new w (draws.witness i)
  let (output, trace) ← circuit.evalSecretSharing ws draws.mults
  let round : Round (SecretSharing F N) := round1 trace.xs trace.ys trace.zs (challenges 0)
  if nrounds > 0 then
    let round ← (List.range (nrounds + 1)).foldlM (fun round i =>
      proverRound float compressionFactor (i = nrounds) cache (challenges (i + 1)) (draws.rounds i)
        round) round
    OutputShares.new round output
  else OutputShares.new round output

end Prover

/-! ## The verifier -/

section Verifier

variable {Fp F : Type} [Field Fp] [Field F] [Algebra Fp F] [DecidableEq Fp] [DecidableEq F] {N : ℕ}

/-- One share of each party from its generator, for each correction. -/
def OpenedPartiesShares.reconstruct (enc : Encoding Fp F) (corrections : List Fp)
    (rngs : Fin N → enc.Rng) : List (CorrectionSharing Fp N) × (Fin N → enc.Rng) :=
  corrections.foldl (fun acc correction =>
    (acc.1 ++ [(fun i => (enc.random (acc.2 i)).1, correction)], fun i => (enc.random (acc.2 i)).2))
    ([], rngs)

omit [Field Fp] [Field F] [Algebra Fp F] [DecidableEq Fp] [DecidableEq F] in
theorem length_reconstruct (enc : Encoding Fp F) (corrections : List Fp) (rngs : Fin N → enc.Rng) :
    (OpenedPartiesShares.reconstruct enc corrections rngs).1.length = corrections.length := by
  let step : List (CorrectionSharing Fp N) × (Fin N → enc.Rng) → Fp →
      List (CorrectionSharing Fp N) × (Fin N → enc.Rng) := fun acc correction =>
    (acc.1 ++ [(fun i => (enc.random (acc.2 i)).1, correction)], fun i => (enc.random (acc.2 i)).2)
  have hfold : ∀ acc, (corrections.foldl step acc).1.length = acc.1.length + corrections.length := by
    induction corrections with
    | nil => exact fun acc => rfl
    | cons c corrections ih =>
      intro acc
      rw [List.foldl_cons, ih, List.length_append, List.length_singleton, List.length_cons]
      omega
  exact (hfold ([], rngs)).trans (Nat.zero_add _)

/-- A check that ends the verification when it does not hold. -/
def ensure (b : Bool) (failure : Failure) : Except Failure Unit :=
  if b then pure () else throw failure

/-- What a lookup that has to succeed gives. -/
def orPanic {α : Type} : Option α → Except Failure α
  | some a => pure a
  | none => throw .panic

/-- The shares in the last round are the prover's for all parties but one. -/
def OutputShares.verifyLastRound (o : OutputShares Fp F N) (round : Round (CorrectionSharing F N))
    (exclude : ℕ) : Except Failure Unit := do
  ensure (exclude < N) .panic
  (o.fs.zip round.xs).forM fun p =>
    ensure (CorrectionSharing.checkEquality p.1 p.2 exclude) (.error "`f` shares not equal")
  (o.gs.zip round.ys).forM fun p =>
    ensure (CorrectionSharing.checkEquality p.1 p.2 exclude) (.error "`g` shares not equal")
  let z ← orPanic round.z
  ensure (CorrectionSharing.checkEquality o.h z exclude) (.error "`h` shares not equal")

/-- The output is zero, and the last vectors have the claimed product. -/
def OutputShares.verify (o : OutputShares Fp F N) : Except Failure Unit := do
  ensure (CorrectionSharing.reconstruct o.output = 0) (.error "Output not equal to zero")
  let sum := (List.zipWith (fun f g =>
    CorrectionSharing.reconstruct f * CorrectionSharing.reconstruct g) o.fs o.gs).sum
  ensure (sum = CorrectionSharing.reconstruct o.h) (.error "Dot product not equal to `h`")

def UnopenedParty.verifyId {Hash : Type} (u : UnopenedParty Hash) (id : ℕ) : Except Failure Unit :=
  ensure (id = u.id) (.error "Incorrect party ID encountered")

variable {Hash : Type} (float : Float) (enc : Encoding Fp F) (oracle : HashOracle Hash)

/-- The compressions on the shares of the opened parties, as many as the proof has, with the hashes
of the unopened party. -/
def ProofSingle.replayRounds (nrounds compressionFactor : ℕ) (cache : Cache F)
    (proof : ProofSingle Fp F N Hash) (round : Round (CorrectionSharing F N))
    (hashers : Hashers N) : Except Failure (Round (CorrectionSharing F N) × Hashers N) :=
  if nrounds > 0 then
    (proof.shares.hs.zip (proof.unopened.commitments.drop 1)).zipIdx.foldlM (fun acc p => do
      let hashers := acc.2.hashRound enc.toBytes p.1.1
      let (challenge, hashers) := hashers.extractChallenge oracle enc.fromUniformBytes
        (.verifier proof.unopened.id p.1.2)
      let round ← orPanic (roundCompressFinish float { acc.1 with z := none } compressionFactor
        (p.2 = nrounds) cache challenge proof.shares.rands p.1.1)
      pure (round, hashers)) (round, hashers)
  else pure (round, hashers)

def ProofSingle.verify (circuit : Circuit Fp) (compressionFactor : ℕ) (cache : Cache F)
    (proof : ProofSingle Fp F N Hash) : Except Failure Unit := do
  let nrounds := nrounds float circuit.nmuls compressionFactor
  -- The number of parties has to be a power of two, and each party has a seed.
  ensure (decide (N.isPowerOfTwo) && proof.shares.seeds.length == N) .panic
  let rngs : Fin N → enc.Rng := fun i => enc.fromSeed (proof.shares.seeds.getD i 0)
  let (witness, rngs) := OpenedPartiesShares.reconstruct enc proof.shares.witness rngs
  let (mults, _) := OpenedPartiesShares.reconstruct enc proof.shares.mults rngs
  let hashers := (Hashers.new N).hashCircuitSharing enc.toBytesPrime witness mults
  let com ← orPanic proof.unopened.commitments.head?
  let (challenge, hashers) := hashers.extractChallenge oracle enc.fromUniformBytes
    (.verifier proof.unopened.id com)
  let (xs, ys) ← orPanic (circuit.evalTrace witness mults)
  let round : Round (CorrectionSharing F N) := round1 xs ys mults challenge
  let (round, hashers) ← proof.replayRounds float enc oracle nrounds compressionFactor cache round
    hashers
  let id := hashers.extractUnopenedParty oracle
    (.verifier proof.unopened.id proof.unopened.finalCommitment) N
  proof.unopened.verifyId id
  proof.output.verifyLastRound round id
  proof.output.verify

end Verifier

end EdaBitGen.Inferno
