import EdaBitGen.Fields
import EdaBitGen.Inferno.Proof

/-!
# A forged proof

The verifier checks the shares of the last round over the vectors that the prover sent, and neither
their corrections nor the sharing of the output.  So a prover that follows the protocol up to the
first challenge may send no rounds, no vectors, and corrections and an output of its choice.
-/

namespace EdaBitGen.Inferno

section Forge

variable {Fp F : Type} [Field Fp] [Field F] [Algebra Fp F] [DecidableEq F] {N : ℕ} {Hash : Type}

variable (N) in
/-- The sharings of the zero witness and of zero outputs of all multiplications, for the seeds zero. -/
def forgedSharings (enc : Encoding Fp F) (circuit : Circuit Fp) :
    List (CorrectionSharing Fp N) × List (CorrectionSharing Fp N) :=
  let rngs : Fin N → enc.Rng := fun _ => enc.fromSeed 0
  let (witness, rngs) := OpenedPartiesShares.reconstruct enc (List.replicate circuit.ninputs 0) rngs
  (witness, (OpenedPartiesShares.reconstruct enc (List.replicate circuit.nmuls 0) rngs).1)

variable (N) in
def forgedHashers (enc : Encoding Fp F) (circuit : Circuit Fp) : Hashers N :=
  let (witness, mults) := forgedSharings N enc circuit
  (Hashers.new N).hashCircuitSharing enc.toBytesPrime witness mults

variable (N) in
/-- The share of the product at the first challenge. -/
def forgedProduct (enc : Encoding Fp F) (oracle : HashOracle Hash) (circuit : Circuit Fp) :
    CorrectionSharing F N :=
  let (witness, mults) := forgedSharings N enc circuit
  let challenge := ((forgedHashers N enc circuit).extractChallenge oracle enc.fromUniformBytes
    .prover).1
  let (xs, ys) := (circuit.evalTrace witness mults).getD ([], [])
  ((round1 xs ys mults challenge : Round (CorrectionSharing F N)).z).getD 0

variable (N) in
/-- The party that the hashes ask to leave unopened. -/
def forgedId (enc : Encoding Fp F) (oracle : HashOracle Hash) (circuit : Circuit Fp) : ℕ :=
  let hashers := forgedHashers N enc circuit
  (hashers.extractChallenge oracle enc.fromUniformBytes .prover).2.extractUnopenedParty oracle
    .prover N

variable (N) in
/-- The proof: no rounds, no vectors, and a correction that makes the product zero. -/
def forge (enc : Encoding Fp F) (circuit : Circuit Fp) (oracle : HashOracle Hash) :
    ProofSingle Fp F N Hash :=
  let id := forgedId N enc oracle circuit
  let com := oracle.finalize (if h : id < N then (forgedHashers N enc circuit).hashers ⟨id, h⟩ else [])
  let shares := (forgedProduct N enc oracle circuit).1
  { output := ⟨[], [], (shares, -∑ i, shares i), 0⟩
    shares := ⟨List.replicate N 0, List.replicate circuit.ninputs 0, List.replicate circuit.nmuls 0,
      [], []⟩
    unopened := ⟨id, [com], com⟩ }

omit [Algebra Fp F] [DecidableEq F] in
/-- With the honest hash of the unopened party, the verifier combines what the prover combines. -/
theorem combined_verifier (oracle : HashOracle Hash) (hashers : Hashers N) {id : ℕ} (hid : id < N) :
    hashers.combined oracle (.verifier id (oracle.finalize (hashers.hashers ⟨id, hid⟩))) =
      hashers.combined oracle .prover := by
  refine congrArg List.ofFn (funext fun i => ?_)
  by_cases hi : (i : ℕ) = id
  · subst hi
    exact if_pos rfl
  · exact if_neg hi

variable [DecidableEq Fp]

omit [Field Fp] [Algebra Fp F] [DecidableEq Fp] in
theorem replayRounds_nil (float : Float) (enc : Encoding Fp F) (oracle : HashOracle Hash)
    (nrounds compressionFactor : ℕ) (cache : Cache F) (proof : ProofSingle Fp F N Hash)
    (round : Round (CorrectionSharing F N)) (hashers : Hashers N) (h : proof.shares.hs = []) :
    proof.replayRounds float enc oracle nrounds compressionFactor cache round hashers =
      pure (round, hashers) := by
  rw [ProofSingle.replayRounds, h, List.zip_nil_left]
  split <;> rfl

theorem verify_forge (float : Float) (enc : Encoding Fp F) (hN : N.isPowerOfTwo)
    (circuit : Circuit Fp) (compressionFactor : ℕ) (cache : Cache F) (oracle : HashOracle Hash) :
    (forge N enc circuit oracle).verify float enc oracle circuit compressionFactor cache =
      .ok () := by
  have hid : forgedId N enc oracle circuit < N := by
    obtain ⟨k, hk⟩ := hN
    exact Nat.mod_lt _ (hk ▸ Nat.two_pow_pos k)
  have hseeds : (fun i : Fin N => enc.fromSeed ((List.replicate N 0).getD i 0)) =
      fun _ => enc.fromSeed 0 := funext fun i => by simp
  have hguard : ensure (decide N.isPowerOfTwo && (List.replicate N 0).length == N) Failure.panic =
      pure () := by
    simp [ensure, hN]
  have htrace : circuit.evalTrace (forgedSharings N enc circuit).1 (forgedSharings N enc circuit).2 =
      some ((circuit.evalTrace (forgedSharings N enc circuit).1
        (forgedSharings N enc circuit).2).getD ([], [])) := by
    have hlen : (forgedSharings N enc circuit).1.length = circuit.ninputs ∧
        (forgedSharings N enc circuit).2.length = circuit.nmuls :=
      ⟨(length_reconstruct _ _ _).trans List.length_replicate,
        (length_reconstruct _ _ _).trans List.length_replicate⟩
    rw [Circuit.evalTrace, if_pos hlen, Option.getD_some]
  -- The hash of the unopened party is the honest one, so the verifier's outputs are the prover's.
  have hcombined := combined_verifier oracle (forgedHashers N enc circuit) hid
  have hchallenge : ((forgedHashers N enc circuit).extractChallenge oracle enc.fromUniformBytes
      (.verifier (forgedId N enc oracle circuit)
        (oracle.finalize ((forgedHashers N enc circuit).hashers ⟨_, hid⟩)))).1 =
      ((forgedHashers N enc circuit).extractChallenge oracle enc.fromUniformBytes .prover).1 := by
    simp only [Hashers.extractChallenge, Hashers.output, hcombined]
  have hparty : ((forgedHashers N enc circuit).extractChallenge oracle enc.fromUniformBytes
      (.verifier (forgedId N enc oracle circuit)
        (oracle.finalize ((forgedHashers N enc circuit).hashers ⟨_, hid⟩)))).2.extractUnopenedParty
      oracle (.verifier (forgedId N enc oracle circuit)
        (oracle.finalize ((forgedHashers N enc circuit).hashers ⟨_, hid⟩))) N =
      forgedId N enc oracle circuit :=
    congrArg (fun hashes => ((oracle.xof ((forgedHashers N enc circuit).count + 1) hashes
      1).getD 0 0).toNat % N) hcombined
  have hlast : ∀ (round : Round (CorrectionSharing F N)) (z : CorrectionSharing F N),
      round.z = some z → (⟨[], [], (z.1, -∑ i, z.1 i), 0⟩ : OutputShares Fp F N).verifyLastRound
        round (forgedId N enc oracle circuit) = pure () := by
    intro round z hz
    simp [OutputShares.verifyLastRound, ensure, hid, hz, orPanic, CorrectionSharing.checkEquality]
  have hverify : ∀ shares : Fin N → F,
      (⟨[], [], (shares, -∑ i, shares i), 0⟩ : OutputShares Fp F N).verify = pure () := by
    intro shares
    simp [OutputShares.verify, ensure, CorrectionSharing.reconstruct]
  have hwitness : (OpenedPartiesShares.reconstruct enc (List.replicate circuit.ninputs 0)
      fun _ : Fin N => enc.fromSeed 0).1 = (forgedSharings N enc circuit).1 := rfl
  have hmults : (OpenedPartiesShares.reconstruct enc (List.replicate circuit.nmuls 0)
      (OpenedPartiesShares.reconstruct enc (List.replicate circuit.ninputs 0)
        fun _ : Fin N => enc.fromSeed 0).2).1 = (forgedSharings N enc circuit).2 := rfl
  have hhashers : (Hashers.new N).hashCircuitSharing enc.toBytesPrime
      (forgedSharings N enc circuit).1 (forgedSharings N enc circuit).2 =
      forgedHashers N enc circuit := rfl
  rw [ProofSingle.verify]
  simp only [forge, hseeds]
  rw [hguard, dif_pos hid, hwitness, hmults, hhashers, htrace]
  simp only [orPanic, pure_bind, List.head?_cons]
  rw [replayRounds_nil _ _ _ _ _ _ _ _ _ rfl]
  simp only [pure_bind]
  rw [hparty, hlast _ (forgedProduct N enc oracle circuit) ?_, hverify]
  · simp [UnopenedParty.verifyId, ensure]
    rfl
  · rw [hchallenge]
    rfl

/-- For every circuit, also one whose output is never zero, there is a procedure whose proof is
accepted whatever the hashes are. -/
theorem exists_forger (Hash : Type) (float : Float) (enc : Encoding Fp F) (hN : N.isPowerOfTwo)
    (circuit : Circuit Fp) (compressionFactor : ℕ) (cache : Cache F) :
    ∃ procedure : HashOracle Hash → ProofSingle Fp F N Hash, ∀ oracle : HashOracle Hash,
      (procedure oracle).verify float enc oracle circuit compressionFactor cache = .ok () :=
  ⟨forge N enc circuit, verify_forge float enc hN circuit compressionFactor cache⟩

end Forge

/-! ## The circuit that puts out one -/

/-- No inputs, and the output one. -/
def oneCircuit : Circuit F61p where
  ops := [.constant 1]
  ninputs := 0
  noutputs := 1
  noutputs_le := le_refl 1
  args_lt := by simp [Op.args]

attribute [local instance] atLeastTwo_two in
/-- Generators and encodings that do not depend on what they are given. -/
def plainEncoding : Encoding F61p F61p where
  Rng := ℕ
  fromSeed seed := seed
  random s := (0, s + 1)
  toBytesPrime _ := []
  toBytes _ := []
  fromUniformBytes _ := 2

/-- The verifier's cache for this circuit. -/
def oneCache : Cache F61p :=
  (Cache.new exactFloat 37 oneCircuit.nmuls 8 false).getD ⟨[], ∅, ∅, ∅⟩

theorem exists_forger_one :
    ∃ procedure : HashOracle (List UInt8) → ProofSingle F61p F61p 16 (List UInt8),
      ∀ oracle : HashOracle (List UInt8),
        (procedure oracle).verify exactFloat plainEncoding oracle oneCircuit 8 oneCache = .ok () :=
  exists_forger (List UInt8) exactFloat plainEncoding ⟨4, rfl⟩ oneCircuit 8 oneCache

/-- The output is one on every witness, and yet the verifier can be made to accept. -/
theorem oneCircuit_accepted :
    (∀ w : List F61p, w.length = oneCircuit.ninputs → oneCircuit.eval w ≠ [0]) ∧
      ¬¬∃ procedure : HashOracle (List UInt8) → ProofSingle F61p F61p 16 (List UInt8),
        ∀ oracle : HashOracle (List UInt8), (procedure oracle).verify exactFloat plainEncoding
          oracle oneCircuit 8 oneCache = .ok () := by
  refine ⟨fun w hw => ?_, not_not_intro ⟨forge 16 plainEncoding oneCircuit, verify_forge exactFloat
    plainEncoding ⟨4, rfl⟩ oneCircuit 8 oneCache⟩⟩
  obtain rfl := List.length_eq_zero_iff.1 hw
  simp [Circuit.eval, Circuit.wires, oneCircuit]

end EdaBitGen.Inferno
