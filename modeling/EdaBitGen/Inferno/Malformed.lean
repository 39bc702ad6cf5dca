import EdaBitGen.Inferno.Sizes

/-!
# Proofs of any shape

A verifier gets a proof from outside, with vectors of any lengths.  It does not compare them with what
the circuit needs: where it reads behind the end of one of them, it panics.
-/

namespace EdaBitGen.Inferno

/-! ## The verifier of all repetitions -/

/-- The compression factors and repetitions that are secure for a number of parties. -/
def validateParameters (bits nparties compressionFactor repetitions : ℕ) : Bool :=
  if bits ≥ 64 then
    match nparties, compressionFactor, repetitions with
    | 16, 8, 40 => true
    | 16, 16, 38 => true
    | 32, 8, 34 => true
    | 32, 16, 32 => true
    | 64, 8, 30 => true
    | 64, 16, 28 => true
    | 128, 8, 27 => true
    | 128, 16, 25 => true
    | _, _, _ => false
  else false

section Verifier

variable {Fp F : Type} [Field Fp] [Field F] [Algebra Fp F] [DecidableEq Fp] [DecidableEq F] {N : ℕ}
  {Hash : Type} (debugAssertions : Bool) (float : Float) (enc : Encoding Fp F)
  (oracle : HashOracle Hash)

omit [DecidableEq Fp] in
/-- The second half of a compression, which in debug builds asserts the number of values. -/
def roundCompressFinishIn {S : Type} [AddCommMonoid S] [SMul F S] (input : Round S)
    (compressionFactor : ℕ) (finalRound : Bool) (cache : Cache F) (challenge : F)
    (rands : List (S × S)) (hs : List S) : Option (Round S) :=
  if debugAssertions ∧
      hs.length ≠ 2 * nchunks float input.xs.length compressionFactor finalRound - 1 then none
  else roundCompressFinish float input compressionFactor finalRound cache challenge rands hs

/-- A round of the replay, with its number. -/
def ProofSingle.replayRoundIn (nrounds compressionFactor : ℕ) (cache : Cache F)
    (proof : ProofSingle Fp F N Hash) (acc : Round (CorrectionSharing F N) × Hashers N)
    (p : (List (CorrectionSharing F N) × Hash) × ℕ) :
    Except Failure (Round (CorrectionSharing F N) × Hashers N) := do
  let hashers := acc.2.hashRound enc.toBytes p.1.1
  let (challenge, hashers) := hashers.extractChallenge oracle enc.fromUniformBytes
    (.verifier proof.unopened.id p.1.2)
  let round ← orPanic (roundCompressFinishIn debugAssertions float { acc.1 with z := none }
    compressionFactor (p.2 = nrounds) cache challenge proof.shares.rands p.1.1)
  pure (round, hashers)

def ProofSingle.replayRoundsIn (nrounds compressionFactor : ℕ) (cache : Cache F)
    (proof : ProofSingle Fp F N Hash) (round : Round (CorrectionSharing F N))
    (hashers : Hashers N) : Except Failure (Round (CorrectionSharing F N) × Hashers N) :=
  if nrounds > 0 then
    (proof.shares.hs.zip (proof.unopened.commitments.drop 1)).zipIdx.foldlM
      (proof.replayRoundIn debugAssertions float enc oracle nrounds compressionFactor cache)
      (round, hashers)
  else pure (round, hashers)

/-- The verifier of one repetition, in a build with or without debug assertions. -/
def ProofSingle.verifyIn (circuit : Circuit Fp) (compressionFactor : ℕ) (cache : Cache F)
    (proof : ProofSingle Fp F N Hash) : Except Failure Unit := do
  let nrounds := nrounds float circuit.nmuls compressionFactor
  -- The number of parties has to be a power of two, and each party has a seed.
  ensure (decide (N.isPowerOfTwo) && proof.shares.seeds.length == N) .panic
  let rngs : Fin N → enc.Rng := fun i => enc.fromSeed (proof.shares.seeds.getD i 0)
  let (witness, rngs) := OpenedPartiesShares.reconstruct enc proof.shares.witness rngs
  let (mults, _) := OpenedPartiesShares.reconstruct enc proof.shares.mults rngs
  let hashers := (Hashers.new N).hashCircuitSharing enc.toBytesPrime witness mults
  let com ← orPanic proof.unopened.commitments.head?
  let (challenge, hashers) := hashers.extractChallenge oracle enc.fromUniformBytes
    (.verifier proof.unopened.id com)
  let (xs, ys) ← orPanic (circuit.evalTrace witness mults)
  let round : Round (CorrectionSharing F N) := round1 xs ys mults challenge
  let (round, hashers) ← proof.replayRoundsIn debugAssertions float enc oracle nrounds
    compressionFactor cache round hashers
  let id := hashers.extractUnopenedParty oracle
    (.verifier proof.unopened.id proof.unopened.finalCommitment) N
  proof.unopened.verifyId id
  proof.output.verifyLastRound round id
  proof.output.verify

/-- One proof for each repetition. -/
structure Proof (Fp F : Type) (N : ℕ) (Hash : Type) where
  proofs : List (ProofSingle Fp F N Hash)

/-- The first error of the repetitions, which are all verified. -/
def firstError (results : List (Except Failure Unit)) : Except Failure Unit :=
  if results.any fun r => r matches .error .panic then throw .panic
  else
    match results.zipIdx.findSome? fun r => match r.1 with
      | .error (.error msg) => some s!"Proof #{r.2 + 1} failed: {msg}"
      | _ => none with
    | some msg => throw (.error msg)
    | none => pure ()

def Proof.verify (generator : F) (bits : ℕ) (circuit : Circuit Fp)
    (compressionFactor repetitions : ℕ) (proof : Proof Fp F N Hash) : Except Failure Unit := do
  ensure (decide (N.isPowerOfTwo) && decide (N ≤ 256)) .panic
  ensure (circuit.noutputs = 1) .panic
  ensure (validateParameters bits N compressionFactor repetitions) (.error
    s!"Invalid parameters: ({N}, {compressionFactor}, {repetitions}) do not match acceptable settings")
  let cache ← orPanic (Cache.new float generator circuit.nmuls compressionFactor false)
  ensure (proof.proofs.length = repetitions) (.error "Invalid number of repetitions")
  firstError (proof.proofs.map
    (ProofSingle.verifyIn debugAssertions float enc oracle circuit compressionFactor cache))

end Verifier

/-! ## Panics -/

section Panics

variable {α β : Type}

/-- A computation that panics, and neither returns nor fails with an error. -/
def Panics (x : Except Failure α) : Prop := x = .error .panic

theorem not_panics_ok (a : α) : ¬ Panics (.ok a) := fun h => nomatch h

theorem not_panics_ensure (b : Bool) (msg : String) : ¬ Panics (ensure b (.error msg)) := by
  cases b
  · exact fun h => nomatch h
  · exact not_panics_ok ()

theorem panics_bind_iff {x : Except Failure α} {f : α → Except Failure β} :
    Panics (x >>= f) ↔ Panics x ∨ ∃ a, x = .ok a ∧ Panics (f a) := by
  cases x with
  | error e => exact ⟨fun h => .inl (congrArg Except.error (Except.error.inj h)), fun h =>
      h.elim (fun h => congrArg Except.error (Except.error.inj h)) fun ⟨_, h, _⟩ => nomatch h⟩
  | ok a => exact ⟨fun h => .inr ⟨a, rfl, h⟩, fun h =>
      h.elim (fun h => nomatch h) fun ⟨_, h, hf⟩ => Except.ok.inj h ▸ hf⟩

theorem panics_ensure_bind_iff {b : Bool} {f : Unit → Except Failure β} :
    Panics (ensure b .panic >>= f) ↔ (b = true → Panics (f ())) := by
  cases b
  · exact iff_of_true rfl fun h => nomatch h
  · exact ⟨fun h _ => h, fun h => h rfl⟩

theorem panics_error_bind_iff {b : Bool} {msg : String} {f : Unit → Except Failure β} :
    Panics (ensure b (.error msg) >>= f) ↔ b = true ∧ Panics (f ()) := by
  cases b
  · exact iff_of_false (fun h => nomatch h) fun h => nomatch h.1
  · exact ⟨fun h => ⟨rfl, h⟩, fun h => h.2⟩

theorem panics_orPanic_bind_iff {o : Option α} {f : α → Except Failure β} :
    Panics (orPanic o >>= f) ↔ ∀ a, o = some a → Panics (f a) := by
  cases o with
  | none => exact iff_of_true rfl fun _ h => nomatch h
  | some a => exact ⟨fun h _ ha => Option.some.inj ha ▸ h, fun h => h a rfl⟩

theorem not_panics_forM {as : List α} {check : α → Bool} (msg : String) :
    ¬ Panics (as.forM fun a => ensure (check a) (.error msg)) := by
  induction as with
  | nil => exact not_panics_ok ()
  | cons a as ih =>
    show ¬ Panics (ensure (check a) (.error msg) >>= fun _ => as.forM fun a =>
      ensure (check a) (.error msg))
    rw [panics_error_bind_iff]
    exact fun h => ih h.2

end Panics

section Shapes

variable {Fp F : Type} [Field Fp] [Field F] [Algebra Fp F] [DecidableEq Fp] [DecidableEq F] {N : ℕ}
  {Hash : Type} (debugAssertions : Bool) (float : Float) (enc : Encoding Fp F)
  (oracle : HashOracle Hash)

omit [Field Fp] [Field F] [Algebra Fp F] [DecidableEq Fp] [DecidableEq F] in
/-- A replayed round finds what it reads: evaluators for its numbers of chunks, masks in the final
round, and with debug assertions as many values as the polynomial has. -/
structure RoundShaped (nmuls compressionFactor : ℕ) (cache : Cache F) (nrands i nhs : ℕ) : Prop where
  finishes : Finishes float (roundLength float nmuls compressionFactor i) compressionFactor
    (i = nrounds float nmuls compressionFactor) cache nrands
  values : debugAssertions = true → nhs = 2 * nchunks float
    (roundLength float nmuls compressionFactor i) compressionFactor
    (i = nrounds float nmuls compressionFactor) - 1

/-- The lengths in a proof with which the verifier does not panic. -/
structure ProofSingle.Shaped (circuit : Circuit Fp) (compressionFactor : ℕ) (cache : Cache F)
    (proof : ProofSingle Fp F N Hash) : Prop where
  seeds : proof.shares.seeds.length = N
  commitments : proof.unopened.commitments ≠ []
  witness : proof.shares.witness.length = circuit.ninputs
  mults : proof.shares.mults.length = circuit.nmuls
  rounds : 0 < nrounds float circuit.nmuls compressionFactor →
    ∀ round ∈ (proof.shares.hs.zip (proof.unopened.commitments.drop 1)).zipIdx,
      RoundShaped debugAssertions float circuit.nmuls compressionFactor cache
        proof.shares.rands.length round.2 round.1.1.length

end Shapes

/-! ## What the verifier reads -/

section Reads

variable {Fp F : Type} [Field Fp] [Field F] [Algebra Fp F] [DecidableEq Fp] [DecidableEq F] {N : ℕ}
  {Hash : Type} {debugAssertions : Bool} {float : Float} {enc : Encoding Fp F}
  {oracle : HashOracle Hash} {nmuls compressionFactor : ℕ} {cache : Cache F}

theorem roundCompressFinishIn_eq_some (input : Round (CorrectionSharing F N)) {i : ℕ}
    (hlength : input.xs.length = roundLength float nmuls compressionFactor i) (challenge : F)
    {rands : List (CorrectionSharing F N × CorrectionSharing F N)}
    {hs : List (CorrectionSharing F N)}
    (h : RoundShaped debugAssertions float nmuls compressionFactor cache rands.length i hs.length) :
    ∃ round, roundCompressFinishIn debugAssertions float input compressionFactor
        (i = nrounds float nmuls compressionFactor) cache challenge rands hs = some round ∧
      round.xs.length = roundLength float nmuls compressionFactor (i + 1) ∧ round.z.isSome := by
  obtain ⟨hfinishes, hvalues⟩ := h
  rw [← hlength] at hfinishes hvalues
  have hassert : ¬ (debugAssertions ∧ hs.length ≠ 2 * nchunks float input.xs.length
      compressionFactor (i = nrounds float nmuls compressionFactor) - 1) :=
    fun ⟨hdebug, hne⟩ => hne (hvalues hdebug)
  refine ⟨_, (if_neg hassert).trans (roundCompressFinish_some challenge hs hfinishes), ?_, rfl⟩
  rw [length_compressed, hlength, roundLength_succ]

theorem roundCompressFinishIn_eq_none (input : Round (CorrectionSharing F N)) {i : ℕ}
    (hlength : input.xs.length = roundLength float nmuls compressionFactor i) (challenge : F)
    {rands : List (CorrectionSharing F N × CorrectionSharing F N)}
    {hs : List (CorrectionSharing F N)}
    (h : ¬ RoundShaped debugAssertions float nmuls compressionFactor cache rands.length i
      hs.length) :
    roundCompressFinishIn debugAssertions float input compressionFactor
      (i = nrounds float nmuls compressionFactor) cache challenge rands hs = none := by
  rw [roundCompressFinishIn]
  split
  · rfl
  · rename_i hassert
    refine roundCompressFinish_none challenge hs fun hfinishes => h ⟨hlength ▸ hfinishes, ?_⟩
    intro hdebug
    rw [← hlength]
    by_contra hne
    exact hassert ⟨hdebug, hne⟩

variable (debugAssertions enc oracle)

omit [Field Fp] [Algebra Fp F] [DecidableEq Fp] in
theorem ProofSingle.replayRoundIn_ok (proof : ProofSingle Fp F N Hash)
    {p : List (CorrectionSharing F N) × Hash} {i : ℕ}
    {acc : Round (CorrectionSharing F N) × Hashers N}
    (hlength : acc.1.xs.length = roundLength float nmuls compressionFactor i)
    (h : RoundShaped debugAssertions float nmuls compressionFactor cache
      proof.shares.rands.length i p.1.length) :
    ∃ acc', proof.replayRoundIn debugAssertions float enc oracle
        (nrounds float nmuls compressionFactor) compressionFactor cache acc (p, i) = .ok acc' ∧
      acc'.1.xs.length = roundLength float nmuls compressionFactor (i + 1) ∧ acc'.1.z.isSome := by
  obtain ⟨round, hfinish, hlength', hz⟩ := roundCompressFinishIn_eq_some { acc.1 with z := none }
    hlength ((acc.2.hashRound enc.toBytes p.1).extractChallenge oracle enc.fromUniformBytes
      (.verifier proof.unopened.id p.2)).1 h
  refine ⟨(round, ((acc.2.hashRound enc.toBytes p.1).extractChallenge oracle enc.fromUniformBytes
    (.verifier proof.unopened.id p.2)).2), ?_, hlength', hz⟩
  dsimp only [ProofSingle.replayRoundIn]
  rw [hfinish]
  rfl

omit [Field Fp] [Algebra Fp F] [DecidableEq Fp] in
theorem ProofSingle.panics_replayRoundIn (proof : ProofSingle Fp F N Hash)
    {p : List (CorrectionSharing F N) × Hash} {i : ℕ}
    {acc : Round (CorrectionSharing F N) × Hashers N}
    (hlength : acc.1.xs.length = roundLength float nmuls compressionFactor i)
    (h : ¬ RoundShaped debugAssertions float nmuls compressionFactor cache
      proof.shares.rands.length i p.1.length) :
    Panics (proof.replayRoundIn debugAssertions float enc oracle
      (nrounds float nmuls compressionFactor) compressionFactor cache acc (p, i)) := by
  dsimp only [ProofSingle.replayRoundIn]
  rw [roundCompressFinishIn_eq_none { acc.1 with z := none } hlength _ h]
  rfl

omit [Field Fp] [Algebra Fp F] [DecidableEq Fp] in
/-- The replay on vectors of the first round's length goes through all rounds, or panics in one that
does not find what it reads. -/
theorem ProofSingle.foldlM_replayRoundIn (proof : ProofSingle Fp F N Hash)
    (rounds : List (List (CorrectionSharing F N) × Hash)) (i : ℕ)
    (acc : Round (CorrectionSharing F N) × Hashers N)
    (hlength : acc.1.xs.length = roundLength float nmuls compressionFactor i)
    (hz : acc.1.z.isSome) :
    let shaped := ∀ round ∈ rounds.zipIdx i, RoundShaped debugAssertions float nmuls
      compressionFactor cache proof.shares.rands.length round.2 round.1.1.length
    let run := (rounds.zipIdx i).foldlM (proof.replayRoundIn debugAssertions float enc oracle
      (nrounds float nmuls compressionFactor) compressionFactor cache) acc
    (shaped → ∃ acc', run = .ok acc' ∧ acc'.1.z.isSome) ∧ (¬ shaped → Panics run) := by
  induction rounds generalizing i acc with
  | nil => exact ⟨fun _ => ⟨_, rfl, hz⟩, fun h => absurd (fun round hround => nomatch hround) h⟩
  | cons p rounds ih =>
    dsimp only
    rw [List.zipIdx_cons, List.foldlM_cons, List.forall_mem_cons]
    by_cases hround : RoundShaped debugAssertions float nmuls compressionFactor cache
        proof.shares.rands.length i p.1.length
    · obtain ⟨acc', hstep, hlength', hz'⟩ := proof.replayRoundIn_ok debugAssertions enc oracle hlength hround
      obtain ⟨hok, hpanic⟩ := ih (i + 1) acc' hlength' hz'
      rw [hstep]
      exact ⟨fun h => hok h.2, fun h => hpanic fun hrounds => h ⟨hround, hrounds⟩⟩
    · exact ⟨fun h => absurd h.1 hround, fun _ =>
        panics_bind_iff.2 (.inl (proof.panics_replayRoundIn debugAssertions enc oracle hlength hround))⟩

omit [Field F] [DecidableEq F] [DecidableEq Fp] [Algebra Fp F] in
theorem Circuit.length_foldl_traceStep (mults : List (CorrectionSharing Fp N)) (ops : List (Op Fp))
    (t : Circuit.Trace (CorrectionSharing Fp N)) :
    let t' := ops.foldl (Circuit.traceStep mults) t
    t'.xs.length = t.xs.length + (ops.filter Op.isMul).length ∧
      t'.ys.length = t.ys.length + (ops.filter Op.isMul).length := by
  induction ops generalizing t with
  | nil => exact ⟨rfl, rfl⟩
  | cons op ops ih =>
    obtain ⟨hxs, hys⟩ := ih (Circuit.traceStep mults t op)
    dsimp only
    rw [List.foldl_cons, hxs, hys]
    cases op with
    | mul n m =>
      rw [List.filter_cons_of_pos (p := Op.isMul) rfl, List.length_cons]
      simp only [Circuit.traceStep, List.length_append, List.length_singleton]
      omega
    | add n m => exact ⟨rfl, rfl⟩
    | sub n m => exact ⟨rfl, rfl⟩
    | constant f => exact ⟨rfl, rfl⟩
    | copy n => exact ⟨rfl, rfl⟩

omit [Field F] [DecidableEq F] [DecidableEq Fp] [Algebra Fp F] in
theorem Circuit.evalTrace_some (circuit : Circuit Fp) {inputs mults : List (CorrectionSharing Fp N)}
    (hinputs : inputs.length = circuit.ninputs) (hmults : mults.length = circuit.nmuls) :
    ∃ xs ys, circuit.evalTrace inputs mults = some (xs, ys) ∧
      xs.length = circuit.nmuls ∧ ys.length = circuit.nmuls := by
  obtain ⟨hxs, hys⟩ := Circuit.length_foldl_traceStep mults circuit.ops ⟨inputs, [], [], []⟩
  refine ⟨_, _, if_pos ⟨hinputs, hmults⟩, ?_, ?_⟩
  · exact hxs.trans (Nat.zero_add _)
  · exact hys.trans (Nat.zero_add _)

omit [Field Fp] [Algebra Fp F] [DecidableEq Fp] in
theorem ProofSingle.replayRoundsIn_spec (proof : ProofSingle Fp F N Hash)
    {round : Round (CorrectionSharing F N)} (hashers : Hashers N)
    (hlength : round.xs.length = nmuls) (hz : round.z.isSome) :
    let shaped := 0 < nrounds float nmuls compressionFactor →
      ∀ round ∈ (proof.shares.hs.zip (proof.unopened.commitments.drop 1)).zipIdx,
        RoundShaped debugAssertions float nmuls compressionFactor cache proof.shares.rands.length
          round.2 round.1.1.length
    let run := proof.replayRoundsIn debugAssertions float enc oracle
      (nrounds float nmuls compressionFactor) compressionFactor cache round hashers
    (shaped → ∃ acc', run = .ok acc' ∧ acc'.1.z.isSome) ∧ (¬ shaped → Panics run) := by
  dsimp only [ProofSingle.replayRoundsIn]
  by_cases hrounds : 0 < nrounds float nmuls compressionFactor
  · obtain ⟨hok, hpanic⟩ := proof.foldlM_replayRoundIn debugAssertions enc oracle
      (proof.shares.hs.zip (proof.unopened.commitments.drop 1)) 0 (round, hashers) hlength hz
    rw [if_pos hrounds]
    exact ⟨fun h => hok (h hrounds), fun h => hpanic fun hall => h fun _ => hall⟩
  · rw [if_neg hrounds]
    exact ⟨fun _ => ⟨_, rfl, hz⟩, fun h => absurd (fun hpos => absurd hpos hrounds) h⟩

omit [Algebra Fp F] in
theorem ProofSingle.not_panics_end (proof : ProofSingle Fp F N Hash)
    {round : Round (CorrectionSharing F N)} (hz : round.z.isSome) {id : ℕ} (hid : id < N) :
    ¬ Panics (do
      proof.unopened.verifyId id
      proof.output.verifyLastRound round id
      proof.output.verify) := by
  obtain ⟨z, hz⟩ := Option.isSome_iff_exists.1 hz
  rw [UnopenedParty.verifyId, panics_error_bind_iff]
  rintro ⟨-, h⟩
  rw [panics_bind_iff] at h
  obtain h | ⟨-, -, h⟩ := h
  · rw [OutputShares.verifyLastRound, panics_ensure_bind_iff] at h
    have h := h (decide_eq_true hid)
    rw [panics_bind_iff] at h
    obtain h | ⟨-, -, h⟩ := h
    · exact not_panics_forM _ h
    rw [panics_bind_iff] at h
    obtain h | ⟨-, -, h⟩ := h
    · exact not_panics_forM _ h
    rw [panics_orPanic_bind_iff] at h
    exact not_panics_ensure _ _ (h z hz)
  · rw [OutputShares.verify, panics_error_bind_iff] at h
    exact not_panics_ensure _ _ h.2

omit [Algebra Fp F] in
/-- Behind the evaluation of the circuit, only a round that does not find what it reads panics. -/
theorem ProofSingle.panics_rounds_iff (hpos : 0 < N) (proof : ProofSingle Fp F N Hash)
    {round : Round (CorrectionSharing F N)} (hashers : Hashers N)
    (hlength : round.xs.length = nmuls) (hz : round.z.isSome) :
    Panics (do
      let (round, hashers) ← proof.replayRoundsIn debugAssertions float enc oracle
        (nrounds float nmuls compressionFactor) compressionFactor cache round hashers
      let id := hashers.extractUnopenedParty oracle
        (.verifier proof.unopened.id proof.unopened.finalCommitment) N
      proof.unopened.verifyId id
      proof.output.verifyLastRound round id
      proof.output.verify) ↔
    ¬ (0 < nrounds float nmuls compressionFactor →
      ∀ round ∈ (proof.shares.hs.zip (proof.unopened.commitments.drop 1)).zipIdx,
        RoundShaped debugAssertions float nmuls compressionFactor cache proof.shares.rands.length
          round.2 round.1.1.length) := by
  obtain ⟨hok, hpanic⟩ := proof.replayRoundsIn_spec debugAssertions enc oracle
    hashers hlength hz
  rw [panics_bind_iff]
  constructor
  · rintro h hshaped
    obtain ⟨acc, hreplay, hz⟩ := hok hshaped
    obtain h | ⟨acc', hreplay', h⟩ := h
    · exact nomatch hreplay.symm.trans h
    · obtain rfl := Except.ok.inj (hreplay.symm.trans hreplay')
      exact proof.not_panics_end hz (Nat.mod_lt _ hpos) h
  · exact fun h => .inl (hpanic h)

omit [DecidableEq Fp] [DecidableEq F] in
theorem length_xs_round1 {n : ℕ} {xs ys mults : List (CorrectionSharing Fp N)} (hxs : xs.length = n)
    (hys : ys.length = n) (hmults : mults.length = n) (challenge : F) :
    (round1 xs ys mults challenge : Round (CorrectionSharing F N)).xs.length = n := by
  simp [round1, hxs, hys, hmults]

theorem ProofSingle.panics_verifyIn_iff (hN : N.isPowerOfTwo) (circuit : Circuit Fp)
    (proof : ProofSingle Fp F N Hash) :
    Panics (proof.verifyIn debugAssertions float enc oracle circuit compressionFactor cache) ↔
      ¬ proof.Shaped debugAssertions float circuit compressionFactor cache := by
  have hpos := Nat.pos_of_isPowerOfTwo hN
  rw [ProofSingle.verifyIn]
  dsimp only
  generalize hwitness : OpenedPartiesShares.reconstruct enc proof.shares.witness _ = reconstructed
  obtain ⟨witness, rngs⟩ := reconstructed
  generalize hmults : OpenedPartiesShares.reconstruct enc proof.shares.mults _ = reconstructed
  obtain ⟨mults, rngs'⟩ := reconstructed
  replace hwitness : witness.length = proof.shares.witness.length :=
    (congrArg (·.1.length) hwitness).symm.trans (length_reconstruct _ _ _)
  replace hmults : mults.length = proof.shares.mults.length :=
    (congrArg (·.1.length) hmults).symm.trans (length_reconstruct _ _ _)
  dsimp only
  simp only [panics_ensure_bind_iff, panics_orPanic_bind_iff, Bool.and_eq_true, decide_eq_true hN,
    true_and, beq_iff_eq]
  constructor
  · intro h hshaped
    have hmults := hmults.trans hshaped.mults
    obtain ⟨com, hcom⟩ := Option.ne_none_iff_exists'.1
      (mt List.head?_eq_none_iff.1 hshaped.commitments)
    obtain ⟨xs, ys, heval, hxs, hys⟩ :=
      circuit.evalTrace_some (hwitness.trans hshaped.witness) hmults
    exact (proof.panics_rounds_iff debugAssertions enc oracle hpos _
      (length_xs_round1 hxs hys hmults _) rfl).1 (h hshaped.seeds com hcom _ heval) hshaped.rounds
  · intro h hseeds com hcom a heval
    have hlengths : witness.length = circuit.ninputs ∧ mults.length = circuit.nmuls := by
      rw [Circuit.evalTrace] at heval
      by_contra hne
      rw [if_neg hne] at heval
      cases heval
    obtain ⟨xs, ys, heval', hxs, hys⟩ := circuit.evalTrace_some hlengths.1 hlengths.2
    obtain rfl := Option.some.inj (heval'.symm.trans heval)
    refine (proof.panics_rounds_iff debugAssertions enc oracle hpos _
      (length_xs_round1 hxs hys hlengths.2 _) rfl).2 fun hrounds =>
        h ⟨hseeds, ?_, hwitness ▸ hlengths.1, hmults ▸ hlengths.2, hrounds⟩
    rintro hnil
    rw [hnil] at hcom
    cases hcom

end Reads

/-! ## All repetitions -/

section Repetitions

variable {Fp F : Type} [Field Fp] [Field F] [Algebra Fp F] [DecidableEq Fp] [DecidableEq F] {N : ℕ}
  {Hash : Type}

theorem panics_firstError_iff (results : List (Except Failure Unit)) :
    Panics (firstError results) ↔ ∃ r ∈ results, Panics r := by
  rw [firstError]
  have hany : (results.any fun r => r matches .error .panic) = true ↔ ∃ r ∈ results, Panics r := by
    rw [List.any_eq_true]
    refine exists_congr fun r => and_congr_right fun _ => ?_
    match r with
    | .ok _ => exact iff_of_false (fun h => nomatch h) fun h => nomatch h
    | .error .panic => exact iff_of_true rfl rfl
    | .error (.error _) => exact iff_of_false (fun h => nomatch h) fun h => nomatch h
  rw [← hany]
  split
  · rename_i h
    exact iff_of_true rfl h
  · rename_i h
    refine iff_of_false ?_ h
    split
    · exact fun h => nomatch h
    · exact not_panics_ok ()

theorem isPowerOfTwo_of_validateParameters {bits nparties compressionFactor repetitions : ℕ}
    (h : validateParameters bits nparties compressionFactor repetitions = true) :
    nparties.isPowerOfTwo ∧ nparties ≤ 256 := by
  unfold validateParameters at h
  split at h
  · split at h
    all_goals first
      | exact ⟨⟨4, rfl⟩, by decide⟩
      | exact ⟨⟨5, rfl⟩, by decide⟩
      | exact ⟨⟨6, rfl⟩, by decide⟩
      | exact ⟨⟨7, rfl⟩, by decide⟩
      | cases h
  · cases h

omit [Algebra Fp F] [DecidableEq Fp] [Field Fp] [DecidableEq F] in
theorem exists_verifierCache_iff (float : Float) (generator : F) (nmuls compressionFactor : ℕ) :
    (∃ cache, Cache.new float generator nmuls compressionFactor false = some cache) ↔
      ∀ n ∈ cachedSizes float nmuls compressionFactor,
        0 < n ∧ 2 * n - 1 ≤ 2 * compressionFactor + 1 := by
  rw [Cache.new]
  split
  · rename_i hguard
    exact iff_of_true ⟨_, rfl⟩ hguard.1
  · rename_i hguard
    exact iff_of_false (by simp) fun h => hguard ⟨h, by simp⟩

theorem Proof.panics_verify_iff (debugAssertions : Bool) (float : Float) (enc : Encoding Fp F)
    (oracle : HashOracle Hash) (generator : F) (bits : ℕ) (circuit : Circuit Fp)
    (compressionFactor repetitions : ℕ) (hcircuit : circuit.noutputs = 1)
    (hparameters : validateParameters bits N compressionFactor repetitions = true)
    (proof : Proof Fp F N Hash) :
    Panics (proof.verify debugAssertions float enc oracle generator bits circuit compressionFactor
        repetitions) ↔
      ∀ cache, Cache.new float generator circuit.nmuls compressionFactor false = some cache →
        proof.proofs.length = repetitions ∧ ∃ p ∈ proof.proofs,
          ¬ p.Shaped debugAssertions float circuit compressionFactor cache := by
  obtain ⟨hN, hle⟩ := isPowerOfTwo_of_validateParameters hparameters
  rw [Proof.verify]
  simp only [panics_ensure_bind_iff, panics_error_bind_iff, panics_orPanic_bind_iff,
    panics_firstError_iff, List.mem_map, exists_exists_and_eq_and, decide_eq_true hN, decide_eq_true hle,
    decide_eq_true hcircuit, hparameters, Bool.and_self, true_and, forall_true_left,
    decide_eq_true_iff, ProofSingle.panics_verifyIn_iff debugAssertions enc oracle hN]

/-- With accepted parameters no proof lets the verifier panic but those whose lengths do not fit. -/
theorem not_panics_iff (debugAssertions : Bool) (float : Float) (enc : Encoding Fp F)
    (oracle : HashOracle Hash) (generator : F) (bits : ℕ) (circuit : Circuit Fp)
    (compressionFactor repetitions : ℕ) (hcircuit : circuit.noutputs = 1)
    (hparameters : validateParameters bits N compressionFactor repetitions = true) :
    (∀ (cache : Cache F) (proof : ProofSingle Fp F N Hash),
      ¬ Panics (proof.verifyIn debugAssertions float enc oracle circuit compressionFactor cache) ↔
        proof.Shaped debugAssertions float circuit compressionFactor cache) ∧
    ∀ proof : Proof Fp F N Hash,
      ¬ Panics (proof.verify debugAssertions float enc oracle generator bits circuit
          compressionFactor repetitions) ↔
        (∀ n ∈ cachedSizes float circuit.nmuls compressionFactor,
          0 < n ∧ 2 * n - 1 ≤ 2 * compressionFactor + 1) ∧
        ∀ cache, Cache.new float generator circuit.nmuls compressionFactor false = some cache →
          proof.proofs.length = repetitions → ∀ p ∈ proof.proofs,
            p.Shaped debugAssertions float circuit compressionFactor cache := by
  obtain ⟨hN, -⟩ := isPowerOfTwo_of_validateParameters hparameters
  constructor
  · intro cache proof
    rw [proof.panics_verifyIn_iff debugAssertions enc oracle hN, not_not]
  · intro proof
    rw [proof.panics_verify_iff debugAssertions float enc oracle generator bits circuit
        compressionFactor repetitions hcircuit hparameters,
      ← exists_verifierCache_iff float generator]
    constructor
    · intro h
      push Not at h
      obtain ⟨cache, hcache, h⟩ := h
      refine ⟨⟨cache, hcache⟩, fun cache' hcache' hlength => ?_⟩
      obtain rfl := Option.some.inj (hcache.symm.trans hcache')
      exact h hlength
    · rintro ⟨⟨cache, hcache⟩, h⟩ hpanic
      obtain ⟨hlength, p, hp, hne⟩ := hpanic cache hcache
      exact hne (h cache hcache hlength p hp)

end Repetitions

/-! ## A proof without seeds -/

section Seeds

noncomputable instance decEqGaloisField : DecidableEq (GaloisField 2 64) := Classical.decEq _

/-- No inputs, and the output zero. -/
def zeroCircuit : Circuit (ZMod 2) where
  ops := [.constant 0]
  ninputs := 0
  noutputs := 1
  noutputs_le := Nat.one_pos
  args_lt := by simp [Op.args]

/-- Generators and encodings that do not depend on what they are given. -/
noncomputable def bitEncoding : Encoding (ZMod 2) (GaloisField 2 64) where
  Rng := Unit
  fromSeed _ := ()
  random _ := (0, ())
  toBytesPrime _ := []
  toBytes _ := []
  fromUniformBytes _ := 0

/-- All hashes are the same. -/
def unitOracle : HashOracle Unit where
  finalize _ := ()
  xof _ _ _ := []

/-- Nothing but some seeds and one commitment, in all repetitions. -/
noncomputable def seedsProof (seeds : List ℕ) : Proof (ZMod 2) (GaloisField 2 64) 16 Unit :=
  ⟨List.replicate 40 ⟨⟨[], [], 0, 0⟩, ⟨seeds, [], [], [], []⟩, ⟨0, [()], ()⟩⟩⟩

/-- With a seed for each party the verifier does not panic. -/
theorem seedsProof_not_panics :
    ¬ Panics ((seedsProof (List.replicate 16 0)).verify true exactFloat bitEncoding unitOracle 1 64
      zeroCircuit 8 40) := by
  have hiff := (not_panics_iff true exactFloat bitEncoding unitOracle 1 64 zeroCircuit 8 40 rfl
    rfl).2 (seedsProof (List.replicate 16 0))
  refine hiff.2 ⟨by decide, fun cache _ _ p hp => ?_⟩
  rw [List.eq_of_mem_replicate hp]
  exact ⟨List.length_replicate, List.cons_ne_nil _ _, rfl, rfl, fun h => absurd h (by decide)⟩

/-- The parameters are accepted, and on a proof without seeds the verifier panics. -/
theorem seedsProof_panics :
    validateParameters 64 16 8 40 = true ∧
      ¬ ∀ proof : Proof (ZMod 2) (GaloisField 2 64) 16 Unit,
        ¬ Panics (proof.verify false exactFloat bitEncoding unitOracle 1 64 zeroCircuit 8 40) := by
  refine ⟨rfl, fun h => h (seedsProof []) ?_⟩
  refine ((seedsProof []).panics_verify_iff false exactFloat bitEncoding unitOracle 1 64
    zeroCircuit 8 40 rfl rfl).2 fun cache _ => ⟨List.length_replicate, _,
      List.mem_replicate.2 ⟨by decide, rfl⟩, ?_⟩
  exact fun hshaped => absurd hshaped.seeds (by decide)

end Seeds

end EdaBitGen.Inferno
