import EdaBitGen.Inferno.Completeness

/-!
# When honest proofs are accepted

The numbers of chunks that the cache is filled for are computed with floating point, those of the
rounds are counted.  Honest proofs are accepted exactly if each number that is counted is one that the
cache is filled for.
-/

namespace EdaBitGen.Inferno

/-! ## The sizes -/

section Sizes

variable (float : Float) (nmuls compressionFactor : ℕ)

/-- The length of the vectors before a round. -/
def roundLength (i : ℕ) : ℕ := (float.ceilDiv · compressionFactor)^[i] nmuls

/-- The number of chunks that the cache is filled for. -/
def cachedChunks (i : ℕ) : ℕ :=
  let n := roundLength float nmuls compressionFactor i
  float.ceilDiv n (float.ceilDiv n compressionFactor)

/-- The number of chunks of the vectors. -/
def countedChunks (i : ℕ) : ℕ :=
  let n := roundLength float nmuls compressionFactor i
  let dimension := float.ceilDiv n compressionFactor
  (n + dimension - 1) / dimension

/-- There are points for the numbers of chunks that the cache is filled for. -/
def HasPoints : Prop :=
  ∀ i ≤ nrounds float nmuls compressionFactor,
    if i = nrounds float nmuls compressionFactor then
      cachedChunks float nmuls compressionFactor i ≤ compressionFactor
    else 2 ≤ cachedChunks float nmuls compressionFactor i ∧
      cachedChunks float nmuls compressionFactor i ≤ compressionFactor + 1

/-- The cache is filled for the number of chunks that is counted. -/
def IsCached (i : ℕ) : Prop :=
  float.ceilDiv (roundLength float nmuls compressionFactor i) compressionFactor ≠ 0 ∧
    countedChunks float nmuls compressionFactor i ≠ 0 ∧
    ∃ j ≤ nrounds float nmuls compressionFactor,
      (j = nrounds float nmuls compressionFactor ↔ i = nrounds float nmuls compressionFactor) ∧
      countedChunks float nmuls compressionFactor i = cachedChunks float nmuls compressionFactor j

/-- There are points for all numbers of chunks that the cache is filled for, and if there are rounds,
all numbers that are counted are among them. -/
structure Fits : Prop where
  points : HasPoints float nmuls compressionFactor
  counted : 0 < nrounds float nmuls compressionFactor →
    ∀ i ≤ nrounds float nmuls compressionFactor, IsCached float nmuls compressionFactor i

theorem roundLength_succ (i : ℕ) : roundLength float nmuls compressionFactor (i + 1) =
    float.ceilDiv (roundLength float nmuls compressionFactor i) compressionFactor :=
  Function.iterate_succ_apply' _ _ _

variable {float nmuls compressionFactor}

theorem mem_chunkSizes {nrounds : ℕ} {s : ℕ × Bool} :
    s ∈ Cache.chunkSizes float nmuls nrounds compressionFactor ↔
      ∃ i ≤ nrounds, s = (cachedChunks float nmuls compressionFactor i, decide (i = nrounds)) := by
  suffices h : ∀ m, (List.range m).foldl (fun acc i =>
      let dimension := float.ceilDiv acc.1 compressionFactor
      (dimension, insert (float.ceilDiv acc.1 dimension, decide (i = nrounds)) acc.2))
      (nmuls, (∅ : Finset (ℕ × Bool))) = (roundLength float nmuls compressionFactor m,
        (Finset.range m).image fun i =>
          (cachedChunks float nmuls compressionFactor i, decide (i = nrounds))) by
    rw [Cache.chunkSizes, h, Finset.mem_image]
    simp only [Finset.mem_range, Nat.lt_succ_iff]
    exact exists_congr fun i => and_congr_right fun _ => eq_comm
  intro m
  induction m with
  | zero => rfl
  | succ m ih =>
    rw [List.range_succ, List.foldl_append, ih, Finset.range_add_one, Finset.image_insert,
      roundLength_succ]
    rfl

/-- The numbers of values of the polynomials that the cache is filled for. -/
def cachedSizes (float : Float) (nmuls compressionFactor : ℕ) : Finset ℕ :=
  (Cache.chunkSizes float nmuls (nrounds float nmuls compressionFactor) compressionFactor).image
    fun s => if s.2 then s.1 + 1 else s.1

theorem masked_points_le {chunks k : ℕ} : 2 * (chunks + 1) - 1 ≤ 2 * k + 1 ↔ chunks ≤ k := by
  omega

/-- The cache needs no more points than there are, and the prover reserves no fewer than no bases. -/
theorem new_guard_iff :
    ((∀ n ∈ cachedSizes float nmuls compressionFactor,
        0 < n ∧ 2 * n - 1 ≤ 2 * compressionFactor + 1) ∧
      ∀ s ∈ Cache.chunkSizes float nmuls (nrounds float nmuls compressionFactor) compressionFactor,
        s.2 = false → 2 ≤ s.1) ↔
    HasPoints float nmuls compressionFactor := by
  constructor
  · rintro ⟨hpoints, hreserved⟩ i hi
    have hmem : (cachedChunks float nmuls compressionFactor i,
        decide (i = nrounds float nmuls compressionFactor)) ∈ Cache.chunkSizes float nmuls
          (nrounds float nmuls compressionFactor) compressionFactor :=
      mem_chunkSizes.2 ⟨i, hi, rfl⟩
    have hsize := hpoints _ (Finset.mem_image_of_mem _ hmem)
    have htwo := hreserved _ hmem
    by_cases hfinal : i = nrounds float nmuls compressionFactor
    · simp only [hfinal, decide_true, if_true] at hsize ⊢
      exact masked_points_le.1 hsize.2
    · simp only [hfinal, decide_false, Bool.false_eq_true, if_false] at hsize htwo ⊢
      have htwo := htwo trivial
      omega
  · intro h
    constructor
    · intro n hn
      obtain ⟨s, hs, rfl⟩ := Finset.mem_image.1 hn
      obtain ⟨i, hi, rfl⟩ := mem_chunkSizes.1 hs
      have hsize := h i hi
      by_cases hfinal : i = nrounds float nmuls compressionFactor
      · simp only [hfinal, decide_true, if_true] at hsize ⊢
        exact ⟨Nat.succ_pos _, masked_points_le.2 hsize⟩
      · simp only [hfinal, decide_false, Bool.false_eq_true, if_false] at hsize ⊢
        omega
    · intro s hs hfalse
      obtain ⟨i, hi, rfl⟩ := mem_chunkSizes.1 hs
      have hsize := h i hi
      rw [if_neg (of_decide_eq_false hfalse)] at hsize
      exact hsize.1

end Sizes

/-! ## The caches -/

section Caches

variable {F : Type} [Field F] {float : Float} {nmuls compressionFactor : ℕ} {generator : F}
  {isProver : Bool} {cache : Cache F}

/-- What a cache has. -/
structure Cache.Filled (float : Float) (generator : F) (nmuls compressionFactor : ℕ)
    (cache : Cache F) : Prop where
  points : cache.points = (List.range (2 * compressionFactor + 1)).map fun i => generator ^ (i + 1)
  evaluatorSizes : cache.evaluatorSizes = cachedSizes float nmuls compressionFactor ∪
    (cachedSizes float nmuls compressionFactor).image fun n => 2 * n - 1

theorem Cache.filled_of_new (h : Cache.new float generator nmuls compressionFactor isProver =
      some cache) : cache.Filled float generator nmuls compressionFactor := by
  rw [Cache.new] at h
  split at h
  · obtain rfl := Option.some.inj h
    exact ⟨rfl, rfl⟩
  · cases h

theorem Cache.prover_of_new (h : Cache.new float generator nmuls compressionFactor true =
      some cache) :
    cache.newtonSizes = cachedSizes float nmuls compressionFactor ∧
      cache.basesSizes = Cache.chunkSizes float nmuls (nrounds float nmuls compressionFactor)
        compressionFactor ∧
      HasPoints float nmuls compressionFactor := by
  rw [Cache.new] at h
  split at h
  · rename_i hguard
    obtain rfl := Option.some.inj h
    exact ⟨rfl, rfl, new_guard_iff.1 ⟨hguard.1, hguard.2 rfl⟩⟩
  · cases h

theorem Cache.exists_new (h : HasPoints float nmuls compressionFactor) (generator : F) (isProver : Bool) :
    ∃ cache, Cache.new float generator nmuls compressionFactor isProver = some cache := by
  obtain ⟨hpoints, hreserved⟩ := new_guard_iff.2 h
  exact ⟨_, if_pos ⟨hpoints, fun _ => hreserved⟩⟩

theorem Cache.Filled.nodup (h : cache.Filled float generator nmuls compressionFactor)
    (hgenerator : 2 * compressionFactor < orderOf generator) : cache.points.Nodup := by
  have hne : generator ≠ 0 := by
    rintro rfl
    rw [orderOf_zero] at hgenerator
    omega
  rw [h.points]
  refine List.Nodup.map_on (fun i hi j hj hij => ?_) List.nodup_range
  rw [pow_succ, pow_succ] at hij
  have hi' := List.mem_range.1 hi
  have hj' := List.mem_range.1 hj
  exact pow_injOn_Iio_orderOf (Set.mem_Iio.2 (by omega)) (Set.mem_Iio.2 (by omega))
    (mul_right_cancel₀ hne hij)

theorem Cache.compresses_iff
    (h : Cache.new float generator nmuls compressionFactor true = some cache) (i : ℕ) :
    Compresses float (roundLength float nmuls compressionFactor i) compressionFactor
        (i = nrounds float nmuls compressionFactor) cache ↔
      IsCached float nmuls compressionFactor i := by
  obtain ⟨hnewton, hbases, hguard⟩ := Cache.prover_of_new h
  have hfilled := Cache.filled_of_new h
  constructor
  · rintro ⟨⟨hdim, hchunks, -, hmem⟩, -⟩
    rw [hbases] at hmem
    obtain ⟨j, hj, heq⟩ := mem_chunkSizes.1 hmem
    obtain ⟨hcount, hfinal⟩ := Prod.mk.inj heq
    exact ⟨hdim, hchunks, j, hj, (decide_eq_decide.1 hfinal).symm, hcount⟩
  · rintro ⟨hdim, hchunks, j, hj, hfinal, hcount⟩
    have hmem : (countedChunks float nmuls compressionFactor i,
        decide (i = nrounds float nmuls compressionFactor)) ∈ Cache.chunkSizes float nmuls
          (nrounds float nmuls compressionFactor) compressionFactor :=
      mem_chunkSizes.2 ⟨j, hj, Prod.ext hcount (decide_eq_decide.2 hfinal.symm)⟩
    have hn : nchunks float (roundLength float nmuls compressionFactor i) compressionFactor
        (i = nrounds float nmuls compressionFactor) ∈ cachedSizes float nmuls compressionFactor :=
      Finset.mem_image_of_mem _ hmem
    have hpoints := ((new_guard_iff.2 hguard).1 _ hn).2
    have hlength : cache.points.length = 2 * compressionFactor + 1 := by
      rw [hfilled.points, List.length_map, List.length_range]
    refine ⟨⟨hdim, hchunks, hnewton ▸ hn, hbases ▸ hmem⟩, ?_, ?_, ?_, ?_⟩
    · rintro (hzero | ⟨hfinal, hlt⟩)
      · exact hdim hzero
      · rw [if_pos hfinal] at hlt
        exact lt_irrefl _ hlt
    · rw [hlength]
      exact Nat.not_lt_of_le hpoints
    · rw [hfilled.evaluatorSizes]
      exact Finset.mem_union_left _ hn
    · rw [hfilled.evaluatorSizes]
      exact Finset.mem_union_right _ (Finset.mem_image_of_mem _ hn)

end Caches

/-! ## The rounds -/

section Rounds

variable {Fp F : Type} [Field Fp] [Field F] [Algebra Fp F] [DecidableEq F] {N : ℕ} {Hash : Type}
  {float : Float} {enc : Encoding Fp F} {oracle : HashOracle Hash} {compressionFactor : ℕ}
  {finalRound : Bool} {cache : Cache F} {t : Transcript F N Hash}

/-- Vectors of a length with a product. -/
def Round.HasLength (length : ℕ) (round : Round (SecretSharing F N)) : Prop :=
  round.xs.length = length ∧ round.z.isSome

omit [Field Fp] [Algebra Fp F] in
variable (enc oracle) in
/-- A compression does not fail if there is what it asks for, and gets vectors of the next length. -/
theorem exists_compress {length : ℕ} (ht : t.round.HasLength length)
    (h : Compresses float length compressionFactor finalRound cache) (draws : RoundDraws F N) :
    ∃ t', t.compress float enc oracle compressionFactor finalRound cache draws = some t' ∧
      t'.round.HasLength (float.ceilDiv length compressionFactor) := by
  obtain ⟨rfl, hz⟩ := ht
  obtain ⟨hs, hstart⟩ := roundCompressStart_some draws hz h.1
  have hfinish := h.2
  rw [← length_masks draws] at hfinish
  let hashers := t.hashers.hashRound enc.toBytes (hs.map (·.1))
  let challenge := hashers.extractChallenge oracle enc.fromUniformBytes .prover
  obtain ⟨round, hround, hlength⟩ : ∃ round, roundCompressFinish float t.round compressionFactor
      finalRound cache challenge.1
        (draws.masks (float.ceilDiv t.round.xs.length compressionFactor) finalRound) hs =
          some round ∧ round.HasLength (float.ceilDiv t.round.xs.length compressionFactor) :=
    ⟨_, roundCompressFinish_some challenge.1 hs hfinish, length_compressed _ _ _ _ _, rfl⟩
  refine ⟨⟨round, challenge.2, t.commitments ++ [hashers.hashes oracle], t.hs ++ [hs],
    draws.masks (float.ceilDiv t.round.xs.length compressionFactor) finalRound⟩, ?_, hlength⟩
  rw [Transcript.compress, hstart]
  change (roundCompressFinish float t.round compressionFactor finalRound cache challenge.1
    (draws.masks (float.ceilDiv t.round.xs.length compressionFactor) finalRound) hs).bind _ = _
  rw [hround]
  rfl

omit [Field Fp] [Algebra Fp F] in
theorem compresses_of_compress {length : ℕ} (ht : t.round.HasLength length)
    {draws : RoundDraws F N} {t' : Transcript F N Hash}
    (h : t.compress float enc oracle compressionFactor finalRound cache draws = some t') :
    Compresses float length compressionFactor finalRound cache := by
  obtain ⟨rfl, hz⟩ := ht
  obtain ⟨challenge, hround⟩ := proverRound_of_compress h
  by_contra hcompress
  rw [proverRound_none challenge draws hz hcompress] at hround
  cases hround

omit [Field Fp] [Algebra Fp F] in
variable (float enc oracle compressionFactor cache) in
theorem exists_rounds_iff {nmuls : ℕ} (ht : t.round.HasLength nmuls) (nrounds : ℕ)
    (draws : ℕ → RoundDraws F N) (m : ℕ) :
    ((∃ t', (List.range m).foldlM (fun t i => t.compress float enc oracle compressionFactor
        (i = nrounds) cache (draws i)) t = some t') ↔
      ∀ i < m, Compresses float (roundLength float nmuls compressionFactor i) compressionFactor
        (i = nrounds) cache) ∧
    ∀ t', (List.range m).foldlM (fun t i => t.compress float enc oracle compressionFactor
        (i = nrounds) cache (draws i)) t = some t' →
      t'.round.HasLength (roundLength float nmuls compressionFactor m) := by
  induction m with
  | zero =>
    refine ⟨⟨fun _ i hi => absurd hi (Nat.not_lt_zero i), fun _ => ⟨t, rfl⟩⟩, fun t' h => ?_⟩
    obtain rfl := Option.some.inj h
    exact ht
  | succ m ih =>
    simp only [List.range_succ, List.foldlM_append, List.foldlM_cons, List.foldlM_nil]
    obtain ⟨hiff, hlength⟩ := ih
    constructor
    · constructor
      · rintro ⟨t', h⟩ i hi
        obtain ⟨before, hbefore, h⟩ := Option.bind_eq_some_iff.1 h
        obtain ⟨after, hafter, -⟩ := Option.bind_eq_some_iff.1 h
        rcases Nat.lt_succ_iff_lt_or_eq.1 hi with hi | rfl
        · exact hiff.1 ⟨before, hbefore⟩ i hi
        · exact compresses_of_compress (hlength before hbefore) hafter
      · intro h
        obtain ⟨before, hbefore⟩ := hiff.2 fun i hi => h i (Nat.lt_succ_of_lt hi)
        obtain ⟨after, hafter, -⟩ := exists_compress enc oracle
          (hlength before hbefore) (h m (Nat.lt_succ_self m)) (draws m)
        exact ⟨after, by rw [hbefore, Option.bind_eq_bind, Option.bind_some, hafter]; rfl⟩
    · intro t' h
      obtain ⟨before, hbefore, h⟩ := Option.bind_eq_some_iff.1 h
      obtain ⟨after, hafter, h⟩ := Option.bind_eq_some_iff.1 h
      obtain rfl := Option.some.inj h
      have hbefore := hlength before hbefore
      obtain ⟨after', hafter', hlength'⟩ := exists_compress enc oracle
        hbefore (compresses_of_compress hbefore hafter) (draws m)
      obtain rfl := Option.some.inj (hafter.symm.trans hafter')
      rwa [roundLength_succ]

omit [DecidableEq F] in
theorem hasLength_round1 {circuit : Circuit Fp} {witness : List Fp}
    {t : Circuit.Trace (SecretSharing Fp N)} (h : t.Products)
    (hshares : t.Shares (circuit.mulTrace witness)) (challenge : F) :
    (round1 t.xs t.ys t.zs challenge : Round (SecretSharing F N)).HasLength circuit.nmuls := by
  refine ⟨?_, rfl⟩
  simp [round1, h.length_xs, h.length_ys, Circuit.length_zs hshares]

end Rounds

/-! ## The whole run -/

section Complete

variable {Fp F : Type} [Field Fp] [Field F] [Algebra Fp F] [DecidableEq Fp] [DecidableEq F] {N : ℕ}
  {Hash : Type}

/-- The prover and then the verifier, each with its cache, do not fail, and the vectors of the prover
are in balance at the start and after each compression, whatever the challenges are. -/
structure Complete (float : Float) (enc : Encoding Fp F) (oracle : HashOracle Hash)
    (circuit : Circuit Fp) (compressionFactor : ℕ) (generator : F) (witness : List Fp)
    (seeds : Fin N → ℕ) (rounds : ℕ → RoundDraws F N) : Prop where
  accepted : ∃ cache cache' proof,
    Cache.new float generator circuit.nmuls compressionFactor true = some cache ∧
    Cache.new float generator circuit.nmuls compressionFactor false = some cache' ∧
    ProofSingle.proveWithHashes float enc oracle circuit witness compressionFactor cache seeds
      rounds = some proof ∧
    proof.verify float enc oracle circuit compressionFactor cache' = .ok ()
  start : ∀ (draws : ProverDraws Fp F N) output trace, circuit.evalSecretSharing
      (witness.mapIdx fun i w => SecretSharing.new w (draws.witness i)) draws.mults =
        some (output, trace) →
    ∀ challenge : F,
      (round1 trace.xs trace.ys trace.zs challenge : Round (SecretSharing F N)).Balanced
  preserved : ∀ cache, Cache.new float generator circuit.nmuls compressionFactor true = some cache →
    ∀ (finalRound : Bool) (challenge : F) (draws : RoundDraws F N)
      (round out : Round (SecretSharing F N)), round.Balanced →
      proverRound float compressionFactor finalRound cache challenge draws round = some out →
        out.Balanced

variable {float : Float} {enc : Encoding Fp F} {oracle : HashOracle Hash} {circuit : Circuit Fp}
  {compressionFactor : ℕ} {witness : List Fp} {seeds : Fin N → ℕ} {rounds : ℕ → RoundDraws F N}

omit [DecidableEq Fp] in
variable (float enc oracle seeds rounds) in
theorem exists_proof_iff (hN : N.isPowerOfTwo) (h : circuit.Accepts witness) {cache : Cache F} :
    (∃ proof, ProofSingle.proveWithHashes float enc oracle circuit witness compressionFactor cache
      seeds rounds = some proof) ↔
    (0 < nrounds float circuit.nmuls compressionFactor →
      ∀ i ≤ nrounds float circuit.nmuls compressionFactor,
        Compresses float (roundLength float circuit.nmuls compressionFactor i) compressionFactor
          (i = nrounds float circuit.nmuls compressionFactor) cache) := by
  have hpos : 0 < N := Nat.pos_of_isPowerOfTwo hN
  obtain ⟨trace, heval, hshares⟩ :=
    exists_trace hpos h (ProverDraws.ofSeeds enc seeds witness.length rounds)
  let start : Transcript F N Hash := .start enc oracle (witness.mapIdx fun i w =>
    SecretSharing.new w ((ProverDraws.ofSeeds enc seeds witness.length rounds).witness i)) trace
  have hlength : start.round.HasLength circuit.nmuls :=
    hasLength_round1 (circuit.products_evalSecretSharing heval) hshares _
  obtain ⟨hiff, hround⟩ := exists_rounds_iff float enc oracle compressionFactor cache hlength
    (nrounds float circuit.nmuls compressionFactor) rounds
    (nrounds float circuit.nmuls compressionFactor + 1)
  simp only [Nat.lt_succ_iff] at hiff
  constructor
  · rintro ⟨proof, hproof⟩ hrounds
    obtain ⟨-, trace', t, o, heval', -, ht, -⟩ := proveWithHashes_some h hproof
    obtain rfl := (Prod.mk.inj (Option.some.inj (heval.symm.trans heval'))).2
    rw [Transcript.rounds, if_pos hrounds] at ht
    exact hiff.1 ⟨t, ht⟩
  · intro hcompress
    obtain ⟨t, ht, hz⟩ : ∃ t, start.rounds float enc oracle
        (nrounds float circuit.nmuls compressionFactor) compressionFactor cache rounds = some t ∧
          t.round.z.isSome := by
      rw [Transcript.rounds]
      by_cases hrounds : nrounds float circuit.nmuls compressionFactor > 0
      · rw [if_pos hrounds]
        obtain ⟨t, ht⟩ := hiff.2 (hcompress hrounds)
        exact ⟨t, ht, (hround t ht).2⟩
      · rw [if_neg hrounds]
        exact ⟨start, rfl, rfl⟩
    obtain ⟨z, hz⟩ := Option.isSome_iff_exists.1 hz
    have hid : t.hashers.extractUnopenedParty oracle .prover N < N := Nat.mod_lt _ hpos
    rw [ProofSingle.proveWithHashes, if_neg (not_not_intro hN)]
    dsimp only
    rw [heval, Option.bind_eq_bind, Option.bind_some]
    change ∃ proof, (start.rounds float enc oracle (nrounds float circuit.nmuls compressionFactor)
      compressionFactor cache rounds).bind _ = some proof
    rw [ht, Option.bind_some, OutputShares.new, hz]
    dsimp only [Option.map_some, Option.bind_eq_bind, Option.bind_some]
    rw [dif_pos hid]
    exact ⟨_, rfl⟩

omit [DecidableEq F] in
theorem sameEvaluators_new {generator : F} {nmuls : ℕ} {cache cache' : Cache F}
    (h : Cache.new float generator nmuls compressionFactor true = some cache)
    (h' : Cache.new float generator nmuls compressionFactor false = some cache') :
    cache'.SameEvaluators cache := by
  have hfilled := Cache.filled_of_new h
  have hfilled' := Cache.filled_of_new h'
  exact ⟨hfilled'.points.trans hfilled.points.symm,
    hfilled'.evaluatorSizes.trans hfilled.evaluatorSizes.symm⟩

theorem Complete.fits {generator : F} (hN : N.isPowerOfTwo) (h : circuit.Accepts witness)
    (hcomplete : Complete float enc oracle circuit compressionFactor generator witness seeds rounds) :
    Fits float circuit.nmuls compressionFactor := by
  obtain ⟨cache, cache', proof, hcache, -, hproof, -⟩ := hcomplete.accepted
  refine ⟨(Cache.prover_of_new hcache).2.2, fun hrounds i hi => ?_⟩
  exact (Cache.compresses_iff hcache i).1 ((exists_proof_iff float enc oracle seeds rounds hN h).1
    ⟨proof, hproof⟩ hrounds i hi)

/-- With different points, the run of an honest prover does not fail exactly if the sizes fit. -/
theorem complete_iff (float : Float) (enc : Encoding Fp F) (oracle : HashOracle Hash)
    {circuit : Circuit Fp} {compressionFactor : ℕ} {generator : F}
    (hgenerator : 2 * compressionFactor < orderOf generator) (hN : N.isPowerOfTwo)
    {witness : List Fp} (h : circuit.Accepts witness) (seeds : Fin N → ℕ)
    (rounds : ℕ → RoundDraws F N) :
    Complete float enc oracle circuit compressionFactor generator witness seeds rounds ↔
      Fits float circuit.nmuls compressionFactor := by
  constructor
  · exact Complete.fits hN h
  · intro hfits
    obtain ⟨cache, hcache⟩ := Cache.exists_new hfits.points generator true
    obtain ⟨cache', hcache'⟩ := Cache.exists_new hfits.points generator false
    have hnodup := (Cache.filled_of_new hcache).nodup hgenerator
    obtain ⟨proof, hproof⟩ := (exists_proof_iff float enc oracle seeds rounds hN h).2 fun hrounds i hi =>
        (Cache.compresses_iff hcache i).2 (hfits.counted hrounds i hi)
    refine ⟨⟨cache, cache', proof, hcache, hcache', hproof,
      verify_proveWithHashes (sameEvaluators_new hcache hcache') hnodup h hproof⟩, ?_, ?_⟩
    · intro draws output trace heval challenge
      obtain ⟨trace', heval', hshares⟩ := exists_trace (Nat.pos_of_isPowerOfTwo hN) h draws
      obtain rfl := (Prod.mk.inj (Option.some.inj (heval.symm.trans heval'))).2
      exact balanced_round1 (circuit.products_evalSecretSharing heval) hshares.valid_xs
        hshares.valid_ys challenge
    · intro cache₂ hcache₂ finalRound challenge draws round out hround hout
      exact balanced_proverRound ((Cache.filled_of_new hcache₂).nodup hgenerator) challenge draws
        hround hout

end Complete

end EdaBitGen.Inferno
