import EdaBitGen.Inferno.Proof

/-!
# What a compression does to the shared values

A compression is linear in the sharings, so what the compressed vectors reconstruct to depends on
what the vectors before reconstruct to, and on the masks in the final round.  Whether it succeeds
depends on the length of the vectors only.
-/

namespace EdaBitGen.Inferno

/-! ## The parts of a compression -/

section Parts

variable {F S : Type} [Field F] [DecidableEq F] [AddCommMonoid S] [SMul F S]

omit [Field F] [DecidableEq F] in
/-- The number of values of each polynomial. -/
def nchunks (float : Float) (length compressionFactor : ℕ) (finalRound : Bool) : ℕ :=
  let dimension := float.ceilDiv length compressionFactor
  let chunks := (length + dimension - 1) / dimension
  if finalRound then chunks + 1 else chunks

/-- The basis polynomials of the first points, at the challenge. -/
def Cache.basis (cache : Cache F) (n : ℕ) (challenge : F) : List F :=
  basisPolynomial (LagrangeEvaluator.new (cache.points.take n)) (cache.points.take n) challenge

/-- One of the compressed vectors. -/
def compressed (dimension : ℕ) (finalRound : Bool) (polynomial : List F) (xs : List S)
    (masks : ℕ → S) : List S :=
  (List.range dimension).map fun i => evalWithBasisPolynomial
    (column dimension xs i ++ if finalRound then [masks i] else []) polynomial

omit [Field F] [DecidableEq F] in
@[simp] theorem length_compressed (dimension : ℕ) (finalRound : Bool) (polynomial : List F)
    (xs : List S) (masks : ℕ → S) :
    (compressed dimension finalRound polynomial xs masks).length = dimension := by
  simp [compressed]

omit [Field F] [DecidableEq F] in
theorem compressed_congr {dimension : ℕ} {finalRound : Bool} (polynomial : List F) (xs : List S)
    {masks masks' : ℕ → S} (h : finalRound = true → ∀ i < dimension, masks i = masks' i) :
    compressed dimension finalRound polynomial xs masks =
      compressed dimension finalRound polynomial xs masks' := by
  refine List.map_congr_left fun i hi => ?_
  cases finalRound with
  | false => rfl
  | true => rw [h rfl i (List.mem_range.1 hi)]

/-- The second half of a compression does not fail. -/
def Finishes (float : Float) (length compressionFactor : ℕ) (finalRound : Bool) (cache : Cache F)
    (nrands : ℕ) : Prop :=
  let n := nchunks float length compressionFactor finalRound
  ¬ (float.ceilDiv length compressionFactor = 0 ∨
      (finalRound = true ∧ nrands < float.ceilDiv length compressionFactor)) ∧
    ¬ cache.points.length < 2 * n - 1 ∧ n ∈ cache.evaluatorSizes ∧
      2 * n - 1 ∈ cache.evaluatorSizes

theorem roundCompressFinish_some {float : Float} {input : Round S} {compressionFactor : ℕ}
    {finalRound : Bool} {cache : Cache F} (challenge : F) {rands : List (S × S)} (hs : List S)
    (h : Finishes float input.xs.length compressionFactor finalRound cache rands.length) :
    let dimension := float.ceilDiv input.xs.length compressionFactor
    let n := nchunks float input.xs.length compressionFactor finalRound
    roundCompressFinish float input compressionFactor finalRound cache challenge rands hs =
      some ⟨compressed dimension finalRound (cache.basis n challenge) input.xs fun i =>
          (rands.getD i (0, 0)).1,
        compressed dimension finalRound (cache.basis n challenge) input.ys fun i =>
          (rands.getD i (0, 0)).2,
        some (evalWithBasisPolynomial hs (cache.basis (2 * n - 1) challenge))⟩ := by
  obtain ⟨hdim, hpoints, heval, heval'⟩ := h
  rw [nchunks] at hpoints heval heval'
  dsimp only [roundCompressFinish]
  rw [if_neg hdim, Chunks.length_all, if_neg hpoints, Cache.evaluators, if_pos heval,
    Cache.evaluators, if_pos heval']
  rfl

theorem roundCompressFinish_none {float : Float} {input : Round S} {compressionFactor : ℕ}
    {finalRound : Bool} {cache : Cache F} (challenge : F) {rands : List (S × S)} (hs : List S)
    (h : ¬ Finishes float input.xs.length compressionFactor finalRound cache rands.length) :
    roundCompressFinish float input compressionFactor finalRound cache challenge rands hs =
      none := by
  dsimp only [roundCompressFinish]
  rw [Chunks.length_all]
  change (if _ then none else if cache.points.length <
      2 * nchunks float input.xs.length compressionFactor finalRound - 1 then none else do
    let evaluator ← cache.evaluators (nchunks float input.xs.length compressionFactor finalRound)
    _) = none
  by_cases hdim : float.ceilDiv input.xs.length compressionFactor = 0 ∨
      (finalRound = true ∧ rands.length < float.ceilDiv input.xs.length compressionFactor)
  · rw [if_pos hdim]
  rw [if_neg hdim]
  by_cases hpoints : cache.points.length <
      2 * nchunks float input.xs.length compressionFactor finalRound - 1
  · rw [if_pos hpoints]
  rw [if_neg hpoints]
  by_cases heval : nchunks float input.xs.length compressionFactor finalRound ∈
      cache.evaluatorSizes
  · have heval' : 2 * nchunks float input.xs.length compressionFactor finalRound - 1 ∉
        cache.evaluatorSizes := fun heval' => h ⟨hdim, hpoints, heval, heval'⟩
    rw [Cache.evaluators, if_pos heval]
    change (do
      let evaluator ← cache.evaluators
        (2 * nchunks float input.xs.length compressionFactor finalRound - 1)
      _) = none
    rw [Cache.evaluators, if_neg heval']
    rfl
  · rw [Cache.evaluators, if_neg heval]
    rfl

end Parts

section Linear

variable {F S T : Type} [Field F] [AddCommMonoid S] [AddCommMonoid T] [Module F S] [Module F T]
  (f : S →ₗ[F] T)

theorem evalWithBasisPolynomial_map (coefficients : List S) (polynomial : List F) :
    evalWithBasisPolynomial (coefficients.map f) polynomial =
      f (evalWithBasisPolynomial coefficients polynomial) := by
  rw [evalWithBasisPolynomial, evalWithBasisPolynomial, map_list_sum, List.zipWith_map_right,
    List.map_zipWith]
  simp only [map_smul]

theorem column_map (dimension : ℕ) (xs : List S) (i : ℕ) :
    column dimension (xs.map f) i = (column dimension xs i).map f := by
  rw [column, column, Chunks.all_map, List.map_map, List.map_map]
  refine List.map_congr_left fun chunk _ => ?_
  simp only [Function.comp_apply, List.getD_eq_getElem?_getD, List.getElem?_map]
  cases chunk[i]? <;> simp

theorem compressed_map (dimension : ℕ) (finalRound : Bool) (polynomial : List F) (xs : List S)
    (masks : ℕ → S) :
    (compressed dimension finalRound polynomial xs masks).map f =
      compressed dimension finalRound polynomial (xs.map f) fun i => f (masks i) := by
  rw [compressed, compressed, List.map_map]
  refine List.map_congr_left fun i _ => ?_
  rw [Function.comp_apply, ← evalWithBasisPolynomial_map, List.map_append, column_map]
  split <;> rfl

end Linear

/-! ## The prover's compression -/

section Prover

variable {F : Type} [Field F] [DecidableEq F] {N : ℕ}

omit [Field F] in
/-- The first half of a compression does not fail. -/
def Starts (float : Float) (length compressionFactor : ℕ) (finalRound : Bool) (cache : Cache F) :
    Prop :=
  let dimension := float.ceilDiv length compressionFactor
  let chunks := (length + dimension - 1) / dimension
  dimension ≠ 0 ∧ chunks ≠ 0 ∧
    nchunks float length compressionFactor finalRound ∈ cache.newtonSizes ∧
      (chunks, finalRound) ∈ cache.basesSizes

omit [Field F] [DecidableEq F] in
theorem Cache.mem_of_newtonPolys {cache : Cache F} {n : ℕ} {points : List F}
    (h : cache.newtonPolys n = some points) : n ∈ cache.newtonSizes := by
  by_contra hmem
  rw [newtonPolys, if_neg hmem] at h
  cases h

omit [DecidableEq F] in
theorem Cache.mem_of_newtonBases {cache : Cache F} {k : ℕ} {finalRound : Bool}
    {bases : List (List F)} (h : cache.newtonBases k finalRound = some bases) :
    (k, finalRound) ∈ cache.basesSizes := by
  by_contra hmem
  rw [newtonBases, if_neg hmem] at h
  cases h

/-- The masks that the prover keeps. -/
def RoundDraws.masks (draws : RoundDraws F N) (dimension : ℕ) (finalRound : Bool) :
    List (SecretSharing F N × SecretSharing F N) :=
  if finalRound then (List.range dimension).map fun i =>
    (SecretSharing.random (draws.rands i).1, SecretSharing.random (draws.rands i).2)
  else []

omit [DecidableEq F] in
theorem roundCompressStart_some {float : Float} {round : Round (SecretSharing F N)}
    {compressionFactor : ℕ} {finalRound : Bool} {cache : Cache F} (draws : RoundDraws F N)
    (hz : round.z.isSome)
    (h : Starts float round.xs.length compressionFactor finalRound cache) :
    ∃ hs, roundCompressStart float round compressionFactor finalRound cache draws =
      some (hs, draws.masks (float.ceilDiv round.xs.length compressionFactor) finalRound) := by
  obtain ⟨z, hz⟩ := Option.isSome_iff_exists.1 hz
  obtain ⟨hdim, hchunks, hpoly, hbases⟩ := h
  rw [nchunks] at hpoly
  dsimp only [roundCompressStart]
  rw [if_neg hdim, Chunks.length_all, if_neg hchunks, hz, Cache.newtonPolys, if_pos hpoly,
    Cache.newtonBases, if_pos hbases]
  exact ⟨_, rfl⟩

omit [DecidableEq F] in
theorem roundCompressStart_none {float : Float} {round : Round (SecretSharing F N)}
    {compressionFactor : ℕ} {finalRound : Bool} {cache : Cache F} (draws : RoundDraws F N)
    (h : ¬ Starts float round.xs.length compressionFactor finalRound cache) :
    roundCompressStart float round compressionFactor finalRound cache draws = none := by
  dsimp only [roundCompressStart]
  by_cases hdim : float.ceilDiv round.xs.length compressionFactor = 0
  · rw [if_pos hdim]
  rw [if_neg hdim, Chunks.length_all]
  by_cases hchunks : (round.xs.length + float.ceilDiv round.xs.length compressionFactor - 1) /
      float.ceilDiv round.xs.length compressionFactor = 0
  · rw [if_pos hchunks]
  rw [if_neg hchunks]
  refine Option.bind_eq_none_iff.2 fun z _ => Option.bind_eq_none_iff.2 fun poly hpoly =>
    Option.bind_eq_none_iff.2 fun bases hbases => absurd ?_ h
  exact ⟨hdim, hchunks, Cache.mem_of_newtonPolys hpoly, Cache.mem_of_newtonBases hbases⟩

/-- A compression of vectors of a length does not fail. -/
def Compresses (float : Float) (length compressionFactor : ℕ) (finalRound : Bool)
    (cache : Cache F) : Prop :=
  Starts float length compressionFactor finalRound cache ∧
    Finishes float length compressionFactor finalRound cache
      (if finalRound then float.ceilDiv length compressionFactor else 0)

omit [DecidableEq F] in
theorem length_masks (draws : RoundDraws F N) (dimension : ℕ) (finalRound : Bool) :
    (draws.masks dimension finalRound).length = if finalRound then dimension else 0 := by
  cases finalRound <;> simp [RoundDraws.masks]

omit [DecidableEq F] in
theorem getD_masks (draws : RoundDraws F N) {dimension : ℕ} {finalRound : Bool}
    (h : finalRound = true) {i : ℕ} (hi : i < dimension) :
    (draws.masks dimension finalRound).getD i (0, 0) =
      (SecretSharing.random (draws.rands i).1, SecretSharing.random (draws.rands i).2) := by
  simp [RoundDraws.masks, h, List.getD_eq_getElem?_getD, hi]

theorem proverRound_some {float : Float} {round : Round (SecretSharing F N)}
    {compressionFactor : ℕ} {finalRound : Bool} {cache : Cache F} (challenge : F)
    (draws : RoundDraws F N) (hz : round.z.isSome)
    (h : Compresses float round.xs.length compressionFactor finalRound cache) :
    let dimension := float.ceilDiv round.xs.length compressionFactor
    let n := nchunks float round.xs.length compressionFactor finalRound
    ∃ z, proverRound float compressionFactor finalRound cache challenge draws round =
      some ⟨compressed dimension finalRound (cache.basis n challenge) round.xs fun i =>
          SecretSharing.random (draws.rands i).1,
        compressed dimension finalRound (cache.basis n challenge) round.ys fun i =>
          SecretSharing.random (draws.rands i).2, some z⟩ := by
  intro dimension n
  obtain ⟨hstart, hfinish⟩ := h
  obtain ⟨hs, hs_eq⟩ := roundCompressStart_some draws hz hstart
  rw [← length_masks draws] at hfinish
  have hround := roundCompressFinish_some challenge hs hfinish
  dsimp only at hround
  rw [compressed_congr _ round.xs fun hfinal i hi => congrArg Prod.fst (getD_masks draws hfinal hi),
    compressed_congr _ round.ys fun hfinal i hi =>
      congrArg Prod.snd (getD_masks draws hfinal hi)] at hround
  rw [proverRound, hs_eq]
  exact ⟨_, hround⟩

theorem proverRound_none {float : Float} {round : Round (SecretSharing F N)}
    {compressionFactor : ℕ} {finalRound : Bool} {cache : Cache F} (challenge : F)
    (draws : RoundDraws F N) (hz : round.z.isSome)
    (h : ¬ Compresses float round.xs.length compressionFactor finalRound cache) :
    proverRound float compressionFactor finalRound cache challenge draws round = none := by
  rw [proverRound]
  by_cases hstart : Starts float round.xs.length compressionFactor finalRound cache
  · obtain ⟨hs, hs_eq⟩ := roundCompressStart_some draws hz hstart
    rw [hs_eq]
    refine roundCompressFinish_none challenge hs fun hfinish => h ⟨hstart, ?_⟩
    rwa [length_masks] at hfinish
  · rw [roundCompressStart_none draws hstart]
    rfl

end Prover

/-! ## Values -/

section Values

variable {F : Type} [Field F] [DecidableEq F] {N : ℕ}

omit [DecidableEq F] in
/-- What the shares and the correction of a sharing sum to. -/
def reveal : SecretSharing F N →ₗ[F] F where
  toFun s := CorrectionSharing.reconstruct s.1
  map_add' s t := by
    simp only [CorrectionSharing.reconstruct, Prod.fst_add, Prod.snd_add, Pi.add_apply,
      Finset.sum_add_distrib]
    abel
  map_smul' c s := by
    simp only [CorrectionSharing.reconstruct, Prod.smul_fst, Prod.smul_snd, Pi.smul_apply,
      smul_eq_mul, RingHom.id_apply, mul_add, Finset.mul_sum]

/-- What the two vectors of a round reconstruct to. -/
def Round.revealed (round : Round (SecretSharing F N)) : List F × List F :=
  (round.xs.map reveal, round.ys.map reveal)

/-- What the masks of the parties sum to. -/
def RoundDraws.sums (draws : RoundDraws F N) (i : ℕ) : F × F :=
  (∑ j, (draws.rands i).1 j, ∑ j, (draws.rands i).2 j)

instance (float : Float) (length compressionFactor : ℕ) (finalRound : Bool) (cache : Cache F) :
    Decidable (Compresses float length compressionFactor finalRound cache) := by
  unfold Compresses Starts Finishes
  infer_instance

/-- A compression of values. -/
def valuesRound (float : Float) (compressionFactor : ℕ) (finalRound : Bool) (cache : Cache F)
    (challenge : F) (masks : ℕ → F × F) (values : List F × List F) : Option (List F × List F) :=
  if Compresses float values.1.length compressionFactor finalRound cache then
    let dimension := float.ceilDiv values.1.length compressionFactor
    let polynomial := cache.basis
      (nchunks float values.1.length compressionFactor finalRound) challenge
    some (compressed dimension finalRound polynomial values.1 fun i => (masks i).1,
      compressed dimension finalRound polynomial values.2 fun i => (masks i).2)
  else none

omit [DecidableEq F] in
theorem reveal_random (draws : Fin N → F) : reveal (SecretSharing.random draws) = ∑ i, draws i := by
  simp [reveal, SecretSharing.random, CorrectionSharing.reconstruct]

theorem revealed_proverRound (float : Float) (compressionFactor : ℕ) (finalRound : Bool)
    (cache : Cache F) (challenge : F) (draws : RoundDraws F N)
    {round : Round (SecretSharing F N)} (hz : round.z.isSome) :
    (proverRound float compressionFactor finalRound cache challenge draws round).map
        Round.revealed =
      valuesRound float compressionFactor finalRound cache challenge draws.sums round.revealed ∧
    ∀ out, proverRound float compressionFactor finalRound cache challenge draws round = some out →
      out.z.isSome := by
  have hlen : round.revealed.1.length = round.xs.length := List.length_map _
  rw [valuesRound, hlen]
  by_cases h : Compresses float round.xs.length compressionFactor finalRound cache
  · obtain ⟨z, hround⟩ := proverRound_some challenge draws hz h
    rw [hround, if_pos h]
    constructor
    · simp only [Option.map_some, Round.revealed, compressed_map, reveal_random, RoundDraws.sums]
    · rintro out ⟨⟩
      rfl
  · rw [proverRound_none challenge draws hz h, if_neg h]
    exact ⟨rfl, fun out hout => nomatch hout⟩

theorem revealed_foldlM (float : Float) (compressionFactor : ℕ) (cache : Cache F)
    (finalRound : ℕ → Bool) (challenges : ℕ → F) (draws : ℕ → RoundDraws F N) (rounds : List ℕ)
    {round : Round (SecretSharing F N)} (hz : round.z.isSome) :
    (rounds.foldlM (fun round i => proverRound float compressionFactor (finalRound i) cache
        (challenges i) (draws i) round) round).map Round.revealed =
      rounds.foldlM (fun values i => valuesRound float compressionFactor (finalRound i) cache
        (challenges i) (draws i).sums values) round.revealed ∧
    ∀ out, rounds.foldlM (fun round i => proverRound float compressionFactor (finalRound i) cache
        (challenges i) (draws i) round) round = some out → out.z.isSome := by
  induction rounds generalizing round with
  | nil => exact ⟨rfl, fun out hout => Option.some.inj hout ▸ hz⟩
  | cons i rounds ih =>
    obtain ⟨hvalues, hsome⟩ := revealed_proverRound float compressionFactor (finalRound i)
      cache (challenges i) (draws i) hz
    rw [List.foldlM_cons, List.foldlM_cons, ← hvalues]
    cases hround : proverRound float compressionFactor (finalRound i) cache (challenges i) (draws i)
        round with
    | none => exact ⟨rfl, fun out hout => nomatch hout⟩
    | some next => exact ih (hsome next hround)

/-- Both vectors have a length. -/
def HasLength (length : ℕ) (values : List F × List F) : Prop :=
  values.1.length = length ∧ values.2.length = length

/-- Without masks, two runs on vectors of one length both fail or both give vectors of one length. -/
theorem foldlM_valuesRound (float : Float) (compressionFactor : ℕ) (cache : Cache F)
    (challenges : ℕ → F) (rounds : List ℕ) {length : ℕ} {values values' : List F × List F}
    (h : HasLength length values) (h' : HasLength length values') :
    let run := rounds.foldlM fun values i =>
      valuesRound float compressionFactor false cache (challenges i) 0 values
    (run values = none ∧ run values' = none) ∨
      ∃ out out', run values = some out ∧ run values' = some out' ∧
        HasLength ((float.ceilDiv · compressionFactor)^[rounds.length] length) out ∧
          HasLength ((float.ceilDiv · compressionFactor)^[rounds.length] length) out' := by
  induction rounds generalizing length values values' with
  | nil => exact Or.inr ⟨values, values', rfl, rfl, h, h'⟩
  | cons i rounds ih =>
    dsimp only
    rw [List.foldlM_cons, List.foldlM_cons, valuesRound, valuesRound, h.1, h'.1]
    by_cases hcompress : Compresses float length compressionFactor false cache
    · rw [if_pos hcompress, if_pos hcompress]
      exact ih ⟨length_compressed .., length_compressed ..⟩
        ⟨length_compressed .., length_compressed ..⟩
    · rw [if_neg hcompress, if_neg hcompress]
      exact Or.inl ⟨rfl, rfl⟩

end Values

/-! ## Masks -/

section Masks

variable {F : Type} [Field F] [DecidableEq F]

theorem lagrangeNumerator_ne_zero {points : List F} {u e : F}
    (h : ∀ point ∈ points, point ≠ u → e ≠ point) : lagrangeNumerator points u e ≠ 0 := by
  suffices hfold : ∀ (start : F), start ≠ 0 → points.foldl (fun numerator point =>
      if point = u then numerator else numerator * (e - point)) start ≠ 0 from
    hfold 1 one_ne_zero
  induction points with
  | nil => exact fun start hstart => hstart
  | cons point points ih =>
    intro start hstart
    rw [List.foldl_cons]
    refine ih (fun p hp => h p (List.mem_cons_of_mem _ hp)) _ ?_
    by_cases hu : point = u
    · rwa [if_pos hu]
    · rw [if_neg hu]
      exact mul_ne_zero hstart (sub_ne_zero.2 (h point List.mem_cons_self hu))

theorem Cache.basis_succ {cache : Cache F} {n : ℕ} (hn : n < cache.points.length) {challenge : F}
    (h : challenge ∉ cache.points) :
    ∃ init c, cache.basis (n + 1) challenge = init ++ [c] ∧ init.length = n ∧ c ≠ 0 := by
  have hmap : ∀ points : List F, basisPolynomial (LagrangeEvaluator.new points) points challenge =
      points.map fun point => lagrangeNumerator points point challenge *
        lagrangeDenominator points point := by
    intro points
    rw [basisPolynomial, LagrangeEvaluator.new, List.zipWith_map_right, List.zipWith_self]
  rw [Cache.basis, hmap, ← List.take_concat_get' _ _ hn, List.map_append]
  refine ⟨_, _, rfl, ?_, mul_ne_zero ?_ (inv_ne_zero ?_)⟩
  · simp [hn.le]
  · refine lagrangeNumerator_ne_zero fun point hpoint _ hc => h ?_
    rw [List.take_concat_get' _ _ hn] at hpoint
    exact hc ▸ List.mem_of_mem_take hpoint
  · exact lagrangeNumerator_ne_zero fun point _ hu => hu.symm

omit [DecidableEq F] in
theorem evalWithBasisPolynomial_mask (coefficients : List F) (mask : F) {init : List F} (c : F)
    (h : init.length = coefficients.length) :
    evalWithBasisPolynomial (coefficients ++ [mask]) (init ++ [c]) =
      evalWithBasisPolynomial coefficients init + c * mask := by
  rw [evalWithBasisPolynomial, List.zipWith_append h, List.sum_append]
  simp [evalWithBasisPolynomial]

omit [DecidableEq F] in
theorem length_column (dimension : ℕ) (xs : List F) (i : ℕ) :
    (column dimension xs i).length = (xs.length + dimension - 1) / dimension := by
  rw [column, List.length_map, Chunks.length_all]

theorem compressed_shift {cache : Cache F} {dimension n : ℕ} (hn : n < cache.points.length)
    {challenge : F} (h : challenge ∉ cache.points) (xs xs' : List F)
    (hxs : (xs.length + dimension - 1) / dimension = n) (hlen : xs'.length = xs.length) :
    ∃ shift : ℕ → F, ∀ masks : ℕ → F,
      compressed dimension true (cache.basis (n + 1) challenge) xs masks =
        compressed dimension true (cache.basis (n + 1) challenge) xs' fun i =>
          masks i + shift i := by
  obtain ⟨init, c, hbasis, hinit, hc⟩ := cache.basis_succ hn h
  refine ⟨fun i => c⁻¹ * (evalWithBasisPolynomial (column dimension xs i) init -
    evalWithBasisPolynomial (column dimension xs' i) init), fun masks => ?_⟩
  refine List.map_congr_left fun i _ => ?_
  rw [if_pos rfl, if_pos rfl, hbasis,
    evalWithBasisPolynomial_mask _ _ c (by rw [length_column, hxs, hinit]),
    evalWithBasisPolynomial_mask _ _ c (by rw [length_column, hlen, hxs, hinit]), mul_add,
    mul_inv_cancel_left₀ hc]
  ring

end Masks

end EdaBitGen.Inferno
