import EdaBitGen.Inferno.Replay

/-!
# Honest proofs are accepted

Whatever the seeds and the hashes are, the proof of a prover whose rounds do not fail is accepted.
The rounds do not fail if the cache has what the lengths of the vectors ask for.
-/

namespace EdaBitGen.Inferno

/-! ## The last checks -/

section Checks

variable {Fp F : Type} [Field Fp] [Field F] [Algebra Fp F] [DecidableEq Fp] [DecidableEq F] {N : ℕ}

theorem forM_ensure {A : Type} {as : List A} {check : A → Bool} (failure : Failure)
    (h : ∀ a ∈ as, check a = true) : as.forM (fun a => ensure (check a) failure) = pure () := by
  induction as with
  | nil => rfl
  | cons a as ih =>
    change (ensure (check a) failure >>= fun _ => as.forM fun a => ensure (check a) failure) = _
    rw [h a List.mem_cons_self, ih fun b hb => h b (List.mem_cons_of_mem _ hb)]
    rfl

omit [Field Fp] [Algebra Fp F] [DecidableEq Fp] in
theorem forM_checkEquality {id : ℕ} {xs : List (CorrectionSharing F N)}
    {ys : List (SecretSharing F N)} (h : xs.map (opened id) = ys.map (openedSecret id))
    (failure : Failure) :
    ((ys.map (·.1)).zip xs).forM (fun p =>
      ensure (CorrectionSharing.checkEquality p.1 p.2 id) failure) = pure () := by
  refine forM_ensure failure fun p hp => checkEquality_of_opened ?_
  obtain ⟨i, hi⟩ := List.mem_iff_getElem?.1 hp
  rw [List.getElem?_zip_eq_some, List.getElem?_map] at hi
  obtain ⟨y, hy, hy'⟩ := Option.map_eq_some_iff.1 hi.1
  have hget := congrArg (·[i]?) h
  simp only [List.getElem?_map, hi.2, hy, Option.map_some] at hget
  rw [← hy']
  exact (Option.some.inj hget).symm

omit [Field Fp] [Algebra Fp F] [DecidableEq Fp] in
theorem verifyLastRound_ok {id : ℕ} (hid : id < N) {round : Round (CorrectionSharing F N)}
    {round' : Round (SecretSharing F N)} (h : round.Agrees id round')
    {output : SecretSharing Fp N} {o : OutputShares Fp F N}
    (ho : OutputShares.new round' output = some o) : o.verifyLastRound round id = pure () := by
  obtain ⟨z', hz', rfl⟩ := Option.map_eq_some_iff.1 ho
  have hz := h.z
  rw [hz'] at hz
  obtain ⟨z, hz, hopened⟩ := Option.map_eq_some_iff.1 hz
  have hcheck : CorrectionSharing.checkEquality z'.1 z id = true :=
    checkEquality_of_opened hopened.symm
  rw [OutputShares.verifyLastRound, decide_eq_true hid]
  dsimp only
  rw [forM_checkEquality h.xs, forM_checkEquality h.ys, hz]
  change ensure (CorrectionSharing.checkEquality z'.1 z id) _ = _
  rw [hcheck]
  rfl

omit [Algebra Fp F] in
theorem verify_ok {round : Round (SecretSharing F N)} (h : round.Balanced)
    {output : SecretSharing Fp N} (hvalid : output.Valid) (hzero : output.2 = 0)
    {o : OutputShares Fp F N} (ho : OutputShares.new round output = some o) :
    o.verify = pure () := by
  obtain ⟨z, hz, rfl⟩ := Option.map_eq_some_iff.1 ho
  obtain ⟨z', hz', -, hproduct⟩ := h.product
  obtain rfl := Option.some.inj (hz.symm.trans hz')
  have houtput : CorrectionSharing.reconstruct output.1 = 0 := hvalid.trans hzero
  have hsum : (List.zipWith (fun f g => CorrectionSharing.reconstruct f *
      CorrectionSharing.reconstruct g) (round.xs.map (·.1)) (round.ys.map (·.1))).sum =
      CorrectionSharing.reconstruct z.1 := by
    rw [List.zipWith_map]
    refine Eq.trans ?_ hproduct.symm
    rw [Round.revealed, List.zipWith_map]
    rfl
  rw [OutputShares.verify]
  dsimp only
  rw [decide_eq_true houtput, decide_eq_true hsum]
  rfl

end Checks

/-! ## The circuit -/

section Circuit

variable {Fp : Type} [Field Fp] {N : ℕ} {circuit : Circuit Fp}

theorem Circuit.wires_mulTrace (inputs : List Fp) :
    (circuit.mulTrace inputs).1 = circuit.wires inputs := by
  rw [Circuit.mulTrace, Circuit.wires]
  generalize hacc : (inputs, ([] : List (Fp × Fp))) = acc
  obtain rfl : acc.1 = inputs := by rw [← hacc]
  clear hacc
  generalize circuit.ops = ops
  induction ops generalizing acc with
  | nil => rfl
  | cons op ops ih =>
    rw [List.foldl_cons, List.foldl_cons]
    cases op <;> exact ih _

theorem Circuit.Accepts.output {witness : List Fp} (h : circuit.Accepts witness)
    {t : Circuit.Trace (SecretSharing Fp N)} (ht : t.Shares (circuit.mulTrace witness)) :
    (t.wires.getLastD 0).Valid ∧ (t.wires.getLastD 0).2 = 0 := by
  have hwires : t.wires.map (·.2) =
      (circuit.wires witness).take ((circuit.wires witness).length - 1) ++ [0] := by
    have hdrop := h.2
    rw [Circuit.eval, h.noutputs] at hdrop
    rw [ht.wires, circuit.wires_mulTrace, ← hdrop, List.take_append_drop]
  obtain ⟨before, last, hsplit, -, hlast⟩ := List.map_eq_append_iff.1 hwires
  obtain ⟨s, rfl, hs⟩ := List.map_eq_singleton_iff.1 hlast
  rw [hsplit, List.getLastD_concat]
  exact ⟨ht.valid_wires s (by rw [hsplit]; simp), hs⟩

theorem Circuit.length_zs {witness : List Fp} {t : Circuit.Trace (SecretSharing Fp N)}
    (ht : t.Shares (circuit.mulTrace witness)) : t.zs.length = circuit.nmuls := by
  rw [ht.zs]
  exact circuit.length_mulInputs witness

theorem Circuit.shares_zs {inputs : List (SecretSharing Fp N)} {draws : ℕ → Fin N → Fp}
    {output : SecretSharing Fp N} {t : Circuit.Trace (SecretSharing Fp N)}
    (h : circuit.evalSecretSharing inputs draws = some (output, t)) :
    ∀ (j : ℕ) (s : SecretSharing Fp N), t.zs[j]? = some s → s.1.1 = draws j := by
  rw [Circuit.evalSecretSharing] at h
  split at h
  · obtain ⟨-, rfl⟩ := Prod.mk.inj (Option.some.inj h)
    change ∀ (j : ℕ) (s : SecretSharing Fp N), (circuit.ops.foldl (shareStep draws)
      ⟨inputs, [], [], []⟩).zs[j]? = some s → s.1.1 = draws j
    have hstart : ∀ (j : ℕ) (s : SecretSharing Fp N),
        (⟨inputs, [], [], []⟩ : Circuit.Trace (SecretSharing Fp N)).zs[j]? = some s →
          s.1.1 = draws j := by simp
    generalize (⟨inputs, [], [], []⟩ : Circuit.Trace (SecretSharing Fp N)) = t at hstart ⊢
    clear h
    generalize circuit.ops = ops
    induction ops generalizing t with
    | nil => exact hstart
    | cons op ops ih =>
      refine ih _ ?_
      cases op with
      | add n m => exact hstart
      | sub n m => exact hstart
      | constant f => exact hstart
      | copy n => exact hstart
      | mul n m =>
        intro j s hs
        rw [shareStep] at hs
        by_cases hj : j < t.zs.length
        · rw [List.getElem?_append_left hj] at hs
          exact hstart j s hs
        · rw [List.getElem?_append_right (Nat.le_of_not_lt hj)] at hs
          cases hd : j - t.zs.length with
          | zero =>
            obtain rfl : j = t.zs.length := by omega
            rw [hd] at hs
            obtain rfl := Option.some.inj hs
            rfl
          | succ d => simp [hd] at hs
  · cases h

end Circuit

/-! ## The verifier on an honest proof -/

section Verify

variable {Fp F : Type} [Field Fp] [Field F] [Algebra Fp F] [DecidableEq F] {N : ℕ} {Hash : Type}
  {float : Float} {enc : Encoding Fp F} {oracle : HashOracle Hash} {circuit : Circuit Fp}
  {compressionFactor : ℕ} {cache cache' : Cache F}

omit [Field Fp] [Algebra Fp F] in
theorem proverRound_of_compress {finalRound : Bool} {draws : RoundDraws F N}
    {t t' : Transcript F N Hash}
    (h : t.compress float enc oracle compressionFactor finalRound cache draws = some t') :
    ∃ challenge, proverRound float compressionFactor finalRound cache challenge draws t.round =
      some t'.round := by
  obtain ⟨hs, rands, round, hstart, hfinish, rfl⟩ := compress_some h
  refine ⟨((t.hashers.hashRound enc.toBytes (hs.map (·.1))).extractChallenge oracle
    enc.fromUniformBytes .prover).1, ?_⟩
  rw [proverRound, hstart]
  exact hfinish

omit [Field Fp] [Algebra Fp F] in
theorem rounds_some (hnodup : cache.points.Nodup) {nrounds : ℕ} {draws : ℕ → RoundDraws F N}
    {t t' : Transcript F N Hash} (ht : t.round.Balanced)
    (h : t.rounds float enc oracle nrounds compressionFactor cache draws = some t') :
    t'.round.Balanced ∧ t.commitments <+: t'.commitments := by
  rw [Transcript.rounds] at h
  split at h
  · generalize List.range (nrounds + 1) = rounds at h
    induction rounds generalizing t with
    | nil =>
      obtain rfl := Option.some.inj h
      exact ⟨ht, List.prefix_rfl⟩
    | cons i rounds ih =>
      rw [List.foldlM_cons] at h
      obtain ⟨next, hnext, h⟩ := Option.bind_eq_some_iff.1 h
      obtain ⟨challenge, hround⟩ := proverRound_of_compress hnext
      obtain ⟨hbalanced, hprefix⟩ := ih (balanced_proverRound hnodup challenge _ ht hround) h
      obtain ⟨hs, rands, round, -, -, rfl⟩ := compress_some hnext
      exact ⟨hbalanced, (List.prefix_append _ _).trans hprefix⟩
  · obtain rfl := Option.some.inj h
    exact ⟨ht, List.prefix_rfl⟩

variable [DecidableEq Fp]

omit [DecidableEq Fp] [Field Fp] [Algebra Fp F] in
theorem replayRounds_ok {id : ℕ} (hid : id < N) (hcache : cache'.SameEvaluators cache)
    {nrounds : ℕ} {draws : ℕ → RoundDraws F N} {t t' : Transcript F N Hash} (hhs : t.hs = [])
    (hcommitments : t.commitments.length = 1) {round : Round (CorrectionSharing F N)}
    {hashers : Hashers N} (hround : round.Agrees id t.round) (hhashers : hashers.Agree id t.hashers)
    (h : t.rounds float enc oracle nrounds compressionFactor cache draws = some t')
    {proof : ProofSingle Fp F N Hash} (hproof : proof.unopened.id = id)
    (hshares : proof.shares.hs = t'.hs.map fun hs => hs.map fun s => s.extract id)
    (hrands : proof.shares.rands = t'.rands.map fun r => (r.1.extract id, r.2.extract id))
    (hcom : proof.unopened.commitments = t'.commitments.map fun hashes => hashes ⟨id, hid⟩) :
    ∃ acc, proof.replayRounds float enc oracle nrounds compressionFactor cache' round hashers =
        .ok acc ∧ acc.1.Agrees id t'.round ∧ acc.2.Agree id t'.hashers := by
  rw [Transcript.rounds] at h
  rw [ProofSingle.replayRounds]
  by_cases hn : nrounds > 0
  · rw [if_pos hn] at h
    rw [if_pos hn, hshares, hcom, hproof]
    obtain ⟨-, -, acc, hacc, hagree⟩ := replay_range hid hcache draws nrounds hhs hcommitments
      hround hhashers le_rfl h fun _ => hrands
    exact ⟨acc, hacc, hagree⟩
  · rw [if_neg hn] at h
    obtain rfl := Option.some.inj h
    rw [if_neg hn]
    exact ⟨(round, hashers), rfl, hround, hhashers⟩

theorem verify_eq_ok (hN : N.isPowerOfTwo) {proof : ProofSingle Fp F N Hash}
    (hseeds : proof.shares.seeds.length = N) {witness mults : List (CorrectionSharing Fp N)}
    {rngs rngs' : Fin N → enc.Rng}
    (hwitness : OpenedPartiesShares.reconstruct enc proof.shares.witness
      (fun i => enc.fromSeed (proof.shares.seeds.getD i 0)) = (witness, rngs))
    (hmults : OpenedPartiesShares.reconstruct enc proof.shares.mults rngs = (mults, rngs'))
    {com : Hash} (hcom : proof.unopened.commitments.head? = some com)
    {xs ys : List (CorrectionSharing Fp N)}
    (htrace : circuit.evalTrace witness mults = some (xs, ys)) {challenge : F}
    (hchallenge : (((Hashers.new N).hashCircuitSharing enc.toBytesPrime witness
      mults).extractChallenge oracle enc.fromUniformBytes (.verifier proof.unopened.id com)).1 =
        challenge) {acc : Round (CorrectionSharing F N) × Hashers N}
    (hreplay : proof.replayRounds float enc oracle (nrounds float circuit.nmuls compressionFactor)
      compressionFactor cache (round1 xs ys mults challenge) (((Hashers.new N).hashCircuitSharing
        enc.toBytesPrime witness mults).extractChallenge oracle enc.fromUniformBytes
          (.verifier proof.unopened.id com)).2 = .ok acc)
    (hid : acc.2.extractUnopenedParty oracle
      (.verifier proof.unopened.id proof.unopened.finalCommitment) N = proof.unopened.id)
    (hlast : proof.output.verifyLastRound acc.1 proof.unopened.id = pure ())
    (hverify : proof.output.verify = pure ()) :
    proof.verify float enc oracle circuit compressionFactor cache = .ok () := by
  have hguard : (decide N.isPowerOfTwo && proof.shares.seeds.length == N) = true := by
    simp [hN, hseeds]
  rw [ProofSingle.verify]
  dsimp only
  rw [hguard, hwitness]
  dsimp only
  rw [hmults, hcom]
  dsimp only [orPanic]
  rw [pure_bind, htrace, pure_bind]
  subst hchallenge
  change (do
    ensure true Failure.panic
    let acc ← proof.replayRounds float enc oracle (nrounds float circuit.nmuls compressionFactor)
      compressionFactor cache (round1 xs ys mults _) _
    _) = _
  rw [hreplay]
  change (do
    proof.unopened.verifyId (acc.2.extractUnopenedParty oracle
      (.verifier proof.unopened.id proof.unopened.finalCommitment) N)
    proof.output.verifyLastRound acc.1 (acc.2.extractUnopenedParty oracle
      (.verifier proof.unopened.id proof.unopened.finalCommitment) N)
    proof.output.verify) = _
  rw [hid, hlast, hverify, UnopenedParty.verifyId, decide_eq_true rfl]
  rfl

omit [DecidableEq Fp] in
theorem proveWithHashes_some {witness : List Fp} (h : circuit.Accepts witness)
    {seeds : Fin N → ℕ} {rounds : ℕ → RoundDraws F N} {proof : ProofSingle Fp F N Hash}
    (hproof : ProofSingle.proveWithHashes float enc oracle circuit witness compressionFactor cache
      seeds rounds = some proof) :
    let draws := ProverDraws.ofSeeds enc seeds witness.length rounds
    let ws := witness.mapIdx fun i w => SecretSharing.new w (draws.witness i)
    N.isPowerOfTwo ∧ ∃ trace t o, circuit.evalSecretSharing ws draws.mults =
        some (trace.wires.getLastD 0, trace) ∧ trace.Shares (circuit.mulTrace witness) ∧
      (Transcript.start enc oracle ws trace).rounds float enc oracle
        (nrounds float circuit.nmuls compressionFactor) compressionFactor cache rounds = some t ∧
      OutputShares.new t.round (trace.wires.getLastD 0) = some o ∧
      ∃ (id : ℕ) (hid : id < N), t.hashers.extractUnopenedParty oracle .prover N = id ∧
        proof = ⟨o, .new id ws trace.zs t.hs t.rands seeds,
          ⟨id, t.commitments.map fun hashes => hashes ⟨id, hid⟩, t.hashers.hashes oracle ⟨id, hid⟩⟩⟩ := by
  intro draws ws
  rw [ProofSingle.proveWithHashes] at hproof
  by_cases hN : N.isPowerOfTwo
  · rw [if_neg (not_not_intro hN)] at hproof
    have hpos : 0 < N := by
      obtain ⟨k, hk⟩ := hN
      exact hk ▸ Nat.two_pow_pos k
    obtain ⟨trace, heval, hshares⟩ := exists_trace hpos h draws
    dsimp only at hproof
    rw [heval, Option.bind_eq_bind, Option.bind_some] at hproof
    obtain ⟨t, ht, hproof⟩ := Option.bind_eq_some_iff.1 hproof
    obtain ⟨o, ho, hproof⟩ := Option.bind_eq_some_iff.1 hproof
    dsimp only at hproof
    split at hproof
    · rename_i hid
      exact ⟨hN, trace, t, o, heval, hshares, ht, ho, _, hid, rfl, (Option.some.inj hproof).symm⟩
    · cases hproof
  · rw [if_pos hN] at hproof
    cases hproof

omit [Field Fp] [Field F] [Algebra Fp F] [DecidableEq F] [DecidableEq Fp] in
/-- The generators that the verifier has, of which the unopened party's is not the prover's. -/
def openedRngs (enc : Encoding Fp F) (seeds : Fin N → ℕ) (id : ℕ) (i : Fin N) : enc.Rng :=
  enc.fromSeed ((List.ofFn fun i : Fin N => if (i : ℕ) = id then 0 else seeds i).getD i 0)

omit [Field Fp] [Field F] [Algebra Fp F] [DecidableEq F] [DecidableEq Fp] in
theorem openedRngs_eq (enc : Encoding Fp F) (seeds : Fin N → ℕ) {id : ℕ} {i : Fin N}
    (hi : (i : ℕ) ≠ id) : openedRngs enc seeds id i = enc.fromSeed (seeds i) := by
  simp [openedRngs, List.getD_eq_getElem?_getD, hi]

theorem verify_proveWithHashes (hcache : cache'.SameEvaluators cache)
    (hnodup : cache.points.Nodup) {witness : List Fp} (h : circuit.Accepts witness)
    {seeds : Fin N → ℕ} {rounds : ℕ → RoundDraws F N} {proof : ProofSingle Fp F N Hash}
    (hproof : ProofSingle.proveWithHashes float enc oracle circuit witness compressionFactor cache
      seeds rounds = some proof) :
    proof.verify float enc oracle circuit compressionFactor cache' = .ok () := by
  obtain ⟨hN, trace, t, o, heval, hshares, ht, ho, id, hid, hid_eq, hparts⟩ :=
    proveWithHashes_some h hproof
  have hbalanced := balanced_round1 (F := F) (circuit.products_evalSecretSharing heval)
    hshares.valid_xs hshares.valid_ys
  obtain ⟨hround, rest, hrest⟩ := rounds_some hnodup (hbalanced _) ht
  obtain ⟨houtput, hzero⟩ := h.output hshares
  have hws := opened_reconstruct enc (openedRngs enc seeds id) (witness.mapIdx fun i w =>
    SecretSharing.new w ((ProverDraws.ofSeeds enc seeds witness.length rounds).witness i))
      (fun i hi => openedRngs_eq enc seeds hi) (by
        intro j s hs
        rw [List.getElem?_mapIdx] at hs
        obtain ⟨w, -, rfl⟩ := Option.map_eq_some_iff.1 hs
        rfl)
  have hzs := opened_reconstruct enc
    (fun i => enc.advance (openedRngs enc seeds id i) witness.length) trace.zs
    (fun i hi => congrArg (enc.advance · witness.length) (openedRngs_eq enc seeds hi))
    (Circuit.shares_zs heval)
  have hwitness := reconstruct_pair enc ((witness.mapIdx fun i w =>
    SecretSharing.new w ((ProverDraws.ofSeeds enc seeds witness.length rounds).witness i)).map
      (·.1.2)) (openedRngs enc seeds id) (by rw [List.length_map, List.length_mapIdx])
  obtain ⟨xs, ys, htrace, hxs, hys⟩ :=
    circuit.evalTrace_agrees heval (Circuit.length_zs hshares) hws hzs
  have hnew : (Hashers.new N).Agree id (Hashers.new N) := ⟨rfl, fun _ _ => rfl⟩
  have hhashed := (hnew.foldl enc.toBytesPrime hws).foldl enc.toBytesPrime hzs
  obtain ⟨hchallenge, hhashers⟩ := hhashed.extractChallenge oracle hid enc.fromUniformBytes
  have hstart := agrees_round1 (F := F) hxs hys hzs
  obtain ⟨acc, hreplay, hagree, hagree'⟩ := replayRounds_ok hid hcache rfl rfl (hstart _) hhashers
    ht (show proof.unopened.id = id by rw [hparts]) (by rw [hparts]; rfl) (by rw [hparts]; rfl)
      (by rw [hparts])
  subst hparts
  have hcom : (t.commitments.map fun hashes => hashes ⟨id, hid⟩).head? =
      some (((Hashers.new N).hashCircuitSharing enc.toBytesPrime ((witness.mapIdx fun i w =>
        SecretSharing.new w ((ProverDraws.ofSeeds enc seeds witness.length rounds).witness i)).map
          (·.1)) (trace.zs.map (·.1))).hashes oracle ⟨id, hid⟩) := by
    rw [← hrest]
    rfl
  exact verify_eq_ok hN (by simp [OpenedPartiesShares.new]) hwitness rfl hcom htrace
    hchallenge hreplay ((hagree'.extractUnopenedParty oracle hid N).trans hid_eq)
    (verifyLastRound_ok hid hagree ho) (verify_ok hround houtput hzero ho)

end Verify

end EdaBitGen.Inferno
