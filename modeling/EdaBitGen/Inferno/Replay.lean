import EdaBitGen.Inferno.Balance

/-!
# What the opened parties hold

The shares of the opened parties are the same on both sides: in the sharings that the verifier
reconstructs, in the circuit, in the hashes and in all rounds.
-/

namespace EdaBitGen.Inferno

/-! ## Shares and hashes -/

section Shares

variable {F : Type} [Field F] {N : ℕ}

/-- The shares of all parties but one. -/
def opened (id : ℕ) : CorrectionSharing F N →ₗ[F] (Fin N → F) where
  toFun s i := if (i : ℕ) = id then 0 else s.1 i
  map_add' s t := by
    funext i
    rw [Pi.add_apply]
    split
    · rw [add_zero]
    · rfl
  map_smul' c s := by
    funext i
    rw [Pi.smul_apply]
    split
    · rw [smul_zero]
    · rfl

/-- The shares of all parties but one, of a sharing with its secret. -/
def openedSecret (id : ℕ) : SecretSharing F N →ₗ[F] (Fin N → F) :=
  (opened id).comp (LinearMap.fst F _ F)

variable {id : ℕ}

theorem opened_eq_iff {s t : CorrectionSharing F N} :
    opened id s = opened id t ↔ ∀ i : Fin N, (i : ℕ) ≠ id → s.1 i = t.1 i := by
  constructor
  · intro h i hi
    have happ := congrFun h i
    simpa [opened, hi] using happ
  · intro h
    funext i
    by_cases hi : (i : ℕ) = id
    · simp [opened, hi]
    · simpa [opened, hi] using h i hi

theorem checkEquality_of_opened [DecidableEq F] {s t : CorrectionSharing F N}
    (h : opened id s = opened id t) : CorrectionSharing.checkEquality s t id = true :=
  decide_eq_true (opened_eq_iff.1 h)

theorem opened_extract (s : SecretSharing F N) : opened id (s.extract id) = openedSecret id s := by
  refine opened_eq_iff.2 fun i hi => ?_
  simp [SecretSharing.extract, hi]

theorem getElem_of_map_eq {A B C : Type} {f : A → C} {g : B → C} {as : List A} {bs : List B}
    (h : as.map f = bs.map g) {i : ℕ} (ha : i < as.length) (hb : i < bs.length) :
    f as[i] = g bs[i] := by
  have hget := congrArg (·[i]?) h
  simpa [ha, hb] using hget

theorem length_of_map_eq {A B C : Type} {f : A → C} {g : B → C} {as : List A} {bs : List B}
    (h : as.map f = bs.map g) : as.length = bs.length := by
  simpa using congrArg List.length h

namespace Hashers

/-- The hashers of the opened parties are the same. -/
structure Agree (id : ℕ) (h h' : Hashers N) : Prop where
  count : h.count = h'.count
  hashers : ∀ i : Fin N, (i : ℕ) ≠ id → h.hashers i = h'.hashers i

omit [Field F] in
theorem foldl_hashSharing (toBytes : F → List UInt8) (xs : List (CorrectionSharing F N))
    (h : Hashers N) :
    xs.foldl (hashSharing toBytes) h =
      ⟨fun i => h.hashers i ++ (xs.map fun s => toBytes (s.1 i)).flatten, h.count⟩ := by
  induction xs generalizing h with
  | nil => simp
  | cons s xs ih =>
    rw [List.foldl_cons, ih]
    simp [hashSharing, List.append_assoc]

variable {h h' : Hashers N}

theorem Agree.foldl (hagree : Agree id h h') (toBytes : F → List UInt8)
    {xs : List (CorrectionSharing F N)} {ys : List (SecretSharing F N)}
    (hxs : xs.map (opened id) = ys.map (openedSecret id)) :
    Agree id (xs.foldl (hashSharing toBytes) h)
      ((ys.map (·.1)).foldl (hashSharing toBytes) h') := by
  rw [foldl_hashSharing, foldl_hashSharing]
  refine ⟨hagree.count, fun i hi => ?_⟩
  refine congrArg₂ (· ++ List.flatten ·) (hagree.hashers i hi) ?_
  rw [List.map_map]
  refine List.ext_getElem (by simpa using length_of_map_eq hxs) fun j hj hj' => ?_
  rw [List.getElem_map, List.getElem_map, Function.comp_apply]
  rw [List.length_map] at hj hj'
  exact congrArg toBytes (opened_eq_iff.1 (getElem_of_map_eq hxs hj hj') i hi)

variable {Hash : Type} (oracle : HashOracle Hash)

theorem Agree.combined (hagree : Agree id h h') (hid : id < N) :
    h.combined oracle (.verifier id (h'.hashes oracle ⟨id, hid⟩)) =
      h'.combined oracle .prover := by
  refine congrArg List.ofFn (funext fun i => ?_)
  by_cases hi : (i : ℕ) = id
  · subst hi
    exact if_pos rfl
  · exact (if_neg hi).trans (congrArg oracle.finalize (hagree.hashers i hi))

omit [Field F] in
theorem Agree.extractChallenge (hagree : Agree id h h') (hid : id < N)
    (fromUniformBytes : List UInt8 → F) :
    (h.extractChallenge oracle fromUniformBytes
        (.verifier id (h'.hashes oracle ⟨id, hid⟩))).1 =
      (h'.extractChallenge oracle fromUniformBytes .prover).1 ∧
    Agree id (h.extractChallenge oracle fromUniformBytes
        (.verifier id (h'.hashes oracle ⟨id, hid⟩))).2
      (h'.extractChallenge oracle fromUniformBytes .prover).2 := by
  refine ⟨?_, congrArg (· + 1) hagree.count, hagree.hashers⟩
  simp only [Hashers.extractChallenge, output, hagree.combined oracle hid, hagree.count]

theorem Agree.extractUnopenedParty (hagree : Agree id h h') (hid : id < N) (n : ℕ) :
    h.extractUnopenedParty oracle (.verifier id (h'.hashes oracle ⟨id, hid⟩)) n =
      h'.extractUnopenedParty oracle .prover n := by
  simp only [Hashers.extractUnopenedParty, output, hagree.combined oracle hid, hagree.count]

end Hashers

end Shares

section Reconstruct

variable {Fp F : Type} [Field Fp] {N : ℕ} {id : ℕ}

omit [Field Fp] in
theorem reconstruct_eq (enc : Encoding Fp F) (corrections : List Fp) (rngs : Fin N → enc.Rng) :
    OpenedPartiesShares.reconstruct enc corrections rngs =
      (corrections.mapIdx fun j c => (fun i => enc.draw (rngs i) j, c),
        fun i => enc.advance (rngs i) corrections.length) := by
  suffices hfold : ∀ start : List (CorrectionSharing Fp N), corrections.foldl
      (fun (acc : List (CorrectionSharing Fp N) × (Fin N → enc.Rng)) correction =>
        (acc.1 ++ [(fun i => (enc.random (acc.2 i)).1, correction)],
          fun i => (enc.random (acc.2 i)).2)) (start, rngs) =
      (start ++ corrections.mapIdx fun j c => (fun i => enc.draw (rngs i) j, c),
        fun i => enc.advance (rngs i) corrections.length) by
    rw [OpenedPartiesShares.reconstruct, hfold, List.nil_append]
  induction corrections generalizing rngs with
  | nil => exact fun start => by simp [Encoding.advance]
  | cons c corrections ih =>
    intro start
    rw [List.foldl_cons, ih, List.mapIdx_cons, List.append_assoc]
    rfl

omit [Field Fp] in
theorem reconstruct_pair (enc : Encoding Fp F) (corrections : List Fp) (rngs : Fin N → enc.Rng)
    {n : ℕ} (hn : corrections.length = n) :
    OpenedPartiesShares.reconstruct enc corrections rngs =
      ((OpenedPartiesShares.reconstruct enc corrections rngs).1,
        fun i => enc.advance (rngs i) n) := by
  rw [reconstruct_eq, hn]

/-- What is reconstructed from the corrections of sharings has their shares of the opened
parties. -/
theorem opened_reconstruct (enc : Encoding Fp F) (rngs : Fin N → enc.Rng)
    (ws : List (SecretSharing Fp N)) {rngs' : Fin N → enc.Rng}
    (hrngs : ∀ i : Fin N, (i : ℕ) ≠ id → rngs i = rngs' i)
    (hws : ∀ (j : ℕ) (s : SecretSharing Fp N), ws[j]? = some s →
      s.1.1 = fun i => enc.draw (rngs' i) j) :
    (OpenedPartiesShares.reconstruct enc (ws.map (·.1.2)) rngs).1.map (opened id) =
      ws.map (openedSecret id) := by
  rw [reconstruct_eq]
  refine List.ext_getElem (by simp) fun j hj hj' => ?_
  have hlt : j < ws.length := by simpa using hj'
  have hshares := hws j ws[j] (List.getElem?_eq_getElem hlt)
  simp only [List.getElem_map, List.getElem_mapIdx]
  refine opened_eq_iff.2 fun i hi => ?_
  change enc.draw (rngs i) j = ws[j].1.1 i
  rw [hshares, hrngs i hi]

end Reconstruct

/-! ## The circuit -/

section Circuit

variable {Fp : Type} [Field Fp] {N : ℕ} {id : ℕ}

namespace Circuit

/-- One operation of the prover. -/
def shareStep (draws : ℕ → Fin N → Fp) (t : Trace (SecretSharing Fp N)) (op : Op Fp) :
    Trace (SecretSharing Fp N) :=
  let wire := fun n => t.wires.getD n 0
  match op with
  | .add n m => { t with wires := t.wires ++ [wire n + wire m] }
  | .sub n m => { t with wires := t.wires ++ [wire n - wire m] }
  | .mul n m =>
    let z := SecretSharing.new ((wire n).2 * (wire m).2) (draws t.zs.length)
    ⟨t.wires ++ [z], t.xs ++ [wire n], t.ys ++ [wire m], t.zs ++ [z]⟩
  | .constant f => { t with wires := t.wires ++ [SecretSharing.newNonRandom f] }
  | .copy n => { t with wires := t.wires ++ [wire n] }

/-- One operation of the verifier. -/
def traceStep (mults : List (CorrectionSharing Fp N)) (t : Trace (CorrectionSharing Fp N))
    (op : Op Fp) : Trace (CorrectionSharing Fp N) :=
  let wire := fun n => t.wires.getD n 0
  match op with
  | .add n m => { t with wires := t.wires ++ [wire n + wire m] }
  | .sub n m => { t with wires := t.wires ++ [wire n - wire m] }
  | .mul n m =>
    let z := mults.getD t.zs.length 0
    ⟨t.wires ++ [z], t.xs ++ [wire n], t.ys ++ [wire m], t.zs ++ [z]⟩
  | .constant f => { t with wires := t.wires ++ [CorrectionSharing.newNonRandom f] }
  | .copy n => { t with wires := t.wires ++ [wire n] }

theorem zs_prefix_foldl (draws : ℕ → Fin N → Fp) (ops : List (Op Fp))
    (t : Trace (SecretSharing Fp N)) : t.zs <+: (ops.foldl (shareStep draws) t).zs := by
  induction ops generalizing t with
  | nil => exact List.prefix_rfl
  | cons op ops ih =>
    refine List.IsPrefix.trans ?_ (ih (shareStep draws t op))
    cases op with
    | mul n m => exact List.prefix_append _ _
    | add n m => exact List.prefix_rfl
    | sub n m => exact List.prefix_rfl
    | constant f => exact List.prefix_rfl
    | copy n => exact List.prefix_rfl

/-- The opened parties have the same shares of all wires and multiplications. -/
structure Trace.Agrees (id : ℕ) (t : Trace (CorrectionSharing Fp N))
    (t' : Trace (SecretSharing Fp N)) : Prop where
  wires : t.wires.map (opened id) = t'.wires.map (openedSecret id)
  xs : t.xs.map (opened id) = t'.xs.map (openedSecret id)
  ys : t.ys.map (opened id) = t'.ys.map (openedSecret id)
  zs : t.zs.map (opened id) = t'.zs.map (openedSecret id)

theorem opened_getD {xs : List (CorrectionSharing Fp N)} {ys : List (SecretSharing Fp N)}
    (h : xs.map (opened id) = ys.map (openedSecret id)) (n : ℕ) :
    opened id (xs.getD n 0) = openedSecret id (ys.getD n 0) := by
  have hget := congrArg (·[n]?) h
  simp only [List.getElem?_map] at hget
  rw [List.getD_eq_getElem?_getD, List.getD_eq_getElem?_getD]
  cases hx : xs[n]? with
  | none =>
    cases hy : ys[n]? with
    | none => rw [Option.getD_none, Option.getD_none, map_zero, map_zero]
    | some y => simp [hx, hy] at hget
  | some x =>
    cases hy : ys[n]? with
    | none => simp [hx, hy] at hget
    | some y => simpa [hx, hy] using hget

theorem Trace.Agrees.foldl (draws : ℕ → Fin N → Fp) {mults : List (CorrectionSharing Fp N)}
    (ops : List (Op Fp)) {t : Trace (CorrectionSharing Fp N)} {t' : Trace (SecretSharing Fp N)}
    (h : t.Agrees id t')
    (hmults : mults.map (opened id) =
      (ops.foldl (shareStep draws) t').zs.map (openedSecret id)) :
    (ops.foldl (traceStep mults) t).Agrees id (ops.foldl (shareStep draws) t') := by
  induction ops generalizing t t' with
  | nil => exact h
  | cons op ops ih =>
    refine ih ?_ hmults
    have hwire := opened_getD h.wires
    have hpush : ∀ {x : CorrectionSharing Fp N} {y : SecretSharing Fp N},
        opened id x = openedSecret id y →
          (t.wires ++ [x]).map (opened id) = (t'.wires ++ [y]).map (openedSecret id) := by
      intro x y hxy
      rw [List.map_append, List.map_append, h.wires, List.map_singleton, List.map_singleton, hxy]
    cases op with
    | add n m =>
      exact ⟨hpush (by rw [map_add, map_add, hwire, hwire]), h.xs, h.ys, h.zs⟩
    | sub n m =>
      exact ⟨hpush (by rw [map_sub, map_sub, hwire, hwire]), h.xs, h.ys, h.zs⟩
    | constant f => exact ⟨hpush rfl, h.xs, h.ys, h.zs⟩
    | copy n => exact ⟨hpush (hwire n), h.xs, h.ys, h.zs⟩
    | mul n m =>
      -- the prover's output is in the list that the verifier reconstructs, at the same index
      obtain ⟨rest, hrest⟩ := zs_prefix_foldl draws ops (shareStep draws t' (.mul n m))
      have hz : opened id (mults.getD t.zs.length 0) = openedSecret id (SecretSharing.new
          ((t'.wires.getD n 0).2 * (t'.wires.getD m 0).2) (draws t'.zs.length)) := by
        rw [opened_getD hmults, List.foldl_cons, ← hrest, length_of_map_eq h.zs]
        simp [shareStep, List.getD_eq_getElem?_getD]
      refine ⟨hpush hz, ?_, ?_, ?_⟩
      · rw [traceStep, shareStep, List.map_append, List.map_append, h.xs, List.map_singleton,
          List.map_singleton, hwire]
      · rw [traceStep, shareStep, List.map_append, List.map_append, h.ys, List.map_singleton,
          List.map_singleton, hwire]
      · rw [traceStep, shareStep, List.map_append, List.map_append, h.zs, List.map_singleton,
          List.map_singleton, hz]

/-- The verifier's inputs of the multiplications have the prover's shares of the opened parties. -/
theorem evalTrace_agrees (circuit : Circuit Fp) {inputs : List (SecretSharing Fp N)}
    {draws : ℕ → Fin N → Fp} {output : SecretSharing Fp N} {t : Trace (SecretSharing Fp N)}
    (h : circuit.evalSecretSharing inputs draws = some (output, t))
    (hzs : t.zs.length = circuit.nmuls) {inputs' mults : List (CorrectionSharing Fp N)}
    (hinputs : inputs'.map (opened id) = inputs.map (openedSecret id))
    (hmults : mults.map (opened id) = t.zs.map (openedSecret id)) :
    ∃ xs ys, circuit.evalTrace inputs' mults = some (xs, ys) ∧
      xs.map (opened id) = t.xs.map (openedSecret id) ∧
        ys.map (opened id) = t.ys.map (openedSecret id) := by
  rw [Circuit.evalSecretSharing] at h
  split at h
  · rename_i hguard
    obtain ⟨-, rfl⟩ := Prod.mk.inj (Option.some.inj h)
    have hstart : (⟨inputs', [], [], []⟩ : Trace (CorrectionSharing Fp N)).Agrees id
        ⟨inputs, [], [], []⟩ := ⟨hinputs, rfl, rfl, rfl⟩
    have hagree := hstart.foldl draws circuit.ops hmults
    refine ⟨_, _, ?_, hagree.xs, hagree.ys⟩
    have hlen : inputs'.length = circuit.ninputs ∧ mults.length = circuit.nmuls :=
      ⟨(length_of_map_eq hinputs).trans hguard.1, (length_of_map_eq hmults).trans hzs⟩
    rw [Circuit.evalTrace, if_pos hlen]
    rfl
  · cases h

end Circuit

end Circuit

end EdaBitGen.Inferno

/-!
# The replayed rounds

The verifier's rounds give the opened parties the shares that they have in the prover's.
-/

namespace EdaBitGen.Inferno

/-! ## Rounds -/

section Rounds

variable {F : Type} [Field F] {N : ℕ} {id : ℕ}

/-- The opened parties have the same shares of the vectors and of the product. -/
structure Round.Agrees (id : ℕ) (round : Round (CorrectionSharing F N))
    (round' : Round (SecretSharing F N)) : Prop where
  xs : round.xs.map (opened id) = round'.xs.map (openedSecret id)
  ys : round.ys.map (opened id) = round'.ys.map (openedSecret id)
  z : round.z.map (opened id) = round'.z.map (openedSecret id)

section Lift

variable {Fp : Type} [Field Fp] [Algebra Fp F]

theorem opened_multiplyBySuperfield {x : CorrectionSharing Fp N} {x' : SecretSharing Fp N}
    (h : opened id x = openedSecret id x') (y : F) :
    opened id (LinearSharing.multiplyBySuperfield x y : CorrectionSharing F N) =
      openedSecret id (LinearSharing.multiplyBySuperfield x' y) := by
  refine opened_eq_iff.2 fun i hi => ?_
  exact congrArg (algebraMap Fp F · * y) (opened_eq_iff.1 h i hi)

theorem opened_liftIntoSuperfield {x : CorrectionSharing Fp N} {x' : SecretSharing Fp N}
    (h : opened id x = openedSecret id x') :
    opened id (LinearSharing.liftIntoSuperfield F x : CorrectionSharing F N) =
      openedSecret id (LinearSharing.liftIntoSuperfield F x') := by
  refine opened_eq_iff.2 fun i hi => ?_
  exact congrArg (algebraMap Fp F) (opened_eq_iff.1 h i hi)

theorem agrees_round1 {xs ys zs : List (CorrectionSharing Fp N)}
    {xs' ys' zs' : List (SecretSharing Fp N)} (hxs : xs.map (opened id) = xs'.map (openedSecret id))
    (hys : ys.map (opened id) = ys'.map (openedSecret id))
    (hzs : zs.map (opened id) = zs'.map (openedSecret id)) (challenge : F) :
    (round1 xs ys zs challenge : Round (CorrectionSharing F N)).Agrees id
      (round1 xs' ys' zs' challenge) := by
  have hlx := length_of_map_eq hxs
  have hly := length_of_map_eq hys
  have hlz := length_of_map_eq hzs
  refine ⟨List.ext_getElem ?_ fun i hi hi' => ?_, List.ext_getElem ?_ fun i hi hi' => ?_, ?_⟩
  · simp [round1, hlx, hly, hlz]
  · simp only [round1, List.length_map, List.length_mapIdx, List.length_zip, lt_min_iff] at hi hi'
    simp only [round1, List.getElem_map, List.getElem_mapIdx, List.getElem_zip]
    exact opened_multiplyBySuperfield (getElem_of_map_eq hxs hi.1 hi'.1) _
  · simp [round1, hlx, hly, hlz]
  · simp only [round1, List.length_map, List.length_zip, lt_min_iff] at hi hi'
    simp only [round1, List.getElem_map, List.getElem_zip]
    exact opened_liftIntoSuperfield (getElem_of_map_eq hys hi.2.1 hi'.2.1)
  · simp only [round1, Option.map_some, map_list_sum]
    refine congrArg (some ∘ List.sum) (List.ext_getElem ?_ fun i hi hi' => ?_)
    · simp [hlx, hly, hlz]
    · simp only [List.length_map, List.length_mapIdx, List.length_zip, lt_min_iff] at hi hi'
      simp only [List.getElem_map, List.getElem_mapIdx, List.getElem_zip]
      exact opened_multiplyBySuperfield (getElem_of_map_eq hzs hi.2.2 hi'.2.2) _

end Lift

variable [DecidableEq F] {float : Float} {compressionFactor : ℕ} {finalRound : Bool}
  {cache cache' : Cache F}

/-- Both caches serve the second half of a compression alike. -/
structure Cache.SameEvaluators (cache cache' : Cache F) : Prop where
  points : cache.points = cache'.points
  sizes : cache.evaluatorSizes = cache'.evaluatorSizes

omit [DecidableEq F] in
theorem opened_rands (rands : List (SecretSharing F N × SecretSharing F N)) (i : ℕ) :
    opened id ((rands.map fun r => (r.1.extract id, r.2.extract id)).getD i (0, 0)).1 =
        openedSecret id (rands.getD i (0, 0)).1 ∧
      opened id ((rands.map fun r => (r.1.extract id, r.2.extract id)).getD i (0, 0)).2 =
        openedSecret id (rands.getD i (0, 0)).2 := by
  rw [List.getD_eq_getElem?_getD, List.getD_eq_getElem?_getD, List.getElem?_map]
  cases rands[i]? with
  | none => exact ⟨rfl, rfl⟩
  | some r => exact ⟨opened_extract r.1, opened_extract r.2⟩

theorem Round.Agrees.finish {round : Round (CorrectionSharing F N)}
    {round' out' : Round (SecretSharing F N)} (h : round.Agrees id round')
    (hcache : cache.SameEvaluators cache') (challenge : F)
    {rands : List (CorrectionSharing F N × CorrectionSharing F N)}
    {rands' : List (SecretSharing F N × SecretSharing F N)}
    (hrands : finalRound = true → rands = rands'.map fun r => (r.1.extract id, r.2.extract id))
    {hs : List (CorrectionSharing F N)} {hs' : List (SecretSharing F N)}
    (hhs : hs.map (opened id) = hs'.map (openedSecret id))
    (hout : roundCompressFinish float round' compressionFactor finalRound cache' challenge rands'
      hs' = some out') :
    ∃ out, roundCompressFinish float { round with z := none } compressionFactor finalRound cache
        challenge rands hs = some out ∧ out.Agrees id out' := by
  have hlen := length_of_map_eq h.xs
  by_cases hfinish : Finishes float round'.xs.length compressionFactor finalRound cache'
      rands'.length
  · have hbasis : ∀ n, cache.basis n challenge = cache'.basis n challenge := by
      intro n
      rw [Cache.basis, Cache.basis, hcache.points]
    have hfinish' : Finishes float ({ round with z := none } : Round _).xs.length compressionFactor
        finalRound cache rands.length := by
      rw [Finishes, hcache.points, hcache.sizes, hlen]
      refine ⟨fun hbad => hfinish.1 (hbad.imp_right fun hshort => ⟨hshort.1, ?_⟩), hfinish.2⟩
      rw [hrands hshort.1, List.length_map] at hshort
      exact hshort.2
    rw [roundCompressFinish_some challenge hs' hfinish] at hout
    obtain rfl := Option.some.inj hout
    refine ⟨_, roundCompressFinish_some challenge hs hfinish', ?_⟩
    dsimp only
    rw [hlen, hbasis, hbasis]
    refine ⟨?_, ?_, ?_⟩
    · rw [compressed_map, compressed_map, h.xs]
      refine compressed_congr _ _ fun hfinal i _ => ?_
      rw [hrands hfinal]
      exact (opened_rands rands' i).1
    · rw [compressed_map, compressed_map, h.ys]
      refine compressed_congr _ _ fun hfinal i _ => ?_
      rw [hrands hfinal]
      exact (opened_rands rands' i).2
    · rw [Option.map_some, Option.map_some, ← evalWithBasisPolynomial_map,
        ← evalWithBasisPolynomial_map, hhs]
  · rw [roundCompressFinish_none challenge hs' hfinish] at hout
    cases hout

end Rounds

/-! ## All rounds -/

section Replay

variable {Fp F : Type} [Field Fp] [Field F] [Algebra Fp F] [DecidableEq F] {N : ℕ} {Hash : Type}
  {id : ℕ} {float : Float} {enc : Encoding Fp F} {oracle : HashOracle Hash}
  {compressionFactor : ℕ} {cache cache' : Cache F}

/-- One round of the verifier. -/
def replayStep (float : Float) (enc : Encoding Fp F) (oracle : HashOracle Hash)
    (nrounds compressionFactor : ℕ) (cache : Cache F) (id : ℕ)
    (rands : List (CorrectionSharing F N × CorrectionSharing F N))
    (acc : Round (CorrectionSharing F N) × Hashers N)
    (p : (List (CorrectionSharing F N) × Hash) × ℕ) :
    Except Failure (Round (CorrectionSharing F N) × Hashers N) := do
  let hashers := acc.2.hashRound enc.toBytes p.1.1
  let (challenge, hashers) := hashers.extractChallenge oracle enc.fromUniformBytes
    (.verifier id p.1.2)
  let round ← orPanic (roundCompressFinish float { acc.1 with z := none } compressionFactor
    (p.2 = nrounds) cache challenge rands p.1.1)
  pure (round, hashers)

omit [Field Fp] [Algebra Fp F] in
theorem replayStep_ok {nrounds : ℕ}
    {rands : List (CorrectionSharing F N × CorrectionSharing F N)}
    {acc : Round (CorrectionSharing F N) × Hashers N}
    {p : (List (CorrectionSharing F N) × Hash) × ℕ} {challenge : F}
    (hchallenge : ((acc.2.hashRound enc.toBytes p.1.1).extractChallenge oracle
      enc.fromUniformBytes (.verifier id p.1.2)).1 = challenge)
    {out : Round (CorrectionSharing F N)}
    (h : roundCompressFinish float { acc.1 with z := none } compressionFactor (p.2 = nrounds) cache
      challenge rands p.1.1 = some out) :
    replayStep float enc oracle nrounds compressionFactor cache id rands acc p =
      .ok (out, ((acc.2.hashRound enc.toBytes p.1.1).extractChallenge oracle
        enc.fromUniformBytes (.verifier id p.1.2)).2) := by
  subst hchallenge
  exact congrArg (fun round? : Option (Round (CorrectionSharing F N)) =>
    (orPanic round? >>= fun round => pure (round,
      ((acc.2.hashRound enc.toBytes p.1.1).extractChallenge oracle enc.fromUniformBytes
        (.verifier id p.1.2)).2) : Except Failure (Round (CorrectionSharing F N) × Hashers N))) h

omit [Field Fp] [Algebra Fp F] in
theorem compress_some {finalRound : Bool} {draws : RoundDraws F N} {t t' : Transcript F N Hash}
    (h : t.compress float enc oracle compressionFactor finalRound cache draws = some t') :
    ∃ hs rands round, roundCompressStart float t.round compressionFactor finalRound cache draws =
        some (hs, rands) ∧
      roundCompressFinish float t.round compressionFactor finalRound cache
        ((t.hashers.hashRound enc.toBytes (hs.map (·.1))).extractChallenge oracle
          enc.fromUniformBytes .prover).1 rands hs = some round ∧
      t' = ⟨round, ((t.hashers.hashRound enc.toBytes (hs.map (·.1))).extractChallenge oracle
          enc.fromUniformBytes .prover).2,
        t.commitments ++ [(t.hashers.hashRound enc.toBytes (hs.map (·.1))).hashes oracle],
        t.hs ++ [hs], rands⟩ := by
  obtain ⟨⟨hs, rands⟩, hstart, h⟩ := Option.bind_eq_some_iff.1 h
  obtain ⟨round, hfinish, h⟩ := Option.bind_eq_some_iff.1 h
  exact ⟨hs, rands, round, hstart, hfinish, (Option.some.inj h).symm⟩

/-- What the proof has of the rounds so far. -/
def Transcript.messages (id : ℕ) (hid : id < N) (t : Transcript F N Hash) :
    List (List (CorrectionSharing F N) × Hash) :=
  (t.hs.map fun hs => hs.map fun s => s.extract id).zip
    ((t.commitments.map fun hashes => hashes ⟨id, hid⟩).drop 1)

omit [Field Fp] [Algebra Fp F] in
theorem replay_range (hid : id < N) (hcache : cache.SameEvaluators cache')
    (draws : ℕ → RoundDraws F N) (nrounds : ℕ) {t₀ : Transcript F N Hash} (hhs : t₀.hs = [])
    (hcommitments : t₀.commitments.length = 1) {round : Round (CorrectionSharing F N)}
    {hashers : Hashers N} (hround : round.Agrees id t₀.round) (hhashers : hashers.Agree id t₀.hashers)
    {m : ℕ} (hm : m ≤ nrounds + 1) {t : Transcript F N Hash}
    (h : (List.range m).foldlM (fun t i =>
      t.compress float enc oracle compressionFactor (i = nrounds) cache' (draws i)) t₀ = some t)
    {rands : List (CorrectionSharing F N × CorrectionSharing F N)}
    (hrands : m = nrounds + 1 → rands = t.rands.map fun r => (r.1.extract id, r.2.extract id)) :
    t.hs.length = m ∧ t.commitments.length = m + 1 ∧
      ∃ acc, (t.messages id hid).zipIdx.foldlM
          (replayStep float enc oracle nrounds compressionFactor cache id rands) (round, hashers) =
            .ok acc ∧ acc.1.Agrees id t.round ∧ acc.2.Agree id t.hashers := by
  induction m generalizing t with
  | zero =>
    obtain rfl := Option.some.inj h
    refine ⟨by rw [hhs, List.length_nil], hcommitments, (round, hashers), ?_, hround, hhashers⟩
    simp [Transcript.messages, hhs, pure, Except.pure]
  | succ m ih =>
    rw [List.range_succ, List.foldlM_append] at h
    obtain ⟨t', ht', h⟩ := Option.bind_eq_some_iff.1 h
    obtain ⟨hlen, hlen', acc, hacc, hagree, hagree'⟩ := ih (by omega) ht' (fun hm' => by omega)
    have hcompress : t'.compress float enc oracle compressionFactor (m = nrounds) cache'
        (draws m) = some t := by simpa using h
    obtain ⟨hs, rands', out, -, hfinish, rfl⟩ := compress_some hcompress
    refine ⟨by simp [hlen], by simp [hlen'], ?_⟩
    have hopened : (hs.map fun s => s.extract id).map (opened id) = hs.map (openedSecret id) := by
      rw [List.map_map]
      exact List.map_congr_left fun s _ => opened_extract s
    have hashed := hagree'.foldl enc.toBytes hopened
    obtain ⟨hchallenge, hashed'⟩ := hashed.extractChallenge oracle hid enc.fromUniformBytes
    obtain ⟨round', hround', hout⟩ := hagree.finish hcache _
      (fun hfinal => hrands (congrArg (· + 1) (of_decide_eq_true hfinal))) hopened hfinish
    refine ⟨(round', _), ?_, hout, hashed'⟩
    rw [Transcript.messages, List.map_append, List.map_append, List.drop_append_of_le_length,
      List.zip_append, ← Transcript.messages, List.zipIdx_append, List.foldlM_append, hacc]
    · have hcount : (t'.messages id hid).length = m := by
        simp [Transcript.messages, hlen, hlen']
      rw [hcount, Nat.zero_add]
      change (replayStep float enc oracle nrounds compressionFactor cache id rands acc
        ((hs.map fun s => s.extract id, _), m) >>= pure) = _
      rw [bind_pure]
      exact replayStep_ok hchallenge hround'
    · simp [hlen, hlen']
    · simp [hlen']

end Replay

end EdaBitGen.Inferno
