import EdaBitGen.Fields
import EdaBitGen.Inferno.Compression

/-!
# What the final vectors reveal

The final compression adds to each entry of both vectors a random mask, with a factor that is not
zero.  Without compressions the vectors are the inputs of the multiplications themselves.
-/

namespace EdaBitGen.Inferno

/-! ## The inputs of the multiplications -/

section Values

variable {F : Type} [Field F]

/-- The wires on an input and the inputs of all multiplications. -/
def Circuit.mulTrace (circuit : Circuit F) (inputs : List F) : List F × List (F × F) :=
  circuit.ops.foldl (fun acc op =>
    let wire := fun n => acc.1.getD n 0
    match op with
    | .add n m => (acc.1 ++ [wire n + wire m], acc.2)
    | .mul n m => (acc.1 ++ [wire n * wire m], acc.2 ++ [(wire n, wire m)])
    | .sub n m => (acc.1 ++ [wire n - wire m], acc.2)
    | .constant f => (acc.1 ++ [f], acc.2)
    | .copy n => (acc.1 ++ [wire n], acc.2)) (inputs, [])

def Circuit.mulInputs (circuit : Circuit F) (inputs : List F) : List (F × F) :=
  (circuit.mulTrace inputs).2

variable {N : ℕ}

/-- The shares and the correction give the secret. -/
def SecretSharing.Valid (s : SecretSharing F N) : Prop :=
  CorrectionSharing.reconstruct s.1 = s.2

namespace SecretSharing

theorem valid_zero : Valid (0 : SecretSharing F N) := by
  simp [Valid, CorrectionSharing.reconstruct]

theorem Valid.add {s t : SecretSharing F N} (hs : s.Valid) (ht : t.Valid) : (s + t).Valid := by
  rw [Valid, CorrectionSharing.reconstruct] at hs ht ⊢
  simp only [Prod.fst_add, Prod.snd_add, Pi.add_apply, Finset.sum_add_distrib, ← hs, ← ht]
  abel

theorem Valid.sub {s t : SecretSharing F N} (hs : s.Valid) (ht : t.Valid) : (s - t).Valid := by
  rw [Valid, CorrectionSharing.reconstruct] at hs ht ⊢
  simp only [Prod.fst_sub, Prod.snd_sub, Pi.sub_apply, Finset.sum_sub_distrib, ← hs, ← ht]
  abel

theorem valid_new (secret : F) (draws : Fin N → F) : (new secret draws).Valid := by
  simp [Valid, new, CorrectionSharing.new, CorrectionSharing.reconstruct]

theorem valid_newNonRandom (hN : 0 < N) (secret : F) : (newNonRandom secret :
    SecretSharing F N).Valid := by
  obtain ⟨n, rfl⟩ : ∃ n, N = n + 1 := ⟨N - 1, by omega⟩
  simp [Valid, newNonRandom, CorrectionSharing.newNonRandom, CorrectionSharing.reconstruct]

end SecretSharing

/-- The trace on sharings is the one on the secrets. -/
structure Circuit.Trace.Shares (t : Circuit.Trace (SecretSharing F N)) (acc : List F × List (F × F)) :
    Prop where
  wires : t.wires.map (·.2) = acc.1
  xs : t.xs.map (·.2) = acc.2.map (·.1)
  ys : t.ys.map (·.2) = acc.2.map (·.2)
  zs : t.zs.length = acc.2.length
  valid_wires : ∀ s ∈ t.wires, SecretSharing.Valid s
  valid_xs : ∀ s ∈ t.xs, SecretSharing.Valid s
  valid_ys : ∀ s ∈ t.ys, SecretSharing.Valid s

namespace Circuit.Trace.Shares

variable {t : Circuit.Trace (SecretSharing F N)} {acc : List F × List (F × F)}

theorem getD_wires (h : t.Shares acc) (n : ℕ) :
    (t.wires.getD n 0).2 = acc.1.getD n 0 ∧ (t.wires.getD n 0).Valid := by
  rw [← h.wires]
  by_cases hn : n < t.wires.length
  · have hget : t.wires.getD n 0 = t.wires[n] := by simp [List.getD_eq_getElem?_getD, hn]
    refine ⟨by simp [List.getD_eq_getElem?_getD, hn], ?_⟩
    rw [hget]
    exact h.valid_wires _ (List.getElem_mem hn)
  · have hget : t.wires.getD n 0 = 0 := by simp [List.getD_eq_getElem?_getD, hn]
    rw [hget]
    exact ⟨by simp [List.getD_eq_getElem?_getD, hn], SecretSharing.valid_zero⟩

theorem push (h : t.Shares acc) {s : SecretSharing F N} (hs : s.Valid) :
    { t with wires := t.wires ++ [s] }.Shares (acc.1 ++ [s.2], acc.2) := by
  refine ⟨?_, h.xs, h.ys, h.zs, ?_, h.valid_xs, h.valid_ys⟩
  · rw [List.map_append, h.wires]
    rfl
  · exact List.forall_mem_append.2 ⟨h.valid_wires, List.forall_mem_singleton.2 hs⟩

theorem pushMul (h : t.Shares acc) {x y s : SecretSharing F N} (hx : x.Valid) (hy : y.Valid)
    (hs : s.Valid) :
    (⟨t.wires ++ [s], t.xs ++ [x], t.ys ++ [y], t.zs ++ [s]⟩ :
      Circuit.Trace (SecretSharing F N)).Shares (acc.1 ++ [s.2], acc.2 ++ [(x.2, y.2)]) := by
  have hpush := h.push hs
  refine ⟨hpush.wires, ?_, ?_, ?_, hpush.valid_wires, ?_, ?_⟩
  · rw [List.map_append, h.xs, List.map_append]
    rfl
  · rw [List.map_append, h.ys, List.map_append]
    rfl
  · rw [List.length_append, List.length_append, h.zs]
    rfl
  · exact List.forall_mem_append.2 ⟨h.valid_xs, List.forall_mem_singleton.2 hx⟩
  · exact List.forall_mem_append.2 ⟨h.valid_ys, List.forall_mem_singleton.2 hy⟩

end Circuit.Trace.Shares

theorem Circuit.evalSecretSharing_some (circuit : Circuit F) (hN : 0 < N)
    (hout : circuit.noutputs = 1) {inputs : List (SecretSharing F N)}
    (hlen : inputs.length = circuit.ninputs) (hvalid : ∀ s ∈ inputs, SecretSharing.Valid s)
    (draws : ℕ → Fin N → F) :
    ∃ t, circuit.evalSecretSharing inputs draws = some (t.wires.getLastD 0, t) ∧
      t.Shares (circuit.mulTrace (inputs.map (·.2))) := by
  rw [Circuit.evalSecretSharing, if_pos ⟨hlen, hout⟩]
  refine ⟨_, rfl, ?_⟩
  rw [Circuit.mulTrace]
  generalize circuit.ops = ops
  have hstart : (⟨inputs, [], [], []⟩ : Circuit.Trace (SecretSharing F N)).Shares
      (inputs.map (·.2), []) := by
    refine ⟨rfl, rfl, rfl, rfl, hvalid, ?_, ?_⟩ <;> exact fun _ h => absurd h List.not_mem_nil
  generalize (⟨inputs, [], [], []⟩ : Circuit.Trace (SecretSharing F N)) = t at hstart ⊢
  generalize ((inputs.map (·.2), []) : List F × List (F × F)) = acc at hstart ⊢
  induction ops generalizing t acc with
  | nil => exact hstart
  | cons op ops ih =>
    rw [List.foldl_cons, List.foldl_cons]
    refine ih _ _ ?_
    cases op with
    | add n m =>
      obtain ⟨hn, hnv⟩ := hstart.getD_wires n
      obtain ⟨hm, hmv⟩ := hstart.getD_wires m
      simpa only [Prod.snd_add, hn, hm] using hstart.push (hnv.add hmv)
    | mul n m =>
      obtain ⟨hn, hnv⟩ := hstart.getD_wires n
      obtain ⟨hm, hmv⟩ := hstart.getD_wires m
      have hpush := hstart.pushMul hnv hmv (SecretSharing.valid_new
        ((t.wires.getD n 0).2 * (t.wires.getD m 0).2) (draws t.zs.length))
      simpa only [SecretSharing.new, hn, hm] using hpush
    | sub n m =>
      obtain ⟨hn, hnv⟩ := hstart.getD_wires n
      obtain ⟨hm, hmv⟩ := hstart.getD_wires m
      simpa only [Prod.snd_sub, hn, hm] using hstart.push (hnv.sub hmv)
    | constant f => exact hstart.push (SecretSharing.valid_newNonRandom hN f)
    | copy n =>
      obtain ⟨hn, hnv⟩ := hstart.getD_wires n
      simpa only [hn] using hstart.push hnv

theorem Circuit.length_mulInputs (circuit : Circuit F) (inputs : List F) :
    (circuit.mulInputs inputs).length = circuit.nmuls := by
  rw [mulInputs, mulTrace, nmuls]
  suffices h : ∀ acc : List F × List (F × F), (circuit.ops.foldl (fun acc op =>
      let wire := fun n => acc.1.getD n 0
      match op with
      | .add n m => (acc.1 ++ [wire n + wire m], acc.2)
      | .mul n m => (acc.1 ++ [wire n * wire m], acc.2 ++ [(wire n, wire m)])
      | .sub n m => (acc.1 ++ [wire n - wire m], acc.2)
      | .constant f => (acc.1 ++ [f], acc.2)
      | .copy n => (acc.1 ++ [wire n], acc.2)) acc).2.length =
      acc.2.length + (circuit.ops.filter Op.isMul).length by
    rw [h, List.length_nil, Nat.zero_add]
  generalize circuit.ops = ops
  induction ops with
  | nil => exact fun acc => rfl
  | cons op ops ih =>
    intro acc
    rw [List.foldl_cons, ih]
    cases op <;> simp [List.filter_cons, Op.isMul]
    omega

theorem Circuit.length_wires (circuit : Circuit F) (inputs : List F) :
    (circuit.wires inputs).length = inputs.length + circuit.ops.length := by
  rw [wires]
  generalize circuit.ops = ops
  induction ops generalizing inputs with
  | nil => rfl
  | cons op ops ih =>
    rw [List.foldl_cons, ih]
    simp only [List.length_append, List.length_cons, List.length_nil]
    omega

/-- A witness on which the circuit is zero. -/
def Circuit.Accepts (circuit : Circuit F) (witness : List F) : Prop :=
  witness.length = circuit.ninputs ∧ circuit.eval witness = [0]

theorem Circuit.Accepts.noutputs {circuit : Circuit F} {witness : List F}
    (h : circuit.Accepts witness) : circuit.noutputs = 1 := by
  have hlen := congrArg List.length h.2
  have hle := circuit.noutputs_le
  rw [eval, List.length_drop, length_wires, List.length_singleton] at hlen
  omega

end Values

/-! ## What the prover's vectors reconstruct to -/

section Prover

variable {Fp F : Type} [Field Fp] [Field F] [Algebra Fp F] [DecidableEq F] {N : ℕ}

omit [DecidableEq F] in
/-- The values of the two vectors before the first compression. -/
def initialValues (circuit : Circuit Fp) (challenge : F) (witness : List Fp) : List F × List F :=
  ((circuit.mulInputs witness).mapIdx fun i p =>
    algebraMap Fp F p.1 * (fun r : F => r * r)^[i] challenge,
    (circuit.mulInputs witness).map fun p => algebraMap Fp F p.2)

omit [DecidableEq F] in
theorem reveal_multiply (x : SecretSharing Fp N) (y : F) :
    reveal (LinearSharing.multiplyBySuperfield x y : SecretSharing F N) =
      algebraMap Fp F (reveal x) * y := by
  change _ = algebraMap Fp F (CorrectionSharing.reconstruct x.1) * y
  rw [CorrectionSharing.reconstruct, map_add, map_sum, add_mul, Finset.sum_mul]
  rfl

omit [DecidableEq F] in
theorem reveal_lift (x : SecretSharing Fp N) :
    reveal (LinearSharing.liftIntoSuperfield F x : SecretSharing F N) =
      algebraMap Fp F (reveal x) := by
  change _ = algebraMap Fp F (CorrectionSharing.reconstruct x.1)
  rw [CorrectionSharing.reconstruct, map_add, map_sum]
  rfl

omit [DecidableEq F] in
theorem reveal_multiplyBySuperfield {x : SecretSharing Fp N} (hx : x.Valid) (y : F) :
    reveal (LinearSharing.multiplyBySuperfield x y : SecretSharing F N) =
      algebraMap Fp F x.2 * y := by
  rw [← hx]
  exact reveal_multiply x y

omit [DecidableEq F] in
theorem reveal_liftIntoSuperfield {x : SecretSharing Fp N} (hx : x.Valid) :
    reveal (LinearSharing.liftIntoSuperfield F x : SecretSharing F N) = algebraMap Fp F x.2 := by
  rw [← hx]
  exact reveal_lift x

omit [DecidableEq F] in
theorem revealed_round1 {circuit : Circuit Fp} {witness : List Fp}
    {t : Circuit.Trace (SecretSharing Fp N)} (h : t.Shares (circuit.mulTrace witness))
    (challenge : F) :
    (round1 t.xs t.ys t.zs challenge : Round (SecretSharing F N)).revealed =
      initialValues circuit challenge witness := by
  have hxs : t.xs.length = (circuit.mulInputs witness).length := by
    simpa [Circuit.mulInputs] using congrArg List.length h.xs
  have hys : t.ys.length = (circuit.mulInputs witness).length := by
    simpa [Circuit.mulInputs] using congrArg List.length h.ys
  have hzs : t.zs.length = (circuit.mulInputs witness).length := h.zs
  refine Prod.ext (List.ext_getElem ?_ fun i hi hi' => ?_) (List.ext_getElem ?_ fun i hi hi' => ?_)
  · simp [Round.revealed, round1, initialValues, hxs, hys, hzs]
  · have hlt : i < t.xs.length := by
      rw [hxs]
      simpa [initialValues] using hi'
    have hx : (t.xs.map (·.2))[i]? = ((circuit.mulInputs witness).map (·.1))[i]? := by
      rw [h.xs, Circuit.mulInputs]
    simp [hlt, hxs ▸ hlt] at hx
    simp [Round.revealed, round1, initialValues,
      reveal_multiplyBySuperfield (h.valid_xs _ (List.getElem_mem hlt)), hx]
  · simp [Round.revealed, round1, initialValues, hxs, hys, hzs]
  · have hlt : i < t.ys.length := by
      rw [hys]
      simpa [initialValues] using hi'
    have hy : (t.ys.map (·.2))[i]? = ((circuit.mulInputs witness).map (·.2))[i]? := by
      rw [h.ys, Circuit.mulInputs]
    simp [hlt, hys ▸ hlt] at hy
    simp [Round.revealed, round1, initialValues,
      reveal_liftIntoSuperfield (h.valid_ys _ (List.getElem_mem hlt)), hy]

/-- All draws of the parties: for the witness, for the products and for the values of the rounds, and
the masks. -/
abbrev Tape (Fp F : Type) (N B : ℕ) :=
  ((Fin B → Fin N → Fp) × (Fin B → Fin N → Fp) × (Fin B → Fin B → Fin N → F)) ×
    (Fin B → (Fin N → F) × (Fin N → F))

omit [DecidableEq F] in
/-- A finite sequence with zeros behind. -/
def extend {A : Type} [Zero A] {B : ℕ} (x : Fin B → A) (i : ℕ) : A :=
  if h : i < B then x ⟨i, h⟩ else 0

omit [DecidableEq F] in
def ProverDraws.ofTape {B : ℕ} (t : Tape Fp F N B) : ProverDraws Fp F N where
  witness := extend t.1.1
  mults := extend t.1.2.1
  rounds i := ⟨extend (extend t.1.2.2 i), extend t.2⟩

/-- What the two vectors of the proof's output reconstruct to. -/
def revealed (float : Float) (circuit : Circuit Fp) (compressionFactor : ℕ) (cache : Cache F)
    (challenges : ℕ → F) {B : ℕ} (witness : List Fp) (t : Tape Fp F N B) :
    Option (List F × List F) :=
  (ProofSingle.prove float circuit witness compressionFactor cache challenges
    (ProverDraws.ofTape t)).map fun o =>
      (o.fs.map CorrectionSharing.reconstruct, o.gs.map CorrectionSharing.reconstruct)

/-- Two witnesses on which the circuit is zero give the same distribution. -/
def Hidden (float : Float) (circuit : Circuit Fp) (compressionFactor : ℕ) (cache : Cache F)
    (challenges : ℕ → F) (N B : ℕ) : Prop :=
  ∀ witness witness', circuit.Accepts witness → circuit.Accepts witness' →
    ∀ values : Option (List F × List F),
      Nat.card {t : Tape Fp F N B //
          revealed float circuit compressionFactor cache challenges witness t = values} =
        Nat.card {t : Tape Fp F N B //
          revealed float circuit compressionFactor cache challenges witness' t = values}

variable {float : Float} {circuit : Circuit Fp} {compressionFactor : ℕ} {cache : Cache F}
  {challenges : ℕ → F} {B : ℕ}

omit [Field F] [Algebra Fp F] [DecidableEq F] in
theorem exists_trace (hN : 0 < N) {witness : List Fp} (h : circuit.Accepts witness)
    (draws : ProverDraws Fp F N) :
    ∃ trace, circuit.evalSecretSharing
        (witness.mapIdx fun i w => SecretSharing.new w (draws.witness i)) draws.mults =
          some (trace.wires.getLastD 0, trace) ∧ trace.Shares (circuit.mulTrace witness) := by
  have hsecrets : (witness.mapIdx fun i w =>
      SecretSharing.new w (draws.witness i)).map (·.2) = witness :=
    List.ext_getElem (by simp) fun i _ _ => by simp [SecretSharing.new]
  have hlen : (witness.mapIdx fun i w =>
      SecretSharing.new w (draws.witness i)).length = circuit.ninputs := by
    rw [List.length_mapIdx, h.1]
  have hvalid : ∀ s ∈ witness.mapIdx fun i w =>
      SecretSharing.new w (draws.witness i), SecretSharing.Valid s := by
    intro s hs
    obtain ⟨i, hi, rfl⟩ := List.mem_mapIdx.1 hs
    exact SecretSharing.valid_new _ _
  obtain ⟨trace, heval, hshares⟩ := circuit.evalSecretSharing_some hN h.noutputs hlen hvalid
    draws.mults
  rw [hsecrets] at hshares
  exact ⟨trace, heval, hshares⟩

theorem revealed_eq (hN : 0 < N) {witness : List Fp} (h : circuit.Accepts witness)
    (t : Tape Fp F N B) :
    revealed float circuit compressionFactor cache challenges witness t =
      let nrounds := nrounds float circuit.nmuls compressionFactor
      if nrounds > 0 then
        (List.range (nrounds + 1)).foldlM (fun values i => valuesRound float compressionFactor
          (i = nrounds) cache (challenges (i + 1)) ((ProverDraws.ofTape t).rounds i).sums values)
          (initialValues circuit (challenges 0) witness)
      else some (initialValues circuit (challenges 0) witness) := by
  obtain ⟨trace, heval, hshares⟩ := exists_trace hN h (ProverDraws.ofTape t)
  have hround : ∀ round : Round (SecretSharing F N), round.z.isSome →
      (OutputShares.new round (trace.wires.getLastD 0)).map (fun o =>
        (o.fs.map CorrectionSharing.reconstruct, o.gs.map CorrectionSharing.reconstruct)) =
        some round.revealed := by
    intro round hz
    obtain ⟨z, hz⟩ := Option.isSome_iff_exists.1 hz
    simp only [OutputShares.new, hz, Option.map_some, List.map_map]
    rfl
  have hinitial := revealed_round1 hshares (challenges 0)
  rw [revealed, ProofSingle.prove, heval]
  dsimp only [Option.bind_eq_bind, Option.bind_some]
  by_cases hn : nrounds float circuit.nmuls compressionFactor > 0
  · rw [if_pos hn, if_pos hn, ← hinitial]
    obtain ⟨hvalues, hsome⟩ := revealed_foldlM float compressionFactor cache
      (fun i => decide (i = nrounds float circuit.nmuls compressionFactor))
      (fun i => challenges (i + 1)) (ProverDraws.ofTape t).rounds
      (List.range (nrounds float circuit.nmuls compressionFactor + 1))
      (show (round1 trace.xs trace.ys trace.zs (challenges 0) :
        Round (SecretSharing F N)).z.isSome from rfl)
    rw [← hvalues]
    cases hrun : (List.range (nrounds float circuit.nmuls compressionFactor + 1)).foldlM
        (fun round i => proverRound float compressionFactor
          (decide (i = nrounds float circuit.nmuls compressionFactor)) cache (challenges (i + 1))
          ((ProverDraws.ofTape t).rounds i) round)
        (round1 trace.xs trace.ys trace.zs (challenges 0)) with
    | none => rfl
    | some out => exact hround out (hsome out hrun)
  · rw [if_neg hn, if_neg hn, ← hinitial]
    exact hround _ rfl

/-! ## Masked vectors -/

theorem foldlM_masks {finalRound : ℕ → Bool} (masks : ℕ → ℕ → F × F) {rounds : List ℕ}
    (h : ∀ i ∈ rounds, finalRound i = false) (values : List F × List F) :
    rounds.foldlM (fun values i => valuesRound float compressionFactor (finalRound i) cache
        (challenges (i + 1)) (masks i) values) values =
      rounds.foldlM (fun values i => valuesRound float compressionFactor false cache
        (challenges (i + 1)) 0 values) values := by
  induction rounds generalizing values with
  | nil => rfl
  | cons i rounds ih =>
    rw [List.foldlM_cons, List.foldlM_cons, h i List.mem_cons_self]
    congr 1
    funext next
    exact ih (fun j hj => h j (List.mem_cons_of_mem _ hj)) next

/-- The final compression of one pair of vectors is that of another of its length with shifted
masks. -/
theorem valuesRound_shift (float : Float) (compressionFactor : ℕ) {length : ℕ} (houtside : ∀ i, challenges i ∉ cache.points) (i : ℕ)
    {values values' : List F × List F} (h : HasLength length values)
    (h' : HasLength length values') :
    ∃ shift : ℕ → F × F, ∀ masks masks' : ℕ → F × F,
      (∀ j < float.ceilDiv length compressionFactor, masks' j = masks j + shift j) →
        valuesRound float compressionFactor true cache (challenges i) masks values =
          valuesRound float compressionFactor true cache (challenges i) masks' values' := by
  simp only [valuesRound, h.1, h'.1]
  by_cases hcompress : Compresses float length compressionFactor true cache
  · have hn : (length + float.ceilDiv length compressionFactor - 1) /
        float.ceilDiv length compressionFactor < cache.points.length := by
      have hpoints := hcompress.2.2.1
      simp only [nchunks, if_true] at hpoints
      omega
    obtain ⟨left, hleft⟩ := compressed_shift hn (houtside i) values.1 values'.1
      (by rw [h.1]) (h'.1.trans h.1.symm)
    obtain ⟨right, hright⟩ := compressed_shift hn (houtside i) values.2 values'.2
      (by rw [h.2]) (h'.2.trans h.2.symm)
    refine ⟨fun j => (left j, right j), fun masks masks' hmasks => ?_⟩
    rw [if_pos hcompress, if_pos hcompress]
    simp only [nchunks, if_true]
    rw [hleft, hright]
    exact congrArg some (Prod.ext
      (compressed_congr _ values'.1 fun _ j hj => (congrArg Prod.fst (hmasks j hj)).symm)
      (compressed_congr _ values'.2 fun _ j hj => (congrArg Prod.snd (hmasks j hj)).symm))
  · exact ⟨0, fun _ _ _ => by rw [if_neg hcompress, if_neg hcompress]⟩

omit [DecidableEq F] in
/-- The tape whose only entries are masks of the first party. -/
def maskTape (hN : 0 < N) (shift : ℕ → F × F) : Tape Fp F N B :=
  (0, fun j => (Pi.single ⟨0, hN⟩ (shift j).1, Pi.single ⟨0, hN⟩ (shift j).2))

omit [Algebra Fp F] [DecidableEq F] in
theorem sums_add_maskTape (hN : 0 < N) (t : Tape Fp F N B) (shift : ℕ → F × F) (i : ℕ) {j : ℕ}
    (hj : j < B) :
    ((ProverDraws.ofTape (t + maskTape hN shift)).rounds i).sums j =
      ((ProverDraws.ofTape t).rounds i).sums j + shift j := by
  simp [ProverDraws.ofTape, RoundDraws.sums, extend, hj, maskTape, Finset.sum_add_distrib]
  rfl

theorem revealed_shift (hN : 0 < N) (houtside : ∀ i, challenges i ∉ cache.points)
    (hB : (float.ceilDiv · compressionFactor)^[nrounds float circuit.nmuls compressionFactor + 1]
      circuit.nmuls ≤ B) (hrounds : 0 < nrounds float circuit.nmuls compressionFactor)
    {witness witness' : List Fp} (h : circuit.Accepts witness) (h' : circuit.Accepts witness') :
    ∃ s : Tape Fp F N B, ∀ t : Tape Fp F N B,
      revealed float circuit compressionFactor cache challenges witness t =
        revealed float circuit compressionFactor cache challenges witness' (t + s) := by
  simp only [revealed_eq hN h, revealed_eq hN h', if_pos hrounds]
  generalize nrounds float circuit.nmuls compressionFactor = n at hB
  have hprefix : ∀ i ∈ List.range n, decide (i = n) = false :=
    fun i hi => decide_eq_false (List.mem_range.1 hi).ne
  simp only [List.range_succ, List.foldlM_append, foldlM_masks _ hprefix, List.foldlM_cons,
    List.foldlM_nil, bind_pure, decide_true]
  have hlength : ∀ witness : List Fp,
      HasLength circuit.nmuls (initialValues circuit (challenges 0) witness) := fun witness => by
    simp [HasLength, initialValues, circuit.length_mulInputs]
  have hruns := foldlM_valuesRound float compressionFactor cache (fun i => challenges (i + 1)) (List.range n) (hlength witness)
    (hlength witness')
  dsimp only at hruns
  obtain ⟨hnone, hnone'⟩ | ⟨out, out', hout, hout', hlen, hlen'⟩ := hruns
  · refine ⟨0, fun t => ?_⟩
    rw [hnone, hnone']
    rfl
  · obtain ⟨shift, hshift⟩ := valuesRound_shift float compressionFactor houtside (n + 1) hlen hlen'
    refine ⟨maskTape hN shift, fun t => ?_⟩
    rw [hout, hout']
    refine hshift _ _ fun j hj => sums_add_maskTape hN t shift n (lt_of_lt_of_le hj ?_)
    rwa [List.length_range, ← Function.iterate_succ_apply'
      (fun l => float.ceilDiv l compressionFactor) n]

/-! ## Vectors without masks -/

/-- The inputs of the multiplications that show without compressions: all right ones, and all left
ones unless the challenge is zero. -/
def SameInputs (circuit : Circuit Fp) (challenge : F) (witness witness' : List Fp) : Prop :=
  (circuit.mulInputs witness).map (·.2) = (circuit.mulInputs witness').map (·.2) ∧
    (challenge = 0 ∨
      (circuit.mulInputs witness).map (·.1) = (circuit.mulInputs witness').map (·.1))

omit [DecidableEq F] in
theorem iterate_square_eq_zero (challenge : F) (i : ℕ) :
    (fun r : F => r * r)^[i] challenge = 0 ↔ challenge = 0 := by
  induction i with
  | zero => rfl
  | succ i ih => rw [Function.iterate_succ_apply', mul_self_eq_zero, ih]

omit [DecidableEq F] in
/-- Multiples by powers of a challenge are the same for the same elements, or if the challenge is
zero. -/
theorem mapIdx_mul_eq_iff (challenge : F) {xs ys : List Fp} (hlen : xs.length = ys.length) :
    ((xs.mapIdx fun i x => algebraMap Fp F x * (fun r : F => r * r)^[i] challenge) =
      ys.mapIdx fun i y => algebraMap Fp F y * (fun r : F => r * r)^[i] challenge) ↔
      challenge = 0 ∨ xs = ys := by
  constructor
  · intro h
    by_cases hchallenge : challenge = 0
    · exact Or.inl hchallenge
    refine Or.inr (List.ext_getElem hlen fun i hi hi' => ?_)
    have hget := congrArg (·[i]?) h
    simp only [List.getElem?_mapIdx, List.getElem?_eq_getElem hi, List.getElem?_eq_getElem hi',
      Option.map_some, Option.some.injEq] at hget
    exact (algebraMap Fp F).injective
      (mul_right_cancel₀ (mt (iterate_square_eq_zero challenge i).1 hchallenge) hget)
  · rintro (rfl | rfl)
    · have hzero : ∀ i, (fun r : F => r * r)^[i] 0 = 0 := fun i => (iterate_square_eq_zero 0 i).2 rfl
      refine List.ext_getElem (by simpa using hlen) fun i _ _ => ?_
      simp [hzero]
    · rfl

omit [DecidableEq F] in
theorem initialValues_eq_iff (circuit : Circuit Fp) (challenge : F) (witness witness' : List Fp) :
    initialValues circuit challenge witness = initialValues circuit challenge witness' ↔
      SameInputs circuit challenge witness witness' := by
  have hlen : ((circuit.mulInputs witness).map (·.1)).length =
      ((circuit.mulInputs witness').map (·.1)).length := by
    rw [List.length_map, List.length_map, circuit.length_mulInputs, circuit.length_mulInputs]
  have hleft := mapIdx_mul_eq_iff challenge hlen
  have hright := (List.map_injective_iff.2 (algebraMap Fp F).injective).eq_iff
    (a := (circuit.mulInputs witness).map (·.2)) (b := (circuit.mulInputs witness').map (·.2))
  have hmap : ∀ (g : ℕ → Fp → F) (ps : List (Fp × Fp)),
      (ps.map (·.1)).mapIdx g = ps.mapIdx fun i p => g i p.1 :=
    fun g ps => List.ext_getElem (by simp) fun i _ _ => by simp
  rw [hmap, hmap] at hleft
  rw [List.map_map, List.map_map] at hright
  rw [SameInputs, ← hleft, ← hright, and_comm, initialValues, initialValues, Prod.mk.injEq]
  rfl

theorem revealed_of_nrounds_eq_zero (hN : 0 < N)
    (hrounds : nrounds float circuit.nmuls compressionFactor = 0) {witness : List Fp}
    (h : circuit.Accepts witness) (t : Tape Fp F N B) :
    revealed float circuit compressionFactor cache challenges witness t =
      some (initialValues circuit (challenges 0) witness) := by
  rw [revealed_eq hN h, hrounds]
  rfl

theorem not_hidden [Finite Fp] [Finite F] (hN : 0 < N)
    (hrounds : nrounds float circuit.nmuls compressionFactor = 0) {witness witness' : List Fp}
    (h : circuit.Accepts witness) (h' : circuit.Accepts witness')
    (hne : ¬ SameInputs circuit (challenges 0) witness witness') :
    ¬ Hidden float circuit compressionFactor cache challenges N B := by
  intro hhidden
  have hcard := hhidden witness witness' h h'
    (some (initialValues circuit (challenges 0) witness))
  have hempty : IsEmpty {t : Tape Fp F N B //
      revealed float circuit compressionFactor cache challenges witness' t =
        some (initialValues circuit (challenges 0) witness)} := by
    refine ⟨fun t => hne ((initialValues_eq_iff _ _ _ _).1 ?_)⟩
    rw [← Option.some_inj, ← t.2, revealed_of_nrounds_eq_zero hN hrounds h']
  have hnonempty : Nonempty {t : Tape Fp F N B //
      revealed float circuit compressionFactor cache challenges witness t =
        some (initialValues circuit (challenges 0) witness)} :=
    ⟨⟨0, revealed_of_nrounds_eq_zero hN hrounds h 0⟩⟩
  rw [Nat.card_eq_zero.2 (Or.inl hempty)] at hcard
  exact Nat.card_pos.ne' hcard

/-- The proof hides the inputs of the multiplications if there are compressions, or if there is
nothing to hide. -/
theorem hidden_iff [Finite Fp] [Finite F] (float : Float) (circuit : Circuit Fp)
    (compressionFactor : ℕ) (cache : Cache F) (challenges : ℕ → F) (hN : 0 < N)
    (houtside : ∀ i, challenges i ∉ cache.points)
    (hB : (float.ceilDiv · compressionFactor)^[nrounds float circuit.nmuls compressionFactor + 1]
      circuit.nmuls ≤ B) :
    Hidden float circuit compressionFactor cache challenges N B ↔
      0 < nrounds float circuit.nmuls compressionFactor ∨
        ∀ witness witness', circuit.Accepts witness → circuit.Accepts witness' →
          SameInputs circuit (challenges 0) witness witness' := by
  constructor
  · intro hhidden
    by_contra hcon
    push Not at hcon
    obtain ⟨hrounds, witness, witness', h, h', hne⟩ := hcon
    exact not_hidden hN (Nat.le_zero.1 hrounds) h h' hne hhidden
  · intro hcases witness witness' h h' values
    by_cases hrounds : 0 < nrounds float circuit.nmuls compressionFactor
    · obtain ⟨s, hs⟩ := revealed_shift hN houtside hB hrounds h h'
      refine Nat.card_congr ((Equiv.addRight s).subtypeEquiv fun t => ?_)
      rw [hs]
      rfl
    · have hsame := (initialValues_eq_iff circuit (challenges 0) witness witness').2
        (hcases.resolve_left hrounds witness witness' h h')
      simp only [revealed_of_nrounds_eq_zero hN (Nat.eq_zero_of_not_pos hrounds) h,
        revealed_of_nrounds_eq_zero hN (Nat.eq_zero_of_not_pos hrounds) h', hsame]

end Prover

/-! ## A product -/

/-- The product of two inputs. -/
def productCircuit : Circuit F61p where
  ops := [.mul 0 1]
  ninputs := 2
  noutputs := 1
  noutputs_le := Nat.one_pos
  args_lt := by simp [Op.args]

theorem atLeastTwo_generator : Nat.AtLeastTwo 37 := ⟨by decide⟩

attribute [local instance] atLeastTwo_generator in
/-- The prover's cache for this circuit. -/
def productCache : Cache F61p :=
  (Cache.new exactFloat 37 productCircuit.nmuls 8 true).getD ⟨[], ∅, ∅, ∅⟩

theorem productCache_points : (2 : F61p) ∉ productCache.points := by
  decide +kernel

theorem hidden_iff_product :
    Hidden exactFloat productCircuit 8 productCache (fun _ => 2) 16 2 ↔
      0 < nrounds exactFloat productCircuit.nmuls 8 ∨
        ∀ witness witness', productCircuit.Accepts witness → productCircuit.Accepts witness' →
          SameInputs productCircuit (2 : F61p) witness witness' :=
  hidden_iff exactFloat productCircuit 8 productCache (fun _ => 2) (by decide)
    (fun _ => productCache_points) (by decide)

/-- Both factors zero, or one of them, and the product is zero, but the vectors show the factors. -/
theorem product_not_hidden :
    (2 : F61p) ∉ productCache.points ∧
      ¬ Hidden exactFloat productCircuit 8 productCache (fun _ => 2) 16 2 := by
  have hzero : productCircuit.Accepts [0, 0] := by
    simp [Circuit.Accepts, Circuit.eval, Circuit.wires, productCircuit]
  have hone : productCircuit.Accepts [0, 1] := by
    simp [Circuit.Accepts, Circuit.eval, Circuit.wires, productCircuit]
  refine ⟨productCache_points, not_hidden (by decide) (by decide) hzero hone ?_⟩
  simp [SameInputs, Circuit.mulInputs, Circuit.mulTrace, productCircuit]

end EdaBitGen.Inferno
