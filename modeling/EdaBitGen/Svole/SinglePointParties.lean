import EdaBitGen.Fields
import EdaBitGen.Svole.SinglePoint

/-!
# The two parties of the single-point protocol

The sender masks its values with the base correlations, gets one key of each level of each tree
through oblivious transfers, and rebuilds the trees but for the leaf at its place, which it computes
from the receiver's correction.  In the end both take part in a check of all trees together, whose
two values are compared under a commitment.
-/

namespace EdaBitGen

open Interaction Party

/-! ## The equality test -/

/-- The 32 bytes of a commitment or of its seed. -/
abbrev Digest := BitVec 256

section Equality

variable {M G σ FE : Type} [DecidableEq FE] [CanonicalSerialize M FE] [CanonicalSerialize M Digest]

def eqSend (commit : Digest → FE → Digest) (x : FE) : Party M G σ Bool := do
  let com : Digest ← readSerializable
  writeSerializable x
  flush
  let seed : Digest ← readSerializable
  let y : FE ← readSerializable
  assert (commit seed y = com) "invalid opening"
  pure (x = y)

def eqReceive (commit : Digest → FE → Digest) (seed : Digest) (y : FE) : Party M G σ Bool := do
  writeSerializable (commit seed y)
  flush
  let x : FE ← readSerializable
  assert (x = y) "invalid opening"
  writeSerializable seed
  writeSerializable y
  flush
  pure (x = y)

theorem sync_eq {H τ : Type} {rel : σ → τ → Prop} (commit : Digest → FE → Digest) (seed : Digest)
    (x : FE) :
    Sync rel (eqSend commit x : Party M G σ Bool) (eqReceive commit seed x : Party M H τ Bool)
      fun a b => a = true ∧ b = true := by
  unfold eqSend eqReceive
  refine EdaBitGen.Sync.read_writeSerializable (Sync.flush_right ?_)
  refine EdaBitGen.Sync.write_readSerializable (Sync.flush_left ?_)
  refine Sync.assert_right rfl ?_
  refine EdaBitGen.Sync.read_writeSerializable (EdaBitGen.Sync.read_writeSerializable ?_)
  refine Sync.flush_right (Sync.assert_left rfl ?_)
  exact Sync.pure ⟨decide_eq_true rfl, decide_eq_true rfl⟩

end Equality

/-- Transfers of one key of each pair, between states that are linked. -/
structure KeyTransfer (M G H σ τ : Type) where
  receive : List Bool → Party M G σ (List U8x16)
  send : List (U8x16 × U8x16) → Party M H τ Unit
  Linked : σ → τ → Prop
  sync : ∀ {cs keys}, keys.length = cs.length →
    Sync Linked (receive cs) (send keys) fun out _ => out = otReceive keys cs

theorem otReceive_flatten {keys : ℕ → List (U8x16 × U8x16)} {cs : ℕ → List Bool}
    (h : ∀ i, (keys i).length = (cs i).length) (is : List ℕ) :
    otReceive (is.map keys).flatten (is.map cs).flatten =
      (is.map fun i => otReceive (keys i) (cs i)).flatten := by
  induction is with
  | nil => rfl
  | cons i is ih =>
    rw [List.map_cons, List.map_cons, List.map_cons, List.flatten_cons, List.flatten_cons,
      List.flatten_cons, ← ih]
    exact List.zipWith_append (h i)

/-- The sender's values and places, and the seed of the check. -/
structure SpsSender.Coins (F : Type) [Zero F] where
  beta : ℕ → F
  beta_ne_zero : ∀ i, beta i ≠ 0
  alpha : ℕ → ℕ → ℕ
  alpha_lt : ∀ {n : ℕ}, 0 < n → ∀ i, alpha n i < n
  seed : Block

/-- The receiver's roots of the trees, and the seed of its commitment. -/
structure SpsReceiver.Coins where
  root : ℕ → U8x16
  opening : Digest

/-- What both parties know: the basis, the permutations, the values that a seed of the check expands
to, and the commitments. -/
structure SpsSetup (F FE : Type) [Field F] [Field FE] [Algebra F FE] where
  ext : Extension F FE
  tree : Tree FE
  chi : Block → ℕ → FE
  commit : Digest → FE → Digest

/-- The part of the storage that a call is given, of the length that it asks for. -/
def resized (storage : ℕ → U8x16) (n : ℕ) : List U8x16 := (List.range n).map storage

/-- A block whose only value is `beta`, at `alpha`. -/
def SinglePoint {F FE : Type} [Zero F] [Zero FE] (beta : F) (alpha n : ℕ) (block : List (F × FE)) :
    Prop :=
  block.length = n ∧ ∀ j, (block.getD j (0, 0)).1 = if j = alpha then beta else 0

theorem singlePoint_set {F FE : Type} [Zero F] [Zero FE] {beta : F} {w : FE} {alpha n : ℕ}
    {ws : List FE} (hws : ws.length = n) (halpha : alpha < n) :
    SinglePoint beta alpha n (((List.replicate n (0 : F)).zip ws).set alpha (beta, w)) := by
  have hlength : ((List.replicate n (0 : F)).zip ws).length = n := by simp [hws]
  refine ⟨by rw [List.length_set, hlength], fun j => ?_⟩
  rw [List.getD_eq_getElem?_getD, List.getElem?_set, hlength]
  by_cases hj : j = alpha
  · subst hj
    simp [halpha]
  · rw [if_neg (Ne.symm hj), if_neg hj]
    cases hz : ((List.replicate n (0 : F)).zip ws)[j]? with
    | none => rfl
    | some z =>
      exact List.eq_of_mem_replicate (List.mem_of_getElem? (List.getElem?_zip_eq_some.1 hz).1)

/-- Each of `t` blocks of `n` values has one that is not zero, `beta` at `alpha`. -/
def SinglePoints {F FE : Type} [Zero F] [Zero FE] (coins : SpsSender.Coins F) (t n : ℕ)
    (uws : List (F × FE)) : Prop :=
  uws.length = t * n ∧ ∀ i < t,
    (∀ j < n, (uws.getD (i * n + j) (0, 0)).1 ≠ 0 ↔ j = coins.alpha n i) ∧
    (uws.getD (i * n + coins.alpha n i) (0, 0)).1 = coins.beta i

theorem singlePoints_flatten {F FE : Type} [Zero F] [Zero FE] {coins : SpsSender.Coins F} {t n : ℕ}
    (hn : 0 < n) {blocks : List (List (F × FE))}
    (h : List.Forall₂ (fun i block => SinglePoint (coins.beta i) (coins.alpha n i) n block)
      (List.range t) blocks) : SinglePoints coins t n blocks.flatten := by
  obtain ⟨hcount, hget⟩ := List.forall₂_iff_get.1 h
  rw [List.length_range] at hcount
  have hblock : ∀ i (hi : i < blocks.length),
      SinglePoint (coins.beta i) (coins.alpha n i) n blocks[i] := fun i hi => by
    simpa using hget i (by rw [List.length_range]; omega) hi
  have hlength : ∀ block ∈ blocks, block.length = n := fun block hmem => by
    obtain ⟨i, hi, rfl⟩ := List.mem_iff_getElem.1 hmem
    exact (hblock i hi).1
  have hvalue : ∀ i < t, ∀ j < n, (blocks.flatten.getD (i * n + j) (0, 0)).1 =
      if j = coins.alpha n i then coins.beta i else 0 := fun i hi j hj => by
    have hdiv : (i * n + j) / n = i := by
      rw [mul_comm, Nat.mul_add_div hn, Nat.div_eq_of_lt hj, add_zero]
    have hmod : (i * n + j) % n = j := by
      rw [Nat.mul_add_mod', Nat.mod_eq_of_lt hj]
    rw [List.getD_eq_getElem?_getD, Chunks.getElem?_flatten hn hlength, hdiv, hmod,
      List.getElem?_eq_getElem (by omega), Option.bind_some, ← List.getD_eq_getElem?_getD]
    exact (hblock i (by omega)).2 j
  refine ⟨by rw [Chunks.length_flatten hlength, hcount], fun i hi => ⟨fun j hj => ?_, ?_⟩⟩
  · rw [hvalue i hi j hj]
    split
    · next hja => exact iff_of_true (coins.beta_ne_zero i) hja
    · next hja => exact iff_of_false (fun h => h rfl) hja
  · rw [hvalue i hi _ (coins.alpha_lt hn i), if_pos rfl]

section Tree

variable {F FE M G H σ τ : Type} [Field F] [Field FE] [Algebra F FE] [CanonicalSerialize M FE]

/-- The block of one tree, from the keys of all. -/
def SpsSender.rebuild (setup : SpsSetup F FE) (n : ℕ) (coins : SpsSender.Coins F)
    (storage : ℕ → ℕ → U8x16) (keys : List U8x16) (b : (F × FE) × ℕ) :
    Party M G σ (List (F × FE)) :=
  let otOutput := (keys.drop (b.2 * nbits n)).take (nbits n)
  let alpha := coins.alpha n b.2
  match ggmPrime setup.tree.fromUniformBytes setup.tree.hint alpha otOutput setup.tree.aes
      (List.replicate n (0 : F)) (resized (storage b.2) (2 * 2 ^ otOutput.length - 2)) with
  | none => abort "assertion failed"
  | some (sum, result) => do
    let d : FE ← readSerializable
    pure (result.set alpha (coins.beta b.2, b.1.2 - (d + sum)))

theorem sync_rebuild {rel : σ → τ → Prop} (setup : SpsSetup F FE) (delta : FE) {depth : ℕ}
    (hdepth : 2 ≤ depth) (coins : SpsSender.Coins F) (root : U8x16) (storage : ℕ → ℕ → U8x16)
    {keys : List U8x16} (uw : F × FE) (i : ℕ)
    (hkeys : (keys.drop (i * depth)).take depth = otReceive (setup.tree.ggm depth root).1
      (choices depth (coins.alpha (2 ^ depth) i))) :
    Sync rel (SpsSender.rebuild setup (2 ^ depth) coins storage keys (uw, i) : Party M G σ _)
      (writeSerializable (voleKey delta uw - (coins.beta i - uw.1) • delta -
        (setup.tree.ggm depth root).2.sum) : Party M H τ Unit) fun block _ =>
      SinglePoint (coins.beta i) (coins.alpha (2 ^ depth) i) (2 ^ depth) block ∧
        block.map (voleKey delta) = (setup.tree.ggm depth root).2 := by
  have halpha := coins.alpha_lt (Nat.two_pow_pos depth) i
  have hlength : (otReceive (setup.tree.ggm depth root).1
      (choices depth (coins.alpha (2 ^ depth) i))).length = depth := by
    rw [length_otReceive (by rw [length_ggm_keys, length_choices]), length_choices]
  obtain ⟨sum, ws, hws, hrun, hleaves⟩ := ggmPrime_otReceive delta setup.tree hdepth root halpha
    (by simp [resized] : (resized (storage i) (2 * 2 ^ depth - 2)).length = _) (coins.beta i) uw
  unfold SpsSender.rebuild
  simp only [nbits_pow (by omega : 0 < depth), hkeys, hlength, hrun]
  rw [← bind_pure (writeSerializable _)]
  refine EdaBitGen.Sync.read_writeSerializable (Sync.pure ⟨?_, hleaves.symm⟩)
  exact singlePoint_set hws halpha

theorem sync_rebuildAll {R : σ → τ → Prop} (setup : SpsSetup F FE) (delta : FE) {depth : ℕ}
    (hdepth : 2 ≤ depth) (coins : SpsSender.Coins F) (root : ℕ → U8x16)
    (storage : ℕ → ℕ → U8x16) (baseUws : List (F × FE)) :
    Sync R (baseUws.zipIdx.mapM (SpsSender.rebuild setup (2 ^ depth) coins storage
        ((List.range baseUws.length).map fun i => otReceive (setup.tree.ggm depth (root i)).1
          (choices depth (coins.alpha (2 ^ depth) i))).flatten) : Party M G σ _)
      ((baseUws.zipIdx.map fun b => (voleKey delta b.1 - (coins.beta b.2 - b.1.1) • delta,
          (setup.tree.ggm depth (root b.2)).2)).mapM fun b =>
        (writeSerializable (b.1 - b.2.sum) : Party M H τ Unit)) fun blocks _ =>
      List.Forall₂ (fun i block =>
        SinglePoint (coins.beta i) (coins.alpha (2 ^ depth) i) (2 ^ depth) block ∧
          block.map (voleKey delta) = (setup.tree.ggm depth (root i)).2)
        (List.range baseUws.length) blocks := by
  let good (b : (F × FE) × ℕ) (block : List (F × FE)) : Prop :=
    SinglePoint (coins.beta b.2) (coins.alpha (2 ^ depth) b.2) (2 ^ depth) block ∧
      block.map (voleKey delta) = (setup.tree.ggm depth (root b.2)).2
  refine (Sync.mapM_zipWith (F := fun _ _ => ()) (S := good)
    (R := fun b d => b ∈ baseUws.zipIdx ∧ d = (voleKey delta b.1 - (coins.beta b.2 - b.1.1) • delta,
      (setup.tree.ggm depth (root b.2)).2)) ?_ ?_).mono ?_
  · rintro ⟨uw, i⟩ _ ⟨hb, rfl⟩
    have hi : i < baseUws.length := List.snd_lt_of_mem_zipIdx hb
    refine (sync_rebuild setup delta hdepth coins (root i) storage uw i ?_).mono
      fun block _ h => ⟨rfl, h⟩
    refine Chunks.take_drop_flatten (by omega) ?_
      (by rw [List.getElem?_map, List.getElem?_range hi]; rfl)
    intro ks hks
    obtain ⟨j, -, rfl⟩ := List.mem_map.1 hks
    rw [length_otReceive (by rw [length_ggm_keys, length_choices]), length_choices]
  · exact List.forall₂_map_right_iff.2 (List.forall₂_same.2 fun b hb => ⟨hb, rfl⟩)
  · rintro blocks _ ⟨-, hgood⟩
    have hrange : List.range baseUws.length = baseUws.zipIdx.map Prod.snd := by
      rw [List.zipIdx_map_snd, List.range_eq_range']
    rw [hrange]
    exact List.forall₂_map_left_iff.2 hgood

end Tree

section Parties

variable {F FE M G H σ τ : Type} [Field F] [Field FE] [Algebra F FE] [DecidableEq F]
  [DecidableEq FE] [CanonicalSerialize M F] [CanonicalSerialize M FE] [CanonicalSerialize M Digest]
  [CanonicalSerialize M Block]

def SpsSender.sendBatchConsistencyCheck (setup : SpsSetup F FE) (seed : Block)
    (uws baseXzs : List (F × FE)) : Party M G σ Unit := do
  let _ ← (SpsSender.masked setup.ext (setup.chi seed) uws baseXzs).mapM fun x =>
    (writeSerializable x : Party M G σ Unit)
  writeSerializable seed
  flush
  let b ← eqSend setup.commit (SpsSender.va setup.ext (setup.chi seed) uws baseXzs)
  assert b "equality check failed"

def SpsSender.send (setup : SpsSetup F FE) (ot : KeyTransfer M G H σ τ) (n : ℕ)
    (coins : SpsSender.Coins F) (storage : ℕ → ℕ → U8x16) (baseVoles : List (F × FE)) :
    Party M G σ (List (F × FE)) := do
  let t := baseVoles.length - setup.ext.degree
  let baseUws := (baseVoles.take t).zipIdx
  let _ ← baseUws.mapM fun b => (writeSerializable (coins.beta b.2 - b.1.1) : Party M G σ Unit)
  let keys ← ot.receive
    ((List.range t).map fun i => choices (nbits n) (coins.alpha n i)).flatten
  let result ← baseUws.mapM (SpsSender.rebuild setup n coins storage keys)
  SpsSender.sendBatchConsistencyCheck setup coins.seed result.flatten (baseVoles.drop t)
  pure result.flatten

def SpsReceiver.receiveBatchConsistencyCheck (setup : SpsSetup F FE) (delta : FE)
    (opening : Digest) (vs yStars : List FE) : Party M H τ Unit := do
  let xStars : List F ← (List.range setup.ext.degree).mapM fun _ => readSerializable
  let seed : Block ← readSerializable
  let b ← eqReceive setup.commit opening
    (SpsReceiver.vb setup.ext delta (setup.chi seed) vs yStars xStars)
  assert b "equality check failed"

def SpsReceiver.receive (setup : SpsSetup F FE) (ot : KeyTransfer M G H σ τ) (delta : FE) (n : ℕ)
    (coins : SpsReceiver.Coins) (baseVoles : List FE) : Party M H τ (List FE) := do
  let t := baseVoles.length - setup.ext.degree
  let gammas ← (baseVoles.take t).mapM fun v => do
    let aPrime : F ← readSerializable
    (pure (v - aPrime • delta) : Party M H τ FE)
  let trees := (List.range t).map fun i => setup.tree.ggm (nbits n) (coins.root i)
  ot.send (trees.map Prod.fst).flatten
  let _ ← (gammas.zip (trees.map Prod.snd)).mapM fun b =>
    (writeSerializable (b.1 - b.2.sum) : Party M H τ Unit)
  flush
  let result := (trees.map Prod.snd).flatten
  SpsReceiver.receiveBatchConsistencyCheck setup delta coins.opening result (baseVoles.drop t)
  pure result

theorem sync_batchConsistencyCheck {rel : σ → τ → Prop} (setup : SpsSetup F FE) (delta : FE)
    (seed : Block) (opening : Digest) (uws : List (F × FE)) {baseXzs : List (F × FE)}
    (hbase : baseXzs.length = setup.ext.degree) :
    Sync rel (SpsSender.sendBatchConsistencyCheck setup seed uws baseXzs : Party M G σ Unit)
      (SpsReceiver.receiveBatchConsistencyCheck setup delta opening (uws.map (voleKey delta))
        (baseXzs.map (voleKey delta)) : Party M H τ Unit) fun _ _ => True := by
  unfold SpsSender.sendBatchConsistencyCheck SpsReceiver.receiveBatchConsistencyCheck
  have hlength : (SpsSender.masked setup.ext (setup.chi seed) uws baseXzs).length =
      (List.range setup.ext.degree).length := by
    simp [SpsSender.masked, hbase]
  refine (EdaBitGen.Sync.write_readEach (fun x => x) hlength).bind ?_
  rintro _ xStars rfl
  refine EdaBitGen.Sync.write_readSerializable (Sync.flush_left ?_)
  rw [List.map_id', va_eq_vb setup.ext delta (setup.chi seed) uws baseXzs hbase]
  refine (sync_eq setup.commit opening _).bind ?_
  rintro a b ⟨rfl, rfl⟩
  exact Sync.asserts rfl rfl

omit [DecidableEq F] [DecidableEq FE] [CanonicalSerialize M FE] [CanonicalSerialize M Digest]
  [CanonicalSerialize M Block] in
theorem sync_masked {rel : σ → τ → Prop} (delta : FE) (beta : ℕ → F) (baseUws : List (F × FE))
    (k : ℕ) :
    Sync rel ((baseUws.zipIdx k).mapM fun b =>
        (writeSerializable (beta b.2 - b.1.1) : Party M G σ Unit))
      ((baseUws.map (voleKey delta)).mapM fun v => do
        let aPrime : F ← readSerializable
        (pure (v - aPrime • delta) : Party M H τ FE)) fun _ gammas =>
      gammas = (baseUws.zipIdx k).map fun b =>
        voleKey delta b.1 - (beta b.2 - b.1.1) • delta := by
  induction baseUws generalizing k with
  | nil => exact Sync.pure rfl
  | cons uw baseUws ih =>
    rw [List.map_cons, List.zipIdx_cons, List.mapM_cons, List.mapM_cons, bind_assoc]
    refine EdaBitGen.Sync.write_readSerializable ?_
    rw [pure_bind]
    refine (ih (k + 1)).bind ?_
    rintro _ gammas rfl
    exact Sync.pure rfl

/-- A call on honest base correlations: both parties end, each tree has one value of the sender, at
its place, and all values are correlated. -/
theorem sync_sps (setup : SpsSetup F FE) (ot : KeyTransfer M G H σ τ) (delta : FE) {depth : ℕ}
    (hdepth : 2 ≤ depth) (coins : SpsSender.Coins F) (receiverCoins : SpsReceiver.Coins)
    (storage : ℕ → ℕ → U8x16) {baseVoles : List (F × FE)} {baseKeys : List FE}
    (hbase : VoleCorrelated delta baseVoles baseKeys) (hdegree : setup.ext.degree ≤ baseVoles.length) :
    Sync ot.Linked (SpsSender.send setup ot (2 ^ depth) coins storage baseVoles)
      (SpsReceiver.receive setup ot delta (2 ^ depth) receiverCoins baseKeys) fun uws vs =>
        SinglePoints coins (baseVoles.length - setup.ext.degree) (2 ^ depth) uws ∧
          VoleCorrelated delta uws vs := by
  rw [voleCorrelated_iff] at hbase
  subst hbase
  unfold SpsSender.send SpsReceiver.receive
  rw [List.length_map]
  generalize ht : baseVoles.length - setup.ext.degree = t
  have htake : (baseVoles.take t).length = t := List.length_take_of_le (by omega)
  have hdrop : (baseVoles.drop t).length = setup.ext.degree := by
    rw [List.length_drop]
    omega
  simp only [← List.map_take, ← List.map_drop, nbits_pow (by omega : 0 < depth), List.map_map]
  refine (sync_masked delta coins.beta (baseVoles.take t) 0).bind ?_
  rintro _ gammas rfl
  refine (ot.sync ?_).bind ?_
  · rw [Chunks.length_flatten (n := depth), Chunks.length_flatten (n := depth)]
    · simp
    · simp [length_choices]
    · simp [length_ggm_keys]
  rintro keys - rfl
  have hkeys : ∀ i, (Prod.fst (setup.tree.ggm depth (receiverCoins.root i))).length =
      (choices depth (coins.alpha (2 ^ depth) i)).length := fun i => by
    rw [length_ggm_keys, length_choices]
  have htrees : (List.range t).map (Prod.snd ∘ fun i => setup.tree.ggm depth (receiverCoins.root i)) =
      (baseVoles.take t).zipIdx.map fun b => (setup.tree.ggm depth (receiverCoins.root b.2)).2 := by
    rw [← htake, List.range_eq_range', ← List.zipIdx_map_snd, List.map_map, htake]
    rfl
  have hloop := sync_rebuildAll (M := M) (G := G) (H := H) (R := ot.Linked) setup delta hdepth coins
    receiverCoins.root storage (baseVoles.take t)
  rw [htake] at hloop
  rw [htrees, List.zip_map']
  refine (Sync.bind (by rw [Function.comp_def, otReceive_flatten hkeys]; exact hloop)) ?_
  intro blocks _ hblocks
  have huws : blocks.flatten.map (voleKey delta) =
      ((baseVoles.take t).zipIdx.map fun b =>
        (setup.tree.ggm depth (receiverCoins.root b.2)).2).flatten := by
    have heach : List.Forall₂ Eq
        ((List.range t).map (Prod.snd ∘ fun i => setup.tree.ggm depth (receiverCoins.root i)))
        (blocks.map (List.map (voleKey delta))) := by
      rw [List.forall₂_map_left_iff, List.forall₂_map_right_iff]
      exact hblocks.imp fun _ _ h => h.2.symm
    rw [List.forall₂_eq_eq_eq, htrees] at heach
    rw [heach, List.map_flatten]
  rw [← huws]
  refine Sync.flush_right ((sync_batchConsistencyCheck setup delta coins.seed receiverCoins.opening
    blocks.flatten hdrop).bind ?_)
  intro _ _ _
  exact Sync.pure ⟨singlePoints_flatten (Nat.two_pow_pos depth) (hblocks.imp fun _ _ h => h.1),
    voleCorrelated_iff.2 rfl⟩

theorem nbits_pow_le (depth : ℕ) : nbits (2 ^ depth) ≤ depth :=
  Nat.size_le.2 (Nat.sub_lt (Nat.two_pow_pos depth) Nat.one_pos)

theorem run_send_ne_some (setup : SpsSetup F FE) (ot : KeyTransfer M G H σ τ) {depth : ℕ}
    (hdepth : depth < 2) (coins : SpsSender.Coins F) (storage : ℕ → ℕ → U8x16)
    {baseVoles : List (F × FE)} (hlt : setup.ext.degree < baseVoles.length) {s s' : σ} {g g' : G}
    {uws : List (F × FE)} {inbox rest : List M} :
    Proc.run (SpsSender.send setup ot (2 ^ depth) coins storage baseVoles s g) inbox ≠
      some (((uws, s'), g'), rest) := by
  intro hrun
  obtain ⟨_, _, _, _, -, hrun⟩ := run_bind_eq_some.1 hrun
  obtain ⟨keys, _, _, _, -, hrun⟩ := run_bind_eq_some.1 hrun
  obtain ⟨blocks, _, _, _, hblocks, -⟩ := run_bind_eq_some.1 hrun
  have hall := forall₂_of_run_mapM hblocks
  have hne : ((baseVoles.take (baseVoles.length - setup.ext.degree)).zipIdx) ≠ [] := by
    rw [Ne, List.zipIdx_eq_nil_iff, List.take_eq_nil_iff, not_or]
    exact ⟨by omega, List.ne_nil_of_length_pos (by omega)⟩
  obtain ⟨b, bs, hbs⟩ := List.exists_cons_of_ne_nil hne
  rw [hbs] at hall
  cases hall with
  | cons hb _ =>
    obtain ⟨_, _, _, _, _, _, hb⟩ := hb
    have hshort : ((keys.drop (b.2 * nbits (2 ^ depth))).take (nbits (2 ^ depth))).length < 2 :=
      lt_of_le_of_lt (List.length_take_le _ _) (lt_of_le_of_lt (nbits_pow_le depth) hdepth)
    rw [SpsSender.rebuild, ggmPrime, if_neg fun h => absurd h.2.1 (by omega)] at hb
    simp at hb

end Parties

/-! ## Over the field of two elements -/

/-- The messages over the field of two elements. -/
inductive SpsMsg where
  | bits (xs : List F2)
  | blocks (xs : List Block)
  | digests (xs : List Digest)
  | keys (ks : List (U8x16 × U8x16))

namespace SpsMsg

instance : CanonicalSerialize SpsMsg F2 :=
  .ofSeq bits (fun | bits xs => some xs | _ => none) fun _ => rfl

instance : CanonicalSerialize SpsMsg Block :=
  .ofSeq blocks (fun | blocks xs => some xs | _ => none) fun _ => rfl

instance : CanonicalSerialize SpsMsg Digest :=
  .ofSeq digests (fun | digests xs => some xs | _ => none) fun _ => rfl

end SpsMsg

/-- Transfers in which the sender gives both keys of each pair away. -/
def openTransfer : KeyTransfer SpsMsg Unit Unit Unit Unit where
  receive cs := do
    match ← read with
    | .keys ks => pure (otReceive ks cs)
    | _ => abort "invalid serialization"
  send ks := write (.keys ks)
  Linked _ _ := True
  sync _ := by
    rw [← bind_pure (write _)]
    exact Sync.read_write (Sync.pure rfl)

theorem sum_smul_one_pow (x : F2) : ∑ j : Fin 1, x • (1 : F2) ^ (j : ℕ) = x := by simp

theorem f2_one_ne_zero (_ : ℕ) : (1 : F2) ≠ 0 := one_ne_zero

def spsSetupTwo : SpsSetup F2 F2 where
  ext := ⟨1, 1, fun x _ => x, sum_smul_one_pow⟩
  tree := ⟨⟨id, id⟩, fun s => s (Fin.last 127), 2⟩
  chi _ _ := 1
  commit seed _ := seed

def spsSenderCoinsTwo : SpsSender.Coins F2 where
  beta _ := 1
  beta_ne_zero := f2_one_ne_zero
  alpha _ _ := 0
  alpha_lt hn _ := hn
  seed := 0

theorem sync_sps_two :
    Sync openTransfer.Linked
      (SpsSender.send spsSetupTwo openTransfer (2 ^ 2) spsSenderCoinsTwo 0 [(1, 1), (0, 1), (1, 0)])
      (SpsReceiver.receive spsSetupTwo openTransfer 1 (2 ^ 2) ⟨0, 0⟩ [0, 1, 1]) fun uws vs =>
        SinglePoints spsSenderCoinsTwo 2 (2 ^ 2) uws ∧ VoleCorrelated 1 uws vs :=
  sync_sps spsSetupTwo openTransfer 1 (by decide) spsSenderCoinsTwo ⟨0, 0⟩ 0
    (voleCorrelated_iff.2 (by decide)) (by decide)

/-- With trees of one level the parties do not both end. -/
theorem not_lockstep_sps_one :
    ¬Lockstep (SpsSender.send spsSetupTwo openTransfer (2 ^ 1) spsSenderCoinsTwo 0
        [(0, 0), (0, 0)] () ())
      (SpsReceiver.receive spsSetupTwo openTransfer 1 (2 ^ 1) ⟨0, 0⟩ [0, 0] () ())
      fun _ _ => True := by
  rintro ⟨l, r, ⟨⟨uws, _⟩, _⟩, _, hjoint, -⟩
  exact run_send_ne_some spsSetupTwo openTransfer (by decide) spsSenderCoinsTwo 0
    (by decide : spsSetupTwo.ext.degree < [((0, 0) : F2 × F2), (0, 0)].length)
    (Proc.joint_run_left hjoint)

end EdaBitGen
