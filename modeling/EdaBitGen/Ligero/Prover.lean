import EdaBitGen.Ligero.Linear

/-!
# Opened columns

The prover opens columns of the interleaved code with a proof that they are in the tree of column
hashes.  The proof comes with its own indices, and nothing compares them with the columns that were
asked for.
-/

namespace EdaBitGen.Ligero

/-! ## Trees -/

/-- The trees of another library: the root over some leaves, proofs for some of them, with indices
and digests, and their verification. -/
structure MerkleCbt (Digest : Type) where
  root : List Digest → Digest
  buildProof : List Digest → List ℕ → Option (List ℕ × List Digest)
  verify : List ℕ → List Digest → Digest → List Digest → Bool
  /-- The number of a leaf from its index in a proof, for some number of leaves. -/
  leafOf : ℕ → ℕ → ℕ

namespace MerkleCbt

variable {Digest : Type} (merkle : MerkleCbt Digest)

/-- A proof that is built for different leaves verifies for them. -/
def Complete : Prop :=
  ∀ (leaves : List Digest) (indices : List ℕ), indices ≠ [] → indices.Nodup →
    (∀ i ∈ indices, i < leaves.length) → ∃ opened proof, indices.mapM (leaves[·]?) = some opened ∧
      merkle.buildProof leaves indices = some proof ∧
      merkle.verify proof.1 proof.2 (merkle.root leaves) opened = true

/-- A proof verifies for the leaves at its indices only. -/
def Sound : Prop :=
  ∀ (leaves : List Digest) (indices : List ℕ) (lemmas opened : List Digest),
    merkle.verify indices lemmas (merkle.root leaves) opened = true →
      (indices.map (merkle.leafOf leaves.length)).mapM (leaves[·]?) = some opened

/-- A proof has at most as many digests as its leaves are deep. -/
def Short : Prop :=
  ∀ (leaves : List Digest) (indices : List ℕ) (proof : List ℕ × List Digest),
    merkle.buildProof leaves indices = some proof →
      proof.2.length ≤ indices.length * Nat.clog 2 leaves.length

end MerkleCbt

section

variable {F Digest : Type} (ser : CanonicalSerialize F) (H : List UInt8 → Digest)
  (merkle : MerkleCbt Digest)

def hashColumn (a : List F) : Digest := H (ser.bytes a)

/-- The root of the tree of the columns of a matrix. -/
def treeRoot {r n : ℕ} (U : Matrix (Fin r) (Fin n) F) : Digest :=
  merkle.root ((List.finRange n).map fun j => hashColumn ser H (List.ofFn fun i => U i j))

/-- The columns of a matrix at some places. -/
def openColumns {r n : ℕ} (U : Matrix (Fin r) (Fin n) F) (Q : List (Fin n)) : Columns F where
  nrows := r
  columns := Q.map fun j i => U i j

namespace Lemma

/-- The columns at some places, with a proof for them. -/
def new {r n : ℕ} (U : Matrix (Fin r) (Fin n) F) (someIndices : List (Fin n)) :
    Option (Lemma F Digest) := do
  let leaves := (List.finRange n).map fun j => hashColumn ser H (List.ofFn fun i => U i j)
  let proof ← merkle.buildProof leaves (someIndices.map Fin.val)
  some ⟨openColumns U someIndices, proof.2, proof.1⟩

def verify (lem : Lemma F Digest) (root : Digest) : Bool :=
  let leaves := lem.columns.columns.map fun c => hashColumn ser H (List.ofFn c)
  merkle.verify lem.indices lem.lemmas root leaves

end Lemma

theorem mapM_getElem?_map {α β : Type} (f : α → β) (xs : List α) (indices : List ℕ) :
    indices.mapM (fun i => (xs.map f)[i]?) = (indices.mapM (xs[·]?)).map (List.map f) := by
  induction indices with
  | nil => rfl
  | cons i indices ih =>
    rw [List.mapM_cons, List.mapM_cons, ih, List.getElem?_map]
    cases xs[i]? with
    | none => rfl
    | some x => cases indices.mapM (xs[·]?) <;> rfl

theorem mapM_finRange {n : ℕ} (indices : List (Fin n)) :
    (indices.map Fin.val).mapM ((List.finRange n)[·]?) = some indices := by
  induction indices with
  | nil => rfl
  | cons i indices ih =>
    rw [List.map_cons, List.mapM_cons, ih, List.getElem?_eq_getElem (by simp)]
    simp

theorem exists_new (hcomplete : merkle.Complete) {r n : ℕ} (U : Matrix (Fin r) (Fin n) F)
    {indices : List (Fin n)} (hne : indices ≠ []) (hnodup : indices.Nodup) :
    ∃ lem, Lemma.new ser H merkle U indices = some lem ∧ lem.columns = openColumns U indices ∧
      lem.verify ser H merkle (treeRoot ser H merkle U) = true := by
  let leaf (j : Fin n) : Digest := hashColumn ser H (List.ofFn fun i => U i j)
  have hlt : ∀ i ∈ indices.map Fin.val, i < ((List.finRange n).map leaf).length := by
    intro i hi
    obtain ⟨j, -, rfl⟩ := List.mem_map.1 hi
    simp
  obtain ⟨opened, proof, hopened, hproof, hverify⟩ := hcomplete ((List.finRange n).map leaf)
    (indices.map Fin.val) (by simpa using hne) (hnodup.map Fin.val_injective) hlt
  rw [mapM_getElem?_map, mapM_finRange] at hopened
  obtain rfl := Option.some.inj hopened
  refine ⟨⟨openColumns U indices, proof.2, proof.1⟩, ?_, rfl, ?_⟩
  · rw [Lemma.new, hproof]
    rfl
  · rw [Lemma.verify, openColumns, List.map_map]
    exact hverify

end

/-! ## The check -/

section

variable {F Digest : Type} [Field F] [FieldForLigero F] [DecidableEq F] {params : Params F}
  (ser : CanonicalSerialize F) (H : List UInt8 → Digest) (merkle : MerkleCbt Digest)

/-- The opened columns are in the tree, and the combined codeword is one. -/
def hashCheck (params : Params F) (root : Digest) (v : List F) (lem : Lemma F Digest) :
    Option Bool :=
  if v.length = params.n then
    some (lem.verify ser H merkle root && params.codewordIsValid v)
  else none

/-- Every message that is accepted opens the columns that were asked for, in their order. -/
def OpeningBound (U : Matrix (Fin (4 * params.m)) (Fin params.n) F) (Q : List (Fin params.n))
    (v : Fin params.n → F) : Prop :=
  ∀ lem : Lemma F Digest,
    hashCheck ser H merkle params (treeRoot ser H merkle U) (List.ofFn v) lem = some true →
      lem.columns = openColumns U Q

theorem hashCheck_eq_true {root : Digest} {v : Fin params.n → F} {lem : Lemma F Digest} :
    hashCheck ser H merkle params root (List.ofFn v) lem = some true ↔
      lem.verify ser H merkle root = true ∧ params.codewordIsValid (List.ofFn v) = true := by
  rw [hashCheck, if_pos List.length_ofFn, Option.some_inj, Bool.and_eq_true]

theorem not_openingBound_of_valid (hcomplete : merkle.Complete)
    (U : Matrix (Fin (4 * params.m)) (Fin params.n) F) (Q : List (Fin params.n))
    {v : Fin params.n → F} (hv : params.codewordIsValid (List.ofFn v) = true) :
    ¬ OpeningBound ser H merkle U Q v := by
  intro hbound
  have hl := params.l_pos
  have hk := params.l_add_t
  have hn := params.k_lt_n
  let first : Fin params.n := ⟨0, by omega⟩
  let second : Fin params.n := ⟨1, by omega⟩
  have hne : first ≠ second := fun h => Nat.zero_ne_one (Fin.val_eq_of_eq h)
  have hlength : ∀ indices : List (Fin params.n), indices ≠ [] → indices.Nodup →
      Q.length = indices.length := by
    intro indices hindices hnodup
    obtain ⟨lem, -, hcolumns, hverify⟩ := exists_new ser H merkle hcomplete U hindices hnodup
    have hopen := hbound lem ((hashCheck_eq_true ser H merkle).2 ⟨hverify, hv⟩)
    rw [hcolumns, openColumns, openColumns, Columns.mk.injEq, heq_eq_eq] at hopen
    have hlen := congrArg List.length hopen.2
    rw [List.length_map, List.length_map] at hlen
    exact hlen.symm
  have hone := hlength [first] (List.cons_ne_nil _ _) (List.nodup_singleton _)
  have htwo := hlength [first, second] (List.cons_ne_nil _ _) (by simp [hne])
  rw [hone] at htwo
  cases htwo

/-- Columns that were not asked for are accepted unless everything is rejected. -/
theorem openingBound_iff (hcomplete : merkle.Complete)
    (U : Matrix (Fin (4 * params.m)) (Fin params.n) F) (Q : List (Fin params.n))
    (v : Fin params.n → F) :
    OpeningBound ser H merkle U Q v ↔ params.codewordIsValid (List.ofFn v) = false := by
  constructor
  · intro hbound
    by_contra hvalid
    exact not_openingBound_of_valid ser H merkle hcomplete U Q
      (Bool.eq_true_of_not_eq_false hvalid) hbound
  · intro hinvalid lem haccept
    rw [((hashCheck_eq_true ser H merkle).1 haccept).2] at hinvalid
    cases hinvalid

end

/-- A tree whose root tells all its leaves. -/
def listMerkle : MerkleCbt ℕ where
  root leaves := Encodable.encode leaves
  buildProof _ indices := some (indices, [])
  verify indices _ root opened :=
    ((Encodable.decode root : Option (List ℕ)).bind fun leaves => indices.mapM (leaves[·]?)) =
      some opened
  leafOf _ i := i

theorem exists_mapM_getElem? {α : Type} {leaves : List α} {indices : List ℕ}
    (hlt : ∀ i ∈ indices, i < leaves.length) :
    ∃ opened, indices.mapM (leaves[·]?) = some opened ∧ opened.length = indices.length := by
  induction indices with
  | nil => exact ⟨[], rfl, rfl⟩
  | cons i indices ih =>
    obtain ⟨opened, hopened, hlen⟩ := ih fun j hj => hlt j (List.mem_cons_of_mem _ hj)
    refine ⟨leaves.get ⟨i, hlt i List.mem_cons_self⟩ :: opened, ?_, by rw [List.length_cons, hlen]; rfl⟩
    rw [List.mapM_cons, hopened, List.getElem?_eq_getElem (hlt i List.mem_cons_self)]
    rfl

theorem complete_listMerkle : listMerkle.Complete := by
  intro leaves indices _ _ hlt
  obtain ⟨opened, hopened, -⟩ := exists_mapM_getElem? hlt
  exact ⟨opened, (indices, []), hopened, rfl, by simp [listMerkle, hopened]⟩

theorem sound_listMerkle : listMerkle.Sound := by
  intro leaves indices lemmas opened h
  have h' := of_decide_eq_true h
  have hid : indices.map (listMerkle.leafOf leaves.length) = indices := List.map_id' indices
  rw [hid]
  simpa [listMerkle] using h'

/-- A hash without collisions. -/
def numberHash (bytes : List UInt8) : ℕ := Encodable.encode (bytes.map UInt8.toNat)

theorem injective_numberHash : Function.Injective numberHash := by
  intro a b h
  apply List.map_injective_iff.2 (fun x y hxy => UInt8.toNat_inj.1 hxy)
  exact Encodable.encode_injective h

theorem codewordIsValid_zero :
    smallParams.codewordIsValid (List.ofFn (0 : Fin smallParams.n → F2e19x3e26)) = true := by
  let zero : RowPoly smallParams := ⟨0, by rw [Polynomial.degree_zero]; exact WithBot.bot_lt_coe _,
    Polynomial.eval_zero⟩
  have hzero : List.ofFn (0 : Fin smallParams.n → F2e19x3e26) = zero.codeword := by
    apply List.ext_getElem (by simp)
    intro i hi hi'
    simp [RowPoly.codeword, RowPoly.entry, zero]
  rw [hzero]
  exact zero.codewordIsValid_codeword

theorem openingBound_iff_zero :
    OpeningBound f2e19x3e26Serialize numberHash listMerkle
        (0 : Matrix (Fin (4 * smallParams.m)) (Fin smallParams.n) F2e19x3e26) [⟨7, by decide⟩] 0 ↔
      smallParams.codewordIsValid (List.ofFn (0 : Fin smallParams.n → F2e19x3e26)) = false :=
  openingBound_iff f2e19x3e26Serialize numberHash listMerkle complete_listMerkle _ _ _

/-- Even where proofs are sound and the hash has no collisions, other columns are accepted. -/
theorem not_openingBound : listMerkle.Sound ∧ Function.Injective numberHash ∧
    ¬ OpeningBound f2e19x3e26Serialize numberHash listMerkle
      (0 : Matrix (Fin (4 * smallParams.m)) (Fin smallParams.n) F2e19x3e26) [⟨7, by decide⟩] 0 :=
  ⟨sound_listMerkle, injective_numberHash, not_openingBound_of_valid _ _ _ complete_listMerkle _ _
    codewordIsValid_zero⟩

end EdaBitGen.Ligero

/-!
# The rounds of a proof

The prover of a circuit and the verifier, with the challenges of the verifier or with challenges from
hashes.
-/

namespace EdaBitGen.Ligero

open Inferno (Circuit Op)

variable {F : Type} [Field F] [FieldForLigero F]

/-! ## The prover's secrets -/

/-- A row and the random elements that it is encoded with. -/
structure RandomRow (params : Params F) where
  row : Fin params.l → F
  random : Fin params.t → F

/-- The random values of a prover. -/
structure Coins (params : Params F) where
  mask : F
  w : Fin params.m → Fin params.t → F
  x : Fin params.m → Fin params.t → F
  y : Fin params.m → Fin params.t → F
  z : Fin params.m → Fin params.t → F
  u : RandomRow params
  ux : RandomRow params
  uy : RandomRow params
  uz : RandomRow params
  u0 : Fin params.t → F
  uadd : RandomRow params

namespace RandomRow

variable {params : Params F} (r : RandomRow params)

def codeword : List F := params.encode (List.ofFn r.row) (List.ofFn r.random)

/-- The codeword of a row with sum zero. -/
def zeroCodeword : List F :=
  let w := List.ofFn r.row
  params.encode (w.set (params.l - 1) (w.getD (params.l - 1) 0 - w.sum)) (List.ofFn r.random)

end RandomRow

/-- Write elements to a vector, from an index on. -/
def assign (xs : List F) (start : ℕ) (ys : List F) : List F :=
  xs.take start ++ ys ++ xs.drop (start + ys.length)

/-- Write an element of a product, at the wire of its gate. -/
def setProduct (pick : ℕ → ℕ → ℕ → ℕ) (w : List F) (ninputs : ℕ) (xs : List F) (op : Op F × ℕ) :
    List F :=
  match op.1 with
  | .mul i j => xs.set (op.2 + ninputs) (w.getD (pick i j (op.2 + ninputs)) 0)
  | _ => xs

structure Secret (F : Type) where
  w : List F
  x : List F
  y : List F
  z : List F
  Uw : List (List F)
  Ux : List (List F)
  Uy : List (List F)
  Uz : List (List F)
  u : List F
  ux : List F
  uy : List F
  uz : List F
  u0 : List F
  uadd : List F

namespace Secret

variable [DecidableEq F]

def new (pub : Public F) (c : Circuit F) (inp : List F) (coins : Coins pub.params) :
    Option (Secret F) :=
  if inp.length = c.ninputs then
    let params := pub.params
    let ml := params.m * params.l
    let zeros : List F := List.replicate ml 0
    let w := assign (assign zeros 0 (c.wires inp)) pub.sharedMask.start [coins.mask]
    let elements (pick : ℕ → ℕ → ℕ → ℕ) : List F :=
      c.ops.zipIdx.foldl (setProduct pick w c.ninputs) zeros
    let x := elements fun i _ _ => i
    let y := elements fun _ j _ => j
    let z := elements fun _ _ k => k
    let rows (random : Fin params.m → Fin params.t → F) := List.ofFn fun i => List.ofFn (random i)
    if ∀ k ∈ List.range ml, x.getD k 0 * y.getD k 0 - z.getD k 0 = 0 then
      some {
        w := w
        x := x
        y := y
        z := z
        Uw := params.encodeInterleaved w (rows coins.w)
        Ux := params.encodeInterleaved x (rows coins.x)
        Uy := params.encodeInterleaved y (rows coins.y)
        Uz := params.encodeInterleaved z (rows coins.z)
        u := coins.u.codeword
        ux := coins.ux.zeroCodeword
        uy := coins.uy.zeroCodeword
        uz := coins.uz.zeroCodeword
        u0 := params.encode (List.replicate params.l 0) (List.ofFn coins.u0)
        uadd := coins.uadd.zeroCodeword }
    else none
  else none

/-- The interleaved code. -/
def U (s : Secret F) : List (List F) := s.Uw ++ s.Ux ++ s.Uy ++ s.Uz

end Secret

/-- The entries of rows. -/
def toMatrix (r n : ℕ) (rows : List (List F)) : Matrix (Fin r) (Fin n) F :=
  fun i j => (rows.getD i []).getD j 0

/-! ## Rounds -/

section

variable {Digest : Type} (ser : CanonicalSerialize F) (H : List UInt8 → Digest)
  (merkle : MerkleCbt Digest)

def round0 (params : Params F) (s : Secret F) : Round0 Digest :=
  ⟨treeRoot ser H merkle (toMatrix (4 * params.m) params.n s.U)⟩

/-- The combination of rows. -/
def combineRows (n : ℕ) (r : List F) (U : List (List F)) : List F :=
  (List.range n).map fun j => (List.zipWith (· * ·) r (column U j)).sum

def round2 (pub : Public F) (s : Secret F) (r1 : Round1 F) : Option (Round2 F) := do
  let params := pub.params
  let p := makePa params s.Uw
  let px := makePa params s.Ux
  let py := makePa params s.Uy
  let pz := makePa params s.Uz
  let qshared := makeQshared s.w pub.shared pub.sharedMask r1.rshared
  let pub' ← pub.finalizePadd r1.rshared qshared
  let r2 : Round2 F := {
    v := List.zipWith (· + ·) (combineRows params.n r1.r s.U) s.u
    qadd := makeQadd params s.uadd p pub'.Padd r1.radd
    qx := makeQa params p pub.Px s.Ux s.ux r1.rx
    qy := makeQa params p pub.Py s.Uy s.uy r1.ry
    qz := makeQa params p pub.Pz s.Uz s.uz r1.rz
    p0 := makeP0 params s.u0 px py pz r1.rq
    qshared := qshared }
  let expected := 2 * params.k + 1
  if r2.v.length = params.n ∧ r2.qadd.length = expected ∧ r2.qx.length = expected ∧
      r2.qy.length = expected ∧ r2.qz.length = expected ∧ r2.p0.length = expected then
    some r2
  else none

/-- Different columns, as many as may be opened. -/
structure Queries (params : Params F) where
  Q : List (Fin params.n)
  nodup : Q.Nodup
  length_eq : Q.length = params.t

def round4 (params : Params F) (s : Secret F) (Q : List (Fin params.n)) :
    Option (Round4 F Digest) := do
  let lem ← Lemma.new ser H merkle (toMatrix (4 * params.m) params.n s.U) Q
  let entries (u : List F) := Q.map fun j => u.getD j.val 0
  let r4 : Round4 F Digest := {
    U_lemma := lem
    ux := entries s.ux
    uy := entries s.uy
    uz := entries s.uz
    uadd := entries s.uadd
    u := entries s.u
    u0 := entries s.u0 }
  let log_n := Nat.clog 2 params.n
  if lem.columns.columns.length = params.t ∧ lem.columns.nrows = 4 * params.m ∧
      lem.lemmas.length ≤ params.t * log_n ∧ r4.ux.length = params.t ∧ r4.uy.length = params.t ∧
      r4.uz.length = params.t ∧ r4.uadd.length = params.t ∧ r4.u.length = params.t ∧
      r4.u0.length = params.t then
    some r4
  else none

variable [DecidableEq F]

def verify (pub : Public F) (r0 : Round0 Digest) (r1 : Round1 F) (r2 : Round2 F)
    (Q : List ℕ) (r4 : Round4 F Digest) : Option Bool := do
  let m := pub.params.m
  let pub ← pub.finalizePadd r1.rshared r2.qshared
  if r4.U_lemma.columns.nrows < 4 * m then none
  else do
    let U := r4.U_lemma.columns.columns.map List.ofFn
    let part (b : ℕ) : List (List F) := U.map fun col => (col.drop (b * m)).take m
    let code ← codeCheck r1.r r2.v Q U r4.u
    let addition ← additionCheck pub r1.radd r2.qadd Q (part 0) r4.uadd
    let multiplication ← multiplicationCheck pub r1 r2 Q (part 0) (part 1) (part 2) (part 3) r4.ux
      r4.uy r4.uz r4.u0
    let hash ← hashCheck ser H merkle pub.params r0.U_root r2.v r4.U_lemma
    some (code && addition && multiplication && hash)

/-- All rounds, with the challenges of the verifier. -/
def interactive (pub : Public F) (c : Circuit F) (inp : List F) (coins : Coins pub.params)
    (ch : Challenges pub) (radd : Fin (pub.params.m * pub.params.l) → F)
    (queries : Queries pub.params) : Option Bool := do
  let s ← Secret.new pub c inp coins
  let r0 := round0 ser H merkle pub.params s
  let r1 := ch.round1 radd
  let r2 ← round2 pub s r1
  let r4 ← round4 ser H merkle pub.params s queries.Q
  verify ser H merkle pub r0 r1 r2 (queries.Q.map Fin.val) r4

end

/-! ## Challenges from hashes -/

section

variable {N : ℕ} (ser : CanonicalSerialize F) (H : List UInt8 → Vector UInt8 N)
  (merkle : MerkleCbt (Vector UInt8 N))

/-- Challenges from generators whose seed is the start of a digest. -/
structure Generators (pub : Public F) (N : ℕ) where
  round1 : Vector UInt8 N → Challenges pub × (Fin (pub.params.m * pub.params.l) → F)
  round3 : Vector UInt8 N → Queries pub.params

structure Proof (F : Type) (N : ℕ) where
  r0 : Round0 (Vector UInt8 N)
  r2 : Round2 F
  r4 : Round4 F (Vector UInt8 N)

variable {pub : Public F} (generators : Generators pub N)

def makeR1 (cktHash : Vector UInt8 N) (r0 : Round0 (Vector UInt8 N)) (otherCommit : List UInt8) :
    Round1 F × Vector UInt8 N :=
  let digest := H (makeR1Bytes cktHash r0 otherCommit)
  ((generators.round1 digest).1.round1 (generators.round1 digest).2, digest)

def makeR3 (state : Vector UInt8 N) (r2 : Round2 F) : Queries pub.params :=
  generators.round3 (H (makeR3Bytes ser state r2))

variable [DecidableEq F]

def makeProof (c : Circuit F) (inp : List F) (coins : Coins pub.params) (cktHash : Vector UInt8 N)
    (otherCommit : List UInt8) : Option (Proof F N) := do
  let s ← Secret.new pub c inp coins
  let r0 := round0 ser H merkle pub.params s
  let (r1, state) := makeR1 H generators cktHash r0 otherCommit
  let r2 ← round2 pub s r1
  let queries := makeR3 ser H generators state r2
  let r4 ← round4 ser H merkle pub.params s queries.Q
  some ⟨r0, r2, r4⟩

def verifyProof (proof : Proof F N) (cktHash : Vector UInt8 N) (otherCommit : List UInt8) :
    Option Bool :=
  let (r1, state) := makeR1 H generators cktHash proof.r0 otherCommit
  let queries := makeR3 ser H generators state proof.r2
  verify ser H merkle pub proof.r0 r1 proof.r2 (queries.Q.map Fin.val) proof.r4

/-- A proof that is made and then verified. -/
def noninteractive (c : Circuit F) (inp : List F) (coins : Coins pub.params)
    (cktHash : Vector UInt8 N) (otherCommit : List UInt8) : Option Bool := do
  let proof ← makeProof ser H merkle generators c inp coins cktHash otherCommit
  verifyProof ser H merkle generators proof cktHash otherCommit

end

end EdaBitGen.Ligero
