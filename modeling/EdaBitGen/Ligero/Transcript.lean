import EdaBitGen.Scuttlebutt.F2e19x3e26

/-!
# The transcript of a proof

The messages of the rounds, and how a non-interactive proof hashes them.
-/

/-!
## Messages

The messages of the rounds of a proof.  What a prover sends are arrays of lengths of his choice, and
a matrix that he sends is rectangular and has as many rows and columns as he likes.
-/

namespace EdaBitGen.Ligero

/-- A rectangular matrix, column by column. -/
structure Columns (F : Type) where
  nrows : ℕ
  columns : List (Fin nrows → F)

namespace Columns

variable {F : Type}

/-- The columns of a matrix with `n` columns. -/
def ofMatrix {r n : ℕ} (U : Matrix (Fin r) (Fin n) F) : List (Fin r → F) :=
  List.ofFn fun j => fun i => U i j

end Columns

/-- Some columns of the interleaved codeword, and a proof that they are in the tree. -/
structure Lemma (F Digest : Type) where
  columns : Columns F
  lemmas : List Digest
  indices : List ℕ

/-- The root of the tree of columns. -/
@[ext] structure Round0 (Digest : Type) where
  U_root : Digest

/-- The coefficients of the linear combinations. -/
structure Round1 (F : Type) where
  r : List F
  radd : List F
  rx : List F
  ry : List F
  rz : List F
  rq : List F
  rshared : List (List F)

/-- The linear combinations: a codeword, polynomials, and the values of the shared checks. -/
@[ext] structure Round2 (F : Type) where
  v : List F
  qadd : List F
  qx : List F
  qy : List F
  qz : List F
  p0 : List F
  qshared : List F

/-- The columns to open. -/
structure Round3 where
  Q : List ℕ

/-- The opened columns, and the entries of the blinding codewords at the same places. -/
structure Round4 (F Digest : Type) where
  U_lemma : Lemma F Digest
  ux : List F
  uy : List F
  uz : List F
  uadd : List F
  u : List F
  u0 : List F

end EdaBitGen.Ligero

/-!
## The transcript of a non-interactive proof

Both challenges are made from hashes of what the prover has sent so far.  The arrays of the second
message are hashed one after another, without their lengths, and the values of the shared checks are
not hashed at all.
-/

namespace EdaBitGen.Ligero

/-- Byte representations of one length. -/
structure CanonicalSerialize (F : Type) where
  byteReprLen : ℕ
  toBytes : F → Vector UInt8 byteReprLen
  fromBytes : Vector UInt8 byteReprLen → Option F
  fromBytes_toBytes : ∀ x, fromBytes (toBytes x) = some x

namespace CanonicalSerialize

variable {F : Type} (ser : CanonicalSerialize F)

/-- The bytes of an array, element by element. -/
def bytes (xs : List F) : List UInt8 := xs.flatMap fun x => (ser.toBytes x).toList

theorem toBytes_injective : Function.Injective ser.toBytes := by
  intro x y h
  have hx := ser.fromBytes_toBytes x
  rw [h, ser.fromBytes_toBytes y] at hx
  exact (Option.some.inj hx).symm

theorem bytes_append (xs ys : List F) : ser.bytes (xs ++ ys) = ser.bytes xs ++ ser.bytes ys :=
  List.flatMap_append

theorem bytes_cons (x : F) (xs : List F) :
    ser.bytes (x :: xs) = (ser.toBytes x).toList ++ ser.bytes xs :=
  List.flatMap_cons

theorem byteReprLen_pos [Nontrivial F] : 0 < ser.byteReprLen := by
  obtain ⟨x, y, hne⟩ := exists_pair_ne F
  apply Nat.pos_of_ne_zero
  intro hzero
  apply hne
  apply ser.toBytes_injective
  apply Vector.toList_inj.1
  have hx : (ser.toBytes x).toList.length = 0 := by rw [Vector.length_toList, hzero]
  have hy : (ser.toBytes y).toList.length = 0 := by rw [Vector.length_toList, hzero]
  rw [List.length_eq_zero_iff.1 hx, List.length_eq_zero_iff.1 hy]

theorem bytes_injective [Nontrivial F] : Function.Injective ser.bytes := by
  have hpos := ser.byteReprLen_pos
  intro xs
  induction xs with
  | nil =>
    intro ys h
    cases ys with
    | nil => rfl
    | cons y ys =>
      have hlen := congrArg List.length h
      rw [bytes_cons, List.length_append, Vector.length_toList] at hlen
      change 0 = _ at hlen
      omega
  | cons x xs ih =>
    intro ys h
    cases ys with
    | nil =>
      have hlen := congrArg List.length h
      rw [bytes_cons, List.length_append, Vector.length_toList] at hlen
      change _ = 0 at hlen
      omega
    | cons y ys =>
      rw [bytes_cons, bytes_cons] at h
      obtain ⟨hx, hxs⟩ := List.append_inj h (by rw [Vector.length_toList, Vector.length_toList])
      rw [ser.toBytes_injective (Vector.toList_inj.1 hx), ih hxs]

end CanonicalSerialize

section

variable {F : Type} {N : ℕ} (H : List UInt8 → Vector UInt8 N) (ser : CanonicalSerialize F)

/-- What the prover has sent before he learns which columns to open. -/
@[ext] structure Transcript (F : Type) (N : ℕ) where
  r0 : Round0 (Vector UInt8 N)
  otherCommit : List UInt8
  r2 : Round2 F

/-- What is hashed for the coefficients of the linear combinations. -/
def makeR1Bytes (state : Vector UInt8 N) (r0 : Round0 (Vector UInt8 N)) (otherCommit : List UInt8) :
    List UInt8 :=
  state.toList ++ r0.U_root.toList ++ otherCommit

/-- What is hashed for the columns to open. -/
def makeR3Bytes (state : Vector UInt8 N) (r2 : Round2 F) : List UInt8 :=
  state.toList ++ ser.bytes r2.p0 ++ ser.bytes r2.qadd ++ ser.bytes r2.qx ++ ser.bytes r2.qy ++
    ser.bytes r2.qz ++ ser.bytes r2.v

/-- What is hashed for both challenges, with the hash of the circuit. -/
def Transcript.hashed (cktHash : Vector UInt8 N) (t : Transcript F N) : List UInt8 × List UInt8 :=
  let r1Bytes := makeR1Bytes cktHash t.r0 t.otherCommit
  (r1Bytes, makeR3Bytes ser (H r1Bytes) t.r2)

/-- The arrays that are hashed, one after another. -/
def Round2.elements (r2 : Round2 F) : List F :=
  r2.p0 ++ r2.qadd ++ r2.qx ++ r2.qy ++ r2.qz ++ r2.v

theorem makeR1Bytes_inj {state : Vector UInt8 N} {r0 r0' : Round0 (Vector UInt8 N)}
    {otherCommit otherCommit' : List UInt8} :
    makeR1Bytes state r0 otherCommit = makeR1Bytes state r0' otherCommit' ↔
      r0 = r0' ∧ otherCommit = otherCommit' := by
  constructor
  · intro h
    rw [makeR1Bytes, makeR1Bytes, List.append_assoc, List.append_assoc] at h
    have htail := List.append_cancel_left h
    obtain ⟨hroot, hcommit⟩ :=
      List.append_inj htail (by rw [Vector.length_toList, Vector.length_toList])
    exact ⟨Round0.ext (Vector.toList_inj.1 hroot), hcommit⟩
  · rintro ⟨rfl, rfl⟩
    rfl

theorem makeR3Bytes_eq (state : Vector UInt8 N) (r2 : Round2 F) :
    makeR3Bytes ser state r2 = state.toList ++ ser.bytes r2.elements := by
  simp only [makeR3Bytes, Round2.elements, CanonicalSerialize.bytes_append, List.append_assoc]

variable [Field F]

theorem hashed_eq_iff (cktHash : Vector UInt8 N) (t t' : Transcript F N) :
    t.hashed H ser cktHash = t'.hashed H ser cktHash ↔
      t.r0 = t'.r0 ∧ t.otherCommit = t'.otherCommit ∧ t.r2.elements = t'.r2.elements := by
  constructor
  · intro h
    obtain ⟨hr1, hr3⟩ := Prod.mk.inj h
    obtain ⟨hr0, hcommit⟩ := makeR1Bytes_inj.1 hr1
    rw [makeR3Bytes_eq, makeR3Bytes_eq, hr1] at hr3
    exact ⟨hr0, hcommit, ser.bytes_injective (List.append_cancel_left hr3)⟩
  · rintro ⟨hr0, hcommit, helements⟩
    simp only [Transcript.hashed, makeR3Bytes_eq, hr0, hcommit, helements]

/-- Different transcripts have different hashed bytes exactly when they differ in the root, in the
commitment or in the elements of the arrays, read one after another. -/
theorem bound_iff (cktHash : Vector UInt8 N) (t t' : Transcript F N) :
    (t ≠ t' → t.hashed H ser cktHash ≠ t'.hashed H ser cktHash) ↔
      t = t' ∨ t.r0 ≠ t'.r0 ∨ t.otherCommit ≠ t'.otherCommit ∨
        t.r2.elements ≠ t'.r2.elements := by
  have h := hashed_eq_iff H ser cktHash t t'
  tauto

end

/-- The eight bytes of an element, from the least one on. -/
def f2e19x3e26Serialize : CanonicalSerialize F2e19x3e26 where
  byteReprLen := 8
  toBytes x := Vector.ofFn fun i => UInt8.ofNat (x.val / 256 ^ i.val)
  fromBytes b :=
    let value := ∑ i : Fin 8, b[i].toNat * 256 ^ i.val
    if value < F2e19x3e26.modulus then some value else none
  fromBytes_toBytes x := by
    have hlt : x.val < 1332669751402954753 := ZMod.val_lt x
    have hvalue : ∑ i : Fin 8, (UInt8.ofNat (x.val / 256 ^ i.val)).toNat * 256 ^ i.val = x.val := by
      simp only [UInt8.toNat_ofNat', Fin.sum_univ_eight]
      norm_num
      omega
    simp only [Fin.getElem_fin, Vector.getElem_ofFn, hvalue]
    rw [if_pos (ZMod.val_lt x), ZMod.natCast_zmod_val]

/-- Two messages that differ in the value of the shared check. -/
theorem not_bound : ∃ t t' : Transcript F2e19x3e26 32, t ≠ t' ∧
    ∀ (H : List UInt8 → Vector UInt8 32) (cktHash : Vector UInt8 32),
      t.hashed H f2e19x3e26Serialize cktHash = t'.hashed H f2e19x3e26Serialize cktHash := by
  let sent (qshared : F2e19x3e26) : Transcript F2e19x3e26 32 :=
    ⟨⟨Vector.replicate 32 0⟩, [], ⟨[1], [1], [1], [1], [1], [1], [qshared]⟩⟩
  refine ⟨sent 0, sent 1, ?_, fun _ _ => rfl⟩
  intro h
  have hqshared := congrArg (fun t => t.r2.qshared) h
  simp [sent] at hqshared

end EdaBitGen.Ligero
