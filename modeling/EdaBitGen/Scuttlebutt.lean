import EdaBitGen.Interaction.Party

/-!
# Fields, channels and generators

What the protocols use of the `scuttlebutt` library: finite fields over their prime field, values
written to and read from a channel, random values drawn from a generator, and the two primitives
that turn a seed into a generator and values into a seed.
-/

namespace EdaBitGen

open Interaction Party

/-- A finite field `FE` of some degree over its prime field `PF`. -/
class FiniteField (PF FE : Type) [Field PF] [Field FE] [Algebra PF FE] where
  finite : Finite FE
  degree : ℕ
  fromSubfield : (Fin degree → PF) ≃ₗ[PF] FE

theorem atLeastTwo_two : Nat.AtLeastTwo 2 := ⟨le_rfl⟩

/-- Values of `X` that travel in messages of `M`, alone or as a sequence. -/
class CanonicalSerialize (M X : Type) where
  toMsg : X → M
  ofMsg : M → Option X
  seqToMsg : List X → M
  seqOfMsg : M → Option (List X)
  ofMsg_toMsg : ∀ x, ofMsg (toMsg x) = some x
  seqOfMsg_seqToMsg : ∀ xs, seqOfMsg (seqToMsg xs) = some xs

/-- A draw of a generator, read as a random value of `X`; every value comes from some draw. -/
class Random (D X : Type) where
  random : D → X
  random_surjective : Function.Surjective random

abbrev Block := BitVec 128

/-- `AesRng::from_seed` and the first 16 bytes of a blake3 hash of serialized values. -/
structure Primitives (M D : Type) where
  aesRng : Block → Stream' D
  blake3 : List M → Block

/-- The first `n` random values of a generator. -/
def randoms {D : Type} (X : Type) [Random D X] (rng : Stream' D) (n : ℕ) : List X :=
  (rng.take n).map Random.random

@[simp] theorem length_randoms {D X : Type} [Random D X] (rng : Stream' D) (n : ℕ) :
    (randoms X rng n).length = n := by simp [randoms]

section Channel

variable {M G D σ τ α β X : Type} [CanonicalSerialize M X]

open CanonicalSerialize

def writeSerializable (x : X) : Party M G σ Unit :=
  write (toMsg x)

def readSerializable : Party M G σ X := do
  match ofMsg (← read) with
  | some x => pure x
  | none => abort "invalid serialization"

def writeSerializableSeq (xs : List X) : Party M G σ Unit :=
  write (seqToMsg xs)

def readSerializableSeq (n : ℕ) : Party M G σ (List X) := do
  match seqOfMsg (← read) with
  | some xs =>
    assert (xs.length = n) "invalid serialization"
    pure xs
  | none => abort "invalid serialization"

/-- Draw a random value of `X`. -/
def random (X : Type) [Random D X] : Party M (Stream' D) σ X := do
  pure (Random.random (← draw))

/-! ## What is read from a list of messages -/

section Run

variable {s : σ} {g : G}

theorem run_readSerializable (inbox : List M) :
    Proc.run ((readSerializable : Party M G σ X) s g) inbox =
      match inbox with
      | [] => none
      | m :: rest => (ofMsg m).map fun x => (((x, s), g), rest) := by
  unfold readSerializable
  cases inbox with
  | nil => rfl
  | cons m rest =>
    rw [bind_apply, read_apply, Proc.recv_bind, Proc.run_recv_cons]
    cases h : (ofMsg m : Option X) <;> simp [h]

theorem run_readSerializable_eq_some {x : X} {s' : σ} {g' : G} {inbox rest : List M} :
    Proc.run ((readSerializable : Party M G σ X) s g) inbox = some (((x, s'), g'), rest) ↔
      ∃ m, inbox = m :: rest ∧ ofMsg m = some x ∧ s' = s ∧ g' = g := by
  rw [run_readSerializable]
  cases inbox with
  | nil => simp
  | cons m inbox =>
    simp only [Option.map_eq_some_iff, Prod.mk.injEq, List.cons.injEq]
    constructor
    · rintro ⟨_, hx, ⟨⟨rfl, rfl⟩, rfl⟩, rfl⟩
      exact ⟨m, ⟨rfl, rfl⟩, hx, rfl, rfl⟩
    · rintro ⟨_, ⟨rfl, rfl⟩, hx, rfl, rfl⟩
      exact ⟨x, hx, ⟨⟨rfl, rfl⟩, rfl⟩, rfl⟩

/-- The `n` values at the front of a list of messages. -/
def readEach (X : Type) [CanonicalSerialize M X] : ℕ → List M → Option (List X × List M)
  | 0, inbox => some ([], inbox)
  | _ + 1, [] => none
  | n + 1, m :: inbox => do
    let x ← ofMsg m
    let (xs, rest) ← readEach X n inbox
    some (x :: xs, rest)

theorem length_readEach {n : ℕ} {inbox rest : List M} {xs : List X}
    (h : readEach X n inbox = some (xs, rest)) : xs.length = n := by
  induction n generalizing inbox xs rest with
  | zero =>
    simp only [readEach, Option.some.injEq, Prod.mk.injEq] at h
    rw [← h.1, List.length_nil]
  | succ n ih =>
    cases inbox with
    | nil => simp [readEach] at h
    | cons m inbox =>
      simp only [readEach, bind, Option.bind_eq_some_iff, Option.some.injEq, Prod.mk.injEq] at h
      obtain ⟨x, -, ⟨xs', rest'⟩, hxs, rfl, -⟩ := h
      rw [List.length_cons, ih hxs]

theorem run_mapM_readSerializable {γ : Type} (ys : List γ) (inbox : List M) :
    Proc.run ((ys.mapM fun _ => (readSerializable : Party M G σ X)) s g) inbox =
      (readEach X ys.length inbox).map fun r => (((r.1, s), g), r.2) := by
  induction ys generalizing inbox with
  | nil => rfl
  | cons y ys ih =>
    rw [List.mapM_cons, bind_apply, Proc.run_bind, run_readSerializable]
    cases inbox with
    | nil => rfl
    | cons m inbox =>
      cases h : (ofMsg m : Option X) with
      | none => simp [readEach, h]
      | some x =>
        cases h' : readEach X ys.length inbox <;>
          simp [readEach, h, h', ih, bind_apply, Proc.run_bind]

end Run

/-! ## Prover and verifier in step -/

namespace Sync

variable {H : Type} {rel : σ → τ → Prop} {post : α → β → Prop}

theorem write_readSerializable {x : X} {f : Unit → Party M G σ α} {k : X → Party M H τ β}
    (h : Sync rel (f ()) (k x) post) :
    Sync rel (writeSerializable x >>= f) (readSerializable >>= k) post := by
  unfold writeSerializable readSerializable
  rw [bind_assoc]
  refine Party.Sync.write_read ?_
  simpa [ofMsg_toMsg] using h

theorem read_writeSerializable {x : X} {f : X → Party M G σ α} {k : Unit → Party M H τ β}
    (h : Sync rel (f x) (k ()) post) :
    Sync rel (readSerializable >>= f) (writeSerializable x >>= k) post :=
  (write_readSerializable h.swap).swap

theorem write_readSerializableSeq {xs : List X} {n : ℕ} (hn : xs.length = n)
    {f : Unit → Party M G σ α} {k : List X → Party M H τ β} (h : Sync rel (f ()) (k xs) post) :
    Sync rel (writeSerializableSeq xs >>= f) (readSerializableSeq n >>= k) post := by
  unfold writeSerializableSeq readSerializableSeq
  rw [bind_assoc]
  refine Party.Sync.write_read ?_
  simpa [seqOfMsg_seqToMsg, hn] using h

theorem read_writeSerializableSeq {xs : List X} {n : ℕ} (hn : xs.length = n)
    {f : List X → Party M G σ α} {k : Unit → Party M H τ β} (h : Sync rel (f xs) (k ()) post) :
    Sync rel (readSerializableSeq n >>= f) (writeSerializableSeq xs >>= k) post :=
  (write_readSerializableSeq hn h.swap).swap

theorem write_readEach {γ δ : Type} (v : γ → X) {xs : List γ} {ys : List δ}
    (h : xs.length = ys.length) :
    Sync rel (xs.mapM fun x => (writeSerializable (v x) : Party M G σ Unit))
      (ys.mapM fun _ => (readSerializable : Party M H τ X)) fun _ out => out = xs.map v := by
  induction xs generalizing ys with
  | nil =>
    cases List.eq_nil_of_length_eq_zero h.symm
    exact Party.Sync.pure rfl
  | cons x xs ih =>
    cases ys with
    | nil => simp at h
    | cons y ys =>
      rw [List.mapM_cons, List.mapM_cons]
      refine write_readSerializable ((ih (by simpa using h)).bind fun us out hout => ?_)
      exact Party.Sync.pure (by rw [hout, List.map_cons])

omit [CanonicalSerialize M X] in
theorem random_left [Random D X] {f : X → Party M (Stream' D) σ α} {Q : Party M H τ β}
    (h : ∀ x, Sync rel (f x) Q post) : Sync rel (random X >>= f) Q post := by
  unfold random
  rw [bind_assoc]
  exact Party.Sync.draw_left fun d => h _

omit [CanonicalSerialize M X] in
theorem random_right [Random D X] {P : Party M G σ α} {k : X → Party M (Stream' D) τ β}
    (h : ∀ x, Sync rel P (k x) post) : Sync rel P (random X >>= k) post :=
  (random_left fun x => (h x).swap).swap

end Sync

end Channel

end EdaBitGen
