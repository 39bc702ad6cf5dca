import Mathlib

/-!
# Programs over a buffered stream

`Scan B C α` is the tree of a program that reads a stream of `B` through a buffer, makes calls of
type `C` and ends with a value of type `α` or with an error. `run` runs it on a reader that is
filled in pieces, `parse` on the stream alone. `run_eq_iff` says when the two agree: if wherever the
program looks ahead, the piece at hand is long enough.
-/

namespace Interaction

/-- What a reading loop does with the next item. -/
inductive Verdict (σ : Type) where
  | keep (s : σ)
  | stop
  | fail

/-- A program that reads a buffered stream of `B`, makes calls of type `C` and returns an `α`. -/
inductive Scan (B C α : Type) : Type 1 where
  | pure (a : α)
  | fail
  | panic
  | diverge
  | first (k : Option B → Scan B C α)
  | readExact (n : ℕ) (k : List B → Scan B C α)
  | readWhile {σ : Type} (f : σ → B → Verdict σ) (s : σ) (k : σ → Scan B C α)
  | skipTo (b : B) (k : Bool → Scan B C α)
  | lookAhead (n : ℕ) (k : List B → Scan B C α)
  | call (c : C) (k : Scan B C α)

/-- How a program ends. -/
inductive Ending (α : Type) where
  | ok (a : α)
  | error
  | panic
  | diverge
  deriving DecidableEq

namespace Ending

/-- The program returned, with a value or with an error. -/
def Returns {α : Type} : Ending α → Prop
  | ok _ | error => True
  | panic | diverge => False

instance {α : Type} : DecidablePred (Returns (α := α))
  | ok _ | error => isTrue trivial
  | panic | diverge => isFalse id

end Ending

/-- The state in which a loop over `bs` ends, and what it leaves of it. -/
def parseWhile {B σ : Type} (f : σ → B → Verdict σ) (s : σ) : List B → Option (σ × List B)
  | [] => some (s, [])
  | b :: bs =>
    match f s b with
    | .keep s' => parseWhile f s' bs
    | .stop => some (s, b :: bs)
    | .fail => none

/-! ## The reader -/

/-- A reader: what is left of the last fill, and the fills to come. -/
structure BufReader (B : Type) where
  buf : List B
  fills : List {fill : List B // fill ≠ []}

namespace BufReader

variable {B : Type}

def rest (fills : List {fill : List B // fill ≠ []}) : List B :=
  (fills.map Subtype.val).flatten

/-- All that is still to be read. -/
def bytes (r : BufReader B) : List B :=
  r.buf ++ rest r.fills

/-- The reader before the first fill. -/
def new (fills : List {fill : List B // fill ≠ []}) : BufReader B where
  buf := []
  fills := fills

def fillBuf (r : BufReader B) : BufReader B :=
  match r.buf, r.fills with
  | [], fill :: fills => ⟨fill, fills⟩
  | buf, fills => ⟨buf, fills⟩

/-- The next `n` items, from as many fills as it takes; `none` if the stream ends before. -/
def readExactFrom (n : ℕ) (buf : List B) :
    List {fill : List B // fill ≠ []} → Option (List B × BufReader B)
  | [] => if n ≤ buf.length then some (buf.take n, ⟨buf.drop n, []⟩) else none
  | fill :: fills =>
    if n ≤ buf.length then some (buf.take n, ⟨buf.drop n, fill :: fills⟩)
    else (readExactFrom (n - buf.length) fill fills).map fun p => (buf ++ p.1, p.2)

/-- One pass over the buffer: the state at the item it stops at, with what is left from there. -/
def scanBuf {σ : Type} (f : σ → B → Verdict σ) (s : σ) : List B → Option (σ × Option (List B))
  | [] => some (s, none)
  | b :: buf =>
    match f s b with
    | .keep s' => scanBuf f s' buf
    | .stop => some (s, some (b :: buf))
    | .fail => none

def readWhileFrom {σ : Type} (f : σ → B → Verdict σ) (s : σ) (buf : List B) :
    List {fill : List B // fill ≠ []} → Option (σ × BufReader B)
  | [] => (scanBuf f s buf).map fun p => (p.1, ⟨p.2.getD [], []⟩)
  | fill :: fills =>
    match scanBuf f s buf with
    | none => none
    | some (s, some left) => some (s, ⟨left, fill :: fills⟩)
    | some (s, none) => readWhileFrom f s fill fills

/-- The next buffers are dropped up to the first `b` and that one too; whether there was one. -/
def skipToFrom [DecidableEq B] (b : B) (buf : List B) :
    List {fill : List B // fill ≠ []} → Bool × BufReader B
  | [] => if b ∈ buf then (true, ⟨(buf.dropWhile (· ≠ b)).tail, []⟩) else (false, ⟨[], []⟩)
  | fill :: fills =>
    if b ∈ buf then (true, ⟨(buf.dropWhile (· ≠ b)).tail, fill :: fills⟩)
    else skipToFrom b fill fills

/-- How much of its fill is left where `left` items of the stream are. -/
def room : List {fill : List B // fill ≠ []} → ℕ → ℕ
  | [], left => left
  | fill :: fills, left =>
    if left ≤ (rest (fill :: fills)).length then room fills left
    else left - (rest (fill :: fills)).length

/-! ### What each operation reads -/

@[simp] theorem rest_nil : rest ([] : List {fill : List B // fill ≠ []}) = [] := rfl

@[simp] theorem rest_cons (fill : {fill : List B // fill ≠ []})
    (fills : List {fill : List B // fill ≠ []}) : rest (fill :: fills) = fill ++ rest fills := rfl

/-- `r'` is a later state of the reader `r`: no more is left, and its fills end at the same
items. -/
structure Reaches (r r' : BufReader B) : Prop where
  length_le : r'.bytes.length ≤ r.bytes.length
  room_eq : ∀ left ≤ r'.bytes.length, room r.fills left = room r'.fills left

namespace Reaches

theorem refl (r : BufReader B) : Reaches r r :=
  ⟨le_rfl, fun _ _ => rfl⟩

theorem trans {r₁ r₂ r₃ : BufReader B} (h₁ : Reaches r₁ r₂) (h₂ : Reaches r₂ r₃) : Reaches r₁ r₃ :=
  ⟨h₂.length_le.trans h₁.length_le, fun left hleft =>
    (h₁.room_eq left (hleft.trans h₂.length_le)).trans (h₂.room_eq left hleft)⟩

theorem consume {buf buf' : List B} (fills : List {fill : List B // fill ≠ []})
    (h : buf'.length ≤ buf.length) : Reaches ⟨buf, fills⟩ ⟨buf', fills⟩ :=
  ⟨by simpa [bytes] using h, fun _ _ => rfl⟩

theorem refill (buf : List B) (fill : {fill : List B // fill ≠ []})
    (fills : List {fill : List B // fill ≠ []}) :
    Reaches ⟨buf, fill :: fills⟩ ⟨fill, fills⟩ := by
  refine ⟨by simp [bytes], fun left hleft => ?_⟩
  rw [room, if_pos (by simpa [bytes] using hleft)]

end Reaches

@[simp] theorem bytes_fillBuf (r : BufReader B) : r.fillBuf.bytes = r.bytes := by
  obtain ⟨_ | ⟨b, buf⟩, _ | ⟨fill, fills⟩⟩ := r <;> simp [fillBuf, bytes]

theorem reaches_fillBuf (r : BufReader B) : Reaches r r.fillBuf := by
  obtain ⟨_ | ⟨b, buf⟩, _ | ⟨fill, fills⟩⟩ := r
  · exact Reaches.refl _
  · exact Reaches.refill _ _ _
  · exact Reaches.refl _
  · exact Reaches.refl _

theorem head?_fillBuf (r : BufReader B) : r.fillBuf.buf.head? = r.bytes.head? := by
  obtain ⟨_ | ⟨b, buf⟩, _ | ⟨⟨_ | ⟨c, fill⟩, hfill⟩, fills⟩⟩ := r
  · rfl
  · exact absurd rfl hfill
  · rfl
  · rfl
  · rfl
  · rfl

theorem take_fillBuf (r : BufReader B) {n : ℕ} (h : n ≤ r.fillBuf.buf.length) :
    r.fillBuf.buf.take n = r.bytes.take n := by
  rw [← bytes_fillBuf, bytes, List.take_append_of_le_length h]

theorem room_bytes (r : BufReader B) : room r.fills r.bytes.length = r.fillBuf.buf.length := by
  have hroom (fills : List {fill : List B // fill ≠ []}) (buf : List B) (hbuf : buf ≠ []) :
      room fills (buf ++ rest fills).length = buf.length := by
    have hpos := List.length_pos_iff.2 hbuf
    cases fills with
    | nil => simp [room]
    | cons fill fills =>
      rw [room, if_neg (by rw [List.length_append]; omega), List.length_append, Nat.add_sub_cancel]
  obtain ⟨_ | ⟨b, buf⟩, fills⟩ := r
  · cases fills with
    | nil => rfl
    | cons fill fills =>
      rw [bytes, List.nil_append, room, if_pos le_rfl]
      exact hroom fills fill fill.2
  · rw [show (BufReader.mk (b :: buf) fills).fillBuf.buf = b :: buf by simp [fillBuf]]
    exact hroom fills (b :: buf) (List.cons_ne_nil _ _)

theorem readExactFrom_some {n : ℕ} {buf : List B} {fills : List {fill : List B // fill ≠ []}}
    (h : n ≤ (buf ++ rest fills).length) :
    ∃ r, readExactFrom n buf fills = some ((buf ++ rest fills).take n, r) ∧
      r.bytes = (buf ++ rest fills).drop n ∧ Reaches ⟨buf, fills⟩ r := by
  induction fills generalizing n buf with
  | nil =>
    rw [rest_nil, List.append_nil] at h ⊢
    rw [readExactFrom, if_pos h]
    exact ⟨_, rfl, by simp [bytes], Reaches.consume _ (by simp)⟩
  | cons fill fills ih =>
    by_cases hn : n ≤ buf.length
    · rw [readExactFrom, if_pos hn, List.take_append_of_le_length hn,
        List.drop_append_of_le_length hn]
      exact ⟨_, rfl, rfl, Reaches.consume _ (by simp)⟩
    · rw [rest_cons] at h ⊢
      obtain ⟨r, hread, hbytes, hreach⟩ := @ih (n - buf.length) fill
        (by rw [List.length_append] at h; omega)
      have htake (tail : List B) : (buf ++ tail).take n = buf ++ tail.take (n - buf.length) := by
        rw [List.take_append, List.take_of_length_le (by omega)]
      have hdrop (tail : List B) : (buf ++ tail).drop n = tail.drop (n - buf.length) := by
        rw [List.drop_append, List.drop_of_length_le (by omega), List.nil_append]
      refine ⟨r, ?_, ?_, (Reaches.refill _ _ _).trans hreach⟩
      · rw [readExactFrom, if_neg hn, hread, htake]
        rfl
      · rw [hbytes, hdrop]

theorem readExactFrom_none {n : ℕ} {buf : List B} {fills : List {fill : List B // fill ≠ []}}
    (h : (buf ++ rest fills).length < n) : readExactFrom n buf fills = none := by
  induction fills generalizing n buf with
  | nil =>
    rw [rest_nil, List.append_nil] at h
    rw [readExactFrom, if_neg (by omega)]
  | cons fill fills ih =>
    rw [List.length_append, rest_cons] at h
    rw [readExactFrom, if_neg (by omega), ih (by omega)]
    rfl

theorem parseWhile_append {σ : Type} (f : σ → B → Verdict σ) (s : σ) (buf bs : List B) :
    parseWhile f s (buf ++ bs) =
      match scanBuf f s buf with
      | none => none
      | some (s, none) => parseWhile f s bs
      | some (s, some left) => some (s, left ++ bs) := by
  induction buf generalizing s with
  | nil => rfl
  | cons b buf ih =>
    rw [List.cons_append, parseWhile, scanBuf]
    cases f s b with
    | keep s' => exact ih s'
    | stop => rfl
    | fail => rfl

theorem length_scanBuf {σ : Type} {f : σ → B → Verdict σ} {s s' : σ} {buf left : List B}
    (h : scanBuf f s buf = some (s', some left)) : left.length ≤ buf.length := by
  induction buf generalizing s with
  | nil => simp [scanBuf] at h
  | cons b buf ih =>
    rw [scanBuf] at h
    cases hf : f s b with
    | keep s₁ =>
      rw [hf] at h
      exact (ih h).trans (Nat.le_succ _)
    | stop =>
      rw [hf] at h
      simp only [Option.some.injEq, Prod.mk.injEq] at h
      rw [← h.2]
    | fail => simp [hf] at h

theorem readWhileFrom_some {σ : Type} {f : σ → B → Verdict σ} {s s' : σ} {buf bs : List B}
    {fills : List {fill : List B // fill ≠ []}}
    (h : parseWhile f s (buf ++ rest fills) = some (s', bs)) :
    ∃ r, readWhileFrom f s buf fills = some (s', r) ∧ r.bytes = bs ∧ Reaches ⟨buf, fills⟩ r := by
  induction fills generalizing s buf with
  | nil =>
    rw [parseWhile_append] at h
    rw [readWhileFrom]
    match hscan : scanBuf f s buf with
    | none => simp [hscan] at h
    | some (s₁, none) =>
      simp only [hscan, rest_nil, parseWhile, Option.some.injEq, Prod.mk.injEq] at h
      obtain ⟨rfl, rfl⟩ := h
      exact ⟨_, rfl, rfl, Reaches.consume _ (by simp)⟩
    | some (s₁, some left) =>
      simp only [hscan, rest_nil, List.append_nil, Option.some.injEq, Prod.mk.injEq] at h
      obtain ⟨rfl, rfl⟩ := h
      exact ⟨_, rfl, by simp [bytes], Reaches.consume _ (by simpa using length_scanBuf hscan)⟩
  | cons fill fills ih =>
    rw [parseWhile_append] at h
    rw [readWhileFrom]
    match hscan : scanBuf f s buf with
    | none => simp [hscan] at h
    | some (s₁, none) =>
      rw [hscan] at h
      obtain ⟨r, hread, hbytes, hreach⟩ := ih h
      exact ⟨r, hread, hbytes, (Reaches.refill _ _ _).trans hreach⟩
    | some (s₁, some left) =>
      simp only [hscan, Option.some.injEq, Prod.mk.injEq] at h
      obtain ⟨rfl, rfl⟩ := h
      exact ⟨_, rfl, rfl, Reaches.consume _ (length_scanBuf hscan)⟩

theorem readWhileFrom_none {σ : Type} {f : σ → B → Verdict σ} {s : σ} {buf : List B}
    {fills : List {fill : List B // fill ≠ []}} (h : parseWhile f s (buf ++ rest fills) = none) :
    readWhileFrom f s buf fills = none := by
  induction fills generalizing s buf with
  | nil =>
    rw [parseWhile_append] at h
    rw [readWhileFrom]
    match hscan : scanBuf f s buf with
    | none => rfl
    | some (s₁, none) => simp [hscan, parseWhile] at h
    | some (s₁, some left) => simp [hscan] at h
  | cons fill fills ih =>
    rw [parseWhile_append] at h
    rw [readWhileFrom]
    match hscan : scanBuf f s buf with
    | none => rfl
    | some (s₁, none) =>
      rw [hscan] at h
      exact ih h
    | some (s₁, some left) => simp [hscan] at h

theorem skipToFrom_eq [DecidableEq B] (b : B) (buf : List B)
    (fills : List {fill : List B // fill ≠ []}) :
    (skipToFrom b buf fills).1 = decide (b ∈ buf ++ rest fills) ∧
      (skipToFrom b buf fills).2.bytes = ((buf ++ rest fills).dropWhile (· ≠ b)).tail ∧
      Reaches ⟨buf, fills⟩ (skipToFrom b buf fills).2 := by
  have hin {xs : List B} (ys : List B) (h : b ∈ xs) :
      ((xs ++ ys).dropWhile (· ≠ b)).tail = (xs.dropWhile (· ≠ b)).tail ++ ys := by
    induction xs with
    | nil => simp at h
    | cons x xs ih =>
      by_cases hx : x = b
      · simp [hx]
      · simpa [hx] using ih (by simpa [Ne.symm hx] using h)
  have hnotin {xs : List B} (ys : List B) (h : b ∉ xs) :
      (xs ++ ys).dropWhile (· ≠ b) = ys.dropWhile (· ≠ b) := by
    induction xs with
    | nil => rfl
    | cons x xs ih =>
      rw [List.mem_cons, not_or] at h
      simpa [Ne.symm h.1] using ih h.2
  have hlen (xs : List B) : ((xs.dropWhile (· ≠ b)).tail).length ≤ xs.length := by
    rw [List.length_tail]
    exact (Nat.sub_le _ _).trans (List.dropWhile_sublist _).length_le
  induction fills generalizing buf with
  | nil =>
    rw [skipToFrom, rest_nil]
    by_cases h : b ∈ buf
    · simp only [if_pos h]
      exact ⟨by simp [h], by simp [bytes], Reaches.consume _ (hlen buf)⟩
    · simp only [if_neg h]
      refine ⟨by simp [h], ?_, Reaches.consume _ (by simp)⟩
      rw [hnotin _ h]
      rfl
  | cons fill fills ih =>
    rw [skipToFrom, rest_cons]
    by_cases h : b ∈ buf
    · simp only [if_pos h]
      exact ⟨by simp [h], by rw [hin _ h]; rfl, Reaches.consume _ (hlen buf)⟩
    · simp only [if_neg h]
      obtain ⟨hfound, hbytes, hreach⟩ := ih fill.val
      refine ⟨by rw [hfound]; simp [h], ?_, (Reaches.refill _ _ _).trans hreach⟩
      rw [hbytes, hnotin _ h]

end BufReader

namespace Scan

variable {B C α β γ : Type}

/-! ## Composition -/

/-- Sequential composition: an error stops the program. -/
protected def bind (f : α → Scan B C β) : Scan B C α → Scan B C β
  | pure a => f a
  | fail => fail
  | panic => panic
  | diverge => diverge
  | first k => first fun b => (k b).bind f
  | readExact n k => readExact n fun bs => (k bs).bind f
  | readWhile g s k => readWhile g s fun s => (k s).bind f
  | skipTo b k => skipTo b fun found => (k found).bind f
  | lookAhead n k => lookAhead n fun bs => (k bs).bind f
  | call c k => call c (k.bind f)

instance : Monad (Scan B C) where
  pure := Scan.pure
  bind P f := P.bind f

/-- `body` again and again, until it returns a value on the right; `fuel` bounds the rounds. -/
def loop {σ : Type} (body : σ → Scan B C (σ ⊕ α)) : ℕ → σ → Scan B C α
  | 0, _ => diverge
  | fuel + 1, s => (body s).bind fun
    | .inl s => loop body fuel s
    | .inr a => pure a

/-- The next item, which stays there; `none` at the end of the stream. -/
def peek : Scan B C (Option B) := .first .pure

/-- The next `n` items; an error if there are fewer. -/
def take (n : ℕ) : Scan B C (List B) := .readExact n .pure

def takeWhile {σ : Type} (f : σ → B → Verdict σ) (s : σ) : Scan B C σ := .readWhile f s .pure

def through (b : B) : Scan B C Bool := .skipTo b .pure

def ahead (n : ℕ) : Scan B C (List B) := .lookAhead n .pure

def report (c : C) : Scan B C Unit := .call c (.pure ())

def ensure (p : Prop) [Decidable p] : Scan B C Unit := if p then .pure () else .fail

section Runs

variable [DecidableEq B] (visit : List C → C → Bool)

/-- The run on a reader. The callee answers by the calls so far; `false` is an error. -/
def run : Scan B C α → List C → BufReader B → Ending α × List C
  | pure a, calls, _ => (.ok a, calls)
  | fail, calls, _ => (.error, calls)
  | panic, calls, _ => (.panic, calls)
  | diverge, calls, _ => (.diverge, calls)
  | first k, calls, r => (k r.fillBuf.buf.head?).run calls r.fillBuf
  | readExact n k, calls, r =>
    match BufReader.readExactFrom n r.buf r.fills with
    | some (bs, r) => (k bs).run calls r
    | none => (.error, calls)
  | readWhile f s k, calls, r =>
    match BufReader.readWhileFrom f s r.buf r.fills with
    | some (s, r) => (k s).run calls r
    | none => (.error, calls)
  | skipTo b k, calls, r =>
    (k (BufReader.skipToFrom b r.buf r.fills).1).run calls
      (BufReader.skipToFrom b r.buf r.fills).2
  | lookAhead n k, calls, r =>
    -- the slice panics where the buffer is shorter
    if n ≤ r.fillBuf.buf.length then (k (r.fillBuf.buf.take n)).run calls r.fillBuf
    else (.panic, calls)
  | call c k, calls, r =>
    if visit calls c then k.run (calls ++ [c]) r else (.error, calls ++ [c])

/-- The run on the stream alone. -/
def parse : Scan B C α → List C → List B → Ending α × List C
  | pure a, calls, _ => (.ok a, calls)
  | fail, calls, _ => (.error, calls)
  | panic, calls, _ => (.panic, calls)
  | diverge, calls, _ => (.diverge, calls)
  | first k, calls, bs => (k bs.head?).parse calls bs
  | readExact n k, calls, bs =>
    if n ≤ bs.length then (k (bs.take n)).parse calls (bs.drop n) else (.error, calls)
  | readWhile f s k, calls, bs =>
    match parseWhile f s bs with
    | some (s, bs) => (k s).parse calls bs
    | none => (.error, calls)
  | skipTo b k, calls, bs => (k (decide (b ∈ bs))).parse calls (bs.dropWhile (· ≠ b)).tail
  | lookAhead n k, calls, bs => (k (bs.take n)).parse calls bs
  | call c k, calls, bs =>
    if visit calls c then k.parse (calls ++ [c]) bs else (.error, calls ++ [c])

/-- On the stream alone the program does not panic, and wherever it looks ahead, `room` holds what
it asks for. -/
def Safe (room : ℕ → ℕ) : Scan B C α → List C → List B → Prop
  | pure _, _, _ => True
  | fail, _, _ => True
  | panic, _, _ => False
  | diverge, _, _ => True
  | first k, calls, bs => (k bs.head?).Safe room calls bs
  | readExact n k, calls, bs => n ≤ bs.length → (k (bs.take n)).Safe room calls (bs.drop n)
  | readWhile f s k, calls, bs =>
    ∀ p, parseWhile f s bs = some p → (k p.1).Safe room calls p.2
  | skipTo b k, calls, bs => (k (decide (b ∈ bs))).Safe room calls (bs.dropWhile (· ≠ b)).tail
  | lookAhead n k, calls, bs => n ≤ room bs.length ∧ (k (bs.take n)).Safe room calls bs
  | call c k, calls, bs => visit calls c = true → k.Safe room (calls ++ [c]) bs

end Runs

/-- From `bs` the program ends, and if with a value, then `post` holds of it and what is left. -/
def Ends [DecidableEq B] (post : α → List B → Prop) : Scan B C α → List B → Prop
  | pure a, bs => post a bs
  | fail, _ => True
  | panic, _ => True
  | diverge, _ => False
  | first k, bs => (k bs.head?).Ends post bs
  | readExact n k, bs => n ≤ bs.length → (k (bs.take n)).Ends post (bs.drop n)
  | readWhile f s k, bs => ∀ p, parseWhile f s bs = some p → (k p.1).Ends post p.2
  | skipTo b k, bs => (k (decide (b ∈ bs))).Ends post (bs.dropWhile (· ≠ b)).tail
  | lookAhead n k, bs => (k (bs.take n)).Ends post bs
  | call _ k, bs => k.Ends post bs

/-! ## Both runs compared -/

section Comparison

variable [DecidableEq B] (visit : List C → C → Bool)

omit [DecidableEq B] in
theorem room_of_reaches {room : ℕ → ℕ} {r r' : BufReader B}
    (hroom : ∀ left ≤ r.bytes.length, room left = BufReader.room r.fills left)
    (h : r.Reaches r') : ∀ left ≤ r'.bytes.length, room left = BufReader.room r'.fills left :=
  fun left hleft => (hroom left (hleft.trans h.length_le)).trans (h.room_eq left hleft)

/-- A safe program runs on a reader as on the stream alone, and does not panic there. -/
theorem run_of_safe {room : ℕ → ℕ} (p : Scan B C α) (calls : List C) (r : BufReader B)
    (hroom : ∀ left ≤ r.bytes.length, room left = BufReader.room r.fills left)
    (h : p.Safe visit room calls r.bytes) :
    p.run visit calls r = p.parse visit calls r.bytes ∧
      (p.parse visit calls r.bytes).1 ≠ .panic := by
  induction p generalizing calls r with
  | pure a => exact ⟨rfl, nofun⟩
  | fail => exact ⟨rfl, nofun⟩
  | panic => exact h.elim
  | diverge => exact ⟨rfl, nofun⟩
  | first k ih =>
    rw [run, parse, BufReader.head?_fillBuf]
    have := ih r.bytes.head? calls r.fillBuf (room_of_reaches hroom r.reaches_fillBuf)
    rw [BufReader.bytes_fillBuf] at this
    exact this h
  | readExact n k ih =>
    rw [run, parse]
    by_cases hn : n ≤ r.bytes.length
    · obtain ⟨r', hread, hbytes, hreach⟩ := BufReader.readExactFrom_some hn
      rw [hread, if_pos hn]
      have := ih (r.bytes.take n) calls r' (room_of_reaches hroom hreach)
      rw [hbytes] at this
      exact this (h hn)
    · rw [BufReader.readExactFrom_none (not_le.1 hn), if_neg hn]
      exact ⟨rfl, nofun⟩
  | readWhile f s k ih =>
    rw [run, parse]
    match hparse : parseWhile f s r.bytes with
    | none =>
      rw [BufReader.readWhileFrom_none hparse]
      exact ⟨rfl, nofun⟩
    | some (s', bs) =>
      obtain ⟨r', hread, hbytes, hreach⟩ := BufReader.readWhileFrom_some hparse
      rw [hread]
      have := ih s' calls r' (room_of_reaches hroom hreach)
      rw [hbytes] at this
      exact this (h _ hparse)
  | skipTo b k ih =>
    obtain ⟨hfound, hbytes, hreach⟩ := BufReader.skipToFrom_eq b r.buf r.fills
    rw [run, parse, hfound]
    have := ih (decide (b ∈ r.bytes)) calls _ (room_of_reaches hroom hreach)
    rw [hbytes] at this
    exact this h
  | lookAhead n k ih =>
    obtain ⟨hn, h⟩ := h
    rw [hroom _ le_rfl, BufReader.room_bytes] at hn
    rw [run, parse, if_pos hn, r.take_fillBuf hn]
    have := ih (r.bytes.take n) calls r.fillBuf (room_of_reaches hroom r.reaches_fillBuf)
    rw [BufReader.bytes_fillBuf] at this
    exact this h
  | call c k ih =>
    rw [run, parse]
    cases hc : visit calls c with
    | false => exact ⟨rfl, nofun⟩
    | true => exact ih _ r hroom (h hc)

theorem run_of_not_safe {room : ℕ → ℕ} (p : Scan B C α) (calls : List C) (r : BufReader B)
    (hroom : ∀ left ≤ r.bytes.length, room left = BufReader.room r.fills left)
    (h : ¬p.Safe visit room calls r.bytes) : (p.run visit calls r).1 = .panic := by
  induction p generalizing calls r with
  | pure a => exact absurd trivial h
  | fail => exact absurd trivial h
  | panic => rfl
  | diverge => exact absurd trivial h
  | first k ih =>
    rw [run, BufReader.head?_fillBuf]
    refine ih _ calls r.fillBuf (room_of_reaches hroom r.reaches_fillBuf) ?_
    rw [BufReader.bytes_fillBuf]
    exact h
  | readExact n k ih =>
    rw [Safe, Classical.not_imp] at h
    obtain ⟨r', hread, hbytes, hreach⟩ := BufReader.readExactFrom_some h.1
    rw [run, hread]
    refine ih _ calls r' (room_of_reaches hroom hreach) ?_
    rw [hbytes]
    exact h.2
  | readWhile f s k ih =>
    rw [Safe, not_forall] at h
    obtain ⟨⟨s', bs⟩, h⟩ := h
    rw [Classical.not_imp] at h
    obtain ⟨r', hread, hbytes, hreach⟩ := BufReader.readWhileFrom_some h.1
    rw [run, hread]
    refine ih s' calls r' (room_of_reaches hroom hreach) ?_
    rw [hbytes]
    exact h.2
  | skipTo b k ih =>
    obtain ⟨hfound, hbytes, hreach⟩ := BufReader.skipToFrom_eq b r.buf r.fills
    rw [run, hfound]
    refine ih _ calls _ (room_of_reaches hroom hreach) ?_
    rw [hbytes]
    exact h
  | lookAhead n k ih =>
    rw [Safe, hroom _ le_rfl, BufReader.room_bytes, not_and] at h
    rw [run]
    by_cases hn : n ≤ r.fillBuf.buf.length
    · rw [if_pos hn, r.take_fillBuf hn]
      refine ih _ calls r.fillBuf (room_of_reaches hroom r.reaches_fillBuf) ?_
      rw [BufReader.bytes_fillBuf]
      exact h hn
    · rw [if_neg hn]
  | call c k ih =>
    rw [Safe, Classical.not_imp] at h
    rw [run, if_pos h.1]
    exact ih _ r hroom h.2

theorem parse_ne_diverge {post : α → List B → Prop} (p : Scan B C α) (calls : List C) (bs : List B)
    (h : p.Ends post bs) : (p.parse visit calls bs).1 ≠ .diverge := by
  induction p generalizing calls bs with
  | pure a => exact nofun
  | fail => exact nofun
  | panic => exact nofun
  | diverge => exact h.elim
  | first k ih => exact ih _ calls bs h
  | readExact n k ih =>
    rw [parse]
    split
    · exact ih _ calls _ (h ‹_›)
    · exact nofun
  | readWhile f s k ih =>
    rw [parse]
    split
    · exact ih _ calls _ (h _ ‹_›)
    · exact nofun
  | skipTo b k ih => exact ih _ calls _ h
  | lookAhead n k ih => exact ih _ calls bs h
  | call c k ih =>
    rw [parse]
    split
    · exact ih _ bs h
    · exact nofun

/-- When a program that ends returns on every reader what it returns on the stream alone. -/
theorem returns_iff {post : α → List B → Prop} (p : Scan B C α)
    (fills : List {fill : List B // fill ≠ []}) (h : p.Ends post (BufReader.rest fills)) :
    ((p.run visit [] (BufReader.new fills)).1.Returns ∧
        p.run visit [] (BufReader.new fills) = p.parse visit [] (BufReader.rest fills)) ↔
      p.Safe visit (BufReader.room fills) [] (BufReader.rest fills) := by
  constructor
  · rintro ⟨hreturns, -⟩
    by_contra hsafe
    rw [run_of_not_safe visit p [] (BufReader.new fills) (fun _ _ => rfl) hsafe] at hreturns
    exact hreturns
  · intro hsafe
    obtain ⟨hrun, hpanic⟩ := run_of_safe visit p [] (BufReader.new fills) (fun _ _ => rfl) hsafe
    refine ⟨?_, hrun⟩
    rw [hrun]
    have hdiverge := parse_ne_diverge visit p [] _ h
    match hend : (p.parse visit [] (BufReader.new fills).bytes).1 with
    | .ok a => trivial
    | .error => trivial
    | .panic => exact absurd hend hpanic
    | .diverge => exact absurd hend hdiverge

end Comparison

/-! ## Programs that end -/

section Ends

variable [DecidableEq B]

theorem Ends.mono {post post' : α → List B → Prop} {p : Scan B C α} {bs : List B}
    (h : p.Ends post bs) (hpost : ∀ a bs, post a bs → post' a bs) : p.Ends post' bs := by
  induction p generalizing bs with
  | pure a => exact hpost a bs h
  | fail => trivial
  | panic => trivial
  | diverge => exact h
  | first k ih => exact ih _ h
  | readExact n k ih => exact fun hn => ih _ (h hn)
  | readWhile f s k ih => exact fun p hp => ih _ (h p hp)
  | skipTo b k ih => exact ih _ h
  | lookAhead n k ih => exact ih _ h
  | call c k ih => exact ih h

theorem ends_bind {f : α → Scan B C β} {post : β → List B → Prop} {p : Scan B C α} {bs : List B} :
    (p.bind f).Ends post bs ↔ p.Ends (fun a bs => (f a).Ends post bs) bs := by
  induction p generalizing bs with
  | pure a => rfl
  | fail => rfl
  | panic => rfl
  | diverge => rfl
  | first k ih => exact ih _
  | readExact n k ih => exact forall_congr' fun _ => ih _
  | readWhile f s k ih => exact forall_congr' fun p => forall_congr' fun _ => ih _
  | skipTo b k ih => exact ih _
  | lookAhead n k ih => exact ih _
  | call c k ih => exact ih

omit [DecidableEq B] in
theorem length_parseWhile {σ : Type} {f : σ → B → Verdict σ} {s : σ} {bs : List B}
    {p : σ × List B} (h : parseWhile f s bs = some p) : p.2.length ≤ bs.length := by
  induction bs generalizing s with
  | nil =>
    rw [parseWhile, Option.some.injEq] at h
    rw [← h]
  | cons b bs ih =>
    rw [parseWhile] at h
    cases hf : f s b with
    | keep s' =>
      rw [hf] at h
      exact (ih h).trans (Nat.le_succ _)
    | stop =>
      simp only [hf, Option.some.injEq] at h
      rw [← h]
    | fail => simp [hf] at h

/-- From any `n` items at most, the program ends, and has then read at least `least` of them, by
what it returns. -/
def Reads (n : ℕ) (p : Scan B C α) (least : α → ℕ) : Prop :=
  ∀ bs, bs.length ≤ n → p.Ends (fun a left => left.length + least a ≤ bs.length) bs

theorem Reads.bind {n : ℕ} {p : Scan B C α} {f : α → Scan B C β} {l : α → ℕ} {m : β → ℕ}
    (h : Reads n p l) (hf : ∀ a, Reads n (f a) fun b => m b - l a) : Reads n (p >>= f) m := by
  intro bs hbs
  refine ends_bind.2 ((h bs hbs).mono fun a left hleft => ?_)
  refine (hf a left (by omega)).mono fun b left' hleft' => ?_
  have : left'.length + (m b - l a) ≤ left.length := hleft'
  omega

theorem Reads.map {n : ℕ} {p : Scan B C α} (g : α → β) {l : α → ℕ} {m : β → ℕ} (h : Reads n p l)
    (hm : ∀ a, m (g a) ≤ l a) : Reads n (g <$> p) m :=
  h.bind fun a _ _ => show _ + (m (g a) - l a) ≤ _ by rw [Nat.sub_eq_zero_of_le (hm a)]; rfl

theorem Reads.mono {n : ℕ} {p : Scan B C α} {l m : α → ℕ} (h : Reads n p l) (hlm : ∀ a, m a ≤ l a) :
    Reads n p m := fun bs hbs =>
  (h bs hbs).mono fun a _ hleft => (Nat.add_le_add_left (hlm a) _).trans hleft

theorem reads_pure (n : ℕ) (a : α) : Reads n (Pure.pure a : Scan B C α) fun _ => 0 :=
  fun _ _ => le_rfl

theorem reads_fail (n : ℕ) (l : α → ℕ) : Reads n (.fail : Scan B C α) l :=
  fun _ _ => trivial

theorem reads_panic (n : ℕ) (l : α → ℕ) : Reads n (.panic : Scan B C α) l :=
  fun _ _ => trivial

theorem reads_peek (n : ℕ) : Reads n (peek : Scan B C (Option B)) fun _ => 0 :=
  fun _ _ => le_rfl

theorem reads_take (n m : ℕ) : Reads n (take m : Scan B C (List B)) fun _ => m := by
  intro bs _ hm
  show (bs.drop m).length + m ≤ bs.length
  rw [List.length_drop]
  omega

theorem reads_takeWhile (n : ℕ) {σ : Type} (f : σ → B → Verdict σ) (s : σ) :
    Reads n (takeWhile f s : Scan B C σ) fun _ => 0 :=
  fun _ _ _ hp => length_parseWhile hp

theorem reads_ahead (n m : ℕ) : Reads n (ahead m : Scan B C (List B)) fun _ => 0 :=
  fun _ _ => le_rfl

theorem reads_report (n : ℕ) (c : C) : Reads n (report c : Scan B C Unit) fun _ => 0 :=
  fun _ _ => le_rfl

theorem reads_ensure (n : ℕ) (p : Prop) [Decidable p] :
    Reads n (ensure p : Scan B C Unit) fun _ => 0 := by
  rw [ensure]
  split
  · exact reads_pure n ()
  · exact reads_fail n _

theorem reads_through (n : ℕ) (b : B) : Reads n (through b : Scan B C Bool) fun _ => 0 := by
  intro bs _
  show ((bs.dropWhile (· ≠ b)).tail).length + 0 ≤ bs.length
  rw [List.length_tail]
  exact (Nat.sub_le _ _).trans (List.dropWhile_sublist _).length_le

theorem Reads.loop {σ : Type} {n fuel : ℕ} (hn : n < fuel) {body : σ → Scan B C (σ ⊕ α)}
    (h : ∀ s, Reads n (body s) (Sum.elim (fun _ => 1) fun _ => 0)) (s : σ) :
    Reads n (Scan.loop body fuel s) fun _ => 0 := by
  -- the induction is on the fuel, which stays above what is left
  have hfuel (fuel : ℕ) : ∀ s bs, bs.length ≤ n → bs.length < fuel →
      (Scan.loop body fuel s).Ends (fun _ left => left.length + 0 ≤ bs.length) bs := by
    induction fuel with
    | zero => exact fun s bs _ hlt => absurd hlt (Nat.not_lt_zero _)
    | succ fuel ih =>
      intro s bs hbs hlt
      refine ends_bind.2 ((h s bs hbs).mono fun a left hleft => ?_)
      cases a with
      | inl s' =>
        rw [Sum.elim_inl] at hleft
        exact (ih s' left (by omega) (by omega)).mono fun _ _ h => by omega
      | inr a => exact hleft
  exact fun bs hbs => hfuel fuel s bs hbs (by omega)

/-! ### Found by instances -/

/-- The program ends from any `n` items at most. -/
class Total (n : ℕ) (p : Scan B C α) : Prop where
  reads : Reads n p fun _ => 0

/-- The program ends from any `n` items at most, and reads one of them. -/
class Eats (n : ℕ) (p : Scan B C α) : Prop where
  reads : Reads n p fun _ => 1

/-- The round of a loop ends, and reads an item if there is another round. -/
class Advances {σ : Type} (n : ℕ) (p : Scan B C (σ ⊕ α)) : Prop where
  reads : Reads n p (Sum.elim (fun _ => 1) fun _ => 0)

variable {n : ℕ}

instance (priority := low) {p : Scan B C α} [Eats n p] : Total n p :=
  ⟨Eats.reads.mono fun _ => Nat.zero_le 1⟩

instance (priority := low) {σ : Type} {p : Scan B C (σ ⊕ α)} [Eats n p] : Advances n p :=
  ⟨Eats.reads.mono fun a => by cases a <;> simp⟩

instance (a : α) : Total n (Pure.pure a : Scan B C α) := ⟨reads_pure n a⟩
instance : Total n (.fail : Scan B C α) := ⟨reads_fail n _⟩
instance : Eats n (.fail : Scan B C α) := ⟨reads_fail n _⟩
instance : Total n (.panic : Scan B C α) := ⟨reads_panic n _⟩
instance : Total n (peek : Scan B C (Option B)) := ⟨reads_peek n⟩
instance (m : ℕ) : Eats n (take (m + 1) : Scan B C (List B)) :=
  ⟨(reads_take n (m + 1)).mono fun _ => Nat.le_add_left 1 m⟩
instance {σ : Type} (f : σ → B → Verdict σ) (s : σ) : Total n (takeWhile f s : Scan B C σ) :=
  ⟨reads_takeWhile n f s⟩
instance (b : B) : Total n (through b : Scan B C Bool) := ⟨reads_through n b⟩
instance (m : ℕ) : Total n (ahead m : Scan B C (List B)) := ⟨reads_ahead n m⟩
instance (c : C) : Total n (report c : Scan B C Unit) := ⟨reads_report n c⟩
instance (p : Prop) [Decidable p] : Total n (ensure p : Scan B C Unit) := ⟨reads_ensure n p⟩

instance {σ : Type} (a : α) : Advances n (Pure.pure (.inr a) : Scan B C (σ ⊕ α)) :=
  ⟨fun _ _ => le_rfl⟩

section Composition

variable {p : Scan B C α} {f : α → Scan B C β} {c : Prop} [Decidable c] {q : Scan B C α}

instance [Total n p] [∀ a, Total n (f a)] : Total n (p >>= f) :=
  ⟨Total.reads.bind fun _ => Total.reads⟩

instance [Eats n p] [∀ a, Total n (f a)] : Eats n (p >>= f) :=
  ⟨Eats.reads.bind fun _ => Total.reads⟩

instance (priority := low) [Total n p] [∀ a, Eats n (f a)] : Eats n (p >>= f) :=
  ⟨Total.reads.bind fun _ => Eats.reads⟩

instance {σ : Type} {f : α → Scan B C (σ ⊕ β)} [Total n p] [∀ a, Advances n (f a)] :
    Advances n (p >>= f) :=
  ⟨Total.reads.bind fun _ => Advances.reads⟩

instance [Total n p] (g : α → β) : Total n (g <$> p) :=
  ⟨Total.reads.map g fun _ => le_rfl⟩

instance [Eats n p] (g : α → β) : Eats n (g <$> p) :=
  ⟨Eats.reads.map g fun _ => le_rfl⟩

instance [Total n p] [Total n q] : Total n (if c then p else q) := by
  split <;> infer_instance

instance [Eats n p] [Eats n q] : Eats n (if c then p else q) := by
  split <;> infer_instance

instance {σ : Type} {p q : Scan B C (σ ⊕ α)} [Advances n p] [Advances n q] :
    Advances n (if c then p else q) := by
  split <;> infer_instance

end Composition

instance {σ : Type} {fuel : ℕ} [hn : Fact (n < fuel)] {body : σ → Scan B C (σ ⊕ α)}
    [∀ s, Advances n (body s)] (s : σ) : Total n (Scan.loop body fuel s) :=
  ⟨Reads.loop hn.out (fun _ => Advances.reads) s⟩

end Ends

end Scan

end Interaction
