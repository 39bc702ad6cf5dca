import Mathlib

/-!
# Patterns of text

Regular expressions that are a sequence of parts, with the captures of the leftmost match. A
repetition takes as much as it can and gives back while the rest does not match.
-/

namespace Patterns

/-- A part of a pattern: a text, a repetition of a class of characters without or with a group
around it, or a group of alternatives. -/
inductive Part
  | text (w : List Char)
  | many (cls : Char → Bool)
  | group (cls : Char → Bool)
  | oneOf (ws : List (List Char))

variable {β : Type}

/-- The first result of `f` at `n`, `n - 1`, …, `1`. -/
def greedy (f : ℕ → Option β) : ℕ → Option β
  | 0 => none
  | n + 1 => (f (n + 1)).or (greedy f n)

/-- The groups of the match at the start of a text. -/
def matchAt : List Part → List Char → Option (List (List Char))
  | [], _ => some []
  | .text w :: p, s => if w <+: s then matchAt p (s.drop w.length) else none
  | .many cls :: p, s =>
    greedy (fun n => matchAt p (s.drop n)) (s.takeWhile cls).length
  | .group cls :: p, s =>
    greedy (fun n => (matchAt p (s.drop n)).map (s.take n :: ·)) (s.takeWhile cls).length
  | .oneOf ws :: p, s =>
    ws.findSome? fun w =>
      if w <+: s then (matchAt p (s.drop w.length)).map (w :: ·) else none

/-- The groups of the leftmost match in a text. -/
def captures (p : List Part) : List Char → Option (List (List Char))
  | [] => matchAt p []
  | c :: s => (matchAt p (c :: s)).or (captures p s)

section Matches

variable {p : List Part} {s w : List Char} {cs : List (List Char)} {cls : Char → Bool}

theorem captures_of_matchAt (h : matchAt p s = some cs) : captures p s = some cs := by
  cases s with
  | nil => exact h
  | cons c s => rw [captures, h, Option.some_or]

theorem greedy_of_eq {f : ℕ → Option β} {n : ℕ} {b : β} (hn : 0 < n) (h : f n = some b) :
    greedy f n = some b := by
  cases n with
  | zero => omega
  | succ n => rw [greedy, h, Option.some_or]

/-- The longest run of a class is a word that it covers, up to a character that it does not. -/
theorem takeWhile_append (hw : ∀ c ∈ w, cls c = true) (hs : ∀ c ∈ s.head?, cls c = false) :
    (w ++ s).takeWhile cls = w := by
  rw [List.takeWhile_append_of_pos hw]
  cases s with
  | nil => simp
  | cons c s => rw [List.takeWhile_cons, hs c rfl]; simp

theorem matchAt_text (h : matchAt p s = some cs) : matchAt (.text w :: p) (w ++ s) = some cs := by
  rw [matchAt, if_pos (List.prefix_append w s), List.drop_left, h]

theorem matchAt_many (hw : ∀ c ∈ w, cls c = true) (hne : w ≠ [])
    (hs : ∀ c ∈ s.head?, cls c = false) (h : matchAt p s = some cs) :
    matchAt (.many cls :: p) (w ++ s) = some cs := by
  rw [matchAt, takeWhile_append hw hs]
  refine greedy_of_eq (List.length_pos_of_ne_nil hne) ?_
  rw [List.drop_left, h]

theorem matchAt_group (hw : ∀ c ∈ w, cls c = true) (hne : w ≠ [])
    (hs : ∀ c ∈ s.head?, cls c = false) (h : matchAt p s = some cs) :
    matchAt (.group cls :: p) (w ++ s) = some (w :: cs) := by
  rw [matchAt, takeWhile_append hw hs]
  refine greedy_of_eq (List.length_pos_of_ne_nil hne) ?_
  rw [List.drop_left, List.take_left, h]
  rfl

/-- A match that begins with a group of a class is not before the first character of the class. -/
theorem captures_group_skip (hw : ∀ c ∈ w, cls c = false)
    (h : captures (.group cls :: p) s = some cs) :
    captures (.group cls :: p) (w ++ s) = some cs := by
  induction w with
  | nil => exact h
  | cons c w ih =>
    have hnone : matchAt (.group cls :: p) (c :: (w ++ s)) = none := by
      rw [matchAt, List.takeWhile_cons_of_neg (by simp [hw c List.mem_cons_self])]
      rfl
    rw [List.cons_append, captures, hnone, Option.none_or]
    exact ih fun d hd => hw d (List.mem_cons_of_mem _ hd)

theorem matchAt_oneOf (before : List (List Char)) {after : List (List Char)}
    (hbefore : ∀ v ∈ before, ¬ v <+: w ++ s) (h : matchAt p s = some cs) :
    matchAt (.oneOf (before ++ w :: after) :: p) (w ++ s) = some (w :: cs) := by
  rw [matchAt, List.findSome?_append, List.findSome?_eq_none_iff.2, Option.none_or,
    List.findSome?_cons, if_pos (List.prefix_append w s), List.drop_left, h]
  · rfl
  · intro v hv
    rw [if_neg (hbefore v hv)]

end Matches

end Patterns
