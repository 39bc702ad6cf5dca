import Mathlib

/-!
# Results of computations that may fail

A computation that may fail returns a value with a property, or fails with an error that is allowed.
A traversal whose steps return values without an effect is a map.
-/

namespace Except

variable {ε α β : Type} {allowed : ε → Prop}

inductive Returns (allowed : ε → Prop) : Except ε α → (α → Prop) → Prop
  | ok {a : α} {q : α → Prop} (h : q a) : Returns allowed (.ok a) q
  | error {e : ε} {q : α → Prop} (h : allowed e) : Returns allowed (.error e) q

theorem Returns.of_eq {x : Except ε α} {q : α → Prop} {a : α} (hx : x = .ok a) (h : q a) :
    Returns allowed x q := by
  rw [hx]
  exact .ok h

theorem Returns.bind {x : Except ε α} {f : α → Except ε β} {q : α → Prop} {r : β → Prop}
    (hx : Returns allowed x q) (hf : ∀ a, q a → Returns allowed (f a) r) :
    Returns allowed (x >>= f) r := by
  cases hx with
  | ok h => exact hf _ h
  | error h => exact .error h

theorem Returns.step {x : Except ε α} {f : α → Except ε β} {a : α} {r : β → Prop}
    (hx : x = .ok a) (hf : Returns allowed (f a) r) : Returns allowed (x >>= f) r := by
  rw [hx]
  exact hf

theorem Returns.mono {x : Except ε α} {q r : α → Prop} (hx : Returns allowed x q)
    (h : ∀ a, q a → r a) : Returns allowed x r := by
  cases hx with
  | ok hq => exact .ok (h _ hq)
  | error he => exact .error he

theorem Returns.of_ok {x : Except ε α} {q : α → Prop} {a : α} (h : Returns allowed x q)
    (hx : x = .ok a) : q a := by
  subst hx
  cases h with
  | ok h => exact h

end Except

namespace Traversal

variable {α β : Type}

theorem mapM_pure {m : Type → Type} [Monad m] [LawfulMonad m] {f : α → m β} {r : α → β} (l : List α)
    (h : ∀ a ∈ l, f a = pure (r a)) : l.mapM f = pure (l.map r) := by
  induction l with
  | nil => rw [List.mapM_nil, List.map_nil]
  | cons a l ih =>
    rw [List.mapM_cons, h a List.mem_cons_self, pure_bind,
      ih fun b hb => h b (List.mem_cons_of_mem _ hb), pure_bind, List.map_cons]

theorem foldlM_range {σ : Type} {m : Type → Type} [Monad m] [LawfulMonad m] {f : σ → ℕ → m σ}
    (state : ℕ → σ) {n : ℕ} (h : ∀ i < n, f (state i) i = pure (state (i + 1))) :
    (List.range n).foldlM f (state 0) = pure (state n) := by
  induction n with
  | zero => rfl
  | succ n ih =>
    rw [List.range_succ, List.foldlM_append, ih fun i hi => h i (by omega), pure_bind,
      List.foldlM_cons, h n (by omega), pure_bind, List.foldlM_nil]

theorem foldlM_range_error {σ ε : Type} {f : σ → ℕ → Except ε σ} (state : ℕ → σ) {n k : ℕ} {e : ε}
    (hk : k < n) (h : ∀ i < k, f (state i) i = .ok (state (i + 1)))
    (hfail : f (state k) k = .error e) : (List.range n).foldlM f (state 0) = .error e := by
  obtain ⟨d, rfl⟩ := Nat.exists_eq_add_of_lt hk
  rw [Nat.add_assoc, Nat.add_comm d 1, ← Nat.add_assoc, List.range_add, List.range_succ,
    List.foldlM_append, List.foldlM_append, foldlM_range state h]
  change ((List.foldlM f (state k) [k]) >>= _) = _
  rw [List.foldlM_cons, hfail]
  rfl

theorem mapM_some {f : α → Option β} {r : α → β} (l : List α) (h : ∀ a ∈ l, f a = some (r a)) :
    l.mapM f = some (l.map r) :=
  mapM_pure l h

end Traversal
/-!
## Refinement

A component that may fail does what a specification says as long as its states are related to those
of the specification and each call is one that keeps them related.
-/

namespace Refinement

variable {S T C O : Type}

/-- What a component returns to each call, unless it fails at one. -/
def outcomes (call : S → C → Option (O × S)) : S → List C → Option (List O)
  | _, [] => some []
  | s, c :: cs => (call s c).bind fun r => (outcomes call r.2 cs).map (r.1 :: ·)

/-- What the specification returns to each call. -/
def results (call : T → C → O × T) : T → List C → List O
  | _, [] => []
  | t, c :: cs => (call t c).1 :: results call (call t c).2 cs

/-- Each call meets a condition in the state that it finds. -/
def Allowed (call : T → C → O × T) (ok : T → C → Prop) : T → List C → Prop
  | _, [] => True
  | t, c :: cs => ok t c ∧ Allowed call ok (call t c).2 cs

theorem outcomes_eq {call : S → C → Option (O × S)} {spec : T → C → O × T} {related : S → T → Prop}
    {ok : T → C → Prop}
    (hcall : ∀ s t c, related s t → ok t c →
      ∃ s', call s c = some ((spec t c).1, s') ∧ related s' (spec t c).2)
    {s : S} {t : T} (hst : related s t) (cs : List C) (hok : Allowed spec ok t cs) :
    outcomes call s cs = some (results spec t cs) := by
  induction cs generalizing s t with
  | nil => rfl
  | cons c cs ih =>
    obtain ⟨s', hs', hrelated⟩ := hcall s t c hst hok.1
    rw [outcomes, hs', Option.bind_some, ih hrelated hok.2]
    rfl

end Refinement
