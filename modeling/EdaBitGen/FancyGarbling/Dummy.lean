import EdaBitGen.Data.Returns
import EdaBitGen.FancyGarbling.Fancy

/-!
# The dummy evaluator

Fancy computations on plain values: what the gadgets are tested with.
-/

namespace EdaBitGen.FancyGarbling

/-- How a computation of the dummy ends without a result. -/
inductive Failure
  | fancy (e : FancyError)
  | encodingError
  | notEnoughGarblerInputs
  | notEnoughEvaluatorInputs
  | panic
  deriving DecidableEq

abbrev Dummy := Except Failure

structure DummyVal where
  val : ℕ
  modulus : ℕ
  deriving DecidableEq

instance : Fancy Dummy DummyVal where
  modulus := DummyVal.modulus
  constant val modulus := .ok ⟨val, modulus⟩
  output x := .ok (some x.val)
  fail e := .error (.fancy e)
  panic := .error .panic

namespace Dummy

def encode (value modulus : ℕ) : Dummy DummyVal := .ok ⟨value, modulus⟩

def encodeMany (xs moduli : List ℕ) : Dummy (List DummyVal) :=
  if xs.length ≠ moduli.length then .error .encodingError
  else .ok ((xs.zip moduli).map fun p => ⟨p.1, p.2⟩)

def add (x y : DummyVal) : Dummy DummyVal :=
  if x.modulus ≠ y.modulus then .error (.fancy .unequalModuli)
  else do
    let sum ← word (x.val + y.val)
    let val ← remainder sum x.modulus
    return ⟨val, x.modulus⟩

def sub (x y : DummyVal) : Dummy DummyVal :=
  if x.modulus ≠ y.modulus then .error (.fancy .unequalModuli)
  else do
    let sum ← word (x.modulus + x.val)
    if sum < y.val then panic
    else do
      let val ← remainder (sum - y.val) x.modulus
      return ⟨val, x.modulus⟩

def cmul (x : DummyVal) (c : ℕ) : Dummy DummyVal := do
  let product ← word (x.val * c)
  let val ← remainder product x.modulus
  return ⟨val, x.modulus⟩

def mul (x y : DummyVal) : Dummy DummyVal := do
  let product ← word (x.val * y.val)
  let val ← remainder product x.modulus
  return ⟨val, x.modulus⟩

def proj (x : DummyVal) (modulus : ℕ) : Option (List ℕ) → Dummy DummyVal
  | none => .error (.fancy .noTruthTable)
  | some tt =>
    if tt.length < x.modulus ∨ ¬ ∀ v ∈ tt, v < modulus then .error (.fancy .invalidTruthTable)
    else do
      let val ← index tt x.val
      return ⟨val, modulus⟩

end Dummy

instance : FancyArithmetic Dummy DummyVal where
  add := Dummy.add
  sub := Dummy.sub
  cmul := Dummy.cmul
  mul := Dummy.mul
  proj := Dummy.proj

instance : FancyBinary Dummy DummyVal := deriveBinary

/-! ## What the operations return -/

section Operations

@[simp] theorem modulus_mk (v q : ℕ) : modulus (DummyVal.mk v q) = q := rfl

@[simp] theorem constant_eq (v q : ℕ) : (constant v q : Dummy DummyVal) = .ok ⟨v, q⟩ := rfl

@[simp] theorem output_eq (x : DummyVal) : (output x : Dummy (Option ℕ)) = .ok (some x.val) := rfl

@[simp] theorem ok_bind {ε α β : Type} (a : α) (f : α → Except ε β) :
    ((Except.ok a : Except ε α) >>= f) = f a := rfl

theorem word_eq {n : ℕ} (h : n < 2 ^ 16) : (word n : Dummy ℕ) = .ok n := if_pos h

theorem remainder_eq (a : ℕ) {b : ℕ} (h : 0 < b) : (remainder a b : Dummy ℕ) = .ok (a % b) :=
  if_neg h.ne'

theorem index_eq {α : Type} {l : List α} {i : ℕ} {a : α} (h : l[i]? = some a) :
    (index l i : Dummy α) = .ok a := by
  rw [index, h]
  rfl

theorem mapM_eq {α β : Type} {f : α → Dummy β} {r : α → β} (l : List α)
    (h : ∀ a ∈ l, f a = .ok (r a)) : l.mapM f = .ok (l.map r) :=
  Traversal.mapM_pure l h

theorem mapM_ok {α β γ : Type} {f : β → Dummy γ} {g : α → β} {r : α → γ} (l : List α)
    (h : ∀ a ∈ l, f (g a) = .ok (r a)) : (l.map g).mapM f = .ok (l.map r) := by
  rw [List.mapM_map]
  exact mapM_eq l h

/-! ### Arithmetic -/

theorem add_eq {a b q : ℕ} (hq : 0 < q) (h : a + b < 2 ^ 16) :
    (add ⟨a, q⟩ ⟨b, q⟩ : Dummy DummyVal) = .ok ⟨(a + b) % q, q⟩ := by
  change Dummy.add _ _ = _
  rw [Dummy.add, if_neg (not_not.2 rfl), word_eq h, ok_bind, remainder_eq _ hq]
  rfl

theorem sub_eq {a b q : ℕ} (hq : 0 < q) (h : q + a < 2 ^ 16) (hb : b ≤ q + a) :
    (sub ⟨a, q⟩ ⟨b, q⟩ : Dummy DummyVal) = .ok ⟨(q + a - b) % q, q⟩ := by
  change Dummy.sub _ _ = _
  rw [Dummy.sub, if_neg (not_not.2 rfl), word_eq h, ok_bind, if_neg (Nat.not_lt.2 hb), remainder_eq _ hq]
  rfl

theorem mul_eq {a b q p : ℕ} (hq : 0 < q) (h : a * b < 2 ^ 16) :
    (mul ⟨a, q⟩ ⟨b, p⟩ : Dummy DummyVal) = .ok ⟨a * b % q, q⟩ := by
  change Dummy.mul _ _ = _
  rw [Dummy.mul, word_eq h, ok_bind, remainder_eq _ hq]
  rfl

theorem cmul_eq {a c q : ℕ} (hq : 0 < q) (h : a * c < 2 ^ 16) :
    (cmul ⟨a, q⟩ c : Dummy DummyVal) = .ok ⟨a * c % q, q⟩ := by
  change Dummy.cmul _ _ = _
  rw [Dummy.cmul, word_eq h, ok_bind, remainder_eq _ hq]
  rfl

theorem proj_eq {v q p r : ℕ} {tt : List ℕ} (hlength : q ≤ tt.length) (htt : ∀ e ∈ tt, e < p)
    (hv : tt[v]? = some r) : (proj ⟨v, q⟩ p (some tt) : Dummy DummyVal) = .ok ⟨r, p⟩ := by
  change Dummy.proj _ _ _ = _
  rw [Dummy.proj, if_neg (by simpa [hlength] using htt), index_eq hv]
  rfl

theorem word_panic {n : ℕ} (h : ¬ n < 2 ^ 16) : (word n : Dummy ℕ) = .error .panic := if_neg h

theorem add_panic {a b q : ℕ} (h : ¬ a + b < 2 ^ 16) :
    (add ⟨a, q⟩ ⟨b, q⟩ : Dummy DummyVal) = .error .panic := by
  change Dummy.add _ _ = _
  rw [Dummy.add, if_neg (not_not.2 rfl), word_panic h]
  rfl

theorem sub_panic {a b q : ℕ} (h : ¬ (q + a < 2 ^ 16 ∧ b ≤ q + a)) :
    (sub ⟨a, q⟩ ⟨b, q⟩ : Dummy DummyVal) = .error .panic := by
  change Dummy.sub _ _ = _
  rw [Dummy.sub, if_neg (not_not.2 rfl)]
  by_cases hsum : q + a < 2 ^ 16
  · have hlt : q + a < b := by
      by_contra hle
      exact h ⟨hsum, Nat.not_lt.1 hle⟩
    rw [word_eq hsum, ok_bind, if_pos hlt]
    rfl
  · rw [word_panic hsum]
    rfl

theorem mul_panic {a b q p : ℕ} (h : ¬ a * b < 2 ^ 16) :
    (mul ⟨a, q⟩ ⟨b, p⟩ : Dummy DummyVal) = .error .panic := by
  change Dummy.mul _ _ = _
  rw [Dummy.mul, word_panic h]
  rfl

theorem cmul_panic {a c q : ℕ} (h : ¬ a * c < 2 ^ 16) :
    (cmul ⟨a, q⟩ c : Dummy DummyVal) = .error .panic := by
  change Dummy.cmul _ _ = _
  rw [Dummy.cmul, word_panic h]
  rfl

theorem proj_panic {v q p : ℕ} {tt : List ℕ} (hlength : q ≤ tt.length) (htt : ∀ e ∈ tt, e < p)
    (hv : tt[v]? = none) : (proj ⟨v, q⟩ p (some tt) : Dummy DummyVal) = .error .panic := by
  change Dummy.proj _ _ _ = _
  rw [Dummy.proj, if_neg (by simpa [hlength] using htt), index, hv]
  rfl

theorem proj_range {v q p k : ℕ} {f : ℕ → ℕ} (hk : q ≤ k) (hv : v < k) (hf : ∀ e < k, f e < p) :
    (proj ⟨v, q⟩ p (some ((List.range k).map f)) : Dummy DummyVal) = .ok ⟨f v, p⟩ := by
  refine proj_eq (by simpa using hk) ?_ (by simp [hv])
  intro e he
  obtain ⟨i, hi, rfl⟩ := List.mem_map.1 he
  exact hf i (List.mem_range.1 hi)

theorem mapM_remainder (f : ℕ → ℕ) (k : ℕ) {p : ℕ} (hp : 0 < p) :
    ((List.range k).mapM fun v => (remainder (f v) p : Dummy ℕ)) =
      .ok ((List.range k).map fun v => f v % p) :=
  mapM_eq _ fun v _ => remainder_eq (f v) hp

theorem modChange_eq {v q p : ℕ} (hv : v < q) (hp : 0 < p) :
    (modChange ⟨v, q⟩ p : Dummy DummyVal) = .ok ⟨v % p, p⟩ := by
  rw [modChange, modulus_mk]
  split
  · next h =>
    subst h
    rw [Nat.mod_eq_of_lt hv]
    rfl
  · rw [mapM_remainder (fun v => v) q hp, ok_bind]
    exact proj_range le_rfl hv fun e _ => Nat.mod_lt e hp

theorem foldlM_add {a q : ℕ} (vs : List ℕ) (ha : a < q) (h : a + vs.sum < 2 ^ 16) :
    (vs.map fun v => DummyVal.mk v q).foldlM add ⟨a, q⟩ =
      (.ok ⟨(a + vs.sum) % q, q⟩ : Dummy DummyVal) := by
  induction vs generalizing a with
  | nil =>
    rw [List.sum_nil, Nat.add_zero, Nat.mod_eq_of_lt ha]
    rfl
  | cons v vs ih =>
    rw [List.sum_cons] at h ⊢
    have hle : (a + v) % q ≤ a + v := Nat.mod_le _ _
    rw [List.map_cons, List.foldlM_cons, add_eq (by omega) (by omega), ok_bind,
      ih (Nat.mod_lt _ (by omega)) (by omega), Nat.mod_add_mod, Nat.add_assoc]

theorem addMany_eq {q : ℕ} {vs : List ℕ} (htwo : 2 ≤ vs.length) (hvs : ∀ v ∈ vs, v < q)
    (h : vs.sum < 2 ^ 16) :
    (addMany (vs.map fun v => DummyVal.mk v q) : Dummy DummyVal) = .ok ⟨vs.sum % q, q⟩ := by
  obtain ⟨v, ws, rfl⟩ := List.exists_cons_of_length_pos (by omega : 0 < vs.length)
  have hlength : ¬ (DummyVal.mk v q :: ws.map fun v => DummyVal.mk v q).length < 2 := by
    rw [List.length_cons] at htwo
    rw [List.length_cons, List.length_map]
    omega
  rw [List.map_cons, addMany, foldArgs, if_neg hlength, foldlM_add ws (hvs v List.mem_cons_self)
    (by simpa using h), List.sum_cons]

theorem negate_truth (p : Prop) [Decidable p] :
    (negate ⟨if p then 1 else 0, 2⟩ : Dummy DummyVal) = .ok ⟨if p then 0 else 1, 2⟩ := by
  split <;> rfl

theorem and_truth (p r : Prop) [Decidable p] [Decidable r] :
    (and ⟨if p then 1 else 0, 2⟩ ⟨if r then 1 else 0, 2⟩ : Dummy DummyVal) =
      .ok ⟨if p ∧ r then 1 else 0, 2⟩ := by
  by_cases hp : p <;> by_cases hr : r <;> simp [hp, hr] <;> rfl

/-! ### Runs that succeed -/

theorem exists_of_bind {ε α β : Type} {x : Except ε α} {f : α → Except ε β} {b : β}
    (h : x >>= f = .ok b) : ∃ a, x = .ok a ∧ f a = .ok b := by
  cases x with
  | error e => cases h
  | ok a => exact ⟨a, rfl, h⟩

theorem word_ok {n k : ℕ} (h : (word n : Dummy ℕ) = .ok k) : n < 2 ^ 16 ∧ k = n := by
  unfold word at h
  split at h
  · next hlt => exact ⟨hlt, (Except.ok.inj h).symm⟩
  · cases h

theorem addMany_ok {xs : List DummyVal} {z : DummyVal} (h : addMany xs = (.ok z : Dummy _)) :
    2 ≤ xs.length := by
  cases xs with
  | nil => cases h
  | cons x xs =>
    rw [addMany, foldArgs] at h
    split at h
    · cases h
    · omega

theorem length_of_mapM {α β : Type} {f : α → Dummy β} {l : List α} {r : List β}
    (h : l.mapM f = .ok r) : r.length = l.length := by
  induction l generalizing r with
  | nil =>
    cases h
    rfl
  | cons a l ih =>
    rw [List.mapM_cons] at h
    obtain ⟨b, -, h⟩ := exists_of_bind h
    obtain ⟨bs, hbs, h⟩ := exists_of_bind h
    cases h
    rw [List.length_cons, List.length_cons, ih hbs]

theorem foldlM_range {σ : Type} {f : σ → ℕ → Dummy σ} (state : ℕ → σ) {n : ℕ}
    (h : ∀ i < n, f (state i) i = .ok (state (i + 1))) :
    (List.range n).foldlM f (state 0) = .ok (state n) :=
  Traversal.foldlM_range state h

theorem foldlM_range_ok {σ : Type} {f : σ → ℕ → Dummy σ} {p : ℕ → σ → Prop} {r : ℕ → Prop} {n : ℕ}
    {s s' : σ} (hstep : ∀ i < n, ∀ t t', p i t → f t i = .ok t' → r i ∧ p (i + 1) t') (hs : p 0 s)
    (h : (List.range n).foldlM f s = .ok s') : (∀ i < n, r i) ∧ p n s' := by
  induction n generalizing s' with
  | zero =>
    cases h
    exact ⟨fun i hi => absurd hi (Nat.not_lt_zero i), hs⟩
  | succ n ih =>
    rw [List.range_succ, List.foldlM_append] at h
    obtain ⟨t, ht, h⟩ := exists_of_bind h
    rw [List.foldlM_cons] at h
    obtain ⟨t', ht', h⟩ := exists_of_bind h
    cases h
    obtain ⟨hr, hp⟩ := ih (fun i hi => hstep i (by omega)) ht
    obtain ⟨hlast, hnext⟩ := hstep n (Nat.lt_succ_self n) t s' hp ht'
    refine ⟨fun i hi => ?_, hnext⟩
    obtain hlt | rfl := Nat.lt_succ_iff_lt_or_eq.1 hi
    · exact hr i hlt
    · exact hlast

end Operations

end EdaBitGen.FancyGarbling
