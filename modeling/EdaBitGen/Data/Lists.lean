import Mathlib

/-!
# Lists

Lists cut into chunks, lists of slots, lists of sets with a point, and lists of entries.
-/

/-!
## Chunks of a list

A list cut into pieces of one length: the full pieces with what is left over, or all pieces with a
shorter last one.
-/

namespace Chunks

variable {α β : Type}

/-- The full chunks of `n` elements. -/
def exact (n : ℕ) (xs : List α) : List (List α) :=
  (List.range (xs.length / n)).map fun i => (xs.drop (i * n)).take n

/-- What is left over after the full chunks. -/
def remainder (n : ℕ) (xs : List α) : List α :=
  xs.drop (xs.length / n * n)

/-- All chunks of at most `n` elements, in order. -/
def all (n : ℕ) (xs : List α) : List (List α) :=
  (List.range ((xs.length + n - 1) / n)).map fun i => (xs.drop (i * n)).take n

theorem flatten_slices (n k : ℕ) (xs : List α) :
    ((List.range k).map fun i => (xs.drop (i * n)).take n).flatten = xs.take (k * n) := by
  induction k with
  | zero => simp
  | succ k ih =>
    rw [List.range_succ, List.map_append, List.flatten_append, ih, Nat.succ_mul, List.take_add]
    simp

theorem flatten_exact_append_remainder (n : ℕ) (xs : List α) :
    (exact n xs).flatten ++ remainder n xs = xs := by
  rw [exact, flatten_slices, remainder, List.take_append_drop]

theorem length_of_mem_exact {n : ℕ} {xs c : List α} (h : c ∈ exact n xs) : c.length = n := by
  obtain ⟨i, hi, rfl⟩ := List.mem_map.1 h
  have hle : i * n + n ≤ xs.length := by
    calc i * n + n = (i + 1) * n := (Nat.succ_mul i n).symm
      _ ≤ xs.length / n * n := Nat.mul_le_mul_right n (List.mem_range.1 hi)
      _ ≤ xs.length := Nat.div_mul_le_self xs.length n
  rw [List.length_take, List.length_drop]
  omega

theorem all_map (f : α → β) (n : ℕ) (xs : List α) : all n (xs.map f) = (all n xs).map (List.map f) := by
  simp [all, List.map_drop, List.map_take, Function.comp_def]

theorem exact_map (f : α → β) (n : ℕ) (xs : List α) :
    exact n (xs.map f) = (exact n xs).map (List.map f) := by
  simp [exact, List.map_drop, List.map_take, Function.comp_def]

@[simp] theorem length_all (n : ℕ) (xs : List α) : (all n xs).length = (xs.length + n - 1) / n := by
  simp [all]

theorem mem_of_mem_exact {n : ℕ} {xs c : List α} (h : c ∈ exact n xs) {x : α} (hx : x ∈ c) :
    x ∈ xs := by
  obtain ⟨i, -, rfl⟩ := List.mem_map.1 h
  exact List.mem_of_mem_drop (List.mem_of_mem_take hx)

theorem remainder_of_lt {n : ℕ} {xs : List α} (h : xs.length < n) :
    exact n xs = [] ∧ remainder n xs = xs := by
  simp [exact, remainder, Nat.div_eq_of_lt h]

theorem remainder_of_dvd {n : ℕ} {xs : List α} (h : n ∣ xs.length) :
    (exact n xs).flatten = xs ∧ remainder n xs = [] := by
  have hrem : remainder n xs = [] := by
    rw [remainder, Nat.div_mul_cancel h, List.drop_length]
  have hall := flatten_exact_append_remainder n xs
  rw [hrem, List.append_nil] at hall
  exact ⟨hall, hrem⟩

theorem exact_append_of_length {n m : ℕ} (hn : 0 < n) {xs : List α} (hxs : xs.length = m * n) (ys : List α) :
    exact n (xs ++ ys) = exact n xs ++ exact n ys := by
  have hlen : (xs ++ ys).length / n = m + ys.length / n := by
    rw [List.length_append, hxs, Nat.add_comm, Nat.add_mul_div_right _ _ hn, Nat.add_comm]
  rw [exact, hlen, exact, hxs, Nat.mul_div_cancel _ hn, exact, List.range_add, List.map_append,
    List.map_map]
  congr 1
  · refine List.map_congr_left fun i hi => ?_
    have hle : (i + 1) * n ≤ m * n := Nat.mul_le_mul_right n (List.mem_range.1 hi)
    rw [Nat.succ_mul] at hle
    rw [List.drop_append_of_le_length (by omega), List.take_append_of_le_length]
    rw [List.length_drop]
    omega
  · refine List.map_congr_left fun i _ => ?_
    rw [Function.comp_apply, Nat.add_mul, ← hxs, List.drop_append, Nat.add_sub_cancel_left,
      List.drop_eq_nil_of_le (Nat.le_add_right _ _), List.nil_append]

theorem flatten_all {n : ℕ} (hn : 0 < n) (xs : List α) : (all n xs).flatten = xs := by
  rw [all, flatten_slices, List.take_of_length_le]
  have hdiv := Nat.div_add_mod (xs.length + n - 1) n
  have hmod := Nat.mod_lt (xs.length + n - 1) hn
  rw [Nat.mul_comm] at hdiv
  omega

theorem length_le_of_mem_all {n : ℕ} {xs c : List α} (h : c ∈ all n xs) : c.length ≤ n := by
  obtain ⟨i, -, rfl⟩ := List.mem_map.1 h
  exact List.length_take_le _ _

theorem all_zipWith {γ : Type} (f : α → β → γ) (n : ℕ) {xs : List α} {ys : List β}
    (h : xs.length = ys.length) :
    all n (List.zipWith f xs ys) = List.zipWith (List.zipWith f) (all n xs) (all n ys) := by
  rw [all, all, all, ← h, List.length_zipWith, ← h, Nat.min_self, List.zipWith_map,
    List.zipWith_self]
  refine List.map_congr_left fun i _ => ?_
  rw [List.drop_zipWith, List.take_zipWith]

/-! ## Lists of one length -/

variable {n : ℕ} {vss : List (List α)}

theorem exact_append {vs : List α} (hn : 0 < n) (h : vs.length = n) (rest : List α) :
    exact n (vs ++ rest) = vs :: exact n rest := by
  have hone : exact n vs = [vs] := by
    rw [exact, h, Nat.div_self hn, List.range_one, List.map_singleton, Nat.zero_mul, List.drop_zero,
      List.take_of_length_le h.le]
  rw [exact_append_of_length hn (h.trans (Nat.one_mul n).symm), hone, List.singleton_append]

/-- The full chunks of a concatenation of lists of that length are these lists. -/
theorem exact_flatten (hn : 0 < n) (h : ∀ vs ∈ vss, vs.length = n) : exact n vss.flatten = vss := by
  induction vss with
  | nil => simp [exact]
  | cons vs vss ih =>
    rw [List.flatten_cons, exact_append hn (h vs List.mem_cons_self),
      ih fun ws hws => h ws (List.mem_cons_of_mem _ hws)]

theorem length_flatten (h : ∀ vs ∈ vss, vs.length = n) : vss.flatten.length = vss.length * n := by
  rw [List.length_flatten, List.map_congr_left h, List.map_const', List.sum_replicate_nat]

theorem take_drop_flatten (hn : 0 < n) (h : ∀ vs ∈ vss, vs.length = n) {i : ℕ} {vs : List α}
    (hi : vss[i]? = some vs) : (vss.flatten.drop (i * n)).take n = vs := by
  have hlt : i < vss.length := (List.getElem?_eq_some_iff.1 hi).1
  have hexact := congrArg (·[i]?) (exact_flatten hn h)
  simp only [exact, length_flatten h, Nat.mul_div_cancel _ hn, List.getElem?_map,
    List.getElem?_range hlt, Option.map_some, hi, Option.some.injEq] at hexact
  exact hexact

theorem getElem?_flatten (hn : 0 < n) (h : ∀ vs ∈ vss, vs.length = n) (k : ℕ) :
    vss.flatten[k]? = vss[k / n]?.bind fun vs => vs[k % n]? := by
  induction vss generalizing k with
  | nil => simp
  | cons vs vss ih =>
    have hlen := h vs List.mem_cons_self
    rw [List.flatten_cons]
    by_cases hk : k < n
    · rw [List.getElem?_append_left (by omega), Nat.div_eq_of_lt hk, Nat.mod_eq_of_lt hk]
      rfl
    · obtain ⟨j, rfl⟩ := Nat.exists_eq_add_of_le (Nat.le_of_not_lt hk)
      rw [List.getElem?_append_right (by omega), hlen, Nat.add_sub_cancel_left,
        ih fun ws hws => h ws (List.mem_cons_of_mem _ hws), Nat.add_div_left _ hn,
        Nat.add_mod_left, List.getElem?_cons_succ]

end Chunks

/-!
## Tables of slots

Lists of slots that are empty or hold an item.  Storing an item in a slot takes out what was there.
-/

namespace Slots

variable {α β : Type}

/-- What the slots hold, in their order. -/
def stored (f : α → β) (slots : List (Option α)) : List β := slots.filterMap (Option.map f)

variable {slots : List (Option α)} {i : ℕ}

theorem set_perm {l : List α} {a : α} (h : l[i]? = some a) (b : α) :
    (a :: l.set i b).Perm (b :: l) := by
  have hperm := l.getD_set_perm_cons i b
  rwa [h, Option.getD_some] at hperm

theorem stored_set_none (f : α → β) (h : slots[i]? = some none) (item : α) :
    (stored f (slots.set i (some item))).Perm (f item :: stored f slots) := by
  simpa [stored] using (set_perm h (some item)).filterMap (Option.map f)

theorem stored_set_some (f : α → β) {old : α} (h : slots[i]? = some (some old)) (item : α) :
    (f old :: stored f (slots.set i (some item))).Perm (f item :: stored f slots) := by
  simpa [stored] using (set_perm h (some item)).filterMap (Option.map f)

theorem forall_set {P : ℕ → α → Prop} (hslots : ∀ j x, slots[j]? = some (some x) → P j x) {item : α}
    (hitem : P i item) : ∀ j x, (slots.set i (some item))[j]? = some (some x) → P j x := by
  intro j x hx
  rw [List.getElem?_set] at hx
  split at hx
  · next hij =>
    split at hx
    · cases hx
      exact hij ▸ hitem
    · cases hx
  · exact hslots j x hx

end Slots

/-!
## Occurrences in a list of sets

How many sets of a list have a point.  The sets are disjoint when no point is in two of them.
-/

namespace Occurrences

variable {α π : Type} (has : α → π → Bool)

/-- How many elements of a list have a point. -/
def mult (l : List α) (p : π) : ℕ := l.countP (has · p)

/-- One when an element has a point. -/
def indicator (a : α) (p : π) : ℕ := if has a p then 1 else 0

@[simp] theorem mult_nil (p : π) : mult has [] p = 0 := rfl

@[simp] theorem mult_cons (a : α) (l : List α) (p : π) :
    mult has (a :: l) p = mult has l p + indicator has a p := List.countP_cons

@[simp] theorem mult_append (l l' : List α) (p : π) :
    mult has (l ++ l') p = mult has l p + mult has l' p := List.countP_append

theorem indicator_le_mult {a : α} {l : List α} (h : a ∈ l) (p : π) :
    indicator has a p ≤ mult has l p := by
  unfold indicator
  split
  · exact List.countP_pos_iff.2 ⟨a, h, by assumption⟩
  · exact Nat.zero_le _

theorem mult_set {l : List α} {i : ℕ} {a : α} (h : l[i]? = some a) (b : α) (p : π) :
    mult has (l.set i b) p + indicator has a p = mult has l p + indicator has b p := by
  obtain ⟨hi, rfl⟩ := List.getElem?_eq_some_iff.1 h
  have hle := indicator_le_mult has (List.getElem_mem hi) p
  unfold mult indicator at *
  rw [List.countP_set hi]
  omega

theorem mult_dropLast {l : List α} {a : α} (h : l.getLast? = some a) (p : π) :
    mult has l.dropLast p + indicator has a p = mult has l p := by
  obtain ⟨l', rfl⟩ := List.getLast?_eq_some_iff.1 h
  rw [List.dropLast_concat, mult_append, mult_cons, mult_nil, Nat.zero_add]

/-- Sets that share no point. -/
def Disjoint (a b : α) : Prop := ∀ p, ¬ (has a p = true ∧ has b p = true)

theorem pairwise_disjoint {l : List α} (h : ∀ p, mult has l p ≤ 1) :
    l.Pairwise (Disjoint has) := by
  induction l with
  | nil => exact .nil
  | cons a l ih =>
    refine .cons (fun b hb p hp => ?_) (ih fun p => ?_)
    · have hle := h p
      have hone := indicator_le_mult has hb p
      rw [mult_cons] at hle
      unfold indicator at hle hone
      rw [if_pos hp.1] at hle
      rw [if_pos hp.2] at hone
      omega
    · have hle := h p
      rw [mult_cons] at hle
      omega

end Occurrences

/-!
## The last entry up to a key

Over an ordered type of keys, the entry of an association list with the greatest key up to a bound.
-/

namespace AList

variable {α β : Type} [LinearOrder α]

/-- The entry with the greatest key up to `bound`. -/
def floor (m : AList fun _ : α => β) (bound : α) : Option (α × β) :=
  ((m.entries.filter fun e => e.1 ≤ bound).argmax Sigma.fst).map fun e => (e.1, e.2)

theorem mem_entries_iff {m : AList fun _ : α => β} {k : α} {b : β} :
    (⟨k, b⟩ : Sigma fun _ : α => β) ∈ m.entries ↔ m.lookup k = some b :=
  mem_lookup_iff.symm

theorem exists_argmax_of_floor {m : AList fun _ : α => β} {bound k : α} {b : β}
    (h : m.floor bound = some (k, b)) :
    (⟨k, b⟩ : Sigma fun _ : α => β) ∈ (m.entries.filter fun e => e.1 ≤ bound).argmax Sigma.fst := by
  obtain ⟨⟨k', b'⟩, he, heq⟩ := Option.map_eq_some_iff.1 h
  obtain ⟨rfl, rfl⟩ := Prod.mk.injEq .. ▸ heq
  exact he

theorem lookup_of_floor {m : AList fun _ : α => β} {bound k : α} {b : β}
    (h : m.floor bound = some (k, b)) : m.lookup k = some b ∧ k ≤ bound := by
  have hmem := List.argmax_mem (exists_argmax_of_floor h)
  rw [List.mem_filter] at hmem
  exact ⟨mem_entries_iff.1 hmem.1, of_decide_eq_true hmem.2⟩

theorem le_of_floor {m : AList fun _ : α => β} {bound k k' : α} {b b' : β}
    (h : m.floor bound = some (k, b)) (hk' : m.lookup k' = some b') (hle : k' ≤ bound) :
    k' ≤ k := by
  have hmem : (⟨k', b'⟩ : Sigma fun _ : α => β) ∈ m.entries.filter fun e => e.1 ≤ bound :=
    List.mem_filter.2 ⟨mem_entries_iff.2 hk', decide_eq_true hle⟩
  exact List.le_of_mem_argmax hmem (exists_argmax_of_floor h)

theorem lt_of_floor_eq_none {m : AList fun _ : α => β} {bound k : α} {b : β}
    (h : m.floor bound = none) (hk : m.lookup k = some b) : bound < k := by
  by_contra hle
  have hmem : (⟨k, b⟩ : Sigma fun _ : α => β) ∈ m.entries.filter fun e => e.1 ≤ bound :=
    List.mem_filter.2 ⟨mem_entries_iff.2 hk, decide_eq_true (not_lt.1 hle)⟩
  rw [floor, Option.map_eq_none_iff, List.argmax_eq_none] at h
  rw [h] at hmem
  exact List.not_mem_nil hmem

end AList
