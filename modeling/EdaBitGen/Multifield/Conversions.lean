import Mathlib

/-!
# Batches of conversions

The edabits of the conversion gates wait in a map, by their number of bits, until they are handed to
the conversion check: all those of one width when the batch is full, and what is left in the end.
Prover and verifier do the same with their own edabits.
-/

namespace EdaBitGen

def sizeConversionBatch : ℕ := 100_000

/-- The waiting edabits by width. -/
structure EdabitsMap (E : Type) where
  keys : Finset ℕ
  edabits : ℕ → List E
  eq_nil : ∀ k ∉ keys, edabits k = []

namespace EdabitsMap

variable {E : Type}

def new : EdabitsMap E where
  keys := ∅
  edabits _ := []
  eq_nil _ _ := rfl

def insert (m : EdabitsMap E) (k : ℕ) (es : List E) : EdabitsMap E where
  keys := Insert.insert k m.keys
  edabits := Function.update m.edabits k es
  eq_nil i hi := by
    rw [Finset.mem_insert, not_or] at hi
    rw [Function.update_of_ne hi.1, m.eq_nil i hi.2]

/-- The map with one edabit more, and its number of keys. -/
def pushElm (m : EdabitsMap E) (k : ℕ) (e : E) : EdabitsMap E × ℕ :=
  let m := m.insert k (m.edabits k ++ [e])
  (m, m.keys.card)

/-- The lists in the order of their keys. -/
def iter (m : EdabitsMap E) : List (List E) :=
  (m.keys.sort (· ≤ ·)).map m.edabits

theorem mem_flatten_iter {m : EdabitsMap E} {e : E} :
    e ∈ m.iter.flatten ↔ ∃ k, e ∈ m.edabits k := by
  rw [iter, List.mem_flatten]
  constructor
  · rintro ⟨es, hes, he⟩
    obtain ⟨k, -, rfl⟩ := List.mem_map.1 hes
    exact ⟨k, he⟩
  · rintro ⟨k, he⟩
    refine ⟨m.edabits k, List.mem_map.2 ⟨k, ?_, rfl⟩, he⟩
    by_contra hk
    rw [Finset.mem_sort] at hk
    rw [m.eq_nil k hk] at he
    exact absurd he List.not_mem_nil

theorem nodup_flatten_iter {m : EdabitsMap E} (hnodup : ∀ k, (m.edabits k).Nodup)
    (hdisj : ∀ i j, i ≠ j → List.Disjoint (m.edabits i) (m.edabits j)) : m.iter.flatten.Nodup := by
  rw [iter, List.nodup_flatten]
  refine ⟨fun es hes => ?_, ?_⟩
  · obtain ⟨k, -, rfl⟩ := List.mem_map.1 hes
    exact hnodup k
  · exact List.pairwise_map.2 ((m.keys.sort_nodup _).imp fun hij => hdisj _ _ hij)

end EdabitsMap

/-! ## The backend -/

/-- A backend with the lists that it handed to the check so far, and the widths with edabits that a
finalisation handed to the check and left in the map. -/
structure ConvBackend (E : Type) where
  edabitsMap : EdabitsMap E
  noBatching : Bool
  handed : List (List E)
  checked : Finset ℕ

inductive ConvOp (E : Type) where
  | assertConv (id : ℕ) (edabit : E)
  | finalize

namespace ConvBackend

variable {E : Type}

def init (noBatching : Bool) : ConvBackend E := ⟨EdabitsMap.new, noBatching, [], ∅⟩

section Ops

variable (conv : List (List E) → List E → Bool)

/-- A call of the conversion, which may fail. -/
def callConv (b : ConvBackend E) (edabits : List E) : Option (ConvBackend E) :=
  if conv b.handed edabits then some { b with handed := b.handed ++ [edabits] } else none

def maybeDoConversionCheck (id num : ℕ) (b : ConvBackend E) : Option (ConvBackend E) :=
  if sizeConversionBatch < num ∨ b.noBatching then do
    let b ← b.callConv conv (b.edabitsMap.edabits id)
    some { b with edabitsMap := b.edabitsMap.insert id [], checked := b.checked.erase id }
  else some b

/-- What both kinds of conversion gates end with, for an edabit of `id` bits. -/
def assertConv (id : ℕ) (edabit : E) (b : ConvBackend E) : Option (ConvBackend E) :=
  let (m, num) := b.edabitsMap.pushElm id edabit
  { b with edabitsMap := m }.maybeDoConversionCheck conv id num

/-- Hands over all that waits; the map is left as it is. -/
def finalizeConv (b : ConvBackend E) : Option (ConvBackend E) := do
  let b ← b.edabitsMap.iter.foldlM (callConv conv) b
  some { b with checked := b.edabitsMap.keys.filter fun k => b.edabitsMap.edabits k ≠ [] }

def step (b : ConvBackend E) : ConvOp E → Option (ConvBackend E)
  | .assertConv id edabit => b.assertConv conv id edabit
  | .finalize => b.finalizeConv conv

def run (noBatching : Bool) (ops : List (ConvOp E)) : Option (ConvBackend E) :=
  ops.foldlM (step conv) (init noBatching)

end Ops

/-- A conversion gate of this width hands its edabits over at once. -/
def Flushes (b : ConvBackend E) (id : ℕ) : Prop :=
  sizeConversionBatch < (Insert.insert id b.edabitsMap.keys).card ∨ b.noBatching

variable {conv : List (List E) → List E → Bool} {b b' : ConvBackend E}

theorem assertConv_cases {id : ℕ} {e : E} (h : b.assertConv conv id e = some b') :
    (b.Flushes id ∧ b'.handed = b.handed ++ [b.edabitsMap.edabits id ++ [e]] ∧
        b'.edabitsMap.edabits = Function.update b.edabitsMap.edabits id [] ∧
        b'.checked = b.checked.erase id) ∨
      ¬b.Flushes id ∧ b'.handed = b.handed ∧
        b'.edabitsMap.edabits =
          Function.update b.edabitsMap.edabits id (b.edabitsMap.edabits id ++ [e]) ∧
        b'.checked = b.checked := by
  change maybeDoConversionCheck conv id (Insert.insert id b.edabitsMap.keys).card
    { b with edabitsMap := b.edabitsMap.insert id (b.edabitsMap.edabits id ++ [e]) } = some b' at h
  rw [maybeDoConversionCheck] at h
  split at h
  case isTrue hflush =>
    simp only [callConv, EdabitsMap.insert, Function.update_self] at h
    split at h
    · obtain rfl := Option.some_inj.1 h
      exact Or.inl ⟨hflush, rfl, Function.update_idem _ _ _, rfl⟩
    · exact absurd h nofun
  case isFalse hflush =>
    obtain rfl := Option.some_inj.1 h
    exact Or.inr ⟨hflush, rfl, rfl, rfl⟩

theorem foldlM_callConv {lists : List (List E)} (h : lists.foldlM (callConv conv) b = some b') :
    b' = { b with handed := b.handed ++ lists } := by
  induction lists generalizing b with
  | nil =>
    obtain rfl := Option.some_inj.1 h
    rw [List.append_nil]
  | cons es lists ih =>
    rw [List.foldlM_cons, callConv] at h
    split at h
    · rw [ih h, List.append_assoc, List.singleton_append]
    · exact absurd h nofun

theorem finalizeConv_eq (h : b.finalizeConv conv = some b') :
    b' = { b with
      handed := b.handed ++ b.edabitsMap.iter
      checked := b.edabitsMap.keys.filter fun k => b.edabitsMap.edabits k ≠ [] } := by
  obtain ⟨c, hc, hb'⟩ := Option.bind_eq_some_iff.1 h
  obtain rfl := Option.some_inj.1 hb'
  rw [foldlM_callConv hc]

theorem mem_checked_iff {k : ℕ} :
    (k ∈ b.edabitsMap.keys.filter fun k => b.edabitsMap.edabits k ≠ []) ↔
      b.edabitsMap.edabits k ≠ [] := by
  rw [Finset.mem_filter]
  exact and_iff_right_of_imp fun h => by_contra fun hk => h (b.edabitsMap.eq_nil k hk)

/-! ## Runs -/

def queued (ops : List (ConvOp E)) : List E :=
  ops.filterMap fun
    | .assertConv _ e => some e
    | .finalize => none

theorem run_concat (noBatching : Bool) (ops : List (ConvOp E)) (op : ConvOp E) :
    run conv noBatching (ops ++ [op]) = (run conv noBatching ops).bind fun b => b.step conv op := by
  rw [run, List.foldlM_append]
  cases hrun : List.foldlM (step conv) (init noBatching) ops <;> simp [run, hrun]

/-- Where the edabits are that were queued, with the widths that the last finalisation left. -/
structure Kept (b : ConvBackend E) (q : List E) : Prop where
  waiting : ∀ k, ∀ e ∈ b.edabitsMap.edabits k, e ∈ q
  handed : ∀ e ∈ b.handed.flatten, e ∈ q
  all : ∀ e ∈ q, e ∈ b.handed.flatten ∨ ∃ k, e ∈ b.edabitsMap.edabits k
  nodup : ∀ k, (b.edabitsMap.edabits k).Nodup
  disjoint : ∀ i j, i ≠ j → List.Disjoint (b.edabitsMap.edabits i) (b.edabitsMap.edabits j)
  checked : ∀ k ∈ b.checked, ∃ e ∈ b.edabitsMap.edabits k, e ∈ b.handed.flatten

section Update

variable {f : ℕ → List E} {id : ℕ} {es : List E}

theorem forall_mem_update {P : E → Prop} (hf : ∀ k, ∀ e ∈ f k, P e) (hes : ∀ e ∈ es, P e) (k : ℕ) :
    ∀ e ∈ Function.update f id es k, P e := by
  by_cases hk : k = id
  · rwa [hk, Function.update_self]
  · rw [Function.update_of_ne hk]
    exact hf k

theorem disjoint_update (hf : ∀ i j, i ≠ j → List.Disjoint (f i) (f j))
    (hes : ∀ i, i ≠ id → List.Disjoint (f i) es) (i j : ℕ) (hij : i ≠ j) :
    List.Disjoint (Function.update f id es i) (Function.update f id es j) := by
  by_cases hi : i = id
  · subst hi
    rw [Function.update_self, Function.update_of_ne (Ne.symm hij)]
    exact (hes j (Ne.symm hij)).symm
  · rw [Function.update_of_ne hi]
    by_cases hj : j = id
    · subst hj
      rw [Function.update_self]
      exact hes i hi
    · rw [Function.update_of_ne hj]
      exact hf i j hij

theorem nodup_update (hf : ∀ k, (f k).Nodup) (hes : es.Nodup) (k : ℕ) :
    (Function.update f id es k).Nodup := by
  by_cases hk : k = id
  · rwa [hk, Function.update_self]
  · rw [Function.update_of_ne hk]
    exact hf k

end Update

theorem Kept.assertConv {q : List E} (h : b.Kept q) {id : ℕ} {e : E} (he : e ∉ q)
    (hstep : b.assertConv conv id e = some b') : b'.Kept (q ++ [e]) := by
  have hin : ∀ x ∈ b.edabitsMap.edabits id ++ [e], x ∈ q ++ [e] := fun x hx =>
    (List.mem_append.1 hx).elim (fun hx => List.mem_append_left _ (h.waiting id x hx))
      (List.mem_append_right _)
  have hwaiting : ∀ k, ∀ x ∈ b.edabitsMap.edabits k, x ∈ q ++ [e] := fun k x hx =>
    List.mem_append_left _ (h.waiting k x hx)
  have hnew : ∀ k, e ∉ b.edabitsMap.edabits k := fun k hk => he (h.waiting k e hk)
  rcases assertConv_cases hstep with ⟨-, hhanded, hmap, hchecked⟩ | ⟨-, hhanded, hmap, hchecked⟩
  · have hflat : b'.handed.flatten = b.handed.flatten ++ (b.edabitsMap.edabits id ++ [e]) := by
      rw [hhanded, List.flatten_append, List.flatten_singleton]
    constructor
    · rw [hmap]
      exact forall_mem_update hwaiting fun _ hx => absurd hx List.not_mem_nil
    · intro x hx
      rw [hflat] at hx
      rcases List.mem_append.1 hx with hx | hx
      · exact List.mem_append_left _ (h.handed x hx)
      · exact hin x hx
    · intro x hx
      rw [hflat, hmap]
      rcases List.mem_append.1 hx with hx | hx
      · rcases h.all x hx with hx | ⟨k, hx⟩
        · exact Or.inl (List.mem_append_left _ hx)
        · by_cases hk : k = id
          · subst hk
            exact Or.inl (List.mem_append_right _ (List.mem_append_left _ hx))
          · exact Or.inr ⟨k, by rwa [Function.update_of_ne hk]⟩
      · exact Or.inl (List.mem_append_right _ (List.mem_append_right _ hx))
    · rw [hmap]
      exact nodup_update h.nodup List.nodup_nil
    · rw [hmap]
      exact disjoint_update h.disjoint fun _ _ => List.disjoint_nil_right _
    · intro k hk
      rw [hchecked, Finset.mem_erase] at hk
      obtain ⟨x, hx, hxh⟩ := h.checked k hk.2
      refine ⟨x, ?_, hflat ▸ List.mem_append_left _ hxh⟩
      rwa [hmap, Function.update_of_ne hk.1]
  · constructor
    · rw [hmap]
      exact forall_mem_update hwaiting hin
    · intro x hx
      rw [hhanded] at hx
      exact List.mem_append_left _ (h.handed x hx)
    · intro x hx
      rw [hhanded, hmap]
      rcases List.mem_append.1 hx with hx | hx
      · refine (h.all x hx).imp_right fun ⟨k, hx⟩ => ⟨k, ?_⟩
        by_cases hk : k = id
        · subst hk
          rw [Function.update_self]
          exact List.mem_append_left _ hx
        · rwa [Function.update_of_ne hk]
      · exact Or.inr ⟨id, by rw [Function.update_self]; exact List.mem_append_right _ hx⟩
    · rw [hmap]
      exact nodup_update h.nodup (List.nodup_append.2 ⟨h.nodup id, List.nodup_singleton e,
        fun x hx y hy hxy => hnew id (List.mem_singleton.1 hy ▸ hxy ▸ hx)⟩)
    · rw [hmap]
      refine disjoint_update h.disjoint fun i hi x hx hxe => ?_
      rcases List.mem_append.1 hxe with hxe | hxe
      · exact h.disjoint i id hi hx hxe
      · exact hnew i (List.mem_singleton.1 hxe ▸ hx)
    · intro k hk
      rw [hchecked] at hk
      obtain ⟨x, hx, hxh⟩ := h.checked k hk
      refine ⟨x, ?_, hhanded ▸ hxh⟩
      rw [hmap]
      by_cases hki : k = id
      · subst hki
        rw [Function.update_self]
        exact List.mem_append_left _ hx
      · rwa [Function.update_of_ne hki]

theorem Kept.finalizeConv {q : List E} (h : b.Kept q) (hstep : b.finalizeConv conv = some b') :
    b'.Kept q := by
  obtain rfl := finalizeConv_eq hstep
  have hflat : (b.handed ++ b.edabitsMap.iter).flatten =
      b.handed.flatten ++ b.edabitsMap.iter.flatten := List.flatten_append
  refine ⟨h.waiting, ?_, ?_, h.nodup, h.disjoint, ?_⟩
  · intro x hx
    rw [hflat] at hx
    rcases List.mem_append.1 hx with hx | hx
    · exact h.handed x hx
    · obtain ⟨k, hx⟩ := EdabitsMap.mem_flatten_iter.1 hx
      exact h.waiting k x hx
  · intro x hx
    rw [hflat]
    exact (h.all x hx).imp_left (List.mem_append_left _)
  · intro k hk
    obtain ⟨x, hx⟩ := List.exists_mem_of_ne_nil _ (mem_checked_iff.1 hk)
    refine ⟨x, hx, ?_⟩
    rw [hflat]
    exact List.mem_append_right _ (EdabitsMap.mem_flatten_iter.2 ⟨k, hx⟩)

theorem kept_run {noBatching : Bool} (ops : List (ConvOp E)) (hdistinct : (queued ops).Nodup)
    (hrun : run conv noBatching ops = some b) : b.Kept (queued ops) := by
  induction ops using List.reverseRecOn generalizing b with
  | nil =>
    obtain rfl := Option.some_inj.1 hrun
    refine ⟨fun _ _ h => h, fun _ h => h, fun _ h => Or.inl h, fun _ => List.nodup_nil,
      fun _ _ _ => List.disjoint_nil_left _, fun _ h => absurd h (Finset.notMem_empty _)⟩
  | append_singleton ops op ih =>
    rw [run_concat] at hrun
    obtain ⟨c, hc, hstep⟩ := Option.bind_eq_some_iff.1 hrun
    cases op with
    | assertConv id e =>
      have hq : queued (ops ++ [ConvOp.assertConv id e]) = queued ops ++ [e] := by simp [queued]
      rw [hq] at hdistinct ⊢
      obtain ⟨hops, -, hne⟩ := List.nodup_append.1 hdistinct
      exact (ih hops hc).assertConv (fun he => hne e he e (List.mem_singleton_self e) rfl) hstep
    | finalize =>
      have hq : queued (ops ++ [ConvOp.finalize]) = queued ops := by simp [queued]
      rw [hq] at hdistinct ⊢
      exact (ih hdistinct hc).finalizeConv hstep

/-! ## Exactly once -/

/-- What is asked of a state after the operations `ops`: no edabit was handed over twice, no width has
a full batch waiting, and after a finalisation all edabits were handed over. -/
structure Good (ops : List (ConvOp E)) (b : ConvBackend E) : Prop where
  once : b.handed.flatten.Nodup
  below : ∀ k, (b.edabitsMap.edabits k).length < sizeConversionBatch
  complete : ops.getLast? = some .finalize → ∀ e ∈ queued ops, e ∈ b.handed.flatten

/-- Before a gate, its width has no edabits left from a finalisation when it hands them over, and room
for one more when it does not.  Before a finalisation, no width has such edabits. -/
def Ready (b : ConvBackend E) : ConvOp E → Prop
  | .assertConv id _ => (b.Flushes id → id ∉ b.checked) ∧
      (¬b.Flushes id → (b.edabitsMap.edabits id).length + 1 < sizeConversionBatch)
  | .finalize => b.checked = ∅

/-- No edabit was handed over twice, and those that wait for the first time not at all. -/
structure Fresh (b : ConvBackend E) : Prop where
  once : b.handed.flatten.Nodup
  below : ∀ k, (b.edabitsMap.edabits k).length < sizeConversionBatch
  fresh : ∀ k ∉ b.checked, ∀ e ∈ b.edabitsMap.edabits k, e ∉ b.handed.flatten

theorem Fresh.assertConv {q : List E} (h : b.Fresh) (hkept : b.Kept q) {id : ℕ} {e : E} (he : e ∉ q)
    (hready : b.Ready (.assertConv id e)) (hstep : b.assertConv conv id e = some b') :
    b'.Fresh := by
  have hnew : e ∉ b.handed.flatten := fun hin => he (hkept.handed e hin)
  have hnodup : (b.edabitsMap.edabits id ++ [e]).Nodup := List.nodup_append.2 ⟨hkept.nodup id,
    List.nodup_singleton e, fun x hx y hy hxy =>
      he (hkept.waiting id e (List.mem_singleton.1 hy ▸ hxy ▸ hx))⟩
  rcases assertConv_cases hstep with ⟨hflush, hhanded, hmap, hchecked⟩ |
    ⟨hflush, hhanded, hmap, hchecked⟩
  · have hflat : b'.handed.flatten = b.handed.flatten ++ (b.edabitsMap.edabits id ++ [e]) := by
      rw [hhanded, List.flatten_append, List.flatten_singleton]
    have hdisj : ∀ x ∈ b.edabitsMap.edabits id ++ [e], x ∉ b.handed.flatten := by
      intro x hx
      rcases List.mem_append.1 hx with hx | hx
      · exact h.fresh id (hready.1 hflush) x hx
      · rwa [List.mem_singleton.1 hx]
    constructor
    · rw [hflat]
      exact List.nodup_append.2 ⟨h.once, hnodup, fun x hx y hy hxy => hdisj y hy (hxy ▸ hx)⟩
    · intro k
      rw [hmap]
      by_cases hk : k = id
      · rw [hk, Function.update_self]
        exact Nat.zero_lt_succ _
      · rw [Function.update_of_ne hk]
        exact h.below k
    · intro k hk x hx
      rw [hmap] at hx
      by_cases hki : k = id
      · rw [hki, Function.update_self] at hx
        exact absurd hx List.not_mem_nil
      · rw [Function.update_of_ne hki] at hx
        rw [hchecked, Finset.mem_erase, not_and] at hk
        rw [hflat]
        intro hin
        rcases List.mem_append.1 hin with hin | hin
        · exact h.fresh k (hk hki) x hx hin
        · rcases List.mem_append.1 hin with hin | hin
          · exact hkept.disjoint k id hki hx hin
          · exact he (hkept.waiting k e (List.mem_singleton.1 hin ▸ hx))
  · refine ⟨hhanded ▸ h.once, fun k => ?_, fun k hk x hx => ?_⟩
    · rw [hmap]
      by_cases hk : k = id
      · rw [hk, Function.update_self, List.length_append, List.length_singleton]
        exact hready.2 hflush
      · rw [Function.update_of_ne hk]
        exact h.below k
    · rw [hhanded]
      rw [hmap] at hx
      rw [hchecked] at hk
      by_cases hki : k = id
      · subst hki
        rw [Function.update_self] at hx
        rcases List.mem_append.1 hx with hx | hx
        · exact h.fresh k hk x hx
        · rwa [List.mem_singleton.1 hx]
      · rw [Function.update_of_ne hki] at hx
        exact h.fresh k hk x hx

theorem Fresh.finalizeConv {q : List E} (h : b.Fresh) (hkept : b.Kept q)
    (hready : b.Ready .finalize) (hstep : b.finalizeConv conv = some b') : b'.Fresh := by
  obtain rfl := finalizeConv_eq hstep
  refine ⟨?_, h.below, fun k hk x hx => ?_⟩
  · have hnodup := EdabitsMap.nodup_flatten_iter hkept.nodup hkept.disjoint
    rw [List.flatten_append]
    refine List.nodup_append.2 ⟨h.once, hnodup, fun x hx y hy hxy => ?_⟩
    obtain ⟨k, hy⟩ := EdabitsMap.mem_flatten_iter.1 hy
    have hk : k ∉ b.checked := by
      rw [show b.checked = ∅ from hready]
      exact Finset.notMem_empty k
    exact h.fresh k hk y hy (hxy ▸ hx)
  · rw [mem_checked_iff, not_not] at hk
    rw [hk] at hx
    exact absurd hx List.not_mem_nil

theorem Kept.complete {q : List E} (h : b.Kept q) (hstep : b.finalizeConv conv = some b') :
    ∀ e ∈ q, e ∈ b'.handed.flatten := by
  obtain rfl := finalizeConv_eq hstep
  intro e he
  rw [List.flatten_append]
  rcases h.all e he with he | ⟨k, he⟩
  · exact List.mem_append_left _ he
  · exact List.mem_append_right _ (EdabitsMap.mem_flatten_iter.2 ⟨k, he⟩)

theorem nodup_queued_of_le {pre ops : List (ConvOp E)} (h : pre <+: ops) (hdistinct : (queued ops).Nodup) :
    (queued pre).Nodup := by
  obtain ⟨rest, rfl⟩ := h
  rw [queued, List.filterMap_append] at hdistinct
  exact (List.nodup_append.1 hdistinct).1

theorem isSome_run_of_le {noBatching : Bool} {pre ops : List (ConvOp E)} (h : pre <+: ops)
    (hrun : (run conv noBatching ops).isSome) : (run conv noBatching pre).isSome := by
  obtain ⟨rest, rfl⟩ := h
  rw [run, List.foldlM_append] at hrun
  rw [run]
  cases hpre : List.foldlM (step conv) (init noBatching) pre with
  | none => rw [hpre] at hrun; exact hrun
  | some _ => rfl

theorem fresh_run {noBatching : Bool} (ops : List (ConvOp E)) (hdistinct : (queued ops).Nodup)
    (hready : ∀ pre op, pre ++ [op] <+: ops → ∀ b, run conv noBatching pre = some b → b.Ready op)
    (hrun : run conv noBatching ops = some b) : b.Fresh := by
  induction ops using List.reverseRecOn generalizing b with
  | nil =>
    obtain rfl := Option.some_inj.1 hrun
    exact ⟨List.nodup_nil, fun _ => Nat.zero_lt_succ _, fun _ _ _ h => absurd h List.not_mem_nil⟩
  | append_singleton ops op ih =>
    rw [run_concat] at hrun
    obtain ⟨c, hc, hstep⟩ := Option.bind_eq_some_iff.1 hrun
    have hops := nodup_queued_of_le (List.prefix_append ops [op]) hdistinct
    have hfresh := ih hops (fun pre op' hpre => hready pre op' (hpre.trans (List.prefix_append _ _))) hc
    have hkept := kept_run ops hops hc
    have hop := hready ops op (List.prefix_refl _) c hc
    cases op with
    | assertConv id e =>
      have hq : queued (ops ++ [ConvOp.assertConv id e]) = queued ops ++ [e] := by simp [queued]
      rw [hq] at hdistinct
      obtain ⟨-, -, hne⟩ := List.nodup_append.1 hdistinct
      exact hfresh.assertConv hkept (fun he => hne e he e (List.mem_singleton_self e) rfl) hop hstep
    | finalize => exact hfresh.finalizeConv hkept hop hstep

/-- In a run whose edabits are distinct, each is handed to one call of the check, with no full batch
waiting, exactly when each operation is made in a state that is ready for it. -/
theorem good_iff_ready (conv : List (List E) → List E → Bool) (noBatching : Bool)
    (ops : List (ConvOp E)) (hdistinct : (queued ops).Nodup)
    (hrun : (run conv noBatching ops).isSome) :
    (∀ pre, pre <+: ops → ∀ b, run conv noBatching pre = some b → b.Good pre) ↔
      ∀ pre op, pre ++ [op] <+: ops → ∀ b, run conv noBatching pre = some b → b.Ready op := by
  constructor
  · intro hgood pre op hpre b hb
    have hkept := kept_run pre (nodup_queued_of_le ((List.prefix_append _ _).trans hpre) hdistinct) hb
    obtain ⟨b', hb'⟩ := Option.isSome_iff_exists.1 (isSome_run_of_le hpre hrun)
    have hnext := hgood _ hpre b' hb'
    rw [run_concat, hb] at hb'
    cases op with
    | assertConv id e =>
      rcases assertConv_cases hb' with ⟨hflush, hhanded, -, -⟩ | ⟨hflush, -, hmap, -⟩
      · refine ⟨fun _ hid => ?_, fun hno => absurd hflush hno⟩
        obtain ⟨x, hx, hxh⟩ := hkept.checked id hid
        have honce := hnext.once
        rw [hhanded, List.flatten_append, List.flatten_singleton] at honce
        exact (List.nodup_append.1 honce).2.2 x hxh x (List.mem_append_left _ hx) rfl
      · refine ⟨fun hyes => absurd hyes hflush, fun _ => ?_⟩
        have hbelow := hnext.below id
        rwa [hmap, Function.update_self, List.length_append, List.length_singleton] at hbelow
    | finalize =>
      obtain rfl := finalizeConv_eq hb'
      refine Finset.eq_empty_of_forall_notMem fun k hk => ?_
      obtain ⟨x, hx, hxh⟩ := hkept.checked k hk
      have honce := hnext.once
      rw [List.flatten_append] at honce
      exact (List.nodup_append.1 honce).2.2 x hxh x (EdabitsMap.mem_flatten_iter.2 ⟨k, hx⟩) rfl
  · intro hready pre hpre b hb
    have hdist := nodup_queued_of_le hpre hdistinct
    have hfresh := fresh_run pre hdist (fun pre' op h => hready pre' op (h.trans hpre)) hb
    refine ⟨hfresh.once, hfresh.below, fun hlast => ?_⟩
    obtain ⟨pre, rfl⟩ : ∃ pre', pre = pre' ++ [.finalize] := by
      obtain ⟨hne, hlast⟩ := List.getLast?_eq_some_iff.1 hlast
      exact ⟨_, hlast⟩
    rw [run_concat] at hb
    obtain ⟨c, hc, hstep⟩ := Option.bind_eq_some_iff.1 hb
    have hq : queued (pre ++ [ConvOp.finalize]) = queued pre := by simp [queued]
    rw [hq] at hdist ⊢
    exact (kept_run pre hdist hc).complete hstep

theorem isSome_run (noBatching : Bool) (ops : List (ConvOp E)) :
    (run (fun _ _ => true) noBatching ops).isSome := by
  have hfold : ∀ (lists : List (List E)) (b : ConvBackend E),
      (lists.foldlM (callConv fun _ _ => true) b).isSome := by
    intro lists
    induction lists with
    | nil => exact fun _ => rfl
    | cons es lists ih => exact fun b => ih { b with handed := b.handed ++ [es] }
  induction ops using List.reverseRecOn with
  | nil => rfl
  | append_singleton ops op ih =>
    obtain ⟨b, hb⟩ := Option.isSome_iff_exists.1 ih
    rw [run_concat, hb, Option.bind_some]
    cases op with
    | assertConv id e =>
      change (maybeDoConversionCheck _ id _ _).isSome
      rw [maybeDoConversionCheck]
      split <;> rfl
    | finalize =>
      obtain ⟨c, hc⟩ := Option.isSome_iff_exists.1 (hfold b.edabitsMap.iter b)
      rw [step, finalizeConv, hc]
      rfl

/-- Three conversions of two widths, and one finalisation. -/
theorem good_iff_ready_three :
    let ops : List (ConvOp ℕ) := [.assertConv 61 0, .assertConv 1 1, .assertConv 61 2, .finalize]
    (∀ pre, pre <+: ops → ∀ b, run (fun _ _ => true) true pre = some b → b.Good pre) ↔
      ∀ pre op, pre ++ [op] <+: ops → ∀ b, run (fun _ _ => true) true pre = some b → b.Ready op :=
  good_iff_ready (fun _ _ => true) true
    [.assertConv 61 0, .assertConv 1 1, .assertConv 61 2, .finalize] (by decide) (isSome_run true _)

/-- A second finalisation hands the edabits over once more. -/
theorem not_good_of_two_finalizes :
    ¬∀ pre, pre <+: [.assertConv 61 0, .finalize, .finalize] →
      ∀ b : ConvBackend ℕ, run (fun _ _ => true) false pre = some b → b.Good pre := by
  intro hgood
  let first : List (ConvOp ℕ) := [.assertConv 61 0, .finalize]
  obtain ⟨b, hb⟩ := Option.isSome_iff_exists.1 (isSome_run false first)
  obtain ⟨c, hc⟩ := Option.isSome_iff_exists.1 (isSome_run false (first ++ [.finalize]))
  have honce := (hgood _ (List.prefix_refl _) c hc).once
  obtain ⟨a, ha, hstep⟩ := Option.bind_eq_some_iff.1
    ((run_concat false [.assertConv 61 0] .finalize).symm.trans hb)
  have hin : 0 ∈ b.handed.flatten :=
    (kept_run [.assertConv 61 0] (by decide) ha).complete hstep 0 (List.mem_singleton_self 0)
  have hwait : 0 ∈ a.edabitsMap.edabits 61 := by
    obtain rfl := Option.some_inj.1 (show some _ = some a from ha)
    exact List.mem_singleton_self 0
  rw [run_concat, hb] at hc
  obtain rfl := finalizeConv_eq hstep
  obtain rfl := finalizeConv_eq hc
  rw [List.flatten_append] at honce
  exact (List.nodup_append.1 honce).2.2 0 hin 0 (EdabitsMap.mem_flatten_iter.2 ⟨61, hwait⟩) rfl

end ConvBackend

end EdaBitGen
