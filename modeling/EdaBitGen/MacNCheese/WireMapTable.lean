import EdaBitGen.MacNCheese.WireMap

/-!
# The allocations of a wire map

What the tree and the cache hold together is a table of disjoint allocations.  An allocation that
the cache is about to take is in hand: it is in neither, but may have a marker.
-/

namespace EdaBitGen.MacNCheese.WireMaps

/-- Disjoint allocations by their first wires. -/
@[ext]
structure Table where
  entries : ℕ → Option Allocation
  pos : ∀ s a, entries s = some a → 0 < a.len
  short : ∀ s a, entries s = some a → a.len < 2 ^ 48
  fits : ∀ s a, entries s = some a → s + a.len ≤ 2 ^ 64
  disjoint : ∀ s t a b, entries s = some a → entries t = some b → s < t → s + a.len ≤ t

namespace Table

def empty : Table where
  entries _ := none
  pos _ _ h := nomatch h
  short _ _ h := nomatch h
  fits _ _ h := nomatch h
  disjoint _ _ _ _ h := nomatch h

/-- The allocation `a` that starts at `s` has the wire `w`. -/
def At (t : Table) (w s : ℕ) (a : Allocation) : Prop :=
  t.entries s = some a ∧ s ≤ w ∧ w < s + a.len

theorem At.start_eq {t : Table} {w s s' : ℕ} {a a' : Allocation} (h : t.At w s a)
    (h' : t.At w s' a') : s = s' := by
  obtain ⟨hs, hle, hlt⟩ := h
  obtain ⟨hs', hle', hlt'⟩ := h'
  rcases Nat.lt_trichotomy s s' with h | h | h
  · have := t.disjoint s s' a a' hs hs' h
    omega
  · exact h
  · have := t.disjoint s' s a' a hs' hs h
    omega

theorem At.eq {t : Table} {w s s' : ℕ} {a a' : Allocation} (h : t.At w s a)
    (h' : t.At w s' a') : a = a' := by
  obtain rfl := h.start_eq h'
  exact Option.some.inj (h.1.symm.trans h'.1)

theorem at_self {t : Table} {s : ℕ} {a : Allocation} (h : t.entries s = some a) : t.At s s a :=
  ⟨h, le_rfl, Nat.lt_add_of_pos_right (t.pos s a h)⟩

/-- What a lookup of a wire finds. -/
def Position (t : Table) (w : ℕ) : Option WirePosition → Prop
  | some p => ∃ s, t.At w s p.allocation ∧ p.posInAllocation = w - s
  | none => ∀ s a, ¬ t.At w s a

/-- No allocation meets the range. -/
def Clear (t : Table) (start inclusiveEnd : ℕ) : Prop :=
  ∀ s a, t.entries s = some a → inclusiveEnd < s ∨ s + a.len ≤ start

/-- The table with an allocation in a range that was clear. -/
def insert (t : Table) (start : ℕ) (a : Allocation) (hpos : 0 < a.len) (hshort : a.len < 2 ^ 48)
    (hfits : start + a.len ≤ 2 ^ 64) (hclear : t.Clear start (start + (a.len - 1))) : Table where
  entries := Function.update t.entries start (some a)
  pos s b hb := by
    rcases eq_or_ne s start with hs | hs
    · rw [hs, Function.update_self, Option.some.injEq] at hb
      exact hb ▸ hpos
    · rw [Function.update_of_ne hs] at hb
      exact t.pos s b hb
  short s b hb := by
    rcases eq_or_ne s start with hs | hs
    · rw [hs, Function.update_self, Option.some.injEq] at hb
      exact hb ▸ hshort
    · rw [Function.update_of_ne hs] at hb
      exact t.short s b hb
  fits s b hb := by
    rcases eq_or_ne s start with hs | hs
    · rw [hs, Function.update_self, Option.some.injEq] at hb
      exact hs ▸ hb ▸ hfits
    · rw [Function.update_of_ne hs] at hb
      exact t.fits s b hb
  disjoint s s' b b' hb hb' hlt := by
    rcases eq_or_ne s start with hs | hs <;> rcases eq_or_ne s' start with hs' | hs'
    · omega
    · rw [hs, Function.update_self, Option.some.injEq] at hb
      rw [Function.update_of_ne hs'] at hb'
      have := t.pos s' b' hb'
      have := hclear s' b' hb'
      subst hb
      omega
    · rw [Function.update_of_ne hs] at hb
      have := hclear s b hb
      omega
    · rw [Function.update_of_ne hs] at hb
      rw [Function.update_of_ne hs'] at hb'
      exact t.disjoint s s' b b' hb hb' hlt

/-- The table without the allocations that start in a set of wires. -/
def remove (t : Table) (p : ℕ → Prop) [DecidablePred p] : Table where
  entries s := if p s then none else t.entries s
  pos s a h := t.pos s a (Option.ite_none_left_eq_some.1 h).2
  short s a h := t.short s a (Option.ite_none_left_eq_some.1 h).2
  fits s a h := t.fits s a (Option.ite_none_left_eq_some.1 h).2
  disjoint s s' a a' h h' :=
    t.disjoint s s' a a' (Option.ite_none_left_eq_some.1 h).2 (Option.ite_none_left_eq_some.1 h').2

theorem remove_entries {t : Table} {p : ℕ → Prop} [DecidablePred p] {s : ℕ} {a : Allocation} :
    (t.remove p).entries s = some a ↔ ¬ p s ∧ t.entries s = some a :=
  Option.ite_none_left_eq_some

end Table

namespace WireMap

/-- A cell of the cache that is in use. -/
def Live (m : WireMap) (i : Fin 4) : Prop := 0 < (m.cachedAllocations i).len

/-- The map holds the table, but for the allocation in hand. -/
structure Represents (m : WireMap) (t : Table) (hand : Option ℕ) : Prop where
  packed : ∀ i, m.cacheLensAndLastUseds i / 2 ^ 16 = (m.cachedAllocations i).len
  cached : ∀ i, m.Live i → t.entries (m.cacheStarts i) = some (m.cachedAllocations i)
  injective : ∀ i j, m.Live i → m.Live j → m.cacheStarts i = m.cacheStarts j → i = j
  uncached : ∀ s a, m.storage.lookup s = some (.uncached a) →
    t.entries s = some a ∧ hand ≠ some s ∧ ∀ i, m.Live i → m.cacheStarts i ≠ s
  marker : ∀ s n, m.storage.lookup s = some (.inCache n) →
    (∃ a, t.entries s = some a ∧ a.len = n) ∧
      (hand = some s ∨ ∃ i, m.Live i ∧ m.cacheStarts i = s)
  complete : ∀ s a, t.entries s = some a → hand = some s ∨
    (∃ i, m.Live i ∧ m.cacheStarts i = s) ∨ m.storage.lookup s = some (.uncached a)
  held : ∀ s, hand = some s → ∀ i, m.Live i → m.cacheStarts i ≠ s

instance (m : WireMap) (i : Fin 4) : Decidable (m.Live i) :=
  inferInstanceAs (Decidable (0 < (m.cachedAllocations i).len))

theorem not_live_new (i : Fin 4) : ¬ new.Live i := Nat.lt_irrefl 0

theorem represents_new : new.Represents .empty none where
  packed _ := show emptyAgeAndLastUsed / 2 ^ 16 = 0 by decide
  cached i h := absurd h (not_live_new i)
  injective i _ h := absurd h (not_live_new i)
  uncached _ _ h := nomatch h
  marker _ _ h := nomatch h
  complete _ _ h := nomatch h
  held _ h := nomatch h

variable {m : WireMap} {t : Table} {hand : Option ℕ}

namespace Represents

theorem stored (h : m.Represents t hand) {s : ℕ} {cell : Cell}
    (hs : m.storage.lookup s = some cell) : ∃ a, t.entries s = some a ∧ a.len = cell.len := by
  cases cell with
  | uncached a => exact ⟨a, (h.uncached s a hs).1, rfl⟩
  | inCache n => exact (h.marker s n hs).1

/-! ## The cache -/

theorem hit_iff (h : m.Represents t hand) {w : ℕ} (i : Fin 4) :
    m.hit w i = true ↔ m.Live i ∧ t.At w (m.cacheStarts i) (m.cachedAllocations i) := by
  have hdiff : m.cacheStarts i ≤ w → wrappingSub w (m.cacheStarts i) = w - m.cacheStarts i :=
    fun hle => if_pos hle
  unfold hit
  rw [h.packed i, Bool.and_eq_true, Bool.not_eq_true', decide_eq_true_iff, decide_eq_false_iff_not,
    not_lt]
  constructor
  · rintro ⟨hlt, hle⟩
    rw [hdiff hle] at hlt
    have hlive : m.Live i := Nat.zero_lt_of_lt hlt
    exact ⟨hlive, h.cached i hlive, hle, by omega⟩
  · rintro ⟨_, _, hle, hlt⟩
    rw [hdiff hle]
    exact ⟨by omega, hle⟩

theorem checkCacheForWire_eq_some (h : m.Represents t hand) {w : ℕ} {i : Fin 4}
    (hi : m.checkCacheForWire w = some i) :
    m.Live i ∧ t.At w (m.cacheStarts i) (m.cachedAllocations i) :=
  (h.hit_iff i).1 (List.find?_some hi)

theorem not_at_of_check_eq_none (h : m.Represents t hand) {w : ℕ}
    (hnone : m.checkCacheForWire w = none) {i : Fin 4} (hi : m.Live i) {a : Allocation} :
    ¬ t.At w (m.cacheStarts i) a := by
  intro hat
  have hmiss := List.find?_eq_none.1 hnone i (List.mem_finRange i)
  have heq : m.cachedAllocations i = a := Option.some.inj ((h.cached i hi).symm.trans hat.1)
  exact hmiss ((h.hit_iff i).2 ⟨hi, heq ▸ hat⟩)

theorem checkCacheForWire_of_live (h : m.Represents t hand) {w : ℕ} {i : Fin 4}
    (hi : m.Live i) {a : Allocation} (hat : t.At w (m.cacheStarts i) a) :
    m.checkCacheForWire w = some i := by
  cases hcheck : m.checkCacheForWire w with
  | none => exact absurd hat (h.not_at_of_check_eq_none hcheck hi)
  | some j =>
    obtain ⟨hj, hat'⟩ := h.checkCacheForWire_eq_some hcheck
    rw [h.injective i j hi hj (hat.start_eq hat')]

theorem saturatingAddOne_div (x : ℕ) : saturatingAddOne x / 2 ^ 16 = x / 2 ^ 16 := by
  unfold saturatingAddOne
  split <;> omega

theorem touch (h : m.Represents t hand) (hit : Fin 4 → Bool) :
    Represents
      { m with cacheLensAndLastUseds := fun i =>
          if hit i then m.cacheLensAndLastUseds i
          else saturatingAddOne (m.cacheLensAndLastUseds i) }
      t hand where
  packed i := by
    change (ite _ _ _) / 2 ^ 16 = _
    split
    · exact h.packed i
    · rw [saturatingAddOne_div]
      exact h.packed i
  cached := h.cached
  injective := h.injective
  uncached := h.uncached
  marker := h.marker
  complete := h.complete
  held := h.held

theorem mark (h : m.Represents t none) {s : ℕ} {a : Allocation}
    (hs : m.storage.lookup s = some (.uncached a)) :
    Represents { m with storage := m.storage.insert s (.inCache a.len) } t (some s) where
  packed := h.packed
  cached := h.cached
  injective := h.injective
  uncached k b hk := by
    rcases eq_or_ne k s with rfl | hne
    · rw [AList.lookup_insert] at hk
      cases hk
    · rw [AList.lookup_insert_ne hne] at hk
      obtain ⟨hb, -, hlive⟩ := h.uncached k b hk
      exact ⟨hb, fun heq => hne (Option.some.inj heq).symm, hlive⟩
  marker k n hk := by
    rcases eq_or_ne k s with rfl | hne
    · rw [AList.lookup_insert, Option.some.injEq, Cell.inCache.injEq] at hk
      exact ⟨⟨a, (h.uncached k a hs).1, hk⟩, .inl rfl⟩
    · rw [AList.lookup_insert_ne hne] at hk
      obtain ⟨hlen, hand | hlive⟩ := h.marker k n hk
      · cases hand
      · exact ⟨hlen, .inr hlive⟩
  complete k b hk := by
    rcases eq_or_ne k s with rfl | hne
    · exact .inl rfl
    · rw [AList.lookup_insert_ne hne]
      exact .inr ((h.complete k b hk).resolve_left nofun)
  held k hk i hi := by
    obtain rfl := Option.some.inj hk
    exact (h.uncached _ a hs).2.2 i hi

theorem victim_insertIntoCache (m : WireMap) (s : ℕ) (a : Allocation) :
    (m.insertIntoCache s a).cacheStarts m.victim = s ∧
      (m.insertIntoCache s a).cachedAllocations m.victim = a :=
  ⟨Function.update_self _ _ _, Function.update_self _ _ _⟩

theorem other_insertIntoCache (m : WireMap) (s : ℕ) (a : Allocation) {i : Fin 4}
    (hi : i ≠ m.victim) :
    (m.insertIntoCache s a).cacheStarts i = m.cacheStarts i ∧
      (m.insertIntoCache s a).cachedAllocations i = m.cachedAllocations i :=
  ⟨Function.update_of_ne hi _ _, Function.update_of_ne hi _ _⟩

theorem live_other (m : WireMap) (s : ℕ) (a : Allocation) {i : Fin 4} (hi : i ≠ m.victim) :
    (m.insertIntoCache s a).Live i ↔ m.Live i := by
  unfold Live
  rw [(other_insertIntoCache m s a hi).2]

theorem lookup_insertIntoCache (m : WireMap) (s : ℕ) (a : Allocation) (k : ℕ) :
    (m.insertIntoCache s a).storage.lookup k =
      if m.Live m.victim ∧ k = m.cacheStarts m.victim then
        some (.uncached (m.cachedAllocations m.victim))
      else m.storage.lookup k := by
  show (if m.Live m.victim then m.storage.insert _ _ else m.storage).lookup k = _
  by_cases hlive : m.Live m.victim
  · rw [if_pos hlive]
    rcases eq_or_ne k (m.cacheStarts m.victim) with rfl | hk
    · rw [AList.lookup_insert, if_pos ⟨hlive, rfl⟩]
    · rw [AList.lookup_insert_ne hk, if_neg fun h => hk h.2]
  · rw [if_neg hlive, if_neg fun h => hlive h.1]

theorem insertIntoCache {s : ℕ} (h : m.Represents t (some s)) {a : Allocation}
    (ha : t.entries s = some a) : (m.insertIntoCache s a).Represents t none := by
  obtain ⟨hstart, halloc⟩ := victim_insertIntoCache m s a
  have hlive : (m.insertIntoCache s a).Live m.victim := by
    unfold Live
    rw [halloc]
    exact t.pos s a ha
  have hheld := h.held s rfl
  have hpos := t.pos s a ha
  have hshort := t.short s a ha
  have hfits := t.fits s a ha
  constructor
  case packed =>
    intro i
    show Function.update m.cacheLensAndLastUseds m.victim _ i / 2 ^ 16 =
      (Function.update m.cachedAllocations m.victim a i).len
    rcases eq_or_ne i m.victim with rfl | hi
    · rw [Function.update_self, Function.update_self]
      omega
    · rw [Function.update_of_ne hi, Function.update_of_ne hi]
      exact h.packed i
  case cached =>
    intro i hi
    rcases eq_or_ne i m.victim with rfl | hne
    · rw [hstart, halloc, ha]
    · rw [(other_insertIntoCache m s a hne).1, (other_insertIntoCache m s a hne).2]
      exact h.cached i ((live_other m s a hne).1 hi)
  case injective =>
    intro i j hi hj hij
    rcases eq_or_ne i m.victim with rfl | hi' <;> rcases eq_or_ne j m.victim with rfl | hj'
    · rfl
    · rw [hstart, (other_insertIntoCache m s a hj').1] at hij
      exact absurd hij.symm (hheld j ((live_other m s a hj').1 hj))
    · rw [hstart, (other_insertIntoCache m s a hi').1] at hij
      exact absurd hij (hheld i ((live_other m s a hi').1 hi))
    · rw [(other_insertIntoCache m s a hi').1, (other_insertIntoCache m s a hj').1] at hij
      exact h.injective i j ((live_other m s a hi').1 hi) ((live_other m s a hj').1 hj) hij
  case uncached =>
    intro k b hk
    rw [lookup_insertIntoCache] at hk
    split at hk
    · rename_i hevicted
      obtain ⟨hv, rfl⟩ := hevicted
      obtain rfl := Cell.uncached.inj (Option.some.inj hk)
      refine ⟨h.cached _ hv, nofun, fun i hi => ?_⟩
      rcases eq_or_ne i m.victim with rfl | hne
      · rw [hstart]
        exact (hheld m.victim hv).symm
      · rw [(other_insertIntoCache m s a hne).1]
        exact fun heq => hne (h.injective i _ ((live_other m s a hne).1 hi) hv heq)
    · obtain ⟨hb, hhand, hold⟩ := h.uncached k b hk
      refine ⟨hb, nofun, fun i hi => ?_⟩
      rcases eq_or_ne i m.victim with rfl | hne
      · rw [hstart]
        exact fun heq => hhand (congrArg some heq)
      · rw [(other_insertIntoCache m s a hne).1]
        exact hold i ((live_other m s a hne).1 hi)
  case marker =>
    intro k n hk
    rw [lookup_insertIntoCache] at hk
    split at hk
    · cases hk
    · rename_i hkept
      obtain ⟨hlen, hhand | ⟨i, hi, rfl⟩⟩ := h.marker k n hk
      · obtain rfl := Option.some.inj hhand
        exact ⟨hlen, .inr ⟨m.victim, hlive, hstart⟩⟩
      · have hne : i ≠ m.victim := fun heq => hkept ⟨heq ▸ hi, heq ▸ rfl⟩
        exact ⟨hlen, .inr ⟨i, (live_other m s a hne).2 hi, (other_insertIntoCache m s a hne).1⟩⟩
  case complete =>
    intro k b hk
    right
    rw [lookup_insertIntoCache]
    rcases h.complete k b hk with hhand | ⟨i, hi, rfl⟩ | hold
    · obtain rfl := Option.some.inj hhand
      exact .inl ⟨m.victim, hlive, hstart⟩
    · rcases eq_or_ne i m.victim with rfl | hne
      · right
        rw [if_pos ⟨hi, rfl⟩, Option.some.inj ((h.cached _ hi).symm.trans hk)]
      · exact .inl ⟨i, (live_other m s a hne).2 hi, (other_insertIntoCache m s a hne).1⟩
    · right
      rw [if_neg fun hevicted => (h.uncached k b hold).2.2 _ hevicted.1 hevicted.2.symm, hold]
  case held => nofun

/-! ## Looking wires up -/

theorem floor_of_at (h : m.Represents t none) {w s : ℕ} {a : Allocation}
    (hnone : m.checkCacheForWire w = none) (hat : t.At w s a) :
    m.storage.floor w = some (s, .uncached a) := by
  have hs : m.storage.lookup s = some (.uncached a) := by
    rcases h.complete s a hat.1 with hhand | ⟨i, hi, rfl⟩ | hs
    · cases hhand
    · exact absurd hat (h.not_at_of_check_eq_none hnone hi)
    · exact hs
  cases hfloor : m.storage.floor w with
  | none =>
    have := AList.lt_of_floor_eq_none hfloor hs
    exact absurd hat.2.1 (by omega)
  | some e =>
    obtain ⟨k, cell⟩ := e
    obtain ⟨hk, hle⟩ := AList.lookup_of_floor hfloor
    have hsk := AList.le_of_floor hfloor hs hat.2.1
    obtain ⟨b, hb, -⟩ := h.stored hk
    have hkb : t.At w k b ∨ k ≠ s := by
      rcases eq_or_ne k s with rfl | hne
      · obtain rfl := Option.some.inj (hat.1.symm.trans hb)
        exact .inl hat
      · exact .inr hne
    rcases hkb with hkb | hne
    · obtain rfl := hkb.start_eq hat
      rw [Option.some.inj (hk.symm.trans hs)]
    · have := t.disjoint s k a b hat.1 hb (by omega)
      exact absurd hat.2.2 (by omega)

theorem borrowAllocationSlow (h : m.Represents t none) {w : ℕ}
    (hnone : m.checkCacheForWire w = none) :
    ∃ r m', m.borrowAllocationSlow w = some (r, m') ∧ m'.Represents t none ∧ t.Position w r := by
  by_cases hat : ∃ s a, t.At w s a
  · obtain ⟨s, a, hat⟩ := hat
    have hfloor := h.floor_of_at hnone hat
    obtain ⟨hs, hle⟩ := AList.lookup_of_floor hfloor
    refine ⟨some ⟨a, w - s⟩, _, ?_, (h.mark hs).insertIntoCache hat.1, s, hat, rfl⟩
    unfold WireMap.borrowAllocationSlow
    rw [hfloor]
    have hlt := hat.2.2
    exact if_neg (by show ¬ a.len ≤ w - s; omega)
  · push Not at hat
    refine ⟨none, m, ?_, h, hat⟩
    unfold WireMap.borrowAllocationSlow
    cases hfloor : m.storage.floor w with
    | none => rfl
    | some e =>
      obtain ⟨k, cell⟩ := e
      obtain ⟨hk, hle⟩ := AList.lookup_of_floor hfloor
      obtain ⟨b, hb, hlen⟩ := h.stored hk
      refine if_pos ?_
      by_contra hlt
      exact hat k b ⟨hb, hle, by omega⟩

theorem borrowAllocation (h : m.Represents t none) (w : ℕ) :
    ∃ r m', m.borrowAllocation w = some (r, m') ∧ m'.Represents t none ∧ t.Position w r := by
  cases hcheck : m.checkCacheForWire w with
  | none =>
    obtain ⟨r, m', heq, hr⟩ := h.borrowAllocationSlow hcheck
    refine ⟨r, m', ?_, hr⟩
    rw [WireMap.borrowAllocation, hcheck]
    exact heq
  | some i =>
    obtain ⟨-, hat⟩ := h.checkCacheForWire_eq_some hcheck
    have hposition : t.Position w (some ⟨m.cachedAllocations i, w - m.cacheStarts i⟩) :=
      ⟨m.cacheStarts i, hat, rfl⟩
    refine ⟨_, _, ?_, h.touch (m.hit w), hposition⟩
    simp only [WireMap.borrowAllocation, hcheck]

end Represents

end WireMap

end EdaBitGen.MacNCheese.WireMaps
