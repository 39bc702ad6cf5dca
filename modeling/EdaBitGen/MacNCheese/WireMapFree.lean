import EdaBitGen.MacNCheese.WireMapTable

/-!
# Freeing ranges of a wire map

What is freed before an error is gone: the call takes whole allocations out of the map one after the
other, and finds out only then that there is none at the next wire.
-/

namespace EdaBitGen.MacNCheese.WireMaps

variable {X : Type} {overflowChecks : Bool} {m : WireMap} {t : Table}

theorem add_of_lt {a b : ℕ} (h : a + b < 2 ^ 64) : add overflowChecks a b = some (a + b) :=
  if_pos h

namespace Allocation

theorem next_drop (a : Allocation) (heap : Heap X) : (a.drop heap).next = heap.next := by
  rw [drop]
  split <;> rfl

theorem next_of_insert {a : Allocation} {heap heap' : Heap X} {idx : ℕ} {value : X} {unset : Bool}
    (h : a.insert heap idx value = some (unset, heap')) : heap'.next = heap.next := by
  rw [insert] at h
  split at h
  · obtain ⟨previous, -, h⟩ := Option.bind_eq_some_iff.1 h
    obtain ⟨written, hwrite, h⟩ := Option.bind_eq_some_iff.1 h
    obtain ⟨block, -, rfl⟩ := Option.map_eq_some_iff.1 hwrite
    exact (Prod.mk.inj (Option.some.inj h)).2 ▸ rfl
  · cases h

end Allocation

theorem lt_of_add {a b c : ℕ} (hb : a + b ≤ 2 ^ 64) (h : add overflowChecks a b = some c) :
    c < 2 ^ 64 := by
  rw [add] at h
  split at h
  · rename_i hlt
    exact Option.some.inj h ▸ hlt
  · split at h
    · cases h
    · obtain rfl := Option.some.inj h
      omega

namespace WireMap

/-! ## Allocating -/

theorem ensureNoOverlap_ok {start inclusiveEnd : ℕ} {candidates : List (ℕ × ℕ)}
    (h : ensureNoOverlap overflowChecks start inclusiveEnd candidates = some (.ok ())) :
    ∀ c ∈ candidates, c.1 + c.2 ≤ 2 ^ 64 → c.2 = 0 ∨ inclusiveEnd < c.1 ∨ c.1 + c.2 ≤ start := by
  induction candidates with
  | nil => exact fun _ hc => absurd hc List.not_mem_nil
  | cons c rest ih =>
    obtain ⟨existingStart, existingLen⟩ := c
    rw [ensureNoOverlap] at h
    intro c hc hfits
    split at h
    · rename_i hskip
      rcases List.mem_cons.1 hc with rfl | hc
      · exact hskip.imp_right Or.inl
      · exact ih h c hc hfits
    · rename_i hmeets
      obtain ⟨existingEnd, hadd, h⟩ := Option.bind_eq_some_iff.1 h
      split at h
      · rename_i hbefore
        rcases List.mem_cons.1 hc with rfl | hc
        · dsimp only at hfits ⊢
          rw [add_of_lt (by omega)] at hadd
          obtain rfl := Option.some.inj hadd
          omega
        · exact ih h c hc hfits
      · cases h

/-- The check looks at the last allocation of the tree before the end of the range and at those in the
cache, and so at enough of them. -/
theorem Represents.clear (h : m.Represents t none) {start inclusiveEnd : ℕ}
    (hcheck : ensureNoOverlap overflowChecks start inclusiveEnd (m.candidates inclusiveEnd) =
      some (.ok ())) : t.Clear start inclusiveEnd := by
  have hall := ensureNoOverlap_ok hcheck
  have hcached : ∀ s a i, m.Live i → m.cacheStarts i = s → t.entries s = some a →
      inclusiveEnd < s ∨ s + a.len ≤ start := by
    rintro s a i hi rfl ha
    obtain rfl := Option.some.inj ((h.cached i hi).symm.trans ha)
    have hmem : (m.cacheStarts i, (m.cachedAllocations i).len) ∈ m.candidates inclusiveEnd :=
      List.mem_append_right _ (List.mem_map.2 ⟨i, List.mem_finRange i, rfl⟩)
    have hpos := t.pos _ _ ha
    exact (hall _ hmem (t.fits _ _ ha)).resolve_left (by dsimp only; omega)
  intro s a ha
  rcases h.complete s a ha with hhand | ⟨i, hi, his⟩ | hstored
  · cases hhand
  · exact hcached s a i hi his ha
  by_cases hs : inclusiveEnd < s
  · exact .inl hs
  right
  cases hfloor : m.storage.floor inclusiveEnd with
  | none => exact absurd (AList.lt_of_floor_eq_none hfloor hstored) hs
  | some e =>
    obtain ⟨k, cell⟩ := e
    obtain ⟨hk, hle⟩ := AList.lookup_of_floor hfloor
    have hsk := AList.le_of_floor hfloor hstored (Nat.le_of_not_lt hs)
    obtain ⟨b, hb, hlen⟩ := h.stored hk
    have hmem : (k, cell.len) ∈ m.candidates inclusiveEnd := by
      refine List.mem_append_left _ ?_
      rw [hfloor]
      exact List.mem_singleton.2 rfl
    have hpos := t.pos k b hb
    have hfits := t.fits k b hb
    have hbefore := (hall _ hmem (by dsimp only; omega)).resolve_left (by dsimp only; omega)
    dsimp only at hbefore
    rcases Nat.eq_or_lt_of_le hsk with rfl | hlt
    · obtain rfl := Option.some.inj (ha.symm.trans hb)
      omega
    · have := t.disjoint s k a b ha hb hlt
      omega

theorem Represents.take (h : m.Represents t none) {start : ℕ} {a : Allocation} (hpos : 0 < a.len)
    (hshort : a.len < 2 ^ 48) (hfits : start + a.len ≤ 2 ^ 64)
    (hclear : t.Clear start (start + (a.len - 1))) :
    m.Represents (t.insert start a hpos hshort hfits hclear) (some start) := by
  have hne : ∀ {s b}, t.entries s = some b → s ≠ start := by
    rintro s b hb rfl
    have := t.pos s b hb
    have := hclear s b hb
    omega
  have hentries : ∀ {s b}, t.entries s = some b →
      (t.insert start a hpos hshort hfits hclear).entries s = some b := fun hb =>
    (Function.update_of_ne (hne hb) _ _).trans hb
  constructor
  case packed => exact h.packed
  case cached => exact fun i hi => hentries (h.cached i hi)
  case injective => exact h.injective
  case uncached =>
    intro s b hs
    obtain ⟨hb, -, hlive⟩ := h.uncached s b hs
    exact ⟨hentries hb, fun heq => hne hb (Option.some.inj heq).symm, hlive⟩
  case marker =>
    intro s n hs
    obtain ⟨⟨b, hb, hlen⟩, hlive⟩ := h.marker s n hs
    exact ⟨⟨b, hentries hb, hlen⟩, .inr (hlive.resolve_left nofun)⟩
  case complete =>
    intro s b hs
    by_cases heq : s = start
    · exact .inl (congrArg some heq.symm)
    · have hb : t.entries s = some b := (Function.update_of_ne heq _ _).symm.trans hs
      exact .inr ((h.complete s b hb).resolve_left nofun)
  case held =>
    intro s hs i hi heq
    exact hne (h.cached i hi) (heq.trans (Option.some.inj hs).symm)

theorem allocFromAllocation_represents (h : m.Represents t none) {start : ℕ} {a : Allocation}
    {r : Except Error Unit} {m' : WireMap}
    (hr : m.allocFromAllocation overflowChecks start a = some (r, m')) :
    ∃ t', m'.Represents t' none ∧
      ∀ s b, t'.entries s = some b → t.entries s = some b ∨ s = start ∧ b = a := by
  rw [allocFromAllocation] at hr
  split at hr
  · rename_i hlen
    obtain ⟨inclusiveEnd, hadd, hr⟩ := Option.bind_eq_some_iff.1 hr
    obtain ⟨check, hcheck, hr⟩ := Option.bind_eq_some_iff.1 hr
    cases check with
    | error e =>
      obtain ⟨rfl, rfl⟩ := Prod.mk.inj (Option.some.inj hr)
      exact ⟨t, h, fun s b hb => .inl hb⟩
    | ok u =>
      obtain ⟨rfl, rfl⟩ := Prod.mk.inj (Option.some.inj hr)
      rw [checkedAdd] at hadd
      split at hadd
      · rename_i hlt
        obtain rfl := Option.some.inj hadd
        refine ⟨_, (h.take (Nat.pos_of_ne_zero hlen.1) hlen.2 (by omega)
          (h.clear hcheck)).insertIntoCache (Function.update_self _ _ _), fun s b hb => ?_⟩
        rcases eq_or_ne s start with rfl | hs
        · exact .inr ⟨rfl, (Option.some.inj ((Function.update_self s _ _).symm.trans hb)).symm⟩
        · exact .inl ((Function.update_of_ne hs _ _).symm.trans hb)
      · cases hadd
  · cases hr

/-! ## Freeing one allocation -/

/-- The cells of the cache that are in use and the entries of the tree. -/
def size (m : WireMap) : ℕ := m.storage.keys.length + (Finset.univ.filter m.Live).card

theorem size_lt (m : WireMap) : m.size < m.storage.keys.length + 5 := by
  have := Finset.card_le_univ (Finset.univ.filter m.Live)
  rw [Fintype.card_fin] at this
  unfold size
  omega

/-- A map without what starts at a wire. -/
structure Without (m m' : WireMap) (start : ℕ) : Prop where
  storage : m'.storage = m.storage.erase start
  cacheStarts : m'.cacheStarts = m.cacheStarts
  packed : ∀ i, m'.cacheLensAndLastUseds i / 2 ^ 16 = (m'.cachedAllocations i).len
  live : ∀ i, m'.Live i ↔ m.Live i ∧ m.cacheStarts i ≠ start
  same : ∀ i, m'.Live i → m'.cachedAllocations i = m.cachedAllocations i

theorem Represents.without (h : m.Represents t none) {m' : WireMap} {start : ℕ}
    (hm : m.Without m' start) : m'.Represents (t.remove (· = start)) none := by
  have hentries : ∀ {s a}, s ≠ start → t.entries s = some a →
      (t.remove (· = start)).entries s = some a := fun hs ha => Table.remove_entries.2 ⟨hs, ha⟩
  have hlookup : ∀ {s cell}, m'.storage.lookup s = some cell →
      s ≠ start ∧ m.storage.lookup s = some cell := by
    intro s cell hs
    rw [hm.storage] at hs
    have hne : s ≠ start := by
      rintro rfl
      rw [AList.lookup_erase] at hs
      cases hs
    rw [AList.lookup_erase_ne hne] at hs
    exact ⟨hne, hs⟩
  constructor
  case packed => exact hm.packed
  case cached =>
    intro i hi
    obtain ⟨hlive, hne⟩ := (hm.live i).1 hi
    rw [hm.cacheStarts, hm.same i hi]
    exact hentries hne (h.cached i hlive)
  case injective =>
    intro i j hi hj hij
    rw [hm.cacheStarts] at hij
    exact h.injective i j ((hm.live i).1 hi).1 ((hm.live j).1 hj).1 hij
  case uncached =>
    intro s a hs
    obtain ⟨hne, hs⟩ := hlookup hs
    obtain ⟨ha, -, hlive⟩ := h.uncached s a hs
    refine ⟨hentries hne ha, nofun, fun i hi => ?_⟩
    rw [hm.cacheStarts]
    exact hlive i ((hm.live i).1 hi).1
  case marker =>
    intro s n hs
    obtain ⟨hne, hs⟩ := hlookup hs
    obtain ⟨⟨a, ha, hlen⟩, hlive⟩ := h.marker s n hs
    obtain ⟨i, hi, his⟩ := hlive.resolve_left nofun
    exact ⟨⟨a, hentries hne ha, hlen⟩, .inr ⟨i, (hm.live i).2 ⟨hi, his ▸ hne⟩, by
      rw [hm.cacheStarts, his]⟩⟩
  case complete =>
    intro s a hs
    obtain ⟨hne, ha⟩ := Table.remove_entries.1 hs
    right
    rcases (h.complete s a ha).resolve_left nofun with ⟨i, hi, his⟩ | hstored
    · exact .inl ⟨i, (hm.live i).2 ⟨hi, his ▸ hne⟩, by rw [hm.cacheStarts, his]⟩
    · right
      rw [hm.storage, AList.lookup_erase_ne hne, hstored]
  case held => nofun

theorem length_erase_le (start : ℕ) : (m.storage.erase start).keys.length ≤ m.storage.keys.length := by
  rw [AList.keys_erase]
  exact List.length_erase_le

theorem length_erase_lt {start : ℕ} {cell : Cell} (h : m.storage.lookup start = some cell) :
    (m.storage.erase start).keys.length < m.storage.keys.length := by
  have hmem : start ∈ m.storage.keys := AList.lookup_isSome.1 (h ▸ rfl)
  rw [AList.keys_erase, List.length_erase_of_mem hmem]
  exact Nat.sub_lt (List.length_pos_of_mem hmem) Nat.one_pos

theorem Without.live_subset {m' : WireMap} {start : ℕ} (hm : m.Without m' start) :
    Finset.univ.filter m'.Live ⊆ Finset.univ.filter m.Live := by
  intro i hi
  rw [Finset.mem_filter] at hi ⊢
  exact ⟨hi.1, ((hm.live i).1 hi.2).1⟩

theorem Without.size_lt {m' : WireMap} {start : ℕ} (hm : m.Without m' start)
    (h : (∃ i, m.Live i ∧ m.cacheStarts i = start) ∨ ∃ cell, m.storage.lookup start = some cell) :
    m'.size < m.size := by
  have hle := Finset.card_le_card hm.live_subset
  have hle' := length_erase_le (m := m) start
  unfold size
  rw [hm.storage]
  rcases h with ⟨i, hi, his⟩ | ⟨cell, hcell⟩
  · have hlt : (Finset.univ.filter m'.Live).card < (Finset.univ.filter m.Live).card := by
      refine Finset.card_lt_card ⟨hm.live_subset, fun hsub => ?_⟩
      have hmem := hsub (Finset.mem_filter.2 ⟨Finset.mem_univ i, hi⟩)
      exact ((hm.live i).1 (Finset.mem_filter.1 hmem).2).2 his
    omega
  · have := length_erase_lt hcell
    omega

/-- The map after an allocation in the cache is freed, with its marker. -/
def freedCached (m : WireMap) (idx : Fin 4) (start : ℕ) : WireMap :=
  { storage := m.storage.erase start
    cacheStarts := m.cacheStarts
    cacheLensAndLastUseds := Function.update m.cacheLensAndLastUseds idx emptyAgeAndLastUsed
    cachedAllocations := Function.update m.cachedAllocations idx .default }

theorem Represents.without_freedCached (h : m.Represents t none) {idx : Fin 4}
    (hidx : m.Live idx) : m.Without (m.freedCached idx (m.cacheStarts idx)) (m.cacheStarts idx) := by
  have hidle : ¬ (m.freedCached idx (m.cacheStarts idx)).Live idx := by
    show ¬ 0 < (Function.update m.cachedAllocations idx .default idx).len
    rw [Function.update_self]
    exact Nat.lt_irrefl 0
  have hother : ∀ i, i ≠ idx → (m.freedCached idx (m.cacheStarts idx)).cachedAllocations i =
      m.cachedAllocations i := fun i hi => Function.update_of_ne hi _ _
  constructor
  case storage => rfl
  case cacheStarts => rfl
  case packed =>
    intro i
    by_cases hi : i = idx
    · subst hi
      show Function.update m.cacheLensAndLastUseds i emptyAgeAndLastUsed i / 2 ^ 16 =
        (Function.update m.cachedAllocations i .default i).len
      rw [Function.update_self, Function.update_self]
      decide
    · rw [hother i hi, ← h.packed i]
      exact congrArg (· / 2 ^ 16) (Function.update_of_ne hi _ _)
  case live =>
    intro i
    by_cases hi : i = idx
    · subst hi
      exact iff_of_false hidle fun hlive => hlive.2 rfl
    · have hiff : (m.freedCached idx (m.cacheStarts idx)).Live i ↔ m.Live i := by
        unfold Live
        rw [hother i hi]
      rw [hiff]
      exact ⟨fun hlive => ⟨hlive, fun heq => hi (h.injective i idx hlive hidx heq)⟩, And.left⟩
  case same =>
    intro i hlive
    exact hother i fun hi => hidle (hi ▸ hlive)

theorem Represents.without_erase (h : m.Represents t none) {start : ℕ}
    (hlive : ∀ i, m.Live i → m.cacheStarts i ≠ start) :
    m.Without { m with storage := m.storage.erase start } start where
  storage := rfl
  cacheStarts := rfl
  packed := h.packed
  live i := ⟨fun hi => ⟨hi, hlive i hi⟩, And.left⟩
  same _ _ := rfl

theorem erase_of_lookup_eq_none {start : ℕ} (h : m.storage.lookup start = none) :
    m.storage.erase start = m.storage := by
  have hnot : start ∉ m.storage.keys := by
    rw [← AList.mem_keys, ← AList.lookup_isSome, h]
    exact Bool.false_ne_true
  exact AList.ext (List.kerase_of_notMem_keys hnot)

variable (overflowChecks) in
theorem Represents.freeAllocation_ok (h : m.Represents t none) (heap : Heap X)
    {start inclusiveEnd : ℕ} {a : Allocation} (ha : t.entries start = some a)
    (hend : start + a.len ≤ inclusiveEnd + 1) :
    ∃ m', m.freeAllocation overflowChecks heap start inclusiveEnd =
        some (.ok a.len, m', a.drop heap) ∧
      m'.Represents (t.remove (· = start)) none ∧ m'.size < m.size := by
  have hpos := t.pos start a ha
  have hfits := t.fits start a ha
  have hadd : add overflowChecks start (a.len - 1) = some (start + (a.len - 1)) :=
    add_of_lt (by omega)
  rcases (h.complete start a ha).resolve_left nofun with ⟨idx, hidx, rfl⟩ | hstored
  · -- in the cache, perhaps with a marker in the tree
    have hcheck := h.checkCacheForWire_of_live hidx (Table.at_self ha)
    obtain rfl := Option.some.inj ((h.cached idx hidx).symm.trans ha)
    have hm := h.without_freedCached hidx
    refine ⟨m.freedCached idx (m.cacheStarts idx), ?_, h.without hm,
      hm.size_lt (.inl ⟨idx, hidx, rfl⟩)⟩
    have hcached : m.freeCached overflowChecks heap (m.cacheStarts idx) inclusiveEnd =
        some (.ok (some (m.cachedAllocations idx).len),
          { m.freedCached idx (m.cacheStarts idx) with storage := m.storage },
          (m.cachedAllocations idx).drop heap) := by
      simp only [freeCached, hcheck, if_pos, hadd, Option.bind_eq_bind, Option.bind_some]
      exact if_pos (by omega)
    rw [freeAllocation, hcached]
    rw [Option.bind_eq_bind, Option.bind_some]
    dsimp only
    rw [freeStored]
    dsimp only
    cases hlookup : m.storage.lookup (m.cacheStarts idx) with
    | none =>
      dsimp only
      rw [freedCached, erase_of_lookup_eq_none hlookup]
    | some cell =>
      cases cell with
      | uncached b => exact absurd rfl ((h.uncached _ b hlookup).2.2 idx hidx)
      | inCache n =>
        obtain ⟨⟨b, hb, rfl⟩, -⟩ := h.marker _ n hlookup
        obtain rfl := Option.some.inj (hb.symm.trans ha)
        dsimp only [Cell.len]
        rw [hadd]
        exact if_neg (by omega)
  · -- in the tree only
    have hlive := (h.uncached start a hstored).2.2
    have hcheck : m.checkCacheForWire start = none := by
      cases hcheck : m.checkCacheForWire start with
      | none => rfl
      | some i =>
        obtain ⟨hi, hat⟩ := h.checkCacheForWire_eq_some hcheck
        exact absurd (hat.start_eq (Table.at_self ha)) (hlive i hi)
    have hm := h.without_erase hlive
    refine ⟨{ m with storage := m.storage.erase start }, ?_, h.without hm,
      hm.size_lt (.inr ⟨_, hstored⟩)⟩
    rw [freeAllocation, freeCached, hcheck]
    show freeStored overflowChecks m heap start inclusiveEnd none = _
    rw [freeStored, hstored]
    dsimp only [Cell.len]
    rw [hadd]
    exact if_neg (by omega)

variable (overflowChecks) in
/-- Without an allocation at the wire and within the range there is an error, and nothing changes. -/
theorem Represents.freeAllocation_error (h : m.Represents t none) (heap : Heap X)
    {start inclusiveEnd : ℕ}
    (hnot : ∀ a, t.entries start = some a → inclusiveEnd + 1 < start + a.len) :
    ∃ e, m.freeAllocation overflowChecks heap start inclusiveEnd = some (.error e, m, heap) := by
  rw [freeAllocation, freeCached]
  cases hcheck : m.checkCacheForWire start with
  | some idx =>
    obtain ⟨hidx, hat⟩ := h.checkCacheForWire_eq_some hcheck
    dsimp only
    by_cases heq : m.cacheStarts idx = start
    · have ha := heq ▸ h.cached idx hidx
      have hlt := hnot _ ha
      have hpos := t.pos _ _ ha
      have hfits := t.fits _ _ ha
      rw [if_pos heq, heq, add_of_lt (by omega)]
      refine ⟨.extendsPast start (start + ((m.cachedAllocations idx).len - 1)) inclusiveEnd, ?_⟩
      show (ite _ _ _ : Option (Except Error (Option ℕ) × WireMap × Heap X)).bind _ = _
      rw [if_neg (by omega)]
      rfl
    · rw [if_neg heq]
      exact ⟨_, rfl⟩
  | none =>
    show ∃ e, freeStored overflowChecks m heap start inclusiveEnd none = _
    rw [freeStored]
    cases hlookup : m.storage.lookup start with
    | none => exact ⟨_, rfl⟩
    | some cell =>
      obtain ⟨a, ha, hlen⟩ := h.stored hlookup
      have hlt := hnot a ha
      have hpos := t.pos start a ha
      have hfits := t.fits start a ha
      dsimp only
      rw [← hlen, add_of_lt (by omega)]
      exact ⟨_, if_pos (by omega)⟩

end WireMap

/-! ## Freeing a range -/

namespace Table

/-- Whole allocations have the wires of the range and no others. -/
def Covers (t : Table) (start inclusiveEnd : ℕ) : Prop :=
  ∀ wire, start ≤ wire → wire ≤ inclusiveEnd →
    ∃ s a, t.At wire s a ∧ start ≤ s ∧ s + a.len ≤ inclusiveEnd + 1

/-- No allocations but those of another table. -/
def Sub (t' t : Table) : Prop := ∀ s a, t'.entries s = some a → t.entries s = some a

theorem Sub.remove {t' : Table} {start : ℕ} (h : t'.Sub (t.remove (· = start))) :
    t'.Sub t ∧ t'.entries start = none := by
  refine ⟨fun s a hs => (remove_entries.1 (h s a hs)).2, ?_⟩
  cases hstart : t'.entries start with
  | none => rfl
  | some a => exact absurd rfl (remove_entries.1 (h start a hstart)).1

/-- At most one allocation is new, on a new block. -/
def Grows (t : Table) (heap : Heap X) (t' : Table) (heap' : Heap X) : Prop :=
  heap.next ≤ heap'.next ∧ ∃ start, ∀ s a, t'.entries s = some a → t.entries s = some a ∨
    s = start ∧ a.base = heap.next ∧ heap.next < heap'.next

theorem Sub.grows {t' : Table} {heap heap' : Heap X} (h : t'.Sub t) (hnext : heap'.next = heap.next) :
    t.Grows heap t' heap' :=
  ⟨hnext.ge, 0, fun s a hs => .inl (h s a hs)⟩

theorem Grows.refl {heap heap' : Heap X} (hnext : heap'.next = heap.next) :
    t.Grows heap t heap' :=
  Sub.grows (fun _ _ hs => hs) hnext

theorem Grows.new {t' : Table} {heap heap' : Heap X} {start len : ℕ}
    (hnext : heap'.next = (Allocation.newOwned heap len).2.next)
    (h : ∀ s b, t'.entries s = some b → t.entries s = some b ∨
      s = start ∧ b = (Allocation.newOwned heap len).1) : t.Grows heap t' heap' := by
  have hlt : heap.next < heap'.next := hnext ▸ Nat.lt_succ_self _
  refine ⟨hlt.le, start, fun s b hb => (h s b hb).imp_right ?_⟩
  rintro ⟨rfl, rfl⟩
  exact ⟨rfl, rfl, hlt⟩

theorem Covers.first {start inclusiveEnd : ℕ} (h : t.Covers start inclusiveEnd)
    (hle : start ≤ inclusiveEnd) :
    ∃ a, t.entries start = some a ∧ start + a.len ≤ inclusiveEnd + 1 := by
  obtain ⟨s, a, ⟨ha, hs, -⟩, hstart, hend⟩ := h start le_rfl hle
  obtain rfl := Nat.le_antisymm hs hstart
  exact ⟨a, ha, hend⟩

variable {start inclusiveEnd : ℕ} {a : Allocation}

theorem Covers.rest (h : t.Covers start inclusiveEnd) (ha : t.entries start = some a) :
    (t.remove (· = start)).Covers (start + a.len) inclusiveEnd := by
  intro wire hwire hle
  obtain ⟨s, b, ⟨hb, hs, hlt⟩, hstart, hend⟩ := h wire (by omega) hle
  rcases Nat.eq_or_lt_of_le hstart with rfl | hstart
  · obtain rfl := Option.some.inj (ha.symm.trans hb)
    omega
  · have hbehind := t.disjoint start s a b ha hb hstart
    exact ⟨s, b, ⟨remove_entries.2 ⟨(Nat.ne_of_lt hstart).symm, hb⟩, hs, hlt⟩, hbehind, hend⟩

theorem Covers.of_rest (ha : t.entries start = some a) (hend : start + a.len ≤ inclusiveEnd + 1)
    (h : (t.remove (· = start)).Covers (start + a.len) inclusiveEnd) :
    t.Covers start inclusiveEnd := by
  intro wire hwire hle
  by_cases hlt : wire < start + a.len
  · exact ⟨start, a, ⟨ha, hwire, hlt⟩, le_rfl, hend⟩
  · obtain ⟨s, b, ⟨hb, hs, hlt'⟩, hstart, hend'⟩ := h wire (Nat.le_of_not_lt hlt) hle
    exact ⟨s, b, ⟨(remove_entries.1 hb).2, hs, hlt'⟩, by omega, hend'⟩

theorem covers_of_lt (h : inclusiveEnd < start) : t.Covers start inclusiveEnd :=
  fun _ hwire hle => absurd (hwire.trans hle) (Nat.not_le_of_lt h)

end Table

namespace WireMap

theorem add_eq_none {a b : ℕ} (h : add overflowChecks a b = none) :
    overflowChecks = true ∧ 2 ^ 64 ≤ a + b := by
  rw [add] at h
  split at h
  · cases h
  · rename_i hlt
    split at h
    · rename_i hchecks
      exact ⟨hchecks, Nat.le_of_not_lt hlt⟩
    · cases h

theorem freeLoop_step {inclusiveEnd fuel currStart len : ℕ} {heap heap' : Heap X} {m' : WireMap}
    (hle : currStart ≤ inclusiveEnd)
    (hstep : m.freeAllocation overflowChecks heap currStart inclusiveEnd =
      some (.ok len, m', heap')) :
    freeLoop overflowChecks inclusiveEnd (fuel + 1) m heap currStart =
      (add overflowChecks currStart len).bind
        (freeLoop overflowChecks inclusiveEnd fuel m' heap') := by
  rw [freeLoop, if_pos hle, hstep]
  rfl

theorem freeLoop_error {inclusiveEnd fuel currStart : ℕ} {heap : Heap X} {e : Error}
    (hle : currStart ≤ inclusiveEnd)
    (hstep : m.freeAllocation overflowChecks heap currStart inclusiveEnd =
      some (.error e, m, heap)) :
    freeLoop overflowChecks inclusiveEnd (fuel + 1) m heap currStart =
      some (.error e, m, heap) := by
  rw [freeLoop, if_pos hle, hstep]
  rfl

theorem freeLoop_done {inclusiveEnd fuel currStart : ℕ} {heap : Heap X}
    (hlt : inclusiveEnd < currStart) :
    freeLoop overflowChecks inclusiveEnd (fuel + 1) m heap currStart =
      some (.ok currStart, m, heap) := by
  rw [freeLoop, if_neg (Nat.not_le_of_lt hlt)]

variable (overflowChecks) in
/-- The loop ends with an error or behind the range, or an overflow at the end of the range panics.
The induction is on the number of rounds that are left, which covers what the map has. -/
theorem Represents.freeLoop_spec {inclusiveEnd : ℕ} (he : inclusiveEnd < 2 ^ 64) (fuel : ℕ)
    (h : m.Represents t none) (hsize : m.size < fuel) (heap : Heap X) {currStart : ℕ}
    (hcurr : currStart < 2 ^ 64) :
    (∃ e m' heap' t', freeLoop overflowChecks inclusiveEnd fuel m heap currStart =
        some (.error e, m', heap') ∧ m'.Represents t' none ∧ t'.Sub t ∧ heap'.next = heap.next) ∨
    (∃ c m' heap' t', freeLoop overflowChecks inclusiveEnd fuel m heap currStart =
        some (.ok c, m', heap') ∧ (m'.Represents t' none ∧ t'.Sub t ∧ heap'.next = heap.next) ∧
          inclusiveEnd < c ∧ c < 2 ^ 64 ∧ t.Covers currStart inclusiveEnd) ∨
    (freeLoop overflowChecks inclusiveEnd fuel m heap currStart = none ∧
      overflowChecks = true ∧ inclusiveEnd + 1 = 2 ^ 64 ∧ t.Covers currStart inclusiveEnd) := by
  induction fuel generalizing m t heap currStart with
  | zero => exact absurd hsize (Nat.not_lt_zero _)
  | succ fuel ih =>
    by_cases hle : inclusiveEnd < currStart
    · exact .inr (.inl ⟨currStart, m, heap, t, freeLoop_done hle, ⟨h, fun _ _ hs => hs, rfl⟩, hle,
        hcurr, Table.covers_of_lt hle⟩)
    have hle := Nat.le_of_not_lt hle
    by_cases hfirst : ∃ a, t.entries currStart = some a ∧ currStart + a.len ≤ inclusiveEnd + 1
    · obtain ⟨a, ha, hend⟩ := hfirst
      obtain ⟨m', hstep, h', hlt⟩ := h.freeAllocation_ok overflowChecks heap ha hend
      rw [freeLoop_step hle hstep]
      cases hadd : add overflowChecks currStart a.len with
      | none =>
        obtain ⟨hchecks, hover⟩ := add_eq_none hadd
        exact .inr (.inr ⟨rfl, hchecks, by omega,
          .of_rest ha hend (Table.covers_of_lt (by omega))⟩)
      | some c =>
        rw [Option.bind_some]
        rcases ih h' (by omega) (a.drop heap) (lt_of_add (t.fits _ _ ha) hadd) with
          ⟨e, m'', heap'', t', hloop, hrep, hsub, hnext⟩ |
            ⟨c', m'', heap'', t', hloop, ⟨hrep, hsub, hnext⟩, hbehind, hc', hcovers⟩ |
              ⟨hloop, hchecks, htop, hcovers⟩
        · exact .inl ⟨e, m'', heap'', t', hloop, hrep, hsub.remove.1,
            hnext.trans (a.next_drop heap)⟩
        · -- the range ends before the last wire, so there was no wrapping
          rw [add_of_lt (by omega)] at hadd
          obtain rfl := Option.some.inj hadd
          exact .inr (.inl ⟨c', m'', heap'', t', hloop,
            ⟨hrep, hsub.remove.1, hnext.trans (a.next_drop heap)⟩, hbehind, hc',
            .of_rest ha hend hcovers⟩)
        · have hc : c = currStart + a.len := by
            rw [add, hchecks] at hadd
            split at hadd
            · exact (Option.some.inj hadd).symm
            · cases hadd
          exact .inr (.inr ⟨hloop, hchecks, htop, .of_rest ha hend (hc ▸ hcovers)⟩)
    · obtain ⟨e, hstep⟩ := h.freeAllocation_error overflowChecks heap fun a ha =>
        Nat.lt_of_not_le fun hend => hfirst ⟨a, ha, hend⟩
      exact .inl ⟨e, m, heap, t, freeLoop_error hle hstep, h, fun _ _ hs => hs, rfl⟩

variable (overflowChecks) in
theorem Represents.freeLoop_covered {inclusiveEnd : ℕ} (fuel : ℕ) (h : m.Represents t none)
    (hsize : m.size < fuel) (heap : Heap X) {currStart : ℕ} (hcurr : currStart ≤ inclusiveEnd + 1)
    (hcovers : t.Covers currStart inclusiveEnd)
    (hend : overflowChecks = true ∨ inclusiveEnd + 1 < 2 ^ 64) :
    freeLoop overflowChecks inclusiveEnd fuel m heap currStart = none ∨
      ∃ m' heap', freeLoop overflowChecks inclusiveEnd fuel m heap currStart =
        some (.ok (inclusiveEnd + 1), m', heap') := by
  induction fuel generalizing m t heap currStart with
  | zero => exact absurd hsize (Nat.not_lt_zero _)
  | succ fuel ih =>
    by_cases hle : inclusiveEnd < currStart
    · obtain rfl := Nat.le_antisymm hcurr hle
      exact .inr ⟨m, heap, freeLoop_done hle⟩
    have hle := Nat.le_of_not_lt hle
    obtain ⟨a, ha, hwithin⟩ := hcovers.first hle
    obtain ⟨m', hstep, h', hlt⟩ := h.freeAllocation_ok overflowChecks heap ha hwithin
    rw [freeLoop_step hle hstep]
    cases hadd : add overflowChecks currStart a.len with
    | none => exact .inl rfl
    | some c =>
      have hc : c = currStart + a.len := by
        rw [add] at hadd
        split at hadd
        · exact (Option.some.inj hadd).symm
        · rcases hend with rfl | hend
          · cases hadd
          · omega
      subst hc
      exact ih h' (by omega) (a.drop heap) hwithin (hcovers.rest ha)

/-! ## Reachable maps -/

/-- The maps that calls and children give, whatever is on the heap in between. -/
inductive Reachable (overflowChecks : Bool) (X : Type) : WireMap → Prop
  | new : Reachable overflowChecks X .new
  | alloc {m m' : WireMap} {heap heap' : Heap X} {start inclusiveEnd : ℕ} {r : Except Error Unit} :
    Reachable overflowChecks X m →
      m.alloc overflowChecks heap start inclusiveEnd = some (r, m', heap') →
        Reachable overflowChecks X m'
  | allocRangeIfUnallocated {m m' : WireMap} {heap heap' : Heap X} {start inclusiveEnd : ℕ}
      {r : Except Error Unit} : Reachable overflowChecks X m →
      m.allocRangeIfUnallocated overflowChecks heap start inclusiveEnd = some (r, m', heap') →
        Reachable overflowChecks X m'
  | free {m m' : WireMap} {heap heap' : Heap X} {start inclusiveEnd : ℕ} {r : Except Error Unit} :
    Reachable overflowChecks X m → start < 2 ^ 64 → inclusiveEnd < 2 ^ 64 →
      m.free overflowChecks heap start inclusiveEnd = some (r, m', heap') →
        Reachable overflowChecks X m'
  | get {m m' : WireMap} {heap heap' : Heap X} {wire : ℕ} {r : Except WireNotFound X} :
    Reachable overflowChecks X m → m.get heap wire = some (r, m', heap') →
      Reachable overflowChecks X m'
  | getMut {m m' : WireMap} {heap heap' : Heap X} {wire : ℕ} {f : X → X}
      {r : Except WireNotFound X} : Reachable overflowChecks X m →
      m.getMut heap wire f = some (r, m', heap') → Reachable overflowChecks X m'
  | insert {m m' : WireMap} {heap heap' : Heap X} {wire : ℕ} {value : X} {r : InsertResult X} :
    Reachable overflowChecks X m → m.insert heap wire value = some (r, m', heap') →
      Reachable overflowChecks X m'
  | borrowChild {m child : WireMap} {mutableRanges immutableRanges : List DestinationRange} :
    Reachable overflowChecks X m →
      m.borrowChild overflowChecks mutableRanges immutableRanges = some (.ok child) →
        Reachable overflowChecks X child

/-- Some table's map. -/
def Valid (m : WireMap) : Prop := ∃ t, m.Represents t none

theorem state_inj {R : Type} {r r' : R} {m₁ m₂ : WireMap} {heap₁ heap₂ : Heap X}
    (h : some (r, m₁, heap₁) = some (r', m₂, heap₂)) : m₁ = m₂ ∧ heap₁ = heap₂ := by
  obtain ⟨-, h⟩ := Prod.mk.inj (Option.some.inj h)
  exact Prod.mk.inj h

namespace Represents

theorem of_borrowAllocation (h : m.Represents t none) {wire : ℕ} {r : Option WirePosition}
    {m' : WireMap} (hr : m.borrowAllocation wire = some (r, m')) :
    m'.Represents t none ∧ t.Position wire r := by
  obtain ⟨r', m'', heq, hm⟩ := h.borrowAllocation wire
  obtain ⟨rfl, rfl⟩ := Prod.mk.inj (Option.some.inj (heq.symm.trans hr))
  exact hm

theorem of_alloc (h : m.Represents t none) {heap heap' : Heap X} {start inclusiveEnd : ℕ}
    {r : Except Error Unit} {m' : WireMap}
    (hr : m.alloc overflowChecks heap start inclusiveEnd = some (r, m', heap')) :
    ∃ t', m'.Represents t' none ∧ t.Grows heap t' heap' := by
  rw [WireMap.alloc] at hr
  split at hr
  · obtain ⟨len, -, hr⟩ := Option.bind_eq_some_iff.1 hr
    obtain ⟨⟨result, m''⟩, halloc, hr⟩ := Option.bind_eq_some_iff.1 hr
    obtain ⟨t', hm, hentries⟩ := allocFromAllocation_represents h halloc
    cases result with
    | error e =>
      obtain ⟨rfl, rfl⟩ := state_inj hr
      exact ⟨t', hm, .new (Allocation.next_drop _ _) hentries⟩
    | ok u =>
      obtain ⟨rfl, rfl⟩ := state_inj hr
      exact ⟨t', hm, .new rfl hentries⟩
  · obtain ⟨rfl, rfl⟩ := state_inj hr
    exact ⟨t, h, .refl rfl⟩

theorem of_allocRangeIfUnallocated (h : m.Represents t none) {heap heap' : Heap X}
    {start inclusiveEnd : ℕ} {r : Except Error Unit} {m' : WireMap}
    (hr : m.allocRangeIfUnallocated overflowChecks heap start inclusiveEnd = some (r, m', heap')) :
    ∃ t', m'.Represents t' none ∧ t.Grows heap t' heap' := by
  rw [WireMap.allocRangeIfUnallocated] at hr
  split at hr
  · obtain ⟨len, -, hr⟩ := Option.bind_eq_some_iff.1 hr
    obtain ⟨⟨position, m''⟩, hborrow, hr⟩ := Option.bind_eq_some_iff.1 hr
    obtain ⟨hm, -⟩ := h.of_borrowAllocation hborrow
    cases position with
    | none => exact hm.of_alloc hr
    | some wp =>
      dsimp only at hr
      split at hr
      · obtain ⟨rfl, rfl⟩ := state_inj hr
        exact ⟨t, hm, .refl rfl⟩
      · obtain ⟨regionEnd, -, hr⟩ := Option.bind_eq_some_iff.1 hr
        obtain ⟨rfl, rfl⟩ := state_inj hr
        exact ⟨t, hm, .refl rfl⟩
  · obtain ⟨rfl, rfl⟩ := state_inj hr
    exact ⟨t, h, .refl rfl⟩

theorem of_get (h : m.Represents t none) {heap heap' : Heap X} {wire : ℕ}
    {r : Except WireNotFound X} {m' : WireMap} (hr : m.get heap wire = some (r, m', heap')) :
    m'.Represents t none ∧ heap' = heap := by
  rw [WireMap.get] at hr
  obtain ⟨⟨position, m''⟩, hborrow, hr⟩ := Option.bind_eq_some_iff.1 hr
  obtain ⟨hm, -⟩ := h.of_borrowAllocation hborrow
  cases position with
  | none =>
    obtain ⟨rfl, rfl⟩ := state_inj hr
    exact ⟨hm, rfl⟩
  | some pos =>
    obtain ⟨out, -, hr⟩ := Option.bind_eq_some_iff.1 hr
    cases out with
    | none | some =>
      obtain ⟨rfl, rfl⟩ := state_inj hr
      exact ⟨hm, rfl⟩

theorem of_getMut (h : m.Represents t none) {heap heap' : Heap X} {wire : ℕ} {f : X → X}
    {r : Except WireNotFound X} {m' : WireMap} (hr : m.getMut heap wire f = some (r, m', heap')) :
    m'.Represents t none ∧ heap'.next = heap.next := by
  rw [WireMap.getMut] at hr
  obtain ⟨⟨position, m''⟩, hborrow, hr⟩ := Option.bind_eq_some_iff.1 hr
  obtain ⟨hm, -⟩ := h.of_borrowAllocation hborrow
  cases position with
  | none =>
    obtain ⟨rfl, rfl⟩ := state_inj hr
    exact ⟨hm, rfl⟩
  | some pos =>
    dsimp only at hr
    split at hr
    · obtain ⟨out, -, hr⟩ := Option.bind_eq_some_iff.1 hr
      cases out with
      | none =>
        obtain ⟨rfl, rfl⟩ := state_inj hr
        exact ⟨hm, rfl⟩
      | some x =>
        obtain ⟨⟨unset, written⟩, hinsert, hr⟩ := Option.bind_eq_some_iff.1 hr
        obtain ⟨rfl, rfl⟩ := state_inj hr
        exact ⟨hm, Allocation.next_of_insert hinsert⟩
    · cases hr

theorem of_insert (h : m.Represents t none) {heap heap' : Heap X} {wire : ℕ} {value : X}
    {r : InsertResult X} {m' : WireMap} (hr : m.insert heap wire value = some (r, m', heap')) :
    m'.Represents t none ∧ heap'.next = heap.next := by
  rw [WireMap.insert] at hr
  obtain ⟨⟨position, m''⟩, hborrow, hr⟩ := Option.bind_eq_some_iff.1 hr
  obtain ⟨hm, -⟩ := h.of_borrowAllocation hborrow
  cases position with
  | none =>
    obtain ⟨rfl, rfl⟩ := state_inj hr
    exact ⟨hm, rfl⟩
  | some pos =>
    dsimp only at hr
    split at hr
    · obtain ⟨⟨unset, written⟩, hinsert, hr⟩ := Option.bind_eq_some_iff.1 hr
      obtain ⟨rfl, rfl⟩ := state_inj hr
      exact ⟨hm, Allocation.next_of_insert hinsert⟩
    · obtain ⟨rfl, rfl⟩ := state_inj hr
      exact ⟨hm, rfl⟩

theorem of_free (h : m.Represents t none) {heap heap' : Heap X} {start inclusiveEnd : ℕ}
    (hs : start < 2 ^ 64) (he : inclusiveEnd < 2 ^ 64) {r : Except Error Unit} {m' : WireMap}
    (hr : m.free overflowChecks heap start inclusiveEnd = some (r, m', heap')) :
    ∃ t', m'.Represents t' none ∧ t'.Sub t ∧ heap'.next = heap.next := by
  rw [WireMap.free] at hr
  rcases h.freeLoop_spec overflowChecks he _ m.size_lt heap hs with
    ⟨e, m'', heap'', t', hloop, hm⟩ | ⟨c, m'', heap'', t', hloop, hm, -⟩ | ⟨hloop, -⟩
  · rw [hloop] at hr
    obtain ⟨rfl, rfl⟩ := state_inj hr
    exact ⟨t', hm⟩
  · rw [hloop, Option.bind_eq_bind, Option.bind_some] at hr
    dsimp only at hr
    obtain ⟨next, -, hr⟩ := Option.bind_eq_some_iff.1 hr
    split at hr
    all_goals
      obtain ⟨rfl, rfl⟩ := state_inj hr
      exact ⟨t', hm⟩
  · rw [hloop] at hr
    cases hr

end Represents

theorem Valid.borrowRange {out : WireMap} (h : out.Valid) {ownership : MemoryOwnership}
    {mutableRangeMap : AList fun _ : ℕ => ℕ} {range : DestinationRange} {out' : WireMap}
    (hr : m.borrowRange overflowChecks ownership mutableRangeMap out range = some (.ok out')) :
    out'.Valid := by
  obtain ⟨t, h⟩ := h
  rw [WireMap.borrowRange] at hr
  split at hr
  · cases hr
  · obtain ⟨found, -, hr⟩ := Option.bind_eq_some_iff.1 hr
    cases found with
    | error e => cases hr
    | ok place =>
      dsimp only at hr
      split at hr
      · cases hr
      · obtain ⟨len, -, hr⟩ := Option.bind_eq_some_iff.1 hr
        obtain ⟨view, -, hr⟩ := Option.bind_eq_some_iff.1 hr
        obtain ⟨⟨result, out''⟩, halloc, hr⟩ := Option.bind_eq_some_iff.1 hr
        obtain ⟨t', hout, -⟩ := allocFromAllocation_represents h halloc
        cases result with
        | error e => cases hr
        | ok u => exact Except.ok.inj (Option.some.inj hr) ▸ ⟨t', hout⟩

theorem Valid.borrowMutables {out : WireMap} (h : out.Valid) (ranges : List DestinationRange)
    {mutableRangeMap mutableRangeMap' : AList fun _ : ℕ => ℕ} {out' : WireMap}
    (hr : m.borrowMutables overflowChecks mutableRangeMap out ranges =
      some (.ok (mutableRangeMap', out'))) : out'.Valid := by
  induction ranges generalizing mutableRangeMap out with
  | nil => exact (Prod.mk.inj (Except.ok.inj (Option.some.inj hr))).2 ▸ h
  | cons range ranges ih =>
    obtain ⟨result, hrange, hr⟩ := Option.bind_eq_some_iff.1 hr
    cases result with
    | error e => cases hr
    | ok next => exact ih (h.borrowRange hrange) hr

theorem Valid.borrowImmutables {out : WireMap} (h : out.Valid) (ranges : List DestinationRange)
    {mutableRangeMap : AList fun _ : ℕ => ℕ} {out' : WireMap}
    (hr : m.borrowImmutables overflowChecks mutableRangeMap out ranges = some (.ok out')) :
    out'.Valid := by
  induction ranges generalizing out with
  | nil => exact Except.ok.inj (Option.some.inj hr) ▸ h
  | cons range ranges ih =>
    obtain ⟨result, hrange, hr⟩ := Option.bind_eq_some_iff.1 hr
    cases result with
    | error e => cases hr
    | ok next => exact ih (h.borrowRange hrange) hr

theorem valid_new : new.Valid := ⟨.empty, represents_new⟩

theorem valid_borrowChild {child : WireMap} {mutableRanges immutableRanges : List DestinationRange}
    (hr : m.borrowChild overflowChecks mutableRanges immutableRanges = some (.ok child)) :
    child.Valid := by
  obtain ⟨result, hmutables, hr⟩ := Option.bind_eq_some_iff.1 hr
  cases result with
  | error e => cases hr
  | ok borrowed => exact (valid_new.borrowMutables _ hmutables).borrowImmutables _ hr

theorem Reachable.valid (h : Reachable overflowChecks X m) : m.Valid := by
  induction h with
  | new => exact valid_new
  | alloc _ hr ih => exact (ih.choose_spec.of_alloc hr).imp fun _ ht => ht.1
  | allocRangeIfUnallocated _ hr ih =>
    exact (ih.choose_spec.of_allocRangeIfUnallocated hr).imp fun _ ht => ht.1
  | free _ hs he hr ih => exact (ih.choose_spec.of_free hs he hr).imp fun _ ht => ht.1
  | get _ hr ih => exact ih.imp fun _ ht => (ht.of_get hr).1
  | getMut _ hr ih => exact ih.imp fun _ ht => (ht.of_getMut hr).1
  | insert _ hr ih => exact ih.imp fun _ ht => (ht.of_insert hr).1
  | borrowChild _ hr _ => exact valid_borrowChild hr

/-- The allocation that starts at a wire, in the cache or in the tree. -/
def allocationAt (m : WireMap) (start : ℕ) : Option Allocation :=
  match (List.finRange 4).find? fun i => m.Live i ∧ m.cacheStarts i = start with
  | some i => some (m.cachedAllocations i)
  | none =>
    match m.storage.lookup start with
    | some (.uncached a) => some a
    | _ => none

/-- The values of the allocation that starts at a wire. -/
def valuesAt (m : WireMap) (heap : Heap X) (start : ℕ) : Option (List (Option X)) :=
  (m.allocationAt start).map fun a => (List.range a.len).map fun i =>
    (heap.blocks a.base).bind fun block => block (i + a.offset)

/-- Whole allocations of the map have the wires of the range and no others. -/
def Covers (m : WireMap) (start inclusiveEnd : ℕ) : Prop :=
  ∀ wire, start ≤ wire → wire ≤ inclusiveEnd →
    ∃ s a, m.allocationAt s = some a ∧ s ≤ wire ∧ wire < s + a.len ∧
      start ≤ s ∧ s + a.len ≤ inclusiveEnd + 1

theorem Represents.allocationAt_eq (h : m.Represents t none) (start : ℕ) :
    m.allocationAt start = t.entries start := by
  rw [allocationAt]
  cases hfind : (List.finRange 4).find? fun i => m.Live i ∧ m.cacheStarts i = start with
  | some i =>
    have hfound := List.find?_some (p := fun i => decide (m.Live i ∧ m.cacheStarts i = start)) hfind
    obtain ⟨hi, rfl⟩ := of_decide_eq_true hfound
    exact (h.cached i hi).symm
  | none =>
    have hlive : ∀ i, m.Live i → m.cacheStarts i ≠ start := fun i hi his =>
      List.find?_eq_none.1 hfind i (List.mem_finRange i) (decide_eq_true ⟨hi, his⟩)
    cases hentry : t.entries start with
    | some a =>
      obtain ⟨i, hi, his⟩ | hstored := (h.complete start a hentry).resolve_left nofun
      · exact absurd his (hlive i hi)
      · rw [hstored]
    | none =>
      cases hlookup : m.storage.lookup start with
      | none => rfl
      | some cell =>
        obtain ⟨a, ha, -⟩ := h.stored hlookup
        rw [hentry] at ha
        cases ha

theorem Represents.covers_iff (h : m.Represents t none) {start inclusiveEnd : ℕ} :
    m.Covers start inclusiveEnd ↔ t.Covers start inclusiveEnd := by
  simp only [Covers, Table.Covers, Table.At, h.allocationAt_eq, and_assoc]

/-! ## Errors -/

/-- An error leaves the allocations and their values as they were. -/
def FreesAtomically (overflowChecks : Bool) (m : WireMap) (heap : Heap X)
    (start inclusiveEnd : ℕ) : Prop :=
  ∀ e m' heap', m.free overflowChecks heap start inclusiveEnd = some (.error e, m', heap') →
    ∀ s, m'.valuesAt heap' s = m.valuesAt heap s

theorem free_eq {start inclusiveEnd : ℕ} {heap : Heap X} :
    m.free overflowChecks heap start inclusiveEnd =
      (freeLoop overflowChecks inclusiveEnd (m.storage.keys.length + 5) m heap start).bind fun
        | (.error e, m, heap) => some (.error e, m, heap)
        | (.ok currStart, m, heap) => (add overflowChecks inclusiveEnd 1).bind fun next =>
          if currStart = next then some (.ok (), m, heap)
          else some (.error (.notFullyCovered start inclusiveEnd), m, heap) := by
  rw [free]
  rfl

theorem Represents.freesAtomically (h : m.Represents t none) (heap : Heap X)
    {start inclusiveEnd : ℕ} (hs : start < 2 ^ 64)
    (hcond : inclusiveEnd < start ∨
      (∀ a, t.entries start = some a → inclusiveEnd + 1 < start + a.len) ∨
      (t.Covers start inclusiveEnd ∧ (overflowChecks = true ∨ inclusiveEnd + 1 < 2 ^ 64))) :
    m.FreesAtomically overflowChecks heap start inclusiveEnd := by
  intro e m' heap' hfree
  rw [free_eq] at hfree
  by_cases hempty : inclusiveEnd < start
  · rw [freeLoop_done hempty, Option.bind_some] at hfree
    dsimp only at hfree
    rw [add_of_lt (by omega), Option.bind_some] at hfree
    split at hfree
    · cases hfree
    · obtain ⟨-, rfl, rfl⟩ := by simpa using hfree
      exact fun _ => rfl
  have hle := Nat.le_of_not_lt hempty
  rcases hcond.resolve_left hempty with hnot | ⟨hcovers, hend⟩
  · obtain ⟨e', hstep⟩ := h.freeAllocation_error overflowChecks heap hnot
    rw [freeLoop_error hle hstep, Option.bind_some] at hfree
    obtain ⟨-, rfl, rfl⟩ := by simpa using hfree
    exact fun _ => rfl
  · rcases h.freeLoop_covered overflowChecks _ m.size_lt heap (hle.trans (Nat.le_succ _)) hcovers
      hend with hnone | ⟨m'', heap'', hloop⟩
    · rw [hnone] at hfree
      cases hfree
    · rw [hloop, Option.bind_some] at hfree
      dsimp only at hfree
      obtain ⟨next, hnext, hfree⟩ := Option.bind_eq_some_iff.1 hfree
      rw [add] at hnext
      split at hnext
      · rw [if_pos (Option.some.inj hnext)] at hfree
        cases hfree
      · rcases hend with rfl | hend
        · cases hnext
        · omega

theorem Represents.not_freesAtomically (h : m.Represents t none) (heap : Heap X)
    {start inclusiveEnd : ℕ} (hle : start ≤ inclusiveEnd) (he : inclusiveEnd < 2 ^ 64)
    {a : Allocation} (ha : t.entries start = some a) (hend : start + a.len ≤ inclusiveEnd + 1)
    (hnot : ¬ (t.Covers start inclusiveEnd ∧
      (overflowChecks = true ∨ inclusiveEnd + 1 < 2 ^ 64))) :
    ¬ m.FreesAtomically overflowChecks heap start inclusiveEnd := by
  intro hatomic
  obtain ⟨m', hstep, h', hlt⟩ := h.freeAllocation_ok overflowChecks heap ha hend
  have hloop : freeLoop overflowChecks inclusiveEnd (m.storage.keys.length + 5) m heap start =
      (add overflowChecks start a.len).bind
        (freeLoop overflowChecks inclusiveEnd (m.storage.keys.length + 4) m' (a.drop heap)) :=
    freeLoop_step hle hstep
  have hsize := m.size_lt
  cases hadd : add overflowChecks start a.len with
  | none =>
    obtain ⟨hchecks, hover⟩ := add_eq_none hadd
    exact hnot ⟨.of_rest ha hend (Table.covers_of_lt (by omega)), .inl hchecks⟩
  | some c =>
    have hc := lt_of_add (t.fits _ _ ha) hadd
    rw [hadd, Option.bind_some] at hloop
    rcases h'.freeLoop_spec overflowChecks he (m.storage.keys.length + 4) (by omega) (a.drop heap) hc with
      ⟨e, m'', heap'', t', hrest, hrep, hsub, -⟩ | ⟨c', m'', heap'', t', hrest, -, hbehind, hc', hcovers⟩ |
        ⟨hrest, hchecks, htop, hcovers⟩
    · have hfree : m.free overflowChecks heap start inclusiveEnd = some (.error e, m'', heap'') := by
        rw [free_eq, hloop, hrest]
        rfl
      have hsame := hatomic e m'' heap'' hfree start
      rw [valuesAt, valuesAt, h.allocationAt_eq, hrep.allocationAt_eq, hsub.remove.2, ha] at hsame
      cases hsame
    · rw [add_of_lt (by omega)] at hadd
      obtain rfl := Option.some.inj hadd
      exact hnot ⟨.of_rest ha hend hcovers, .inr (by omega)⟩
    · have hcc : c = start + a.len := by
        rw [add, hchecks] at hadd
        split at hadd
        · exact (Option.some.inj hadd).symm
        · cases hadd
      exact hnot ⟨.of_rest ha hend (hcc ▸ hcovers), .inl hchecks⟩

/-- An error leaves everything as it was exactly if the range is empty, or no allocation starts with it
and lies within it, or whole allocations cover it, which without overflow checks must not end at the
last wire. -/
theorem freesAtomically_iff (hm : Reachable overflowChecks X m) (heap : Heap X)
    {start inclusiveEnd : ℕ} (hs : start < 2 ^ 64) (he : inclusiveEnd < 2 ^ 64) :
    m.FreesAtomically overflowChecks heap start inclusiveEnd ↔
      inclusiveEnd < start ∨
      (∀ a, m.allocationAt start = some a → inclusiveEnd + 1 < start + a.len) ∨
      (m.Covers start inclusiveEnd ∧ (overflowChecks = true ∨ inclusiveEnd + 1 < 2 ^ 64)) := by
  obtain ⟨t, h⟩ := hm.valid
  rw [h.allocationAt_eq, h.covers_iff]
  constructor
  · intro hatomic
    by_contra hcond
    push Not at hcond
    obtain ⟨hle, ⟨a, ha, hend⟩, hnot⟩ := hcond
    exact h.not_freesAtomically heap hle he ha hend (fun hc => by
      rcases hnot hc.1 with ⟨hchecks, htop⟩
      rcases hc.2 with hchecks' | hlt
      · exact hchecks hchecks'
      · exact absurd hlt (Nat.not_lt_of_le htop)) hatomic
  · exact h.freesAtomically heap hs

/-- The first four wires in one allocation. -/
def fourWires : WireMap := new.insertIntoCache 0 ⟨0, 4, 4, 0, .owned⟩

theorem reachable_fourWires : Reachable true ℕ fourWires := by
  have halloc : new.alloc true (Heap.empty : Heap ℕ) 0 3 =
      some (.ok (), fourWires, Heap.empty.alloc.2) := rfl
  exact .alloc .new halloc

theorem freesAtomically_fourWires :
    fourWires.FreesAtomically true (Heap.empty.alloc.2 : Heap ℕ) 0 3 := by
  refine (freesAtomically_iff reachable_fourWires _ (by decide) (by decide)).2
    (.inr (.inr ⟨fun wire _ hle => ?_, .inl rfl⟩))
  exact ⟨0, ⟨0, 4, 4, 0, .owned⟩, rfl, Nat.zero_le _, Nat.lt_succ_of_le hle, le_rfl, le_rfl⟩

/-- Behind the four wires there is nothing to free, but then they are gone. -/
theorem not_freesAtomically_fourWires :
    Reachable true ℕ fourWires ∧
      ¬ fourWires.FreesAtomically true (Heap.empty.alloc.2 : Heap ℕ) 0 9 := by
  refine ⟨reachable_fourWires, fun hatomic => ?_⟩
  have hgone := hatomic (.nonExistent 4) _ _ rfl 0
  exact absurd hgone (by decide)

end WireMap

end EdaBitGen.MacNCheese.WireMaps
