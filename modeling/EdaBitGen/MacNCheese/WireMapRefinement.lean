import EdaBitGen.MacNCheese.WireMapContents

/-!
# The wire map as a store

Each call on a wire map does what the store says, whatever the cache holds, as long as no range is
freed whose first allocation alone lies within it, that is empty in the middle, or that ends at the
last wire.
-/

namespace EdaBitGen.MacNCheese.WireMaps

open Refinement

variable {X : Type} {overflowChecks : Bool} {m : WireMap} {t : Table} {heap : Heap X}
  {store : WireStore X} {start inclusiveEnd w s : ℕ} {a : Allocation} {block : ℕ → Option X}

/-- The map holds a table that the store mirrors. -/
def Agrees (s : WireMap × Heap X) (store : WireStore X) : Prop :=
  ∃ t, s.1.Represents t none ∧ Mirrors t s.2 store

/-- The calls that the map makes as the store does: there is no room for `2 ^ 48` wires, and ranges
are freed that are covered by whole allocations, or not at all. -/
def WireStore.Supported (store : WireStore X) : Call X → Prop
  | .alloc start inclusiveEnd => inclusiveEnd + 1 - start < 2 ^ 48
  | .allocRangeIfUnallocated start inclusiveEnd =>
    inclusiveEnd + 1 - start < 2 ^ 48 ∨
      ((store.find start).isSome ∧ inclusiveEnd + 1 - start < 2 ^ 64)
  | .free start inclusiveEnd =>
    if inclusiveEnd < start then start = inclusiveEnd + 1
    else if store.Covered start inclusiveEnd then inclusiveEnd + 1 < 2 ^ 64
    else ∀ r ∈ store, r.start = start → inclusiveEnd + 1 < start + r.contents.length
  | .insert _ _ | .get _ | .getMut _ _ => True

instance (store : WireStore X) : (c : Call X) → Decidable (store.Supported c)
  | .alloc _ _ => inferInstanceAs (Decidable (_ < _))
  | .allocRangeIfUnallocated _ _ => inferInstanceAs (Decidable (_ ∨ _))
  | .free _ _ => inferInstanceAs (Decidable (ite _ _ _))
  | .insert _ _ | .get _ | .getMut _ _ => inferInstanceAs (Decidable True)

/-! ## Allocating -/

variable (overflowChecks start) in
theorem WireMap.ensureNoOverlap_cases {candidates : List (ℕ × ℕ)}
    (hfits : ∀ c ∈ candidates, c.2 = 0 ∨ c.1 + c.2 ≤ 2 ^ 64) :
    ensureNoOverlap overflowChecks start inclusiveEnd candidates = some (.ok ()) ∨
      ∃ c ∈ candidates, ∃ existingEnd,
        ensureNoOverlap overflowChecks start inclusiveEnd candidates =
          some (.error (.overlaps c.1 existingEnd start inclusiveEnd)) ∧
        c.2 ≠ 0 ∧ c.1 ≤ inclusiveEnd ∧ start < c.1 + c.2 := by
  induction candidates with
  | nil => exact .inl rfl
  | cons c rest ih =>
    obtain ⟨existingStart, existingLen⟩ := c
    have hrest := ih fun c hc => hfits c (List.mem_cons_of_mem _ hc)
    rw [ensureNoOverlap]
    by_cases hskip : existingLen = 0 ∨ inclusiveEnd < existingStart
    · rw [if_pos hskip]
      exact hrest.imp_right List.exists_mem_cons_of_exists
    · rw [if_neg hskip]
      rw [not_or, not_lt] at hskip
      have hfit : existingStart + existingLen ≤ 2 ^ 64 :=
        (hfits _ List.mem_cons_self).resolve_left hskip.1
      rw [add_of_lt (by omega)]
      simp only [Option.bind_eq_bind, Option.bind_some]
      by_cases hbefore : existingStart + (existingLen - 1) < start
      · rw [if_pos hbefore]
        exact hrest.imp_right List.exists_mem_cons_of_exists
      · rw [if_neg hbefore]
        exact .inr ⟨_, List.mem_cons_self, _, rfl, hskip.1, hskip.2, by dsimp only; omega⟩

theorem WireMap.Represents.candidate (h : m.Represents t none) {c : ℕ × ℕ}
    (hc : c ∈ m.candidates inclusiveEnd) : c.2 = 0 ∨ ∃ a, t.entries c.1 = some a ∧ a.len = c.2 := by
  rcases List.mem_append.1 hc with hc | hc
  · cases hfloor : m.storage.floor inclusiveEnd with
    | none =>
      rw [hfloor] at hc
      cases hc
    | some e =>
      rw [hfloor] at hc
      obtain rfl := List.mem_singleton.1 hc
      exact .inr (h.stored (AList.lookup_of_floor hfloor).1)
  · obtain ⟨i, -, rfl⟩ := List.mem_map.1 hc
    by_cases hi : m.Live i
    · exact .inr ⟨_, h.cached i hi, rfl⟩
    · exact .inl (Nat.eq_zero_of_not_pos hi)

variable (overflowChecks) in
theorem WireMap.Represents.allocFromAllocation_spec (h : m.Represents t none) (hpos : 0 < a.len)
    (hshort : a.len < 2 ^ 48) (hfits : start + a.len ≤ 2 ^ 64) :
    (t.Clear start (start + (a.len - 1)) ∧ ∃ m' t',
      m.allocFromAllocation overflowChecks start a = some (.ok (), m') ∧ m'.Represents t' none ∧
        ∀ s, t'.entries s = if s = start then some a else t.entries s) ∨
    (¬ t.Clear start (start + (a.len - 1)) ∧ ∃ e,
      m.allocFromAllocation overflowChecks start a = some (.error e, m) ∧ e.kind = .overlaps) := by
  have hadd : checkedAdd start (a.len - 1) = some (start + (a.len - 1)) := if_pos (by omega)
  have hcandidates : ∀ c ∈ m.candidates (start + (a.len - 1)), c.2 = 0 ∨ c.1 + c.2 ≤ 2 ^ 64 := by
    intro c hc
    refine (h.candidate hc).imp_right fun ⟨b, hb, hlen⟩ => ?_
    exact hlen ▸ t.fits _ _ hb
  rw [allocFromAllocation, if_pos ⟨hpos.ne', hshort⟩, hadd]
  simp only [Option.bind_eq_bind, Option.bind_some]
  obtain hcheck | ⟨c, hc, existingEnd, hcheck, hne, hle, hlt⟩ :=
    ensureNoOverlap_cases overflowChecks start hcandidates
  · have hclear := h.clear hcheck
    rw [hcheck]
    exact .inl ⟨hclear, _, _, rfl,
      (h.take hpos hshort hfits hclear).insertIntoCache (Function.update_self _ _ _),
      fun s => Function.update_apply _ _ _ _⟩
  · rw [hcheck]
    refine .inr ⟨fun hclear => ?_, _, rfl, rfl⟩
    obtain ⟨b, hb, hlen⟩ := (h.candidate hc).resolve_left hne
    have := hclear _ b hb
    omega

theorem Mirrors.drop_newOwned (h : Mirrors t heap store) (len : ℕ) :
    Mirrors t ((Allocation.newOwned heap len).1.drop (Allocation.newOwned heap len).2) store := by
  have halloc (base : ℕ) (hbase : base < heap.next) : heap.alloc.2.blocks base = heap.blocks base :=
    Function.update_of_ne hbase.ne _ _
  rw [Allocation.drop]
  split
  · refine h.of_blocks (Nat.le_succ _) fun base hbase => ?_
    exact (Function.update_of_ne hbase.ne _ _).trans (halloc base hbase)
  · exact h.of_blocks (Nat.le_succ _) halloc

theorem Agrees.alloc (h : Agrees (m, heap) store) (he : inclusiveEnd < 2 ^ 64)
    (hlen : inclusiveEnd + 1 - start < 2 ^ 48) :
    ∃ s', WireMap.call overflowChecks (m, heap) (.alloc start inclusiveEnd) =
        some ((store.alloc start inclusiveEnd).1, s') ∧
      Agrees s' (store.alloc start inclusiveEnd).2 := by
  obtain ⟨t, hm, ht⟩ := h
  by_cases hempty : inclusiveEnd < start
  · rw [WireStore.alloc, if_pos hempty, WireMap.call, WireMap.alloc, if_neg (by omega)]
    exact ⟨_, rfl, t, hm, ht⟩
  have hadd : add overflowChecks (inclusiveEnd - start) 1 = some (inclusiveEnd + 1 - start) := by
    rw [add_of_lt (by omega)]
    exact congrArg some (by omega)
  have hspec := hm.allocFromAllocation_spec (a := (Allocation.newOwned heap
    (inclusiveEnd + 1 - start)).1) overflowChecks
    (by show 0 < inclusiveEnd + 1 - start; omega) hlen
    (by show start + (inclusiveEnd + 1 - start) ≤ _; omega)
  rw [show start + ((Allocation.newOwned heap (inclusiveEnd + 1 - start)).1.len - 1) = inclusiveEnd by
    show start + (inclusiveEnd + 1 - start - 1) = _; omega] at hspec
  rw [WireStore.alloc, if_neg hempty, WireMap.call, WireMap.alloc, if_pos (by omega), hadd]
  simp only [Option.bind_eq_bind, Option.bind_some]
  rcases hspec with ⟨hclear, m', t', hr, hm', hentries⟩ | ⟨hclear, e, hr, hkind⟩
  · rw [hr, if_pos (ht.clear_iff.1 hclear)]
    have hnone : t.entries start = none := by
      cases hstart : t.entries start with
      | none => rfl
      | some b =>
        have := t.pos start b hstart
        have := hclear start b hstart
        omega
    exact ⟨_, rfl, t', hm', ht.insert hnone hentries⟩
  · rw [hr, if_neg fun hall => hclear (ht.clear_iff.2 hall)]
    have hdrop := ht.drop_newOwned (inclusiveEnd + 1 - start)
    generalize Allocation.newOwned heap (inclusiveEnd + 1 - start) = new at hdrop
    refine ⟨(m, new.1.drop new.2), ?_, t, hm, hdrop⟩
    rw [← hkind]
    rfl

/-! ## Reading and writing -/

theorem Agrees.lookup (h : Agrees (m, heap) store) (w : ℕ) :
    (∃ m', m.borrowAllocation w = some (none, m') ∧ store.find w = none ∧
      Agrees (m', heap) store) ∨
    ∃ m' t s a block, m.borrowAllocation w = some (some ⟨a, w - s⟩, m') ∧ m'.Represents t none ∧
      Mirrors t heap store ∧ t.At w s a ∧ heap.blocks a.base = some block := by
  obtain ⟨t, hm, ht⟩ := h
  obtain ⟨r, m', hborrow, hm', hposition⟩ := hm.borrowAllocation w
  cases r with
  | none => exact .inl ⟨m', hborrow, ht.find_eq_none hposition, t, hm', ht⟩
  | some p =>
    obtain ⟨s, hat, hpos⟩ := hposition
    obtain ⟨block, hblock⟩ := ht.allocated s p.allocation hat.1
    obtain ⟨a, pos⟩ := p
    exact .inr ⟨m', t, s, a, block, by rw [hborrow, show pos = w - s from hpos], hm', ht, hat, hblock⟩

namespace Mirrors

theorem get_eq (h : Mirrors t heap store) (hat : t.At w s a)
    (hblock : heap.blocks a.base = some block) : a.get heap (w - s) = some (block (w - s)) := by
  have hlt : w - s < a.exposedLen := by
    have hbehind : w < s + a.exposedLen := hat.2.2
    have hle := hat.2.1
    omega
  rw [Allocation.get, if_pos hlt, hblock, (h.owned s a hat.1).2]
  rfl

theorem read_eq (h : Mirrors t heap store) (hat : t.At w s a)
    (hblock : heap.blocks a.base = some block) :
    store.read w = match block (w - s) with
      | none => .error .unsetValueWithinAllocation
      | some x => .ok x := by
  rw [WireStore.read, h.find_eq_some hat hblock]
  cases hvalue : block (w - s) <;> simp only [value_contents hat.2.1 hat.2.2, hvalue]

theorem insert_eq (h : Mirrors t heap store) (hat : t.At w s a)
    (hblock : heap.blocks a.base = some block) (value : X) :
    a.insert heap (w - s) value = some ((block (w - s)).isNone,
      heap.put a.base (Function.update block (w - s) (some value))) := by
  have howned := h.owned s a hat.1
  have hmutable : a.isMutable = true := by
    rw [Allocation.isMutable, howned.1]
    rfl
  rw [Allocation.insert, if_pos hmutable, h.get_eq hat hblock, Heap.write, hblock, howned.2]
  rfl

theorem isMutable (h : Mirrors t heap store) (hat : t.At w s a) : a.isMutable = true := by
  rw [Allocation.isMutable, (h.owned s a hat.1).1]
  rfl

end Mirrors

theorem Agrees.get (h : Agrees (m, heap) store) (w : ℕ) :
    ∃ s', WireMap.call overflowChecks (m, heap) (.get w) = some (.found (store.read w), s') ∧
      Agrees s' store := by
  rcases h.lookup w with ⟨m', hborrow, hfind, h'⟩ | ⟨m', t, s, a, block, hborrow, hm, ht, hat, hblock⟩
  · refine ⟨(m', heap), ?_, h'⟩
    rw [WireStore.read, hfind, WireMap.call, WireMap.get, hborrow]
    rfl
  · refine ⟨(m', heap), ?_, t, hm, ht⟩
    rw [ht.read_eq hat hblock, WireMap.call, WireMap.get, hborrow]
    simp only [Option.bind_eq_bind, Option.bind_some, ht.get_eq hat hblock]
    cases block (w - s) <;> rfl

theorem Agrees.insert (h : Agrees (m, heap) store) (w : ℕ) (value : X) :
    ∃ s', WireMap.call overflowChecks (m, heap) (.insert w value) =
        some (.inserted (store.insert w value).1, s') ∧
      Agrees s' (store.insert w value).2 := by
  rcases h.lookup w with ⟨m', hborrow, hfind, h'⟩ | ⟨m', t, s, a, block, hborrow, hm, ht, hat, hblock⟩
  · rw [WireStore.insert, WireStore.read, hfind, WireMap.call, WireMap.insert, hborrow]
    exact ⟨_, rfl, h'⟩
  · rw [WireStore.insert, ht.read_eq hat hblock, WireMap.call, WireMap.insert, hborrow]
    simp only [Option.bind_eq_bind, Option.bind_some, ht.isMutable hat, if_true,
      ht.insert_eq hat hblock]
    have hwrite := ht.write hat hblock value
    cases block (w - s) with
    | none => exact ⟨_, rfl, t, hm, hwrite⟩
    | some x => exact ⟨_, rfl, t, hm, hwrite⟩

theorem Agrees.getMut (h : Agrees (m, heap) store) (w : ℕ) (f : X → X) :
    ∃ s', WireMap.call overflowChecks (m, heap) (.getMut w f) =
        some (.found (store.getMut w f).1, s') ∧
      Agrees s' (store.getMut w f).2 := by
  rcases h.lookup w with ⟨m', hborrow, hfind, h'⟩ | ⟨m', t, s, a, block, hborrow, hm, ht, hat, hblock⟩
  · rw [WireStore.getMut, WireStore.read, hfind, WireMap.call, WireMap.getMut, hborrow]
    exact ⟨_, rfl, h'⟩
  · rw [WireStore.getMut, ht.read_eq hat hblock, WireMap.call, WireMap.getMut, hborrow]
    simp only [Option.bind_eq_bind, Option.bind_some, ht.isMutable hat, if_true,
      ht.get_eq hat hblock]
    cases hvalue : block (w - s) with
    | none => exact ⟨_, rfl, t, hm, ht⟩
    | some x =>
      simp only [ht.insert_eq hat hblock, Option.bind_some]
      exact ⟨_, rfl, t, hm, ht.write hat hblock (f x)⟩

theorem Agrees.allocRangeIfUnallocated (h : Agrees (m, heap) store) (he : inclusiveEnd < 2 ^ 64)
    (hok : store.Supported (.allocRangeIfUnallocated start inclusiveEnd)) :
    ∃ s', WireMap.call overflowChecks (m, heap) (.allocRangeIfUnallocated start inclusiveEnd) =
        some ((store.allocRangeIfUnallocated start inclusiveEnd).1, s') ∧
      Agrees s' (store.allocRangeIfUnallocated start inclusiveEnd).2 := by
  by_cases hempty : inclusiveEnd < start
  · rw [WireStore.allocRangeIfUnallocated, if_pos hempty, WireMap.call,
      WireMap.allocRangeIfUnallocated, if_neg (by omega)]
    exact ⟨_, rfl, h⟩
  have hlt : inclusiveEnd + 1 - start < 2 ^ 64 := by
    rcases hok with hlt | ⟨-, hlt⟩ <;> omega
  have hadd : add overflowChecks (inclusiveEnd - start) 1 = some (inclusiveEnd + 1 - start) := by
    rw [add_of_lt (by omega)]
    exact congrArg some (by omega)
  rw [WireStore.allocRangeIfUnallocated, if_neg hempty, WireMap.call,
    WireMap.allocRangeIfUnallocated, if_pos (by omega), hadd]
  simp only [Option.bind_eq_bind, Option.bind_some]
  rcases h.lookup start with ⟨m', hborrow, hfind, h'⟩ |
    ⟨m', t, s, a, block, hborrow, hm, ht, hat, hblock⟩
  · have hlen : inclusiveEnd + 1 - start < 2 ^ 48 := hok.resolve_right fun hsome => by
      rw [hfind] at hsome
      cases hsome.1
    rw [hborrow, hfind]
    exact h'.alloc he hlen
  · obtain ⟨ha, hle, hbehind⟩ := hat
    have hfits := t.fits s a ha
    have hregion : add overflowChecks (start - (start - s)) (a.len - 1) =
        some (start - (start - s) + (a.len - 1)) := add_of_lt (by omega)
    rw [hborrow, ht.find_eq_some ⟨ha, hle, hbehind⟩ hblock]
    simp only [Option.bind_some]
    by_cases hhas : inclusiveEnd + 1 - start ≤ a.len - (start - s)
    · have : (⟨s, a.contents block⟩ : Region X).Has inclusiveEnd := by
        rw [Region.Has, a.length_contents]
        dsimp only
        omega
      rw [if_pos hhas, if_pos this]
      exact ⟨_, rfl, t, hm, ht⟩
    · have : ¬ (⟨s, a.contents block⟩ : Region X).Has inclusiveEnd := by
        rw [Region.Has, a.length_contents]
        dsimp only
        omega
      rw [if_neg hhas, if_neg this, hregion]
      exact ⟨_, rfl, t, hm, ht⟩

theorem WireMap.kind_of_freeAllocation {e : Error} {m' : WireMap} {heap' : Heap X}
    (h : m.freeAllocation overflowChecks heap start inclusiveEnd = some (.error e, m', heap')) :
    e.kind = .notCovered := by
  obtain ⟨⟨cached, m'', heap''⟩, hcached, h⟩ := Option.bind_eq_some_iff.1 h
  cases cached with
  | error e' =>
    obtain ⟨rfl, -⟩ := by simpa using h
    rw [freeCached] at hcached
    split at hcached
    · cases hcached
    · dsimp only at hcached
      split at hcached
      · obtain ⟨foundEnd, -, hcached⟩ := Option.bind_eq_some_iff.1 hcached
        split at hcached
        · cases hcached
        · cases hcached
          rfl
      · cases hcached
        rfl
  | ok cached =>
    simp only [freeStored] at h
    split at h
    · obtain ⟨foundEnd, -, h⟩ := Option.bind_eq_some_iff.1 h
      split at h
      · cases h
        rfl
      · cases h
    · split at h
      · cases h
      · cases h
        rfl

variable (overflowChecks) in
theorem freeLoop_removes (fuel : ℕ) (hm : m.Represents t none) (ht : Mirrors t heap store)
    (hsize : m.size < fuel) {currStart : ℕ} (hcurr : currStart ≤ inclusiveEnd + 1)
    (hcovers : t.Covers currStart inclusiveEnd) (hend : inclusiveEnd + 1 < 2 ^ 64) :
    ∃ m' heap' t', WireMap.freeLoop overflowChecks inclusiveEnd fuel m heap currStart =
        some (.ok (inclusiveEnd + 1), m', heap') ∧ m'.Represents t' none ∧
      Mirrors t' heap' (store.filter fun r => ¬ (currStart ≤ r.start ∧ r.start ≤ inclusiveEnd)) := by
  induction fuel generalizing m t heap store currStart with
  | zero => exact absurd hsize (Nat.not_lt_zero _)
  | succ fuel ih =>
    by_cases hle : inclusiveEnd < currStart
    · obtain rfl := Nat.le_antisymm hcurr hle
      refine ⟨m, heap, t, WireMap.freeLoop_done hle, hm, ?_⟩
      rwa [List.filter_eq_self.2 fun r _ => decide_eq_true (by omega)]
    have hle := Nat.le_of_not_lt hle
    obtain ⟨a, ha, hwithin⟩ := hcovers.first hle
    obtain ⟨m', hstep, hm', hlt⟩ := hm.freeAllocation_ok overflowChecks heap ha hwithin
    obtain ⟨m'', heap'', t'', hloop, hm'', ht''⟩ :=
      ih hm' (ht.remove ha) (by omega) hwithin (hcovers.rest ha)
    refine ⟨m'', heap'', t'', ?_, hm'', ?_⟩
    · rw [WireMap.freeLoop_step hle hstep, add_of_lt (by omega), Option.bind_some, hloop]
    · convert ht'' using 1
      rw [List.filter_filter]
      refine List.filter_congr fun r hr => ?_
      obtain ⟨s, b, block, hb, -, rfl⟩ := ht.mem_iff.1 hr
      have hdisjoint := t.disjoint currStart s a b ha hb
      have hpos := t.pos currStart a ha
      rw [← Bool.decide_and, decide_eq_decide]
      dsimp only
      omega

theorem Mirrors.filter_within (h : Mirrors t heap store) (hcovers : t.Covers start inclusiveEnd) :
    store.filter (fun r => ¬ r.Within start inclusiveEnd) =
      store.filter fun r => ¬ (start ≤ r.start ∧ r.start ≤ inclusiveEnd) := by
  refine List.filter_congr fun r hr => ?_
  obtain ⟨s, a, block, ha, -, rfl⟩ := h.mem_iff.1 hr
  have hpos := t.pos s a ha
  rw [decide_eq_decide, Region.Within, a.length_contents]
  dsimp only
  refine not_congr ⟨fun hwithin => by omega, fun hin => ?_⟩
  obtain ⟨s', a', hat, hstart, hend⟩ := hcovers s hin.1 hin.2
  obtain rfl := hat.start_eq (Table.at_self ha)
  obtain rfl := hat.eq (Table.at_self ha)
  exact ⟨hstart, hend⟩

theorem Agrees.free (h : Agrees (m, heap) store) (hs : start < 2 ^ 64)
    (hok : store.Supported (.free start inclusiveEnd)) :
    ∃ s', WireMap.call overflowChecks (m, heap) (.free start inclusiveEnd) =
        some ((store.free start inclusiveEnd).1, s') ∧
      Agrees s' (store.free start inclusiveEnd).2 := by
  obtain ⟨t, hm, ht⟩ := h
  rw [WireStore.Supported] at hok
  rw [WireMap.call, WireMap.free_eq, WireStore.free]
  split at hok
  · next hempty =>
    rw [if_pos hempty, WireMap.freeLoop_done hempty, Option.bind_some]
    dsimp only
    rw [add_of_lt (by omega), Option.bind_some, if_pos hok]
    exact ⟨_, rfl, t, hm, ht⟩
  next hempty =>
  have hle := Nat.le_of_not_lt hempty
  rw [if_neg hempty]
  split at hok
  · next hcovered =>
    have hcovers := ht.covered_iff.1 hcovered
    obtain ⟨m', heap', t', hloop, hm', ht'⟩ := freeLoop_removes overflowChecks _ hm ht m.size_lt
      (hle.trans (Nat.le_succ _)) hcovers hok
    rw [if_pos hcovered, hloop, Option.bind_some]
    dsimp only
    rw [add_of_lt (by omega), Option.bind_some, if_pos rfl, ht.filter_within hcovers]
    exact ⟨_, rfl, t', hm', ht'⟩
  · next hcovered =>
    have hnot : ∀ a, t.entries start = some a → inclusiveEnd + 1 < start + a.len := by
      intro a ha
      obtain ⟨block, hblock⟩ := ht.allocated start a ha
      have := hok _ (ht.mem_iff.2 ⟨start, a, block, ha, hblock, rfl⟩) rfl
      rwa [a.length_contents] at this
    obtain ⟨e, hstep⟩ := hm.freeAllocation_error overflowChecks heap hnot
    rw [if_neg hcovered, WireMap.freeLoop_error hle hstep, Option.bind_some]
    refine ⟨_, ?_, t, hm, ht⟩
    show some (CallResult.failed e.kind, _) = _
    rw [WireMap.kind_of_freeAllocation hstep]

theorem Agrees.call {s : WireMap × Heap X} (h : Agrees s store) (c : Call X)
    (hok : c.InRange ∧ store.Supported c) :
    ∃ s', WireMap.call overflowChecks s c = some ((store.call c).1, s') ∧
      Agrees s' (store.call c).2 := by
  obtain ⟨hrange, hok⟩ := hok
  cases c with
  | alloc start inclusiveEnd => exact h.alloc hrange.2 hok
  | allocRangeIfUnallocated start inclusiveEnd => exact h.allocRangeIfUnallocated hrange.2 hok
  | insert w value => exact h.insert w value
  | get w => exact h.get w
  | getMut w f => exact h.getMut w f
  | free start inclusiveEnd => exact h.free hrange.1 hok

theorem agrees_new : Agrees (WireMap.new, (Heap.empty : Heap X)) [] :=
  ⟨.empty, WireMap.represents_new, mirrors_empty⟩

/-- In a run of supported calls each call returns what the store says. -/
theorem outcomes_eq_results (overflowChecks : Bool) (cs : List (Call X))
    (hok : Allowed WireStore.call (fun store c => c.InRange ∧ store.Supported c) [] cs) :
    outcomes (WireMap.call overflowChecks) (WireMap.new, Heap.empty) cs =
      some (results WireStore.call [] cs) :=
  outcomes_eq (fun _ _ c h hok => h.call c hok) agrees_new cs hok

/-- Wires that are written, read and freed. -/
theorem outcomes_of_range :
    outcomes (WireMap.call true) (WireMap.new, (Heap.empty : Heap ℕ))
        [.alloc 0 3, .insert 2 7, .allocRangeIfUnallocated 1 4, .get 2, .free 0 3, .get 2] =
      some [.done, .inserted .previouslyUnset, .failed .notContained, .found (.ok 7), .done,
        .found (.error .notAllocated)] :=
  outcomes_eq_results true _ ⟨by decide, by decide, by decide, by decide, by decide, by decide,
    trivial⟩

/-- An empty range is freed by the store, and not by the map. -/
theorem outcomes_free_empty :
    outcomes (WireMap.call true) (WireMap.new, (Heap.empty : Heap ℕ)) [.free 5 3] ≠
      some (results WireStore.call [] [.free 5 3]) :=
  nofun

end EdaBitGen.MacNCheese.WireMaps
