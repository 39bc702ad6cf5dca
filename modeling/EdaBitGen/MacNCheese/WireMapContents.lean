import EdaBitGen.Data.Returns
import EdaBitGen.MacNCheese.WireMapFree

/-!
# What a wire map stands for

The store of a wire map, and the table and blocks that hold its regions.
-/

/-!
## The store that a wire map stands for

Regions that do not meet, each a vector of optional values.  A call that fails changes nothing.
-/

namespace EdaBitGen.MacNCheese.WireMaps

structure Region (X : Type) where
  start : ℕ
  contents : List (Option X)

namespace Region

variable {X : Type}

def Has (r : Region X) (wire : ℕ) : Prop := r.start ≤ wire ∧ wire < r.start + r.contents.length

def Within (r : Region X) (start inclusiveEnd : ℕ) : Prop :=
  start ≤ r.start ∧ r.start + r.contents.length ≤ inclusiveEnd + 1

def Clear (r : Region X) (start inclusiveEnd : ℕ) : Prop :=
  inclusiveEnd < r.start ∨ r.start + r.contents.length ≤ start

instance (r : Region X) (wire : ℕ) : Decidable (r.Has wire) := inferInstanceAs (Decidable (_ ∧ _))

instance (r : Region X) (start inclusiveEnd : ℕ) : Decidable (r.Within start inclusiveEnd) :=
  inferInstanceAs (Decidable (_ ∧ _))

instance (r : Region X) (start inclusiveEnd : ℕ) : Decidable (r.Clear start inclusiveEnd) :=
  inferInstanceAs (Decidable (_ ∨ _))

def value (r : Region X) (wire : ℕ) : Option X := r.contents[wire - r.start]?.join

def set (r : Region X) (wire : ℕ) (value : X) : Region X :=
  { r with contents := r.contents.set (wire - r.start) (some value) }

end Region

/-! ## Calls -/

inductive Call (X : Type)
  | alloc (start inclusiveEnd : ℕ)
  | allocRangeIfUnallocated (start inclusiveEnd : ℕ)
  | insert (wire : ℕ) (value : X)
  | get (wire : ℕ)
  /-- The caller changes the value by `f`. -/
  | getMut (wire : ℕ) (f : X → X)
  | free (start inclusiveEnd : ℕ)

/-- The wires of a call have 64 bits. -/
def Call.InRange {X : Type} : Call X → Prop
  | .alloc start inclusiveEnd | .allocRangeIfUnallocated start inclusiveEnd
  | .free start inclusiveEnd => start < 2 ^ 64 ∧ inclusiveEnd < 2 ^ 64
  | .insert wire _ | .get wire | .getMut wire _ => wire < 2 ^ 64

instance {X : Type} : (c : Call X) → Decidable c.InRange
  | .alloc _ _ | .allocRangeIfUnallocated _ _ | .free _ _ => inferInstanceAs (Decidable (_ ∧ _))
  | .insert _ _ | .get _ | .getMut _ _ => inferInstanceAs (Decidable (_ < _))

/-- The kinds of errors of the calls on ranges. -/
inductive ErrorKind
  | overlaps
  | notContained
  | notCovered
  | other
deriving DecidableEq

def Error.kind : Error → ErrorKind
  | .overlaps .. => .overlaps
  | .notContained .. => .notContained
  | .startNotFound .. | .extendsPast .. | .cannotFree .. | .nonExistent .. | .notFullyCovered .. =>
    .notCovered
  | .notFound .. | .conflicts .. | .notMutable .. => .other

inductive CallResult (X : Type)
  | done
  | failed (kind : ErrorKind)
  | found (result : Except WireNotFound X)
  | inserted (result : InsertResult X)

def CallResult.ofExcept {X : Type} : Except Error Unit → CallResult X
  | .ok () => .done
  | .error e => .failed e.kind

def WireMap.call {X : Type} (overflowChecks : Bool) (s : WireMap × Heap X) :
    Call X → Option (CallResult X × WireMap × Heap X)
  | .alloc start inclusiveEnd =>
    (s.1.alloc overflowChecks s.2 start inclusiveEnd).map fun r => (.ofExcept r.1, r.2)
  | .allocRangeIfUnallocated start inclusiveEnd =>
    (s.1.allocRangeIfUnallocated overflowChecks s.2 start inclusiveEnd).map fun r =>
      (.ofExcept r.1, r.2)
  | .insert wire value => (s.1.insert s.2 wire value).map fun r => (.inserted r.1, r.2)
  | .get wire => (s.1.get s.2 wire).map fun r => (.found r.1, r.2)
  | .getMut wire f => (s.1.getMut s.2 wire f).map fun r => (.found r.1, r.2)
  | .free start inclusiveEnd =>
    (s.1.free overflowChecks s.2 start inclusiveEnd).map fun r => (.ofExcept r.1, r.2)

/-! ## The store -/

abbrev WireStore (X : Type) := List (Region X)

namespace WireStore

variable {X : Type}

def find (store : WireStore X) (wire : ℕ) : Option (Region X) := store.find? (·.Has wire)

/-- The range is a union of whole regions. -/
def Covered (store : WireStore X) (start inclusiveEnd : ℕ) : Prop :=
  ∀ i < inclusiveEnd + 1 - start, ∃ r ∈ store, r.Within start inclusiveEnd ∧ r.Has (start + i)

instance (store : WireStore X) (start inclusiveEnd : ℕ) :
    Decidable (store.Covered start inclusiveEnd) :=
  inferInstanceAs (Decidable (∀ i < _, ∃ r ∈ store, _))

def alloc (store : WireStore X) (start inclusiveEnd : ℕ) : CallResult X × WireStore X :=
  if inclusiveEnd < start then (.done, store)
  else if ∀ r ∈ store, r.Clear start inclusiveEnd then
    (.done, ⟨start, List.replicate (inclusiveEnd + 1 - start) none⟩ :: store)
  else (.failed .overlaps, store)

def allocRangeIfUnallocated (store : WireStore X) (start inclusiveEnd : ℕ) :
    CallResult X × WireStore X :=
  if inclusiveEnd < start then (.done, store)
  else match store.find start with
    | some r => (if r.Has inclusiveEnd then .done else .failed .notContained, store)
    | none => store.alloc start inclusiveEnd

def free (store : WireStore X) (start inclusiveEnd : ℕ) : CallResult X × WireStore X :=
  if inclusiveEnd < start then (.done, store)
  else if store.Covered start inclusiveEnd then
    (.done, store.filter fun r => ¬ r.Within start inclusiveEnd)
  else (.failed .notCovered, store)

def read (store : WireStore X) (wire : ℕ) : Except WireNotFound X :=
  match store.find wire with
  | none => .error .notAllocated
  | some r =>
    match r.value wire with
    | none => .error .unsetValueWithinAllocation
    | some x => .ok x

def write (store : WireStore X) (wire : ℕ) (value : X) : WireStore X :=
  store.map fun r => if r.Has wire then r.set wire value else r

def insert (store : WireStore X) (wire : ℕ) (value : X) : InsertResult X × WireStore X :=
  match store.read wire with
  | .error .notAllocated => (.notAllocated value, store)
  | .error .unsetValueWithinAllocation => (.previouslyUnset, store.write wire value)
  | .ok _ => (.previouslySet, store.write wire value)

def getMut (store : WireStore X) (wire : ℕ) (f : X → X) : Except WireNotFound X × WireStore X :=
  match store.read wire with
  | .error e => (.error e, store)
  | .ok x => (.ok x, store.write wire (f x))

def call (store : WireStore X) : Call X → CallResult X × WireStore X
  | .alloc start inclusiveEnd => store.alloc start inclusiveEnd
  | .allocRangeIfUnallocated start inclusiveEnd =>
    store.allocRangeIfUnallocated start inclusiveEnd
  | .insert wire value => (store.insert wire value).map .inserted id
  | .get wire => (.found (store.read wire), store)
  | .getMut wire f => (store.getMut wire f).map .found id
  | .free start inclusiveEnd => store.free start inclusiveEnd

end WireStore

end EdaBitGen.MacNCheese.WireMaps

/-!
## The contents of a wire map

The regions of the store are the allocations of the table, each with what its block holds.
-/

namespace EdaBitGen.MacNCheese.WireMaps

variable {X : Type}

/-- The heap with a block in the place of another. -/
def Heap.put (heap : Heap X) (base : ℕ) (block : ℕ → Option X) : Heap X :=
  { heap with blocks := Function.update heap.blocks base (some block) }

theorem Heap.blocks_put (heap : Heap X) (base : ℕ) (block : ℕ → Option X) :
    (heap.put base block).blocks base = some block :=
  Function.update_self _ _ _

theorem Heap.blocks_put_of_ne (heap : Heap X) {base base' : ℕ} (block : ℕ → Option X)
    (h : base' ≠ base) : (heap.put base block).blocks base' = heap.blocks base' :=
  Function.update_of_ne h _ _

def Allocation.contents (a : Allocation) (block : ℕ → Option X) : List (Option X) :=
  (List.range a.len).map block

theorem Allocation.length_contents (a : Allocation) (block : ℕ → Option X) :
    (a.contents block).length = a.len := by
  rw [contents, List.length_map, List.length_range]

/-- A region that is an allocation with what its block holds. -/
def Table.Holds (t : Table) (heap : Heap X) (r : Region X) : Prop :=
  ∃ a block, t.entries r.start = some a ∧ heap.blocks a.base = some block ∧
    r.contents = a.contents block

/-- Each allocation owns a block of its own, and the store has its region. -/
structure Mirrors (t : Table) (heap : Heap X) (store : WireStore X) : Prop where
  owned : ∀ s a, t.entries s = some a → a.ownership = .owned ∧ a.offset = 0
  allocated : ∀ s a, t.entries s = some a → ∃ block, heap.blocks a.base = some block
  fresh : ∀ s a, t.entries s = some a → a.base < heap.next
  distinct : ∀ s s' a a', t.entries s = some a → t.entries s' = some a' → a.base = a'.base → s = s'
  regions : ∀ r, r ∈ store ↔ t.Holds heap r

variable {t t' : Table} {heap heap' : Heap X} {store : WireStore X} {w s : ℕ} {a : Allocation}
  {block : ℕ → Option X}

theorem Table.Holds.has_iff {r : Region X} (h : t.Holds heap r) :
    r.Has w ↔ ∃ a, t.At w r.start a := by
  obtain ⟨a, block, ha, -, hcontents⟩ := h
  have hlen : r.contents.length = a.len := by rw [hcontents, a.length_contents]
  constructor
  · rintro ⟨hle, hlt⟩
    exact ⟨a, ha, hle, hlen ▸ hlt⟩
  · rintro ⟨a', ha', hle, hlt⟩
    obtain rfl := Option.some.inj (ha.symm.trans ha')
    exact ⟨hle, hlen ▸ hlt⟩

theorem mirrors_empty : Mirrors .empty (Heap.empty : Heap X) [] where
  owned _ _ h := nomatch h
  allocated _ _ h := nomatch h
  fresh _ _ h := nomatch h
  distinct _ _ _ _ h := nomatch h
  regions _ := ⟨nofun, fun ⟨_, _, h, _⟩ => nomatch h⟩

/-! ## Values -/

theorem value_contents (hs : s ≤ w) (hw : w < s + a.len) :
    (⟨s, a.contents block⟩ : Region X).value w = block (w - s) := by
  show (a.contents block)[w - s]?.join = _
  have hlt : w - s < a.len := by omega
  rw [Allocation.contents, List.getElem?_map, List.getElem?_range hlt]
  rfl

theorem set_contents (value : X) :
    (⟨s, a.contents block⟩ : Region X).set w value =
      ⟨s, a.contents (Function.update block (w - s) (some value))⟩ := by
  refine congrArg (Region.mk s) (List.ext_getElem (by simp [Allocation.contents]) ?_)
  intro i h₁ h₂
  simp only [Allocation.contents, List.getElem_set, List.getElem_map, List.getElem_range,
    Function.update_apply]
  exact if_congr eq_comm rfl rfl

namespace Mirrors

theorem mem_iff (h : Mirrors t heap store) {r : Region X} :
    r ∈ store ↔ ∃ s a block, t.entries s = some a ∧ heap.blocks a.base = some block ∧
      r = ⟨s, a.contents block⟩ := by
  rw [h.regions]
  constructor
  · rintro ⟨a, block, ha, hblock, hcontents⟩
    obtain ⟨start, contents⟩ := r
    exact ⟨start, a, block, ha, hblock, congrArg _ hcontents⟩
  · rintro ⟨s, a, block, ha, hblock, rfl⟩
    exact ⟨a, block, ha, hblock, rfl⟩

theorem find_eq_some (h : Mirrors t heap store) (hat : t.At w s a)
    (hblock : heap.blocks a.base = some block) : store.find w = some ⟨s, a.contents block⟩ := by
  have hmem : (⟨s, a.contents block⟩ : Region X) ∈ store :=
    h.mem_iff.2 ⟨s, a, block, hat.1, hblock, rfl⟩
  have hhas : (⟨s, a.contents block⟩ : Region X).Has w := by
    refine ⟨hat.2.1, ?_⟩
    rw [a.length_contents]
    exact hat.2.2
  cases hfind : store.find w with
  | none => exact absurd (decide_eq_true hhas) (List.find?_eq_none.1 hfind _ hmem)
  | some r =>
    have hr := (h.regions r).1 (List.mem_of_find?_eq_some hfind)
    have hfound := List.find?_some (p := fun r : Region X => decide (r.Has w)) hfind
    obtain ⟨a', hat'⟩ := hr.has_iff.1 (of_decide_eq_true hfound)
    obtain ⟨b, block', hb, hblock', hcontents⟩ := hr
    have hstart : r.start = s := hat'.start_eq hat
    rw [hstart, hat.1] at hb
    obtain rfl := Option.some.inj hb
    obtain rfl := Option.some.inj (hblock.symm.trans hblock')
    obtain ⟨start, contents⟩ := r
    exact congrArg some (by rw [show start = s from hstart, show contents = _ from hcontents])

theorem find_eq_none (h : Mirrors t heap store) (hnot : ∀ s a, ¬ t.At w s a) :
    store.find w = none := by
  refine List.find?_eq_none.2 fun r hr hhas => ?_
  obtain ⟨a, hat⟩ := ((h.regions r).1 hr).has_iff.1 (of_decide_eq_true hhas)
  exact hnot r.start a hat

theorem of_blocks (h : Mirrors t heap store) (hnext : heap.next ≤ heap'.next)
    (hblocks : ∀ base < heap.next, heap'.blocks base = heap.blocks base) :
    Mirrors t heap' store where
  owned := h.owned
  allocated s a ha := by
    rw [hblocks _ (h.fresh s a ha)]
    exact h.allocated s a ha
  fresh s a ha := (h.fresh s a ha).trans_le hnext
  distinct := h.distinct
  regions r := by
    rw [h.regions]
    constructor <;>
    · rintro ⟨a, block, ha, hblock, hcontents⟩
      refine ⟨a, block, ha, ?_, hcontents⟩
      have := hblocks _ (h.fresh _ a ha)
      simp_all

theorem insert (h : Mirrors t heap store) {len : ℕ} (hnone : t.entries s = none)
    (hentries : ∀ s', t'.entries s' =
      if s' = s then some (Allocation.newOwned heap len).1 else t.entries s') :
    Mirrors t' (Allocation.newOwned heap len).2 (⟨s, List.replicate len none⟩ :: store) := by
  have hnew : t'.entries s = some (Allocation.newOwned heap len).1 := by rw [hentries, if_pos rfl]
  have hold {s' a'} (hs' : s' ≠ s) : t'.entries s' = some a' ↔ t.entries s' = some a' := by
    rw [hentries, if_neg hs']
  have hblock : (Allocation.newOwned heap len).2.blocks heap.next = some fun _ => none :=
    Function.update_self _ _ _
  have hblocks {base} (hbase : base < heap.next) :
      (Allocation.newOwned heap len).2.blocks base = heap.blocks base :=
    Function.update_of_ne hbase.ne _ _
  constructor
  case owned =>
    intro s' a' ha'
    by_cases hs' : s' = s
    · rw [hs', hnew] at ha'
      exact Option.some.inj ha' ▸ ⟨rfl, rfl⟩
    · exact h.owned s' a' ((hold hs').1 ha')
  case allocated =>
    intro s' a' ha'
    by_cases hs' : s' = s
    · rw [hs', hnew] at ha'
      exact Option.some.inj ha' ▸ ⟨_, hblock⟩
    · have ha := (hold hs').1 ha'
      rw [hblocks (h.fresh s' a' ha)]
      exact h.allocated s' a' ha
  case fresh =>
    intro s' a' ha'
    by_cases hs' : s' = s
    · rw [hs', hnew] at ha'
      exact Option.some.inj ha' ▸ Nat.lt_succ_self _
    · exact (h.fresh s' a' ((hold hs').1 ha')).trans (Nat.lt_succ_self _)
  case distinct =>
    intro s₁ s₂ a₁ a₂ h₁ h₂ hbase
    by_cases hs₁ : s₁ = s <;> by_cases hs₂ : s₂ = s
    · rw [hs₁, hs₂]
    · rw [hs₁, hnew] at h₁
      obtain rfl := Option.some.inj h₁
      exact absurd hbase.symm (h.fresh s₂ a₂ ((hold hs₂).1 h₂)).ne
    · rw [hs₂, hnew] at h₂
      obtain rfl := Option.some.inj h₂
      exact absurd hbase (h.fresh s₁ a₁ ((hold hs₁).1 h₁)).ne
    · exact h.distinct s₁ s₂ a₁ a₂ ((hold hs₁).1 h₁) ((hold hs₂).1 h₂) hbase
  case regions =>
    intro r
    rw [List.mem_cons, h.regions]
    constructor
    · rintro (rfl | ⟨a, block, ha, hb, hcontents⟩)
      · refine ⟨_, _, hnew, hblock, ?_⟩
        rw [Allocation.contents, List.map_const', List.length_range]
        rfl
      · have hs' : r.start ≠ s := fun hs' => by
          rw [hs', hnone] at ha
          cases ha
        exact ⟨a, block, (hold hs').2 ha, (hblocks (h.fresh _ a ha)).trans hb, hcontents⟩
    · rintro ⟨a, block, ha, hb, hcontents⟩
      by_cases hs' : r.start = s
      · rw [hs', hnew] at ha
        obtain rfl := Option.some.inj ha
        obtain rfl := Option.some.inj (hblock.symm.trans hb)
        left
        obtain ⟨start, contents⟩ := r
        rw [Allocation.contents, List.map_const', List.length_range] at hcontents
        rw [show start = s from hs', show contents = _ from hcontents]
        rfl
      · have hold' := (hold hs').1 ha
        exact .inr ⟨a, block, hold', (hblocks (h.fresh _ a hold')).symm.trans hb, hcontents⟩

theorem write (h : Mirrors t heap store) (hat : t.At w s a)
    (hblock : heap.blocks a.base = some block) (value : X) :
    Mirrors t (heap.put a.base (Function.update block (w - s) (some value)))
      (store.write w value) := by
  have hother {s' a'} (ha' : t.entries s' = some a') (hs' : s' ≠ s) : a'.base ≠ a.base :=
    fun hbase => hs' (h.distinct s' s a' a ha' hat.1 hbase)
  constructor
  case owned => exact h.owned
  case allocated =>
    intro s' a' ha'
    by_cases hs' : s' = s
    · rw [hs', hat.1] at ha'
      obtain rfl := Option.some.inj ha'
      exact ⟨_, heap.blocks_put _ _⟩
    · obtain ⟨b, hb⟩ := h.allocated s' a' ha'
      exact ⟨b, (heap.blocks_put_of_ne _ (hother ha' hs')).trans hb⟩
  case fresh => exact h.fresh
  case distinct => exact h.distinct
  case regions =>
    intro r
    rw [WireStore.write, List.mem_map]
    constructor
    · rintro ⟨r', hr', rfl⟩
      obtain ⟨s', a', b, ha', hb, rfl⟩ := h.mem_iff.1 hr'
      have hhas := ((h.regions _).1 hr').has_iff (w := w)
      by_cases hs' : s' = s
      · subst hs'
        obtain rfl := Option.some.inj (hat.1.symm.trans ha')
        obtain rfl := Option.some.inj (hblock.symm.trans hb)
        rw [if_pos (hhas.2 ⟨a, hat⟩), set_contents]
        exact ⟨a, _, ha', heap.blocks_put _ _, rfl⟩
      · rw [if_neg fun hw => hs' ((hhas.1 hw).choose_spec.start_eq hat)]
        exact ⟨a', b, ha', (heap.blocks_put_of_ne _ (hother ha' hs')).trans hb, rfl⟩
    · rintro ⟨a', b, ha', hb, hcontents⟩
      by_cases hs' : r.start = s
      · rw [hs'] at ha'
        obtain rfl := Option.some.inj (hat.1.symm.trans ha')
        rw [heap.blocks_put] at hb
        obtain rfl := Option.some.inj hb
        have hmem : (⟨s, a.contents block⟩ : Region X) ∈ store :=
          h.mem_iff.2 ⟨s, a, block, hat.1, hblock, rfl⟩
        refine ⟨_, hmem, ?_⟩
        rw [if_pos (((h.regions _).1 hmem).has_iff.2 ⟨a, hat⟩), set_contents]
        obtain ⟨start, contents⟩ := r
        rw [show start = s from hs', show contents = _ from hcontents]
      · rw [heap.blocks_put_of_ne _ (hother ha' hs')] at hb
        have hmem : r ∈ store := (h.regions r).2 ⟨a', b, ha', hb, hcontents⟩
        refine ⟨r, hmem, if_neg fun hw => ?_⟩
        obtain ⟨a'', hat'⟩ := ((h.regions r).1 hmem).has_iff.1 hw
        exact hs' (hat'.start_eq hat)

theorem remove (h : Mirrors t heap store) (ha : t.entries s = some a) :
    Mirrors (t.remove (· = s)) (a.drop heap) (store.filter fun r => r.start ≠ s) := by
  have hblocks {s' a'} (ha' : (t.remove (· = s)).entries s' = some a') :
      (a.drop heap).blocks a'.base = heap.blocks a'.base := by
    obtain ⟨hs', ha'⟩ := Table.remove_entries.1 ha'
    rw [Allocation.drop]
    split
    · exact Function.update_of_ne (fun hbase => hs' (h.distinct s' s a' a ha' ha hbase)) _ _
    · rfl
  have hnext : (a.drop heap).next = heap.next := by
    rw [Allocation.drop]
    split <;> rfl
  constructor
  case owned => exact fun s' a' ha' => h.owned s' a' (Table.remove_entries.1 ha').2
  case allocated =>
    intro s' a' ha'
    rw [hblocks ha']
    exact h.allocated s' a' (Table.remove_entries.1 ha').2
  case fresh =>
    intro s' a' ha'
    rw [hnext]
    exact h.fresh s' a' (Table.remove_entries.1 ha').2
  case distinct =>
    exact fun s₁ s₂ a₁ a₂ h₁ h₂ =>
      h.distinct s₁ s₂ a₁ a₂ (Table.remove_entries.1 h₁).2 (Table.remove_entries.1 h₂).2
  case regions =>
    intro r
    rw [List.mem_filter, h.regions, decide_eq_true_iff]
    constructor
    · rintro ⟨⟨a', b, ha', hb, hcontents⟩, hs'⟩
      have hkept : (t.remove (· = s)).entries r.start = some a' := Table.remove_entries.2 ⟨hs', ha'⟩
      exact ⟨a', b, hkept, (hblocks hkept).trans hb, hcontents⟩
    · rintro ⟨a', b, ha', hb, hcontents⟩
      obtain ⟨hs', hkept⟩ := Table.remove_entries.1 ha'
      exact ⟨⟨a', b, hkept, (hblocks ha').symm.trans hb, hcontents⟩, hs'⟩

theorem clear_iff (h : Mirrors t heap store) {start inclusiveEnd : ℕ} :
    t.Clear start inclusiveEnd ↔ ∀ r ∈ store, r.Clear start inclusiveEnd := by
  constructor
  · intro hclear r hr
    obtain ⟨s, a, block, ha, -, rfl⟩ := h.mem_iff.1 hr
    rw [Region.Clear, a.length_contents]
    exact hclear s a ha
  · intro hclear s a ha
    obtain ⟨block, hblock⟩ := h.allocated s a ha
    have := hclear _ (h.mem_iff.2 ⟨s, a, block, ha, hblock, rfl⟩)
    rwa [Region.Clear, a.length_contents] at this

theorem covered_iff (h : Mirrors t heap store) {start inclusiveEnd : ℕ} :
    store.Covered start inclusiveEnd ↔ t.Covers start inclusiveEnd := by
  constructor
  · intro hcovered wire hwire hle
    obtain ⟨r, hr, hwithin, hhas⟩ := hcovered (wire - start) (by omega)
    rw [Nat.add_sub_cancel' hwire] at hhas
    obtain ⟨s, a, block, ha, -, rfl⟩ := h.mem_iff.1 hr
    rw [Region.Within, a.length_contents] at hwithin
    rw [Region.Has, a.length_contents] at hhas
    exact ⟨s, a, ⟨ha, hhas⟩, hwithin⟩
  · intro hcovers i hi
    obtain ⟨s, a, hat, hwithin⟩ := hcovers (start + i) (by omega) (by omega)
    obtain ⟨block, hblock⟩ := h.allocated s a hat.1
    refine ⟨_, h.mem_iff.2 ⟨s, a, block, hat.1, hblock, rfl⟩, ?_, ?_⟩
    · rw [Region.Within, a.length_contents]
      exact hwithin
    · rw [Region.Has, a.length_contents]
      exact hat.2

end Mirrors

end EdaBitGen.MacNCheese.WireMaps
