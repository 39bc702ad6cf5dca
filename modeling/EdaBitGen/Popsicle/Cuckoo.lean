import EdaBitGen.Data.Lists

/-!
# Cuckoo hashing

The table in which the set intersection's receiver places its hashed inputs. Placing an item may
evict another one, which moves on to its next bin. The cipher and the rounding of a scaled set size
are parameters.
-/

namespace EdaBitGen.Popsicle

abbrev Block := BitVec 128

/-- An error of the source, or a panic. -/
inductive Failure
  | cuckooHashFull
  | invalidCuckooParameters (nitems nhashes : ℕ)
  | panic
  deriving DecidableEq

structure CuckooItem where
  entry : Block
  inputIndex : ℕ
  hashIndex : ℕ
  deriving DecidableEq

structure CuckooHash where
  items : List (Option CuckooItem)
  nbins : ℕ
  nhashes : ℕ
  deriving DecidableEq

/-- The number of times to loop when trying to place an entry in a bin. -/
def NITERS : ℕ := 1000

/-- `scaled c n` is the source's `(c * (n as f64)).ceil() as usize`, with the factor in hundredths. -/
def computeNbins (scaled : ℕ → ℕ → ℕ) (n nhashes : ℕ) : Except Failure ℕ :=
  if nhashes = 3 then
    if n < 2 ^ 27 then .ok (scaled 127 n) else .ok (scaled 162 n)
  else if nhashes = 4 then .ok (scaled 109 n)
  else if nhashes = 5 then .ok (scaled 105 n)
  else .error (.invalidCuckooParameters n nhashes)

/-- A remainder; that of a division by zero panics. -/
def remainder (a b : ℕ) : Except Failure ℕ := if b = 0 then .error .panic else .ok (a % b)

namespace CuckooHash

/-- `encrypt key m` is the cipher. -/
def bin (encrypt : Block → Block → Block) (hash : Block) (hidx nbins : ℕ) : Except Failure ℕ :=
  remainder (encrypt hash (BitVec.ofNat 128 hidx)).toNat nbins

/-- The rounds of `hash` that are left, with the item that has no bin. -/
def place (encrypt : Block → Block → Block) :
    ℕ → CuckooHash → CuckooItem → Except Failure CuckooHash
  | 0, _, _ => .error .cuckooHashFull
  | rounds + 1, t, item => do
    let i ← bin encrypt item.entry item.hashIndex t.nbins
    match t.items[i]? with
    | none => .error .panic
    | some none => .ok { t with items := t.items.set i (some item) }
    | some (some x) => do
      let hashIndex ← remainder (x.hashIndex + 1) t.nhashes
      place encrypt rounds { t with items := t.items.set i (some item) }
        { x with hashIndex := hashIndex }

def hash (encrypt : Block → Block → Block) (t : CuckooHash) (input : Block) (idx : ℕ) :
    Except Failure CuckooHash :=
  t.place encrypt NITERS { entry := input, inputIndex := idx, hashIndex := 0 }

/-- A sequence of insertions, up to the first that fails. -/
def hashAll (encrypt : Block → Block → Block) (t : CuckooHash) (inserted : List (Block × ℕ)) :
    Except Failure CuckooHash :=
  inserted.foldlM (fun t p => t.hash encrypt p.1 p.2) t

/-- The table before anything is placed. -/
def empty (nbins nhashes : ℕ) : CuckooHash :=
  { items := List.replicate nbins none, nbins := nbins, nhashes := nhashes }

def new (encrypt : Block → Block → Block) (scaled : ℕ → ℕ → ℕ) (inputs : List Block)
    (nhashes : ℕ) : Except Failure CuckooHash := do
  let nbins ← computeNbins scaled inputs.length nhashes
  (empty nbins nhashes).hashAll encrypt inputs.zipIdx

end CuckooHash

/-! ## The contents of a table -/

/-- What an insertion is about. -/
def CuckooItem.inserted (x : CuckooItem) : Block × ℕ := (x.entry, x.inputIndex)

namespace CuckooHash

variable {encrypt : Block → Block → Block}

def stored (t : CuckooHash) : List (Block × ℕ) := t.items.filterMap (Option.map CuckooItem.inserted)

/-- An item's hash index is below the number of hash functions. -/
def Indexed (nhashes : ℕ) (x : CuckooItem) : Prop := x.hashIndex < nhashes

/-- Every stored item is in its own bin. -/
def Placed (encrypt : Block → Block → Block) (t : CuckooHash) : Prop :=
  ∀ (i : ℕ) (x : CuckooItem), t.items[i]? = some (some x) →
    bin encrypt x.entry x.hashIndex t.nbins = .ok i ∧ Indexed t.nhashes x

/-- An input index occurs in exactly one bin. -/
def InOneBin (t : CuckooHash) (idx : ℕ) : Prop :=
  ∃! i : ℕ, ∃ x : CuckooItem, t.items[i]? = some (some x) ∧ x.inputIndex = idx

/-- Exactly what was inserted is stored, each item in its own bin. -/
structure Invariant (encrypt : Block → Block → Block) (inserted : List (Block × ℕ))
    (t : CuckooHash) : Prop where
  stored : t.stored.Perm inserted
  placed : t.Placed encrypt

theorem remainder_lt {a b r : ℕ} (h : remainder a b = .ok r) : r < b := by
  unfold remainder at h
  split at h
  · cases h
  · cases h
    exact Nat.mod_lt _ (by omega)

theorem stored_set_none {t : CuckooHash} {i : ℕ} (h : t.items[i]? = some none) (item : CuckooItem) :
    (stored { t with items := t.items.set i (some item) }).Perm (item.inserted :: t.stored) :=
  Slots.stored_set_none CuckooItem.inserted h item

theorem stored_set_some {t : CuckooHash} {i : ℕ} {x : CuckooItem}
    (h : t.items[i]? = some (some x)) (item : CuckooItem) :
    (x.inserted :: stored { t with items := t.items.set i (some item) }).Perm
      (item.inserted :: t.stored) :=
  Slots.stored_set_some CuckooItem.inserted h item

theorem Placed.set {t : CuckooHash} (ht : t.Placed encrypt) {item : CuckooItem} {i : ℕ}
    (hi : bin encrypt item.entry item.hashIndex t.nbins = .ok i) (hx : Indexed t.nhashes item) :
    Placed encrypt { t with items := t.items.set i (some item) } :=
  Slots.forall_set (P := fun j (x : CuckooItem) => bin encrypt x.entry x.hashIndex t.nbins = .ok j ∧
    Indexed t.nhashes x) ht ⟨hi, hx⟩

theorem place_invariant {inserted : List (Block × ℕ)} (rounds : ℕ) {t t' : CuckooHash}
    {item : CuckooItem} (ht : t.Placed encrypt) (hx : Indexed t.nhashes item)
    (hstored : (item.inserted :: t.stored).Perm inserted)
    (h : t.place encrypt rounds item = .ok t') :
    Invariant encrypt inserted t' ∧ t'.nbins = t.nbins ∧ t'.nhashes = t.nhashes := by
  induction rounds generalizing t item with
  | zero => cases h
  | succ rounds ih =>
    rw [place] at h
    cases hi : bin encrypt item.entry item.hashIndex t.nbins with
    | error e => simp [hi, bind, Except.bind] at h
    | ok i =>
      simp only [hi, bind, Except.bind] at h
      split at h
      · cases h
      · next hnone =>
        cases h
        exact ⟨⟨(stored_set_none hnone item).trans hstored, ht.set hi hx⟩, rfl, rfl⟩
      · next x hsome =>
        cases hr : remainder (x.hashIndex + 1) t.nhashes with
        | error e => simp [hr] at h
        | ok hashIndex =>
          simp only [hr] at h
          have hindex : Indexed t.nhashes { x with hashIndex := hashIndex } := remainder_lt hr
          have hset := ht.set hi hx
          have hrest := ih hset hindex ((stored_set_some hsome item).trans hstored) h
          exact hrest

theorem hash_invariant {inserted : List (Block × ℕ)} {t t' : CuckooHash} {input : Block} {idx : ℕ}
    (hn : 0 < t.nhashes) (ht : Invariant encrypt inserted t) (h : t.hash encrypt input idx = .ok t') :
    Invariant encrypt (inserted ++ [(input, idx)]) t' ∧ t'.nbins = t.nbins ∧
      t'.nhashes = t.nhashes := by
  have hindex : Indexed t.nhashes { entry := input, inputIndex := idx, hashIndex := 0 } := hn
  refine place_invariant NITERS ht.placed hindex ?_ h
  exact (ht.stored.cons _).trans (List.perm_append_singleton _ _).symm

theorem hashAll_invariant {inserted more : List (Block × ℕ)} {t t' : CuckooHash}
    (hn : 0 < t.nhashes) (ht : Invariant encrypt inserted t) (h : t.hashAll encrypt more = .ok t') :
    Invariant encrypt (inserted ++ more) t' ∧ t'.nbins = t.nbins ∧ t'.nhashes = t.nhashes := by
  induction more generalizing inserted t with
  | nil =>
    cases h
    rw [List.append_nil]
    exact ⟨ht, rfl, rfl⟩
  | cons p more ih =>
    rw [hashAll, List.foldlM_cons] at h
    cases hp : t.hash encrypt p.1 p.2 with
    | error e => simp [hp, bind, Except.bind] at h
    | ok u =>
      simp only [hp, bind, Except.bind] at h
      obtain ⟨hu, hbins, hhashes⟩ := hash_invariant hn ht hp
      obtain ⟨hinv, hbins', hhashes'⟩ := ih (by rwa [hhashes]) hu h
      rw [List.append_assoc] at hinv
      exact ⟨hinv, hbins'.trans hbins, hhashes'.trans hhashes⟩

theorem empty_invariant (nbins nhashes : ℕ) : Invariant encrypt [] (empty nbins nhashes) where
  stored := by simp [CuckooHash.stored, empty]
  placed := by
    intro i x hx
    rw [empty, List.getElem?_replicate] at hx
    split at hx <;> cases hx

theorem computeNbins_pos {scaled : ℕ → ℕ → ℕ} {n nhashes nbins : ℕ}
    (h : computeNbins scaled n nhashes = .ok nbins) : 0 < nhashes := by
  by_contra hn
  obtain rfl : nhashes = 0 := by omega
  cases h

theorem Invariant.inOneBin {inserted : List (Block × ℕ)} {t : CuckooHash}
    (ht : Invariant encrypt inserted t) (hnodup : (inserted.map Prod.snd).Nodup) {p : Block × ℕ}
    (hp : p ∈ inserted) : t.InOneBin p.2 := by
  have hmem : p ∈ t.stored := ht.stored.mem_iff.2 hp
  obtain ⟨o, ho, hop⟩ := List.mem_filterMap.1 hmem
  obtain ⟨x, rfl, rfl⟩ := Option.map_eq_some_iff.1 hop
  obtain ⟨i, hi⟩ := List.mem_iff_getElem?.1 ho
  have hpair : (t.stored.map Prod.snd).Nodup := (ht.stored.map Prod.snd).nodup_iff.2 hnodup
  rw [List.Nodup, List.pairwise_map, CuckooHash.stored, List.pairwise_filterMap,
    List.pairwise_iff_getElem] at hpair
  -- two bins with one index would repeat it among the indices that were inserted
  have hne : ∀ (i j : ℕ) (y z : CuckooItem), i < j → t.items[i]? = some (some y) →
      t.items[j]? = some (some z) → y.inputIndex ≠ z.inputIndex := by
    intro i j y z hij hy hz
    obtain ⟨hi, hyi⟩ := List.getElem?_eq_some_iff.1 hy
    obtain ⟨hj, hzj⟩ := List.getElem?_eq_some_iff.1 hz
    exact hpair i j hi hj hij y.inserted (by rw [hyi]; rfl) z.inserted (by rw [hzj]; rfl)
  refine ⟨i, ⟨x, hi, rfl⟩, ?_⟩
  rintro j ⟨y, hy, hyx⟩
  obtain hlt | rfl | hlt := Nat.lt_trichotomy i j
  · exact absurd hyx.symm (hne i j x y hlt hi hy)
  · rfl
  · exact absurd hyx (hne j i y x hlt hy hi)

/-- However the insertions went, from the table with which `new` starts: what was inserted is what is
stored, indices that were inserted once are in one bin each, and every item is in the bin of its hash
index; one more insertion adds its own item. -/
theorem hashAll_empty_invariant (encrypt : Block → Block → Block) (scaled : ℕ → ℕ → ℕ)
    (n nhashes nbins : ℕ) (inserted : List (Block × ℕ)) (t : CuckooHash)
    (hnbins : computeNbins scaled n nhashes = .ok nbins)
    (hinserted : (empty nbins nhashes).hashAll encrypt inserted = .ok t) :
    t.stored.Perm inserted ∧
    ((inserted.map Prod.snd).Nodup → ∀ p ∈ inserted, t.InOneBin p.2) ∧
    (∀ (i : ℕ) (x : CuckooItem), t.items[i]? = some (some x) →
      bin encrypt x.entry x.hashIndex nbins = .ok i ∧ x.hashIndex < nhashes) ∧
    (∀ (input : Block) (idx : ℕ) (u : CuckooHash), t.hash encrypt input idx = .ok u →
      u.stored.Perm ((input, idx) :: t.stored)) := by
  have hpos := computeNbins_pos hnbins
  obtain ⟨ht, hbins, hhashes⟩ := hashAll_invariant hpos (empty_invariant nbins nhashes) hinserted
  refine ⟨ht.stored, fun hnodup p hp => ht.inOneBin hnodup hp, fun i x hx => ?_,
    fun input idx u hu => ?_⟩
  · obtain ⟨hbin, hindex⟩ := ht.placed i x hx
    rw [hbins] at hbin
    rw [Indexed, hhashes] at hindex
    exact ⟨hbin, hindex⟩
  · obtain ⟨hu, -, -⟩ := hash_invariant (by rwa [hhashes]) ht hu
    exact hu.stored.trans ((List.perm_append_singleton _ _).trans (ht.stored.symm.cons _))

/-- The second input evicts the first one, which moves on to its second bin. -/
theorem hashAll_empty_invariant_two :
    (CuckooHash.mk [some ⟨3, 1, 0⟩, some ⟨0, 0, 1⟩, none] 3 3).stored.Perm [(0, 0), (3, 1)] :=
  (hashAll_empty_invariant (fun key m => key + m) (fun _ n => n + 1) 2 3 3 [(0, 0), (3, 1)]
    ⟨[some ⟨3, 1, 0⟩, some ⟨0, 0, 1⟩, none], 3, 3⟩ (by decide) (by decide +kernel)).1

end CuckooHash

end EdaBitGen.Popsicle
