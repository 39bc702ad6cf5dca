import EdaBitGen.Memory.Model

/-!
# Pools of disjoint blocks

When the blocks of a pool are disjoint, the block with the greatest first wire up to a wire is the
only one that can have it, and the cache agrees with the search.
-/

namespace EdaBitGen

namespace WirePool

variable {X : Type}

/-! ## The search -/

theorem floor_eq_some {blocks : ℕ → Option (Buffer X)} {id k : ℕ} {v : Buffer X}
    (h : floor blocks id = some (k, v)) :
    k ≤ id ∧ blocks k = some v ∧ ∀ j, k < j → j ≤ id → blocks j = none := by
  induction id with
  | zero =>
    obtain ⟨w, hw, heq⟩ := Option.map_eq_some_iff.1 h
    obtain ⟨rfl, rfl⟩ := Prod.mk.inj heq
    exact ⟨le_rfl, hw, fun j h0 h1 => by omega⟩
  | succ id ih =>
    unfold floor at h
    cases hblock : blocks (id + 1) with
    | some w =>
      rw [hblock] at h
      obtain ⟨rfl, rfl⟩ := Prod.mk.inj (Option.some.inj h)
      exact ⟨le_rfl, hblock, fun j h0 h1 => by omega⟩
    | none =>
      rw [hblock] at h
      obtain ⟨hk, hv, hnone⟩ := ih h
      refine ⟨by omega, hv, fun j h0 h1 => ?_⟩
      rcases Nat.lt_or_ge id j with hj | hj
      · have : j = id + 1 := by omega
        rwa [this]
      · exact hnone j h0 hj

theorem floor_eq_of {blocks : ℕ → Option (Buffer X)} {id k : ℕ} {v : Buffer X}
    (hk : k ≤ id) (hv : blocks k = some v) (hnone : ∀ j, k < j → j ≤ id → blocks j = none) :
    floor blocks id = some (k, v) := by
  induction id with
  | zero =>
    obtain rfl : k = 0 := by omega
    rw [floor, hv, Option.map_some]
  | succ id ih =>
    unfold floor
    rcases Nat.lt_or_ge id k with hlt | hge
    · obtain rfl : k = id + 1 := by omega
      rw [hv]
    · rw [hnone (id + 1) (by omega) le_rfl]
      exact ih hge fun j h0 h1 => hnone j h0 (by omega)

/-- The cache entry of the block that has the wire. -/
structure Covers (p : WirePool X) (id : ℕ) (c : Cache) : Prop where
  first_le : c.first ≤ id
  le_last : id ≤ c.last
  block : ∃ v, p.blocks c.first = some v ∧ c.last = c.first + v.elems.length - 1 ∧
    c.stamp = v.stamp

/-- The blocks are disjoint and not empty, and the cache is one of them. -/
structure Ok (p : WirePool X) : Prop where
  pos : ∀ k v, p.blocks k = some v → 0 < v.elems.length
  disjoint : ∀ k v, p.blocks k = some v → ∀ j, k < j → j < k + v.elems.length → p.blocks j = none
  cache : ∀ c, p.cache = some c → ∃ v, p.blocks c.first = some v ∧
    c.last = c.first + v.elems.length - 1 ∧ c.stamp = v.stamp

theorem ok_new : (new : WirePool X).Ok where
  pos _ _ h := by cases h
  disjoint _ _ h := by cases h
  cache _ h := by cases h

theorem lookup_new (id : ℕ) : (new : WirePool X).lookup id = none := by
  have hfloor : floor (fun _ => none : ℕ → Option (Buffer X)) id = none := by
    induction id with
    | zero => rfl
    | succ id ih => exact ih
  unfold lookup new
  rw [hfloor]

variable {p : WirePool X}

theorem covers_of_lookup {id : ℕ} {c : Cache} (h : p.lookup id = some c) : p.Covers id c := by
  unfold lookup at h
  cases hfloor : floor p.blocks id with
  | none => simp [hfloor] at h
  | some kv =>
    obtain ⟨k, v⟩ := kv
    simp only [hfloor] at h
    split_ifs at h with hin
    obtain rfl := Option.some.inj h
    obtain ⟨hk, hv, -⟩ := floor_eq_some hfloor
    exact ⟨hin.1, hin.2, v, hv, rfl, rfl⟩

theorem Covers.lookup_eq (hp : p.Ok) {id : ℕ} {c : Cache} (h : p.Covers id c) :
    p.lookup id = some c := by
  obtain ⟨first, last, stamp⟩ := c
  obtain ⟨hfirst, hlast, v, hv, heq, hstamp⟩ := h
  simp only at hfirst hlast hv heq hstamp
  subst heq hstamp
  have hpos := hp.pos _ _ hv
  have hfloor := floor_eq_of hfirst hv fun j h0 h1 => hp.disjoint _ _ hv j h0 (by omega)
  simp only [lookup, hfloor]
  rw [if_pos ⟨hfirst, hlast⟩]

theorem lookup_of_mem {id j : ℕ} {c : Cache} (hp : p.Ok) (h : p.lookup id = some c)
    (h0 : c.first ≤ j) (h1 : j ≤ c.last) : p.lookup j = some c :=
  Covers.lookup_eq hp ⟨h0, h1, (covers_of_lookup h).block⟩

theorem lookup_of_inCache (hp : p.Ok) {id : ℕ} (h : p.inCache id = true) :
    ∃ c, p.cache = some c ∧ p.lookup id = some c := by
  unfold inCache at h
  cases hcache : p.cache with
  | none => simp [hcache] at h
  | some c =>
    simp only [hcache, Bool.and_eq_true, decide_eq_true_eq] at h
    exact ⟨c, rfl, Covers.lookup_eq hp ⟨h.1, h.2, hp.cache c hcache⟩⟩

/-! ## Operations -/

theorem lookup_congr {q : WirePool X} (h : q.blocks = p.blocks) (id : ℕ) :
    q.lookup id = p.lookup id := by
  unfold lookup
  rw [h]

theorem Ok.setCache (hp : p.Ok) {id : ℕ} {c : Cache} (h : p.lookup id = some c) :
    ({ p with cache := some c } : WirePool X).Ok where
  pos := hp.pos
  disjoint := hp.disjoint
  cache := by
    intro c' hc'
    obtain rfl := Option.some.inj hc'
    exact (covers_of_lookup h).block

theorem present_eq (hp : p.Ok) (id : ℕ) :
    (p.present id).1 = (p.lookup id).isSome ∧ (p.present id).2.blocks = p.blocks ∧
      (p.present id).2.Ok := by
  unfold present
  by_cases hin : p.inCache id
  · obtain ⟨c, -, hlookup⟩ := lookup_of_inCache hp hin
    rw [if_pos hin, hlookup]
    exact ⟨rfl, rfl, hp⟩
  · rw [if_neg hin]
    cases hlookup : p.lookup id with
    | none => exact ⟨rfl, rfl, hp⟩
    | some c => exact ⟨rfl, rfl, hp.setCache hlookup⟩

theorem getPtr_eq (hp : p.Ok) {id : ℕ} {c : Cache} (h : p.lookup id = some c) (level : ℕ) :
    ∃ q, p.getPtr level id = some (⟨level, some c.first, c.stamp, id - c.first⟩, q) ∧
      q.blocks = p.blocks ∧ q.Ok := by
  unfold getPtr moveToCacheIfNecessary
  by_cases hin : p.inCache id
  · obtain ⟨c', hcache, hlookup⟩ := lookup_of_inCache hp hin
    obtain rfl : c = c' := Option.some.inj (h.symm.trans hlookup)
    rw [if_pos hin, hcache]
    exact ⟨p, rfl, rfl, hp⟩
  · rw [if_neg hin, h]
    exact ⟨_, rfl, rfl, hp.setCache h⟩

variable [Inhabited X]

theorem insert_eq (hp : p.Ok) {first last : ℕ} (hle : first ≤ last)
    (hfree : ∀ id, first ≤ id → id ≤ last → p.lookup id = none) (stamp : ℕ) :
    ∃ q, p.insert stamp first last = some q ∧ q.Ok ∧
      q.blocks = Function.update p.blocks first
        (some ⟨stamp, List.replicate (last - first + 1) default⟩) ∧
      ∀ id, q.lookup id =
        if first ≤ id ∧ id ≤ last then some ⟨first, last, stamp⟩ else p.lookup id := by
  have hnone : ∀ k, first ≤ k → k ≤ last → p.blocks k = none := by
    intro k h0 h1
    by_contra hk
    obtain ⟨v, hv⟩ := Option.ne_none_iff_exists'.1 hk
    have hpos := hp.pos k v hv
    have hcovers : p.Covers k ⟨k, k + v.elems.length - 1, v.stamp⟩ :=
      ⟨le_rfl, by show k ≤ k + v.elems.length - 1; omega, v, hv, rfl, rfl⟩
    have := hcovers.lookup_eq hp
    rw [hfree k h0 h1] at this
    cases this
  have hbefore : ∀ k v, p.blocks k = some v → k < first → k + v.elems.length ≤ first := by
    intro k v hv hlt
    by_contra hgt
    have hcovers : p.Covers first ⟨k, k + v.elems.length - 1, v.stamp⟩ :=
      ⟨hlt.le, by show first ≤ k + v.elems.length - 1; omega, v, hv, rfl, rfl⟩
    have := hcovers.lookup_eq hp
    rw [hfree first le_rfl hle] at this
    cases this
  refine ⟨_, if_pos hle, ?_⟩
  have hok : (⟨Function.update p.blocks first
      (some ⟨stamp, List.replicate (last - first + 1) default⟩), none⟩ : WirePool X).Ok := by
    refine ⟨fun k v hv => ?_, fun k v hv j h0 h1 => ?_, fun c hc => by cases hc⟩ <;>
      dsimp only at hv ⊢
    · rcases eq_or_ne k first with rfl | hne
      · rw [Function.update_self] at hv
        obtain rfl := Option.some.inj hv
        simp
      · rw [Function.update_of_ne hne] at hv
        exact hp.pos k v hv
    · rcases eq_or_ne k first with rfl | hne
      · rw [Function.update_self] at hv
        obtain rfl := Option.some.inj hv
        rw [List.length_replicate] at h1
        rw [Function.update_of_ne (by omega)]
        exact hnone j h0.le (by omega)
      · rw [Function.update_of_ne hne] at hv
        rcases eq_or_ne j first with rfl | hj
        · have := hbefore k v hv h0
          omega
        · rw [Function.update_of_ne hj]
          exact hp.disjoint k v hv j h0 h1
  refine ⟨hok, rfl, fun id => ?_⟩
  split_ifs with hin
  · refine Covers.lookup_eq hok ⟨hin.1, hin.2, _, Function.update_self _ _ _, ?_, rfl⟩
    rw [List.length_replicate]
    show last = first + (last - first + 1) - 1
    omega
  · cases hlookup : p.lookup id with
    | some c =>
      obtain ⟨h0, h1, v, hv, heq, hstamp⟩ := covers_of_lookup hlookup
      have hne : c.first ≠ first := by
        intro h
        rw [h, hnone first le_rfl hle] at hv
        cases hv
      refine Covers.lookup_eq hok ⟨h0, h1, v, ?_, heq, hstamp⟩
      rw [← hv]
      exact Function.update_of_ne hne _ _
    | none =>
      by_contra hsome
      obtain ⟨c, hc⟩ := Option.ne_none_iff_exists'.1 hsome
      obtain ⟨h0, h1, v, hv, heq, hstamp⟩ := covers_of_lookup hc
      rcases eq_or_ne c.first first with h | hne
      · rw [h] at hv heq h0
        simp only [Function.update_self] at hv
        obtain rfl := Option.some.inj hv
        rw [List.length_replicate] at heq
        omega
      · have hv' : p.blocks c.first = some v := by
          rw [← hv]
          exact (Function.update_of_ne hne _ _).symm
        have := Covers.lookup_eq hp ⟨h0, h1, v, hv', heq, hstamp⟩
        rw [hlookup] at this
        cases this

omit [Inhabited X] in
theorem remove_eq (hp : p.Ok) {k : ℕ} {v : Buffer X} (hv : p.blocks k = some v) :
    ∃ q, p.remove k = some (v.elems.length, q) ∧ q.Ok ∧
      q.blocks = Function.update p.blocks k none ∧
      ∀ id, q.lookup id = if k ≤ id ∧ id < k + v.elems.length then none else p.lookup id := by
  have hok : (⟨Function.update p.blocks k none, none⟩ : WirePool X).Ok := by
    have hold : ∀ j w, Function.update p.blocks k none j = some w → p.blocks j = some w := by
      intro j w hw
      rcases eq_or_ne j k with rfl | hne
      · rw [Function.update_self] at hw
        cases hw
      · rwa [Function.update_of_ne hne] at hw
    refine ⟨fun j w hw => hp.pos j w (hold j w hw), fun j w hw i h0 h1 => ?_,
      fun c hc => by cases hc⟩
    have hnone := hp.disjoint j w (hold j w hw) i h0 h1
    rcases eq_or_ne i k with rfl | hne
    · exact Function.update_self _ _ _
    · exact (Function.update_of_ne hne _ _).trans hnone
  refine ⟨_, by rw [remove, hv, Option.map_some], hok, rfl, fun id => ?_⟩
  have hcover : ∀ c, p.Covers id c → c.first ≠ k →
      ¬(k ≤ id ∧ id < k + v.elems.length) := by
    rintro c ⟨h0, h1, w, hw, heq, -⟩ hne ⟨h2, h3⟩
    have hpos := hp.pos _ _ hw
    rcases Nat.lt_or_gt_of_ne hne with hlt | hgt
    · have := hp.disjoint _ _ hw k hlt (by omega)
      rw [hv] at this
      cases this
    · have := hp.disjoint _ _ hv c.first hgt (by omega)
      rw [hw] at this
      cases this
  have hcovers_k : ∀ c, p.Covers id c → c.first = k → k ≤ id ∧ id < k + v.elems.length := by
    rintro c ⟨h0, h1, w, hw, heq, -⟩ rfl
    rw [hv] at hw
    obtain rfl := Option.some.inj hw
    have hpos := hp.pos _ _ hv
    exact ⟨h0, by omega⟩
  split_ifs with hin
  · by_contra hsome
    obtain ⟨c, hc⟩ := Option.ne_none_iff_exists'.1 hsome
    obtain ⟨h0, h1, w, hw, heq, hstamp⟩ := covers_of_lookup hc
    rcases eq_or_ne c.first k with h | hne
    · rw [h] at hw
      simp only [Function.update_self] at hw
      cases hw
    · have hw' : p.blocks c.first = some w := by
        rw [← hw]
        exact (Function.update_of_ne hne _ _).symm
      exact hcover c ⟨h0, h1, w, hw', heq, hstamp⟩ hne hin
  · cases hlookup : p.lookup id with
    | some c =>
      have hc := covers_of_lookup hlookup
      have hne : c.first ≠ k := fun h => hin (hcovers_k c hc h)
      obtain ⟨h0, h1, w, hw, heq, hstamp⟩ := hc
      refine Covers.lookup_eq hok ⟨h0, h1, w, ?_, heq, hstamp⟩
      rw [← hw]
      exact Function.update_of_ne hne _ _
    | none =>
      by_contra hsome
      obtain ⟨c, hc⟩ := Option.ne_none_iff_exists'.1 hsome
      obtain ⟨h0, h1, w, hw, heq, hstamp⟩ := covers_of_lookup hc
      have hne : c.first ≠ k := by
        intro h
        rw [h] at hw
        simp only [Function.update_self] at hw
        cases hw
      have hw' : p.blocks c.first = some w := by
        rw [← hw]
        exact (Function.update_of_ne hne _ _).symm
      have := Covers.lookup_eq hp ⟨h0, h1, w, hw', heq, hstamp⟩
      rw [hlookup] at this
      cases this

/-! ## Writes -/

/-- The pool with other elements in one of its blocks. -/
def setBlock (p : WirePool X) (k : ℕ) (v : Buffer X) : WirePool X :=
  { p with blocks := Function.update p.blocks k (some v) }

omit [Inhabited X] in
theorem floor_update {blocks : ℕ → Option (Buffer X)} {k : ℕ} {v w : Buffer X}
    (hw : blocks k = some w) (id : ℕ) :
    floor (Function.update blocks k (some v)) id =
      (floor blocks id).map fun b => if b.1 = k then (k, v) else b := by
  induction id with
  | zero =>
    unfold floor
    rcases eq_or_ne 0 k with rfl | hne
    · rw [Function.update_self, hw]
      rfl
    · rw [Function.update_of_ne hne]
      cases blocks 0 with
      | none => rfl
      | some b => simp [hne]
  | succ id ih =>
    unfold floor
    rcases eq_or_ne (id + 1) k with rfl | hne
    · rw [Function.update_self, hw]
      simp
    · rw [Function.update_of_ne hne]
      cases blocks (id + 1) with
      | none => exact ih
      | some b => simp [hne]

omit [Inhabited X] in
theorem lookup_setBlock {k : ℕ} {v w : Buffer X} (hw : p.blocks k = some w)
    (hstamp : v.stamp = w.stamp) (hlength : v.elems.length = w.elems.length) (id : ℕ) :
    (p.setBlock k v).lookup id = p.lookup id := by
  unfold lookup
  have hfloor : floor (p.setBlock k v).blocks id = _ := floor_update hw id
  rw [hfloor]
  cases hblock : floor p.blocks id with
  | none => rfl
  | some b =>
    obtain ⟨j, u⟩ := b
    rw [Option.map_some]
    rcases eq_or_ne j k with rfl | hne
    · obtain ⟨-, hu, -⟩ := floor_eq_some hblock
      obtain rfl : w = u := Option.some.inj (hw.symm.trans hu)
      simp only [if_true, hstamp, hlength]
    · simp only [if_neg hne]

omit [Inhabited X] in
theorem Ok.setBlock (hp : p.Ok) {k : ℕ} {v w : Buffer X} (hw : p.blocks k = some w)
    (hstamp : v.stamp = w.stamp) (hlength : v.elems.length = w.elems.length) :
    (p.setBlock k v).Ok := by
  have hold : ∀ j u, (p.setBlock k v).blocks j = some u →
      ∃ u', p.blocks j = some u' ∧ u.stamp = u'.stamp ∧ u.elems.length = u'.elems.length := by
    intro j u hu
    rcases eq_or_ne j k with rfl | hne
    · have hself : (p.setBlock j v).blocks j = some v := by
        show Function.update p.blocks j (some v) j = some v
        rw [Function.update_self]
      obtain rfl : v = u := Option.some.inj (hself.symm.trans hu)
      exact ⟨w, hw, hstamp, hlength⟩
    · have hother : (p.setBlock k v).blocks j = p.blocks j := Function.update_of_ne hne _ _
      exact ⟨u, hother.symm.trans hu, rfl, rfl⟩
  refine ⟨fun j u hu => ?_, fun j u hu i h0 h1 => ?_, fun c hc => ?_⟩
  · obtain ⟨u', hu', -, hlen⟩ := hold j u hu
    have := hp.pos j u' hu'
    omega
  · obtain ⟨u', hu', -, hlen⟩ := hold j u hu
    have hnone := hp.disjoint j u' hu' i h0 (by omega)
    have hne : i ≠ k := by
      rintro rfl
      rw [hw] at hnone
      cases hnone
    exact (Function.update_of_ne hne _ _).trans hnone
  · obtain ⟨u, hu, hlast, hc'⟩ := hp.cache c hc
    rcases eq_or_ne c.first k with h | hne
    · rw [h] at hu
      obtain rfl : w = u := Option.some.inj (hw.symm.trans hu)
      refine ⟨v, ?_, by omega, by omega⟩
      rw [h]
      exact Function.update_self _ _ _
    · exact ⟨u, (Function.update_of_ne hne _ _).trans hu, hlast, hc'⟩

end WirePool

end EdaBitGen
