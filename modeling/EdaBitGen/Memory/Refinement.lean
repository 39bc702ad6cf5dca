import EdaBitGen.Memory.Store

/-!
# The memory refines the reference store
-/

namespace EdaBitGen

namespace Store

variable {X : Type}

/-- The wires of a store are those its frames declare. -/
structure Ok (s : Store X) : Prop where
  own : ∀ level ≤ s.top, ∀ id x, (s.frames level).own id = some x →
    totalCount (s.frames level).args ≤ id ∧ (s.frames level).InBounds id
  range : ∀ level ≤ s.top, ∀ r ∈ (s.frames level).args, r.level < level ∧
    totalCount (s.frames r.level).args ≤ r.first ∧
    ∀ i < r.count, (s.frames r.level).InBounds (r.first + i)

end Store

variable {X : Type}

/-- The frame of the memory represents a frame of the store. -/
structure Represents (m : Memory X) (level : ℕ) (a : StoreFrame X) (f : Frame X) : Prop where
  size : f.callframeSize = totalCount a.args
  passed : Passed m.place f a.outputs a.inputs
  argsRoom : f.callframeIsVector = true →
    ∃ n, a.argsCount = some n ∧ n < f.callframeVector.length
  ok : f.memframeIsVector = false → f.memframePool.Ok
  room : f.memframeIsVector = true →
    ∃ n, a.vectorSize = some n ∧ n < f.memframeVector.elems.length
  allocations : f.memframeIsVector = false → ∀ k n, a.allocations k = some n ↔
    0 < n ∧ ∃ stamp, f.memframePool.lookup k = some ⟨k, k + n - 1, stamp⟩
  value : ∀ id x, a.own id = some x → m.read (f.place level id) = some x

structure Refines (s : Store X) (m : Memory X) : Prop where
  top : m.top = s.top
  store : s.Ok
  frame : ∀ level ≤ s.top, ∃ f, m.stack[level]? = some f ∧ Represents m level (s.frames level) f

namespace Frame

theorem fits_of_represents {m : Memory X} {level : ℕ} {a : StoreFrame X} {f : Frame X}
    (h : Represents m level a f) {id : ℕ} (hid : totalCount a.args ≤ id) (hbound : a.InBounds id) :
    f.Fits id := by
  refine ⟨by rw [h.size]; exact hid, fun hvec => ?_⟩
  obtain ⟨n, hn, hlt⟩ := h.room hvec
  have := hbound n hn
  omega

theorem level_place (f : Frame X) (level id : ℕ) :
    (∃ ptr, f.place level id = .cell ptr ∧ ptr.level = level) ∨
      f.place level id = .wire level id := by
  unfold place
  split_ifs
  · exact .inl ⟨_, rfl, rfl⟩
  · cases f.memframePool.lookup id with
    | some c => exact .inl ⟨_, rfl, rfl⟩
    | none => exact .inr rfl

end Frame

namespace Memory

theorem read_setPool {m m' : Memory X} {level : ℕ} {f : Frame X} {q : WirePool X}
    (hf : m.stack[level]? = some f)
    (hf' : m'.stack[level]? = some { f with memframePool := q }) {id : ℕ}
    (hlookup : q.lookup id = f.memframePool.lookup id)
    (hblocks : ∀ c, f.memframePool.lookup id = some c →
      q.blocks c.first = f.memframePool.blocks c.first) :
    m'.read (({ f with memframePool := q } : Frame X).place level id) =
      m.read (f.place level id) := by
  rcases Bool.eq_false_or_eq_true f.memframeIsVector with hvec | hvec
  · rw [Frame.place_vector hvec, Frame.place_vector (by exact hvec)]
    show m'.deref _ = m.deref _
    unfold deref
    rw [hf, hf']
    rfl
  · rw [Frame.place_pool hvec, Frame.place_pool (by exact hvec), hlookup]
    cases hc : f.memframePool.lookup id with
    | none =>
      show m'.getUnallocated level id = m.getUnallocated level id
      unfold getUnallocated
      rw [hf, hf']
      rfl
    | some c =>
      have hbuffer : ({ f with memframePool := q } : Frame X).buffer (some c.first) =
          f.buffer (some c.first) := hblocks c hc
      show m'.deref _ = m.deref _
      unfold deref
      simp only [hf, hf', Option.bind_eq_bind, Option.bind_some]
      rw [hbuffer]

theorem read_congr {m m' : Memory X} {f : Frame X} {level : ℕ}
    (h : m'.stack[level]? = m.stack[level]?) (id : ℕ) :
    m'.read (f.place level id) = m.read (f.place level id) := by
  rcases f.level_place level id with ⟨ptr, hp, hlevel⟩ | hp
  · rw [hp]
    show m'.deref ptr = m.deref ptr
    unfold deref
    rw [hlevel, h]
  · rw [hp]
    show m'.getUnallocated level id = m.getUnallocated level id
    unfold getUnallocated
    rw [h]

theorem place_congr {m m' : Memory X} {level : ℕ} (h : m'.stack[level]? = m.stack[level]?)
    (id : ℕ) : m'.place level id = m.place level id := by
  unfold place
  rw [h]

end Memory

theorem Represents.congr {s : Store X} (hs : s.Ok) {m m' : Memory X} {level : ℕ} {f : Frame X}
    (h : Represents m level (s.frames level) f) (hlevel : level ≤ s.top)
    (hm : ∀ j ≤ level, m'.stack[j]? = m.stack[j]?) : Represents m' level (s.frames level) f where
  size := h.size
  passed := h.passed.congr rfl rfl rfl fun r hr i _ =>
    Memory.place_congr (hm _ (Nat.le_of_lt (hs.range level hlevel r hr).1)) _
  argsRoom := h.argsRoom
  ok := h.ok
  room := h.room
  allocations := h.allocations
  value id x hx := by
    rw [Memory.read_congr (hm level (Nat.le_refl _))]
    exact h.value id x hx

theorem Represents.like {m m' : Memory X} {level : ℕ} {a : StoreFrame X} {f f' : Frame X}
    (h : Represents m level a f) (hlike : f.Like f')
    (hplace : ∀ r ∈ a.args, ∀ i < r.count,
      m'.place r.level (r.first + i) = m.place r.level (r.first + i))
    {own : ℕ → Option X} (hvalue : ∀ id x, own id = some x → m'.read (f.place level id) = some x) :
    Represents m' level { a with own := own } f' := by
  refine ⟨?_, ?_, ?_, ?_, ?_, ?_, ?_⟩
  · rw [hlike.callframeSize, h.size]
    rfl
  · exact h.passed.congr hlike.callframe hlike.callframeVector hlike.callframeIsVector hplace
  · rw [hlike.callframeVector, hlike.callframeIsVector]
    exact h.argsRoom
  · rw [hlike.memframeIsVector]
    exact fun hvec => hlike.ok (h.ok hvec)
  · rw [hlike.memframeIsVector, hlike.length]
    exact h.room
  · rw [hlike.memframeIsVector]
    simp only [hlike.lookup]
    exact h.allocations
  · intro id x hx
    rw [hlike.place]
    exact hvalue id x hx

theorem Represents.setPool {m m' : Memory X} {level : ℕ} {a a' : StoreFrame X} {f : Frame X}
    {q : WirePool X} (h : Represents m level a f)
    (ha : a' = { a with own := a'.own, allocations := a'.allocations })
    (hplace : ∀ r ∈ a.args, ∀ i < r.count,
      m'.place r.level (r.first + i) = m.place r.level (r.first + i))
    (hvalue : ∀ id x, a'.own id = some x → a.own id = some x ∧
      m'.read (({ f with memframePool := q } : Frame X).place level id) =
        m.read (f.place level id))
    (hok : f.memframeIsVector = false → q.Ok)
    (hallocations : f.memframeIsVector = false → ∀ k n, a'.allocations k = some n ↔
      0 < n ∧ ∃ stamp, q.lookup k = some ⟨k, k + n - 1, stamp⟩) :
    Represents m' level a' { f with memframePool := q } := by
  have hargs : a'.args = a.args := by rw [ha]; rfl
  refine ⟨?_, ?_, ?_, hok, ?_, hallocations, fun id x hx => ?_⟩
  · rw [hargs]
    exact h.size
  · rw [ha]
    exact h.passed.congr rfl rfl rfl hplace
  · rw [ha]
    exact h.argsRoom
  · rw [ha]
    exact h.room
  · obtain ⟨hx', hread⟩ := hvalue id x hx
    rw [hread]
    exact h.value id x hx'

/-! ## Reads and writes -/

theorem Refines.of_like {s s' : Store X} {m m' : Memory X} (h : Refines s m) (hlike : m.Like m')
    (htop : s'.top = s.top)
    (hframes : ∀ level, s'.frames level = { s.frames level with own := (s'.frames level).own })
    (hvalue : ∀ level ≤ s.top, ∀ id x, (s'.frames level).own id = some x →
      totalCount (s.frames level).args ≤ id ∧ (s.frames level).InBounds id ∧
        m'.read (m.place level id) = some x) :
    Refines s' m' := by
  have hargs : ∀ level, (s'.frames level).args = (s.frames level).args := by
    intro level
    rw [hframes]
    rfl
  have hbounds : ∀ level id, (s'.frames level).InBounds id ↔ (s.frames level).InBounds id := by
    intro level id
    rw [hframes]
    rfl
  refine ⟨by rw [hlike.top, htop, h.top], ⟨fun level hlevel id x hx => ?_,
    fun level hlevel r hr => ?_⟩, fun level hlevel => ?_⟩
  · obtain ⟨hid, hbound, -⟩ := hvalue level (by omega) id x hx
    exact ⟨by rw [hargs]; exact hid, (hbounds level id).2 hbound⟩
  · rw [hargs] at hr
    obtain ⟨hlt, hfirst, hin⟩ := h.store.range level (by omega) r hr
    exact ⟨hlt, by rw [hargs]; exact hfirst, fun i hi => (hbounds _ _).2 (hin i hi)⟩
  · obtain ⟨f, hf, hrep⟩ := h.frame level (by omega)
    obtain ⟨f', hf', hff'⟩ := hlike.frame level f hf
    refine ⟨f', hf', ?_⟩
    rw [hframes]
    refine hrep.like hff' (fun r hr i _ => ?_) fun id x hx => ?_
    · have hlt := (h.store.range level (by omega) r hr).1
      obtain ⟨g, hg, -⟩ := h.frame r.level (by omega)
      exact hlike.place hg _
    · rw [← Memory.place_eq hf]
      exact (hvalue level (by omega) id x hx).2.2

namespace Store

theorem resolve_argument {s : Store X} {id i : ℕ} {r : WireRange}
    (h : locate s.current.args id = some (r, i)) : s.resolve id = (r.level, r.first + i) := by
  unfold resolve
  rw [h]

theorem resolve_own {s : Store X} {id : ℕ} (h : locate s.current.args id = none) :
    s.resolve id = (s.top, id) := by
  unfold resolve
  rw [h]

end Store

theorem Store.Ok.resolve {s : Store X} (hs : s.Ok) {id : ℕ}
    (hbound : locate s.current.args id = none → s.current.InBounds id) :
    (s.resolve id).1 ≤ s.top ∧
      totalCount (s.frames (s.resolve id).1).args ≤ (s.resolve id).2 ∧
      (s.frames (s.resolve id).1).InBounds (s.resolve id).2 := by
  cases hloc : locate s.current.args id with
  | none =>
    rw [resolve_own hloc]
    refine ⟨Nat.le_refl _, ?_, hbound hloc⟩
    by_contra hlt
    obtain ⟨r, i, hr⟩ := exists_locate (Nat.lt_of_not_le hlt)
    exact absurd (hloc.symm.trans hr) (by simp)
  | some ri =>
    obtain ⟨r, i⟩ := ri
    obtain ⟨hmem, hi, -⟩ := locate_spec hloc
    rw [resolve_argument hloc]
    obtain ⟨hlt, hfirst, hin⟩ := hs.range s.top (Nat.le_refl _) r hmem
    exact ⟨Nat.le_of_lt hlt, Nat.le_add_right_of_le hfirst, hin i hi⟩

section Access

variable {s : Store X} {m : Memory X} (h : Refines s m)

include h

theorem Refines.place_fits {level id : ℕ} (hlevel : level ≤ s.top)
    (hid : totalCount (s.frames level).args ≤ id) (hbound : (s.frames level).InBounds id) :
    ∃ f, m.stack[level]? = some f ∧ m.place level id = f.place level id ∧ f.Fits id ∧
      (f.memframeIsVector = false → f.memframePool.Ok) := by
  obtain ⟨f, hf, hrep⟩ := h.frame level hlevel
  exact ⟨f, hf, Memory.place_eq hf id, Frame.fits_of_represents hrep hid hbound, hrep.ok⟩

theorem Refines.get {id : ℕ} {x : X} (hx : s.get id = some x) :
    ∃ m', m.get id = some (x, m') ∧ Refines s m' := by
  obtain ⟨f, hf, hrep⟩ := h.frame s.top (Nat.le_refl _)
  rw [← h.top] at hf
  have hvalue : m.read (m.place (s.resolve id).1 (s.resolve id).2) = some x := by
    have hbound : locate s.current.args id = none → s.current.InBounds id := by
      intro hloc
      unfold Store.get at hx
      rw [Store.resolve_own hloc] at hx
      exact (h.store.own s.top (Nat.le_refl _) id x hx).2
    obtain ⟨g, hg, hrepg⟩ := h.frame _ (h.store.resolve hbound).1
    rw [Memory.place_eq hg]
    exact hrepg.value _ x hx
  cases hloc : locate s.current.args id with
  | none =>
    rw [Store.resolve_own hloc, ← h.top, Memory.place_eq hf] at hvalue
    have hown : f.callframeSize ≤ id := by
      rw [hrep.size]
      by_contra hlt
      obtain ⟨r, i, hr⟩ := exists_locate (Nat.lt_of_not_le hlt)
      exact absurd (hloc.symm.trans hr) (by simp)
    obtain ⟨m', hget, hlike, hread⟩ := Memory.get_place hf hrep.ok hown hvalue
    refine ⟨m', hget, h.of_like hlike rfl (fun _ => rfl) fun level hlevel i y hy => ?_⟩
    obtain ⟨hi, hbound⟩ := h.store.own level hlevel i y hy
    obtain ⟨g, hg, hrepg⟩ := h.frame level hlevel
    rw [hread, Memory.place_eq hg]
    exact ⟨hi, hbound, hrepg.value i y hy⟩
  | some ri =>
    obtain ⟨r, i⟩ := ri
    have hlt := (locate_spec hloc).2.2
    rw [Store.resolve_argument hloc] at hvalue
    obtain ⟨a, ha, hplace⟩ := hrep.passed.argument hloc
    rw [← hplace] at hvalue
    exact ⟨m, Memory.get_argument hf (by rw [hrep.size]; exact hlt) ha hvalue, h⟩

theorem Refines.set {id : ℕ} (hbound : locate s.current.args id = none → s.current.InBounds id)
    (x : X) : ∃ m', m.set id x = some m' ∧ Refines (s.set id x) m' := by
  obtain ⟨f, hf, hrep⟩ := h.frame s.top (Nat.le_refl _)
  rw [← h.top] at hf
  obtain ⟨hlevel, hid, hin⟩ := h.store.resolve hbound
  obtain ⟨g, hg, hgplace, hfits, hok⟩ := h.place_fits hlevel hid hin
  have hset : ∃ m', m.set id x = some m' ∧ m.Like m' ∧ ∀ p, m'.read p =
      if p = m.place (s.resolve id).1 (s.resolve id).2 then some x else m.read p := by
    cases hloc : locate s.current.args id with
    | none =>
      rw [Store.resolve_own hloc] at *
      rw [← h.top] at *
      obtain rfl : f = g := Option.some.inj (hf.symm.trans hg)
      rw [hgplace]
      exact Memory.set_place hf hok hfits x
    | some ri =>
      obtain ⟨r, i⟩ := ri
      have hlt := (locate_spec hloc).2.2
      obtain ⟨m', hwrite⟩ := Memory.write_place hg hok hfits x
      rw [← hgplace] at hwrite
      refine ⟨m', ?_, Memory.Like.write hwrite, Memory.read_write hwrite⟩
      rw [Store.resolve_argument hloc] at hwrite
      obtain ⟨a, ha, hplace⟩ := hrep.passed.argument hloc
      rw [Memory.set_argument hf (by rw [hrep.size]; exact hlt) ha, hplace]
      exact hwrite
  obtain ⟨m', hset, hlike, hread⟩ := hset
  refine ⟨m', hset, h.of_like hlike rfl (fun level => ?_) fun level hlevel' i y hy => ?_⟩
  · unfold Store.set
    rcases eq_or_ne level (s.resolve id).1 with rfl | hne
    · rw [Store.modify_self]
    · rw [Store.modify_other s hne]
  · obtain ⟨g', hg', hrep'⟩ := h.frame level hlevel'
    have hfits' : ∀ y, (s.frames level).own i = some y → totalCount (s.frames level).args ≤ i ∧
        (s.frames level).InBounds i ∧ m.read (m.place level i) = some y := by
      intro y hy
      obtain ⟨hi, hbound'⟩ := h.store.own level hlevel' i y hy
      rw [Memory.place_eq hg']
      exact ⟨hi, hbound', hrep'.value i y hy⟩
    have hother : ¬(level = (s.resolve id).1 ∧ i = (s.resolve id).2) →
        (s.frames level).own i = some y → totalCount (s.frames level).args ≤ i →
        m.place level i ≠ m.place (s.resolve id).1 (s.resolve id).2 := by
      intro hne hy hi heq
      rw [Memory.place_eq hg', hgplace] at heq
      refine hne (Frame.place_inj (fun hll => ?_) (by rw [hrep'.size]; exact hi) hfits.own heq)
      rw [hll] at hg'
      exact Option.some.inj (hg'.symm.trans hg)
    rw [hread]
    unfold Store.set at hy
    rcases eq_or_ne level (s.resolve id).1 with rfl | hne
    · rw [Store.modify_self] at hy
      simp only [Function.update_apply] at hy
      split_ifs at hy with heq
      · subst heq
        exact ⟨hid, hin, by rw [if_pos rfl]; exact hy⟩
      · obtain ⟨hi, hbound', hold⟩ := hfits' y hy
        exact ⟨hi, hbound', by rw [if_neg (hother (fun hc => heq hc.2) hy hi)]; exact hold⟩
    · rw [Store.modify_other s hne] at hy
      obtain ⟨hi, hbound', hold⟩ := hfits' y hy
      exact ⟨hi, hbound', by rw [if_neg (hother (fun hc => hne hc.1) hy hi)]; exact hold⟩

end Access

/-! ## Frames -/

theorem Represents.of_eq {s : Store X} (hs : s.Ok) {m m' : Memory X} {level : ℕ}
    {f : Frame X} {a : StoreFrame X} (h : Represents m level (s.frames level) f)
    (hlevel : level ≤ s.top) (hm : ∀ j ≤ level, m'.stack[j]? = m.stack[j]?)
    (ha : a = s.frames level) : Represents m' level a f := by
  rw [ha]
  exact h.congr hs hlevel hm

theorem Represents.allocated {m : Memory X} {level : ℕ} {a : StoreFrame X} {f : Frame X}
    (hrep : Represents m level a f) (hvec : f.memframeIsVector = false) (id : ℕ) :
    a.allocated id = (f.memframePool.lookup id).isSome := by
  rw [Bool.eq_iff_iff, StoreFrame.allocated_iff, Option.isSome_iff_exists]
  constructor
  · rintro ⟨k, n, hn, hle, hlt⟩
    obtain ⟨hpos, stamp, hlookup⟩ := (hrep.allocations hvec k n).1 hn
    exact ⟨_, WirePool.lookup_of_mem (hrep.ok hvec) hlookup hle (by show id ≤ k + n - 1; omega)⟩
  · rintro ⟨c, hc⟩
    have hcovers := WirePool.covers_of_lookup hc
    have hfirst := hcovers.first_le
    have hlast := hcovers.le_last
    have hself := WirePool.lookup_of_mem (hrep.ok hvec) hc (Nat.le_refl _)
      (Nat.le_trans hfirst hlast)
    refine ⟨c.first, c.last - c.first + 1, ?_, hfirst, by omega⟩
    rw [hrep.allocations hvec]
    refine ⟨by omega, c.stamp, hself.trans ?_⟩
    obtain ⟨first, last, stamp⟩ := c
    simp only [Option.some.injEq, Cache.mk.injEq, true_and, and_true]
    dsimp only at hfirst hlast
    omega

theorem allocations_insert {m : Memory X} {level : ℕ} {a : StoreFrame X} {f : Frame X}
    (hrep : Represents m level a f) (hvec : f.memframeIsVector = false) {first last stamp : ℕ}
    (hle : first ≤ last) (hfree : ∀ id, first ≤ id → id ≤ last → a.allocated id = false)
    {q : WirePool X} (hlookup : ∀ id, q.lookup id =
      if first ≤ id ∧ id ≤ last then some ⟨first, last, stamp⟩ else f.memframePool.lookup id)
    (k n : ℕ) : Function.update a.allocations first (some (last - first + 1)) k = some n ↔
      0 < n ∧ ∃ stamp, q.lookup k = some ⟨k, k + n - 1, stamp⟩ := by
  rw [hlookup]
  rcases eq_or_ne k first with rfl | hne
  · rw [Function.update_self, if_pos ⟨Nat.le_refl _, hle⟩]
    simp only [Option.some.injEq, Cache.mk.injEq, true_and]
    constructor
    · rintro rfl
      exact ⟨by omega, stamp, by omega, rfl⟩
    · rintro ⟨hpos, stamp', hlast, -⟩
      omega
  · rw [Function.update_of_ne hne]
    split_ifs with hin
    · constructor
      · intro hk
        have htrue := (a.allocated_iff k).2 ⟨k, n, hk, Nat.le_refl _, by
          have := ((hrep.allocations hvec k n).1 hk).1
          omega⟩
        rw [hfree k hin.1 hin.2] at htrue
        cases htrue
      · rintro ⟨-, stamp', heq⟩
        exact absurd (congrArg Cache.first (Option.some.inj heq)).symm hne
    · exact hrep.allocations hvec k n

section Frames

variable {s : Store X} {m : Memory X} (h : Refines s m)

include h

theorem Refines.popFrame (htop : s.top ≠ 0) :
    ∃ m', m.popFrame = some m' ∧ Refines (s.step .popFrame).2 m' := by
  have hm : m.top ≠ 0 := by rw [h.top]; exact htop
  unfold Memory.popFrame
  rw [if_neg hm]
  refine ⟨_, rfl, ?_⟩
  have hstore : ∀ level ≤ s.top - 1, (s.step .popFrame).2.frames level = s.frames level := by
    intro level hlevel
    exact Function.update_of_ne (by omega) _ _
  refine ⟨by show m.top - 1 = s.top - 1; rw [h.top], ⟨fun level hlevel => ?_,
    fun level hlevel r hr => ?_⟩, fun level hlevel => ?_⟩ <;>
    have hlevel : level ≤ s.top - 1 := hlevel
  · rw [hstore level hlevel]
    exact h.store.own level (by omega)
  · rw [hstore level hlevel] at hr
    have hrange := h.store.range level (by omega) r hr
    rw [hstore r.level (by omega)]
    exact hrange
  · obtain ⟨f, hf, hrep⟩ := h.frame level (by omega)
    have hstack : ∀ j ≤ level, ((m.modifyFrame m.top fun f =>
        if vecSizeCallframeThreshold / 5 ≤ f.callframeVector.length then
          { f with callframeVector := List.replicate vecSizeInit .default, callframeSize := 0 }
        else f).modifyFrame m.top fun f =>
        if vecSizeCallframeThreshold / 5 ≤ f.callframe.len then
          { f with callframe := .new, callframeSize := 0 } else f).stack[j]? = m.stack[j]? := by
      intro j hj
      have hne : m.top ≠ j := by rw [h.top]; omega
      rw [Memory.modifyFrame_other _ hne, Memory.modifyFrame_other _ hne]
    refine ⟨f, (hstack level (Nat.le_refl _)).trans hf, ?_⟩
    exact hrep.of_eq h.store (by omega) hstack (hstore level hlevel)

variable [Inhabited X]

theorem Refines.pushFrame (argsCount vectorSize : Option ℕ) :
    Refines (s.step (.pushFrame argsCount vectorSize)).2 (m.pushFrame argsCount vectorSize) := by
  have hlen : m.top < m.stack.length := by
    obtain ⟨f, hf, -⟩ := h.frame s.top (Nat.le_refl _)
    rw [h.top]
    exact (List.getElem?_eq_some_iff.1 hf).1
  obtain ⟨htop, hbelow, f, hf, hpushed⟩ := Memory.pushFrame_spec hlen argsCount vectorSize
  have hstore : ∀ level ≤ s.top,
      (s.step (.pushFrame argsCount vectorSize)).2.frames level = s.frames level := by
    intro level hlevel
    exact Function.update_of_ne (by omega) _ _
  have hnew : (s.step (.pushFrame argsCount vectorSize)).2.frames (s.top + 1) =
      .new argsCount vectorSize := Function.update_self _ _ _
  refine ⟨by rw [htop, h.top]; rfl, ⟨fun level hlevel => ?_, fun level hlevel r hr => ?_⟩,
    fun level hlevel => ?_⟩ <;> have hlevel : level ≤ s.top + 1 := hlevel
  · rcases Nat.lt_or_ge s.top level with hgt | hle
    · obtain rfl : level = s.top + 1 := by omega
      rw [hnew]
      intro id x hx
      cases hx
    · rw [hstore level hle]
      exact h.store.own level hle
  · rcases Nat.lt_or_ge s.top level with hgt | hle
    · obtain rfl : level = s.top + 1 := by omega
      rw [hnew] at hr
      cases hr
    · rw [hstore level hle] at hr
      have hrange := h.store.range level hle r hr
      rw [hstore r.level (by omega)]
      exact hrange
  · rcases Nat.lt_or_ge s.top level with hgt | hle
    · obtain rfl : level = s.top + 1 := by omega
      rw [h.top] at hf
      refine ⟨f, hf, ?_⟩
      rw [hnew]
      refine ⟨hpushed.size, passed_nil hpushed.callframe, hpushed.callframeVector, fun hvec => ?_,
        hpushed.memframeVector, fun hvec k n => ?_, fun id x hx => by cases hx⟩
      · rw [(hpushed.pool hvec).1]
        exact WirePool.ok_new
      · rw [(hpushed.pool hvec).1, WirePool.lookup_new]
        simp [StoreFrame.new]
    · obtain ⟨g, hg, hrep⟩ := h.frame level hle
      rw [h.top] at hbelow
      refine ⟨g, (hbelow level hle).trans hg, ?_⟩
      exact hrep.of_eq h.store hle (fun j hj => hbelow j (by omega)) (hstore level hle)

omit [Inhabited X] in
theorem Refines.of_top {a : StoreFrame X} {m' : Memory X} {f : Frame X} {q : WirePool X}
    (hf : m.stack[s.top]? = some f)
    (hf' : m'.stack[s.top]? = some { f with memframePool := q }) (htop : m'.top = m.top)
    (hbelow : ∀ j < s.top, m'.stack[j]? = m.stack[j]?)
    (ha : a = { s.current with own := a.own, allocations := a.allocations })
    (hown : ∀ id x, a.own id = some x → s.current.own id = some x ∧
      m'.read (({ f with memframePool := q } : Frame X).place s.top id) =
        m.read (f.place s.top id))
    (hok : f.memframeIsVector = false → q.Ok)
    (hallocations : f.memframeIsVector = false → ∀ k n, a.allocations k = some n ↔
      0 < n ∧ ∃ stamp, q.lookup k = some ⟨k, k + n - 1, stamp⟩) :
    Refines (s.modify s.top fun _ => a) m' := by
  have hself : (s.modify s.top fun _ => a).frames s.top = a := Store.modify_self s s.top _
  have hargs : a.args = s.current.args := by rw [ha]; rfl
  have hbounds : ∀ id, a.InBounds id ↔ s.current.InBounds id := by
    intro id
    rw [ha]
    rfl
  have hother : ∀ level, level < s.top →
      (s.modify s.top fun _ => a).frames level = s.frames level :=
    fun level hlevel => Store.modify_other s (by omega) _
  refine ⟨htop.trans h.top, ⟨fun level hlevel => ?_, fun level hlevel r hr => ?_⟩,
    fun level hlevel => ?_⟩ <;> have hlevel : level ≤ s.top := hlevel <;>
    rcases Nat.lt_or_ge level s.top with hlt | hge
  · rw [hother level hlt]
    exact h.store.own level hlevel
  · obtain rfl : level = s.top := by omega
    rw [hself, hargs]
    intro id x hx
    obtain ⟨hid, hin⟩ := h.store.own s.top hlevel id x (hown id x hx).1
    exact ⟨hid, (hbounds id).2 hin⟩
  · rw [hother level hlt] at hr
    have hrange := h.store.range level hlevel r hr
    rw [hother r.level (by omega)]
    exact hrange
  · obtain rfl : level = s.top := by omega
    rw [hself, hargs] at hr
    have hrange := h.store.range s.top hlevel r hr
    rw [hother r.level (by omega)]
    exact hrange
  · obtain ⟨g, hg, hrep⟩ := h.frame level hlevel
    exact ⟨g, (hbelow level hlt).trans hg,
      hrep.of_eq h.store hlevel (fun j hj => hbelow j (by omega)) (hother level hlt)⟩
  · obtain rfl : level = s.top := by omega
    obtain ⟨g, hg, hrep⟩ := h.frame s.top hlevel
    obtain rfl : f = g := Option.some.inj (hf.symm.trans hg)
    refine ⟨_, hf', ?_⟩
    rw [hself]
    exact hrep.setPool ha (fun r hr i _ => Memory.place_congr
      (hbelow _ (h.store.range s.top hlevel r hr).1) _) hown hok hallocations

theorem Refines.allocationNew {first last : ℕ}
    (hle : first ≤ last)
    (hfree : ∀ id, first ≤ id → id ≤ last →
      s.current.own id = none ∧ s.current.allocated id = false) :
    ∃ m', m.allocationNew first last = some m' ∧
      Refines (s.step (.allocationNew first last)).2 m' := by
  obtain ⟨f, hf, hrep⟩ := h.frame s.top (Nat.le_refl _)
  unfold Memory.allocationNew
  simp only [h.top, hf, Option.bind_eq_bind, Option.bind_some]
  cases hvec : f.memframeIsVector with
  | true =>
    rw [if_pos rfl]
    refine ⟨m, rfl, ?_⟩
    refine h.of_top (q := f.memframePool) hf hf rfl (fun _ _ => rfl) rfl
      (fun id x hx => ⟨hx, rfl⟩) (fun hv => ?_) (fun hv => ?_)
    · exact absurd (hvec.symm.trans hv) (by simp)
    · exact absurd (hvec.symm.trans hv) (by simp)
  | false =>
    rw [if_neg Bool.false_ne_true]
    have hfree' : ∀ id, first ≤ id → id ≤ last → f.memframePool.lookup id = none := by
      intro id h0 h1
      have hsome := (hrep.allocated hvec id).symm.trans (hfree id h0 h1).2
      exact Option.isSome_eq_false_iff.1 hsome |> Option.isNone_iff_eq_none.1
    obtain ⟨q, hinsert, hq, hblocks, hlookup⟩ :=
      WirePool.insert_eq (hrep.ok hvec) hle hfree' m.fresh
    rw [hinsert, Option.bind_some]
    have hf' := Memory.modifyFrame_self hf fun f => { f with memframePool := q }
    refine ⟨_, rfl, h.of_top hf hf' rfl
      (fun j hj => Memory.modifyFrame_other m (by omega) _) rfl (fun id x hx => ⟨hx, ?_⟩)
      (fun _ => hq) (fun _ k n => ?_)⟩
    · have hout : ¬(first ≤ id ∧ id ≤ last) := by
        rintro ⟨h0, h1⟩
        exact absurd ((hfree id h0 h1).1.symm.trans hx) (by simp)
      have hsame : q.lookup id = f.memframePool.lookup id := by rw [hlookup, if_neg hout]
      refine Memory.read_setPool hf hf' hsame fun c hc => ?_
      rw [hblocks]
      refine Function.update_of_ne ?_ _ _
      intro heq
      have hcovers := WirePool.covers_of_lookup hc
      have := WirePool.lookup_of_mem (hrep.ok hvec) hc (Nat.le_refl _)
        (Nat.le_trans hcovers.first_le hcovers.le_last)
      rw [heq, hfree' first (Nat.le_refl _) hle] at this
      cases this
    · exact allocations_insert hrep hvec hle (fun id h0 h1 => (hfree id h0 h1).2) hlookup k n

omit h [Inhabited X] in
theorem deleteBlocks_eq {m : Memory X} {level : ℕ} {a : StoreFrame X} {f : Frame X}
    (hrep : Represents m level a f) (hvec : f.memframeIsVector = false) {k count : ℕ}
    (h : StoreFrame.Tiled a.allocations k count) :
    ∀ p : WirePool X, p.Ok → (∀ id, k ≤ id → p.lookup id = f.memframePool.lookup id) →
      ∀ rounds, count ≤ rounds → ∃ q, Memory.deleteBlocks rounds p k count = some q ∧ q.Ok ∧
        (∀ id, q.lookup id = if k ≤ id ∧ id < k + count then none else p.lookup id) ∧
        ∀ j, q.blocks j = p.blocks j ∨ q.blocks j = none := by
  have hremove : ∀ p : WirePool X, p.Ok → ∀ k n, a.allocations k = some n →
      (∀ id, k ≤ id → p.lookup id = f.memframePool.lookup id) → 0 < n ∧
      ∃ q, p.remove k = some (n, q) ∧ q.Ok ∧
        (∀ id, q.lookup id = if k ≤ id ∧ id < k + n then none else p.lookup id) ∧
        ∀ j, q.blocks j = p.blocks j ∨ q.blocks j = none := by
    intro p hp k n hk hlookup
    obtain ⟨hpos, stamp, hfk⟩ := (hrep.allocations hvec k n).1 hk
    rw [← hlookup k (Nat.le_refl _)] at hfk
    obtain ⟨-, -, v, hv, hlast, -⟩ := WirePool.covers_of_lookup hfk
    have hvpos := hp.pos _ _ hv
    dsimp only at hv hlast hvpos
    obtain rfl : v.elems.length = n := by omega
    obtain ⟨q, hremove, hq, hblocks, hqlookup⟩ := WirePool.remove_eq hp hv
    refine ⟨hpos, q, hremove, hq, hqlookup, fun j => ?_⟩
    rw [hblocks]
    rcases eq_or_ne j k with rfl | hne
    · exact .inr (Function.update_self _ _ _)
    · exact .inl (Function.update_of_ne hne _ _)
  induction h with
  | @last k n hk =>
    intro p hp hlookup rounds hrounds
    obtain ⟨hpos, q, hq, hrest⟩ := hremove p hp k n hk hlookup
    obtain ⟨rounds, rfl⟩ : ∃ r, rounds = r + 1 := ⟨rounds - 1, by omega⟩
    refine ⟨q, ?_, hrest⟩
    unfold Memory.deleteBlocks
    rw [hq]
    show (if n < n then none else if n - n = 0 then some q else _) = _
    rw [if_neg (Nat.lt_irrefl _), if_pos (Nat.sub_self _)]
  | @cons k n count hk hn hcount _ ih =>
    intro p hp hlookup rounds hrounds
    obtain ⟨hpos, q, hq, hqok, hqlookup, hqblocks⟩ := hremove p hp k n hk hlookup
    obtain ⟨rounds, rfl⟩ : ∃ r, rounds = r + 1 := ⟨rounds - 1, by omega⟩
    obtain ⟨q', hq', hqok', hqlookup', hqblocks'⟩ := ih q hqok (fun id hid => by
      rw [hqlookup, if_neg (by omega)]
      exact hlookup id (by omega)) rounds (by omega)
    refine ⟨q', ?_, hqok', fun id => ?_, fun j => ?_⟩
    · unfold Memory.deleteBlocks
      rw [hq]
      show (if n + count < n then none else if n + count - n = 0 then some q
        else Memory.deleteBlocks rounds q (k + n) (n + count - n)) = _
      rw [if_neg (by omega), if_neg (by omega), Nat.add_sub_cancel_left, hq']
    · rw [hqlookup', hqlookup]
      split_ifs <;> first | rfl | omega
    · rcases hqblocks' j with h1 | h1
      · rw [h1]
        exact hqblocks j
      · exact .inr h1

omit [Inhabited X] in
theorem Refines.allocationDelete {first last : ℕ} (hle : first ≤ last)
    (htiled : StoreFrame.Tiled s.current.allocations first (last - first + 1)) :
    ∃ m', m.allocationDelete first last = some m' ∧
      Refines (s.step (.allocationDelete first last)).2 m' := by
  obtain ⟨f, hf, hrep⟩ := h.frame s.top (Nat.le_refl _)
  have hrest : ∀ id x, (if first ≤ id ∧ id ≤ last then none else s.current.own id) = some x →
      s.current.own id = some x ∧ ¬(first ≤ id ∧ id ≤ last) := by
    intro id x hx
    split_ifs at hx with hin
    exact ⟨hx, hin⟩
  unfold Memory.allocationDelete
  simp only [h.top, hf, Option.bind_eq_bind, Option.bind_some]
  cases hvec : f.memframeIsVector with
  | true =>
    rw [if_pos rfl]
    refine ⟨m, rfl, ?_⟩
    refine h.of_top (q := f.memframePool) hf hf rfl (fun _ _ => rfl) rfl
      (fun id x hx => ⟨(hrest id x hx).1, rfl⟩) (fun hv => ?_) (fun hv => ?_)
    · exact absurd (hvec.symm.trans hv) (by simp)
    · exact absurd (hvec.symm.trans hv) (by simp)
  | false =>
    rw [if_neg Bool.false_ne_true, if_neg (by omega)]
    obtain ⟨q, hq, hqok, hlookup, hblocks⟩ := deleteBlocks_eq hrep hvec htiled f.memframePool
      (hrep.ok hvec) (fun _ _ => rfl) _ (Nat.le_refl _)
    rw [hq, Option.bind_some]
    have hf' := Memory.modifyFrame_self hf fun f => { f with memframePool := q }
    refine ⟨_, rfl, h.of_top hf hf' rfl
      (fun j hj => Memory.modifyFrame_other m (by omega) _) rfl
      (fun id x hx => ⟨(hrest id x hx).1, ?_⟩) (fun _ => hqok) (fun _ k n => ?_)⟩
    · have hout := (hrest id x hx).2
      have hsame : q.lookup id = f.memframePool.lookup id := by
        rw [hlookup, if_neg (by omega)]
      refine Memory.read_setPool hf hf' hsame fun c hc => ?_
      rcases hblocks c.first with hb | hb
      · exact hb
      · obtain ⟨-, -, v, hv, -⟩ := WirePool.covers_of_lookup (hsame.trans hc)
        rw [hb] at hv
        cases hv
    · show (if first ≤ k ∧ k ≤ last then none else s.current.allocations k) = some n ↔ _
      rw [hlookup]
      by_cases hin : first ≤ k ∧ k ≤ last
      · rw [if_pos hin, if_pos (by omega)]
        simp
      · rw [if_neg hin, if_neg (by omega)]
        exact hrep.allocations hvec k n

end Frames

end EdaBitGen
