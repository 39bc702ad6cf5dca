import EdaBitGen.Memory.Refinement

/-!
# Passing ranges refines naming wires
-/

namespace EdaBitGen

variable {X : Type}

theorem mem_passed {a : StoreFrame X} {r t : WireRange} {allowAllocation : Bool}
    (h : t ∈ (if allowAllocation then a.outputs ++ [r] else a.outputs) ++
      (if allowAllocation then a.inputs else a.inputs ++ [r])) : t ∈ a.args ∨ t = r := by
  unfold StoreFrame.args
  cases allowAllocation <;> simp at h ⊢ <;> tauto

theorem totalCount_passed (a : StoreFrame X) (r : WireRange) (allowAllocation : Bool) :
    totalCount ((if allowAllocation then a.outputs ++ [r] else a.outputs) ++
      (if allowAllocation then a.inputs else a.inputs ++ [r])) = totalCount a.args + r.count := by
  unfold StoreFrame.args
  cases allowAllocation with
  | true =>
    simp only [if_true, totalCount_append, totalCount_singleton]
    omega
  | false =>
    simp only [Bool.false_eq_true, if_false, totalCount_append, totalCount_singleton]
    omega

/-- The store with one more range as arguments of the current frame. -/
def Store.pass (s : Store X) (r : WireRange) (allowAllocation : Bool) : Store X :=
  s.modify s.top fun a => { a with
    outputs := if allowAllocation then a.outputs ++ [r] else a.outputs
    inputs := if allowAllocation then a.inputs else a.inputs ++ [r] }

theorem refines_passSlice {s : Store X} {m m₀ : Memory X} (hs : s.Ok) (htop : m.top = s.top)
    (hbelow : ∀ j < s.top, ∃ g, m.stack[j]? = some g ∧ Represents m j (s.frames j) g)
    {f : Frame X} {r : WireRange}
    (hf : m.stack[s.top]? = some { f with callframeSize := f.callframeSize + r.count })
    (hrep : Represents m₀ s.top s.current f)
    (hpassed : Passed m.place f s.current.outputs s.current.inputs)
    (hown : ∀ id, s.current.own id = none)
    (hpos : 0 < r.count) (hcont : Contiguous m.place r) (hlevel : r.level < s.top)
    (hfirst : totalCount (s.frames r.level).args ≤ r.first)
    (hin : ∀ i < r.count, (s.frames r.level).InBounds (r.first + i))
    {start : ℕ} (hstart : start = totalCount s.current.args)
    (hcount : ∀ n, s.current.argsCount = some n → start + r.count ≤ n)
    {allowAllocation : Bool} (hallow : allowAllocation = true → s.current.inputs = [])
    {a : AbsoluteAddr} (ha : a.place = m.place r.level r.first) {e : CallframeElm}
    (he : SliceOf m.place start r e) :
    ∃ m', m.passSlice start r.count allowAllocation a (some e) = some m' ∧
      Refines (s.pass r allowAllocation) m' := by
  rw [← htop] at hf
  obtain ⟨f', hpass, hpassed', hf', hlength⟩ := passSlice_eq hf
    (hpassed.congr rfl rfl rfl fun _ _ _ _ => rfl) hpos hcont hstart
    (fun hvec => by
      obtain ⟨n, hn, hlt⟩ := hrep.argsRoom hvec
      have := hcount n hn
      exact Nat.le_trans this (Nat.le_of_lt hlt)) hallow ha (fun _ => ⟨e, rfl, he⟩)
  refine ⟨_, hpass, ?_⟩
  have hself : (s.pass r allowAllocation).frames s.top = _ := Store.modify_self s s.top _
  have hother : ∀ j, j < s.top → (s.pass r allowAllocation).frames j = s.frames j :=
    fun j hj => Store.modify_other s (by omega) _
  have hstack : ∀ j, j < s.top → (m.modifyFrame m.top fun _ => f').stack[j]? = m.stack[j]? :=
    fun j hj => Memory.modifyFrame_other m (by omega) _
  refine ⟨htop, ⟨fun level hle => ?_, fun level hle t ht => ?_⟩, fun level hle => ?_⟩ <;>
    have hle : level ≤ s.top := hle <;> rcases Nat.lt_or_ge level s.top with hlt | hge
  · rw [hother level hlt]
    exact hs.own level hle
  · obtain rfl : level = s.top := by omega
    rw [hself]
    intro id x hx
    exact absurd ((hown id).symm.trans hx) (by simp)
  · rw [hother level hlt] at ht
    have hrange := hs.range level hle t ht
    rw [hother t.level (by omega)]
    exact hrange
  · obtain rfl : level = s.top := by omega
    rw [hself] at ht
    rcases mem_passed ht with ht | rfl
    · have hrange := hs.range s.top hle t ht
      rw [hother t.level (by omega)]
      exact hrange
    · rw [hother t.level hlevel]
      exact ⟨hlevel, hfirst, hin⟩
  · obtain ⟨g, hg, hrepg⟩ := hbelow level hlt
    exact ⟨g, (hstack level hlt).trans hg,
      hrepg.of_eq hs hle (fun j hj => hstack j (by omega)) (hother level hlt)⟩
  · obtain rfl : level = s.top := by omega
    refine ⟨f', ?_, ?_⟩
    · rw [← htop]
      exact Memory.modifyFrame_self hf _
    rw [hself]
    have hplace : ∀ t ∈ (if allowAllocation then s.current.outputs ++ [r] else s.current.outputs) ++
        (if allowAllocation then s.current.inputs else s.current.inputs ++ [r]), ∀ i < t.count,
        (m.modifyFrame m.top fun _ => f').place t.level (t.first + i) =
          m.place t.level (t.first + i) := by
      intro t ht i _
      refine Memory.place_congr (hstack _ ?_) _
      rcases mem_passed ht with ht | rfl
      · exact (hs.range s.top hle t ht).1
      · exact hlevel
    refine ⟨?_, hpassed'.congr rfl rfl rfl hplace, ?_, ?_, ?_, ?_, fun id x hx => ?_⟩
    · have hsize : f'.callframeSize = f.callframeSize + r.count := by rw [hf']
      rw [hsize, hrep.size]
      exact (totalCount_passed s.current r allowAllocation).symm
    · have hvec : f'.callframeIsVector = f.callframeIsVector := by rw [hf']
      rw [hvec, hlength]
      exact hrep.argsRoom
    · rw [hf']
      exact hrep.ok
    · rw [hf']
      exact hrep.room
    · rw [hf']
      exact hrep.allocations
    · exact absurd ((hown id).symm.trans hx) (by simp)

theorem Contiguous.sub {w : ℕ → ℕ → Place} {r : WireRange} (h : Contiguous w r) {i count : ℕ}
    (hcount : i + count ≤ r.count) : Contiguous w ⟨r.level, r.first + i, count⟩ := by
  intro j hj
  have hj : j < count := hj
  have h0 := h i (by omega)
  have h1 := h (i + j) (by omega)
  show (w r.level (r.first + i)).incr j = some (w r.level (r.first + i + j))
  rw [Place.incr_incr h0, h1, Nat.add_assoc]

theorem exists_allocated (s : Store X) (srcFirst count : ℕ)
    (allowAllocation : Bool) :
    ∃ s' : Store X, s.allocateSlice srcFirst count allowAllocation =
        s'.pass (s.source srcFirst count) allowAllocation ∧ s'.top = s.top ∧
      (∀ j, j ≠ s.top - 1 → s'.frames j = s.frames j) ∧
      s'.frames (s.top - 1) = { s.caller with
        allocations := if s.allocates srcFirst count allowAllocation
          then Function.update s.caller.allocations srcFirst (some count)
          else s.caller.allocations } := by
  unfold Store.allocateSlice
  cases s.allocates srcFirst count allowAllocation with
  | true =>
    exact ⟨s.modify (s.top - 1) fun a =>
      { a with allocations := Function.update a.allocations srcFirst (some count) }, rfl, rfl,
      fun j hj => Store.modify_other s hj _, Store.modify_self s _ _⟩
  | false => exact ⟨s, rfl, rfl, fun _ _ => rfl, rfl⟩

theorem Store.Ok.of_allocations {s s' : Store X} (h : s.Ok) (htop : s'.top = s.top)
    (hframes : ∀ j, s'.frames j = { s.frames j with allocations := (s'.frames j).allocations }) :
    s'.Ok := by
  have hargs : ∀ j, (s'.frames j).args = (s.frames j).args := by
    intro j
    rw [hframes]
    rfl
  have hbounds : ∀ j id, (s'.frames j).InBounds id ↔ (s.frames j).InBounds id := by
    intro j id
    rw [hframes]
    rfl
  refine ⟨fun level hlevel id x hx => ?_, fun level hlevel r hr => ?_⟩
  · rw [hframes] at hx
    obtain ⟨hid, hin⟩ := h.own level (by omega) id x hx
    exact ⟨by rw [hargs]; exact hid, (hbounds _ _).2 hin⟩
  · rw [hargs] at hr
    obtain ⟨hlt, hfirst, hin⟩ := h.range level (by omega) r hr
    exact ⟨hlt, by rw [hargs]; exact hfirst, fun i hi => (hbounds _ _).2 (hin i hi)⟩

theorem Represents.setAllocations {m : Memory X} {level : ℕ} {a : StoreFrame X} {f : Frame X}
    (h : Represents m level a f) (hvec : f.memframeIsVector = true)
    (allocations : ℕ → Option ℕ) : Represents m level { a with allocations := allocations } f where
  size := h.size
  passed := h.passed
  argsRoom := h.argsRoom
  ok := h.ok
  room := h.room
  allocations hv := absurd (hvec.symm.trans hv) (by simp)
  value := h.value

theorem Frame.contiguous_own {f : Frame X} {level srcFirst count : ℕ}
    (hok : f.memframeIsVector = false → f.memframePool.Ok) (hid : f.callframeSize ≤ srcFirst)
    (hkind : f.memframeIsVector = true ∨ count = 1 ∨
      ∃ c, f.memframePool.lookup srcFirst = some c ∧ srcFirst + count - 1 ≤ c.last)
    {i : ℕ} (hi : i < count) :
    (f.place level srcFirst).incr i = some (f.place level (srcFirst + i)) := by
  rcases Bool.eq_false_or_eq_true f.memframeIsVector with hvec | hvec
  · rw [Frame.place_vector hvec, Frame.place_vector hvec]
    show some (Place.cell ⟨level, none, _, srcFirst - f.callframeSize + i⟩) = _
    rw [Nat.sub_add_comm hid]
  · rcases hkind with hv | rfl | ⟨c, hc, hlast⟩
    · exact absurd (hv.symm.trans hvec) (by simp)
    · obtain rfl : i = 0 := by omega
      exact Place.incr_zero _
    · have hfirst := (WirePool.covers_of_lookup hc).first_le
      have hci := WirePool.lookup_of_mem (j := srcFirst + i) (hok hvec) hc (by omega) (by omega)
      rw [Frame.place_pool hvec, Frame.place_pool hvec, hc, hci]
      show some (Place.cell ⟨level, some c.first, c.stamp, srcFirst - c.first + i⟩) = _
      show _ = some (Place.cell ⟨level, some c.first, c.stamp, srcFirst + i - c.first⟩)
      rw [Nat.sub_add_comm hfirst]

section Slice

variable {s : Store X} {m : Memory X} (h : Refines s m)

include h

theorem extend_frame {count : ℕ} {f : Frame X} (hf : m.stack[s.top]? = some f) :
    (m.extend count).stack[s.top]? =
      some { f with callframeSize := f.callframeSize + count } := by
  rw [← h.top] at hf ⊢
  exact Memory.modifyFrame_self hf _

theorem extend_below {count j : ℕ} (hj : j < s.top) :
    (m.extend count).stack[j]? = m.stack[j]? := by
  rw [← h.top] at hj
  exact Memory.modifyFrame_other m (by omega) _

variable [Inhabited X]

theorem Refines.allocateSlice_argument (htop : s.top ≠ 0) {srcFirst start count i : ℕ}
    {r : WireRange} (hpos : 0 < count) (hloc : locate s.caller.args srcFirst = some (r, i))
    (hi : i + count ≤ r.count) (hstart : start = totalCount s.current.args)
    (hcount : ∀ n, s.current.argsCount = some n → start + count ≤ n)
    (hown : ∀ id, s.current.own id = none)
    {allowAllocation : Bool} (hallow : allowAllocation = true → s.current.inputs = []) :
    ∃ m', m.allocateSlice srcFirst (srcFirst + count - 1) start count allowAllocation = some m' ∧
      Refines (s.allocateSlice srcFirst count allowAllocation) m' := by
  obtain ⟨f, hf, hrep⟩ := h.frame s.top (Nat.le_refl _)
  obtain ⟨prev, hprev, hrepprev⟩ := h.frame (s.top - 1) (by omega)
  obtain ⟨a, e, heq, ha, he⟩ := Memory.allocateSlice_argument (m := m)
    allowAllocation (by rw [h.top]; exact htop) (by rw [h.top]; exact hprev) hpos
    hrepprev.passed hrepprev.size hloc hi
  have hplace : ∀ j, j < s.top → ∀ id, (m.extend count).place j id = m.place j id :=
    fun j hj id => Memory.place_congr (extend_below h hj) id
  obtain ⟨hmem, hir, -⟩ := locate_spec hloc
  obtain ⟨hlevel, hfirst, hin⟩ := h.store.range (s.top - 1) (by omega) r hmem
  have hsource : s.source srcFirst count = ⟨r.level, r.first + i, count⟩ := by
    unfold Store.source
    rw [hloc]
  have hstore : s.allocateSlice srcFirst count allowAllocation =
      s.pass ⟨r.level, r.first + i, count⟩ allowAllocation := by
    unfold Store.allocateSlice Store.allocates
    rw [hloc, hsource]
    rfl
  rw [heq, hstore]
  refine refines_passSlice (m := m.extend count) (r := ⟨r.level, r.first + i, count⟩) h.store h.top (fun j hj => ?_)
    (extend_frame h hf) hrep
    (hrep.passed.congr rfl rfl rfl fun t ht i _ =>
      hplace _ (h.store.range s.top (Nat.le_refl _) t ht).1 _) hown hpos ?_ (by show r.level < _; omega)
    (Nat.le_add_right_of_le hfirst) (fun j hj => ?_) hstart hcount hallow ?_ ?_
  · obtain ⟨g, hg, hrepg⟩ := h.frame j (by omega)
    exact ⟨g, (extend_below h hj).trans hg,
      hrepg.congr h.store (by omega) fun k hk => extend_below h (by omega)⟩
  · have hcont := ((hrepprev.passed.contiguous r hmem).2).sub hi
    intro j hj
    rw [hplace r.level (by omega), hplace r.level (by omega)]
    exact hcont j hj
  · have hj : j < count := hj
    show (s.frames r.level).InBounds (r.first + i + j)
    rw [Nat.add_assoc]
    exact hin (i + j) (by omega)
  · rw [ha]
    exact (hplace r.level (by omega) _).symm
  · exact he.congr (hplace r.level (by omega) _)

theorem Refines.allocateSlice_own (htop : s.top ≠ 0) {srcFirst start count : ℕ}
    {prev : Frame X} (hprev : m.stack[s.top - 1]? = some prev)
    (hrepprev : Represents m (s.top - 1) s.caller prev)
    (hpos : 0 < count) (hloc : locate s.caller.args srcFirst = none)
    (hbound : s.caller.InBounds (srcFirst + count - 1))
    (hkind : prev.memframeIsVector = true ∨ count = 1 ∨
      ∃ k n, s.caller.allocations k = some n ∧ k ≤ srcFirst ∧ srcFirst + count - 1 < k + n)
    (hstart : start = totalCount s.current.args)
    (hcount : ∀ n, s.current.argsCount = some n → start + count ≤ n)
    (hown : ∀ id, s.current.own id = none)
    {allowAllocation : Bool} (hallow : allowAllocation = true → s.current.inputs = []) :
    ∃ m', m.allocateSlice srcFirst (srcFirst + count - 1) start count allowAllocation = some m' ∧
      Refines (s.allocateSlice srcFirst count allowAllocation) m' := by
  obtain ⟨f, hf, hrep⟩ := h.frame s.top (Nat.le_refl _)
  have hargs : totalCount s.caller.args ≤ srcFirst := by
    by_contra hlt
    obtain ⟨r, i, hr⟩ := exists_locate (Nat.lt_of_not_le hlt)
    exact absurd (hloc.symm.trans hr) (by simp)
  have hin : ∀ i < count, s.caller.InBounds (srcFirst + i) := by
    intro i hi n hn
    have := hbound n hn
    omega
  have hsize : prev.callframeSize ≤ srcFirst := by
    rw [hrepprev.size]
    exact hargs
  have hblock : prev.memframeIsVector = true ∨ count = 1 ∨
      ∃ c, prev.memframePool.lookup srcFirst = some c ∧ srcFirst + count - 1 ≤ c.last := by
    rcases Bool.eq_false_or_eq_true prev.memframeIsVector with hvec | hvec
    · exact .inl hvec
    · rcases hkind with hv | hone | ⟨k, n, hk, hle, hlt⟩
      · exact .inl hv
      · exact .inr (.inl hone)
      · obtain ⟨hn, stamp, hlookup⟩ := (hrepprev.allocations hvec k n).1 hk
        refine .inr (.inr ⟨_, WirePool.lookup_of_mem (hrepprev.ok hvec) hlookup hle ?_, ?_⟩)
        · show srcFirst ≤ k + n - 1
          omega
        · show srcFirst + count - 1 ≤ k + n - 1
          omega
  obtain ⟨m₂, a, e, heq, hlike, hread, hframe, ha, he⟩ :=
    Memory.allocateSlice_own (m := m) allowAllocation (by rw [h.top]; exact htop)
      (by rw [h.top]; exact hprev) hpos hrepprev.ok
      (Frame.fits_of_represents hrepprev hargs (by simpa using hin 0 hpos))
      (hblock.imp_right (Or.imp_right fun ⟨c, hc, _⟩ => by rw [hc]; rfl))
  rw [h.top] at ha he hframe
  have hplace : ∀ j, j < s.top → ∀ id, m₂.place j id = m.place j id := by
    intro j hj id
    obtain ⟨g, hg, -⟩ := h.frame j (by omega)
    have hlike := hlike.place ((extend_below h hj).trans hg) id
    exact hlike.trans (Memory.place_congr (extend_below h hj) id)
  have hplaceprev : ∀ id, m₂.place (s.top - 1) id = prev.place (s.top - 1) id := by
    intro id
    rw [hplace _ (by omega), Memory.place_eq hprev]
  obtain ⟨s', hs', htop', hframes, hcaller⟩ :=
    exists_allocated s srcFirst count allowAllocation
  have hother : ∀ j, s'.frames j = { s.frames j with allocations := (s'.frames j).allocations } := by
    intro j
    rcases eq_or_ne j (s.top - 1) with rfl | hne
    · rw [hcaller]
      rfl
    · rw [hframes j hne]
  have hcurrent : s'.current = s.current := by
    unfold Store.current
    rw [htop', hframes _ (by omega)]
  have hsource : s.source srcFirst count = ⟨s.top - 1, srcFirst, count⟩ := by
    unfold Store.source
    rw [hloc]
  rw [heq, hs', hsource]
  have hallocates : prev.memframeIsVector = true ∨ s'.frames (s.top - 1) = s.caller := by
    rcases hkind with hv | hkind
    · exact .inl hv
    · right
      have hfalse : s.allocates srcFirst count allowAllocation = false := by
        unfold Store.allocates
        rcases hkind with rfl | ⟨k, n, hk, hle, hlt⟩
        · simp
        · have htrue := (s.caller.allocated_iff srcFirst).2 ⟨k, n, hk, hle, by omega⟩
          simp [htrue]
      rw [hcaller, hfalse]
      rfl
  refine refines_passSlice (m := m₂) (f := f) (r := ⟨s.top - 1, srcFirst, count⟩)
    (h.store.of_allocations htop' hother) (by rw [hlike.top, htop']; exact h.top)
    (fun j hj => ?_) ?_ (by rw [hcurrent, htop']; exact hrep) ?_ (by rw [hcurrent]; exact hown)
    hpos ?_ (by show s.top - 1 < s'.top; omega) ?_ ?_ (by rw [hcurrent]; exact hstart)
    (by rw [hcurrent]; exact hcount) (by rw [hcurrent]; exact hallow) ?_ ?_
  · rw [htop'] at hj
    obtain ⟨g, hg, hrepg⟩ := h.frame j (by omega)
    obtain ⟨g', hg', hgg'⟩ := hlike.frame j g ((extend_below h hj).trans hg)
    refine ⟨g', hg', ?_⟩
    have hlikerep : Represents m₂ j (s.frames j) g' := by
      refine hrepg.like hgg' (fun t ht i _ => hplace _ (by
          have := (h.store.range j (by omega) t ht).1
          omega) _) fun id x hx => ?_
      rw [hread, Memory.read_congr (extend_below h hj)]
      exact hrepg.value id x hx
    rcases eq_or_ne j (s.top - 1) with rfl | hne
    · obtain rfl : prev = g := Option.some.inj (hprev.symm.trans hg)
      rcases hallocates with hvec | hsame
      · rw [hother]
        exact hlikerep.setAllocations (hgg'.memframeIsVector.trans hvec) _
      · rw [hsame]
        exact hlikerep
    · rw [hframes j hne]
      exact hlikerep
  · rw [htop', hframe]
    exact extend_frame h hf
  · rw [hcurrent]
    exact hrep.passed.congr rfl rfl rfl fun t ht i _ =>
      hplace _ (h.store.range s.top (Nat.le_refl _) t ht).1 _
  · intro i hi
    show (m₂.place (s.top - 1) srcFirst).incr i = some (m₂.place (s.top - 1) (srcFirst + i))
    rw [hplaceprev, hplaceprev]
    exact Frame.contiguous_own hrepprev.ok hsize hblock hi
  · show totalCount (s'.frames (s.top - 1)).args ≤ srcFirst
    rw [hother]
    exact hargs
  · show ∀ i < count, (s'.frames (s.top - 1)).InBounds (srcFirst + i)
    rw [hother]
    exact hin
  · exact ha.trans (hplaceprev _).symm
  · exact he _ (hplaceprev _)

theorem Refines.allocateSlice_fresh (htop : s.top ≠ 0) {srcFirst start count : ℕ}
    {prev : Frame X} (hprev : m.stack[s.top - 1]? = some prev)
    (hrepprev : Represents m (s.top - 1) s.caller prev)
    (hvec : prev.memframeIsVector = false)
    (hpos : 1 < count) (hloc : locate s.caller.args srcFirst = none)
    (hbound : s.caller.InBounds (srcFirst + count - 1))
    (hfree : s.Free srcFirst (srcFirst + count - 1))
    (hstart : start = totalCount s.current.args)
    (hcount : ∀ n, s.current.argsCount = some n → start + count ≤ n)
    (hown : ∀ id, s.current.own id = none) (hallow : s.current.inputs = []) :
    ∃ m', m.allocateSlice srcFirst (srcFirst + count - 1) start count true = some m' ∧
      Refines (s.allocateSlice srcFirst count true) m' := by
  obtain ⟨f, hf, hrep⟩ := h.frame s.top (Nat.le_refl _)
  have hargs : totalCount s.caller.args ≤ srcFirst := by
    by_contra hlt
    obtain ⟨r, i, hr⟩ := exists_locate (Nat.lt_of_not_le hlt)
    exact absurd (hloc.symm.trans hr) (by simp)
  have hin : ∀ i < count, s.caller.InBounds (srcFirst + i) := by
    intro i hi n hn
    have := hbound n hn
    omega
  have hnone : ∀ id, srcFirst ≤ id → id ≤ srcFirst + count - 1 →
      prev.memframePool.lookup id = none := by
    intro id h0 h1
    have hsome := (hrepprev.allocated hvec id).symm.trans (hfree id h0 h1).2.1
    exact Option.isSome_eq_false_iff.1 hsome |> Option.isNone_iff_eq_none.1
  obtain ⟨m₂, q, a, e, heq, hq, hlookup, hmtop, hstack, hread, ha, he⟩ :=
    Memory.allocateSlice_fresh (m := m) (by rw [h.top]; exact htop)
      (by rw [h.top]; exact hprev) hpos (hrepprev.ok hvec) hvec
      (by rw [hrepprev.size]; exact hargs) hnone
  rw [h.top] at hmtop hstack hread ha he
  have hstackprev : m₂.stack[s.top - 1]? = some { prev with memframePool := q } := by
    rw [hstack, if_pos rfl]
  have hstackbelow : ∀ j, j < s.top - 1 → m₂.stack[j]? = m.stack[j]? := by
    intro j hj
    rw [hstack, if_neg (by omega), extend_below h (by omega)]
  have hin_or : ∀ level id, level < s.top →
      m₂.place level id = m.place level id ∨
        (level = s.top - 1 ∧ srcFirst ≤ id ∧ id ≤ srcFirst + count - 1) := by
    intro level id hlevel
    rcases eq_or_ne level (s.top - 1) with rfl | hne
    · by_cases hid : srcFirst ≤ id ∧ id ≤ srcFirst + count - 1
      · exact .inr ⟨rfl, hid⟩
      · left
        rw [Memory.place_eq hstackprev, Memory.place_eq hprev, Frame.place_pool hvec,
          Frame.place_pool (by exact hvec), hlookup, if_neg hid]
    · exact .inl (Memory.place_congr (hstackbelow level (by omega)) id)
  obtain ⟨s', hs', htop', hframes, hcaller⟩ := exists_allocated s srcFirst count true
  have hallocates : s.allocates srcFirst count true = true := by
    unfold Store.allocates
    rw [hloc, (hfree srcFirst (Nat.le_refl _) (by omega)).2.1]
    simp
    omega
  rw [hallocates, if_pos rfl] at hcaller
  have hother : ∀ j, s'.frames j = { s.frames j with allocations := (s'.frames j).allocations } := by
    intro j
    rcases eq_or_ne j (s.top - 1) with rfl | hne
    · rw [hcaller]
      rfl
    · rw [hframes j hne]
  have hcurrent : s'.current = s.current := by
    unfold Store.current
    rw [htop', hframes _ (by omega)]
  have hsource : s.source srcFirst count = ⟨s.top - 1, srcFirst, count⟩ := by
    unfold Store.source
    rw [hloc]
  have hplacenew : ∀ i < count, m₂.place (s.top - 1) (srcFirst + i) =
      .cell ⟨s.top - 1, some srcFirst, m.fresh, i⟩ := by
    intro i hi
    rw [Memory.place_eq hstackprev, Frame.place_pool (by exact hvec)]
    simp only [hlookup, if_pos (show srcFirst ≤ srcFirst + i ∧
      srcFirst + i ≤ srcFirst + count - 1 by omega), Nat.add_sub_cancel_left]
  rw [heq, hs', hsource]
  refine refines_passSlice (m := m₂) (f := f) (r := ⟨s.top - 1, srcFirst, count⟩)
    (h.store.of_allocations htop' hother) (by rw [hmtop, htop']) (fun j hj => ?_) ?_
    (by rw [hcurrent, htop']; exact hrep) ?_ (by rw [hcurrent]; exact hown) (by show 0 < count; omega)
    ?_ (by show s.top - 1 < s'.top; omega) ?_ ?_ (by rw [hcurrent]; exact hstart)
    (by rw [hcurrent]; exact hcount) (fun _ => by rw [hcurrent]; exact hallow) ?_ ?_
  · rw [htop'] at hj
    rcases eq_or_ne j (s.top - 1) with rfl | hne
    · refine ⟨_, hstackprev, ?_⟩
      rw [hcaller]
      refine hrepprev.setPool rfl (fun r hr i _ => ?_) (fun id x hx => ⟨hx, ?_⟩) (fun _ => hq)
        (fun _ k n => ?_)
      · have hlt := (h.store.range (s.top - 1) (by omega) r hr).1
        exact Memory.place_congr (hstackbelow _ hlt) _
      · have hout : ¬(srcFirst ≤ id ∧ id ≤ srcFirst + count - 1) := by
          rintro ⟨h0, h1⟩
          exact absurd ((hfree id h0 h1).1.symm.trans hx) (by simp)
        have hsame : ({ prev with memframePool := q } : Frame X).place (s.top - 1) id =
            prev.place (s.top - 1) id := by
          rw [Frame.place_pool hvec, Frame.place_pool (by exact hvec), hlookup, if_neg hout]
        rw [hsame, hread, Memory.read_congr (extend_below h (by omega))]
        intro stamp o heq
        rw [Frame.place_pool hvec] at heq
        cases hc : prev.memframePool.lookup id with
        | none =>
          rw [hc] at heq
          cases heq
        | some c =>
          rw [hc] at heq
          have hfirst := congrArg Pointer.block (Place.cell.inj heq)
          have hcovers := WirePool.covers_of_lookup hc
          have hself := WirePool.lookup_of_mem (hrepprev.ok hvec) hc (Nat.le_refl _)
            (Nat.le_trans hcovers.first_le hcovers.le_last)
          rw [Option.some.inj hfirst, hnone srcFirst (Nat.le_refl _) (by omega)] at hself
          cases hself
      · have hcount' : count = srcFirst + count - 1 - srcFirst + 1 := by omega
        have hinsert := allocations_insert hrepprev hvec (show srcFirst ≤ srcFirst + count - 1 by omega)
          (fun id h0 h1 => (hfree id h0 h1).2.1) hlookup k n
        rw [← hcount'] at hinsert
        exact hinsert
    · obtain ⟨g, hg, hrepg⟩ := h.frame j (by omega)
      rw [hframes j hne]
      exact ⟨g, (hstackbelow j (by omega)).trans hg,
        hrepg.congr h.store (by omega) fun k hk => hstackbelow k (by omega)⟩
  · rw [htop', hstack, if_neg (by omega)]
    exact extend_frame h hf
  · rw [hcurrent]
    refine hrep.passed.congr rfl rfl rfl fun t ht i hi => ?_
    have hlt := (h.store.range s.top (Nat.le_refl _) t ht).1
    rcases hin_or t.level (t.first + i) hlt with hsame | ⟨hlevel, h0, h1⟩
    · exact hsame
    · exact absurd ⟨Nat.le_add_right _ _, by omega⟩ ((hfree _ h0 h1).2.2 t ht hlevel)
  · intro i hi
    have h0 := hplacenew 0 (by omega)
    rw [Nat.add_zero] at h0
    show (m₂.place (s.top - 1) srcFirst).incr i = some (m₂.place (s.top - 1) (srcFirst + i))
    rw [h0, hplacenew i hi]
    show some (Place.cell ⟨s.top - 1, some srcFirst, m.fresh, 0 + i⟩) = _
    rw [Nat.zero_add]
  · show totalCount (s'.frames (s.top - 1)).args ≤ srcFirst
    rw [hother]
    exact hargs
  · show ∀ i < count, (s'.frames (s.top - 1)).InBounds (srcFirst + i)
    rw [hother]
    exact hin
  · have h0 := hplacenew 0 (by omega)
    rw [ha]
    exact h0.symm
  · have h0 := hplacenew 0 (by omega)
    refine he _ ?_
    rw [ha]
    exact h0

theorem Refines.allocateSlice {srcFirst srcLast start count : ℕ} {allowAllocation : Bool}
    (hallowed : s.Allowed (.allocateSlice srcFirst srcLast start count allowAllocation)) :
    ∃ m', m.allocateSlice srcFirst srcLast start count allowAllocation = some m' ∧
      Refines (s.step (.allocateSlice srcFirst srcLast start count allowAllocation)).2 m' := by
  obtain ⟨htop, hle, rfl, hstart, hallow, hcount, hown, hpass⟩ := hallowed
  obtain ⟨count, hcountdef⟩ : ∃ c, c = srcLast - srcFirst + 1 := ⟨_, rfl⟩
  rw [← hcountdef] at hcount hpass ⊢
  obtain rfl : srcLast = srcFirst + count - 1 := by omega
  unfold Store.Passable at hpass
  cases hloc : locate s.caller.args srcFirst with
  | some ri =>
    obtain ⟨r, i⟩ := ri
    rw [hloc] at hpass
    exact h.allocateSlice_argument htop (by omega) hloc hpass hstart hcount
      (fun id => (hown id).1) hallow
  | none =>
    rw [hloc] at hpass
    obtain ⟨hbound, hkind⟩ := hpass
    obtain ⟨prev, hprev, hrepprev⟩ := h.frame (s.top - 1) (by omega)
    rcases Bool.eq_false_or_eq_true prev.memframeIsVector with hvec | hvec
    · exact h.allocateSlice_own htop hprev hrepprev (by omega) hloc hbound (.inl hvec) hstart
        hcount (fun id => (hown id).1) hallow
    · rcases hkind with hone | hin | ⟨rfl, hfree⟩
      · exact h.allocateSlice_own htop hprev hrepprev (by omega) hloc hbound (.inr (.inl hone))
          hstart hcount (fun id => (hown id).1) hallow
      · exact h.allocateSlice_own htop hprev hrepprev (by omega) hloc hbound (.inr (.inr hin))
          hstart hcount (fun id => (hown id).1) hallow
      · rcases Nat.lt_or_ge 1 count with hgt | hle'
        · exact h.allocateSlice_fresh htop hprev hrepprev hvec hgt hloc hbound hfree hstart hcount
            (fun id => (hown id).1) (hallow rfl)
        · exact h.allocateSlice_own htop hprev hrepprev (by omega) hloc hbound
            (.inr (.inl (by omega))) hstart hcount (fun id => (hown id).1) hallow

end Slice

end EdaBitGen

/-!
## Runs of the memory

On well formed sequences of operations the memory reads what the reference store reads.  What a
memory went through before is not seen by the operations that follow, as long as they are well
formed: the hundredth call at a depth finds a pool where the others found a vector, and the two
accept different operations otherwise.
-/

namespace EdaBitGen

variable {X : Type} [Inhabited X]

theorem Refines.step {s : Store X} {m : Memory X} (h : Refines s m) {op : WireOp X}
    (hop : s.Allowed op) :
    ∃ m', m.step op = some ((s.step op).1, m') ∧ Refines (s.step op).2 m' := by
  cases op with
  | get id =>
    obtain ⟨x, hx⟩ := Option.ne_none_iff_exists'.1 hop
    obtain ⟨m', hget, hm'⟩ := h.get hx
    refine ⟨m', ?_, hm'⟩
    show (m.get id).map _ = some (s.get id, m')
    rw [hget, hx]
    rfl
  | set id x =>
    obtain ⟨m', hset, hm'⟩ := h.set hop x
    exact ⟨m', congrArg (Option.map (Prod.mk none)) hset, hm'⟩
  | allocationNew first last =>
    obtain ⟨m', hnew, hm'⟩ := h.allocationNew hop.1 hop.2
    exact ⟨m', congrArg (Option.map (Prod.mk none)) hnew, hm'⟩
  | allocationDelete first last =>
    obtain ⟨m', hdelete, hm'⟩ := h.allocationDelete hop.1 hop.2
    exact ⟨m', congrArg (Option.map (Prod.mk none)) hdelete, hm'⟩
  | pushFrame argsCount vectorSize => exact ⟨_, rfl, h.pushFrame argsCount vectorSize⟩
  | allocateSlice srcFirst srcLast start count allowAllocation =>
    obtain ⟨m', hslice, hm'⟩ := h.allocateSlice hop
    exact ⟨m', congrArg (Option.map (Prod.mk none)) hslice, hm'⟩
  | popFrame =>
    obtain ⟨m', hpop, hm'⟩ := h.popFrame hop
    exact ⟨m', congrArg (Option.map (Prod.mk none)) hpop, hm'⟩

theorem Refines.run {ops : List (WireOp X)} :
    ∀ {s : Store X} {m : Memory X}, Refines s m → s.WellFormed ops →
      ∃ m', m.run ops = some ((s.run ops).1, m') ∧ Refines (s.run ops).2 m' := by
  induction ops with
  | nil =>
    intro s m h _
    exact ⟨m, rfl, h⟩
  | cons op ops ih =>
    intro s m h hops
    obtain ⟨m₁, hstep, h₁⟩ := h.step hops.1
    obtain ⟨m₂, hrun, h₂⟩ := ih h₁ hops.2
    refine ⟨m₂, ?_, h₂⟩
    unfold Memory.run
    rw [hstep]
    simp only [Option.bind_eq_bind, Option.bind_some, hrun]
    rfl

theorem refines_new : Refines (Store.new : Store X) Memory.new := by
  refine ⟨rfl, ⟨fun level _ id x hx => (by cases hx), fun level _ r hr => (by cases hr)⟩,
    fun level hlevel => ?_⟩
  obtain rfl : level = 0 := Nat.le_zero.1 hlevel
  refine ⟨Frame.new 1, rfl, rfl, passed_nil fun _ => rfl, fun hvec => (by cases hvec),
    fun _ => WirePool.ok_new, fun hvec => (by cases hvec), fun _ k n => ?_,
    fun id x hx => (by cases hx)⟩
  rw [show (Frame.new 1 : Frame X).memframePool = .new from rfl, WirePool.lookup_new]
  simp [Store.new, StoreFrame.new]

/-- A call that doubles a wire of the caller's, which the caller then reads. -/
def callOps : List (WireOp ℕ) :=
  [.set 0 21, .pushFrame (some 2) (some 5), .allocateSlice 1 1 0 1 true,
    .allocateSlice 0 0 1 1 false, .get 1, .set 0 42, .popFrame, .get 1]

theorem wellFormed_callOps : (Store.new : Store ℕ).WellFormed callOps := by
  have hempty : ∀ id : ℕ, (none : Option ℕ) = none ∧ (none : Option ℕ) = none := fun _ => ⟨rfl, rfl⟩
  refine ⟨fun _ n hn => (by cases hn), trivial,
    ⟨by decide, by decide, rfl, rfl, fun _ => rfl, fun n hn => ?_, hempty,
      fun n hn => (by cases hn), .inl rfl⟩,
    ⟨by decide, by decide, rfl, rfl, fun h => (by cases h), fun n hn => ?_, hempty,
      fun n hn => (by cases hn), .inl rfl⟩,
    ?_, fun h => ?_, Nat.one_ne_zero, ?_, trivial⟩
  · obtain rfl := Option.some.inj hn
    decide
  · obtain rfl := Option.some.inj hn
    decide
  · exact Option.some_ne_none 21
  · cases h
  · exact Option.some_ne_none 42

/-- A function with two wires and a body with wires up to five, called `n` times. -/
def calls : ℕ → List (WireOp ℕ)
  | 0 => []
  | n + 1 => .pushFrame (some 2) (some 5) :: .popFrame :: calls n

theorem run_calls (n : ℕ) : ((Store.new : Store ℕ).run (calls n)).2 = Store.new ∧
    (Store.new : Store ℕ).WellFormed (calls n) := by
  have hstep : (((Store.new : Store ℕ).step (.pushFrame (some 2) (some 5))).2.step .popFrame).2 =
      Store.new := by
    show (⟨_, 0⟩ : Store ℕ) = ⟨_, 0⟩
    congr 1
    funext j
    rcases eq_or_ne j 1 with rfl | hne
    · exact Function.update_self _ _ _
    · exact (Function.update_of_ne hne _ _).trans (Function.update_of_ne hne _ _)
  induction n with
  | zero => exact ⟨rfl, trivial⟩
  | succ n ih =>
    refine ⟨?_, trivial, Nat.succ_ne_zero 0, ?_⟩
    · show ((((Store.new : Store ℕ).step (.pushFrame (some 2) (some 5))).2.step
        .popFrame).2.run (calls n)).2 = _
      rw [hstep]
      exact ih.1
    · rw [hstep]
      exact ih.2

end EdaBitGen
