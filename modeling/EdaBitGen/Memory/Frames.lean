import EdaBitGen.Memory.Arguments

/-!
# Pushing frames and passing ranges to them
-/

namespace EdaBitGen

namespace Frame

variable {X : Type} [Inhabited X]

/-- What a pushed frame has, whichever representation `tick` leaves it. -/
structure Pushed (f : Frame X) (argsCount vectorSize : Option ℕ) : Prop where
  size : f.callframeSize = 0
  callframe : f.callframeIsVector = false → f.callframe = .new
  callframeVector : f.callframeIsVector = true →
    ∃ n, argsCount = some n ∧ n < f.callframeVector.length
  pool : f.memframeIsVector = false →
    f.memframePool = .new ∧ f.memframeUnallocated = fun _ => none
  memframeVector : f.memframeIsVector = true →
    ∃ n, vectorSize = some n ∧ n < f.memframeVector.elems.length

omit [Inhabited X] in
theorem resizeCallframe_spec (f : Frame X) (argsCount : Option ℕ) :
    ∃ v, f.resizeCallframe (argsCount.any (· < vecSizeCallframeThreshold)) argsCount =
        { f with callframeVector := v } ∧
      (argsCount.any (· < vecSizeCallframeThreshold) = true →
        ∃ n, argsCount = some n ∧ n < v.length) := by
  generalize hisVector : argsCount.any (· < vecSizeCallframeThreshold) = isVector
  cases argsCount with
  | none => exact ⟨_, rfl, fun h => absurd (hisVector.trans h) (by simp)⟩
  | some n =>
    unfold resizeCallframe
    by_cases hlen : isVector = true ∧ n + 1 > f.callframeVector.length
    · refine ⟨_, if_pos hlen, fun _ => ⟨n, rfl, ?_⟩⟩
      simp only [List.length_append, List.length_replicate]
      omega
    · refine ⟨_, if_neg hlen, fun h => ⟨n, rfl, ?_⟩⟩
      have : ¬n + 1 > f.callframeVector.length := fun hgt => hlen ⟨h, hgt⟩
      omega

theorem resizeMemframe_spec (f : Frame X) (stamp : ℕ) (vectorSize : Option ℕ) :
    ∃ v, f.resizeMemframe stamp (vectorSize.any (· < vecSizeMemframeThreshold)) vectorSize =
        { f with memframeVector := v } ∧
      (vectorSize.any (· < vecSizeMemframeThreshold) = true →
        ∃ n, vectorSize = some n ∧ n < v.elems.length) := by
  generalize hisVector : vectorSize.any (· < vecSizeMemframeThreshold) = isVector
  cases vectorSize with
  | none => exact ⟨_, rfl, fun h => absurd (hisVector.trans h) (by simp)⟩
  | some n =>
    unfold resizeMemframe
    by_cases hlen : isVector = true ∧ n + 1 > f.memframeVector.elems.length
    · refine ⟨_, if_pos hlen, fun _ => ⟨n, rfl, ?_⟩⟩
      simp only [List.length_append, List.length_replicate]
      omega
    · refine ⟨_, if_neg hlen, fun h => ⟨n, rfl, ?_⟩⟩
      have : ¬n + 1 > f.memframeVector.elems.length := fun hgt => hlen ⟨h, hgt⟩
      omega

end Frame

namespace Memory

variable {X : Type} [Inhabited X]

theorem pushFrame_spec {m : Memory X} (hm : m.top < m.stack.length)
    (argsCount vectorSize : Option ℕ) :
    (m.pushFrame argsCount vectorSize).top = m.top + 1 ∧
      (∀ j ≤ m.top, (m.pushFrame argsCount vectorSize).stack[j]? = m.stack[j]?) ∧
      ∃ f, (m.pushFrame argsCount vectorSize).stack[m.top + 1]? = some f ∧
        f.Pushed argsCount vectorSize := by
  have hmodify : ∀ (l : List (Frame X)) g, ∀ j ≤ m.top, (l.modify (m.top + 1) g)[j]? = l[j]? := by
    intro l g j hj
    rw [List.getElem?_modify]
    simp [show m.top + 1 ≠ j by omega]
  have hself : ∀ (l : List (Frame X)) (g : Frame X → Frame X) f, l[m.top + 1]? = some f →
      (l.modify (m.top + 1) g)[m.top + 1]? = some (g f) := by
    intro l g f hf
    rw [List.getElem?_modify, hf]
    simp
  unfold pushFrame
  generalize hcv : argsCount.any (· < vecSizeCallframeThreshold) = cv
  generalize hmv : vectorSize.any (· < vecSizeMemframeThreshold) = mv
  dsimp only
  generalize hstack : (if m.stack.length ≤ m.top + 1 then m.stack ++ [({ (Frame.new m.fresh : Frame X)
    with callframeIsVector := cv, memframeIsVector := mv })] else _) = stack
  have hstack : (∀ j ≤ m.top, stack[j]? = m.stack[j]?) ∧ ∃ f, stack[m.top + 1]? = some f ∧
      f.callframeIsVector = cv ∧ f.memframeIsVector = mv ∧ f.callframeSize = 0 ∧
      (cv = false → f.callframe = .new) ∧
      (mv = false → f.memframePool = .new ∧ f.memframeUnallocated = fun _ => none) := by
    rw [← hstack]
    by_cases hlen : m.stack.length ≤ m.top + 1
    · rw [if_pos hlen]
      refine ⟨fun j hj => List.getElem?_append_left (by omega),
        { (Frame.new m.fresh : Frame X) with callframeIsVector := cv, memframeIsVector := mv }, ?_,
        rfl, rfl, rfl, fun _ => rfl, fun _ => ⟨rfl, rfl⟩⟩
      rw [List.getElem?_append_right (by omega), show m.top + 1 - m.stack.length = 0 by omega]
      rfl
    · rw [if_neg hlen]
      refine ⟨hmodify _ _, _, hself _ _ _ (List.getElem?_eq_getElem (by omega)), rfl, rfl, rfl,
        fun h => ?_, fun h => ?_⟩
      · subst h
        rfl
      · subst h
        exact ⟨rfl, rfl⟩
  obtain ⟨hbelow, f, hf, hfcv, hfmv, hsize, hcallframe, hpool⟩ := hstack
  refine ⟨rfl, fun j hj => ?_, ?_⟩
  · rw [hmodify _ _ j hj, hmodify _ _ j hj, hmodify _ _ j hj, hbelow j hj]
  refine ⟨_, hself _ _ _ (hself _ _ _ (hself _ _ _ hf)), ?_⟩
  have htick : (f.tick (m.fresh + 1)).callframeIsVector = cv ∧
      ((f.tick (m.fresh + 1)).memframeIsVector = true → mv = true) ∧
      (f.tick (m.fresh + 1)).callframeSize = 0 ∧
      (cv = false → (f.tick (m.fresh + 1)).callframe = .new) ∧
      ((f.tick (m.fresh + 1)).memframeIsVector = false →
        (f.tick (m.fresh + 1)).memframePool = .new ∧
          (f.tick (m.fresh + 1)).memframeUnallocated = fun _ => none) := by
    unfold Frame.tick
    split_ifs
    · exact ⟨hfcv, fun h => hfmv.symm.trans h, hsize, hcallframe,
        fun h => hpool (hfmv.symm.trans h)⟩
    · exact ⟨hfcv, fun h => absurd h (by simp), rfl, fun _ => rfl, fun _ => ⟨rfl, rfl⟩⟩
  generalize f.tick (m.fresh + 1) = f₁ at htick
  obtain ⟨hcv₁, hmv₁, hsize₁, hcallframe₁, hpool₁⟩ := htick
  obtain ⟨v, hv, hlength⟩ := f₁.resizeCallframe_spec argsCount
  obtain ⟨u, hu, hlength'⟩ :=
    ({ f₁ with callframeVector := v } : Frame X).resizeMemframe_spec (m.fresh + 2) vectorSize
  rw [hcv] at hv hlength
  rw [hmv] at hu hlength'
  rw [hv, hu]
  exact ⟨hsize₁, fun h => hcallframe₁ (hcv₁.symm.trans h), fun h => hlength (hcv₁.symm.trans h),
    hpool₁, fun h => hlength' (hmv₁ h)⟩

theorem pushFrame_new {m : Memory X} (hm : m.stack.length = m.top + 1)
    (argsCount vectorSize : Option ℕ) {f : Frame X}
    (hf : (m.pushFrame argsCount vectorSize).stack[m.top + 1]? = some f) {j : ℕ}
    {a : AbsoluteAddr} (ha : f.callframeVector[j]? = some a) : a = .default := by
  have hself : ∀ (l : List (Frame X)) (g : Frame X → Frame X),
      (l.modify (m.top + 1) g)[m.top + 1]? = (l[m.top + 1]?).map g := by
    intro l g
    rw [List.getElem?_modify]
    simp
  unfold pushFrame at hf
  dsimp only at hf
  rw [if_pos (Nat.le_of_eq hm), hself, hself, hself,
    List.getElem?_append_right (Nat.le_of_eq hm), hm, Nat.sub_self] at hf
  simp only [List.getElem?_cons_zero, Option.map_some] at hf
  generalize htick : (Frame.tick _ _ : Frame X) = g at hf
  have hvector : g.callframeVector = [] := by
    rw [← htick]
    rfl
  obtain ⟨u, hu, -⟩ := (g.resizeCallframe (argsCount.any (· < vecSizeCallframeThreshold))
    argsCount).resizeMemframe_spec (m.fresh + 2) vectorSize
  rw [hu] at hf
  obtain rfl := Option.some.inj hf
  have hmem : a ∈ (g.resizeCallframe (argsCount.any (· < vecSizeCallframeThreshold))
      argsCount).callframeVector := List.mem_of_getElem? ha
  unfold Frame.resizeCallframe at hmem
  cases argsCount with
  | none => simp [hvector] at hmem
  | some s =>
    dsimp only at hmem
    split_ifs at hmem
    · rw [hvector, List.nil_append] at hmem
      exact List.eq_of_mem_replicate hmem
    · simp [hvector] at hmem

/-! ## Passing a range -/

section Slices

variable {m : Memory X} {prev : Frame X} {srcFirst start count : ℕ} (allowAllocation : Bool)

theorem allocateSlice_argument (htop : m.top ≠ 0) (hprev : m.stack[m.top - 1]? = some prev)
    (hpos : 0 < count) {w : ℕ → ℕ → Place} {outputs inputs : List WireRange}
    (hpassed : Passed w prev outputs inputs)
    (hsize : prev.callframeSize = totalCount (outputs ++ inputs)) {r : WireRange} {i : ℕ}
    (hr : locate (outputs ++ inputs) srcFirst = some (r, i)) (hcount : i + count ≤ r.count) :
    ∃ a e, m.allocateSlice srcFirst (srcFirst + count - 1) start count allowAllocation =
        (m.extend count).passSlice start count allowAllocation a (some e) ∧
      a.place = w r.level (r.first + i) ∧ SliceOf w start ⟨r.level, r.first + i, count⟩ e := by
  have hlast := locate_add (j := count - 1) hr (by omega)
  have hfirst := (locate_spec hr).2.2
  have hlast := (locate_spec hlast).2.2
  have hprev' : (m.extend count).stack[m.top - 1]? = some prev := by
    rw [← hprev]
    exact modifyFrame_other m (by omega) _
  have hone : ∀ level idx, w r.level (r.first + i) = .wire level idx → count = 1 := by
    intro level idx hwire
    by_contra hne
    have hcont := (hpassed.contiguous r (locate_spec hr).1).2
    have h0 := hcont i (by omega)
    have h1 := hcont (i + 1) (by omega)
    rw [← Place.incr_incr h0, hwire] at h1
    cases h1
  unfold allocateSlice
  rw [if_neg (by omega)]
  simp only [show (m.extend count).top = m.top from rfl, hprev', Option.bind_eq_bind, Option.bind_some]
  rw [if_pos (by omega), if_pos (by omega)]
  cases hvec : prev.callframeIsVector with
  | true =>
    obtain ⟨a, ha, hplace⟩ := hpassed.vector hvec _ _ _ hr
    rw [if_pos rfl, ha, Option.bind_some]
    cases a with
    | poolAllocated ptr => exact ⟨_, _, rfl, hplace, rfl, rfl, hplace.symm⟩
    | vectorAllocated ptr => exact ⟨_, _, rfl, hplace, rfl, rfl, hplace.symm⟩
    | unallocated level idx =>
      have hone := hone level idx hplace.symm
      refine ⟨_, .unallocated start level idx, ?_, hplace, rfl, hone, hplace.symm⟩
      rw [mkFromAbsadr, if_pos (by omega)]
  | false =>
    obtain ⟨res, hres, hplace⟩ := hpassed.getEither hvec hr
    rw [if_neg Bool.false_ne_true, Callframe.getSlice, hres, Option.map_some, Option.bind_some]
    cases res with
    | found ptr => exact ⟨_, _, rfl, hplace, rfl, rfl, hplace.symm⟩
    | ref level idx =>
      exact ⟨_, _, rfl, hplace, rfl, hone level idx hplace.symm, hplace.symm⟩

theorem allocateSlice_own (htop : m.top ≠ 0) (hprev : m.stack[m.top - 1]? = some prev)
    (hpos : 0 < count) (hok : prev.memframeIsVector = false → prev.memframePool.Ok)
    (hfits : prev.Fits srcFirst)
    (hkind : prev.memframeIsVector = true ∨ count = 1 ∨
      (prev.memframePool.lookup srcFirst).isSome) :
    ∃ m₂ a e, m.allocateSlice srcFirst (srcFirst + count - 1) start count allowAllocation =
        m₂.passSlice start count allowAllocation a (some e) ∧
      (m.extend count).Like m₂ ∧ (∀ p, m₂.read p = (m.extend count).read p) ∧
      m₂.stack[m.top]? = (m.extend count).stack[m.top]? ∧
      a.place = prev.place (m.top - 1) srcFirst ∧
      ∀ w : ℕ → ℕ → Place, w (m.top - 1) srcFirst = prev.place (m.top - 1) srcFirst →
        SliceOf w start ⟨m.top - 1, srcFirst, count⟩ e := by
  have hprev' : (m.extend count).stack[m.top - 1]? = some prev := by
    rw [← hprev]
    exact modifyFrame_other m (by omega) _
  have hown := hfits.own
  unfold allocateSlice
  rw [if_neg (by omega)]
  simp only [show (m.extend count).top = m.top from rfl, hprev', Option.bind_eq_bind, Option.bind_some]
  rw [if_neg (by omega)]
  cases hvec : prev.memframeIsVector with
  | true =>
    rw [if_pos rfl, if_pos (hfits.room hvec)]
    refine ⟨_, _, _, rfl, Like.refl _, fun _ => rfl, rfl, (Frame.place_vector hvec _ _).symm,
      fun w hw => ⟨rfl, rfl, ?_⟩⟩
    rw [hw, Frame.place_vector hvec]
  | false =>
    rw [if_neg Bool.false_ne_true]
    obtain ⟨hpresent, hblocks, hok'⟩ := WirePool.present_eq (hok hvec) srcFirst
    generalize prev.memframePool.present srcFirst = present at hpresent hblocks hok' ⊢
    obtain ⟨found, q⟩ := present
    dsimp only at hpresent hblocks hok' ⊢
    rw [Frame.place_pool hvec]
    cases hc : prev.memframePool.lookup srcFirst with
    | none =>
      rw [hc] at hpresent
      obtain rfl : found = false := hpresent
      obtain rfl : count = 1 := by
        rcases hkind with h | h | h
        · exact absurd (h.symm.trans hvec) (by simp)
        · exact h
        · simp [hc] at h
      rw [if_neg (by omega)]
      exact ⟨_, _, _, rfl, Like.refl _, fun _ => rfl, rfl, rfl, fun w hw => ⟨rfl, rfl, hw⟩⟩
    | some c =>
      rw [hc] at hpresent
      obtain rfl : found = true := hpresent
      have hlookup : q.lookup srcFirst = some c := (WirePool.lookup_congr hblocks _).trans hc
      obtain ⟨q', hptr, hblocks', hok''⟩ :=
        WirePool.getPtr_eq hok' hlookup (m.top - 1)
      obtain ⟨hlike, hread⟩ := like_setPool (q := q') hprev' (hblocks'.trans hblocks) hok''
      simp only [hptr, Option.bind_some]
      exact ⟨_, _, _, rfl, hlike, hread, modifyFrame_other _ (by omega) _, rfl,
        fun w hw => ⟨rfl, rfl, hw⟩⟩

theorem allocateSlice_fresh (htop : m.top ≠ 0) (hprev : m.stack[m.top - 1]? = some prev)
    (hpos : 1 < count) (hok : prev.memframePool.Ok) (hvec : prev.memframeIsVector = false)
    (hown : prev.callframeSize ≤ srcFirst)
    (hfree : ∀ id, srcFirst ≤ id → id ≤ srcFirst + count - 1 →
      prev.memframePool.lookup id = none) :
    ∃ (m₂ : Memory X) (q : WirePool X) (a : AbsoluteAddr) (e : CallframeElm),
      m.allocateSlice srcFirst (srcFirst + count - 1) start count true =
        m₂.passSlice start count true a (some e) ∧
      q.Ok ∧ (∀ id, q.lookup id = if srcFirst ≤ id ∧ id ≤ srcFirst + count - 1 then
        some ⟨srcFirst, srcFirst + count - 1, m.fresh⟩ else prev.memframePool.lookup id) ∧
      m₂.top = m.top ∧
      (∀ j, m₂.stack[j]? = if j = m.top - 1 then some { prev with memframePool := q } else
        (m.extend count).stack[j]?) ∧
      (∀ p, (∀ s o, p ≠ .cell ⟨m.top - 1, some srcFirst, s, o⟩) →
        m₂.read p = (m.extend count).read p) ∧
      a.place = .cell ⟨m.top - 1, some srcFirst, m.fresh, 0⟩ ∧
      ∀ w : ℕ → ℕ → Place, w (m.top - 1) srcFirst = a.place →
        SliceOf w start ⟨m.top - 1, srcFirst, count⟩ e := by
  have hprev' : (m.extend count).stack[m.top - 1]? = some prev := by
    rw [← hprev]
    exact modifyFrame_other m (by omega) _
  obtain ⟨q, hinsert, hq, hblocks, hlookup⟩ :=
    WirePool.insert_eq hok (show srcFirst ≤ srcFirst + count - 1 by omega) hfree m.fresh
  have hfirst : q.lookup srcFirst = some ⟨srcFirst, srcFirst + count - 1, m.fresh⟩ := by
    rw [hlookup, if_pos (by omega)]
  obtain ⟨q', hptr, hblocks', hq'⟩ := WirePool.getPtr_eq hq hfirst (m.top - 1)
  obtain ⟨hpresent, -, -⟩ := WirePool.present_eq hok srcFirst
  rw [hfree srcFirst (by omega) (by omega)] at hpresent
  unfold allocateSlice
  rw [if_neg (by omega)]
  simp only [show (m.extend count).top = m.top from rfl, hprev', Option.bind_eq_bind, Option.bind_some]
  rw [if_neg (by omega), if_neg (by simp [hvec])]
  generalize prev.memframePool.present srcFirst = present at hpresent ⊢
  obtain ⟨found, p'⟩ := present
  obtain rfl : found = false := hpresent
  dsimp only
  rw [if_pos (by omega), if_pos trivial, show (m.extend count).fresh = m.fresh from rfl, hinsert,
    Option.bind_some, hptr, Option.bind_some]
  have hframe : ∀ j, ((m.extend count).modifyFrame (m.top - 1) fun f =>
      { f with memframePool := q' }).stack[j]? =
      if j = m.top - 1 then some { prev with memframePool := q' }
      else (m.extend count).stack[j]? := by
    intro j
    split_ifs with hj
    · rw [hj]
      exact modifyFrame_self hprev' _
    · exact modifyFrame_other _ (Ne.symm hj) _
  refine ⟨_, q', _, _, rfl, hq', fun id => ?_, rfl, hframe, fun p hp => ?_, ?_,
    fun w hw => ⟨rfl, rfl, hw⟩⟩
  · rw [WirePool.lookup_congr hblocks', hlookup]
  · cases p with
    | wire level id =>
      show Option.bind _ _ = Option.bind _ _
      rw [hframe]
      split_ifs with hj
      · rw [hj, hprev']
        rfl
      · rfl
    | cell ptr =>
      show deref _ ptr = deref _ ptr
      unfold deref
      rw [hframe]
      split_ifs with hj
      · rw [hj, hprev']
        have hbuffer : ({ prev with memframePool := q' } : Frame X).buffer ptr.block =
            prev.buffer ptr.block := by
          obtain ⟨level, block, s, o⟩ := ptr
          cases block with
          | none => rfl
          | some k =>
            have hk : k ≠ srcFirst := by
              rintro rfl
              exact hp s o (by rw [← hj])
            show q'.blocks k = prev.memframePool.blocks k
            rw [hblocks', hblocks, Function.update_of_ne hk]
        simp only [Option.bind_eq_bind, Option.bind_some, hbuffer]
      · rfl
  · show Place.cell ⟨m.top - 1, some srcFirst, m.fresh, srcFirst - srcFirst⟩ = _
    rw [Nat.sub_self]

end Slices

end Memory

end EdaBitGen
