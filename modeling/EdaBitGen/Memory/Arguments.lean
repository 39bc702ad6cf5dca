import EdaBitGen.Memory.Place

/-!
# The arguments of a frame

The arguments of a frame are ranges of wires of the frames under it.  Its call frame keeps their
addresses, one for each wire in a vector or one slice for each range.
-/

namespace EdaBitGen

/-- Wires of one frame that follow one another. -/
structure WireRange where
  level : ℕ
  first : ℕ
  count : ℕ
deriving DecidableEq

def totalCount (rs : List WireRange) : ℕ := (rs.map (·.count)).sum

/-- The range that has an argument, and how far into it the argument is. -/
def locate : List WireRange → ℕ → Option (WireRange × ℕ)
  | [], _ => none
  | r :: rs, id => if id < r.count then some (r, id) else locate rs (id - r.count)

theorem totalCount_append (rs ts : List WireRange) :
    totalCount (rs ++ ts) = totalCount rs + totalCount ts := by
  simp [totalCount]

theorem totalCount_singleton (r : WireRange) : totalCount [r] = r.count := by
  simp [totalCount]

theorem locate_eq_none {rs : List WireRange} {id : ℕ} (h : totalCount rs ≤ id) :
    locate rs id = none := by
  induction rs generalizing id with
  | nil => rfl
  | cons r rs ih =>
    have hsum : totalCount (r :: rs) = r.count + totalCount rs := by simp [totalCount]
    rw [locate, if_neg (by omega)]
    exact ih (by omega)

theorem locate_append (rs ts : List WireRange) (id : ℕ) :
    locate (rs ++ ts) id =
      if id < totalCount rs then locate rs id else locate ts (id - totalCount rs) := by
  induction rs generalizing id with
  | nil => simp [totalCount]
  | cons r rs ih =>
    have hsum : totalCount (r :: rs) = r.count + totalCount rs := by simp [totalCount]
    rw [List.cons_append, locate, locate, ih, hsum]
    split_ifs with h0 h1 h2
    · rfl
    · omega
    · rfl
    · omega
    · omega
    · rw [Nat.sub_sub]

theorem locate_spec {rs : List WireRange} {id i : ℕ} {r : WireRange}
    (h : locate rs id = some (r, i)) : r ∈ rs ∧ i < r.count ∧ id < totalCount rs := by
  induction rs generalizing id with
  | nil => cases h
  | cons t rs ih =>
    have hsum : totalCount (t :: rs) = t.count + totalCount rs := by simp [totalCount]
    unfold locate at h
    split_ifs at h with hlt
    · obtain ⟨rfl, rfl⟩ := Prod.mk.inj (Option.some.inj h)
      exact ⟨List.mem_cons_self, hlt, by omega⟩
    · obtain ⟨hmem, hi, hid⟩ := ih h
      exact ⟨List.mem_cons_of_mem _ hmem, hi, by omega⟩

theorem exists_locate {rs : List WireRange} {id : ℕ} (h : id < totalCount rs) :
    ∃ r i, locate rs id = some (r, i) := by
  induction rs generalizing id with
  | nil => simp [totalCount] at h
  | cons t rs ih =>
    have hsum : totalCount (t :: rs) = t.count + totalCount rs := by simp [totalCount]
    unfold locate
    split_ifs with hlt
    · exact ⟨t, id, rfl⟩
    · exact ih (by omega)

theorem locate_add {rs : List WireRange} {id i j : ℕ} {r : WireRange}
    (h : locate rs id = some (r, i)) (hj : i + j < r.count) :
    locate rs (id + j) = some (r, i + j) := by
  induction rs generalizing id with
  | nil => cases h
  | cons t rs ih =>
    unfold locate at h ⊢
    split_ifs at h with hlt
    · obtain ⟨rfl, rfl⟩ := Prod.mk.inj (Option.some.inj h)
      rw [if_pos hj]
    · rw [if_neg (by omega), Nat.sub_add_comm (by omega)]
      exact ih h

/-! ## Addresses of arguments -/

section Passed

variable {X : Type} (w : ℕ → ℕ → Place)

/-- The places of the wires of a range follow one another. -/
def Contiguous (r : WireRange) : Prop :=
  ∀ i < r.count, (w r.level r.first).incr i = some (w r.level (r.first + i))

/-- The slice of the arguments from `start` on for a range. -/
def SliceOf (start : ℕ) (r : WireRange) : CallframeElm → Prop
  | .poolVec first last ptr =>
    first = start ∧ last = start + r.count - 1 ∧ w r.level r.first = .cell ptr
  | .unallocated first level idx =>
    first = start ∧ r.count = 1 ∧ w r.level r.first = .wire level idx

inductive SlicesOf : ℕ → List WireRange → List CallframeElm → Prop
  | nil (start : ℕ) : SlicesOf start [] []
  | cons {start : ℕ} {r : WireRange} {rs : List WireRange} {e : CallframeElm}
      {es : List CallframeElm} : SliceOf w start r e → SlicesOf (start + r.count) rs es →
      SlicesOf start (r :: rs) (e :: es)

/-- The call frame has the places of the ranges as its arguments, the outputs first. -/
structure Passed (f : Frame X) (outputs inputs : List WireRange) : Prop where
  contiguous : ∀ r ∈ outputs ++ inputs, 0 < r.count ∧ Contiguous w r
  vector : f.callframeIsVector = true → ∀ id r i, locate (outputs ++ inputs) id = some (r, i) →
    ∃ a, f.callframeVector[id]? = some a ∧ a.place = w r.level (r.first + i)
  outputSlices : f.callframeIsVector = false →
    SlicesOf w 0 outputs f.callframe.outputs ∧ f.callframe.outputsCnt = totalCount outputs
  inputSlices : f.callframeIsVector = false →
    SlicesOf w (totalCount outputs) inputs f.callframe.inputs ∧
      f.callframe.inputsCnt = totalCount (outputs ++ inputs)

def FoundOrLevel.place : FoundOrLevel → Place
  | .found ptr => .cell ptr
  | .ref level idx => .wire level idx

variable {w}

theorem SlicesOf.append {start : ℕ} {rs : List WireRange} {es : List CallframeElm}
    (h : SlicesOf w start rs es) {r : WireRange} {e : CallframeElm}
    (he : SliceOf w (start + totalCount rs) r e) : SlicesOf w start (rs ++ [r]) (es ++ [e]) := by
  induction h with
  | nil start => exact .cons he (.nil _)
  | @cons start t rs e' es ht hts ih =>
    have hsum : start + totalCount (t :: rs) = start + t.count + totalCount rs := by
      simp [totalCount, Nat.add_assoc]
    rw [hsum] at he
    exact .cons ht (ih he)

theorem SlicesOf.eq_nil {start : ℕ} {es : List CallframeElm} (h : SlicesOf w start [] es) :
    es = [] := by
  cases h
  rfl

theorem SlicesOf.search {start : ℕ} {rs : List WireRange} {es : List CallframeElm}
    (h : SlicesOf w start rs es) (hrs : ∀ r ∈ rs, 0 < r.count ∧ Contiguous w r) {id i : ℕ}
    {r : WireRange} (hid : start ≤ id) (hr : locate rs (id - start) = some (r, i)) :
    ∃ res, searchCallframe es id = some res ∧ res.place = w r.level (r.first + i) := by
  induction h with
  | nil start => cases hr
  | @cons start t rs e es ht hts ih =>
    obtain ⟨hpos, hcont⟩ := hrs t List.mem_cons_self
    have hrest : ¬id - start < t.count →
        ∃ res, searchCallframe es id = some res ∧ res.place = w r.level (r.first + i) := by
      intro hge
      rw [locate, if_neg hge, Nat.sub_sub] at hr
      exact ih (fun r hr => hrs r (List.mem_cons_of_mem _ hr)) (by omega) hr
    by_cases hlt : id - start < t.count
    · rw [locate, if_pos hlt] at hr
      obtain ⟨rfl, rfl⟩ := Prod.mk.inj (Option.some.inj hr)
      have hplace := hcont _ hlt
      cases e with
      | poolVec first last ptr =>
        obtain ⟨rfl, rfl, hptr⟩ := ht
        refine ⟨.found (ptr.add (id - first)), if_pos ⟨hid, by omega⟩, ?_⟩
        rw [hptr] at hplace
        exact Option.some.inj hplace
      | unallocated first level idx =>
        obtain ⟨rfl, hone, hwire⟩ := ht
        obtain rfl : id = first := by omega
        refine ⟨.ref level idx, if_pos rfl, ?_⟩
        rw [Nat.sub_self, Nat.add_zero, hwire]
        rfl
    · obtain ⟨res, hres, hp⟩ := hrest hlt
      refine ⟨res, ?_, hp⟩
      cases e with
      | poolVec first last ptr =>
        obtain ⟨rfl, rfl, -⟩ := ht
        rw [searchCallframe, if_neg (by omega)]
        exact hres
      | unallocated first level idx =>
        obtain ⟨rfl, hone, -⟩ := ht
        rw [searchCallframe, if_neg (by omega)]
        exact hres

theorem Passed.getEither {f : Frame X} {outputs inputs : List WireRange}
    (h : Passed w f outputs inputs) (hvec : f.callframeIsVector = false) {id i : ℕ}
    {r : WireRange} (hr : locate (outputs ++ inputs) id = some (r, i)) :
    ∃ res, f.callframe.getEither id = some res ∧ res.place = w r.level (r.first + i) := by
  obtain ⟨houts, hcnt⟩ := h.outputSlices hvec
  obtain ⟨hins, hcnt'⟩ := h.inputSlices hvec
  have hid := (locate_spec hr).2.2
  unfold Callframe.getEither
  rw [hcnt, hcnt', if_pos hid]
  rw [locate_append] at hr
  split_ifs at hr ⊢ with hlt
  · exact houts.search (fun r hr => h.contiguous r (List.mem_append_left _ hr))
      (Nat.zero_le _) hr
  · exact hins.search (fun r hr => h.contiguous r (List.mem_append_right _ hr))
      (Nat.le_of_not_lt hlt) hr

theorem Passed.argument {f : Frame X} {outputs inputs : List WireRange}
    (h : Passed w f outputs inputs) {id i : ℕ} {r : WireRange}
    (hr : locate (outputs ++ inputs) id = some (r, i)) :
    ∃ a, Memory.argument f id = some a ∧ a.place = w r.level (r.first + i) := by
  unfold Memory.argument
  cases hvec : f.callframeIsVector with
  | true => exact h.vector hvec id r i hr
  | false =>
    obtain ⟨res, hres, hp⟩ := h.getEither hvec hr
    rw [if_neg Bool.false_ne_true, hres]
    cases res with
    | found ptr => exact ⟨_, rfl, hp⟩
    | ref level idx => exact ⟨_, rfl, hp⟩

theorem SliceOf.congr {w' : ℕ → ℕ → Place} {start : ℕ} {r : WireRange} {e : CallframeElm}
    (h : SliceOf w start r e) (hw : w' r.level r.first = w r.level r.first) :
    SliceOf w' start r e := by
  cases e with
  | poolVec first last ptr => exact ⟨h.1, h.2.1, hw.trans h.2.2⟩
  | unallocated first level idx => exact ⟨h.1, h.2.1, hw.trans h.2.2⟩

theorem SlicesOf.congr {w' : ℕ → ℕ → Place} {start : ℕ} {rs : List WireRange}
    {es : List CallframeElm} (h : SlicesOf w start rs es)
    (hw : ∀ r ∈ rs, w' r.level r.first = w r.level r.first) : SlicesOf w' start rs es := by
  induction h with
  | nil start => exact .nil start
  | cons ht hts ih =>
    exact .cons (ht.congr (hw _ List.mem_cons_self))
      (ih fun r hr => hw r (List.mem_cons_of_mem _ hr))

theorem Passed.congr {w' : ℕ → ℕ → Place} {f f' : Frame X} {outputs inputs : List WireRange}
    (h : Passed w f outputs inputs) (hcallframe : f'.callframe = f.callframe)
    (hvector : f'.callframeVector = f.callframeVector)
    (hisVector : f'.callframeIsVector = f.callframeIsVector)
    (hw : ∀ r ∈ outputs ++ inputs, ∀ i < r.count,
      w' r.level (r.first + i) = w r.level (r.first + i)) :
    Passed w' f' outputs inputs := by
  have hfirst : ∀ r ∈ outputs ++ inputs, w' r.level r.first = w r.level r.first := by
    intro r hr
    exact hw r hr 0 (h.contiguous r hr).1
  refine ⟨fun r hr => ?_, fun hvec id r i hr => ?_, fun hvec => ?_, fun hvec => ?_⟩
  · obtain ⟨hpos, hcont⟩ := h.contiguous r hr
    refine ⟨hpos, fun i hi => ?_⟩
    rw [hfirst r hr, hw r hr i hi]
    exact hcont i hi
  · obtain ⟨hmem, hi, -⟩ := locate_spec hr
    obtain ⟨a, ha, hp⟩ := h.vector (hisVector.symm.trans hvec) id r i hr
    rw [hvector, hw r hmem i hi]
    exact ⟨a, ha, hp⟩
  · obtain ⟨hs, hcnt⟩ := h.outputSlices (hisVector.symm.trans hvec)
    rw [hcallframe]
    exact ⟨hs.congr fun r hr => hfirst r (List.mem_append_left _ hr), hcnt⟩
  · obtain ⟨hs, hcnt⟩ := h.inputSlices (hisVector.symm.trans hvec)
    rw [hcallframe]
    exact ⟨hs.congr fun r hr => hfirst r (List.mem_append_right _ hr), hcnt⟩

theorem passed_nil {f : Frame X} (h : f.callframeIsVector = false → f.callframe = .new) :
    Passed w f [] [] := by
  refine ⟨fun r hr => by simp at hr, fun _ id r i hr => by simp [locate] at hr, fun hvec => ?_,
    fun hvec => ?_⟩
  · rw [h hvec]
    exact ⟨.nil 0, rfl⟩
  · rw [h hvec]
    exact ⟨.nil _, rfl⟩

/-! ## Passing one more range -/

theorem fillCallframeVector_eq {v : List AbsoluteAddr} {start count : ℕ} {a : AbsoluteAddr}
    (hlength : start + count ≤ v.length) (hincr : ∀ i < count, (a.incr i).isSome) :
    ∃ v', Memory.fillCallframeVector v start count a = some v' ∧ v'.length = v.length ∧
      ∀ j, v'[j]? = if start ≤ j ∧ j < start + count then a.incr (j - start) else v[j]? := by
  induction count with
  | zero =>
    refine ⟨v, rfl, rfl, fun j => ?_⟩
    rw [if_neg (by omega)]
  | succ n ih =>
    obtain ⟨v', hv', hlen, hget⟩ := ih (by omega) fun i hi => hincr i (by omega)
    obtain ⟨b, hb⟩ := Option.isSome_iff_exists.1 (hincr n (by omega))
    refine ⟨v'.set (start + n) b, ?_, by rw [List.length_set, hlen], fun j => ?_⟩
    · have hlt : start + n < v'.length := by omega
      unfold Memory.fillCallframeVector at hv' ⊢
      rw [List.range_succ, List.foldlM_append, hv']
      simp [hb, hlt]
    · rcases eq_or_ne (start + n) j with rfl | hne
      · rw [List.getElem?_set_self (by omega), if_pos (by omega), ← hb, Nat.add_sub_cancel_left]
      · rw [List.getElem?_set_ne hne, hget]
        by_cases hj : start ≤ j ∧ j < start + n
        · rw [if_pos hj, if_pos (by omega)]
        · rw [if_neg hj, if_neg (by omega)]

theorem passSlice_eq {m : Memory X} {f : Frame X} (hf : m.stack[m.top]? = some f)
    {outputs inputs : List WireRange} (h : Passed w f outputs inputs) {r : WireRange}
    (hpos : 0 < r.count) (hcont : Contiguous w r) {start : ℕ}
    (hstart : start = totalCount (outputs ++ inputs))
    (hroom : f.callframeIsVector = true → start + r.count ≤ f.callframeVector.length)
    {allowAllocation : Bool} (hallow : allowAllocation = true → inputs = [])
    {a : AbsoluteAddr} (ha : a.place = w r.level r.first) {slice : Option CallframeElm}
    (hslice : f.callframeIsVector = false → ∃ e, slice = some e ∧ SliceOf w start r e) :
    ∃ f' : Frame X, m.passSlice start r.count allowAllocation a slice =
        some (m.modifyFrame m.top fun _ => f') ∧
      Passed w f' (if allowAllocation then outputs ++ [r] else outputs)
        (if allowAllocation then inputs else inputs ++ [r]) ∧
      f' = { f with callframe := f'.callframe, callframeVector := f'.callframeVector } ∧
      f'.callframeVector.length = f.callframeVector.length := by
  have happend : (if allowAllocation then outputs ++ [r] else outputs) ++
      (if allowAllocation then inputs else inputs ++ [r]) = (outputs ++ inputs) ++ [r] := by
    cases allowAllocation with
    | true => simp [hallow rfl]
    | false => simp
  have hcontiguous : ∀ t ∈ outputs ++ inputs ++ [r], 0 < t.count ∧ Contiguous w t := by
    intro t ht
    rcases List.mem_append.1 ht with ht | ht
    · exact h.contiguous t ht
    · obtain rfl := List.mem_singleton.1 ht
      exact ⟨hpos, hcont⟩
  unfold Memory.passSlice
  simp only [hf, Option.bind_eq_bind, Option.bind_some]
  cases hvec : f.callframeIsVector with
  | true =>
    have hincr : ∀ i < r.count, (a.incr i).map AbsoluteAddr.place =
        some (w r.level (r.first + i)) := by
      intro i hi
      rw [AbsoluteAddr.place_incr, ha]
      exact hcont i hi
    obtain ⟨v, hv, hlen, hget⟩ := fillCallframeVector_eq (a := a) (hroom hvec) fun i hi => by
      obtain ⟨b, hb, -⟩ := Option.map_eq_some_iff.1 (hincr i hi)
      exact Option.isSome_iff_exists.2 ⟨b, hb⟩
    refine ⟨{ f with callframeVector := v }, ?_, ?_, by rw [hvec], hlen⟩
    · rw [if_pos rfl, hv]
      exact congrArg some (Memory.modifyFrame_congr hf rfl)
    · refine ⟨?_, fun _ id t i ht => ?_, fun hvec' => ?_, fun hvec' => ?_⟩
      · rw [happend]
        exact hcontiguous
      · rw [happend, locate_append, ← hstart] at ht
        simp only [hget]
        split_ifs at ht with hlt
        · rw [if_neg (by omega)]
          exact h.vector hvec id t i ht
        · obtain ⟨hmem, hi, hid⟩ := locate_spec ht
          obtain rfl := List.mem_singleton.1 hmem
          rw [totalCount_singleton] at hid
          rw [locate, if_pos hid] at ht
          obtain rfl := (Prod.mk.inj (Option.some.inj ht)).2
          rw [if_pos (by omega)]
          exact Option.map_eq_some_iff.1 (hincr _ hid)
      · exact absurd (hvec.symm.trans hvec') (by simp)
      · exact absurd (hvec.symm.trans hvec') (by simp)
  | false =>
    obtain ⟨e, rfl, he⟩ := hslice hvec
    obtain ⟨houts, hcnt⟩ := h.outputSlices hvec
    obtain ⟨hins, hcnt'⟩ := h.inputSlices hvec
    rw [if_neg Bool.false_ne_true]
    refine ⟨{ f with callframe := if allowAllocation then f.callframe.allocateOutputs r.count e
        else f.callframe.allocateInputs r.count e }, ?_, ?_, by rw [hvec],
      rfl⟩
    · exact congrArg some (Memory.modifyFrame_congr hf rfl)
    · refine ⟨?_, fun hvec' => absurd (hvec.symm.trans hvec') (by simp), fun _ => ?_, fun _ => ?_⟩
      · rw [happend]
        exact hcontiguous
      · cases allowAllocation with
        | true =>
          obtain rfl := hallow rfl
          rw [List.append_nil] at hstart
          refine ⟨houts.append ?_, ?_⟩
          · rwa [Nat.zero_add, ← hstart]
          · show f.callframe.outputsCnt + r.count = _
            rw [hcnt, if_pos rfl, totalCount_append, totalCount_singleton]
        | false => exact ⟨houts, hcnt⟩
      · rw [happend]
        cases allowAllocation with
        | true =>
          obtain rfl := hallow rfl
          refine ⟨?_, ?_⟩
          · show SlicesOf w _ [] f.callframe.inputs
            rw [hins.eq_nil]
            exact .nil _
          · show f.callframe.inputsCnt + r.count = _
            rw [hcnt', totalCount_append (outputs ++ []), totalCount_singleton]
        | false =>
          refine ⟨hins.append ?_, ?_⟩
          · rwa [← totalCount_append, ← hstart]
          · show f.callframe.inputsCnt + r.count = _
            rw [hcnt', totalCount_append (outputs ++ inputs), totalCount_singleton]

end Passed

end EdaBitGen
