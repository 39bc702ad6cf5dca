import EdaBitGen.Memory.WirePool

/-!
# The places of wires

A wire of a frame is kept in the vector of the frame, in a block of its pool, or in the map of
unallocated wires.  Reads and writes go to places, whichever representation the frame has.
-/

namespace EdaBitGen

inductive Place
  | cell (ptr : Pointer)
  | wire (level id : ℕ)
deriving DecidableEq

namespace Place

def incr : Place → ℕ → Option Place
  | .cell ptr, i => some (.cell (ptr.add i))
  | .wire level id, i => if i = 0 then some (.wire level id) else none

theorem incr_zero (p : Place) : p.incr 0 = some p := by
  cases p <;> rfl

theorem incr_incr {p q : Place} {i : ℕ} (h : p.incr i = some q) (j : ℕ) :
    q.incr j = p.incr (i + j) := by
  cases p with
  | cell ptr =>
    obtain rfl := Option.some.inj h
    simp only [incr, Pointer.add, Nat.add_assoc]
  | wire level id =>
    rcases eq_or_ne i 0 with rfl | hi
    · obtain rfl := Option.some.inj h
      rw [Nat.zero_add]
    · rw [incr, if_neg hi] at h
      cases h

end Place

namespace AbsoluteAddr

def place : AbsoluteAddr → Place
  | .poolAllocated ptr => .cell ptr
  | .unallocated level idx => .wire level idx
  | .vectorAllocated ptr => .cell ptr

theorem place_incr (a : AbsoluteAddr) (i : ℕ) : (a.incr i).map place = a.place.incr i := by
  cases a with
  | poolAllocated ptr => rfl
  | vectorAllocated ptr => rfl
  | unallocated level idx =>
    rw [incr, place, Place.incr]
    split_ifs <;> rfl

end AbsoluteAddr

namespace Frame

variable {X : Type}

/-- The place of a wire of the frame that is not an argument. -/
def place (f : Frame X) (level id : ℕ) : Place :=
  if f.memframeIsVector then
    .cell ⟨level, none, f.memframeVector.stamp, id - f.callframeSize⟩
  else
    match f.memframePool.lookup id with
    | some c => .cell ⟨level, some c.first, c.stamp, id - c.first⟩
    | none => .wire level id

/-- The frame has room for a wire of its own. -/
structure Fits (f : Frame X) (id : ℕ) : Prop where
  own : f.callframeSize ≤ id
  room : f.memframeIsVector = true → id - f.callframeSize < f.memframeVector.elems.length

/-- Two frames that differ in the contents of their wires only. -/
structure Like (f f' : Frame X) : Prop where
  callframe : f'.callframe = f.callframe
  callframeSize : f'.callframeSize = f.callframeSize
  callframeVector : f'.callframeVector = f.callframeVector
  callframeIsVector : f'.callframeIsVector = f.callframeIsVector
  memframeIsVector : f'.memframeIsVector = f.memframeIsVector
  lookup : ∀ id, f'.memframePool.lookup id = f.memframePool.lookup id
  ok : f.memframePool.Ok → f'.memframePool.Ok
  stamp : f'.memframeVector.stamp = f.memframeVector.stamp
  length : f'.memframeVector.elems.length = f.memframeVector.elems.length

theorem Like.refl (f : Frame X) : f.Like f :=
  ⟨rfl, rfl, rfl, rfl, rfl, fun _ => rfl, id, rfl, rfl⟩

theorem Like.trans {f f' f'' : Frame X} (h : f.Like f') (h' : f'.Like f'') : f.Like f'' where
  callframe := h'.callframe.trans h.callframe
  callframeSize := h'.callframeSize.trans h.callframeSize
  callframeVector := h'.callframeVector.trans h.callframeVector
  callframeIsVector := h'.callframeIsVector.trans h.callframeIsVector
  memframeIsVector := h'.memframeIsVector.trans h.memframeIsVector
  lookup id := (h'.lookup id).trans (h.lookup id)
  ok hok := h'.ok (h.ok hok)
  stamp := h'.stamp.trans h.stamp
  length := h'.length.trans h.length

theorem Like.place {f f' : Frame X} (h : f.Like f') (level id : ℕ) :
    f'.place level id = f.place level id := by
  unfold Frame.place
  rw [h.memframeIsVector, h.lookup, h.stamp, h.callframeSize]

theorem Like.fits {f f' : Frame X} (h : f.Like f') {id : ℕ} (hf : f.Fits id) : f'.Fits id := by
  refine ⟨?_, fun hvec => ?_⟩
  · rw [h.callframeSize]
    exact hf.own
  · rw [h.callframeSize, h.length]
    exact hf.room (h.memframeIsVector.symm.trans hvec)

theorem place_vector {f : Frame X} (h : f.memframeIsVector = true) (level id : ℕ) :
    f.place level id = .cell ⟨level, none, f.memframeVector.stamp, id - f.callframeSize⟩ :=
  if_pos h

theorem place_pool {f : Frame X} (h : f.memframeIsVector = false) (level id : ℕ) :
    f.place level id = match f.memframePool.lookup id with
      | some c => .cell ⟨level, some c.first, c.stamp, id - c.first⟩
      | none => .wire level id :=
  if_neg (by simp [h])

theorem place_inj {f f' : Frame X} {level level' id id' : ℕ}
    (hsame : level = level' → f = f') (hid : f.callframeSize ≤ id)
    (hid' : f'.callframeSize ≤ id') (h : f.place level id = f'.place level' id') :
    level = level' ∧ id = id' := by
  have hlevel : ∀ g : Frame X, ∀ l i, (∃ ptr, g.place l i = .cell ptr ∧ ptr.level = l) ∨
      g.place l i = .wire l i := by
    intro g l i
    unfold place
    split_ifs
    · exact .inl ⟨_, rfl, rfl⟩
    · cases g.memframePool.lookup i with
      | some c => exact .inl ⟨_, rfl, rfl⟩
      | none => exact .inr rfl
  have heq : level = level' := by
    rcases hlevel f level id with ⟨ptr, hp, hl⟩ | hw <;>
      rcases hlevel f' level' id' with ⟨ptr', hp', hl'⟩ | hw'
    · rw [hp, hp'] at h
      rw [← hl, ← hl', Place.cell.inj h]
    · rw [hp, hw'] at h
      cases h
    · rw [hw, hp'] at h
      cases h
    · rw [hw, hw'] at h
      exact (Place.wire.inj h).1
  refine ⟨heq, ?_⟩
  obtain rfl := hsame heq
  subst heq
  cases hvec : f.memframeIsVector with
  | true =>
    rw [place_vector hvec, place_vector hvec] at h
    have := congrArg Pointer.offset (Place.cell.inj h)
    simp only at this
    omega
  | false =>
    rw [place_pool hvec, place_pool hvec] at h
    cases hc : f.memframePool.lookup id with
    | none =>
      rw [hc] at h
      cases hc' : f.memframePool.lookup id' with
      | none =>
        rw [hc'] at h
        exact (Place.wire.inj h).2
      | some c' =>
        rw [hc'] at h
        cases h
    | some c =>
      rw [hc] at h
      cases hc' : f.memframePool.lookup id' with
      | none =>
        rw [hc'] at h
        cases h
      | some c' =>
        rw [hc'] at h
        have hptr := Place.cell.inj h
        have hfirst := congrArg Pointer.block hptr
        have hoffset := congrArg Pointer.offset hptr
        simp only [Option.some.injEq] at hfirst hoffset
        have hle := (WirePool.covers_of_lookup hc).first_le
        have hle' := (WirePool.covers_of_lookup hc').first_le
        omega

end Frame

namespace Memory

variable {X : Type}

/-- The place of a wire of the frame `level` that is not an argument. -/
def place (m : Memory X) (level id : ℕ) : Place :=
  match m.stack[level]? with
  | some f => f.place level id
  | none => .wire level id

theorem place_eq {m : Memory X} {level : ℕ} {f : Frame X} (hf : m.stack[level]? = some f)
    (id : ℕ) : m.place level id = f.place level id := by
  unfold place
  rw [hf]

theorem modifyFrame_frame (m : Memory X) (level : ℕ) (g : Frame X → Frame X) (j : ℕ) :
    (m.modifyFrame level g).stack[j]? =
      (m.stack[j]?).map fun f => if level = j then g f else f := by
  unfold modifyFrame
  rw [List.getElem?_modify]
  rfl

theorem modifyFrame_self {m : Memory X} {level : ℕ} {f : Frame X}
    (hf : m.stack[level]? = some f) (g : Frame X → Frame X) :
    (m.modifyFrame level g).stack[level]? = some (g f) := by
  rw [modifyFrame_frame, hf, Option.map_some, if_pos rfl]

theorem modifyFrame_other (m : Memory X) {level j : ℕ} (h : level ≠ j) (g : Frame X → Frame X) :
    (m.modifyFrame level g).stack[j]? = m.stack[j]? := by
  rw [modifyFrame_frame]
  simp [h]

theorem modifyFrame_congr {m : Memory X} {level : ℕ} {f : Frame X} {g g' : Frame X → Frame X}
    (hf : m.stack[level]? = some f) (h : g f = g' f) :
    m.modifyFrame level g = m.modifyFrame level g' := by
  have hstack : (m.modifyFrame level g).stack = (m.modifyFrame level g').stack := by
    refine List.ext_getElem? fun j => ?_
    rcases eq_or_ne level j with rfl | hne
    · rw [modifyFrame_self hf, modifyFrame_self hf, h]
    · rw [modifyFrame_other m hne, modifyFrame_other m hne]
  unfold modifyFrame at hstack ⊢
  simp only at hstack
  rw [hstack]

/-- The same frames up to the contents of their wires. -/
structure Like (m m' : Memory X) : Prop where
  top : m'.top = m.top
  frame : ∀ (level : ℕ) (f : Frame X), m.stack[level]? = some f →
    ∃ f', m'.stack[level]? = some f' ∧ f.Like f'

theorem Like.refl (m : Memory X) : m.Like m :=
  ⟨rfl, fun _ f hf => ⟨f, hf, Frame.Like.refl f⟩⟩

theorem Like.trans {m m' m'' : Memory X} (h : m.Like m') (h' : m'.Like m'') : m.Like m'' where
  top := h'.top.trans h.top
  frame level f hf := by
    obtain ⟨f', hf', hlike⟩ := h.frame level f hf
    obtain ⟨f'', hf'', hlike'⟩ := h'.frame level f' hf'
    exact ⟨f'', hf'', hlike.trans hlike'⟩

theorem Like.place {m m' : Memory X} (h : m.Like m') {level : ℕ} {f : Frame X}
    (hf : m.stack[level]? = some f) (id : ℕ) : m'.place level id = m.place level id := by
  obtain ⟨f', hf', hlike⟩ := h.frame level f hf
  rw [place_eq hf, place_eq hf', hlike.place]

theorem like_modifyFrame {m : Memory X} {level : ℕ} {f : Frame X} {g : Frame X → Frame X}
    (hf : m.stack[level]? = some f) (h : f.Like (g f)) : m.Like (m.modifyFrame level g) := by
  refine ⟨rfl, fun j f' hf' => ?_⟩
  rcases eq_or_ne level j with rfl | hne
  · obtain rfl : f = f' := Option.some.inj (hf.symm.trans hf')
    exact ⟨_, modifyFrame_self hf g, h⟩
  · exact ⟨f', (modifyFrame_other m hne g).trans hf', Frame.Like.refl f'⟩

/-! ## Reads and writes -/

def read (m : Memory X) : Place → Option X
  | .cell ptr => m.deref ptr
  | .wire level id => m.getUnallocated level id

def write (m : Memory X) (x : X) : Place → Option (Memory X)
  | .cell ptr => m.assign ptr x
  | .wire level id => m.insertUnallocated level id x

theorem getAddr_eq (m : Memory X) (a : AbsoluteAddr) : m.getAddr a = m.read a.place := by
  cases a <;> rfl

theorem setAddr_eq (m : Memory X) (x : X) (a : AbsoluteAddr) :
    m.setAddr x a = m.write x a.place := by
  cases a <;> rfl

theorem deref_assign {m m' : Memory X} {p : Pointer} {x : X} (h : m.assign p x = some m')
    (q : Pointer) : m'.deref q = if q = p then some x else m.deref q := by
  unfold assign at h
  obtain ⟨f, hf, h⟩ := Option.bind_eq_some_iff.1 h
  obtain ⟨v, hv, h⟩ := Option.bind_eq_some_iff.1 h
  split_ifs at h with hin
  obtain rfl := Option.some.inj h
  have hbuffer : ∀ b, (f.setBuffer ⟨v.stamp, v.elems.set p.offset x⟩ p.block).buffer b =
      if b = p.block then some ⟨v.stamp, v.elems.set p.offset x⟩ else f.buffer b := by
    intro b
    cases hp : p.block with
    | none => cases b <;> simp [Frame.setBuffer, Frame.buffer]
    | some k =>
      cases b with
      | none => simp [Frame.setBuffer, Frame.buffer]
      | some j => simp [Frame.setBuffer, Frame.buffer, Function.update_apply]
  unfold deref
  rcases eq_or_ne p.level q.level with hlevel | hlevel
  · rw [← hlevel, modifyFrame_self hf, hf]
    simp only [Option.bind_eq_bind, Option.bind_some, hbuffer]
    rcases eq_or_ne q.block p.block with hblock | hblock
    · rw [if_pos hblock, hblock, hv]
      simp only [Option.bind_some, List.getElem?_set]
      by_cases hqp : q = p
      · rw [if_pos hqp, hqp, if_pos hin.1, if_pos rfl, if_pos hin.2]
      · rw [if_neg hqp]
        split_ifs with hs ho hlt
        · exact absurd (by
            obtain ⟨l, b, s, o⟩ := q
            obtain ⟨l', b', s', o'⟩ := p
            simp_all) hqp
        · omega
        · rfl
        · rfl
    · rw [if_neg hblock, if_neg]
      rintro rfl
      exact hblock rfl
  · rw [modifyFrame_other m hlevel, if_neg]
    rintro rfl
    exact hlevel rfl

theorem read_write {m m' : Memory X} {p : Place} {x : X} (h : m.write x p = some m') (q : Place) :
    m'.read q = if q = p then some x else m.read q := by
  cases p with
  | cell ptr =>
    cases q with
    | cell ptr' =>
      show m'.deref ptr' = _
      rw [deref_assign h]
      simp only [Place.cell.injEq, read]
    | wire level id =>
      rw [if_neg (by simp)]
      have h : m.assign ptr x = some m' := h
      unfold assign at h
      obtain ⟨f, hf, h⟩ := Option.bind_eq_some_iff.1 h
      obtain ⟨v, hv, h⟩ := Option.bind_eq_some_iff.1 h
      split_ifs at h with hin
      obtain rfl := Option.some.inj h
      show getUnallocated _ level id = getUnallocated m level id
      unfold getUnallocated
      rw [modifyFrame_frame]
      cases m.stack[level]? with
      | none => rfl
      | some f' =>
        rw [Option.map_some]
        split_ifs
        · cases ptr.block <;> rfl
        · rfl
  | wire level id =>
    have h : m.insertUnallocated level id x = some m' := h
    unfold insertUnallocated at h
    split_ifs at h with hlt
    obtain rfl := Option.some.inj h
    have hf : m.stack[level]? = some m.stack[level] := List.getElem?_eq_getElem hlt
    cases q with
    | cell ptr =>
      rw [if_neg (by simp)]
      show deref _ ptr = deref m ptr
      unfold deref
      rw [modifyFrame_frame]
      cases m.stack[ptr.level]? with
      | none => rfl
      | some f' =>
        rw [Option.map_some]
        split_ifs
        · cases ptr.block <;> rfl
        · rfl
    | wire level' id' =>
      show getUnallocated _ level' id' = if _ then _ else getUnallocated m level' id'
      unfold getUnallocated
      rcases eq_or_ne level level' with rfl | hne
      · rw [modifyFrame_self hf, hf]
        simp only [Option.bind_eq_bind, Option.bind_some, Function.update_apply, Place.wire.injEq,
          true_and]
      · rw [modifyFrame_other m hne, if_neg]
        rintro ⟨⟩
        exact hne rfl

theorem Like.assign {m m' : Memory X} {p : Pointer} {x : X} (h : m.assign p x = some m') :
    m.Like m' := by
  unfold Memory.assign at h
  obtain ⟨f, hf, h⟩ := Option.bind_eq_some_iff.1 h
  obtain ⟨v, hv, h⟩ := Option.bind_eq_some_iff.1 h
  split_ifs at h with hin
  obtain rfl := Option.some.inj h
  refine like_modifyFrame hf ?_
  cases hp : p.block with
  | none =>
    rw [hp] at hv
    obtain rfl : f.memframeVector = v := Option.some.inj hv
    exact ⟨rfl, rfl, rfl, rfl, rfl, fun _ => rfl, id, rfl, List.length_set⟩
  | some k =>
    rw [hp] at hv
    have hlookup := WirePool.lookup_setBlock (v := ⟨v.stamp, v.elems.set p.offset x⟩)
      (p := f.memframePool) hv rfl List.length_set
    exact ⟨rfl, rfl, rfl, rfl, rfl, hlookup,
      fun hok => WirePool.Ok.setBlock hok hv rfl List.length_set, rfl, rfl⟩

theorem Like.write {m m' : Memory X} {p : Place} {x : X} (h : m.write x p = some m') :
    m.Like m' := by
  cases p with
  | cell ptr => exact Like.assign h
  | wire level id =>
    have h : m.insertUnallocated level id x = some m' := h
    unfold insertUnallocated at h
    split_ifs at h with hlt
    obtain rfl := Option.some.inj h
    exact like_modifyFrame (List.getElem?_eq_getElem hlt)
      ⟨rfl, rfl, rfl, rfl, rfl, fun _ => rfl, fun hok => hok, rfl, rfl⟩

theorem write_place {m : Memory X} {level : ℕ} {f : Frame X} (hf : m.stack[level]? = some f)
    (hok : f.memframeIsVector = false → f.memframePool.Ok) {id : ℕ} (hfits : f.Fits id) (x : X) :
    ∃ m', m.write x (f.place level id) = some m' := by
  cases hvec : f.memframeIsVector with
  | true =>
    rw [Frame.place_vector hvec]
    show ∃ m', assign m _ x = some m'
    unfold assign
    rw [hf]
    exact ⟨_, if_pos ⟨rfl, hfits.room hvec⟩⟩
  | false =>
    rw [Frame.place_pool hvec]
    cases hc : f.memframePool.lookup id with
    | none =>
      have hlt : level < m.stack.length := (List.getElem?_eq_some_iff.1 hf).1
      exact ⟨_, if_pos hlt⟩
    | some c =>
      obtain ⟨hfirst, hlast, v, hv, heq, hstamp⟩ := WirePool.covers_of_lookup hc
      have hpos := (hok hvec).pos _ _ hv
      show ∃ m', assign m ⟨level, some c.first, c.stamp, id - c.first⟩ x = some m'
      unfold assign
      have hbuffer : f.buffer (some c.first) = some v := hv
      simp only [hf, Option.bind_eq_bind, Option.bind_some, hbuffer]
      exact ⟨_, if_pos ⟨hstamp.symm, by omega⟩⟩

/-! ## The operations on wires -/

theorem read_modifyFrame {m : Memory X} {level : ℕ} {f : Frame X} {g : Frame X → Frame X}
    (hf : m.stack[level]? = some f) (hbuffer : ∀ b, (g f).buffer b = f.buffer b)
    (hmap : (g f).memframeUnallocated = f.memframeUnallocated) (p : Place) :
    (m.modifyFrame level g).read p = m.read p := by
  cases p with
  | cell ptr =>
    show deref _ ptr = deref m ptr
    unfold deref
    rcases eq_or_ne level ptr.level with rfl | hne
    · rw [modifyFrame_self hf, hf]
      simp only [Option.bind_eq_bind, Option.bind_some, hbuffer]
    · rw [modifyFrame_other m hne]
  | wire level' id =>
    show getUnallocated _ level' id = getUnallocated m level' id
    unfold getUnallocated
    rcases eq_or_ne level level' with rfl | hne
    · rw [modifyFrame_self hf, hf]
      simp only [Option.bind_eq_bind, Option.bind_some, hmap]
    · rw [modifyFrame_other m hne]

theorem like_setPool {m : Memory X} {level : ℕ} {f : Frame X} {q : WirePool X}
    (hf : m.stack[level]? = some f) (hblocks : q.blocks = f.memframePool.blocks) (hq : q.Ok) :
    m.Like (m.modifyFrame level fun f => { f with memframePool := q }) ∧
      ∀ p, (m.modifyFrame level fun f => { f with memframePool := q }).read p = m.read p := by
  refine ⟨like_modifyFrame hf ⟨rfl, rfl, rfl, rfl, rfl, fun id => WirePool.lookup_congr hblocks id,
    fun _ => hq, rfl, rfl⟩, read_modifyFrame hf (fun b => ?_) rfl⟩
  cases b with
  | none => rfl
  | some k => exact congrFun hblocks k

section Own

variable {m : Memory X} {f : Frame X} (hf : m.stack[m.top]? = some f)
  (hok : f.memframeIsVector = false → f.memframePool.Ok)

include hf

theorem get_argument {id : ℕ} (hid : id < f.callframeSize) {a : AbsoluteAddr}
    (ha : argument f id = some a) {x : X} (hx : m.read a.place = some x) :
    m.get id = some (x, m) := by
  unfold get
  rw [hf]
  simp only [Option.bind_eq_bind, Option.bind_some, if_pos hid, ha, getAddr_eq, hx]

theorem set_argument {id : ℕ} (hid : id < f.callframeSize) {a : AbsoluteAddr}
    (ha : argument f id = some a) (x : X) : m.set id x = m.write x a.place := by
  unfold set
  rw [hf]
  simp only [Option.bind_eq_bind, Option.bind_some, if_pos hid, ha, setAddr_eq]

include hok

theorem get_place {id : ℕ} (hid : f.callframeSize ≤ id) {x : X}
    (hx : m.read (f.place m.top id) = some x) :
    ∃ m', m.get id = some (x, m') ∧ m.Like m' ∧ ∀ p, m'.read p = m.read p := by
  unfold get
  simp only [hf, Option.bind_eq_bind, Option.bind_some, if_neg (Nat.not_lt.2 hid)]
  cases hvec : f.memframeIsVector with
  | true =>
    rw [Frame.place_vector hvec] at hx
    have hx : deref m _ = some x := hx
    unfold deref at hx
    simp only [hf, Option.bind_eq_bind, Option.bind_some, Frame.buffer, if_true] at hx
    rw [if_pos rfl, hx]
    exact ⟨m, rfl, Like.refl m, fun _ => rfl⟩
  | false =>
    have hpool := hok hvec
    rw [Frame.place_pool hvec] at hx
    obtain ⟨hpresent, hblocks, hok'⟩ := WirePool.present_eq hpool id
    rw [if_neg Bool.false_ne_true]
    generalize f.memframePool.present id = present at hpresent hblocks hok' ⊢
    obtain ⟨found, q⟩ := present
    cases hc : f.memframePool.lookup id with
    | none =>
      rw [hc] at hpresent hx
      obtain rfl : found = false := hpresent
      have hx : getUnallocated m m.top id = some x := hx
      unfold getUnallocated at hx
      simp only [hf, Option.bind_eq_bind, Option.bind_some] at hx
      simp only [hx, Option.bind_some]
      exact ⟨m, rfl, Like.refl m, fun _ => rfl⟩
    | some c =>
      rw [hc] at hpresent hx
      obtain rfl : found = true := hpresent
      dsimp only at hblocks hok' ⊢
      have hlookup : q.lookup id = some c := (WirePool.lookup_congr hblocks id).trans hc
      obtain ⟨q', hptr, -, -⟩ := WirePool.getPtr_eq hok' hlookup m.top
      obtain ⟨hlike, hread⟩ := like_setPool hf hblocks hok'
      have htop := hlike.top
      have hx' := (hread _).trans hx
      generalize (m.modifyFrame m.top fun f => { f with memframePool := q }) = m₁ at *
      have hx' : m₁.deref _ = some x := hx'
      simp only [htop, hptr, Option.bind_some, hx']
      exact ⟨m₁, rfl, hlike, hread⟩

theorem set_place {id : ℕ} (hfits : f.Fits id) (x : X) :
    ∃ m', m.set id x = some m' ∧ m.Like m' ∧
      ∀ p, m'.read p = if p = f.place m.top id then some x else m.read p := by
  unfold set
  simp only [hf, Option.bind_eq_bind, Option.bind_some, if_neg (Nat.not_lt.2 hfits.own)]
  cases hvec : f.memframeIsVector with
  | true =>
    obtain ⟨m', hwrite⟩ := write_place hf hok hfits x
    refine ⟨m', ?_, Like.write hwrite, read_write hwrite⟩
    rw [Frame.place_vector hvec] at hwrite
    have hwrite : assign m _ x = some m' := hwrite
    unfold assign at hwrite
    simp only [hf, Option.bind_eq_bind, Option.bind_some, Frame.buffer, true_and,
      if_pos (hfits.room hvec)] at hwrite
    rw [if_pos rfl, if_pos (hfits.room hvec), ← hwrite]
    exact congrArg some (modifyFrame_congr hf rfl)
  | false =>
    have hpool := hok hvec
    obtain ⟨hpresent, hblocks, hok'⟩ := WirePool.present_eq hpool id
    rw [if_neg Bool.false_ne_true]
    generalize f.memframePool.present id = present at hpresent hblocks hok' ⊢
    obtain ⟨found, q⟩ := present
    cases hc : f.memframePool.lookup id with
    | none =>
      rw [hc] at hpresent
      obtain rfl : found = false := hpresent
      obtain ⟨m', hwrite⟩ := write_place hf hok hfits x
      refine ⟨m', ?_, Like.write hwrite, read_write hwrite⟩
      rw [Frame.place_pool hvec, hc] at hwrite
      exact hwrite
    | some c =>
      rw [hc] at hpresent
      obtain rfl : found = true := hpresent
      dsimp only at hblocks hok' ⊢
      have hlookup : q.lookup id = some c := (WirePool.lookup_congr hblocks id).trans hc
      obtain ⟨q', hptr, -, -⟩ := WirePool.getPtr_eq hok' hlookup m.top
      obtain ⟨hlike, hread⟩ := like_setPool hf hblocks hok'
      have htop := hlike.top
      obtain ⟨f₁, hf₁, hlike₁⟩ := hlike.frame _ _ hf
      obtain ⟨m', hwrite⟩ := write_place hf₁ (fun _ => hlike₁.ok hpool) (hlike₁.fits hfits) x
      generalize (m.modifyFrame m.top fun f => { f with memframePool := q }) = m₁ at *
      refine ⟨m', ?_, hlike.trans (Like.write hwrite), fun p => ?_⟩
      · rw [hlike₁.place, Frame.place_pool hvec, hc] at hwrite
        simp only [htop, hptr, Option.bind_some]
        exact hwrite
      · rw [read_write hwrite, hread, hlike₁.place]

end Own

end Memory

end EdaBitGen
