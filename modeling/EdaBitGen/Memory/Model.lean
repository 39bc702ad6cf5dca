import Mathlib

/-!
# The memory of a circuit evaluation

A stack of frames, one for each nested call.  A frame has a call frame, whose arguments point into
the frames of the callers, and a memory frame, which is a pool of allocations with a map of single
wires or a vector.  A pointer names the frame and the buffer it points into; buffers carry stamps,
so that a pointer to a buffer that is gone is not followed.
-/

namespace EdaBitGen

def vecSizeInit : ℕ := 10

def vecSizeCallframeThreshold : ℕ := 1000

def vecSizeMemframeThreshold : ℕ := 10000

/-- A `Vec` on the heap. -/
structure Buffer (X : Type) where
  stamp : ℕ
  elems : List X

/-- A pointer into the vector of a frame, or into the block of its pool that starts at `block`. -/
structure Pointer where
  level : ℕ
  block : Option ℕ
  stamp : ℕ
  offset : ℕ
deriving DecidableEq

namespace Pointer

/-- No buffer has stamp zero. -/
def null : Pointer := ⟨0, none, 0, 0⟩

def add (p : Pointer) (i : ℕ) : Pointer := { p with offset := p.offset + i }

end Pointer

inductive AbsoluteAddr
  | poolAllocated (ptr : Pointer)
  | unallocated (level : ℕ) (idx : ℕ)
  | vectorAllocated (ptr : Pointer)
deriving DecidableEq

namespace AbsoluteAddr

def default : AbsoluteAddr := .vectorAllocated .null

/-- An unallocated address can only be incremented by zero. -/
def incr : AbsoluteAddr → ℕ → Option AbsoluteAddr
  | .poolAllocated ptr, i => some (.poolAllocated (ptr.add i))
  | .unallocated level idx, i => if i = 0 then some (.unallocated level idx) else none
  | .vectorAllocated ptr, i => some (.vectorAllocated (ptr.add i))

end AbsoluteAddr

/-! ## Pools -/

/-- The block found last. -/
structure Cache where
  first : ℕ
  last : ℕ
  stamp : ℕ
deriving DecidableEq

/-- The blocks of wires by their first wires, and the cache. -/
structure WirePool (X : Type) where
  blocks : ℕ → Option (Buffer X)
  cache : Option Cache

namespace WirePool

variable {X : Type}

def new : WirePool X := ⟨fun _ => none, none⟩

def clear (_ : WirePool X) : WirePool X := ⟨fun _ => none, none⟩

/-- The block with the greatest first wire up to `id`. -/
def floor (blocks : ℕ → Option (Buffer X)) : ℕ → Option (ℕ × Buffer X)
  | 0 => (blocks 0).map (0, ·)
  | id + 1 =>
    match blocks (id + 1) with
    | some v => some (id + 1, v)
    | none => floor blocks id

def inCache (p : WirePool X) (id : ℕ) : Bool :=
  match p.cache with
  | some c => c.first ≤ id && id ≤ c.last
  | none => false

/-- The cache for the block of a wire that is allocated. -/
def lookup (p : WirePool X) (id : ℕ) : Option Cache :=
  match floor p.blocks id with
  | some (k, v) =>
    let last := k + v.elems.length - 1
    if k ≤ id ∧ id ≤ last then some ⟨k, last, v.stamp⟩ else none
  | none => none

/-- Whether a wire is allocated, with the cache moved to it if so. -/
def present (p : WirePool X) (id : ℕ) : Bool × WirePool X :=
  if p.inCache id then (true, p)
  else
    match p.lookup id with
    | some c => (true, { p with cache := some c })
    | none => (false, p)

/-- Move the cache to an allocated wire. -/
def moveToCacheIfNecessary (p : WirePool X) (id : ℕ) : Option (Cache × WirePool X) :=
  if p.inCache id then p.cache.map (·, p)
  else (p.lookup id).map fun c => (c, { p with cache := some c })

/-- The pointer to an allocated wire of the pool of the frame `level`. -/
def getPtr (p : WirePool X) (level : ℕ) (id : ℕ) : Option (Pointer × WirePool X) := do
  let (c, p) ← p.moveToCacheIfNecessary id
  some (⟨level, some c.first, c.stamp, id - c.first⟩, p)

def insert [Inhabited X] (p : WirePool X) (stamp : ℕ) (first last : ℕ) : Option (WirePool X) :=
  if first ≤ last then
    some ⟨Function.update p.blocks first
      (some ⟨stamp, List.replicate (last - first + 1) Inhabited.default⟩), none⟩
  else none

/-- Remove the block that starts at `id` and return its length. -/
def remove (p : WirePool X) (id : ℕ) : Option (ℕ × WirePool X) :=
  (p.blocks id).map fun v => (v.elems.length, ⟨Function.update p.blocks id none, none⟩)

end WirePool

/-! ## Call frames -/

/-- A range of arguments: a slice of a buffer, or one wire that is not allocated. -/
inductive CallframeElm
  | poolVec (first last : ℕ) (ptr : Pointer)
  | unallocated (first : ℕ) (level : ℕ) (idx : ℕ)
deriving DecidableEq

def mkFromAbsadr (first last : ℕ) : AbsoluteAddr → Option CallframeElm
  | .poolAllocated ptr => some (.poolVec first last ptr)
  | .vectorAllocated ptr => some (.poolVec first last ptr)
  | .unallocated level idx => if first = last then some (.unallocated first level idx) else none

def CallframeElm.toAbsoluteAddr : CallframeElm → AbsoluteAddr
  | .poolVec _ _ ptr => .vectorAllocated ptr
  | .unallocated _ level idx => .unallocated level idx

inductive FoundOrLevel
  | found (ptr : Pointer)
  | ref (level : ℕ) (idx : ℕ)

/-- The first range that has the wire. -/
def searchCallframe : List CallframeElm → ℕ → Option FoundOrLevel
  | [], _ => none
  | .poolVec first last ptr :: v, id =>
    if first ≤ id ∧ id ≤ last then some (.found (ptr.add (id - first))) else searchCallframe v id
  | .unallocated first level idx :: v, id =>
    if first = id then some (.ref level idx) else searchCallframe v id

structure Callframe where
  outputs : List CallframeElm
  outputsCnt : ℕ
  inputs : List CallframeElm
  inputsCnt : ℕ

namespace Callframe

def new : Callframe := ⟨[], 0, [], 0⟩

def getEither (c : Callframe) (id : ℕ) : Option FoundOrLevel :=
  if id < c.outputsCnt then searchCallframe c.outputs id
  else if id < c.inputsCnt then searchCallframe c.inputs id
  else none

def getSlice (c : Callframe) (srcFirst first last : ℕ) : Option CallframeElm :=
  (c.getEither srcFirst).map fun
    | .found ptr => .poolVec first last ptr
    | .ref level idx => .unallocated first level idx

def allocateOutputs (c : Callframe) (count : ℕ) (slice : CallframeElm) : Callframe :=
  ⟨c.outputs ++ [slice], c.outputsCnt + count, c.inputs, c.inputsCnt + count⟩

def allocateInputs (c : Callframe) (count : ℕ) (slice : CallframeElm) : Callframe :=
  ⟨c.outputs, c.outputsCnt, c.inputs ++ [slice], c.inputsCnt + count⟩

def clear (_ : Callframe) : Callframe := ⟨[], 0, [], 0⟩

def len (c : Callframe) : ℕ := c.outputs.length + c.inputs.length

end Callframe

/-! ## Frames -/

structure Frame (X : Type) where
  callframe : Callframe
  callframeSize : ℕ
  callframeVector : List AbsoluteAddr
  callframeIsVector : Bool
  memframePool : WirePool X
  memframeUnallocated : ℕ → Option X
  memframeVector : Buffer X
  memframeIsVector : Bool
  counter : ℕ

namespace Frame

variable {X : Type} [Inhabited X]

/-- A new frame, whose vector has the stamp `stamp`. -/
def new (stamp : ℕ) : Frame X where
  callframe := .new
  callframeSize := 0
  callframeVector := []
  callframeIsVector := false
  memframePool := .new
  memframeUnallocated := fun _ => none
  memframeVector := ⟨stamp, List.replicate vecSizeInit default⟩
  memframeIsVector := false
  counter := 0

/-- Count one more call, and start afresh at the hundredth. -/
def tick (f : Frame X) (stamp : ℕ) : Frame X :=
  if f.counter + 1 < 100 then { f with counter := f.counter + 1 }
  else
    { f with
      callframe := .new
      callframeSize := 0
      callframeVector := List.replicate vecSizeInit .default
      memframePool := .new
      memframeUnallocated := fun _ => none
      memframeVector := ⟨stamp, List.replicate vecSizeInit default⟩
      memframeIsVector := false
      counter := 0 }

/-- Grow the vector of arguments to the declared count. -/
def resizeCallframe (f : Frame X) (callframeIsVector : Bool) (argsCount : Option ℕ) : Frame X :=
  match argsCount with
  | some s =>
    if callframeIsVector ∧ s + 1 > f.callframeVector.length then
      { f with callframeVector := f.callframeVector ++
          List.replicate (s + 1 - f.callframeVector.length) .default }
    else f
  | none => f

def resizeMemframe (f : Frame X) (stamp : ℕ) (memframeIsVector : Bool)
    (vectorSize : Option ℕ) : Frame X :=
  match vectorSize with
  | some s =>
    if memframeIsVector ∧ s + 1 > f.memframeVector.elems.length then
      { f with memframeVector := ⟨stamp, f.memframeVector.elems ++
          List.replicate (s + 1 - f.memframeVector.elems.length) default⟩ }
    else f
  | none => f

/-- The buffer that a pointer into this frame points into. -/
def buffer (f : Frame X) : Option ℕ → Option (Buffer X)
  | none => some f.memframeVector
  | some first => f.memframePool.blocks first

/-- The frame with the elements of one of its buffers changed. -/
def setBuffer (f : Frame X) (v : Buffer X) : Option ℕ → Frame X
  | none => { f with memframeVector := v }
  | some first => { f with memframePool :=
      { f.memframePool with blocks := Function.update f.memframePool.blocks first (some v) } }

end Frame

/-! ## The memory -/

/-- The frames, the index of the current one, and the stamp of the next buffer. -/
structure Memory (X : Type) where
  stack : List (Frame X)
  top : ℕ
  fresh : ℕ

namespace Memory

variable {X : Type} [Inhabited X]

def new : Memory X := ⟨[.new 1], 0, 2⟩

def modifyFrame (m : Memory X) (level : ℕ) (f : Frame X → Frame X) : Memory X :=
  { m with stack := m.stack.modify level f }

/-- Read through a pointer. -/
def deref (m : Memory X) (p : Pointer) : Option X := do
  let f ← m.stack[p.level]?
  let v ← f.buffer p.block
  if v.stamp = p.stamp then v.elems[p.offset]? else none

/-- Write through a pointer. -/
def assign (m : Memory X) (p : Pointer) (x : X) : Option (Memory X) := do
  let f ← m.stack[p.level]?
  let v ← f.buffer p.block
  if v.stamp = p.stamp ∧ p.offset < v.elems.length then
    some (m.modifyFrame p.level fun f => f.setBuffer ⟨v.stamp, v.elems.set p.offset x⟩ p.block)
  else none

def getUnallocated (m : Memory X) (level : ℕ) (idx : ℕ) : Option X := do
  let f ← m.stack[level]?
  f.memframeUnallocated idx

def insertUnallocated (m : Memory X) (level : ℕ) (idx : ℕ) (x : X) : Option (Memory X) :=
  if level < m.stack.length then
    some (m.modifyFrame level fun f =>
      { f with memframeUnallocated := Function.update f.memframeUnallocated idx (some x) })
  else none

def pushFrame (m : Memory X) (argsCount vectorSize : Option ℕ) : Memory X :=
  let callframeIsVector := argsCount.any (· < vecSizeCallframeThreshold)
  let memframeIsVector := vectorSize.any (· < vecSizeMemframeThreshold)
  let top := m.top + 1
  let stack :=
    if m.stack.length ≤ top then
      m.stack ++ [{ (Frame.new m.fresh : Frame X) with
        callframeIsVector := callframeIsVector
        memframeIsVector := memframeIsVector }]
    else
      m.stack.modify top fun f =>
        { f with
          callframeIsVector := callframeIsVector
          memframeIsVector := memframeIsVector
          callframeSize := 0
          callframe := if callframeIsVector then f.callframe else f.callframe.clear
          memframePool := if memframeIsVector then f.memframePool else f.memframePool.clear
          memframeUnallocated := if memframeIsVector then f.memframeUnallocated else fun _ => none }
  let stack := stack.modify top fun f => f.tick (m.fresh + 1)
  let stack := stack.modify top fun f => f.resizeCallframe callframeIsVector argsCount
  let stack := stack.modify top fun f =>
    f.resizeMemframe (m.fresh + 2) memframeIsVector vectorSize
  ⟨stack, top, m.fresh + 3⟩

def popFrame (m : Memory X) : Option (Memory X) :=
  if m.top = 0 then none
  else
    let m := m.modifyFrame m.top fun f =>
      if vecSizeCallframeThreshold / 5 ≤ f.callframeVector.length then
        { f with callframeVector := List.replicate vecSizeInit .default, callframeSize := 0 }
      else f
    let m := m.modifyFrame m.top fun f =>
      if vecSizeCallframeThreshold / 5 ≤ f.callframe.len then
        { f with callframe := .new, callframeSize := 0 }
      else f
    some { m with top := m.top - 1 }

/-- The value at the address of an argument. -/
def getAddr (m : Memory X) : AbsoluteAddr → Option X
  | .poolAllocated ptr => m.deref ptr
  | .unallocated level idx => m.getUnallocated level idx
  | .vectorAllocated ptr => m.deref ptr

def setAddr (m : Memory X) (x : X) : AbsoluteAddr → Option (Memory X)
  | .poolAllocated ptr => m.assign ptr x
  | .unallocated level idx => m.insertUnallocated level idx x
  | .vectorAllocated ptr => m.assign ptr x

/-- The address of the argument `id` of a frame. -/
def argument (f : Frame X) (id : ℕ) : Option AbsoluteAddr :=
  if f.callframeIsVector then f.callframeVector[id]?
  else (f.callframe.getEither id).map fun
    | .found ptr => .vectorAllocated ptr
    | .ref level idx => .unallocated level idx

/-- The value of a wire, with the cache moved. -/
def get (m : Memory X) (id : ℕ) : Option (X × Memory X) := do
  let f ← m.stack[m.top]?
  if id < f.callframeSize then
    let addr ← argument f id
    let x ← m.getAddr addr
    some (x, m)
  else if f.memframeIsVector then
    let x ← f.memframeVector.elems[id - f.callframeSize]?
    some (x, m)
  else
    match f.memframePool.present id with
    | (true, p) =>
      let m := m.modifyFrame m.top fun f => { f with memframePool := p }
      let (ptr, _) ← p.getPtr m.top id
      let x ← m.deref ptr
      some (x, m)
    | (false, _) =>
      let x ← f.memframeUnallocated id
      some (x, m)

def set (m : Memory X) (id : ℕ) (x : X) : Option (Memory X) := do
  let f ← m.stack[m.top]?
  if id < f.callframeSize then
    let addr ← argument f id
    m.setAddr x addr
  else if f.memframeIsVector then
    if id - f.callframeSize < f.memframeVector.elems.length then
      some (m.modifyFrame m.top fun f => { f with
        memframeVector := ⟨f.memframeVector.stamp,
          f.memframeVector.elems.set (id - f.callframeSize) x⟩ })
    else none
  else
    match f.memframePool.present id with
    | (true, p) =>
      let m := m.modifyFrame m.top fun f => { f with memframePool := p }
      let (ptr, _) ← p.getPtr m.top id
      m.assign ptr x
    | (false, _) => m.insertUnallocated m.top id x

/-- The addresses from `addr` on, for the arguments from `start` on. -/
def fillCallframeVector (v : List AbsoluteAddr) (start count : ℕ) (addr : AbsoluteAddr) :
    Option (List AbsoluteAddr) :=
  (List.range count).foldlM (fun v i => do
    let a ← addr.incr i
    if start + i < v.length then some (v.set (start + i) a) else none) v

/-- Pass the address or the slice of the source to the current frame. -/
def passSlice (m : Memory X) (start count : ℕ) (allowAllocation : Bool) (addr : AbsoluteAddr)
    (slice : Option CallframeElm) : Option (Memory X) := do
  let f ← m.stack[m.top]?
  if f.callframeIsVector then
    let v ← fillCallframeVector f.callframeVector start count addr
    some (m.modifyFrame m.top fun f => { f with callframeVector := v })
  else
    let slice ← slice
    some (m.modifyFrame m.top fun f => { f with
      callframe := if allowAllocation then f.callframe.allocateOutputs count slice
        else f.callframe.allocateInputs count slice })

/-- The current frame has `count` more arguments. -/
def extend (m : Memory X) (count : ℕ) : Memory X :=
  m.modifyFrame m.top fun f => { f with callframeSize := f.callframeSize + count }

/-- Pass the wires of the previous frame from `srcFirst` to `srcLast` as arguments from `start` on:
they are arguments of that frame, in its vector, in its pool, or not allocated. -/
def allocateSlice (m : Memory X) (srcFirst srcLast start count : ℕ)
    (allowAllocation : Bool) : Option (Memory X) := do
  if m.top = 0 ∨ srcLast < srcFirst ∨ count ≠ srcLast - srcFirst + 1 then none
  else
    let m := m.extend count
    let prev ← m.stack[m.top - 1]?
    let last := start + count - 1
    if srcFirst < prev.callframeSize then
      if srcLast < prev.callframeSize then
        if prev.callframeIsVector then
          let addr ← prev.callframeVector[srcFirst]?
          m.passSlice start count allowAllocation addr (mkFromAbsadr start last addr)
        else
          let slice ← prev.callframe.getSlice srcFirst start last
          m.passSlice start count allowAllocation slice.toAbsoluteAddr (some slice)
      else none
    else if prev.memframeIsVector then
      let offset := srcFirst - prev.callframeSize
      if offset < prev.memframeVector.elems.length then
        let ptr : Pointer := ⟨m.top - 1, none, prev.memframeVector.stamp, offset⟩
        m.passSlice start count allowAllocation (.vectorAllocated ptr)
          (some (.poolVec start last ptr))
      else none
    else
      match prev.memframePool.present srcFirst with
      | (true, p) =>
        let (ptr, p) ← p.getPtr (m.top - 1) srcFirst
        let m := m.modifyFrame (m.top - 1) fun f => { f with memframePool := p }
        m.passSlice start count allowAllocation (.poolAllocated ptr)
          (some (.poolVec start last ptr))
      | (false, _) =>
        if srcFirst ≠ srcLast then
          if allowAllocation then
            let p ← prev.memframePool.insert m.fresh srcFirst srcLast
            let (ptr, p) ← p.getPtr (m.top - 1) srcFirst
            let m := { m.modifyFrame (m.top - 1) fun f => { f with memframePool := p } with
              fresh := m.fresh + 1 }
            m.passSlice start count true (.poolAllocated ptr) (some (.poolVec start last ptr))
          else none
        else
          m.passSlice start count allowAllocation (.unallocated (m.top - 1) srcFirst)
            (some (.unallocated start (m.top - 1) srcFirst))

def allocationNew (m : Memory X) (first last : ℕ) : Option (Memory X) := do
  let f ← m.stack[m.top]?
  if f.memframeIsVector then some m
  else
    let p ← f.memframePool.insert m.fresh first last
    some { m.modifyFrame m.top fun f => { f with memframePool := p } with fresh := m.fresh + 1 }

/-- Remove whole blocks from `curr` on, `remaining` wires in all; each round removes a wire. -/
def deleteBlocks : ℕ → WirePool X → ℕ → ℕ → Option (WirePool X)
  | 0, _, _, _ => none
  | rounds + 1, p, curr, remaining => do
    let (howMany, p) ← p.remove curr
    if remaining < howMany then none
    else if remaining - howMany = 0 then some p
    else deleteBlocks rounds p (curr + howMany) (remaining - howMany)

def allocationDelete (m : Memory X) (first last : ℕ) : Option (Memory X) := do
  let f ← m.stack[m.top]?
  if f.memframeIsVector then some m
  else if last < first then none
  else
    let p ← deleteBlocks (last - first + 1) f.memframePool first (last - first + 1)
    some (m.modifyFrame m.top fun f => { f with memframePool := p })

end Memory

end EdaBitGen
