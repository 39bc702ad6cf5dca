import EdaBitGen.Data.Lists

/-!
# The wire map

Allocations of optional values by their first wires, in a tree with a cache of four entries before
it.  An allocation in the cache may have a marker in the tree, or nothing.  An allocation is a view
of a block on the heap.
-/

namespace EdaBitGen.MacNCheese.WireMaps

/-- Wire ids and sizes have 64 bits. -/
def checkedAdd (a b : ℕ) : Option ℕ := if a + b < 2 ^ 64 then some (a + b) else none

/-- An addition, which panics out of range in builds with overflow checks and wraps in others. -/
def add (overflowChecks : Bool) (a b : ℕ) : Option ℕ :=
  if a + b < 2 ^ 64 then some (a + b) else if overflowChecks then none else some (a + b - 2 ^ 64)

/-- A subtraction that wraps. -/
def wrappingSub (a b : ℕ) : ℕ := if b ≤ a then a - b else 2 ^ 64 - (b - a)

/-! ## Allocations -/

/-- The blocks that are allocated, each a vector of optional values. -/
structure Heap (X : Type) where
  blocks : ℕ → Option (ℕ → Option X)
  next : ℕ

namespace Heap

variable {X : Type}

def empty : Heap X := ⟨fun _ => none, 0⟩

def alloc (heap : Heap X) : ℕ × Heap X :=
  (heap.next, ⟨Function.update heap.blocks heap.next (some fun _ => none), heap.next + 1⟩)

def dealloc (heap : Heap X) (base : ℕ) : Heap X :=
  { heap with blocks := Function.update heap.blocks base none }

def write (heap : Heap X) (base i : ℕ) (value : X) : Option (Heap X) :=
  (heap.blocks base).map fun block => { heap with
    blocks := Function.update heap.blocks base (some (Function.update block i (some value))) }

end Heap

inductive MemoryOwnership
  | owned
  | mutablyBorrowed
  | immutablyBorrowed
deriving DecidableEq

structure Allocation where
  base : ℕ
  fullLen : ℕ
  exposedLen : ℕ
  offset : ℕ
  ownership : MemoryOwnership
deriving DecidableEq

namespace Allocation

variable {X : Type}

def default : Allocation := ⟨0, 0, 0, 0, .owned⟩

def len (a : Allocation) : ℕ := a.exposedLen

def isMutable (a : Allocation) : Bool := a.ownership ≠ .immutablyBorrowed

def newOwned (heap : Heap X) (len : ℕ) : Allocation × Heap X :=
  (⟨heap.alloc.1, len, len, 0, .owned⟩, heap.alloc.2)

def get (a : Allocation) (heap : Heap X) (idx : ℕ) : Option (Option X) :=
  if idx < a.exposedLen then (heap.blocks a.base).map (· (idx + a.offset)) else none

/-- Write a value and say whether there was none. -/
def insert (a : Allocation) (heap : Heap X) (idx : ℕ) (value : X) : Option (Bool × Heap X) :=
  if a.isMutable then do
    let previous ← a.get heap idx
    let heap ← heap.write a.base (idx + a.offset) value
    some (previous.isNone, heap)
  else none

/-- A view of a part of an allocation. -/
def newBorrow (parent : Allocation) (start len : ℕ) (ownership : MemoryOwnership) :
    Option Allocation := do
  let stop ← checkedAdd start len
  if stop ≤ parent.len then
    if ownership = .mutablyBorrowed ∧ parent.isMutable = false then none
    else some ⟨parent.base, parent.fullLen, len, start + parent.offset, ownership⟩
  else none

def drop (a : Allocation) (heap : Heap X) : Heap X :=
  if a.ownership = .owned ∧ 0 < a.fullLen then heap.dealloc a.base else heap

end Allocation

/-! ## The map -/

inductive Cell
  | uncached (allocation : Allocation)
  | inCache (len : ℕ)

namespace Cell

variable {X : Type}

def len : Cell → ℕ
  | .uncached a => a.len
  | .inCache n => n

def drop : Cell → Heap X → Heap X
  | .uncached a, heap => a.drop heap
  | .inCache _, heap => heap

end Cell

inductive WireNotFound
  | notAllocated
  | unsetValueWithinAllocation
deriving DecidableEq

inductive InsertResult (X : Type)
  | notAllocated (value : X)
  | previouslyUnset
  | previouslySet
  | allocationNotMutable
deriving DecidableEq

inductive Error
  | overlaps (existingStart existingEndInclusive start inclusiveEnd : ℕ)
  | startNotFound (currStart foundStart : ℕ)
  | extendsPast (foundStart foundEnd inclusiveEnd : ℕ)
  | cannotFree (currStart foundEnd inclusiveEnd : ℕ)
  | nonExistent (currStart : ℕ)
  | notFullyCovered (start inclusiveEnd : ℕ)
  | notContained (regionStart regionEnd start inclusiveEnd : ℕ)
  | notFound (start inclusiveEnd : ℕ)
  | conflicts (start inclusiveEnd entryStart entryEnd : ℕ)
  | notMutable (srcStart srcInclusiveEnd : ℕ)
deriving DecidableEq

/-- No length, and the greatest age. -/
def emptyAgeAndLastUsed : ℕ := 2 ^ 16 - 1

/-- Add one to the last of the four 16-bit lanes of a number, with saturation. -/
def saturatingAddOne (x : ℕ) : ℕ := if x % 2 ^ 16 = 2 ^ 16 - 1 then x else x + 1

structure WireMap where
  storage : AList fun _ : ℕ => Cell
  cacheStarts : Fin 4 → ℕ
  cacheLensAndLastUseds : Fin 4 → ℕ
  cachedAllocations : Fin 4 → Allocation

structure WirePosition where
  allocation : Allocation
  posInAllocation : ℕ

namespace WireMap

variable {X : Type}

def new : WireMap := ⟨∅, fun _ => 0, fun _ => emptyAgeAndLastUsed, fun _ => .default⟩

theorem neZero_cells : NeZero 4 := ⟨by decide⟩

attribute [local instance] neZero_cells in
/-- The last of the cells with the greatest age. -/
def victim (m : WireMap) : Fin 4 :=
  (List.finRange 4).foldl (fun v i =>
    if m.cacheLensAndLastUseds v % 2 ^ 16 ≤ m.cacheLensAndLastUseds i % 2 ^ 16 then i else v) 0

def insertIntoCache (m : WireMap) (start : ℕ) (alloc : Allocation) : WireMap :=
  let evicted := m.cachedAllocations m.victim
  { storage := if 0 < evicted.len then
        m.storage.insert (m.cacheStarts m.victim) (.uncached evicted)
      else m.storage
    cacheStarts := Function.update m.cacheStarts m.victim start
    -- Age zero.
    cacheLensAndLastUseds :=
      Function.update m.cacheLensAndLastUseds m.victim (alloc.len * 2 ^ 16 % 2 ^ 64)
    cachedAllocations := Function.update m.cachedAllocations m.victim alloc }

/-- Whether a wire is in a cell. -/
def hit (m : WireMap) (wire : ℕ) (i : Fin 4) : Bool :=
  wrappingSub wire (m.cacheStarts i) < m.cacheLensAndLastUseds i / 2 ^ 16 &&
    !(wire < m.cacheStarts i)

def checkCacheForWire (m : WireMap) (wire : ℕ) : Option (Fin 4) :=
  (List.finRange 4).find? (m.hit wire)

def borrowAllocationSlow (m : WireMap) (wire : ℕ) : Option (Option WirePosition × WireMap) :=
  match m.storage.floor wire with
  | none => some (none, m)
  | some (start, cell) =>
    if cell.len ≤ wire - start then some (none, m)
    else match cell with
      | .inCache _ => none
      | .uncached allocation =>
        let m := { m with storage := m.storage.insert start (.inCache allocation.len) }
        some (some ⟨allocation, wire - start⟩, m.insertIntoCache start allocation)

def borrowAllocation (m : WireMap) (wire : ℕ) : Option (Option WirePosition × WireMap) :=
  match m.checkCacheForWire wire with
  | none => m.borrowAllocationSlow wire
  | some idx => some (some ⟨m.cachedAllocations idx, wire - m.cacheStarts idx⟩,
      { m with cacheLensAndLastUseds := fun i =>
          if m.hit wire i then m.cacheLensAndLastUseds i
          else saturatingAddOne (m.cacheLensAndLastUseds i) })

section Allocating

variable (overflowChecks : Bool)

def ensureNoOverlap (start inclusiveEnd : ℕ) : List (ℕ × ℕ) → Option (Except Error Unit)
  | [] => some (.ok ())
  | (existingStart, existingLen) :: rest =>
    if existingLen = 0 ∨ inclusiveEnd < existingStart then
      ensureNoOverlap start inclusiveEnd rest
    else do
      let existingEnd ← add overflowChecks existingStart (existingLen - 1)
      if existingEnd < start then ensureNoOverlap start inclusiveEnd rest
      else some (.error (.overlaps existingStart existingEnd start inclusiveEnd))

/-- The allocations to check: one from the tree, and all of the cache. -/
def candidates (m : WireMap) (inclusiveEnd : ℕ) : List (ℕ × ℕ) :=
  ((m.storage.floor inclusiveEnd).map fun e => (e.1, e.2.len)).toList ++
    (List.finRange 4).map fun i => (m.cacheStarts i, (m.cachedAllocations i).len)

def allocFromAllocation (m : WireMap) (start : ℕ) (allocation : Allocation) :
    Option (Except Error Unit × WireMap) :=
  if allocation.len ≠ 0 ∧ allocation.len < 2 ^ 48 then do
    let inclusiveEnd ← checkedAdd start (allocation.len - 1)
    match ← ensureNoOverlap overflowChecks start inclusiveEnd (m.candidates inclusiveEnd) with
    | .error e => some (.error e, m)
    | .ok () => some (.ok (), m.insertIntoCache start allocation)
  else none

def alloc (m : WireMap) (heap : Heap X) (start inclusiveEnd : ℕ) :
    Option (Except Error Unit × WireMap × Heap X) :=
  if start ≤ inclusiveEnd then do
    let len ← add overflowChecks (inclusiveEnd - start) 1
    let (allocation, heap) := Allocation.newOwned heap len
    match ← m.allocFromAllocation overflowChecks start allocation with
    | (.error e, m) => some (.error e, m, allocation.drop heap)
    | (.ok (), m) => some (.ok (), m, heap)
  else some (.ok (), m, heap)

def allocRangeIfUnallocated (m : WireMap) (heap : Heap X) (start inclusiveEnd : ℕ) :
    Option (Except Error Unit × WireMap × Heap X) :=
  if start ≤ inclusiveEnd then do
    let len ← add overflowChecks (inclusiveEnd - start) 1
    match ← m.borrowAllocation start with
    | (some wp, m) =>
      let regionStart := start - wp.posInAllocation
      if len ≤ wp.allocation.len - wp.posInAllocation then some (.ok (), m, heap)
      else do
        let regionEnd ← add overflowChecks regionStart (wp.allocation.len - 1)
        some (.error (.notContained regionStart regionEnd start inclusiveEnd), m, heap)
    | (none, m) => m.alloc overflowChecks heap start inclusiveEnd
  else some (.ok (), m, heap)

/-- Take the allocation out of the cache, if it is there, and return its length. -/
def freeCached (m : WireMap) (heap : Heap X) (currStart inclusiveEnd : ℕ) :
    Option (Except Error (Option ℕ) × WireMap × Heap X) :=
  match m.checkCacheForWire currStart with
  | none => some (.ok none, m, heap)
  | some idx =>
    let allocation := m.cachedAllocations idx
    let foundStart := m.cacheStarts idx
    if foundStart = currStart then do
      let foundEnd ← add overflowChecks foundStart (allocation.len - 1)
      if foundEnd ≤ inclusiveEnd then
        let m := { m with
          cacheLensAndLastUseds :=
            Function.update m.cacheLensAndLastUseds idx emptyAgeAndLastUsed
          cachedAllocations := Function.update m.cachedAllocations idx .default }
        some (.ok (some allocation.len), m, allocation.drop heap)
      else some (.error (.extendsPast foundStart foundEnd inclusiveEnd), m, heap)
    else some (.error (.startNotFound currStart foundStart), m, heap)

/-- Take the entry out of the tree.  There may be none if the allocation was in the cache. -/
def freeStored (m : WireMap) (heap : Heap X) (currStart inclusiveEnd : ℕ) (cached : Option ℕ) :
    Option (Except Error ℕ × WireMap × Heap X) :=
  match m.storage.lookup currStart with
  | some cell => do
    let foundEnd ← add overflowChecks currStart (cell.len - 1)
    if inclusiveEnd < foundEnd then
      some (.error (.cannotFree currStart foundEnd inclusiveEnd), m, heap)
    else some (.ok cell.len, { m with storage := m.storage.erase currStart }, cell.drop heap)
  | none =>
    match cached with
    | some len => some (.ok len, m, heap)
    | none => some (.error (.nonExistent currStart), m, heap)

/-- Free the allocation that starts at a wire and return its length. -/
def freeAllocation (m : WireMap) (heap : Heap X) (currStart inclusiveEnd : ℕ) :
    Option (Except Error ℕ × WireMap × Heap X) := do
  match ← m.freeCached overflowChecks heap currStart inclusiveEnd with
  | (.error e, m, heap) => some (.error e, m, heap)
  | (.ok cached, m, heap) => m.freeStored overflowChecks heap currStart inclusiveEnd cached

def freeLoop (inclusiveEnd : ℕ) :
    ℕ → WireMap → Heap X → ℕ → Option (Except Error ℕ × WireMap × Heap X)
  | 0, _, _, _ => none
  | fuel + 1, m, heap, currStart =>
    if currStart ≤ inclusiveEnd then do
      match ← m.freeAllocation overflowChecks heap currStart inclusiveEnd with
      | (.error e, m, heap) => some (.error e, m, heap)
      | (.ok len, m, heap) => freeLoop inclusiveEnd fuel m heap (← add overflowChecks currStart len)
    else some (.ok currStart, m, heap)

def free (m : WireMap) (heap : Heap X) (start inclusiveEnd : ℕ) :
    Option (Except Error Unit × WireMap × Heap X) := do
  -- Each round takes an allocation out of the cache or an entry out of the tree.
  match ← freeLoop overflowChecks inclusiveEnd (m.storage.keys.length + 5) m heap start with
  | (.error e, m, heap) => some (.error e, m, heap)
  | (.ok currStart, m, heap) =>
    let next ← add overflowChecks inclusiveEnd 1
    if currStart = next then some (.ok (), m, heap)
    else some (.error (.notFullyCovered start inclusiveEnd), m, heap)

end Allocating

def get (m : WireMap) (heap : Heap X) (wire : ℕ) :
    Option (Except WireNotFound X × WireMap × Heap X) := do
  match ← m.borrowAllocation wire with
  | (some pos, m) =>
    match ← pos.allocation.get heap pos.posInAllocation with
    | some out => some (.ok out, m, heap)
    | none => some (.error .unsetValueWithinAllocation, m, heap)
  | (none, m) => some (.error .notAllocated, m, heap)

/-- The value at a wire, which the caller then changes by `f`. -/
def getMut (m : WireMap) (heap : Heap X) (wire : ℕ) (f : X → X) :
    Option (Except WireNotFound X × WireMap × Heap X) := do
  match ← m.borrowAllocation wire with
  | (some pos, m) =>
    if pos.allocation.isMutable then do
      match ← pos.allocation.get heap pos.posInAllocation with
      | some out => do
        let (_, heap) ← pos.allocation.insert heap pos.posInAllocation (f out)
        some (.ok out, m, heap)
      | none => some (.error .unsetValueWithinAllocation, m, heap)
    else none
  | (none, m) => some (.error .notAllocated, m, heap)

def insert (m : WireMap) (heap : Heap X) (wire : ℕ) (value : X) :
    Option (InsertResult X × WireMap × Heap X) := do
  match ← m.borrowAllocation wire with
  | (some pos, m) =>
    if pos.allocation.isMutable then do
      let (previouslyUnset, heap) ← pos.allocation.insert heap pos.posInAllocation value
      some (if previouslyUnset then .previouslyUnset else .previouslySet, m, heap)
    else some (.allocationNotMutable, m, heap)
  | (none, m) => some (.notAllocated value, m, heap)

/-! ## Children -/

/-- The allocation that has the whole range, with the place of the range in it. -/
def immutablyBorrowAllocation (overflowChecks : Bool) (m : WireMap) (start inclusiveEnd : ℕ) :
    Option (Except Error (ℕ × Allocation)) := do
  if inclusiveEnd < start then some (.error (.notFound start inclusiveEnd))
  else
    let candidate ← match m.checkCacheForWire start with
      | some idx => some (some (m.cacheStarts idx, m.cachedAllocations idx))
      | none => match m.storage.floor start with
        | some (allocStart, .uncached allocation) => some (some (allocStart, allocation))
        | some (_, .inCache _) => none
        | none => some none
    match candidate with
    | none => some (.error (.notFound start inclusiveEnd))
    | some (allocStart, allocation) =>
      if allocation.len ≤ start - allocStart then some (.error (.notFound start inclusiveEnd))
      else do
        let allocationInclusiveEnd ← add overflowChecks allocStart (allocation.len - 1)
        if inclusiveEnd ≤ allocationInclusiveEnd then some (.ok (start - allocStart, allocation))
        else some (.error (.notFound start inclusiveEnd))

def ensureNoConflict (mutableRangeMap : AList fun _ : ℕ => ℕ) (start inclusiveEnd : ℕ) :
    Except Error Unit :=
  match mutableRangeMap.floor inclusiveEnd with
  | some (entryStart, entryEnd) =>
    if entryEnd < start then .ok ()
    else .error (.conflicts start inclusiveEnd entryStart entryEnd)
  | none => .ok ()

structure DestinationRange where
  srcStart : ℕ
  srcInclusiveEnd : ℕ
  dstStart : ℕ

def DestinationRange.isEmpty (r : DestinationRange) : Bool := r.srcInclusiveEnd < r.srcStart

/-- Borrow a range, which the mutable ranges so far must not meet. -/
def borrowRange (overflowChecks : Bool) (m : WireMap) (ownership : MemoryOwnership)
    (mutableRangeMap : AList fun _ : ℕ => ℕ) (out : WireMap) (range : DestinationRange) :
    Option (Except Error WireMap) :=
  match ensureNoConflict mutableRangeMap range.srcStart range.srcInclusiveEnd with
  | .error e => some (.error e)
  | .ok () => do
    match ← m.immutablyBorrowAllocation overflowChecks range.srcStart range.srcInclusiveEnd with
    | .error e => some (.error e)
    | .ok (offset, ownAlloc) =>
      if ownership = .mutablyBorrowed ∧ ownAlloc.isMutable = false then
        some (.error (.notMutable range.srcStart range.srcInclusiveEnd))
      else do
        let len ← add overflowChecks (range.srcInclusiveEnd - range.srcStart) 1
        let (result, out) ← out.allocFromAllocation overflowChecks range.dstStart
          (← ownAlloc.newBorrow offset len ownership)
        some (result.map fun () => out)

def borrowMutables (overflowChecks : Bool) (m : WireMap) :
    AList (fun _ : ℕ => ℕ) → WireMap → List DestinationRange →
      Option (Except Error (AList (fun _ : ℕ => ℕ) × WireMap))
  | mutableRangeMap, out, [] => some (.ok (mutableRangeMap, out))
  | mutableRangeMap, out, range :: ranges =>
    (m.borrowRange overflowChecks .mutablyBorrowed mutableRangeMap out range).bind fun
      | .error e => some (.error e)
      | .ok out => borrowMutables overflowChecks m
          (mutableRangeMap.insert range.srcStart range.srcInclusiveEnd) out ranges

def borrowImmutables (overflowChecks : Bool) (m : WireMap)
    (mutableRangeMap : AList fun _ : ℕ => ℕ) :
    WireMap → List DestinationRange → Option (Except Error WireMap)
  | out, [] => some (.ok out)
  | out, range :: ranges =>
    (m.borrowRange overflowChecks .immutablyBorrowed mutableRangeMap out range).bind fun
      | .error e => some (.error e)
      | .ok out => borrowImmutables overflowChecks m mutableRangeMap out ranges

def borrowChild (overflowChecks : Bool) (m : WireMap)
    (mutableRanges immutableRanges : List DestinationRange) : Option (Except Error WireMap) := do
  match ← m.borrowMutables overflowChecks ∅ new (mutableRanges.filter fun r => !r.isEmpty) with
  | .error e => some (.error e)
  | .ok (mutableRangeMap, out) =>
    m.borrowImmutables overflowChecks mutableRangeMap out
      (immutableRanges.filter fun r => !r.isEmpty)

end WireMap

end EdaBitGen.MacNCheese.WireMaps
