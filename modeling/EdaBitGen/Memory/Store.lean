import EdaBitGen.Memory.Frames

/-!
# The reference store

Each frame is a finite map of wires, and an argument is another name of a wire of a frame under it.
A sequence of operations is well formed when it reads written wires only, stays within the declared
counts, allocates wires that are free, deletes whole allocations, and passes ranges that lie in one
argument or one allocation, are a single wire, or become an allocation as outputs.
-/

namespace EdaBitGen

structure StoreFrame (X : Type) where
  argsCount : Option ℕ
  vectorSize : Option ℕ
  outputs : List WireRange
  inputs : List WireRange
  own : ℕ → Option X
  allocations : ℕ → Option ℕ

namespace StoreFrame

variable {X : Type}

def new (argsCount vectorSize : Option ℕ) : StoreFrame X :=
  ⟨argsCount, vectorSize, [], [], fun _ => none, fun _ => none⟩

def args (a : StoreFrame X) : List WireRange := a.outputs ++ a.inputs

/-- Whether a wire is in an allocation. -/
def allocated (a : StoreFrame X) (id : ℕ) : Bool :=
  (List.range (id + 1)).any fun k => (a.allocations k).any fun n => id < k + n

theorem allocated_iff (a : StoreFrame X) (id : ℕ) :
    a.allocated id = true ↔ ∃ k n, a.allocations k = some n ∧ k ≤ id ∧ id < k + n := by
  unfold allocated
  rw [List.any_eq_true]
  constructor
  · rintro ⟨k, hk, hany⟩
    obtain ⟨n, hn, hlt⟩ := (Option.any_eq_true _ _).1 hany
    have hle := List.mem_range.1 hk
    exact ⟨k, n, hn, by omega, of_decide_eq_true hlt⟩
  · rintro ⟨k, n, hn, hle, hlt⟩
    refine ⟨k, List.mem_range.2 (by omega), ?_⟩
    rw [hn]
    exact decide_eq_true hlt

def InBounds (a : StoreFrame X) (id : ℕ) : Prop := ∀ n, a.vectorSize = some n → id ≤ n

/-- Allocations one after the other, `count` wires in all. -/
inductive Tiled (allocations : ℕ → Option ℕ) : ℕ → ℕ → Prop
  | last {k n : ℕ} : allocations k = some n → Tiled allocations k n
  | cons {k n count : ℕ} : allocations k = some n → 0 < n → 0 < count →
    Tiled allocations (k + n) count → Tiled allocations k (n + count)

end StoreFrame

inductive WireOp (X : Type)
  | get (id : ℕ)
  | set (id : ℕ) (x : X)
  | allocationNew (first last : ℕ)
  | allocationDelete (first last : ℕ)
  | pushFrame (argsCount vectorSize : Option ℕ)
  | allocateSlice (srcFirst srcLast start count : ℕ) (allowAllocation : Bool)
  | popFrame

structure Store (X : Type) where
  frames : ℕ → StoreFrame X
  top : ℕ

namespace Store

variable {X : Type}

def new : Store X := ⟨fun _ => .new none none, 0⟩

def current (s : Store X) : StoreFrame X := s.frames s.top

def caller (s : Store X) : StoreFrame X := s.frames (s.top - 1)

def modify (s : Store X) (level : ℕ) (f : StoreFrame X → StoreFrame X) : Store X :=
  { s with frames := Function.update s.frames level (f (s.frames level)) }

theorem modify_self (s : Store X) (level : ℕ) (f : StoreFrame X → StoreFrame X) :
    (s.modify level f).frames level = f (s.frames level) :=
  Function.update_self _ _ _

theorem modify_other (s : Store X) {level j : ℕ} (h : j ≠ level)
    (f : StoreFrame X → StoreFrame X) : (s.modify level f).frames j = s.frames j :=
  Function.update_of_ne h _ _

/-- The frame and the wire that a wire of the current frame is. -/
def resolve (s : Store X) (id : ℕ) : ℕ × ℕ :=
  match locate s.current.args id with
  | some (r, i) => (r.level, r.first + i)
  | none => (s.top, id)

def get (s : Store X) (id : ℕ) : Option X :=
  (s.frames (s.resolve id).1).own (s.resolve id).2

def set (s : Store X) (id : ℕ) (x : X) : Store X :=
  s.modify (s.resolve id).1 fun a =>
    { a with own := Function.update a.own (s.resolve id).2 (some x) }

/-- The range of wires that a range of the caller is. -/
def source (s : Store X) (srcFirst count : ℕ) : WireRange :=
  match locate s.caller.args srcFirst with
  | some (r, i) => ⟨r.level, r.first + i, count⟩
  | none => ⟨s.top - 1, srcFirst, count⟩

/-- Whether passing a range allocates it. -/
def allocates (s : Store X) (srcFirst count : ℕ) (allowAllocation : Bool) : Bool :=
  (locate s.caller.args srcFirst).isNone && allowAllocation && count != 1 &&
    !s.caller.allocated srcFirst

def allocateSlice (s : Store X) (srcFirst count : ℕ) (allowAllocation : Bool) : Store X :=
  let r := s.source srcFirst count
  let s' := if s.allocates srcFirst count allowAllocation then
      s.modify (s.top - 1) fun a =>
        { a with allocations := Function.update a.allocations srcFirst (some count) }
    else s
  s'.modify s.top fun a => { a with
    outputs := if allowAllocation then a.outputs ++ [r] else a.outputs
    inputs := if allowAllocation then a.inputs else a.inputs ++ [r] }

def step (s : Store X) : WireOp X → Option X × Store X
  | .get id => (s.get id, s)
  | .set id x => (none, s.set id x)
  | .allocationNew first last =>
    (none, s.modify s.top fun a =>
      { a with allocations := Function.update a.allocations first (some (last - first + 1)) })
  | .allocationDelete first last =>
    (none, s.modify s.top fun a => { a with
      own := fun id => if first ≤ id ∧ id ≤ last then none else a.own id
      allocations := fun k => if first ≤ k ∧ k ≤ last then none else a.allocations k })
  | .pushFrame argsCount vectorSize =>
    (none, ⟨Function.update s.frames (s.top + 1) (.new argsCount vectorSize), s.top + 1⟩)
  | .allocateSlice srcFirst _ _ count allowAllocation =>
    (none, s.allocateSlice srcFirst count allowAllocation)
  | .popFrame => (none, ⟨Function.update s.frames s.top (.new none none), s.top - 1⟩)

/-- Nobody has a name for the wires from `first` to `last` of the caller yet. -/
def Free (s : Store X) (first last : ℕ) : Prop :=
  ∀ id, first ≤ id → id ≤ last → s.caller.own id = none ∧ s.caller.allocated id = false ∧
    ∀ r ∈ s.current.args, r.level = s.top - 1 → ¬(r.first ≤ id ∧ id < r.first + r.count)

/-- The range lies in one argument of the caller, or it is a single wire or lies in one allocation
of the caller, or it is free and becomes an allocation. -/
def Passable (s : Store X) (srcFirst srcLast count : ℕ) (allowAllocation : Bool) : Prop :=
  match locate s.caller.args srcFirst with
  | some (r, i) => i + count ≤ r.count
  | none => s.caller.InBounds srcLast ∧
    (count = 1 ∨
      (∃ k n, s.caller.allocations k = some n ∧ k ≤ srcFirst ∧ srcLast < k + n) ∨
      allowAllocation = true ∧ s.Free srcFirst srcLast)

def Allowed (s : Store X) : WireOp X → Prop
  | .get id => s.get id ≠ none
  | .set id _ => locate s.current.args id = none → s.current.InBounds id
  | .allocationNew first last => first ≤ last ∧
    ∀ id, first ≤ id → id ≤ last → s.current.own id = none ∧ s.current.allocated id = false
  | .allocationDelete first last => first ≤ last ∧
    StoreFrame.Tiled s.current.allocations first (last - first + 1)
  | .pushFrame _ _ => True
  | .allocateSlice srcFirst srcLast start count allowAllocation =>
    s.top ≠ 0 ∧ srcFirst ≤ srcLast ∧ count = srcLast - srcFirst + 1 ∧
      start = totalCount s.current.args ∧ (allowAllocation = true → s.current.inputs = []) ∧
      (∀ n, s.current.argsCount = some n → start + count ≤ n) ∧
      (∀ id, s.current.own id = none ∧ s.current.allocations id = none) ∧
      s.Passable srcFirst srcLast count allowAllocation
  | .popFrame => s.top ≠ 0

def run (s : Store X) : List (WireOp X) → List (Option X) × Store X
  | [] => ([], s)
  | op :: ops => ((s.step op).1 :: ((s.step op).2.run ops).1, ((s.step op).2.run ops).2)

/-- Every operation is allowed when its turn comes. -/
def WellFormed (s : Store X) : List (WireOp X) → Prop
  | [] => True
  | op :: ops => s.Allowed op ∧ (s.step op).2.WellFormed ops

end Store

namespace Memory

variable {X : Type} [Inhabited X]

/-- One operation of the memory, with the value it reads. -/
def step (m : Memory X) : WireOp X → Option (Option X × Memory X)
  | .get id => (m.get id).map fun (x, m) => (some x, m)
  | .set id x => (m.set id x).map (none, ·)
  | .allocationNew first last => (m.allocationNew first last).map (none, ·)
  | .allocationDelete first last => (m.allocationDelete first last).map (none, ·)
  | .pushFrame argsCount vectorSize => some (none, m.pushFrame argsCount vectorSize)
  | .allocateSlice srcFirst srcLast start count allowAllocation =>
    (m.allocateSlice srcFirst srcLast start count allowAllocation).map (none, ·)
  | .popFrame => m.popFrame.map (none, ·)

def run (m : Memory X) : List (WireOp X) → Option (List (Option X) × Memory X)
  | [] => some ([], m)
  | op :: ops => do
    let (x, m) ← m.step op
    let (xs, m) ← m.run ops
    some (x :: xs, m)

end Memory

end EdaBitGen
