import EdaBitGen.Memory.WirePool

/-!
# The cache of a pool

A pool reads and writes its wires through the cache.  Over a run whose insertions do not overlap it
answers like the map of ranges that it holds, which has no cache.
-/

namespace EdaBitGen

variable {X : Type}

/-! ## The pool -/

namespace WirePool

/-- The elements behind the pointer of the cache, while the block is still the same. -/
def vector (p : WirePool X) (c : Cache) : Option (List X) := do
  let v ← p.blocks c.first
  if v.stamp = c.stamp then some v.elems else none

def get (p : WirePool X) (id : ℕ) : Option (X × WirePool X) := do
  let (c, p) ← p.moveToCacheIfNecessary id
  let elems ← p.vector c
  let x ← elems[id - c.first]?
  some (x, p)

def set (p : WirePool X) (id : ℕ) (x : X) : Option (WirePool X) := do
  let (c, p) ← p.moveToCacheIfNecessary id
  let elems ← p.vector c
  if id - c.first < elems.length then
    some (p.setBlock c.first ⟨c.stamp, elems.set (id - c.first) x⟩)
  else none

end WirePool

inductive PoolOp (X : Type)
  | insert (first last : ℕ)
  | remove (id : ℕ)
  | clear
  | get (id : ℕ)
  | set (id : ℕ) (x : X)
  | present (id : ℕ)

inductive PoolAnswer (X : Type)
  | done
  | removed (count : ℕ)
  | value (x : X)
  | present (b : Bool)

/-- A pool and the stamp of its next block. -/
structure StampedPool (X : Type) where
  pool : WirePool X
  fresh : ℕ

namespace StampedPool

variable [Inhabited X]

def new : StampedPool X := ⟨.new, 1⟩

/-- One call; a call that panics has no answer. -/
def step (s : StampedPool X) : PoolOp X → Option (PoolAnswer X × StampedPool X)
  | .insert first last =>
    (s.pool.insert s.fresh first last).map fun p => (.done, ⟨p, s.fresh + 1⟩)
  | .remove id => (s.pool.remove id).map fun r => (.removed r.1, { s with pool := r.2 })
  | .clear => some (.done, { s with pool := s.pool.clear })
  | .get id => (s.pool.get id).map fun r => (.value r.1, { s with pool := r.2 })
  | .set id x => (s.pool.set id x).map fun p => (.done, { s with pool := p })
  | .present id =>
    let (b, p) := s.pool.present id
    some (.present b, { s with pool := p })

/-- The answers of a run up to the first panic. -/
def run : StampedPool X → List (PoolOp X) → Option (List (PoolAnswer X) × StampedPool X)
  | s, [] => some ([], s)
  | s, op :: ops => do
    let (answer, s) ← s.step op
    let (answers, s) ← run s ops
    some (answer :: answers, s)

end StampedPool

/-! ## The map of ranges -/

/-- The values of the wires from the first wire of each range on. -/
abbrev RangeMap (X : Type) := ℕ → Option (List X)

namespace RangeMap

def empty : RangeMap X := fun _ => none

/-- The range with the greatest first wire up to `id`. -/
def floor (m : RangeMap X) : ℕ → Option (ℕ × List X)
  | 0 => (m 0).map (0, ·)
  | id + 1 =>
    match m (id + 1) with
    | some v => some (id + 1, v)
    | none => m.floor id

/-- The range that has the wire. -/
def find (m : RangeMap X) (id : ℕ) : Option (ℕ × List X) :=
  (m.floor id).filter fun r => id < r.1 + r.2.length

def step [Inhabited X] (m : RangeMap X) : PoolOp X → Option (PoolAnswer X × RangeMap X)
  | .insert first last =>
    if first ≤ last then
      some (.done, Function.update m first (some (List.replicate (last - first + 1) default)))
    else none
  | .remove id => (m id).map fun v => (.removed v.length, Function.update m id none)
  | .clear => some (.done, empty)
  | .get id => do
    let (first, v) ← m.find id
    let x ← v[id - first]?
    some (.value x, m)
  | .set id x => do
    let (first, v) ← m.find id
    some (.done, Function.update m first (some (v.set (id - first) x)))
  | .present id => some (.present (m.find id).isSome, m)

def run [Inhabited X] : RangeMap X → List (PoolOp X) → Option (List (PoolAnswer X) × RangeMap X)
  | m, [] => some ([], m)
  | m, op :: ops => do
    let (answer, m) ← m.step op
    let (answers, m) ← run m ops
    some (answer :: answers, m)

/-- An insertion does not overlap a range of the map. -/
def Fits (m : RangeMap X) : PoolOp X → Prop
  | .insert first last => ∀ id, first ≤ id → id ≤ last → m.find id = none
  | _ => True

/-- No insertion of the run overlaps a range that is there. -/
def NonOverlapping [Inhabited X] : RangeMap X → List (PoolOp X) → Prop
  | _, [] => True
  | m, op :: ops => m.Fits op ∧ ∀ answer m', m.step op = some (answer, m') → NonOverlapping m' ops

/-- Of two ranges the first one ends before the second one starts. -/
def Disjoint (m : RangeMap X) : Prop :=
  ∀ k v j w, m k = some v → m j = some w → k < j → k + v.length ≤ j

end RangeMap

namespace WirePool

/-- The ranges of a pool. -/
def contents (p : WirePool X) : RangeMap X := fun k => (p.blocks k).map Buffer.elems

/-- The cache is a range of the pool, and for the wires of this range the search finds it too. -/
def Coherent (p : WirePool X) : Prop :=
  ∀ c, p.cache = some c → (∃ v, p.blocks c.first = some v ∧ c.last = c.first + v.elems.length - 1 ∧
    c.stamp = v.stamp) ∧ ∀ id, c.first ≤ id → id ≤ c.last → p.lookup id = some c

variable {p : WirePool X}

theorem Ok.coherent (hp : p.Ok) : p.Coherent := fun c hc =>
  ⟨hp.cache c hc, fun _ h0 h1 => Covers.lookup_eq hp ⟨h0, h1, hp.cache c hc⟩⟩

theorem Ok.disjoint_contents (hp : p.Ok) : p.contents.Disjoint := by
  intro k v j w hv hw hlt
  obtain ⟨b, hb, rfl⟩ := Option.map_eq_some_iff.1 hv
  obtain ⟨d, hd, -⟩ := Option.map_eq_some_iff.1 hw
  by_contra hle
  rw [hp.disjoint k b hb j hlt (Nat.lt_of_not_le hle)] at hd
  cases hd

theorem floor_contents (p : WirePool X) (id : ℕ) :
    p.contents.floor id = (floor p.blocks id).map fun b => (b.1, b.2.elems) := by
  induction id with
  | zero =>
    simp only [RangeMap.floor, floor, contents, Option.map_map]
    rfl
  | succ id ih =>
    simp only [RangeMap.floor, floor]
    cases hblock : p.blocks (id + 1) with
    | none => simpa only [contents, hblock, Option.map_none] using ih
    | some v => simp only [contents, hblock, Option.map_some]

theorem find_contents (hp : p.Ok) (id : ℕ) :
    p.contents.find id = (p.lookup id).bind fun c => (p.contents c.first).map (c.first, ·) := by
  unfold RangeMap.find lookup
  rw [floor_contents]
  cases hfloor : floor p.blocks id with
  | none => rfl
  | some b =>
    obtain ⟨k, v⟩ := b
    obtain ⟨hk, hv, -⟩ := floor_eq_some hfloor
    have hpos := hp.pos k v hv
    have hin : (k ≤ id ∧ id ≤ k + v.elems.length - 1) ↔ id < k + v.elems.length := by omega
    simp only [Option.map_some, Option.filter_some, decide_eq_true_eq, hin]
    split_ifs
    · simp only [Option.bind_some, contents, hv, Option.map_some]
    · rfl

theorem moveToCacheIfNecessary_eq (hp : p.Ok) (id : ℕ) :
    match p.lookup id with
    | some c => ∃ q, p.moveToCacheIfNecessary id = some (c, q) ∧ q.blocks = p.blocks ∧ q.Ok
    | none => p.moveToCacheIfNecessary id = none := by
  unfold moveToCacheIfNecessary
  by_cases hin : p.inCache id
  · obtain ⟨c, hcache, hlookup⟩ := lookup_of_inCache hp hin
    rw [if_pos hin, hlookup, hcache]
    exact ⟨p, rfl, rfl, hp⟩
  · rw [if_neg hin]
    cases hlookup : p.lookup id with
    | none => rfl
    | some c => exact ⟨_, rfl, rfl, hp.setCache hlookup⟩

theorem vector_eq (hp : p.Ok) {id : ℕ} {c : Cache} (h : p.lookup id = some c) {q : WirePool X}
    (hq : q.blocks = p.blocks) :
    ∃ elems, q.vector c = some elems ∧ q.blocks c.first = some ⟨c.stamp, elems⟩ ∧
      p.contents.find id = some (c.first, elems) ∧ c.first ≤ id ∧ id < c.first + elems.length := by
  obtain ⟨h0, h1, v, hv, hlast, hstamp⟩ := covers_of_lookup h
  have hv' : q.blocks c.first = some v := by rw [hq, hv]
  refine ⟨v.elems, ?_, by rw [hv', hstamp], ?_, h0, ?_⟩
  · unfold vector
    rw [hv', Option.bind_eq_bind, Option.bind_some, if_pos hstamp.symm]
  · rw [find_contents hp, h, Option.bind_some, contents, hv, Option.map_some, Option.map_some]
  · have hpos := hp.pos _ _ hv
    omega

theorem find_contents_eq_none (hp : p.Ok) {id : ℕ} (h : p.lookup id = none) :
    p.contents.find id = none := by
  rw [find_contents hp, h, Option.bind_none]

theorem contents_congr {q : WirePool X} (h : q.blocks = p.blocks) : q.contents = p.contents := by
  unfold contents
  rw [h]

theorem contents_update {q : WirePool X} {k : ℕ} {v : Option (Buffer X)}
    (h : q.blocks = Function.update p.blocks k v) :
    q.contents = Function.update p.contents k (v.map Buffer.elems) := by
  funext j
  unfold contents
  rw [h]
  by_cases hj : j = k
  · rw [hj, Function.update_self, Function.update_self]
  · rw [Function.update_of_ne hj, Function.update_of_ne hj]

end WirePool

/-! ## One call -/

namespace StampedPool

variable [Inhabited X] {s : StampedPool X}

/-- A call of the pool is the call of its map of ranges. -/
def Simulates (s : StampedPool X) (op : PoolOp X) : Prop :=
  (s.step op).map (fun r => (r.1, r.2.pool.contents)) = s.pool.contents.step op ∧
    ∀ answer s', s.step op = some (answer, s') → s'.pool.Ok

theorem Simulates.of_some {op : PoolOp X} (answer : PoolAnswer X) (s' : StampedPool X)
    (h : s.step op = some (answer, s')) (hok : s'.pool.Ok)
    (hcontents : s.pool.contents.step op = some (answer, s'.pool.contents)) : s.Simulates op := by
  refine ⟨by rw [h, hcontents, Option.map_some], fun answer' s'' h' => ?_⟩
  rw [h] at h'
  obtain ⟨rfl, rfl⟩ := Prod.mk.inj (Option.some.inj h')
  exact hok

theorem Simulates.of_none {op : PoolOp X} (h : s.step op = none)
    (hcontents : s.pool.contents.step op = none) : s.Simulates op := by
  refine ⟨by rw [h, hcontents, Option.map_none], fun answer s' h' => ?_⟩
  rw [h] at h'
  cases h'

theorem simulates_insert (hp : s.pool.Ok) {first last : ℕ}
    (hfits : s.pool.contents.Fits (.insert first last)) : s.Simulates (.insert first last) := by
  by_cases hle : first ≤ last
  · have hfree : ∀ id, first ≤ id → id ≤ last → s.pool.lookup id = none := fun id h0 h1 => by
      by_contra hsome
      obtain ⟨c, hc⟩ := Option.ne_none_iff_exists'.1 hsome
      obtain ⟨elems, -, -, hfind, -⟩ := WirePool.vector_eq hp hc rfl
      rw [hfits id h0 h1] at hfind
      cases hfind
    obtain ⟨q, hq, hok, hblocks, -⟩ := WirePool.insert_eq hp hle hfree s.fresh
    refine Simulates.of_some .done ⟨q, s.fresh + 1⟩ ?_ hok ?_
    · rw [step, hq, Option.map_some]
    · rw [RangeMap.step, if_pos hle, WirePool.contents_update hblocks, Option.map_some]
  · refine Simulates.of_none ?_ ?_
    · rw [step, WirePool.insert, if_neg hle, Option.map_none]
    · rw [RangeMap.step, if_neg hle]

theorem simulates_remove (hp : s.pool.Ok) (id : ℕ) : s.Simulates (.remove id) := by
  cases hblock : s.pool.blocks id with
  | none =>
    refine Simulates.of_none ?_ ?_
    · rw [step, WirePool.remove, hblock, Option.map_none, Option.map_none]
    · rw [RangeMap.step, WirePool.contents, hblock, Option.map_none, Option.map_none]
  | some v =>
    obtain ⟨q, hq, hok, hblocks, -⟩ := WirePool.remove_eq hp hblock
    refine Simulates.of_some (.removed v.elems.length) { s with pool := q } ?_ hok ?_
    · rw [step, hq, Option.map_some]
    · rw [RangeMap.step, WirePool.contents_update hblocks, WirePool.contents, hblock]
      rfl

theorem simulates_clear : s.Simulates .clear :=
  Simulates.of_some .done { s with pool := s.pool.clear } rfl
    WirePool.ok_new rfl

theorem simulates_present (hp : s.pool.Ok) (id : ℕ) : s.Simulates (.present id) := by
  obtain ⟨hanswer, hblocks, hok⟩ := WirePool.present_eq hp id
  refine Simulates.of_some (.present (s.pool.present id).1) { s with pool := (s.pool.present id).2 }
    rfl hok ?_
  rw [RangeMap.step, hanswer, WirePool.contents_congr hblocks, WirePool.find_contents hp]
  cases hlookup : s.pool.lookup id with
  | none => rfl
  | some c =>
    obtain ⟨elems, -, hblock, -⟩ := WirePool.vector_eq hp hlookup rfl
    rw [Option.bind_some, WirePool.contents, hblock, Option.map_some, Option.map_some]
    rfl

theorem simulates_get (hp : s.pool.Ok) (id : ℕ) : s.Simulates (.get id) := by
  have hmove := WirePool.moveToCacheIfNecessary_eq hp id
  cases hlookup : s.pool.lookup id with
  | none =>
    rw [hlookup] at hmove
    refine Simulates.of_none ?_ ?_
    · rw [step, WirePool.get, hmove]
      rfl
    · rw [RangeMap.step, WirePool.find_contents_eq_none hp hlookup]
      rfl
  | some c =>
    rw [hlookup] at hmove
    obtain ⟨q, hq, hblocks, hok⟩ := hmove
    obtain ⟨elems, hvector, -, hfind, hfirst, hlast⟩ := WirePool.vector_eq hp hlookup hblocks
    have hx : elems[id - c.first]? = some elems[id - c.first] := List.getElem?_eq_getElem (by omega)
    refine Simulates.of_some (.value elems[id - c.first]) { s with pool := q } ?_ hok ?_
    · simp only [step, WirePool.get, hq, Option.bind_eq_bind, Option.bind_some, hvector, hx,
        Option.map_some]
    · simp only [RangeMap.step, hfind, Option.bind_eq_bind, Option.bind_some, hx,
        WirePool.contents_congr hblocks]

theorem simulates_set (hp : s.pool.Ok) (id : ℕ) (x : X) : s.Simulates (.set id x) := by
  have hmove := WirePool.moveToCacheIfNecessary_eq hp id
  cases hlookup : s.pool.lookup id with
  | none =>
    rw [hlookup] at hmove
    refine Simulates.of_none ?_ ?_
    · rw [step, WirePool.set, hmove]
      rfl
    · rw [RangeMap.step, WirePool.find_contents_eq_none hp hlookup]
      rfl
  | some c =>
    rw [hlookup] at hmove
    obtain ⟨q, hq, hblocks, hok⟩ := hmove
    obtain ⟨elems, hvector, hblock, hfind, hfirst, hlast⟩ := WirePool.vector_eq hp hlookup hblocks
    let v : Buffer X := ⟨c.stamp, elems.set (id - c.first) x⟩
    have hlt : id - c.first < elems.length := by omega
    refine Simulates.of_some .done { s with pool := q.setBlock c.first v } ?_
      (hok.setBlock hblock rfl (List.length_set ..)) ?_
    · simp only [step, WirePool.set, hq, Option.bind_eq_bind, Option.bind_some, hvector, if_pos hlt,
        Option.map_some]
      rfl
    · have hset : (q.setBlock c.first v).blocks = Function.update s.pool.blocks c.first (some v) := by
        rw [← hblocks]
        rfl
      simp only [RangeMap.step, hfind, Option.bind_eq_bind, Option.bind_some,
        WirePool.contents_update hset, Option.map_some]
      rfl

theorem simulates (hp : s.pool.Ok) (op : PoolOp X) (hfits : s.pool.contents.Fits op) :
    s.Simulates op := by
  cases op with
  | insert first last => exact simulates_insert hp hfits
  | remove id => exact simulates_remove hp id
  | clear => exact simulates_clear
  | get id => exact simulates_get hp id
  | set id x => exact simulates_set hp id x
  | present id => exact simulates_present hp id

theorem run_eq (hp : s.pool.Ok) {ops : List (PoolOp X)}
    (hops : s.pool.contents.NonOverlapping ops) :
    (s.run ops).map (fun r => (r.1, r.2.pool.contents)) = s.pool.contents.run ops ∧
      ∀ answers s', s.run ops = some (answers, s') → s'.pool.Ok := by
  induction ops generalizing s with
  | nil =>
    refine ⟨rfl, fun answers s' h => ?_⟩
    obtain ⟨rfl, rfl⟩ := Prod.mk.inj (Option.some.inj h)
    exact hp
  | cons op ops ih =>
    obtain ⟨hstep, hok⟩ := simulates hp op hops.1
    simp only [run, RangeMap.run, Option.bind_eq_bind]
    rw [← hstep]
    cases hfirst : s.step op with
    | none => exact ⟨rfl, fun answers s' h => by cases h⟩
    | some r =>
      obtain ⟨answer, s₁⟩ := r
      rw [hfirst, Option.map_some] at hstep
      obtain ⟨hrest, hrestOk⟩ := ih (hok answer s₁ hfirst) (hops.2 answer _ hstep.symm)
      simp only [Option.map_some, Option.bind_some]
      rw [← hrest]
      cases hlast : s₁.run ops with
      | none => exact ⟨rfl, fun answers s' h => by cases h⟩
      | some r =>
        obtain ⟨answers, s₂⟩ := r
        refine ⟨rfl, fun answers' s' h => ?_⟩
        obtain ⟨-, rfl⟩ := Prod.mk.inj (Option.some.inj h)
        exact hrestOk answers s₂ hlast

end StampedPool

end EdaBitGen
