import EdaBitGen.Algebra.Rounding

/-!
# The hash-based programmable PRF

Two parties hash their inputs into the same bins. In each bin the sender hides its programmed values in
a table under an oblivious PRF, and the receiver opens one cell of it. The cipher `encrypt key m`, the
oblivious PRF and the random generator are parameters; a panic or an error is `none`.
-/

namespace EdaBitGen.Ocelot.Kmprt

abbrev Block := BitVec 128

abbrev Block512 := BitVec 512

/-- A random generator. -/
structure Rng where
  State : Type
  genBlock : State → Block × State
  genBlock512 : State → Block512 × State

/-! ## Hashing -/

section Hashing

variable (encrypt : Block → Block → Block)

/-- A block reduced to an index; a remainder by zero panics. -/
def toRange (h : Block) (range : ℕ) : Option ℕ := if range = 0 then none else some (h.toNat % range)

/-- Hash `x` with key `k`, producing a result in the range `[0..range-1]`. -/
def hashInputKeyed (k x : Block) (range : ℕ) : Option ℕ := toRange (encrypt k x ^^^ x) range

/-- The four blocks of `y`. -/
def subBlock (y : Block512) (i : ℕ) : Block := y.extractLsb' (128 * i) 128

/-- One step of `hash_output_keyed`. -/
def compress (k y : Block) : Block := encrypt k y ^^^ y

/-- Hash `y` with key `k`, producing a result in the range `[0..range-1]`. -/
def hashOutput (k : Block) (y : Block512) (range : ℕ) : Option ℕ :=
  toRange ((List.range 4).foldl (fun h i => compress encrypt h (subBlock y i)) k) range

end Hashing

/-- OPPRF parameters. -/
structure Parameters where
  m1 : ℕ
  m2 : ℕ
  beta1 : ℕ
  beta2 : ℕ
  h1 : ℕ
  h2 : ℕ
  deriving DecidableEq

/-- `((n as f32) * c).ceil()` for the number `c` that is `mant / 2 ^ e`. -/
def scaled (n mant e : ℕ) : ℕ :=
  (Rounding.roundBits 24 (Rounding.roundBits 24 n * mant) + 2 ^ e - 1) / 2 ^ e

/-- The factors 1.17, 1.15, 1.14, 1.13, 1.12 and 0.15, 0.16, 0.17 are numbers of 24 bits. -/
def Parameters.new (n : ℕ) : Option Parameters :=
  if n ≤ 2 ^ 12 then some ⟨scaled n 9814671 23, scaled n 10066330 26, 27, 63, 3, 2⟩
  else if n ≤ 2 ^ 14 then some ⟨scaled n 9646899 23, scaled n 10737418 26, 28, 63, 3, 2⟩
  else if n ≤ 2 ^ 16 then some ⟨scaled n 9563013 23, scaled n 10737418 26, 29, 63, 3, 2⟩
  else if n ≤ 2 ^ 20 then some ⟨scaled n 9479127 23, scaled n 11408507 26, 30, 63, 3, 2⟩
  else if n ≤ 2 ^ 24 then some ⟨scaled n 9395241 23, scaled n 11408507 26, 31, 63, 3, 2⟩
  else none

/-- A programmed input and its value. -/
abbrev Point := Block × Block512

/-- What the sender writes in the bins. -/
inductive Msg
  | usize (n : ℕ)
  | block (b : Block)
  | block512 (b : Block512)
  deriving DecidableEq

/-! ## The sender -/

section Sender

variable (encrypt : Block → Block → Block) (rng : Rng) (compute : Block512 → Block → Block512)

/-- One hash of a point into the bins from `offset` on. `hs` are the bins that have it already. -/
def placeKey (m offset : ℕ) (point : Point) (s : List (List Point) × List ℕ) (key : Block) :
    Option (List (List Point) × List ℕ) := do
  let h ← hashInputKeyed encrypt key point.1 m
  if h ∈ s.2 then return s
  else if offset + h < s.1.length then
    return (s.1.modify (offset + h) (· ++ [point]), s.2 ++ [h])
  else none

/-- Place a point in the hash table, once for each hash function. -/
def placePoint (params : Parameters) (hashkeys : List Block) (bins : List (List Point))
    (point : Point) : Option (List (List Point)) := do
  let s ← (hashkeys.take params.h1).foldlM (placeKey encrypt params.m1 0 point) (bins, [])
  let s ← ((hashkeys.drop params.h1).take params.h2).foldlM
    (placeKey encrypt params.m2 params.m1 point) (s.1, [])
  return s.1

def fillBins (params : Parameters) (hashkeys : List Block) (points : List Point) :
    Option (List (List Point)) :=
  points.foldlM (placePoint encrypt params hashkeys) (List.replicate (params.m1 + params.m2) [])

/-- The hashes of the outputs `ys`, as long as they are distinct. -/
def insertAll (v : Block) (m : ℕ) : List ℕ → List Block512 → Option (List ℕ)
  | map, [] => some map
  | map, y :: ys =>
    match hashOutput encrypt v y m with
    | none => none
    | some h => if h ∈ map then none else insertAll v m (map ++ [h]) ys

def N_TABLE_LOOPS : ℕ := 128

/-- The rounds that are left for a table of size `m`. -/
def sampleKey (m : ℕ) (ys : List Block512) : ℕ → Block → rng.State →
    Option (List ℕ) × Block × rng.State
  | 0, v, s => (none, v, s)
  | loops + 1, v, s =>
    match insertAll encrypt v m [] ys with
    | some hs => (some hs, v, s)
    | none =>
      let (v, s) := rng.genBlock s
      sampleKey m ys loops v s

/-- A table size and a key under which the outputs have different cells. -/
structure Layout where
  m : ℕ
  v : Block
  hs : List ℕ

/-- Larger and larger tables; `fuel` bounds how many. -/
def findLayout (increment : ℕ) (ys : List Block512) : ℕ → ℕ → Block → rng.State →
    Option (Layout × rng.State)
  | 0, _, _, _ => none
  | fuel + 1, m, v, s =>
    match sampleKey encrypt rng m ys N_TABLE_LOOPS v s with
    | (some hs, v, s) => some (⟨m, v, hs⟩, s)
    | (none, v, s) => findLayout increment ys fuel (m + increment) v s

/-- Compute the table size for the OPPRF. -/
def tableSize (npoints : ℕ) : ℕ :=
  if npoints ≤ 32 then 32
  else if npoints ≤ 64 then 256
  else 2 ^ Nat.clog 2 (npoints + 2)

/-- One cell of the table, filled when it holds the sentinel. -/
def fillCell (entry : Block512) (s : rng.State) : Block512 × rng.State :=
  if entry = 0 then rng.genBlock512 s else (entry, s)

/-- Fill rest of table with random elements. -/
def fillTable : List Block512 → rng.State → List Block512 × rng.State
  | [], s => ([], s)
  | entry :: table, s =>
    let (entry, s) := fillCell rng entry s
    let (table, s) := fillTable table s
    (entry :: table, s)

/-- What the sender did in a bin: `start` is the generator before the table was filled. -/
structure BinRun where
  layout : Layout
  table : List Block512
  start : rng.State

/-- The cells that the points are placed in. -/
def placeValues (m : ℕ) (hs : List ℕ) (ys : List Block512) (points : List Point) : List Block512 :=
  (hs.zip (ys.zip points)).foldl (fun table c => table.set c.1 (c.2.2.2 ^^^ c.2.1))
    (List.replicate m 0)

def processOprfOutput (fuel : ℕ) (seed : Block512) (points : List Point) (npoints : ℕ)
    (s : rng.State) : Option (BinRun rng × rng.State) :=
  if ¬ (points.map Prod.fst).Nodup then none
  else if npoints < points.length then none
  else do
    let (v, s) := rng.genBlock s
    let ys := points.map fun p => compute seed p.1
    let m := tableSize npoints
    let (layout, s) ← findLayout encrypt rng m ys fuel m v s
    let table := placeValues layout.m layout.hs ys points
    return (⟨layout, table, s⟩, (fillTable rng table s).2)

/-- The table that is sent. -/
def BinRun.filled {rng : Rng} (run : BinRun rng) : List Block512 :=
  (fillTable rng run.table run.start).1

/-- What the sender writes for a bin. -/
def BinRun.messages {rng : Rng} (run : BinRun rng) : List Msg :=
  .usize run.layout.m :: .block run.layout.v :: run.filled.map .block512

/-- Run the one-time OPPRF on each bin, from bin `j` on. -/
def processBins (fuel : ℕ) (params : Parameters) :
    ℕ → List (List Point × Block512) → rng.State → Option (List (BinRun rng) × rng.State)
  | _, [], s => some ([], s)
  | j, (bin, seed) :: rest, s => do
    let beta := if j < params.m1 then params.beta1 else params.beta2
    let (run, s) ← processOprfOutput encrypt rng compute fuel seed bin beta s
    let (runs, s) ← processBins fuel params (j + 1) rest s
    return (run :: runs, s)

/-- Run the OPPRF for `ninputs` inputs with the programmed points, on the keys that the receiver sent
and the seeds of the oblivious PRF. -/
def send (fuel : ℕ) (points : List Point) (ninputs : ℕ) (hashkeys : List Block)
    (seeds : List Block512) (s : rng.State) : Option (List (BinRun rng)) := do
  let params ← Parameters.new ninputs
  let bins ← fillBins encrypt params hashkeys points
  let (runs, _) ← processBins encrypt rng compute fuel params 0 (bins.zip seeds) s
  return runs

end Sender

/-! ## The receiver -/

structure Item where
  entry : Block
  index : ℕ
  hindex : ℕ
  deriving DecidableEq

def N_ATTEMPTS : ℕ := 100

section Receiver

variable (encrypt : Block → Block → Block)

/-- The result of placing an item: the table, with the item that has no bin. -/
abbrev Placing := List (Option Item) × Option Item

/-- The attempts that are left, in the bins from `moffset` on and with the keys from `hoffset` on. -/
def hashItem (hashkeys : List Block) (h hoffset m moffset : ℕ) :
    ℕ → List (Option Item) → Item → Option Placing
  | 0, items, item => some (items, some item)
  | attempts + 1, items, item => do
    let key ← hashkeys[hoffset + item.hindex]?
    let i ← hashInputKeyed encrypt key item.entry m
    match items[moffset + i]? with
    | none => none
    | some none => some (items.set (moffset + i) (some item), none)
    | some (some old) =>
      hashItem hashkeys h hoffset m moffset attempts (items.set (moffset + i) (some item))
        { old with hindex := (old.hindex + 1) % h }

/-- Place an input in the first bins, or else what is left over in the extra bins. -/
def hashInput (params : Parameters) (hashkeys : List Block) (items : List (Option Item))
    (input : Block × ℕ) : Option (List (Option Item)) := do
  match ← hashItem encrypt hashkeys params.h1 0 params.m1 0 N_ATTEMPTS items ⟨input.1, input.2, 0⟩ with
  | (items, none) => return items
  | (items, some left) =>
    match ← hashItem encrypt hashkeys params.h2 params.h1 params.m2 params.m1 N_ATTEMPTS items
      { left with hindex := 0 } with
    | (items, none) => return items
    | (_, some _) => none

def build (params : Parameters) (hashkeys : List Block) (inputs : List Block) :
    Option (List (Option Item)) :=
  inputs.zipIdx.foldlM (hashInput encrypt params hashkeys)
    (List.replicate (params.m1 + params.m2) none)

/-- Read the `m` cells of a table from cell `i` on, with the output so far. -/
def readTable (h : ℕ) : ℕ → ℕ → Block512 → List Msg → Option (Block512 × List Msg)
  | 0, _, output, msgs => some (output, msgs)
  | m + 1, i, output, .block512 entry :: msgs =>
    readTable h m (i + 1) (output ^^^ (if i = h then entry else 0)) msgs
  | _ + 1, _, _, _ => none

/-- Read what the sender wrote for a bin. -/
def readBin (output : Block512) : List Msg → Option (Block512 × List Msg)
  | .usize m :: .block v :: msgs => do
    let h ← hashOutput encrypt v output m
    readTable h m 0 output msgs
  | _ => none

/-- Store the output of a bin that holds an item. -/
def storeOutput (outputs : List Block512) (output : Block512) : Option Item → Option (List Block512)
  | none => some outputs
  | some item => if item.index < outputs.length then some (outputs.set item.index output) else none

/-- The bins in order, with the outputs of the oblivious PRF. -/
def receiveBins : List (Option Item × Block512) → List Block512 → List Msg →
    Option (List Block512 × List Msg)
  | [], outputs, msgs => some (outputs, msgs)
  | (item, output) :: bins, outputs, msgs => do
    let (output, msgs) ← readBin encrypt output msgs
    let outputs ← storeOutput outputs output item
    receiveBins bins outputs msgs

/-- Run the OPPRF on the inputs, with the table that was built and the outputs of the oblivious PRF. -/
def receive (items : List (Option Item)) (oprfOutputs : List Block512) (ninputs : ℕ)
    (msgs : List Msg) : Option (List Block512 × List Msg) :=
  receiveBins encrypt (items.zip oprfOutputs) (List.replicate ninputs 0) msgs

end Receiver

/-- `compute` of the KKRT sender, with its code and its secret `s`. -/
def kkrtCompute (code : Block → Block512) (s : Block512) (seed : Block512) (input : Block) :
    Block512 := (code input &&& s) ^^^ seed

end EdaBitGen.Ocelot.Kmprt
