import EdaBitGen.Svole.SinglePoint

/-!
# Extension of correlations

The parties hold a stock of base correlations.  A call uses some of them for the single-point
protocol and as the vector that the linear code encodes, puts the first of its results back into the
stock, and returns the others.  A duplicate starts with the results of a call as its stock.
-/

namespace EdaBitGen

/-! ## Parameters -/

structure LpnParams where
  weight : ℕ
  cols : ℕ
  rows : ℕ

def lpnSetupExtrasmall : LpnParams := ⟨600, 2_400, 1_220⟩

def lpnExtendExtrasmall : LpnParams := ⟨600, 2_400, 1_220⟩

def lpnSetupSmall : LpnParams := ⟨600, 9_600, 1_220⟩

def lpnExtendSmall : LpnParams := ⟨2_600, 166_400, 5_060⟩

def lpnSetupMedium : LpnParams := ⟨2_600, 166_400, 5_060⟩

def lpnExtendMedium : LpnParams := ⟨4_965, 10_168_320, 158_000⟩

def lpnSetupLarge : LpnParams := ⟨2_508, 642_048, 19_870⟩

def lpnExtendLarge : LpnParams := ⟨1_319, 10_805_248, 589_760⟩

/-- The parameters for the setup with those for the extension. -/
def offered : List (LpnParams × LpnParams) :=
  [(lpnSetupExtrasmall, lpnExtendExtrasmall), (lpnSetupSmall, lpnExtendSmall),
    (lpnSetupMedium, lpnExtendMedium), (lpnSetupLarge, lpnExtendLarge)]

/-- The number of non-zero entries in each column of the matrix. -/
def lpnParamsD : ℕ := 10

/-- The number of correlations that a call with these parameters uses. -/
def computeNumSaved (r : ℕ) (params : LpnParams) : ℕ :=
  params.rows + params.weight + r

/-! ## The matrix -/

/-- The generator that the parties share.  Drawing below a bound, it comes to each value again. -/
structure LpnRng (F : Type) where
  State : Type
  sample : ℕ → State → ℕ × State
  sample_lt : ∀ {n : ℕ}, 0 < n → ∀ s, (sample n s).1 < n
  fresh : ∀ (n : ℕ) (s : State) (taken : List ℕ), taken.length < n →
    ∃ k, (sample n ((fun s => (sample n s).2)^[k] s)).1 ∉ taken
  randomNonzero : State → F × State
  fork : State → State × State

namespace LpnRng

variable {F : Type} (rng : LpnRng F)

/-- Draws until the index is not taken; with all of them taken the loop does not end. -/
def nextIndex (rows : ℕ) (taken : List ℕ) (s : rng.State) : Option (ℕ × rng.State) :=
  if h : taken.length < rows then
    some (rng.sample rows ((fun s => (rng.sample rows s).2)^[Nat.find (rng.fresh rows s taken h)] s))
  else none

def indices (rows : ℕ) : ℕ → List ℕ → rng.State → Option (List ℕ × rng.State)
  | 0, taken, s => some (taken, s)
  | d + 1, taken, s => do
    let (j, s) ← rng.nextIndex rows taken s
    indices rows d (taken ++ [j]) s

/-- The rows of the entries of one column, with the entries. -/
def lpnMtxIndices (rows : ℕ) (s : rng.State) : Option (List (ℕ × F) × rng.State) := do
  let (js, s) ← rng.indices rows lpnParamsD [] s
  some (js.foldl (fun acc j =>
    let (a, s) := rng.randomNonzero acc.2
    (acc.1 ++ [(j, a)], s)) ([], s))

end LpnRng

variable {F FE : Type} [Field F] [Field FE] [Algebra F FE]

/-- The sender's results: for each single-point result the encoded pair added to it. -/
def SvoleSender.encode (rng : LpnRng F) (rows : ℕ) (base : List (F × FE)) :
    List (F × FE) → rng.State → Option (List (F × FE) × rng.State)
  | [], s => some ([], s)
  | (e, c) :: uws, s => do
    let (indices, s) ← rng.lpnMtxIndices rows s
    if indices.all fun ja => ja.1 < base.length then
      let xz := indices.foldl (fun acc ja =>
        (acc.1 + (base.getD ja.1 0).1 * ja.2, acc.2 + ja.2 • (base.getD ja.1 0).2)) (e, c)
      let (rest, s) ← SvoleSender.encode rng rows base uws s
      some (xz :: rest, s)
    else none

def SvoleReceiver.encode (rng : LpnRng F) (rows : ℕ) (base : List FE) :
    List FE → rng.State → Option (List FE × rng.State)
  | [], s => some ([], s)
  | b :: vs, s => do
    let (indices, s) ← rng.lpnMtxIndices rows s
    if indices.all fun ja => ja.1 < base.length then
      let y := b + (indices.map fun ja => ja.2 • base.getD ja.1 0).sum
      let (rest, s) ← SvoleReceiver.encode rng rows base vs s
      some (y :: rest, s)
    else none

/-! ## The parties -/

structure SvoleSender (rng : LpnRng F) (FE : Type) where
  baseVoles : List (F × FE)
  lpnRng : rng.State

structure SvoleReceiver (rng : LpnRng F) (FE : Type) where
  baseVoles : List FE
  lpnRng : rng.State

/-- What the calls of both parties are made with. -/
structure Svole (F FE : Type) [Field F] [Field FE] [Algebra F FE] where
  ext : Extension F FE
  tree : Tree FE
  rng : LpnRng F
  delta : FE
  lpnSetup : LpnParams
  lpnExtend : LpnParams

namespace Svole

variable [DecidableEq F] [DecidableEq FE] (v : Svole F FE)

abbrev Parties := SvoleSender v.rng FE × SvoleReceiver v.rng FE

/-- The number of base correlations that a call uses. -/
def used (params : LpnParams) : ℕ := computeNumSaved v.ext.degree params

/-- One call of both parties: their outputs, and the parties with their new stocks. -/
def internal (params : LpnParams) (numSaved : ℕ) (coins : Coins F FE) (p : v.Parties) :
    Option ((List (F × FE) × List FE) × v.Parties) := do
  let used := v.used params
  if used ≤ p.1.baseVoles.length ∧ used ≤ p.2.baseVoles.length ∧ numSaved ≤ params.cols then
    let slice := params.weight + v.ext.degree
    let (uws, vs) ← sps v.ext v.tree v.delta (params.cols / params.weight) coins
      ((p.1.baseVoles.drop params.rows).take slice) ((p.2.baseVoles.drop params.rows).take slice)
    let (xzs, s) ← SvoleSender.encode v.rng params.rows p.1.baseVoles uws p.1.lpnRng
    let (ys, r) ← SvoleReceiver.encode v.rng params.rows p.2.baseVoles vs p.2.lpnRng
    some ((xzs.drop numSaved, ys.drop numSaved),
      (⟨xzs.take numSaved ++ p.1.baseVoles.drop used, s⟩,
        ⟨ys.take numSaved ++ p.2.baseVoles.drop used, r⟩))
  else none

def send (coins : Coins F FE) (p : v.Parties) :
    Option ((List (F × FE) × List FE) × v.Parties) :=
  v.internal v.lpnExtend (v.used v.lpnExtend) coins p

/-- The duplicate, and the parties after the call. -/
def duplicate (coins : Coins F FE) (p : v.Parties) : Option (v.Parties × v.Parties) := do
  let (out, p) ← v.internal v.lpnSetup (v.used v.lpnSetup) coins p
  let (newS, s) := v.rng.fork p.1.lpnRng
  let (newR, r) := v.rng.fork p.2.lpnRng
  some ((⟨out.1, newS⟩, ⟨out.2, newR⟩), ({ p.1 with lpnRng := s }, { p.2 with lpnRng := r }))

/-! ## Runs -/

/-- All pairs of parties that there are, and what they have put out. -/
structure Pool where
  parties : List v.Parties
  outputs : List (List (F × FE) × List FE)

inductive Call (F FE : Type) [Zero F]
  | send (i : ℕ) (coins : Coins F FE)
  | duplicate (i : ℕ) (coins : Coins F FE)

/-- The pool after both parties have initialised from the base protocol. -/
def init (coins : Coins F FE) (base : List (F × FE)) (keys : List FE) (s : v.rng.State) :
    Option v.Pool := do
  let (out, p) ← v.internal v.lpnSetup 0 coins (⟨base, s⟩, ⟨keys, s⟩)
  some ⟨[({ p.1 with baseVoles := out.1 }, { p.2 with baseVoles := out.2 })], []⟩

/-- One call in the same order on both sides. -/
def step (pool : v.Pool) : Call F FE → Option v.Pool
  | .send i coins => do
    let (out, p) ← v.send coins (← pool.parties[i]?)
    some ⟨pool.parties.set i p, pool.outputs ++ [out]⟩
  | .duplicate i coins => do
    let (new, p) ← v.duplicate coins (← pool.parties[i]?)
    some { pool with parties := pool.parties.set i p ++ [new] }

def run (pool : v.Pool) (calls : List (Call F FE)) : Option v.Pool :=
  calls.foldlM v.step pool

/-- The calls are made on parties that exist, `k` in the beginning. -/
def InRange : ℕ → List (Call F FE) → Prop
  | _, [] => True
  | k, .send i _ :: calls => i < k ∧ InRange k calls
  | k, .duplicate i _ :: calls => i < k ∧ InRange (k + 1) calls

/-- Each stock is enough for the next call, whichever it is, and all outputs are correlated. -/
structure Good (pool : v.Pool) : Prop where
  enough : ∀ p ∈ pool.parties, ∀ params ∈ [v.lpnSetup, v.lpnExtend],
    v.used params ≤ p.1.baseVoles.length ∧ v.used params ≤ p.2.baseVoles.length
  correlated : ∀ out ∈ pool.outputs, VoleCorrelated v.delta out.1 out.2

/-- No call of the run fails, and the pool is good from its start on. -/
def Sound (start : Option v.Pool) (calls : List (Call F FE)) : Prop :=
  ∀ n ≤ calls.length, ∃ pool, start.bind (v.run · (calls.take n)) = some pool ∧ v.Good pool

end Svole

end EdaBitGen
