import EdaBitGen.Ocelot.Bits

/-!
# OT extension

The setups of both extensions and the calls that use their rows. The row generators and the hashes are
parameters; the base OTs give the sender one generator of each of the receiver's pairs.
-/

namespace EdaBitGen.Ocelot

abbrev Block : Type := BitVec 128

/-- The block in the sixteen bytes with an index. -/
def blockAt (v : Bytes) (j : ℕ) : Block :=
  (BitVec.ofBoolListLE ((List.range 128).map fun k => getBit v (j * 128 + k))).setWidth 128

/-! ## Carry-less products -/

/-- The two blocks of a product, as the coefficients of a polynomial. -/
abbrev TwoBlocks : Type := Fin 256 → ZMod 2

def coefficient (x : Block) (i : ℕ) : ZMod 2 := if x.getLsbD i then 1 else 0

def clmul (x y : Block) : TwoBlocks := fun k =>
  ∑ i ∈ Finset.HasAntidiagonal.antidiagonal k.val, coefficient x i.1 * coefficient y i.2

/-! ## The parties -/

/-- A generator of bytes from a seed. -/
structure RowRng where
  State : Type
  fromSeed : Block → State
  fillBytes : State → ℕ → Bytes × State
  length_fillBytes : ∀ g n, (fillBytes g n).1.length = n

variable (rng : RowRng)

structure Sender where
  s : List Bool
  s_ : Block
  rngs : List rng.State

structure Receiver where
  rngs : List (rng.State × rng.State)

/-- The number of columns for `m` transfers. -/
def columns (m : ℕ) : ℕ := if m % 8 ≠ 0 then m + (8 - m % 8) else m

namespace Alsz

/-- A row of the sender, from the row that the receiver sent. -/
def senderRow (ncols : ℕ) (b : Bool) (g : rng.State) (u : Bytes) : Bytes × rng.State :=
  let (q, g) := rng.fillBytes g (ncols / 8)
  (xorInplace q (if b then u else List.replicate (ncols / 8) 0), g)

def sendSetup (sender : Sender rng) (us : List Bytes) (m : ℕ) : Option (Bytes × Sender rng) := do
  let nrows := 128
  let ncols := columns m
  let rows := ((sender.s.zip sender.rngs).zip us).map fun r => senderRow rng ncols r.1.1 r.1.2 r.2
  let qs ← transpose (rows.flatMap (·.1)) nrows ncols
  pure (qs, { sender with rngs := rows.map (·.2) })

/-- A row of the receiver, with the row that it sends. -/
def receiverRow (ncols : ℕ) (r : Bytes) (g : rng.State × rng.State) :
    (Bytes × Bytes) × rng.State × rng.State :=
  let (t, g0) := rng.fillBytes g.1 (ncols / 8)
  let (u, g1) := rng.fillBytes g.2 (ncols / 8)
  ((t, xorInplace (xorInplace u t) r), g0, g1)

def receiveSetup (receiver : Receiver rng) (r : Bytes) (m : ℕ) :
    Option (Bytes × List Bytes × Receiver rng) := do
  let nrows := 128
  let ncols := columns m
  let rows := receiver.rngs.map (receiverRow rng ncols r)
  let ts ← transpose (rows.flatMap (·.1.1)) nrows ncols
  pure (ts, rows.map (·.1.2), ⟨rows.map (·.2)⟩)

end Alsz

/-! ## Calls -/

inductive SenderCall
  | send (inputs : List (Block × Block))
  | sendCorrelated (deltas : List Block)
  | sendRandom (m : ℕ)

def SenderCall.count : SenderCall → ℕ
  | send inputs => inputs.length
  | sendCorrelated deltas => deltas.length
  | sendRandom m => m

section Rows

variable (hash : ℕ → Block → Block)

/-- The sender's messages and outputs from its rows. -/
def sendRows (s_ : Block) (qs : Bytes) : SenderCall → List Block × List (Block × Block)
  | .send inputs =>
    (inputs.zipIdx.flatMap fun (input, j) =>
      let q := blockAt qs j
      [hash j q ^^^ input.1, hash j (q ^^^ s_) ^^^ input.2], [])
  | .sendCorrelated deltas =>
    let rows := deltas.zipIdx.map fun (delta, j) =>
      let q := blockAt qs j
      let x0 := hash j q
      let x1 := x0 ^^^ delta
      (hash j (q ^^^ s_) ^^^ x1, x0, x1)
    (rows.map (·.1), rows.map (·.2))
  | .sendRandom m =>
    ([], (List.range m).map fun j =>
      let q := blockAt qs j
      (hash j q, hash j (q ^^^ s_)))

/-- The receiver's outputs from its rows and the messages, and the messages that are left. -/
def receivePairs (ts : Bytes) : List (Bool × ℕ) → List Block → Option (List Block × List Block)
  | [], messages => some ([], messages)
  | (b, j) :: inputs, y0 :: y1 :: messages => do
    let y := if b then y1 else y0
    let (out, messages) ← receivePairs ts inputs messages
    pure ((y ^^^ hash j (blockAt ts j)) :: out, messages)
  | _ :: _, _ => none

def receiveCorrelated (ts : Bytes) : List (Bool × ℕ) → List Block → Option (List Block × List Block)
  | [], messages => some ([], messages)
  | (b, j) :: inputs, y :: messages => do
    let y := if b then y else 0
    let h := hash j (blockAt ts j)
    let (out, messages) ← receiveCorrelated ts inputs messages
    pure ((y ^^^ h) :: out, messages)
  | _ :: _, [] => none

def receiveRows (ts : Bytes) (call : SenderCall) (inputs : List Bool) (messages : List Block) :
    Option (List Block × List Block) :=
  match call with
  | .send _ => receivePairs hash ts inputs.zipIdx messages
  | .sendCorrelated _ => receiveCorrelated hash ts inputs.zipIdx messages
  | .sendRandom _ =>
    some ((List.range inputs.length).map fun j => hash j (blockAt ts j), messages)

end Rows

/-- A call of the sender with the receiver's matching one, and the randomness that both draw. -/
structure Call where
  sender : SenderCall
  count_pos : 0 < sender.count
  inputs : List Bool
  length_inputs : inputs.length = sender.count
  /-- The receiver's bits for the rows of the check. -/
  padding : Bytes
  length_padding : padding.length = (128 + 40) / 8
  senderSeed : Block
  receiverSeed : Block

namespace Kos

/-- The coin toss, with a block of the seed's generator as commitment. -/
def coinToss (senderSeed receiverSeed : Block) : Option (Block × Block) :=
  let com := blockAt (rng.fillBytes (rng.fromSeed senderSeed) 16).1 0
  if blockAt (rng.fillBytes (rng.fromSeed senderSeed) 16).1 0 ≠ com then none
  else some (senderSeed ^^^ receiverSeed, receiverSeed ^^^ senderSeed)

/-- The weights of the check. -/
def weights (seed : Block) : ℕ → List Block
  | n => (go (rng.fromSeed seed) n)
where
  go (g : rng.State) : ℕ → List Block
    | 0 => []
    | n + 1 =>
      let (chi, g) := rng.fillBytes g 16
      blockAt chi 0 :: go g n

/-- The receiver's values for the check. -/
def receiverCheck (ts : Bytes) (r : List Bool) (chis : List Block) : Block × TwoBlocks :=
  ((r.zip chis).zipIdx).foldl (fun acc e =>
    (acc.1 ^^^ (if e.1.1 then e.1.2 else 0), acc.2 + clmul (blockAt ts e.2) e.1.2)) (0, 0)

/-- The sender's side of the check. -/
def senderCheck (s_ : Block) (qs : Bytes) (chis : List Block) (x : Block) : TwoBlocks :=
  (chis.zipIdx.foldl (fun check e => check + clmul (blockAt qs e.2) e.1) 0) + clmul x s_

/-- The sender's check of the receiver's values. -/
def check (s_ : Block) (qs : Bytes) (chis : List Block) (t : Block × TwoBlocks) : Option Unit :=
  if senderCheck s_ qs chis t.1 ≠ t.2 then none else some ()

end Kos

/-! ## Runs -/

inductive Extension
  | alsz
  | kos

/-- The outputs of a call, and the messages that the receiver has not read. -/
structure Outcome where
  senderOut : List (Block × Block)
  receiverOut : List Block
  unread : List Block

variable (hash : ℕ → Block → Block)

/-- The rows of both parties, after the check. -/
def setup (extension : Extension) (sender : Sender rng) (receiver : Receiver rng) (call : Call) :
    Option ((Bytes × Sender rng) × Bytes × Receiver rng) :=
  match extension with
  | .alsz => do
    let r := boolvecToU8vec call.inputs
    let (ts, us, receiver) ← Alsz.receiveSetup rng receiver r call.inputs.length
    let (qs, sender) ← Alsz.sendSetup rng sender us call.sender.count
    pure ((qs, sender), ts, receiver)
  | .kos => do
    let m_ := columns call.inputs.length + 128 + 40
    let r := boolvecToU8vec call.inputs ++ call.padding
    let (ts, us, receiver) ← Alsz.receiveSetup rng receiver r m_
    let ncols := columns call.sender.count + 128 + 40
    let (qs, sender) ← Alsz.sendSetup rng sender us ncols
    let (seed, receiverSeed) ← Kos.coinToss rng call.senderSeed call.receiverSeed
    let r_ := u8vecToBoolvec r
    let t := Kos.receiverCheck ts r_ (Kos.weights rng receiverSeed r_.length)
    Kos.check sender.s_ qs (Kos.weights rng seed ncols) t
    pure ((qs, sender), ts, receiver)

def runCall (extension : Extension) (sender : Sender rng) (receiver : Receiver rng) (call : Call) :
    Option (Outcome × Sender rng × Receiver rng) := do
  let ((qs, sender), ts, receiver) ← setup rng extension sender receiver call
  let (messages, senderOut) := sendRows hash sender.s_ qs call.sender
  let (out, unread) ← receiveRows hash ts call.sender call.inputs messages
  pure (⟨senderOut, out, unread⟩, sender, receiver)

def run (extension : Extension) : Sender rng → Receiver rng → List Call →
    Option (List Outcome × Sender rng × Receiver rng)
  | sender, receiver, [] => some ([], sender, receiver)
  | sender, receiver, call :: calls => do
    let (outcome, sender, receiver) ← runCall rng hash extension sender receiver call
    let (outcomes, sender, receiver) ← run extension sender receiver calls
    pure (outcome :: outcomes, sender, receiver)

/-- The base OTs, with the sender's choice bits. -/
structure BaseOts where
  s_ : Block
  ks : List (Block × Block)
  length_ks : ks.length = 128

def choose {α : Type} (b : Bool) (x : α × α) : α := if b then x.2 else x.1

def bits (s_ : Block) : List Bool := (List.range 128).map s_.getLsbD

def BaseOts.sender (base : BaseOts) : Sender rng where
  s := bits base.s_
  s_ := base.s_
  rngs := ((bits base.s_).zipWith choose base.ks).map rng.fromSeed

def BaseOts.receiver (base : BaseOts) : Receiver rng where
  rngs := base.ks.map fun k => (rng.fromSeed k.1, rng.fromSeed k.2)

end EdaBitGen.Ocelot
