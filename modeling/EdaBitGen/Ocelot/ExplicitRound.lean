import EdaBitGen.Ocelot.OtExtension

/-!
# KOS OT in explicit rounds

Every stage is a function of the buffers that its caller exchanges. The allocations that a stage
keeps for the next one are values here. A stage gives a result, an error, or stops the program;
debug assertions stop it as well.
-/

namespace EdaBitGen.Ocelot.ExplicitRound

inductive Staged (α : Type) : Type
  | ok (a : α)
  | error (message : String)
  | panic

def Staged.bind {α β : Type} (x : Staged α) (f : α → Staged β) : Staged β :=
  match x with
  | .ok a => f a
  | .error message => .error message
  | .panic => .panic

instance : Monad Staged where
  pure := .ok
  bind := .bind

@[simp] theorem Staged.ok_bind {α β : Type} (a : α) (f : α → Staged β) :
    (Staged.ok a >>= f) = f a := rfl

/-! ## Buffers -/

/-- The sixteen bytes of a block. -/
def bytesOf (x : Block) : Bytes := (List.range 16).map fun i => x.extractLsb' (8 * i) 8

/-- A slice of the first `n` bytes, and what is behind it. -/
def split (n : ℕ) (buffer : Bytes) : Staged (Bytes × Bytes) :=
  if buffer.length < n then .panic else .ok (buffer.take n, buffer.drop n)

def readBlock (incoming : Bytes) : Staged (Block × Bytes) := do
  let (block, incoming) ← split 16 incoming
  pure (blockAt block 0, incoming)

/-- The block of the coefficients from `k` on. -/
def productBlock (t : TwoBlocks) (k : ℕ) : Block :=
  (BitVec.ofBoolListLE ((List.range 128).map fun i =>
    decide (∃ h : k + i < 256, t ⟨k + i, h⟩ = 1))).setWidth 128

/-- The two blocks of a carry-less product. -/
def toBlocks (t : TwoBlocks) : Block × Block := (productBlock t 0, productBlock t 128)

def ofBlocks (t : Block × Block) : TwoBlocks :=
  fun k => if (k : ℕ) < 128 then coefficient t.1 k else coefficient t.2 (k - 128)

/-! ## The parties -/

/-- Encryption under a key, and the number of blocks that are encrypted together. -/
structure Aes where
  encrypt : Block → Block → Block
  blockCountHint : ℕ
  blockCountHint_pos : 0 < blockCountHint

/-- A hash of 32 bytes. -/
structure Blake3 where
  hash : Bytes → Bytes
  length_hash : ∀ v, (hash v).length = 32

structure AlszSender where
  s : Block
  rngs : List Block

structure AlszReceiver where
  rngs : List (Block × Block)

def alszSender (base : BaseOts) : AlszSender where
  s := base.s_
  rngs := (bits base.s_).zipWith choose base.ks

def alszReceiver (base : BaseOts) : AlszReceiver where
  rngs := base.ks

variable (aes : Aes) (rng : RowRng) (hash : ℕ → Block → Block) (blake3 : Blake3)

/-- Blocks encrypted in turn, from the counter `ctr` on, until `len` bytes are filled. -/
def fillFrom (key : Block) (selector : BitVec 64) (ctr len : ℕ) : Bytes :=
  if _hlen : len = 0 then []
  else
    let bytes := (List.range aes.blockCountHint).flatMap fun i =>
      bytesOf (aes.encrypt key (BitVec.ofNat 64 (ctr + i) ++ selector))
    let toTake := min (aes.blockCountHint * 16) len
    bytes.take toTake ++ fillFrom key selector (ctr + aes.blockCountHint) (len - toTake)
termination_by len
decreasing_by
  have := aes.blockCountHint_pos
  omega

def fillRngWithSelector (key : Block) (selector : BitVec 64) (len : ℕ) : Bytes :=
  fillFrom aes key selector 0 len

def transposePreAllocated (m : Bytes) (nrows ncols : ℕ) : Staged Bytes :=
  let dst : Bytes := List.replicate m.length 0
  if dst.length = nrows * ncols / 8 ∧ m.length = nrows * ncols / 8 ∧ ncols ≠ 0 ∧
      m.length % ncols = 0 then
    .ok (transposeNaiveInplace dst m ncols)
  else .panic

namespace AlszSender

def sendSetupInputBytes (m : ℕ) : ℕ := columns m / 8 * 128

/-- The rows of the generators, one after the other, and the bytes that are left. -/
def setupRows (s : Block) (uLen : ℕ) (selector : BitVec 64) :
    List (Block × ℕ) → Bytes → Staged (Bytes × Bytes)
  | [], incoming => .ok ([], incoming)
  | (key, j) :: rngs, incoming =>
    if incoming.length < uLen then
      .error s!"{uLen} bytes were need for AlszSender::send_setup, but only {incoming.length} remain"
    else do
      let u := incoming.take uLen
      let q := fillRngWithSelector aes key selector uLen
      let b := s.getLsbD j
      let q := if b then xorInplace q u else q
      let (qs, incoming) ← setupRows s uLen selector rngs (incoming.drop uLen)
      pure (q ++ qs, incoming)

def sendSetup (sender : AlszSender) (m : ℕ) (selector : BitVec 64) (incoming : Bytes) :
    Staged Bytes := do
  let nrows := 128
  let ncols := columns m
  let (qs, incoming) ← setupRows aes sender.s (ncols / 8) selector sender.rngs.zipIdx incoming
  if incoming ≠ [] then
    .error s!"{incoming.length} extra bytes were given to AlszSender::send_setup"
  else transposePreAllocated qs nrows ncols

end AlszSender

namespace AlszReceiver

/-- The rows of the generators and those to send, and the part of the buffer that is left. -/
def setupRows (gLen : ℕ) (r : Bytes) (selector : BitVec 64) :
    List (Block × Block) → Bytes → Staged (Bytes × Bytes × Bytes)
  | [], outgoing => .ok ([], [], outgoing)
  | (rng0, rng1) :: rngs, outgoing =>
    if outgoing.length < gLen then
      .error s!"{gLen} bytes were need for AlszReceiver::receive_setup(), but only {outgoing.length} remain"
    else do
      let t := fillRngWithSelector aes rng0 selector gLen
      let g := fillRngWithSelector aes rng1 selector gLen
      let g := xorInplace (xorInplace g t) r
      let (ts, gs, outgoing) ← setupRows gLen r selector rngs (outgoing.drop gLen)
      pure (t ++ ts, g ++ gs, outgoing)

/-- The transposed rows, and what the outgoing buffer holds afterwards. -/
def receiveSetup (receiver : AlszReceiver) (r : Bytes) (m : ℕ) (outgoing : Bytes)
    (selector : BitVec 64) : Staged (Bytes × Bytes) := do
  let nrows := 128
  let ncols := columns m
  let (ts, gs, outgoing) ← setupRows aes (ncols / 8) r selector receiver.rngs outgoing
  if outgoing ≠ [] then
    .error s!"{outgoing.length} extra bytes were given to AlszReceiver::receive_setup"
  else do
    let ts ← transposePreAllocated ts nrows ncols
    pure (ts, gs)

end AlszReceiver

/-! ## The sender -/

def ssp : ℕ := 40

structure KosSenderStage2 where
  incomingCommitment : Bytes
  ourSeed : Block
  qs : Bytes
  ncols : ℕ
  otS : Block

namespace KosSender

def sendIncomingBytes (numInputs : ℕ) : ℕ :=
  let ncols := columns numInputs + 128 + ssp
  AlszSender.sendSetupInputBytes ncols + 32

def sendOutgoingBytes (numInputs : ℕ) : ℕ := 16 + 32 * numInputs

/-- The masked pairs, and the part of the buffer that is left. -/
def sendMessages (s : Block) (qs : Bytes) :
    List ((Block × Block) × ℕ) → Bytes → Staged (Bytes × Bytes)
  | [], outgoing => .ok ([], outgoing)
  | (input, j) :: inputs, outgoing => do
    let q := blockAt qs j
    let y0 := hash j q ^^^ input.1
    let y1 := hash j (q ^^^ s) ^^^ input.2
    let (_, outgoing) ← split 32 outgoing
    let (messages, outgoing) ← sendMessages s qs inputs outgoing
    pure (bytesOf y0 ++ bytesOf y1 ++ messages, outgoing)

/-- The state for the second stage, and what the outgoing buffer holds afterwards. -/
def send (sender : AlszSender) (selector : BitVec 64) (inputs : List (Block × Block))
    (ourSeed : Block) (incoming outgoing : Bytes) : Staged (KosSenderStage2 × Bytes) :=
  let numInputs := inputs.length
  if incoming.length ≠ sendIncomingBytes numInputs then
    .error s!"KosSender::send unexpected incoming_bytes length {incoming.length}"
  else if outgoing.length ≠ sendOutgoingBytes numInputs then
    .error s!"KosSender::send unexpected outgoing length {outgoing.length}"
  else do
    let ncols := columns numInputs + 128 + ssp
    let (setup, incomingCommitment) ← split (AlszSender.sendSetupInputBytes ncols) incoming
    let qs ← sender.sendSetup aes ncols selector setup
    if incomingCommitment.length ≠ 32 then .panic
    else do
      let (_, outgoing) ← split 16 outgoing
      if qs.length < inputs.length * 16 then .panic
      else do
        let (messages, outgoing) ← sendMessages hash sender.s qs inputs.zipIdx outgoing
        if outgoing ≠ [] then .panic
        else pure (⟨incomingCommitment, ourSeed, qs, ncols, sender.s⟩, bytesOf ourSeed ++ messages)

end KosSender

namespace KosSenderStage2

def incomingBytes : ℕ := 16 * 4

def stage2 (stage : KosSenderStage2) (incoming : Bytes) : Staged Unit :=
  if incoming.length ≠ incomingBytes then
    .error s!"Unexpected incoming bytes to KosSenderStage2: {incoming.length}"
  else do
    let seedBytes := incoming.take 16
    let (incomingSeed, incoming) ← readBlock incoming
    let (x, incoming) ← readBlock incoming
    let (t0, incoming) ← readBlock incoming
    let (t1, _) ← readBlock incoming
    if blake3.hash seedBytes ≠ stage.incomingCommitment then
      .error "KosSenderStage2 reciever lied in cointoss"
    else if stage.qs.length ≠ stage.ncols * 16 then .panic
    else
      let chis := Kos.weights rng (stage.ourSeed ^^^ incomingSeed) (stage.qs.length / 16)
      if Kos.senderCheck stage.otS stage.qs chis x ≠ ofBlocks (t0, t1) then
        .error "KosSenderStage2 consistency check failed"
      else pure ()

end KosSenderStage2

/-! ## The receiver -/

structure KosReceiverStage2 where
  ourSeed : Block
  choices : List Bool
  ts : Bytes
  r_ : List Bool

namespace KosReceiver

def receiveOutgoingBytes (nchoices : ℕ) : ℕ := KosSender.sendIncomingBytes nchoices

/-- The state for the second stage, and what the outgoing buffer holds afterwards. The generator
draws the bits for the rows of the check, then the seed. -/
def receive (receiver : AlszReceiver) (selector : BitVec 64) (choices : List Bool) (padding : Bytes)
    (ourSeed : Block) (outgoing : Bytes) : Staged (KosReceiverStage2 × Bytes) :=
  if outgoing.length ≠ receiveOutgoingBytes choices.length then
    .error s!"KosReceiver::receive unexpected outgoing length {outgoing.length}"
  else do
    let m_ := columns choices.length + 128 + ssp
    let r := boolvecToU8vec choices ++ padding
    let (setup, outgoing) ← split (AlszSender.sendSetupInputBytes m_) outgoing
    let (ts, gs) ← receiver.receiveSetup aes r m_ setup selector
    let commitment := blake3.hash (bytesOf ourSeed)
    if outgoing.length ≠ commitment.length then .panic
    else pure (⟨ourSeed, choices, ts, u8vecToBoolvec r⟩, gs ++ commitment)

end KosReceiver

namespace KosReceiverStage2

def outgoingBytes : ℕ := KosSenderStage2.incomingBytes

def incomingBytes (nchoices : ℕ) : ℕ := KosSender.sendOutgoingBytes nchoices

/-- The chosen messages, and the bytes that are left. -/
def receiveMessages (ts : Bytes) : List (Bool × ℕ) → Bytes → Staged (List Block × Bytes)
  | [], incoming => .ok ([], incoming)
  | (b, j) :: choices, incoming =>
    if ts.length < (j + 1) * 16 then .panic
    else do
      let (y0, incoming) ← readBlock incoming
      let (y1, incoming) ← readBlock incoming
      let y := if b then y1 else y0
      let (out, incoming) ← receiveMessages ts choices incoming
      pure ((y ^^^ hash j (blockAt ts j)) :: out, incoming)

/-- The outputs, and what the outgoing buffer holds afterwards. -/
def stage2 (stage : KosReceiverStage2) (incoming outgoing : Bytes) : Staged (List Block × Bytes) :=
  if outgoing.length ≠ outgoingBytes then
    .error s!"KosReceiverStage2::stage2 unexpected outgoing length {outgoing.length}"
  else if incoming.length ≠ incomingBytes stage.choices.length then
    .error s!"KosReceiverStage2::stage2 unexpected incoming length {incoming.length}"
  else do
    let (theirSeed, incoming) ← readBlock incoming
    let (out, incoming) ← receiveMessages hash stage.ts stage.choices.zipIdx incoming
    if incoming ≠ [] then .panic
    else if stage.ts.length < stage.r_.length * 16 then .panic
    else
      let chis := Kos.weights rng (theirSeed ^^^ stage.ourSeed) stage.r_.length
      let (x, t) := Kos.receiverCheck stage.ts stage.r_ chis
      let (t0, t1) := toBlocks t
      pure (out, bytesOf stage.ourSeed ++ bytesOf x ++ bytesOf t0 ++ bytesOf t1)

end KosReceiverStage2

end EdaBitGen.Ocelot.ExplicitRound
