import EdaBitGen.Edabits.Conversion

/-!
# Edabits shared between two peers

Every value is the sum of the two peers' shares, and each peer holds the key of the other's share.
The peers turn private edabits into global ones: an adder over shared triples adds the bits, and
the final carry, converted with a shared dabit, corrects the sum of the field values.
-/

namespace EdaBitGen

open Interaction Party

/-- The first peer runs its outbound direction first, the second one its inbound direction. -/
inductive PeerRole where
  | first
  | second
deriving DecidableEq

/-- A share of this peer, and the key of the other peer's share. -/
structure AuthenticatedShare (PF FE : Type) where
  localAuth : MacProver PF FE
  remoteAuth : MacVerifier FE

abbrev BitShare (K : Type) := AuthenticatedShare F2 K

abbrev FieldShare (p : ℕ) := AuthenticatedShare (ZMod p) (ZMod p)

structure SharedEdabit (K : Type) (p : ℕ) where
  bits : List (BitShare K)
  value : FieldShare p

/-- An edabit of this peer. -/
structure PrivateEdabit (K : Type) (p : ℕ) where
  shared : SharedEdabit K p

structure SharedBitTriple (K : Type) where
  a : BitShare K
  b : BitShare K
  c : BitShare K

structure SharedDabit (K : Type) (p : ℕ) where
  bit : BitShare K
  value : FieldShare p

/-- Both directions of the conversion protocol, over the commitments of the shares. -/
structure MpcPeer (K : Type) (p : ℕ) where
  localConv : ProverConv K (ZMod p)
  remoteConv : VerifierConv K (ZMod p)

variable {M D G K σ PF FE : Type} {p : ℕ} [Fact p.Prime] [Field K] [Algebra F2 K]
  [Field PF] [Field FE] [Algebra PF FE]

namespace MpcPeer

def outbound : Lens (MpcPeer K p) (ProverConv K (ZMod p)) where
  get := localConv
  set t s := { s with localConv := t }
  get_set _ _ := rfl
  set_get _ := rfl
  set_set _ _ _ := rfl

def inbound : Lens (MpcPeer K p) (VerifierConv K (ZMod p)) where
  get := remoteConv
  set t s := { s with remoteConv := t }
  get_set _ _ := rfl
  set_get _ := rfl
  set_set _ _ _ := rfl

end MpcPeer

open MpcPeer

/-! ## Shares -/

namespace AuthenticatedShare

/-- `zero_bit_share` and `zero_field_share`. -/
def zero : AuthenticatedShare PF FE := ⟨⟨0, 0⟩, ⟨0⟩⟩

def add (lhs rhs : AuthenticatedShare PF FE) : AuthenticatedShare PF FE :=
  ⟨FComProver.add lhs.localAuth rhs.localAuth, FComVerifier.add lhs.remoteAuth rhs.remoteAuth⟩

def neg (share : AuthenticatedShare PF FE) : AuthenticatedShare PF FE :=
  ⟨FComProver.neg share.localAuth, FComVerifier.neg share.remoteAuth⟩

def multConst (cst : PF) (share : AuthenticatedShare PF FE) : AuthenticatedShare PF FE :=
  ⟨FComProver.affineMultCst cst share.localAuth, FComVerifier.affineMultCst cst share.remoteAuth⟩

/-- The first peer adds the constant to its share, the second one to the key. -/
def addConst [DecidableEq PF] (role : PeerRole) (remote : FComVerifier FE)
    (share : AuthenticatedShare PF FE) (cst : PF) : AuthenticatedShare PF FE :=
  if cst = 0 then share
  else match role with
    | .first => { share with localAuth := FComProver.affineAddCst cst share.localAuth }
    | .second => { share with remoteAuth := remote.affineAddCst cst share.remoteAuth }

end AuthenticatedShare

section Field

variable [CanonicalSerialize M PF] (L : Lens σ (FComProver PF FE)) (R : Lens σ (FComVerifier FE))

/-- Share values with the other peer, whose shares are `mask value share`. -/
def shareOwnedValues [Random D PF] (mask : PF → PF → PF) (values : List PF) :
    Party M (Stream' D) σ (List (AuthenticatedShare PF FE)) := do
  let localShares ← values.mapM fun _ => random PF
  let remoteShares := List.zipWith mask values localShares
  let localMacs ← zoom L (FComProver.input localShares)
  writeSerializableSeq remoteShares
  flush
  let remoteAuth ← zoom R (FComVerifier.input PF values.length)
  pure (List.zipWith .mk (List.zipWith .mk localShares localMacs) remoteAuth)

def receiveSharedValues (num : ℕ) : Party M G σ (List (AuthenticatedShare PF FE)) := do
  let remoteAuth ← zoom R (FComVerifier.input PF num)
  let localShares : List PF ← readSerializableSeq num
  let localMacs ← zoom L (FComProver.input localShares)
  flush
  pure (List.zipWith .mk (List.zipWith .mk localShares localMacs) remoteAuth)

def openSharedBatch [DecidableEq FE] [CanonicalSerialize M FE] [Random D FE] (C : Primitives M D)
    (role : PeerRole) (shares : List (AuthenticatedShare PF FE)) :
    Party M G σ (List PF) := do
  if shares.isEmpty then
    pure []
  else
    let localBatch := shares.map AuthenticatedShare.localAuth
    let remoteBatch := shares.map AuthenticatedShare.remoteAuth
    match role with
    | .first => do
      zoom L (FComProver.openMacs C localBatch)
      let remoteValues ← zoom R (FComVerifier.openMacs PF C remoteBatch)
      pure (List.zipWith (fun a b => a.value + b) localBatch remoteValues)
    | .second => do
      let remoteValues ← zoom R (FComVerifier.openMacs PF C remoteBatch)
      zoom L (FComProver.openMacs C localBatch)
      pure (List.zipWith (fun a b => a.value + b) localBatch remoteValues)

def openAuthenticatedShare [DecidableEq FE] [CanonicalSerialize M FE] [Random D FE]
    (C : Primitives M D) (role : PeerRole) (share : AuthenticatedShare PF FE) : Party M G σ PF :=
  match role with
  | .first => do
    zoom L (FComProver.openMacs C [share.localAuth])
    let remoteValue ← zoom R (FComVerifier.openMacs PF C [share.remoteAuth])
    pure (share.localAuth.value + (← index remoteValue 0))
  | .second => do
    let remoteValue ← zoom R (FComVerifier.openMacs PF C [share.remoteAuth])
    zoom L (FComProver.openMacs C [share.localAuth])
    pure (share.localAuth.value + (← index remoteValue 0))

end Field

/-! ## The operations of a peer -/

namespace MpcPeer

variable [FiniteField F2 K] [DecidableEq K] [CanonicalSerialize M F2] [CanonicalSerialize M K]
  [CanonicalSerialize M (ZMod p)] [CanonicalSerialize M Block] [Random D F2] [Random D K]
  [Random D (ZMod p)] [Random D Block] [GenRange D] (C : Primitives M D) (role : PeerRole)

def openSharedBitBatch (shares : List (BitShare K)) : Party M G (MpcPeer K p) (List F2) :=
  openSharedBatch (outbound.comp ProverConv.f2) (inbound.comp VerifierConv.f2) C role shares

def shareOwnedF2Values (values : List F2) : Party M (Stream' D) (MpcPeer K p) (List (BitShare K)) :=
  shareOwnedValues (outbound.comp ProverConv.f2) (inbound.comp VerifierConv.f2) (· + ·) values

def receiveSharedF2Values (num : ℕ) : Party M G (MpcPeer K p) (List (BitShare K)) :=
  receiveSharedValues (outbound.comp ProverConv.f2) (inbound.comp VerifierConv.f2) num

def shareOwnedFeValues (values : List (ZMod p)) :
    Party M (Stream' D) (MpcPeer K p) (List (FieldShare p)) :=
  shareOwnedValues (outbound.comp ProverConv.fe) (inbound.comp VerifierConv.fe) (· - ·) values

def receiveSharedFeValues (num : ℕ) : Party M G (MpcPeer K p) (List (FieldShare p)) :=
  receiveSharedValues (outbound.comp ProverConv.fe) (inbound.comp VerifierConv.fe) num

/-- What the first peer does with the checked triples. -/
def shareBitTriples (values : List (F2 × F2 × F2)) :
    Party M (Stream' D) (MpcPeer K p) (List (SharedBitTriple K)) := do
  let aShared ← shareOwnedF2Values (values.map fun t => t.1)
  let bShared ← shareOwnedF2Values (values.map fun t => t.2.1)
  let cShared ← shareOwnedF2Values (values.map fun t => t.2.2)
  pure (List.zipWith (fun ab c => ⟨ab.1, ab.2, c⟩) (aShared.zip bShared) cShared)

def receiveBitTriples (num : ℕ) : Party M G (MpcPeer K p) (List (SharedBitTriple K)) := do
  let aShared ← receiveSharedF2Values num
  let bShared ← receiveSharedF2Values num
  let cShared ← receiveSharedF2Values num
  pure (List.zipWith (fun ab c => ⟨ab.1, ab.2, c⟩) (aShared.zip bShared) cShared)

def generateCheckedSharedBitTriples (num : ℕ) :
    Party M (Stream' D) (MpcPeer K p) (List (SharedBitTriple K)) := do
  if num = 0 then
    pure []
  else match role with
    | .first => do
      let triples ← zoom outbound (ProverConv.randomTriples num)
      zoom outbound (zoom ProverConv.f2 (FComProver.quicksilverCheckMultiply triples))
      shareBitTriples (triples.map fun t => (t.1.value, t.2.1.value, t.2.2.value))
    | .second => do
      let triples ← zoom inbound (VerifierConv.randomTriples num)
      zoom inbound (zoom VerifierConv.f2 (FComVerifier.quicksilverCheckMultiply F2 triples))
      receiveBitTriples num

/-- What the first peer does with the checked dabits. -/
def shareDabits (values : List (F2 × ZMod p)) :
    Party M (Stream' D) (MpcPeer K p) (List (SharedDabit K p)) := do
  let sharedBits ← shareOwnedF2Values (values.map Prod.fst)
  let sharedValues ← shareOwnedFeValues (values.map Prod.snd)
  pure (List.zipWith SharedDabit.mk sharedBits sharedValues)

def receiveDabits (num : ℕ) : Party M G (MpcPeer K p) (List (SharedDabit K p)) := do
  let sharedBits ← receiveSharedF2Values num
  let sharedValues ← receiveSharedFeValues num
  pure (List.zipWith SharedDabit.mk sharedBits sharedValues)

def generateCheckedSharedDabits (num : ℕ) :
    Party M (Stream' D) (MpcPeer K p) (List (SharedDabit K p)) := do
  if num = 0 then
    pure []
  else match role with
    | .first => do
      let dabits ← zoom outbound (ProverConv.randomDabits num)
      zoom outbound (ProverConv.fdabit C dabits)
      shareDabits (dabits.map fun d => (d.bit.value, d.value.value))
    | .second => do
      let dabits ← zoom inbound (VerifierConv.randomDabits num)
      zoom inbound (VerifierConv.fdabit C dabits)
      receiveDabits num

/-- The product of two bits that are open when masked by the triple. -/
def product (remote : FComVerifier K) (triple : SharedBitTriple K) (d e : F2) : BitShare K :=
  let product := triple.c
  let product := if d = 1 then product.add triple.b else product
  let product := if e = 1 then product.add triple.a else product
  if d * e = 1 then product.addConst role remote 1 else product

def multiplySharedBits (lhs rhs : List (BitShare K)) (triples : List (SharedBitTriple K)) :
    Party M G (MpcPeer K p) (List (BitShare K)) := do
  let dMasks := List.zipWith (fun x triple => AuthenticatedShare.add x triple.a) lhs triples
  let eMasks := List.zipWith (fun y triple => AuthenticatedShare.add y triple.b) rhs triples
  let dValues ← openSharedBitBatch C role dMasks
  let eValues ← openSharedBitBatch C role eMasks
  let self ← get
  pure (List.zipWith (fun triple de => product role self.remoteConv.fcomF2 triple de.1 de.2) triples
    (dValues.zip eValues))

/-- Position `bitIdx` of the addition: the carries and the bits of each sum so far. -/
def addPosition (lhs rhs : List (SharedEdabit K p)) (triples : List (SharedBitTriple K))
    (acc : List (BitShare K) × List (List (BitShare K))) (bitIdx : ℕ) :
    Party M G (MpcPeer K p) (List (BitShare K) × List (List (BitShare K))) := do
  let num := lhs.length
  let x ← lhs.mapM fun edabit => index edabit.bits bitIdx
  let y ← (← slice rhs 0 num).mapM fun edabit => index edabit.bits bitIdx
  let and1 := List.zipWith AuthenticatedShare.add x acc.1
  let and2 := List.zipWith AuthenticatedShare.add y acc.1
  let sum := List.zipWith AuthenticatedShare.add and1 y
  let triples ← slice triples (bitIdx * num) (bitIdx * num + num)
  let andResults ← multiplySharedBits C role and1 and2 triples
  pure (List.zipWith AuthenticatedShare.add acc.1 andResults,
    List.zipWith (fun bits b => bits ++ [b]) acc.2 sum)

def addPrivateBitContributions (lhs rhs : List (SharedEdabit K p))
    (triples : List (SharedBitTriple K)) :
    Party M G (MpcPeer K p) (List (List (BitShare K)) × List (BitShare K)) := do
  if lhs.isEmpty then
    pure ([], [])
  else
    let bitSize := (← index lhs 0).bits.length
    let acc ← (List.range bitSize).foldlM (addPosition C role lhs rhs triples)
      (List.replicate lhs.length .zero, List.replicate lhs.length [])
    pure (acc.2, acc.1)

def convertSharedBitsToField (bits : List (BitShare K)) (dabits : List (SharedDabit K p)) :
    Party M G (MpcPeer K p) (List (FieldShare p)) := do
  let maskedBits := List.zipWith (fun bit dabit => AuthenticatedShare.add bit dabit.bit) bits dabits
  let openedMasks ← openSharedBitBatch C role maskedBits
  let self ← get
  pure (List.zipWith (fun dabit mask =>
    if mask = 0 then dabit.value
    else dabit.value.neg.addConst role self.remoteConv.fcomFe 1) dabits openedMasks)

def sumPrivateArithmeticShares (privateEdabits : List (PrivateEdabit K p))
    (peerPrivateEdabits : List (SharedEdabit K p)) : List (FieldShare p) :=
  List.zipWith (fun ours theirs => ours.shared.value.add theirs.value) privateEdabits
    peerPrivateEdabits

/-- Each sum less `2 ^ bitSize` times the carry. -/
def applyOverflowCorrection (arithmeticSums carryFieldShares : List (FieldShare p))
    (bitSize : ℕ) : List (FieldShare p) :=
  List.zipWith (fun sum carry => sum.add (carry.multConst (-powerTwo bitSize))) arithmeticSums
    carryFieldShares

def assembleGlobalEdabits (bitShares : List (List (BitShare K)))
    (valueShares : List (FieldShare p)) : List (SharedEdabit K p) :=
  List.zipWith SharedEdabit.mk bitShares valueShares

/-- The combination, once the triples and the dabits are shared. -/
def combineWithShared (privateEdabits : List (PrivateEdabit K p))
    (peerPrivateEdabits : List (SharedEdabit K p)) (bitSize : ℕ)
    (sharedTriples : List (SharedBitTriple K)) (sharedDabits : List (SharedDabit K p)) :
    Party M G (MpcPeer K p) (List (SharedEdabit K p)) := do
  let ownPrivate := privateEdabits.map PrivateEdabit.shared
  let sums ← match role with
    | .first => addPrivateBitContributions C role ownPrivate peerPrivateEdabits sharedTriples
    | .second => addPrivateBitContributions C role peerPrivateEdabits ownPrivate sharedTriples
  let carryFieldShares ← convertSharedBitsToField C role sums.2 sharedDabits
  let arithmeticSums := sumPrivateArithmeticShares privateEdabits peerPrivateEdabits
  pure (assembleGlobalEdabits sums.1
    (applyOverflowCorrection arithmeticSums carryFieldShares bitSize))

def combinePrivateIntoGlobalEdabits (privateEdabits : List (PrivateEdabit K p))
    (peerPrivateEdabits : List (SharedEdabit K p)) :
    Party M (Stream' D) (MpcPeer K p) (List (SharedEdabit K p)) := do
  if privateEdabits.isEmpty then
    pure []
  else
    let bitSize := (← index privateEdabits 0).shared.bits.length
    let num := privateEdabits.length
    let sharedTriples ← generateCheckedSharedBitTriples role (num * bitSize)
    let sharedDabits ← generateCheckedSharedDabits C role num
    combineWithShared C role privateEdabits peerPrivateEdabits bitSize sharedTriples sharedDabits

def openGlobalEdabits (globalEdabits : List (SharedEdabit K p)) :
    Party M G (MpcPeer K p) (List (List F2 × ZMod p)) :=
  globalEdabits.mapM fun edabit => do
    let bits ← edabit.bits.mapM fun bit => openAuthenticatedShare
      (outbound.comp ProverConv.f2) (inbound.comp VerifierConv.f2) C role bit
    let value ← openAuthenticatedShare
      (outbound.comp ProverConv.fe) (inbound.comp VerifierConv.fe) C role edabit.value
    pure (bits, value)

end MpcPeer

end EdaBitGen
