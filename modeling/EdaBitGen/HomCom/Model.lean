import EdaBitGen.Scuttlebutt

/-!
# Homomorphic commitments

The commitment functionality of a prover and a verifier with a global key `Δ`.  A value `x` of the
prime field is committed to as `MacProver(x, m)` and `MacVerifier(k)` with `m = k + Δ x`; random
commitments come from pools of VOLE correlations.
-/

namespace EdaBitGen

open Interaction Party

/-- The prover's side of a MAC: the value and its MAC. -/
structure MacProver (PF FE : Type) where
  value : PF
  mac : FE
deriving DecidableEq

/-- The verifier's side of a MAC: the key. -/
structure MacVerifier (FE : Type) where
  mac : FE
deriving DecidableEq

instance {PF FE : Type} [Zero PF] [Zero FE] : Inhabited (MacProver PF FE) := ⟨⟨0, 0⟩⟩

instance {FE : Type} [Zero FE] : Inhabited (MacVerifier FE) := ⟨⟨0⟩⟩

/-- The voles that one VOLE extension appends: there is at least one. -/
abbrev Batch (α : Type) := {voles : List α // voles ≠ []}

structure FComStats where
  numVolesUsed : ℕ := 0
  numVoleExtensionsPerformed : ℕ := 0

/-- One side's end of the VOLE extension, the voles not yet used, the last of which is used next,
and the statistics. -/
structure Pool (α : Type) where
  svole : Stream' (Batch α)
  voles : List α
  stats : FComStats

structure FComProver (PF FE : Type) where
  pool : Pool (MacProver PF FE)

structure FComVerifier (FE : Type) where
  delta : FE
  pool : Pool (MacVerifier FE)

/-! ## Pools -/

namespace Pool

variable {α : Type}

/-- Append the next batch of the VOLE extension. -/
def extend (p : Pool α) : Pool α where
  svole := p.svole.tail
  voles := p.voles ++ p.svole.head.1
  stats := { p.stats with
    numVoleExtensionsPerformed := p.stats.numVoleExtensionsPerformed + 1 }

/-- Count one more vole in the statistics. -/
def countVole (p : Pool α) : Pool α :=
  { p with stats := { p.stats with numVolesUsed := p.stats.numVolesUsed + 1 } }

/-- Take the last vole, when there is one. -/
def pop (p : Pool α) : Option α × Pool α :=
  (p.voles.getLast?, { p with voles := p.voles.dropLast })

def volesAvailable (p : Pool α) : ℕ := p.voles.length

def volesClear (p : Pool α) : Pool α := { p with voles := [] }

theorem lt_length_voles_extend (p : Pool α) : p.voles.length < p.extend.voles.length := by
  simpa [extend] using List.length_pos_iff.2 p.svole.head.2

/-- Extend until `n` voles are there. -/
def volesReserve (n : ℕ) (p : Pool α) : Pool α :=
  if p.voles.length < n then volesReserve n p.extend else p
termination_by n - p.voles.length
decreasing_by have := p.lt_length_voles_extend; omega

end Pool

/-- Take a vole of the pool, after an extension when the pool is empty. -/
def popVole {M G α : Type} : Party M G (Pool α) α := do
  act fun p => ((), p.countVole)
  match ← act Pool.pop with
  | some e => pure e
  | none =>
    act fun p => ((), p.extend)
    match ← act Pool.pop with
    | some e => pure e
    | none => abort "svole failed for random"

def makeXI (PF FE : Type) [Field PF] [Field FE] [Algebra PF FE] [FiniteField PF FE]
    (i : Fin (FiniteField.degree PF FE)) : FE :=
  FiniteField.fromSubfield (Pi.single i 1)

/-- `∑ chi * x` over two lists. -/
def linComb {FE : Type} [Field FE] (chis xs : List FE) : FE :=
  (List.zipWith (· * ·) chis xs).sum

/-! ## The prover -/

namespace FComProver

variable {M D G PF FE : Type} [Field PF] [Field FE] [Algebra PF FE]

def lens : Lens (FComProver PF FE) (Pool (MacProver PF FE)) where
  get := FComProver.pool
  set p s := { s with pool := p }
  get_set _ _ := rfl
  set_get _ := rfl
  set_set _ _ _ := rfl

/-- A random MAC. -/
def random : Party M G (FComProver PF FE) (MacProver PF FE) :=
  zoom lens popVole

/-- Append the MACs of the values `x` to `out`. -/
def inputLowLevel [CanonicalSerialize M PF] (x : List PF) (out : List FE) :
    Party M G (FComProver PF FE) (List FE) := do
  let rs ← x.mapM fun xi => do
    let r ← random
    pure (r.mac, xi - r.value)
  writeSerializableSeq (rs.map (·.2))
  pure (out ++ rs.map (·.1))

def input [CanonicalSerialize M PF] (x : List PF) : Party M G (FComProver PF FE) (List FE) :=
  inputLowLevel x []

def input1 [CanonicalSerialize M PF] (x : PF) : Party M G (FComProver PF FE) FE := do
  let r ← random
  writeSerializable (x - r.value)
  pure r.mac

def volesReserve (n : ℕ) : Party M G (FComProver PF FE) Unit :=
  zoom lens (act fun p => ((), p.volesReserve n))

def volesClear : Party M G (FComProver PF FE) Unit :=
  zoom lens (act fun p => ((), p.volesClear))

def affineAddCst (cst : PF) (x : MacProver PF FE) : MacProver PF FE := ⟨cst + x.value, x.mac⟩

def affineMultCst (cst : PF) (x : MacProver PF FE) : MacProver PF FE :=
  ⟨cst * x.value, cst • x.mac⟩

def add (a b : MacProver PF FE) : MacProver PF FE := ⟨a.value + b.value, a.mac + b.mac⟩

def neg (a : MacProver PF FE) : MacProver PF FE := ⟨-a.value, -a.mac⟩

def sub (a b : MacProver PF FE) : MacProver PF FE := ⟨a.value - b.value, a.mac - b.mac⟩

def checkZero [DecidableEq PF] [CanonicalSerialize M FE] [CanonicalSerialize M Block]
    [Random D FE] (C : Primitives M D) (xMacBatch : List (MacProver PF FE)) :
    Party M G (FComProver PF FE) Unit := do
  let seed : Block ← readSerializable
  let chis := randoms FE (C.aesRng seed) xMacBatch.length
  writeSerializable (linComb chis (xMacBatch.map MacProver.mac))
  flush
  assert (∀ x ∈ xMacBatch, x.value = 0) "check_zero failed"

def openMacs [CanonicalSerialize M PF] [CanonicalSerialize M FE] [Random D FE]
    (C : Primitives M D) (batch : List (MacProver PF FE)) : Party M G (FComProver PF FE) Unit := do
  let _ ← batch.mapM fun x => writeSerializable x.value
  let seed := C.blake3 (batch.map fun x => CanonicalSerialize.toMsg x.value)
  let chis := randoms FE (C.aesRng seed) batch.length
  writeSerializable (linComb chis (batch.map MacProver.mac))
  flush

end FComProver

/-! ## The verifier -/

namespace FComVerifier

variable {M D G PF FE : Type} [Field PF] [Field FE] [Algebra PF FE]

def lens : Lens (FComVerifier FE) (Pool (MacVerifier FE)) where
  get := FComVerifier.pool
  set p s := { s with pool := p }
  get_set _ _ := rfl
  set_get _ := rfl
  set_set _ _ _ := rfl

/-- A random MAC. -/
def random : Party M G (FComVerifier FE) (MacVerifier FE) :=
  zoom lens popVole

/-- The MACs of `num` values, in the empty vector `out`. -/
def inputLowLevel (PF : Type) [Field PF] [Algebra PF FE] [CanonicalSerialize M PF] (num : ℕ)
    (out : List (MacVerifier FE)) : Party M G (FComVerifier FE) (List (MacVerifier FE)) := do
  assert (out = []) "assertion failed: out.is_empty()"
  let rs ← (List.range num).mapM fun _ => random
  let corrections : List PF ← readSerializableSeq num
  let self ← get
  pure (List.zipWith (fun o c => ⟨o.mac - c • self.delta⟩) (out ++ rs) corrections)

def input (PF : Type) [Field PF] [Algebra PF FE] [CanonicalSerialize M PF] (num : ℕ) :
    Party M G (FComVerifier FE) (List (MacVerifier FE)) :=
  inputLowLevel PF num []

def input1 (PF : Type) [Field PF] [Algebra PF FE] [CanonicalSerialize M PF] :
    Party M G (FComVerifier FE) (MacVerifier FE) := do
  let r ← random
  let y : PF ← readSerializable
  let self ← get
  pure ⟨r.mac - y • self.delta⟩

def volesReserve (n : ℕ) : Party M G (FComVerifier FE) Unit :=
  zoom lens (act fun p => ((), p.volesReserve n))

def volesClear : Party M G (FComVerifier FE) Unit :=
  zoom lens (act fun p => ((), p.volesClear))

def affineAddCst (self : FComVerifier FE) (cst : PF) (x : MacVerifier FE) : MacVerifier FE :=
  ⟨x.mac - cst • self.delta⟩

def affineMultCst (cst : PF) (x : MacVerifier FE) : MacVerifier FE := ⟨cst • x.mac⟩

def add (a b : MacVerifier FE) : MacVerifier FE := ⟨a.mac + b.mac⟩

def neg (a : MacVerifier FE) : MacVerifier FE := ⟨-a.mac⟩

def sub (a b : MacVerifier FE) : MacVerifier FE := ⟨a.mac - b.mac⟩

def checkZero [DecidableEq FE] [CanonicalSerialize M FE] [CanonicalSerialize M Block]
    [Random D FE] [Random D Block] (C : Primitives M D) (keyBatch : List (MacVerifier FE)) :
    Party M (Stream' D) (FComVerifier FE) Unit := do
  let seed ← EdaBitGen.random Block
  writeSerializable seed
  flush
  let chis := randoms FE (C.aesRng seed) keyBatch.length
  let m : FE ← readSerializable
  assert (linComb chis (keyBatch.map MacVerifier.mac) = m) "check_zero failed"

def openMacs (PF : Type) [Field PF] [Algebra PF FE] [DecidableEq FE] [CanonicalSerialize M PF]
    [CanonicalSerialize M FE] [Random D FE] (C : Primitives M D) (keys : List (MacVerifier FE)) :
    Party M G (FComVerifier FE) (List PF) := do
  let out : List PF ← keys.mapM fun _ => readSerializable
  let seed := C.blake3 (out.map CanonicalSerialize.toMsg)
  let chis := randoms FE (C.aesRng seed) keys.length
  let keyChi := linComb chis (keys.map MacVerifier.mac)
  let xChi := linComb chis (out.map (algebraMap PF FE))
  let m : FE ← readSerializable
  let self ← get
  assert (keyChi + self.delta * xChi = m) "open fails"
  pure out

end FComVerifier

end EdaBitGen
