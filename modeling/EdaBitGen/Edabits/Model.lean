import EdaBitGen.Edabits.Basic

/-!
# The conversion protocol

Prover and verifier of the conversion check: the batched ripple-carry adder, the generation of
random edabits, dabits and triples, the check of the dabits, and the cut-and-choose with its
buckets.  Both sides hold a commitment scheme for bits and one for the prime field.
-/

namespace EdaBitGen

open Interaction Party

structure ProverConv (K F : Type) where
  fcomF2 : FComProver F2 K
  fcomFe : FComProver F F

structure VerifierConv (K F : Type) where
  fcomF2 : FComVerifier K
  fcomFe : FComVerifier F

/-- The accumulators of the adder: the carries, the triples to check, and the bits of each sum. -/
structure Adder (α : Type) where
  ci : List α
  triples : List (α × α × α)
  z : List (List α)

section Panic

variable {M G σ α : Type}

/-- `xs[i]`. -/
def index (xs : List α) (i : ℕ) : Party M G σ α :=
  match xs[i]? with
  | some x => pure x
  | none => abort "index out of bounds"

/-- `&xs[lo..hi]`. -/
def slice (xs : List α) (lo hi : ℕ) : Party M G σ (List α) := do
  assert (lo ≤ hi ∧ hi ≤ xs.length) "range out of bounds"
  pure ((xs.drop lo).take (hi - lo))

/-- A result that is there unless the code panics. -/
def unwrap (x : Option α) : Party M G σ α :=
  match x with
  | some x => pure x
  | none => abort "index out of bounds"

theorem index_eq {xs : List α} {i : ℕ} (h : i < xs.length) :
    (index xs i : Party M G σ α) = pure xs[i] := by
  simp [index, h]

theorem slice_eq {xs : List α} {lo hi : ℕ} (hlo : lo ≤ hi) (hhi : hi ≤ xs.length) :
    (slice xs lo hi : Party M G σ (List α)) = pure ((xs.drop lo).take (hi - lo)) := by
  rw [slice, assert_true ⟨hlo, hhi⟩, pure_bind]

end Panic

variable {M D G K : Type} {p : ℕ} [Fact p.Prime] [Field K] [Algebra F2 K] [FiniteField F2 K]
  [DecidableEq K] [CanonicalSerialize M F2] [CanonicalSerialize M K]
  [CanonicalSerialize M (ZMod p)] [CanonicalSerialize M Block] [Random D F2] [Random D K]
  [Random D (ZMod p)] [Random D Block] [GenRange D] (C : Primitives M D)

/-- The challenge bits of the dabit check: `s` rows of `n` bits. -/
def challengeBits (C : Primitives M D) (seed : Block) (s n : ℕ) : List (List F2) :=
  (List.range s).map fun k => ((randoms F2 (C.aesRng seed) (s * n)).drop (k * n)).take n

/-! ## The prover -/

namespace ProverConv

def f2 : Lens (ProverConv K (ZMod p)) (FComProver F2 K) where
  get := fcomF2
  set t s := { s with fcomF2 := t }
  get_set _ _ := rfl
  set_get _ := rfl
  set_set _ _ _ := rfl

def fe : Lens (ProverConv K (ZMod p)) (FComProver (ZMod p) (ZMod p)) where
  get := fcomFe
  set t s := { s with fcomFe := t }
  get_set _ _ := rfl
  set_get _ := rfl
  set_set _ _ _ := rfl

def convertBit2Field (rBatch : List (DabitProver K (ZMod p))) (xBatch : List (MacProver F2 K)) :
    Party M G (ProverConv K (ZMod p)) (List (MacProver (ZMod p) (ZMod p))) := do
  assert (rBatch.length = xBatch.length) "assertion failed: n == x_batch.len()"
  let cBatch := List.zipWith (fun r x => FComProver.add r.bit x) rBatch xBatch
  zoom f2 (FComProver.openMacs C cBatch)
  pure (List.zipWith (fun c r =>
    let cM : ZMod p := f2ToFe c.value
    let beq := FComProver.affineAddCst cM (FComProver.neg r.value)
    let bneq := FComProver.affineAddCst cM r.value
    if c.value = 1 then beq else bneq) cBatch rBatch)

/-- Position `i` of the addition of a batch. -/
def addBits (xBatch yBatch : List (EdabitsProver K (ZMod p))) (m : ℕ)
    (acc : Adder (MacProver F2 K)) (i : ℕ) :
    Party M G (ProverConv K (ZMod p)) (Adder (MacProver F2 K)) := do
  assert ((∀ x ∈ xBatch, x.bits.length = m) ∧ ∀ y ∈ yBatch, y.bits.length = m)
    "assertion failed: x.len() == m && y.len() == m"
  let xi ← xBatch.mapM fun x => index x.bits i
  let yi ← yBatch.mapM fun y => index y.bits i
  let and1 := List.zipWith FComProver.add xi acc.ci
  let and2 := List.zipWith FComProver.add yi acc.ci
  let andRes := List.zipWith (fun a b => a.value * b.value) and1 and2
  let z := List.zipWith FComProver.add and1 yi
  let andResMac ← zoom f2 (FComProver.inputLowLevel andRes [])
  let res := List.zipWith MacProver.mk andRes andResMac
  pure {
    ci := List.zipWith FComProver.add acc.ci res
    triples := acc.triples ++ and1.zip (and2.zip res)
    z := List.zipWith (fun zs b => zs ++ [b]) acc.z z }

def bitAddCarry (xBatch yBatch : List (EdabitsProver K (ZMod p))) :
    Party M G (ProverConv K (ZMod p)) (List (List (MacProver F2 K) × MacProver F2 K)) := do
  let num := xBatch.length
  assert (num = yBatch.length) "incompatible input vectors in bit_add_carry"
  let m := (← index xBatch 0).bits.length
  let ci := List.replicate num (0 : F2)
  let ciMac ← zoom f2 (FComProver.input ci)
  let acc ← (List.range m).foldlM (addBits xBatch yBatch m)
    ⟨List.zipWith MacProver.mk ci ciMac, [], List.replicate num []⟩
  flush
  zoom f2 (FComProver.quicksilverCheckMultiply acc.triples)
  pure (acc.z.zip acc.ci)

def randomEdabits (nbBits num : ℕ) :
    Party M G (ProverConv K (ZMod p)) (List (EdabitsProver K (ZMod p))) := do
  let auxBits ← (List.range num).mapM fun _ =>
    (List.range nbBits).mapM fun _ => zoom f2 FComProver.random
  let auxRM : List (ZMod p) := auxBits.map fun bits => convertBitsToField (bits.map MacProver.value)
  let auxRMMac ← zoom fe (FComProver.input auxRM)
  pure (List.zipWith EdabitsProver.mk auxBits (List.zipWith MacProver.mk auxRM auxRMMac))

def randomDabits (num : ℕ) :
    Party M G (ProverConv K (ZMod p)) (List (DabitProver K (ZMod p))) := do
  let bBatch ← (List.range num).mapM fun _ => zoom f2 FComProver.random
  let bMBatch : List (ZMod p) := bBatch.map fun b => f2ToFe b.value
  let bMMacBatch ← zoom fe (FComProver.input bMBatch)
  pure (List.zipWith DabitProver.mk bBatch (List.zipWith MacProver.mk bMBatch bMMacBatch))

def randomTriples (num : ℕ) : Party M G (ProverConv K (ZMod p)) (List (TripleProver F2 K)) := do
  let pairs ← (List.range num).mapM fun _ => do
    let x ← zoom f2 FComProver.random
    let y ← zoom f2 FComProver.random
    pure (x, y)
  let zs := pairs.map fun xy => xy.1.value * xy.2.value
  let zsMac ← zoom f2 (FComProver.inputLowLevel zs [])
  flush
  pure (List.zipWith (fun xy z => (xy.1, xy.2, z)) pairs (List.zipWith MacProver.mk zs zsMac))

/-- The triples `c (1 - c)` of the committed bits `c`. -/
def bitTriples (cM : List (MacProver (ZMod p) (ZMod p))) (andRes : List (MacProver (ZMod p) (ZMod p))) :
    List (TripleProver (ZMod p) (ZMod p)) :=
  List.zipWith (fun c z => (c, FComProver.affineAddCst 1 (FComProver.affineMultCst (-1) c), z))
    cM andRes

/-- `acc + ∑ e * x`. -/
def addSelected {PF FE : Type} [Field PF] [Field FE] [Algebra PF FE] (acc : MacProver PF FE)
    (e : List PF) (xs : List (MacProver PF FE)) : MacProver PF FE :=
  (e.zip xs).foldl (fun acc ex => FComProver.add acc (FComProver.affineMultCst ex.1 ex.2)) acc

/-- The powers of two up to `2 ^ (gamma - 1)`. -/
def twos (p gamma : ℕ) : List (ZMod p) :=
  (List.range gamma).map fun i => (fun t => t + t)^[i] 1

def fdabit (dabits : List (DabitProver K (ZMod p))) :
    Party M (Stream' D) (ProverConv K (ZMod p)) Unit := do
  let s := fdabitSecurityParameter
  let n := dabits.length
  let gamma := fdabitGamma n
  assert (checkParameters p n gamma) "Fdabit invalid parameter configuration"
  -- step 1)
  let cM : List (List (ZMod p)) ← (List.range s).mapM fun _ =>
    (List.range gamma).mapM fun _ => do pure (f2ToFe (← random F2))
  let cMMac ← cM.mapM fun c => zoom fe (FComProver.input c)
  let cs := List.zipWith (List.zipWith MacProver.mk) cM cMMac
  let c1 : List F2 ← cM.mapM fun c => do pure (if (← index c 0) = 0 then 0 else 1)
  let c1Mac ← zoom f2 (FComProver.input c1)
  -- step 2)
  let andl := cs.flatten
  let andRes := andl.map fun c => c.value * (1 + -1 * c.value)
  let andResMac ← zoom fe (FComProver.input andRes)
  let triples := bitTriples andl (List.zipWith MacProver.mk andRes andResMac)
  -- step 3)
  flush
  let seed : Block ← readSerializable
  let e := challengeBits C seed s n
  -- step 4) and 5)
  let rBatch := List.zipWith (fun c1 ek => addSelected c1 ek (dabits.map DabitProver.bit))
    (List.zipWith MacProver.mk c1 c1Mac) e
  zoom f2 (FComProver.openMacs C rBatch)
  -- step 6) and 7)
  let tauBatch := List.zipWith (fun ek ck => addSelected
    (addSelected ⟨0, 0⟩ (ek.map f2ToFe) (dabits.map DabitProver.value)) (twos p gamma) ck) e cs
  zoom fe (FComProver.openMacs C tauBatch)
  -- step 8)
  let res := (rBatch.zip tauBatch).all fun rt => decide (rt.1.value = 1) == rt.2.value.val.testBit 0
  zoom fe (FComProver.quicksilverCheckMultiply triples)
  assert (res = true) "fail fdabit prover"

def convLoop (edabits r : List (EdabitsProver K (ZMod p))) (dabits : List (DabitProver K (ZMod p))) :
    Party M G (ProverConv K (ZMod p)) Unit := do
  let n := edabits.length
  let nbBits := (← index edabits 0).bits.length
  -- step 6)b)
  let eBatch ← bitAddCarry edabits r
  -- step 6)c)
  let eMBatch ← convertBit2Field C dabits (eBatch.map Prod.snd)
  -- steps 6)a) and 6)d)
  let cPlusR := List.zipWith (fun c r => FComProver.add c.value r.value) edabits r
  let ePrime := List.zipWith (fun cr eM =>
    FComProver.add cr (FComProver.affineMultCst (-powerTwo nbBits) eM)) cPlusR eMBatch
  let ei := (eBatch.map Prod.fst).flatten
  -- step 6)e)
  zoom f2 (FComProver.openMacs C ei)
  let ePrimeMinusSum ← (List.range n).mapM fun i => do
    let bits ← slice ei (i * nbBits) ((i + 1) * nbBits)
    pure (FComProver.affineAddCst (-convertBitsToFieldMac bits) (← index ePrime i))
  zoom fe (FComProver.checkZero C ePrimeMinusSum)

/-- The conversion check; with bucket channels nothing runs after the cut-and-choose. -/
def conv {Ch : Type} (numBucket numCut : ℕ) (edabits : List (EdabitsProver K (ZMod p)))
    (bucketChannels : Option (List Ch)) : Party M (Stream' D) (ProverConv K (ZMod p)) Unit := do
  let n := edabits.length
  if n = 0 then
    pure ()
  else do
    let nbBits := (← index edabits 0).bits.length
    -- step 1)
    let r ← randomEdabits nbBits (n * numBucket + numCut)
    let dabits ← randomDabits (n * numBucket)
    -- step 2)
    fdabit C dabits
    -- steps 3) and 4)
    let seed : Block ← readSerializable
    let (r, shuffleRng) ← unwrap (generatePermutation (C.aesRng seed) r)
    let (dabits, _) ← unwrap (generatePermutation shuffleRng dabits)
    -- step 5)
    let base := n * numBucket
    let _ ← (List.range numCut).mapM fun i => do
      let a ← index r (base + i)
      zoom f2 (FComProver.openMacs C a.bits)
      zoom fe (FComProver.openMacs C [a.value])
    -- step 6)
    if bucketChannels.isNone then do
      let _ ← (List.range numBucket).mapM fun j => do
        let idxBase := j * n
        convLoop C edabits (← slice r idxBase (idxBase + n)) (← slice dabits idxBase (idxBase + n))
    else
      pure ()

end ProverConv

end EdaBitGen
