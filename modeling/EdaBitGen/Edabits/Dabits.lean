import EdaBitGen.Algebra.Parity
import EdaBitGen.Edabits.Model
import EdaBitGen.HomCom.Messages

/-!
# The check of the dabits

The verifier's side of the check in its three rounds: the keys of the masks and of their triples,
the openings after the challenge, and the multiplication check with the comparison of the parities.
The triples say that each `c (1 - c)` is the value committed for it, which nothing compares with
zero, and the parities are those of residues.
-/

namespace EdaBitGen

open Interaction Party

/-- What the prover commits to before the challenge. -/
structure Masks (α β : Type) where
  cM : List (List α)
  c1 : List β
  triples : List (α × α × α)

variable {M D G K : Type} {p : ℕ} [Fact p.Prime] [Field K] [Algebra F2 K]

/-! ## The verifier -/

namespace VerifierConv

variable [DecidableEq K] [CanonicalSerialize M F2] [CanonicalSerialize M K]
  [CanonicalSerialize M (ZMod p)] [CanonicalSerialize M Block] [Random D F2] [Random D K]
  [Random D (ZMod p)] [Random D Block] (C : Primitives M D)

def f2 : Lens (VerifierConv K (ZMod p)) (FComVerifier K) where
  get := fcomF2
  set t s := { s with fcomF2 := t }
  get_set _ _ := rfl
  set_get _ := rfl
  set_set _ _ _ := rfl

def fe : Lens (VerifierConv K (ZMod p)) (FComVerifier (ZMod p)) where
  get := fcomFe
  set t s := { s with fcomFe := t }
  get_set _ _ := rfl
  set_get _ := rfl
  set_set _ _ _ := rfl

/-- The triples `c (1 - c)` of the committed bits `c`. -/
def bitTriples (self : FComVerifier (ZMod p)) (cM andRes : List (MacVerifier (ZMod p))) :
    List (TripleVerifier (ZMod p)) :=
  List.zipWith (fun c z =>
    (c, self.affineAddCst (1 : ZMod p) (FComVerifier.affineMultCst (-1 : ZMod p) c), z)) cM andRes

/-- `acc + ∑ e * x`. -/
def addSelected {PF FE : Type} [Field PF] [Field FE] [Algebra PF FE] (acc : MacVerifier FE)
    (e : List PF) (xs : List (MacVerifier FE)) : MacVerifier FE :=
  (e.zip xs).foldl (fun acc ex => FComVerifier.add acc (FComVerifier.affineMultCst ex.1 ex.2)) acc

/-- Steps 1) and 2). -/
def fdabitInputs (s gamma : ℕ) :
    Party M G (VerifierConv K (ZMod p)) (Masks (MacVerifier (ZMod p)) (MacVerifier K)) := do
  let cM ← (List.range s).mapM fun _ => zoom fe (FComVerifier.input (ZMod p) gamma)
  let c1 ← zoom f2 (FComVerifier.input F2 s)
  let andRes ← zoom fe (FComVerifier.input (ZMod p) (gamma * s))
  let self ← get
  pure ⟨cM, c1, bitTriples self.fcomFe cM.flatten andRes⟩

/-- Steps 4) to 7). -/
def fdabitOpen (gamma : ℕ) (dabits : List (DabitVerifier K (ZMod p))) (e : List (List F2))
    (masks : Masks (MacVerifier (ZMod p)) (MacVerifier K)) :
    Party M G (VerifierConv K (ZMod p)) (List F2 × List (ZMod p)) := do
  let rBatch := List.zipWith (fun c1 ek => addSelected c1 ek (dabits.map DabitVerifier.bit))
    masks.c1 e
  let r ← zoom f2 (FComVerifier.openMacs F2 C rBatch)
  let tauBatch := List.zipWith (fun ek ck => addSelected
    (addSelected ⟨0⟩ (ek.map (f2ToFe : F2 → ZMod p)) (dabits.map DabitVerifier.value))
    (ProverConv.twos p gamma) ck) e masks.cM
  let tau ← zoom fe (FComVerifier.openMacs (ZMod p) C tauBatch)
  pure (r, tau)

/-- Step 8). -/
def fdabitFinish (masks : Masks (MacVerifier (ZMod p)) (MacVerifier K))
    (opened : List F2 × List (ZMod p)) : Party M (Stream' D) (VerifierConv K (ZMod p)) Unit := do
  let res := (opened.1.zip opened.2).all fun rt => decide (rt.1 = 1) == rt.2.val.testBit 0
  zoom fe (FComVerifier.quicksilverCheckMultiply (ZMod p) masks.triples)
  assert (res = true) "fail fdabit verifier"

def fdabitRounds (s gamma : ℕ) (dabits : List (DabitVerifier K (ZMod p))) :
    Party M (Stream' D) (VerifierConv K (ZMod p)) Unit := do
  assert (checkParameters p dabits.length gamma) "Fdabit invalid parameter configuration"
  let masks ← fdabitInputs s gamma
  -- step 3)
  let seed ← random Block
  writeSerializable seed
  flush
  let e := challengeBits C seed s dabits.length
  let opened ← fdabitOpen C gamma dabits e masks
  fdabitFinish masks opened

def fdabit (dabits : List (DabitVerifier K (ZMod p))) :
    Party M (Stream' D) (VerifierConv K (ZMod p)) Unit :=
  fdabitRounds C fdabitSecurityParameter (fdabitGamma dabits.length) dabits

end VerifierConv

/-! ## Keys -/

section Keys

variable (Δ₂ : K) (Δₑ : ZMod p)

def ProverConv.keys (s : ProverConv K (ZMod p)) : VerifierConv K (ZMod p) :=
  ⟨s.fcomF2.keys Δ₂, s.fcomFe.keys Δₑ⟩

def DabitProver.keys (d : DabitProver K (ZMod p)) : DabitVerifier K (ZMod p) :=
  ⟨d.bit.key Δ₂, d.value.key Δₑ⟩

def Masks.keys (masks : Masks (MacProver (ZMod p) (ZMod p)) (MacProver F2 K)) :
    Masks (MacVerifier (ZMod p)) (MacVerifier K) where
  cM := masks.cM.map (List.map (MacProver.key Δₑ))
  c1 := masks.c1.map (MacProver.key Δ₂)
  triples := masks.triples.map (TripleProver.keys Δₑ)

theorem keys_bitTriples (s : FComProver (ZMod p) (ZMod p)) (cM andRes : List (MacProver (ZMod p) (ZMod p))) :
    (ProverConv.bitTriples cM andRes).map (TripleProver.keys Δₑ) =
      VerifierConv.bitTriples (s.keys Δₑ) (cM.map (MacProver.key Δₑ))
        (andRes.map (MacProver.key Δₑ)) := by
  rw [ProverConv.bitTriples, VerifierConv.bitTriples, List.map_zipWith, List.zipWith_map]
  simp only [TripleProver.keys, FComProver.key_affineAddCst Δₑ s, FComProver.key_affineMultCst]

theorem key_addSelected {PF FE : Type} [Field PF] [Field FE] [Algebra PF FE] (Δ : FE)
    (acc : MacProver PF FE) (e : List PF) (xs : List (MacProver PF FE)) :
    (ProverConv.addSelected acc e xs).key Δ =
      VerifierConv.addSelected (acc.key Δ) e (xs.map (MacProver.key Δ)) := by
  induction e generalizing acc xs with
  | nil => rfl
  | cons ei e ih =>
    cases xs with
    | nil => rfl
    | cons x xs =>
      have hstep := ih (FComProver.add acc (FComProver.affineMultCst ei x)) xs
      rw [FComProver.key_add, FComProver.key_affineMultCst] at hstep
      exact hstep

end Keys

/-! ## The openings -/

section Openings

/-- The bits that the prover opens. -/
def rBatch (dabits : List (DabitProver K (ZMod p))) (e : List (List F2))
    (masks : Masks (MacProver (ZMod p) (ZMod p)) (MacProver F2 K)) : List (MacProver F2 K) :=
  List.zipWith (fun c1 ek => ProverConv.addSelected c1 ek (dabits.map DabitProver.bit)) masks.c1 e

/-- The field elements that the prover opens. -/
def tauBatch (gamma : ℕ) (dabits : List (DabitProver K (ZMod p))) (e : List (List F2))
    (masks : Masks (MacProver (ZMod p) (ZMod p)) (MacProver F2 K)) :
    List (MacProver (ZMod p) (ZMod p)) :=
  List.zipWith (fun ek ck => ProverConv.addSelected
    (ProverConv.addSelected ⟨0, 0⟩ (ek.map (f2ToFe : F2 → ZMod p)) (dabits.map DabitProver.value))
    (ProverConv.twos p gamma) ck) e masks.cM

variable (Δ₂ : K) (Δₑ : ZMod p) (gamma : ℕ) (dabits : List (DabitProver K (ZMod p)))
  (e : List (List F2)) (masks : Masks (MacProver (ZMod p) (ZMod p)) (MacProver F2 K))

theorem keys_rBatch :
    (rBatch dabits e masks).map (MacProver.key Δ₂) =
      List.zipWith (fun c1 ek => VerifierConv.addSelected c1 ek
        ((dabits.map (DabitProver.keys Δ₂ Δₑ)).map DabitVerifier.bit)) (masks.keys Δ₂ Δₑ).c1 e := by
  rw [rBatch, Masks.keys, List.map_zipWith, List.zipWith_map_left]
  simp only [key_addSelected, List.map_map, Function.comp_def, DabitProver.keys]

theorem keys_tauBatch :
    (tauBatch gamma dabits e masks).map (MacProver.key Δₑ) =
      List.zipWith (fun ek ck => VerifierConv.addSelected
        (VerifierConv.addSelected ⟨0⟩ (ek.map (f2ToFe : F2 → ZMod p))
          ((dabits.map (DabitProver.keys Δ₂ Δₑ)).map DabitVerifier.value))
        (ProverConv.twos p gamma) ck) e (masks.keys Δ₂ Δₑ).cM := by
  rw [tauBatch, Masks.keys, List.map_zipWith, List.zipWith_map_right]
  have hzero : (⟨0, 0⟩ : MacProver (ZMod p) (ZMod p)).key Δₑ = ⟨0⟩ := by simp [MacProver.key]
  simp only [key_addSelected, List.map_map, Function.comp_def, DabitProver.keys, hzero]

/-- The committed values of the openings. -/
def openedValues : List F2 × List (ZMod p) :=
  ((rBatch dabits e masks).map MacProver.value,
    (tauBatch gamma dabits e masks).map MacProver.value)

theorem value_addSelected {PF FE : Type} [Field PF] [Field FE] [Algebra PF FE]
    (acc : MacProver PF FE) (e : List PF) (xs : List (MacProver PF FE)) :
    (ProverConv.addSelected acc e xs).value = acc.value + linComb e (xs.map MacProver.value) := by
  induction e generalizing acc xs with
  | nil => simp [ProverConv.addSelected, linComb]
  | cons ei e ih =>
    cases xs with
    | nil => simp [ProverConv.addSelected, linComb]
    | cons x xs =>
      have hstep := ih (FComProver.add acc (FComProver.affineMultCst ei x)) xs
      simp only [linComb] at hstep
      simp only [ProverConv.addSelected, List.zip_cons_cons, List.foldl_cons, linComb,
        List.map_cons, List.zipWith_cons_cons, List.sum_cons] at hstep ⊢
      rw [hstep, ← add_assoc]
      rfl

theorem linComb_f2ToFe {F : Type} [Field F] (es : List F2) (xs : List F) :
    linComb (es.map (f2ToFe : F2 → F)) xs = Parity.selectSum es xs := by
  induction es generalizing xs with
  | nil => rfl
  | cons e es ih =>
    cases xs with
    | nil => simp [linComb]
    | cons x xs =>
      have ih' : (List.zipWith (· * ·) (es.map (f2ToFe : F2 → F)) xs).sum =
          Parity.selectSum es xs := ih xs
      by_cases he : e = 0 <;> simp [linComb, Parity.selectSum, f2ToFe, he, ih']

theorem map_f2ToFe (es : List F2) : es.map (f2ToFe : F2 → F2) = es := by
  have hid : ∀ e : F2, (f2ToFe e : F2) = e := by decide
  exact (List.map_congr_left fun e _ => hid e).trans (List.map_id es)

/-- The row of the masks as one number. -/
def startValue (gamma : ℕ) (ck : List (MacProver (ZMod p) (ZMod p))) : ZMod p :=
  linComb (ProverConv.twos p gamma) (ck.map MacProver.value)

/-- The bits of the dabits with their field elements. -/
def pairs (dabits : List (DabitProver K (ZMod p))) : List (F2 × ZMod p) :=
  dabits.map fun d => (d.bit.value, d.value.value)

omit [Fact p.Prime] in
theorem values_rBatch :
    (rBatch dabits e masks).map MacProver.value =
      List.zipWith (fun c1 ek => c1.value + Parity.selectSum ek ((pairs dabits).map Prod.fst))
        masks.c1 e := by
  rw [rBatch, List.map_zipWith]
  congr 1
  funext c1 ek
  rw [value_addSelected, ← map_f2ToFe ek, linComb_f2ToFe, map_f2ToFe]
  simp [pairs, Function.comp_def]

omit [Field K] [Algebra F2 K] in
theorem values_tauBatch :
    (tauBatch gamma dabits e masks).map MacProver.value =
      List.zipWith (fun ek ck => startValue gamma ck +
        Parity.selectSum ek ((pairs dabits).map Prod.snd)) e masks.cM := by
  rw [tauBatch, List.map_zipWith]
  congr 1
  funext ek ck
  rw [value_addSelected, value_addSelected, linComb_f2ToFe, zero_add, add_comm, startValue]
  simp [pairs, Function.comp_def]

omit [Fact p.Prime] in
theorem parities_iff (opened : List F2 × List (ZMod p)) :
    ((opened.1.zip opened.2).all fun rt => decide (rt.1 = 1) == rt.2.val.testBit 0) = true ↔
      ∀ rt ∈ opened.1.zip opened.2, Parity.parity rt.2 = rt.1 := by
  rw [List.all_eq_true]
  refine forall₂_congr fun rt _ => ?_
  have hbit : rt.2.val.testBit 0 = decide (Parity.parity rt.2 = 1) := by
    rw [Bool.eq_iff_iff, decide_eq_true_eq]
    exact Bits.testBit_zero_iff _
  rw [hbit, beq_iff_eq, decide_eq_decide]
  have hf2 : ∀ r q : F2, (r = 1 ↔ q = 1) ↔ q = r := by decide
  exact hf2 _ _

end Openings

end EdaBitGen

/-!
## The verifier of the conversion protocol

The verifier's side of the adder, of the random edabits, dabits and triples, and of the
cut-and-choose.
-/

namespace EdaBitGen

open Interaction Party

variable {M D G K : Type} {p : ℕ} [Fact p.Prime] [Field K] [Algebra F2 K]
  [CanonicalSerialize M F2] [CanonicalSerialize M (ZMod p)]

namespace VerifierConv

section Random

def randomEdabits (bitSize num : ℕ) :
    Party M G (VerifierConv K (ZMod p)) (List (EdabitsVerifier K (ZMod p))) := do
  let auxBits ← (List.range num).mapM fun _ =>
    (List.range bitSize).mapM fun _ => zoom f2 FComVerifier.random
  let auxRMMac ← zoom fe (FComVerifier.input (ZMod p) num)
  pure (List.zipWith EdabitsVerifier.mk auxBits auxRMMac)

def randomDabits (num : ℕ) :
    Party M G (VerifierConv K (ZMod p)) (List (DabitVerifier K (ZMod p))) := do
  let bMacBatch ← (List.range num).mapM fun _ => zoom f2 FComVerifier.random
  let bMMacBatch ← zoom fe (FComVerifier.input (ZMod p) num)
  pure (List.zipWith DabitVerifier.mk bMacBatch bMMacBatch)

def randomTriples (num : ℕ) : Party M G (VerifierConv K (ZMod p)) (List (TripleVerifier K)) := do
  let pairs ← (List.range num).mapM fun _ => do
    let x ← zoom f2 FComVerifier.random
    let y ← zoom f2 FComVerifier.random
    pure (x, y)
  let zs ← zoom f2 (FComVerifier.inputLowLevel F2 num [])
  pure (List.zipWith (fun xy z => (xy.1, xy.2, z)) pairs zs)

end Random

variable [FiniteField F2 K] [DecidableEq K] [CanonicalSerialize M K] [CanonicalSerialize M Block]
  [Random D F2] [Random D K] [Random D (ZMod p)] [Random D Block] [GenRange D]
  (C : Primitives M D)

def convertBit2Field (rBatch : List (DabitVerifier K (ZMod p))) (xBatch : List (MacVerifier K)) :
    Party M G (VerifierConv K (ZMod p)) (List (MacVerifier (ZMod p))) := do
  assert (rBatch.length = xBatch.length) "assertion failed: n == x_batch.len()"
  let rMacPlusXMac := List.zipWith (fun r x => FComVerifier.add r.bit x) rBatch xBatch
  let cBatch ← zoom f2 (FComVerifier.openMacs F2 C rMacPlusXMac)
  let self ← get
  pure (List.zipWith (fun c r =>
    let cM : ZMod p := f2ToFe c
    let beq := self.fcomFe.affineAddCst cM (FComVerifier.neg r.value)
    let bneq := self.fcomFe.affineAddCst cM r.value
    if c = 1 then beq else bneq) cBatch rBatch)

/-- Position `i` of the addition of a batch. -/
def addBits (xBatch yBatch : List (EdabitsVerifier K (ZMod p))) (m : ℕ)
    (acc : Adder (MacVerifier K)) (i : ℕ) :
    Party M G (VerifierConv K (ZMod p)) (Adder (MacVerifier K)) := do
  assert ((∀ x ∈ xBatch, x.bits.length = m) ∧ ∀ y ∈ yBatch, y.bits.length = m)
    "assertion failed: x.len() == m && y.len() == m"
  let xi ← xBatch.mapM fun x => index x.bits i
  let yi ← yBatch.mapM fun y => index y.bits i
  let and1 := List.zipWith FComVerifier.add xi acc.ci
  let and2 := List.zipWith FComVerifier.add yi acc.ci
  let z := List.zipWith FComVerifier.add and1 yi
  let res ← zoom f2 (FComVerifier.inputLowLevel F2 xBatch.length [])
  pure {
    ci := List.zipWith FComVerifier.add acc.ci res
    triples := acc.triples ++ and1.zip (and2.zip res)
    z := List.zipWith (fun zs b => zs ++ [b]) acc.z z }

def bitAddCarry (xBatch yBatch : List (EdabitsVerifier K (ZMod p))) :
    Party M (Stream' D) (VerifierConv K (ZMod p)) (List (List (MacVerifier K) × MacVerifier K)) := do
  let num := xBatch.length
  assert (num = yBatch.length) "incompatible input vectors in bit_add_carry"
  let m := (← index xBatch 0).bits.length
  let ci ← zoom f2 (FComVerifier.input F2 num)
  let acc ← (List.range m).foldlM (addBits xBatch yBatch m) ⟨ci, [], List.replicate num []⟩
  zoom f2 (FComVerifier.quicksilverCheckMultiply F2 acc.triples)
  pure (acc.z.zip acc.ci)

def convLoop (edabits r : List (EdabitsVerifier K (ZMod p)))
    (dabits : List (DabitVerifier K (ZMod p))) :
    Party M (Stream' D) (VerifierConv K (ZMod p)) Unit := do
  let n := edabits.length
  let nbBits := (← index edabits 0).bits.length
  -- step 6)b)
  let eBatch ← bitAddCarry edabits r
  -- step 6)c)
  let eMBatch ← convertBit2Field C dabits (eBatch.map Prod.snd)
  -- steps 6)a) and 6)d)
  let cPlusR := List.zipWith (fun c r => FComVerifier.add c.value r.value) edabits r
  let ePrime := List.zipWith (fun cr eM =>
    FComVerifier.add cr (FComVerifier.affineMultCst (-powerTwo nbBits : ZMod p) eM)) cPlusR eMBatch
  let eiMac := (eBatch.map Prod.fst).flatten
  -- step 6)e)
  let ei ← zoom f2 (FComVerifier.openMacs F2 C eiMac)
  let self ← get
  let ePrimeMinusSum ← (List.range n).mapM fun i => do
    let bits ← slice ei (i * nbBits) ((i + 1) * nbBits)
    pure (self.fcomFe.affineAddCst (-convertBitsToField bits : ZMod p) (← index ePrime i))
  zoom fe (FComVerifier.checkZero C ePrimeMinusSum)

/-- The conversion check; with bucket channels nothing runs after the cut-and-choose. -/
def conv {Ch : Type} (numBucket numCut : ℕ) (edabits : List (EdabitsVerifier K (ZMod p)))
    (bucketChannels : Option (List Ch)) : Party M (Stream' D) (VerifierConv K (ZMod p)) Unit := do
  let n := edabits.length
  if n = 0 then
    pure ()
  else do
    let nbBits := (← index edabits 0).bits.length
    -- step 1)
    let r ← randomEdabits nbBits (n * numBucket + numCut)
    let dabits ← randomDabits (n * numBucket)
    -- step 2)
    fdabit C dabits
    -- steps 3) and 4)
    let seed ← random Block
    writeSerializable seed
    flush
    let (r, shuffleRng) ← unwrap (generatePermutation (C.aesRng seed) r)
    let (dabits, _) ← unwrap (generatePermutation shuffleRng dabits)
    -- step 5)
    let base := n * numBucket
    let _ ← (List.range numCut).mapM fun i => do
      let a ← index r (base + i)
      let aVec ← zoom f2 (FComVerifier.openMacs F2 C a.bits)
      let aM ← zoom fe (FComVerifier.openMacs (ZMod p) C [a.value])
      assert (convertBitsToField aVec = (← index aM 0)) "Wrong open random edabit"
    -- step 6)
    if bucketChannels.isNone then do
      let _ ← (List.range numBucket).mapM fun j => do
        let idxBase := j * n
        convLoop C edabits (← slice r idxBase (idxBase + n)) (← slice dabits idxBase (idxBase + n))
    else
      pure ()

end VerifierConv

end EdaBitGen
