import EdaBitGen.Data.Lists
import EdaBitGen.MacNCheese.LpnIndices
import EdaBitGen.Scuttlebutt.BinaryMultiplication

/-!
# VOLE over the small binary fields

A sender's pair is one word: the value in the highest bit, the mask in the lower ones. The linear
combinations and the consistency checks work on the words, four and eight of them at a time.
-/

namespace EdaBitGen.Vectoreyes

abbrev U32x4 : Type := Lanes 4 32
abbrev U64x2 : Type := Lanes 2 64

def U32x4.ofU16x8 (x : U16x8) : U32x4 := widen (n := 4) (w := 16) x
def U16x8.ofU32x4 (x : U32x4) : U16x8 := narrow (n := 4) (w := 16) x

def U32x4.shuffle (i3 i2 i1 i0 : Fin 4) (x : U32x4) : U32x4 := x ∘ select i3 i2 i1 i0

/-- The two halves of sixteen lanes. -/
def U16x16.halves (x : U16x16) : U16x8 × U16x8 :=
  (fun i => x ⟨i, by omega⟩, fun i => x ⟨8 + i, by omega⟩)

/-- The lowest lanes, each extended by zeros. -/
def extendingCast {n w : ℕ} (m v : ℕ) (h : m ≤ n) (x : Lanes n w) : Lanes m v :=
  fun i => (x (i.castLE h)).setWidth v

/-- The words at the given indices of a slice of `2 ^ 16` words; `none` if one of them is outside. -/
def gather {n w : ℕ} (base : BitVec 16 → BitVec 64) (indices : Lanes n w) : Option (Lanes n 64) :=
  if ∀ i, (indices i).toNat < 2 ^ 16 then some fun i => base ((indices i).setWidth 16) else none

/-- Sixteen bytes as two words. -/
def U64x2.ofU8x16 (x : U8x16) : U64x2 :=
  widen (n := 2) (w := 32) (widen (n := 4) (w := 16) (widen (n := 8) (w := 8) x))

end EdaBitGen.Vectoreyes

namespace EdaBitGen.MacNCheese

/-- The difference of each lane. -/
def U64x2.sub (a b : U64x2) : U64x2 := (a.1 - b.1, a.2 - b.2)

namespace Specialization

open Scuttlebutt.SmallBinaryField (Element)
open Vectoreyes (U16x16 U16x8 U32x4 U64x4 U32x8 extendingCast gather)

variable {f : Scuttlebutt.SmallBinaryField}

/-! ## Elements -/

/-- One less than `1 << NumberOfBitsInBitDecomposition`. -/
def mask (f : Scuttlebutt.SmallBinaryField) : BitVec 64 := 1#64 <<< f.numBits - 1#64

theorem below_mask (f : Scuttlebutt.SmallBinaryField) :
    BinaryPolynomials.Below f.numBits (mask f) := by
  refine BinaryPolynomials.below_of_toNat_lt ?_
  cases f <;> decide

def fromLowerBits (f : Scuttlebutt.SmallBinaryField) (x : BitVec 64) : Element f :=
  ⟨x &&& mask f, Scuttlebutt.SmallBinaryField.below_and x (below_mask f)⟩

theorem below_zero (d : ℕ) : BinaryPolynomials.Below d (0 : BitVec 64) :=
  fun _ _ => BitVec.getLsbD_zero

instance : Zero (Element f) := ⟨⟨0, below_zero f.numBits⟩⟩
instance : Add (Element f) := ⟨Scuttlebutt.SmallBinaryField.Element.addAssign⟩
instance : Mul (Element f) := ⟨Scuttlebutt.SmallBinaryField.Element.mulAssign⟩

/-- Every element is its own inverse: `sub_assign` adds. -/
instance : Neg (Element f) := ⟨id⟩
instance : Sub (Element f) := ⟨Scuttlebutt.SmallBinaryField.Element.addAssign⟩

@[simp] theorem val_add (x y : Element f) : (x + y).val = x.val ^^^ y.val := rfl

instance : AddCommGroup (Element f) where
  add_assoc x y z := Scuttlebutt.SmallBinaryField.Element.ext (BitVec.xor_assoc _ _ _)
  zero_add x := Scuttlebutt.SmallBinaryField.Element.ext BitVec.zero_xor
  add_zero x := Scuttlebutt.SmallBinaryField.Element.ext BitVec.xor_zero
  add_comm x y := Scuttlebutt.SmallBinaryField.Element.ext (BitVec.xor_comm _ _)
  neg_add_cancel x := Scuttlebutt.SmallBinaryField.Element.ext BitVec.xor_self
  sub_eq_add_neg _ _ := rfl
  nsmul := nsmulRec
  zsmul := zsmulRec

def newSenderPair (u : ZMod 2) (w : Element f) : BitVec 64 := (BitVec.ofNat 64 u.val <<< 63) ||| w.val

def extractSenderPair (f : Scuttlebutt.SmallBinaryField) (pair : BitVec 64) : ZMod 2 × Element f :=
  (if pair >>> 63 ≠ 0 then 1 else 0, fromLowerBits f pair)

/-- The generator of the rows of the LPN matrix: every call gives four vectors of indices. -/
structure LpnRng (σ : Type) where
  matrixEntriesVectorized : σ → (Fin 4 → U16x16) × σ

attribute [local instance] Vectoreyes.neZero_two Vectoreyes.neZero_four in
/-- What the ten indices of a vector select, added up. -/
def combination (srcBaseVoles : BitVec 16 → BitVec 64) (indices : U16x16) : Option (BitVec 64) := do
  let (lo, hi) := U16x16.halves indices
  let lo0 : U32x4 := extendingCast 4 32 (by decide) lo
  let lo1 : U32x4 :=
    extendingCast 4 32 (by decide) (U16x8.ofU32x4 ((U32x4.ofU16x8 lo).shuffle 3 2 3 2))
  let hi : Vectoreyes.U64x2 := extendingCast 2 64 (by decide) hi
  let lo0 : U64x4 ← gather srcBaseVoles lo0
  let lo1 : U64x4 ← gather srcBaseVoles lo1
  let hi : Vectoreyes.U64x2 ← gather srcBaseVoles hi
  let lo : U64x4 := fun i => lo0 i ^^^ lo1 i
  let swapped : U64x4 := U64x4.ofU32x8 ((U32x8.ofU64x4 lo).shuffle 1 0 3 2)
  let lo : U64x4 := fun i => swapped i ^^^ lo i
  pure (lo 0 ^^^ lo 2 ^^^ hi 0 ^^^ hi 1)

/-- The remainder is done one at a time. -/
def lpnRemainder (srcBaseVoles : BitVec 16 → BitVec 64) (indices : Fin 4 → U16x16)
    (remainder : List (BitVec 64)) : List (BitVec 64) :=
  List.zipWith (fun dst r => (List.finRange 10).foldl
    (fun dst j => dst ^^^ srcBaseVoles (LpnIndices.rows indices r j)) dst) remainder (List.finRange 4)

attribute [local instance] Vectoreyes.neZero_four in
/-- The words of `dst` after the call. The slice of base VOLEs is as long as it is asserted to be. -/
def lpnSender {σ : Type} (rng : LpnRng σ) (lpnRng : σ) (srcBaseVoles : BitVec 16 → BitVec 64) :
    List (BitVec 64) → Option (List (BitVec 64))
  | a :: b :: c :: d :: dst => do
    let (indices, lpnRng) := rng.matrixEntriesVectorized lpnRng
    let x ← combination srcBaseVoles (indices 0)
    let y ← combination srcBaseVoles (indices 1)
    let z ← combination srcBaseVoles (indices 2)
    let t ← combination srcBaseVoles (indices 3)
    let rest ← lpnSender rng lpnRng srcBaseVoles dst
    pure ((a ^^^ x) :: (b ^^^ y) :: (c ^^^ z) :: (d ^^^ t) :: rest)
  | remainder => some (lpnRemainder srcBaseVoles (rng.matrixEntriesVectorized lpnRng).1 remainder)

/-- The words that the elements of `dst` are after the call. -/
def lpnReceiver {σ : Type} (rng : LpnRng σ) (lpnRng : σ) (srcBaseVoles : BitVec 16 → Element f)
    (dst : List (Element f)) : Option (List (BitVec 64)) :=
  lpnSender rng lpnRng (fun j => (srcBaseVoles j).val)
    (dst.map Scuttlebutt.SmallBinaryField.Element.val)

/-! ## Consistency checks -/

/-- The generator of the challenges. -/
structure ChiRng (σ : Type) where
  /-- `random_bits_custom_size` for four blocks. -/
  randomBits : σ → (Fin 4 → Vectoreyes.U8x16) × σ
  nextU64 : σ → BitVec 64 × σ

namespace ChiRng

variable {σ : Type} (rng : ChiRng σ)

/-- `FE::random`. -/
def random (f : Scuttlebutt.SmallBinaryField) (rngChi : σ) : Element f × σ :=
  let (x, rngChi) := rng.nextU64 rngChi
  (fromLowerBits f x, rngChi)

attribute [local instance] Vectoreyes.neZero_two in
/-- The random field elements of a chunk. -/
def randomFieldElements (f : Scuttlebutt.SmallBinaryField) (rngChi : σ) : (Fin 4 → U64x2) × σ :=
  let (randomBits, rngChi) := rng.randomBits rngChi
  (fun k =>
    let bits := Vectoreyes.U64x2.ofU8x16 (randomBits k)
    U64x2.and (bits 0, bits 1) (U64x2.broadcast (mask f)), rngChi)

end ChiRng

/-- The neighbours of a chunk of eight. -/
def pairAdjacent (chunk : List (BitVec 64)) (k : Fin 4) : U64x2 :=
  (chunk.getD (2 * k) 0, chunk.getD (2 * k + 1) 0)

/-- Add the unreduced products of the two lanes. -/
def addProducts (acu x random : U64x2) : U64x2 :=
  (acu.xor (U64x2.carrylessMul false false x random)).xor (U64x2.carrylessMul true true x random)

section

variable {σ : Type} (rng : ChiRng σ)

/-- `spsvole_receiver_consistency_check_compute_vb` without specialization. -/
def genericComputeVb (y : Element f) (spsvoleResult : List (Element f)) (rngChi : σ) : Element f :=
  (spsvoleResult.foldl (fun (sum, rngChi) v =>
    let (chi, rngChi) := rng.random f rngChi
    (sum + v * chi, rngChi)) ((0 : Element f), rngChi)).1 - y

/-- `generic_spsvole_sender_compute_va`. -/
def genericComputeVa (f : Scuttlebutt.SmallBinaryField) (spsvoleResult : List (BitVec 64)) (rngChi : σ) :
    Element f × List.Vector (ZMod 2) f.numBits :=
  let (va, xStars, _) := spsvoleResult.foldl (fun (va, xStars, rngChi) pair =>
    let (u, w) := extractSenderPair f pair
    let (chi, rngChi) := rng.random f rngChi
    let va := va + chi * w
    if u ≠ 0 then
      (va, List.Vector.zipWith (fun x y => x + u * y) xStars
        (Scuttlebutt.decompose f.numBits chi.val), rngChi)
    else
      (va, xStars, rngChi))
    ((0 : Element f), List.Vector.replicate f.numBits (0 : ZMod 2), rngChi)
  (va, xStars)

/-- The word of the element that `spsvole_receiver_consistency_check_compute_vb` returns. -/
def computeVb (y : Element f) (spsvoleResult : List (Element f)) (rngChi : σ) : BitVec 64 :=
  let chunks := Chunks.exact 8 spsvoleResult
  let remainder := Chunks.remainder 8 spsvoleResult
  let (acu, rngChi) := chunks.foldl (fun (acu, rngChi) chunk =>
    let chunk := pairAdjacent (chunk.map Scuttlebutt.SmallBinaryField.Element.val)
    let (random, rngChi) := rng.randomFieldElements f rngChi
    ((List.finRange 4).foldl (fun acu k => addProducts acu (chunk k) (random k)) acu, rngChi))
    ((0, 0), rngChi)
  let acu := f.reduce acu
  (genericComputeVb rng y remainder rngChi).val ^^^ acu

/-- The sums of a chunk of sender pairs. -/
def addPairs (f : Scuttlebutt.SmallBinaryField) (random : Fin 4 → U64x2) (chunk : List (BitVec 64))
    (sums : U64x2 × U64x2) : U64x2 × U64x2 :=
  (List.finRange 4).foldl (fun (acu, xStars) k =>
    let spsvoleResults := pairAdjacent chunk k
    let uValues := U64x2.shiftRight 63 spsvoleResults
    (addProducts acu (U64x2.and spsvoleResults (U64x2.broadcast (mask f))) (random k),
      xStars.xor (U64x2.andNot (random k) (U64x2.sub uValues (U64x2.broadcast 1))))) sums

/-- `spsvole_sender_compute_va`, with the word of the element it returns. -/
def computeVa (f : Scuttlebutt.SmallBinaryField) (spsvoleResult : List (BitVec 64)) (rngChi : σ) :
    BitVec 64 × List.Vector (ZMod 2) f.numBits :=
  let chunks := Chunks.exact 8 spsvoleResult
  let remainder := Chunks.remainder 8 spsvoleResult
  let ((acu, xStars), rngChi) := chunks.foldl (fun (sums, rngChi) chunk =>
    let (random, rngChi) := rng.randomFieldElements f rngChi
    (addPairs f random chunk sums, rngChi)) (((0, 0), (0, 0)), rngChi)
  let va := f.reduce acu
  let (va2, xStars2) := genericComputeVa rng f remainder rngChi
  let xStars := Scuttlebutt.decompose f.numBits (fromLowerBits f (xStars.1 ^^^ xStars.2)).val
  (va ^^^ va2.val, List.Vector.zipWith (· + ·) xStars2 xStars)

end

end Specialization

end EdaBitGen.MacNCheese
