import EdaBitGen.Algebra.BinaryPolynomials
import EdaBitGen.MacNCheese.MultiplicationProof
import EdaBitGen.Scuttlebutt.Polynomial

/-!
# Small binary fields

Elements of up to 63 bits in words of 64 bits. A product is a wide product of words, which each field
reduces with shifts and masks of its own.
-/

namespace EdaBitGen.Scuttlebutt

open MacNCheese (U64x2)

inductive SmallBinaryField
  | f63b
  | f56b
  | f40b
  | f45b

def reduceF63b (product : U64x2) : BitVec 64 :=
  let (lower, upper) := product
  let reduced := lower ^^^ (lower >>> 63) ^^^ (upper <<< 1) ^^^ ((lower >>> 62) &&& 0b10) ^^^ (upper <<< 2)
  reduced &&& ((1#64 <<< 63) - 1#64)

def reduceVectoredF63b (uppers lowers : U64x2) : U64x2 :=
  let shr63 := U64x2.shiftRight 63 lowers
  let unmasked := U64x2.xor (U64x2.xor (U64x2.xor (U64x2.xor lowers shr63) (U64x2.shiftLeft 1 uppers))
    (U64x2.shiftLeft 1 shr63)) (U64x2.shiftLeft 2 uppers)
  U64x2.shiftRight 1 (U64x2.shiftLeft 1 unmasked)

def reduceF56b (product : U64x2) : BitVec 64 :=
  let x : BitVec 128 := product.2 ++ product.1
  let reduced := (x >>> 0 &&& 0b0000000011111111111111111111111111111111111111111111111111111111#128) ^^^
      (x >>> 48 &&& 0b0000000011111111111111111111111111111111111111111111111100000000#128) ^^^
      (x >>> 53 &&& 0b0000011111111111111111111111111111111111111111111111111111000#128) ^^^
      (x >>> 54 &&& 0b000011111111111111111111111111111111111111111111111111111100#128) ^^^
      (x >>> 56 &&& 0b0011111111111111111111111111111111111111111111111111111111#128) ^^^
      (x >>> 96 &&& 0b111111111100000000#128) ^^^
      (x >>> 101 &&& 0b0000011111000#128) ^^^
      (x >>> 102 &&& 0b000011111100#128) ^^^
      (x >>> 104 &&& 0b0011111111#128) ^^^
      (x >>> 106 &&& 0b11111000#128) ^^^
      (x >>> 107 &&& 0b0000100#128) ^^^
      (x >>> 108 &&& 0b111100#128) ^^^
      (x >>> 109 &&& 0b00111#128) ^^^
      (x >>> 110 &&& 0b0011#128) ^^^
      (x >>> 112 &&& 0b11#128)
  reduced.setWidth 64

def reduceF40b (product : U64x2) : BitVec 64 :=
  let (lower, upper) := product
  let upperMask : BitVec 64 := 0xffff
  let lowerMask : BitVec 64 := 0xFFFFFFFFFF
  let t := ((upper &&& upperMask) <<< 24) ||| (lower >>> 40)
  let rUpper := t ^^^ (t >>> 35) ^^^ (t >>> 36) ^^^ (t >>> 37)
  let rLower := lower ^^^ (rUpper <<< 5) ^^^ (rUpper <<< 4) ^^^ (rUpper <<< 3) ^^^ (rUpper <<< 0)
  lowerMask &&& rLower

def reduceF45b (product : U64x2) : BitVec 64 :=
  let wideProduct : BitVec 128 := product.2 ++ product.1
  let reduced := (wideProduct >>> 0 &&& 0b0000000000000000000111111111111111111111111111111111111111111111#128) ^^^
      (wideProduct >>> 17 &&& 0b0000000000000000000111111111111111110000000000000000000000000000#128) ^^^
      (wideProduct >>> 28 &&& 0b0000000000000000000111111111111111111111111111100000000000000000#128) ^^^
      (wideProduct >>> 34 &&& 0b0000000000000000000000000000001111111111111111100000000000#128) ^^^
      (wideProduct >>> 45 &&& 0b00111111111111111110000000000011111111111111111#128) ^^^
      (wideProduct >>> 51 &&& 0b11111111111111111111111111111100000000000#128) ^^^
      (wideProduct >>> 56 &&& 0b111111111111111111100000000000000000#128) ^^^
      (wideProduct >>> 62 &&& 0b110000000000000000011111111111#128) ^^^
      (wideProduct >>> 73 &&& 0b0011111111111111111#128) ^^^
      (wideProduct >>> 79 &&& 0b1100000000000#128) ^^^
      (wideProduct >>> 90 &&& 0b11#128)
  reduced.setWidth 64

/-- A polynomial modulus, from the number of its coefficients and the positions of the ones. -/
def modulusOf (size : ℕ) (ones : List ℕ) : GeneralPolynomial (ZMod 2) where
  constant := 1
  coefficients := ones.foldl (fun coefficients i => coefficients.set i 1) (List.replicate size 0)

namespace SmallBinaryField

def numBits : SmallBinaryField → ℕ
  | f63b => 63
  | f56b => 56
  | f40b => 40
  | f45b => 45

def polynomialModulus : SmallBinaryField → GeneralPolynomial (ZMod 2)
  | f63b => modulusOf 63 [63 - 1, 1 - 1]
  | f56b => modulusOf 56 [56 - 1, 8 - 1, 3 - 1, 2 - 1]
  | f40b => modulusOf 40 [40 - 1, 5 - 1, 4 - 1, 3 - 1]
  | f45b => modulusOf 128 [45 - 1, 28 - 1, 17 - 1, 11 - 1]

def reduce : SmallBinaryField → U64x2 → BitVec 64
  | f63b => reduceF63b
  | f56b => reduceF56b
  | f40b => reduceF40b
  | f45b => reduceF45b

/-- The word of the modulus. -/
def modulusWord : SmallBinaryField → BitVec 64
  | f63b => 1#64 <<< 63 ||| 0b11
  | f56b => 1#64 <<< 56 ||| 0b100001101
  | f40b => 1#64 <<< 40 ||| 0b111001
  | f45b => 1#64 <<< 45 ||| 1#64 <<< 28 ||| 1#64 <<< 17 ||| 1#64 <<< 11 ||| 1

end SmallBinaryField

/-! ## Reductions of words -/

/-- The two halves of a word. -/
def halves (x : BitVec 128) : U64x2 := (x.extractLsb' 0 64, x.extractLsb' 64 64)

theorem append_halves (x : BitVec 128) : (halves x).2 ++ (halves x).1 = x := by
  apply BitVec.eq_of_getLsbD_eq
  intro i hi
  rw [BitVec.getLsbD_append]
  by_cases hlow : i < 64
  · rw [if_pos hlow]
    show (x.extractLsb' 0 64).getLsbD i = _
    rw [BitVec.getLsbD_extractLsb', decide_eq_true hlow, Bool.true_and, Nat.zero_add]
  · rw [if_neg hlow]
    show (x.extractLsb' 64 64).getLsbD (i - 64) = _
    rw [BitVec.getLsbD_extractLsb', decide_eq_true (by omega), Bool.true_and,
      (by omega : 64 + (i - 64) = i)]

theorem halves_xor (x y : BitVec 128) : halves (x ^^^ y) = U64x2.xor (halves x) (halves y) :=
  Prod.ext BitVec.extractLsb'_xor BitVec.extractLsb'_xor

theorem xor_and {w : ℕ} (x y mask : BitVec w) : (x ^^^ y) &&& mask = (x &&& mask) ^^^ (y &&& mask) := by
  apply BitVec.eq_of_getLsbD_eq
  intro i _
  rw [BitVec.getLsbD_and, BitVec.getLsbD_xor, BitVec.getLsbD_xor, BitVec.getLsbD_and,
    BitVec.getLsbD_and, Bool.and_xor_distrib_right]

theorem and_xor {w : ℕ} (mask x y : BitVec w) : mask &&& (x ^^^ y) = (mask &&& x) ^^^ (mask &&& y) := by
  rw [BitVec.and_comm, xor_and, BitVec.and_comm x, BitVec.and_comm y]

theorem reduceF63b_xor (x y : U64x2) :
    reduceF63b (U64x2.xor x y) = reduceF63b x ^^^ reduceF63b y := by
  unfold reduceF63b U64x2.xor
  dsimp only
  simp only [BitVec.ushiftRight_xor_distrib, BitVec.shiftLeft_xor_distrib, xor_and]
  ac_rfl

theorem reduceF56b_xor (x y : U64x2) :
    reduceF56b (U64x2.xor x y) = reduceF56b x ^^^ reduceF56b y := by
  unfold reduceF56b U64x2.xor
  dsimp only
  simp only [← BitVec.xor_append, BitVec.ushiftRight_xor_distrib, xor_and, BitVec.setWidth_xor]
  ac_rfl

theorem reduceF45b_xor (x y : U64x2) :
    reduceF45b (U64x2.xor x y) = reduceF45b x ^^^ reduceF45b y := by
  unfold reduceF45b U64x2.xor
  dsimp only
  simp only [← BitVec.xor_append, BitVec.ushiftRight_xor_distrib, xor_and, BitVec.setWidth_xor]
  ac_rfl

theorem or_eq_xor (lower upper : BitVec 64) :
    ((upper &&& 0xffff) <<< 24) ||| (lower >>> 40) = ((upper &&& 0xffff) <<< 24) ^^^ (lower >>> 40) := by
  apply BitVec.eq_of_getLsbD_eq
  intro i _
  rw [BitVec.getLsbD_or, BitVec.getLsbD_xor, BitVec.getLsbD_shiftLeft, BitVec.getLsbD_ushiftRight]
  by_cases h : i < 24
  · simp [h]
  · rw [lower.getLsbD_of_ge (40 + i) (by omega)]
    simp

/-- The bits of a wide product from 40 on. -/
def highF40b (product : U64x2) : BitVec 64 := ((product.2 &&& 0xffff) <<< 24) ||| (product.1 >>> 40)

theorem highF40b_xor (x y : U64x2) : highF40b (U64x2.xor x y) = highF40b x ^^^ highF40b y := by
  unfold highF40b
  rw [or_eq_xor, or_eq_xor, or_eq_xor]
  unfold U64x2.xor
  dsimp only
  rw [xor_and, BitVec.shiftLeft_xor_distrib, BitVec.ushiftRight_xor_distrib]
  generalize (x.2 &&& 0xffff) <<< 24 = a, (y.2 &&& 0xffff) <<< 24 = b
  ac_rfl

theorem reduceF40b_eq (product : U64x2) (t u : BitVec 64) (ht : t = highF40b product)
    (hu : u = t ^^^ (t >>> 35) ^^^ (t >>> 36) ^^^ (t >>> 37)) : reduceF40b product =
      0xFFFFFFFFFF &&& (product.1 ^^^ (u <<< 5) ^^^ (u <<< 4) ^^^ (u <<< 3) ^^^ (u <<< 0)) := by
  subst hu ht
  rfl

theorem reduceF40b_xor (x y : U64x2) :
    reduceF40b (U64x2.xor x y) = reduceF40b x ^^^ reduceF40b y := by
  obtain ⟨tx, htx⟩ : ∃ t, t = highF40b x := ⟨_, rfl⟩
  obtain ⟨ty, hty⟩ : ∃ t, t = highF40b y := ⟨_, rfl⟩
  obtain ⟨ux, hux⟩ : ∃ u, u = tx ^^^ (tx >>> 35) ^^^ (tx >>> 36) ^^^ (tx >>> 37) := ⟨_, rfl⟩
  obtain ⟨uy, huy⟩ : ∃ u, u = ty ^^^ (ty >>> 35) ^^^ (ty >>> 36) ^^^ (ty >>> 37) := ⟨_, rfl⟩
  have hu : ux ^^^ uy = (tx ^^^ ty) ^^^ ((tx ^^^ ty) >>> 35) ^^^ ((tx ^^^ ty) >>> 36) ^^^
      ((tx ^^^ ty) >>> 37) := by
    rw [hux, huy, BitVec.ushiftRight_xor_distrib, BitVec.ushiftRight_xor_distrib,
      BitVec.ushiftRight_xor_distrib]
    ac_rfl
  have ht : tx ^^^ ty = highF40b (U64x2.xor x y) := by rw [highF40b_xor, htx, hty]
  rw [reduceF40b_eq x tx ux htx hux, reduceF40b_eq y ty uy hty huy,
    reduceF40b_eq (U64x2.xor x y) (tx ^^^ ty) (ux ^^^ uy) ht hu]
  unfold U64x2.xor
  generalize (0xFFFFFFFFFF : BitVec 64) = mask
  simp only [BitVec.shiftLeft_xor_distrib, and_xor]
  ac_rfl

namespace SmallBinaryField

open BinaryPolynomials

theorem reduce_xor (f : SmallBinaryField) (x y : U64x2) :
    f.reduce (U64x2.xor x y) = f.reduce x ^^^ f.reduce y := by
  cases f with
  | f63b => exact reduceF63b_xor x y
  | f56b => exact reduceF56b_xor x y
  | f40b => exact reduceF40b_xor x y
  | f45b => exact reduceF45b_xor x y

theorem modulus (f : SmallBinaryField) : Modulus f.numBits f.modulusWord := by
  cases f with
  | f63b => exact ⟨by decide, by decide, below_of_toNat_lt (by decide)⟩
  | f56b => exact ⟨by decide, by decide, below_of_toNat_lt (by decide)⟩
  | f40b => exact ⟨by decide, by decide, below_of_toNat_lt (by decide)⟩
  | f45b => exact ⟨by decide, by decide, below_of_toNat_lt (by decide)⟩

theorem reduction (f : SmallBinaryField) :
    Reduction f.modulusWord f.numBits (2 * f.numBits - 1) fun x => f.reduce (halves x) where
  map_xor x y := by rw [halves_xor, f.reduce_xor]
  one := by cases f <;> decide +kernel
  succ := by cases f <;> decide +kernel
  lt := by cases f <;> decide +kernel

end SmallBinaryField

end EdaBitGen.Scuttlebutt
