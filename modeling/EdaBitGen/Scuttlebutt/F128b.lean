import EdaBitGen.Scuttlebutt.SmallBinaryFields

/-!
# GF(2^128)

Wide products come from three products of words. They are reduced word by word.
-/

open Polynomial

namespace EdaBitGen.Scuttlebutt

open MacNCheese (U64x2)
open BinaryPolynomials

/-! ## Products of words -/

/-- The product of polynomials over two elements, in one word. -/
def clmulWord (x y : BitVec 64) : BitVec 128 :=
  (List.range 64).foldl (fun acc i =>
    if y.getLsbD i then acc ^^^ (x.setWidth 128 <<< i) else acc) 0

theorem clmul_eq (x y : BitVec 64) : U64x2.clmul x y = halves (clmulWord x y) := rfl

theorem toPoly_eq_sum {w : ℕ} (x : BitVec w) :
    toPoly x = ∑ i ∈ Finset.range w, C (coefficient (x.getLsbD i)) * X ^ i := by
  ext k
  rw [coeff_toPoly, finsetSum_coeff]
  simp only [coeff_C_mul_X_pow]
  rw [Finset.sum_ite_eq]
  split
  · rfl
  · rename_i hk
    rw [x.getLsbD_of_ge k (by simpa using hk)]
    rfl

theorem toPoly_clmulWord (x y : BitVec 64) : toPoly (clmulWord x y) = toPoly x * toPoly y := by
  have hfold : ∀ k ≤ 64, toPoly ((List.range k).foldl (fun acc i =>
      if y.getLsbD i then acc ^^^ (x.setWidth 128 <<< i) else acc) (0 : BitVec 128)) =
      toPoly x * ∑ i ∈ Finset.range k, C (coefficient (y.getLsbD i)) * X ^ i := by
    intro k
    induction k with
    | zero =>
      intro _
      rw [Finset.sum_range_zero, mul_zero]
      exact toPoly_zero
    | succ k ih =>
      intro hk
      have hx : Below 64 (x.setWidth 128) := by
        intro i hi
        rw [BitVec.getLsbD_setWidth, x.getLsbD_of_ge i hi, Bool.and_false]
      have hshift : toPoly (x.setWidth 128 <<< k) = X ^ k * toPoly x := by
        rw [toPoly_shiftLeft hx (by omega), toPoly_setWidth (below_width x) (by omega)]
      rw [List.range_succ, List.foldl_append, Finset.sum_range_succ, mul_add, ← ih (by omega)]
      show toPoly (if y.getLsbD k then _ else _) = _
      cases y.getLsbD k with
      | false => simp [coefficient]
      | true =>
        rw [if_pos rfl, toPoly_xor, hshift]
        simp [coefficient, mul_comm]
  rw [toPoly_eq_sum y]
  exact hfold 64 (le_refl 64)

/-! ## Wide products -/

namespace F128b

def cast (x : BitVec 128) : U64x2 := (x.extractLsb' 0 64, x.extractLsb' 64 64)

def uncast (x : U64x2) : BitVec 128 := x.2 ++ x.1

/-- The upper half of a product and the lower one. -/
def mulWide (a b : BitVec 128) : BitVec 128 × BitVec 128 :=
  let upperBitsMadeLower (a : U64x2) : U64x2 := (a.2, 0)
  let lowerBitsMadeUpper (a : U64x2) : U64x2 := (0, a.1)
  let a := cast a
  let b := cast b
  let c := U64x2.carrylessMul true true a b
  let d := U64x2.carrylessMul false false a b
  let e := U64x2.carrylessMul false false (U64x2.xor a (upperBitsMadeLower a))
    (U64x2.xor b (upperBitsMadeLower b))
  let productUpperHalf := U64x2.xor (U64x2.xor (U64x2.xor c (upperBitsMadeLower c)) (upperBitsMadeLower d))
    (upperBitsMadeLower e)
  let productLowerHalf := U64x2.xor (U64x2.xor (U64x2.xor d (lowerBitsMadeUpper d)) (lowerBitsMadeUpper c))
    (lowerBitsMadeUpper e)
  (uncast productUpperHalf, uncast productLowerHalf)

/-- The high word and the low one. -/
def sep (x : BitVec 128) : BitVec 64 × BitVec 64 := ((x >>> 64).setWidth 64, x.setWidth 64)

def join (u l : BitVec 64) : BitVec 128 := (u.setWidth 128 <<< 64) ||| l.setWidth 128

def reduce (upper lower : BitVec 128) : BitVec 128 :=
  let (x3, x2) := sep upper
  let (x1, x0) := sep lower
  let a := x3 >>> 63
  let b := x3 >>> 62
  let c := x3 >>> 57
  let d := x2 ^^^ a ^^^ b ^^^ c
  let (e1, e0) := sep (join x3 d <<< 1)
  let (f1, f0) := sep (join x3 d <<< 2)
  let (g1, g0) := sep (join x3 d <<< 7)
  let h1 := x3 ^^^ e1 ^^^ f1 ^^^ g1
  let h0 := d ^^^ e0 ^^^ f0 ^^^ g0
  join (x1 ^^^ h1) (x0 ^^^ h0)

def mulAssign (x y : BitVec 128) : BitVec 128 :=
  let (upper, lower) := mulWide x y
  reduce upper lower

def polynomialModulus : GeneralPolynomial (ZMod 2) := modulusOf 128 [128 - 1, 7 - 1, 2 - 1, 1 - 1]

theorem toPoly_uncast (x : U64x2) : toPoly (uncast x) = X ^ 64 * toPoly x.2 + toPoly x.1 :=
  toPoly_append x.2 x.1

theorem uncast_halves (x : BitVec 128) : uncast (halves x) = x := append_halves x

theorem toPoly_clmul (x y : BitVec 64) : X ^ 64 * toPoly (U64x2.clmul x y).2 +
    toPoly (U64x2.clmul x y).1 = toPoly x * toPoly y := by
  rw [← toPoly_uncast, clmul_eq, uncast_halves, toPoly_clmulWord]

theorem add_self (p : (ZMod 2)[X]) : p + p = 0 := CharTwo.add_self_eq_zero p

theorem toPoly_mulWide (a b : BitVec 128) :
    X ^ 128 * toPoly (mulWide a b).1 + toPoly (mulWide a b).2 = toPoly a * toPoly b := by
  have ha : toPoly a = X ^ 64 * toPoly (cast a).2 + toPoly (cast a).1 := by
    rw [← toPoly_uncast]
    exact congrArg toPoly (uncast_halves a).symm
  have hb : toPoly b = X ^ 64 * toPoly (cast b).2 + toPoly (cast b).1 := by
    rw [← toPoly_uncast]
    exact congrArg toPoly (uncast_halves b).symm
  have hc := toPoly_clmul (cast a).2 (cast b).2
  have hd := toPoly_clmul (cast a).1 (cast b).1
  have he := toPoly_clmul ((cast a).1 ^^^ (cast a).2) ((cast b).1 ^^^ (cast b).2)
  rw [toPoly_xor, toPoly_xor] at he
  unfold mulWide
  dsimp only
  rw [toPoly_uncast, toPoly_uncast, ha, hb]
  simp only [U64x2.xor, U64x2.carrylessMul, toPoly_xor, toPoly_zero, if_true, Bool.false_eq_true,
    if_false]
  have hzero : (2 : (ZMod 2)[X]) = 0 := by
    have := add_self (1 : (ZMod 2)[X])
    rwa [one_add_one_eq_two] at this
  linear_combination X ^ 128 * hc + X ^ 64 * (hc + hd + he) + hd +
    X ^ 64 * (toPoly (cast a).2 * toPoly (cast b).2 + toPoly (cast a).1 * toPoly (cast b).1) * hzero

/-! ## The reduction -/

theorem join_eq (u l : BitVec 64) : join u l = u ++ l := by
  apply BitVec.eq_of_getLsbD_eq
  intro i hi
  unfold join
  rw [BitVec.getLsbD_or, BitVec.getLsbD_shiftLeft, BitVec.getLsbD_setWidth, BitVec.getLsbD_setWidth,
    BitVec.getLsbD_append]
  by_cases hlow : i < 64
  · simp [hlow, hi]
  · rw [l.getLsbD_of_ge i (by omega)]
    simp [hlow, hi, (by omega : i - 64 < 128)]

theorem sep_eq (x : BitVec 128) : sep x = ((halves x).2, (halves x).1) := by
  refine Prod.ext ?_ ?_
  · apply BitVec.eq_of_getLsbD_eq
    intro i hi
    show ((x >>> 64).setWidth 64).getLsbD i = (x.extractLsb' 64 64).getLsbD i
    rw [BitVec.getLsbD_setWidth, BitVec.getLsbD_ushiftRight, BitVec.getLsbD_extractLsb']
  · apply BitVec.eq_of_getLsbD_eq
    intro i hi
    show (x.setWidth 64).getLsbD i = (x.extractLsb' 0 64).getLsbD i
    rw [BitVec.getLsbD_setWidth, BitVec.getLsbD_extractLsb', Nat.zero_add]

theorem join_sep (x : BitVec 128) : join (sep x).1 (sep x).2 = x := by
  rw [join_eq, sep_eq, append_halves]

theorem join_xor (u l u' l' : BitVec 64) : join (u ^^^ u') (l ^^^ l') = join u l ^^^ join u' l' := by
  rw [join_eq, join_eq, join_eq, BitVec.xor_append]

theorem sep_xor (x y : BitVec 128) :
    sep (x ^^^ y) = ((sep x).1 ^^^ (sep y).1, (sep x).2 ^^^ (sep y).2) := by
  rw [sep_eq, sep_eq, sep_eq, halves_xor]
  rfl

/-- The upper half with its overflow added back. -/
def folded (upper : BitVec 128) : BitVec 128 :=
  join (sep upper).1 ((sep upper).2 ^^^ ((sep upper).1 >>> 63) ^^^ ((sep upper).1 >>> 62) ^^^
    ((sep upper).1 >>> 57))

theorem folded_xor (x y : BitVec 128) : folded (x ^^^ y) = folded x ^^^ folded y := by
  unfold folded
  rw [sep_xor, ← join_xor]
  dsimp only
  rw [BitVec.ushiftRight_xor_distrib, BitVec.ushiftRight_xor_distrib, BitVec.ushiftRight_xor_distrib]
  congr 1
  ac_rfl

theorem reduce_eq (upper lower : BitVec 128) : reduce upper lower =
    lower ^^^ (folded upper ^^^ (folded upper <<< 1) ^^^ (folded upper <<< 2) ^^^
      (folded upper <<< 7)) := by
  have hfolded : folded upper = join (sep upper).1 ((sep upper).2 ^^^ ((sep upper).1 >>> 63) ^^^
    ((sep upper).1 >>> 62) ^^^ ((sep upper).1 >>> 57)) := rfl
  unfold reduce
  dsimp only
  rw [← hfolded, join_xor, join_xor, join_xor, join_xor, join_sep, join_sep, join_sep, join_sep]
  rw [hfolded]

theorem reduce_xor (upper lower upper' lower' : BitVec 128) :
    reduce (upper ^^^ upper') (lower ^^^ lower') = reduce upper lower ^^^ reduce upper' lower' := by
  rw [reduce_eq, reduce_eq, reduce_eq, folded_xor, BitVec.shiftLeft_xor_distrib,
    BitVec.shiftLeft_xor_distrib, BitVec.shiftLeft_xor_distrib]
  ac_rfl

/-- The word of the modulus. -/
def modulusWord : BitVec 256 := 1#256 <<< 128 ||| 0b10000111

theorem modulus : Modulus 128 modulusWord :=
  ⟨by decide, by decide, below_of_toNat_lt (by decide)⟩

theorem reduction : Reduction modulusWord 128 255 fun x : BitVec 256 =>
    (reduce (x.extractLsb' 128 128) (x.extractLsb' 0 128)).setWidth 256 where
  map_xor x y := by
    rw [BitVec.extractLsb'_xor, BitVec.extractLsb'_xor, reduce_xor, BitVec.setWidth_xor]
  one := by decide +kernel
  succ := by decide +kernel
  lt := by decide +kernel

end F128b

end EdaBitGen.Scuttlebutt
