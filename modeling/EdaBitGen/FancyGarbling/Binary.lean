import EdaBitGen.Algebra.Bits
import EdaBitGen.FancyGarbling.Dummy

/-!
# Gadgets on bundles of bits

Bundles of wires of modulus 2, the lowest bit first.
-/

namespace EdaBitGen.FancyGarbling

variable {m : Type → Type} [Monad m] {W : Type} [FancyBinary m W]

/-- The lowest `n` bits of a number. -/
def u128ToBits : ℕ → ℕ → List ℕ
  | _, 0 => []
  | x, n + 1 => x % 2 :: u128ToBits (x / 2) n

/-- Create a constant bundle using base 2 inputs. -/
def binConstantBundle (val nbits : ℕ) : m (Bundle W) :=
  constantBundle (u128ToBits val nbits) (List.replicate nbits 2)

/-- The pairs of wires of two bundles of the same moduli. -/
def sameModuli (xs ys : Bundle W) : m (List (W × W)) :=
  if moduli xs ≠ moduli ys then fail .unequalModuli else pure (xs.zip ys)

/-- One round of an addition: the bits that were found and the carry. -/
def additionRound (s : List W × W) (p : W × W) : m (List W × W) := do
  let (z, c) ← adder p.1 p.2 (some s.2)
  return (s.1 ++ [z], c)

/-- Binary addition. Returns the result and the carry. -/
def binAddition (xs ys : Bundle W) : m (Bundle W × W) := do
  match ← sameModuli xs ys with
  | [] => panic
  | (x, y) :: ps => do
    let (z, c) ← adder x y none
    ps.foldlM additionRound ([z], c)

/-- Binary addition. Avoids creating extra gates for the final carry. -/
def binAdditionNoCarry (xs ys : Bundle W) : m (Bundle W) := do
  match ← sameModuli xs ys with
  | [] => panic
  | (x, y) :: ps => do
    let (z, c) ← adder x y none
    let (bs, c) ← ps.dropLast.foldlM additionRound ([z], c)
    -- xor instead of add
    let (x, y) := ps.getLastD (x, y)
    let z ← xorMany [x, y, c]
    return bs ++ [z]

/-- The product of a bundle and one wire. -/
def andWire (xs : Bundle W) (y : W) : m (Bundle W) := xs.mapM fun x => and x y

/-- One round of `bin_multiplication_lower_half`. -/
def lowerHalfRound (xs : Bundle W) (sum : Bundle W) (p : W × ℕ) : m (Bundle W) := do
  let mul ← andWire xs p.1
  let shifted ← shift mul p.2
  binAdditionNoCarry sum shifted

/-- The lower-order half of the bits of the product. -/
def binMultiplicationLowerHalf (xs ys : Bundle W) : m (Bundle W) := do
  match (← sameModuli xs ys).map Prod.snd with
  | [] => panic
  | y :: ys => do
    let sum ← andWire xs y
    (ys.zipIdx 1).foldlM (lowerHalfRound xs) sum

/-- One round of `bin_mul`. -/
def mulRound (xs : Bundle W) (sum : Bundle W) (p : W × ℕ) : m (Bundle W) := do
  let mul ← andWire xs p.1
  let shifted ← shiftExtend mul p.2
  let (sum, carry) ← binAddition sum shifted
  return sum ++ [carry]

/-- Full multiplier. -/
def binMul (xs ys : Bundle W) : m (Bundle W) := do
  match (← sameModuli xs ys).map Prod.snd with
  | [] => panic
  | y :: ys => do
    let sum ← andWire xs y
    let zero ← constant 0 2
    (ys.zipIdx 1).foldlM (mulRound xs) (sum ++ [zero])

/-- Compute the twos complement of the input bundle. -/
def binTwosComplement (xs : Bundle W) : m (Bundle W) := do
  let notXs ← xs.mapM negate
  let one ← binConstantBundle 1 xs.length
  binAdditionNoCarry notXs one

/-- Subtract two binary bundles. Returns the result and the carry. -/
def binSubtraction (xs ys : Bundle W) : m (Bundle W × W) := do
  let negYs ← binTwosComplement ys
  binAddition xs negYs

/-- Multiplex gadget for binary bundles. -/
def binMultiplex (b : W) (x y : Bundle W) : m (Bundle W) := (x.zip y).mapM fun p => mux b p.1 p.2

/-- One round of `bin_div`: the remainder so far and the digits of the quotient. -/
def divRound (ysNeg : Bundle W) (s : Bundle W × Bundle W) (x : W) : m (Bundle W × Bundle W) := do
  let acc := shiftOnce x s.1
  let (res, cout) ← binAddition acc ysNeg
  let acc ← binMultiplex cout acc res
  return (acc, s.2 ++ [cout])

/-- Divider. -/
def binDiv (xs ys : Bundle W) : m (Bundle W) := do
  let _ ← sameModuli xs ys
  let ysNeg ← binTwosComplement ys
  let acc ← binConstantBundle 0 xs.length
  let (_, qs) ← xs.reverse.foldlM (divRound ysNeg) (acc, [])
  -- Switch back to little-endian
  return qs.reverse

/-- One round of `bin_cmul`. -/
def cmulRound (x : Bundle W) (z : Bundle W) (shiftAmt : ℕ) : m (Bundle W) := do
  let s ← shift x shiftAmt
  binAdditionNoCarry z s

/-- Write the constant in binary and that gives you the shift amounts, Eg.. 7x is 4x+2x+x. -/
def binCmul (x : Bundle W) (c nbits : ℕ) : m (Bundle W) := do
  let zero ← binConstantBundle 0 nbits
  let shifts := (u128ToBits c nbits).zipIdx.filterMap fun (b, i) => if 0 < b then some i else none
  shifts.foldlM (cmulRound x) zero

/-- Compute the absolute value of a binary bundle. -/
def binAbs (x : Bundle W) : m (Bundle W) := do
  let sign ← unwrap x.getLast?
  let negated ← binTwosComplement x
  binMultiplex sign x negated

/-- Returns 1 if `x < y`. -/
def binLt (x y : Bundle W) : m W := do
  -- underflow indicates y != 0 && x >= y
  let (_, lhs) ← binSubtraction x y
  let yContains1 ← orMany y
  let yEq0 ← negate yContains1
  let xContains1 ← orMany x
  -- y == 0 && x >= y
  let rhs ← and yEq0 xContains1
  let geq ← or lhs rhs
  let ngeq ← negate geq
  let xyNeq0 ← or yContains1 xContains1
  and xyNeq0 ngeq

/-- Returns 1 if `x < y` (signed version). -/
def binLtSigned (x y : Bundle W) : m W := do
  let xNeg ← unwrap x.getLast?
  let yNeg ← unwrap y.getLast?
  let xPos ← negate xNeg
  let yPos ← negate yNeg
  -- base case: if x and y have the same sign - use unsigned lt
  let xLtYUnsigned ← binLt x y
  -- if x is negative and y is positive then x < y
  let tru ← constant 1 2
  let xNegYPos ← and xNeg yPos
  let r2 ← mux xNegYPos xLtYUnsigned tru
  -- if x is positive and y is negative then !(x < y)
  let fls ← constant 0 2
  let xPosYNeg ← and xPos yNeg
  mux xPosYNeg r2 fls

/-- The larger of two bundles. -/
def maxRound (x y : Bundle W) : m (Bundle W) := do
  let pos ← binLt x y
  let neg ← negate pos
  (x.zip y).mapM fun p => do
    let xp ← and p.1 neg
    let yp ← and p.2 pos
    xor xp yp

/-- Compute the maximum bundle in `xs`. -/
def binMax : List (Bundle W) → m (Bundle W)
  | [] => fail (.invalidArgNum 0 1)
  | x :: xs => xs.foldlM maxRound x

end EdaBitGen.FancyGarbling

/-!
# The binary gadgets on bits

What the dummy computes on wires that carry bits: gates, ripple-carry additions and shifts.
-/

namespace EdaBitGen.FancyGarbling

open Bits

/-- The wire that carries a bit. -/
def bit (b : ZMod 2) : DummyVal := ⟨b.val, 2⟩

/-- The bundle that carries some bits, lowest first. -/
abbrev bits (bs : List (ZMod 2)) : Bundle DummyVal := bs.map bit

/-! ## Gates -/

section Gates

variable (a b c : ZMod 2)

@[simp] theorem xor_bit : (xor (bit a) (bit b) : Dummy DummyVal) = .ok (bit (a + b)) := by
  revert a b
  decide

@[simp] theorem and_bit : (and (bit a) (bit b) : Dummy DummyVal) = .ok (bit (a * b)) := by
  revert a b
  decide

@[simp] theorem negate_bit : (negate (bit a) : Dummy DummyVal) = .ok (bit (1 + a)) := by
  revert a
  decide

@[simp] theorem or_bit : (or (bit a) (bit b) : Dummy DummyVal) = .ok (bit (a + b + a * b)) := by
  revert a b
  decide

@[simp] theorem adder_bit_none :
    (adder (bit a) (bit b) none : Dummy _) = .ok (bit (a + b), bit (a * b)) := by
  revert a b
  decide

@[simp] theorem adder_bit_some :
    (adder (bit a) (bit b) (some (bit c)) : Dummy _) =
      .ok (bit (a + b + c), bit (c + (a + c) * (b + c))) := by
  revert a b c
  decide

@[simp] theorem mux_bit :
    (mux (bit a) (bit b) (bit c) : Dummy DummyVal) = .ok (bit (if a = 0 then b else c)) := by
  revert a b c
  decide

theorem constant_zero : (constant 0 2 : Dummy DummyVal) = .ok (bit 0) := rfl

theorem constant_one : (constant 1 2 : Dummy DummyVal) = .ok (bit 1) := rfl

end Gates

/-! ## Bundles of bits -/

theorem bits_cons (b : ZMod 2) (bs : List (ZMod 2)) : bits (b :: bs) = bit b :: bits bs := rfl

theorem bits_append (as bs : List (ZMod 2)) : bits (as ++ bs) = bits as ++ bits bs :=
  List.map_append

theorem bits_reverse (bs : List (ZMod 2)) : bits bs.reverse = (bits bs).reverse := List.map_reverse

@[simp] theorem moduli_bits (bs : List (ZMod 2)) : moduli (bits bs) = List.replicate bs.length 2 := by
  rw [moduli, List.map_map]
  exact List.map_const'

theorem sameModuli_bits (ps : List (ZMod 2 × ZMod 2)) :
    (sameModuli (bits (ps.map Prod.fst)) (bits (ps.map Prod.snd)) : Dummy _) =
      .ok (ps.map (Prod.map bit bit)) := by
  rw [sameModuli, moduli_bits, moduli_bits, List.length_map, List.length_map]
  rw [if_neg (not_not.2 rfl), bits, bits, List.zip_map, List.zip_map']
  simp
  rfl

theorem exists_pairs {α : Type} {xs ys : List α} (h : xs.length = ys.length) :
    ∃ ps : List (α × α), xs = ps.map Prod.fst ∧ ys = ps.map Prod.snd :=
  ⟨xs.zip ys, (List.map_fst_zip h.le).symm, (List.map_snd_zip h.ge).symm⟩

theorem zip_pairs (ps : List (ZMod 2 × ZMod 2)) :
    (bits (ps.map Prod.fst)).zip (bits (ps.map Prod.snd)) = ps.map (Prod.map bit bit) := by
  rw [bits, bits, List.zip_map, List.zip_map']
  simp

/-! ## Ripple-carry additions -/

theorem foldlM_additionRound (ps : List (ZMod 2 × ZMod 2)) {as bs zs : List (ZMod 2)} {c : ZMod 2}
    (h : Adds as bs zs c) :
    ∃ zs' c', ((ps.map (Prod.map bit bit)).foldlM additionRound (bits zs, bit c) : Dummy _) =
      .ok (bits zs', bit c') ∧ Adds (as ++ ps.map Prod.fst) (bs ++ ps.map Prod.snd) zs' c' := by
  induction ps generalizing as bs zs c with
  | nil => exact ⟨zs, c, rfl, by simpa using h⟩
  | cons p ps ih =>
    obtain ⟨zs', c', hrun, hadds⟩ := ih (h.concat p.1 p.2)
    refine ⟨zs', c', ?_, by simpa using hadds⟩
    rw [List.map_cons, List.foldlM_cons, additionRound]
    simpa using hrun

theorem binAddition_bits {xs ys : List (ZMod 2)} (h : xs.length = ys.length) (hpos : 0 < xs.length) :
    ∃ zs c, (binAddition (bits xs) (bits ys) : Dummy _) = .ok (bits zs, bit c) ∧ Adds xs ys zs c := by
  obtain ⟨ps, rfl, rfl⟩ := exists_pairs h
  rw [binAddition, sameModuli_bits, ok_bind]
  cases ps with
  | nil => simp at hpos
  | cons p ps =>
    obtain ⟨zs, c, hrun, hadds⟩ := foldlM_additionRound ps (Adds.single p.1 p.2)
    exact ⟨zs, c, by simpa using hrun, hadds⟩

theorem xorMany_bits (x y c : ZMod 2) :
    (xorMany [bit x, bit y, bit c] : Dummy DummyVal) = .ok (bit (x + y + c)) := by
  revert x y c
  decide

theorem binAdditionNoCarry_bits {xs ys : List (ZMod 2)} (h : xs.length = ys.length)
    (htwo : 2 ≤ xs.length) :
    ∃ zs, (binAdditionNoCarry (bits xs) (bits ys) : Dummy _) = .ok (bits zs) ∧
      zs.length = xs.length ∧ toNat zs = (toNat xs + toNat ys) % 2 ^ xs.length := by
  obtain ⟨ps, rfl, rfl⟩ := exists_pairs h
  rw [List.length_map] at htwo ⊢
  rw [binAdditionNoCarry, sameModuli_bits, ok_bind]
  obtain ⟨p, qs, rfl⟩ := List.exists_cons_of_length_pos (by omega : 0 < ps.length)
  obtain ⟨rs, r, rfl⟩ := List.eq_nil_or_concat' qs |>.resolve_left (by rintro rfl; simp at htwo)
  obtain ⟨zs, c, hrun, hadds⟩ := foldlM_additionRound rs (Adds.single p.1 p.2)
  -- the last position leaves its carry out
  have hlast := hadds.concat r.1 r.2
  have hlength : (zs ++ [r.1 + r.2 + c]).length = (p :: (rs ++ [r])).length := by
    simpa using hlast.length_left.symm
  refine ⟨zs ++ [r.1 + r.2 + c], ?_, hlength, ?_⟩
  · have hrun' := hrun
    simp at hrun' ⊢
    rw [hrun']
    simp [xorMany_bits]
  · rw [hlast.toNat_eq, hlength]
    simp

theorem binAdditionNoCarry_single (x y : ZMod 2) :
    (binAdditionNoCarry (bits [x]) (bits [y]) : Dummy _) = .ok (bits [x + y, x + y + x * y]) := by
  revert x y
  decide

end EdaBitGen.FancyGarbling
