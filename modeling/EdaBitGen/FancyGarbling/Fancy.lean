import Mathlib

/-!
# Fancy computations

The operations on wires from which the gadgets are built, over a monad that may fail. A wire has a
modulus; moduli and residues are words of 16 bits.
-/

namespace EdaBitGen.FancyGarbling

/-- API-usage errors of fancy computations. -/
inductive FancyError
  | unequalModuli
  | invalidArg (what : String)
  | invalidArgNum (got needed : ℕ)
  | invalidArgMod (got needed : ℕ)
  | noTruthTable
  | invalidTruthTable
  | uninitializedValue
  deriving DecidableEq

/-- An object that has some modulus. -/
class HasModulus (W : Type) where
  modulus : W → ℕ

export HasModulus (modulus)

/-- The basic computations on wires `W`, with the errors and panics of the source. -/
class Fancy (m : Type → Type) (W : outParam Type) extends HasModulus W where
  constant : ℕ → ℕ → m W
  output : W → m (Option ℕ)
  fail : {α : Type} → FancyError → m α
  panic : {α : Type} → m α

class FancyArithmetic (m : Type → Type) (W : outParam Type) extends Fancy m W where
  add : W → W → m W
  sub : W → W → m W
  cmul : W → ℕ → m W
  mul : W → W → m W
  proj : W → ℕ → Option (List ℕ) → m W

class FancyBinary (m : Type → Type) (W : outParam Type) extends Fancy m W where
  xor : W → W → m W
  and : W → W → m W
  negate : W → m W

export Fancy (constant output fail panic)
export FancyArithmetic (add sub cmul mul proj)
export FancyBinary (xor and negate)

variable {m : Type → Type} [Monad m] {W : Type}

section Words

variable [Fancy m W]

/-- A word of 16 bits; the arithmetic that leaves it panics. -/
def word (n : ℕ) : m ℕ := if n < 2 ^ 16 then pure n else panic

/-- A remainder; that of a division by zero panics. -/
def remainder (a b : ℕ) : m ℕ := if b = 0 then panic else pure (a % b)

/-- An element of a slice; an index past its end panics. -/
def index {α : Type} (l : List α) (i : ℕ) : m α :=
  match l[i]? with
  | some a => pure a
  | none => panic

/-- `Option::unwrap`. -/
def unwrap {α : Type} : Option α → m α
  | some a => pure a
  | none => panic

/-- Outputs a slice of wires. -/
def outputs (xs : List W) : m (Option (List ℕ)) := do
  let zs ← xs.mapM output
  return zs.mapM id

/-- The fold that the gadgets of many arguments share. -/
def foldArgs (needed : ℕ) (op : W → W → m W) : List W → m W
  | [] => fail (.invalidArgNum 0 needed)
  | x :: xs =>
    if (x :: xs).length < needed then fail (.invalidArgNum (x :: xs).length needed)
    else xs.foldlM op x

end Words

/-! ## Binary operations -/

section Binary

variable [FancyBinary m W]

/-- Uses Demorgan's Rule implemented with an and gate and negation. -/
def or (x y : W) : m W := do
  let notx ← negate x
  let noty ← negate y
  let z ← and notx noty
  negate z

/-- Binary adder. Returns the result and the carry. -/
def adder (x y : W) : Option W → m (W × W)
  | some c => do
    let z1 ← xor x y
    let z2 ← xor z1 c
    let z3 ← xor x c
    let z4 ← and z1 z3
    let carry ← xor z4 x
    return (z2, carry)
  | none => do
    let z ← xor x y
    let carry ← and x y
    return (z, carry)

/-- Returns 1 if all wires equal 1. -/
def andMany (args : List W) : m W := foldArgs 1 and args

/-- Returns 1 if any wire equals 1. -/
def orMany (args : List W) : m W := foldArgs 1 or args

/-- Xor many wires together. -/
def xorMany (args : List W) : m W := foldArgs 2 xor args

/-- If `b = 0` returns `x` else `y`. -/
def mux (b x y : W) : m W := do
  let notb ← negate b
  let xsel ← and notb x
  let ysel ← and b y
  xor xsel ysel

end Binary

/-! ## Arithmetic operations -/

section Arithmetic

variable [FancyArithmetic m W]

/-- Sum up a slice of wires. -/
def addMany (args : List W) : m W := foldArgs 2 add args

/-- Change the modulus of `x` to `toModulus` using a projection gate. -/
def modChange (x : W) (toModulus : ℕ) : m W :=
  if modulus x = toModulus then pure x
  else do
    let tab ← (List.range (modulus x)).mapM fun x => remainder x toModulus
    proj x toModulus (some tab)

/-- The check of `check_binary!`. -/
def checkBinary (x : W) : m Unit :=
  if modulus x ≠ 2 then fail (.invalidArgMod (modulus x) 2) else pure ()

/-- The binary operations of `derive_binary!`. -/
@[reducible] def deriveBinary : FancyBinary m W where
  xor x y := do
    checkBinary x
    checkBinary y
    add x y
  and x y := do
    checkBinary x
    checkBinary y
    mul x y
  negate x := do
    checkBinary x
    let c ← constant 1 2
    checkBinary x
    checkBinary c
    add x c

end Arithmetic

end EdaBitGen.FancyGarbling

/-!
## Numbers and residues

Composite moduli with small prime factors, and the reconstruction of a number from its residues. The
arithmetic is that of words of 128 bits; what leaves them panics, and so does a division by zero.
-/

namespace EdaBitGen.FancyGarbling

/-- Primes used in fancy garbling. -/
def PRIMES : List ℕ :=
  [2, 3, 5, 7, 11, 13, 17, 19, 23, 29, 31, 37, 41, 43, 47, 53, 59, 61, 67, 71, 73, 79, 83, 89, 97, 101,
    103, 107, 109]

/-- An unsigned word of 128 bits. -/
def u128 (v : ℕ) : Option ℕ := if v < 2 ^ 128 then some v else none

/-- A signed word of 128 bits. -/
def i128 (v : ℤ) : Option ℤ := if -2 ^ 127 ≤ v ∧ v < 2 ^ 127 then some v else none

/-- Compute the product of some words. -/
def product (xs : List ℕ) : Option ℕ := xs.foldlM (fun acc x => u128 (acc * x)) 1

/-- The factors of `x` among some primes, with what is left. -/
def divideOut (primes : List ℕ) (x : ℕ) : ℕ × List ℕ :=
  primes.foldl (fun s p => if s.1 % p = 0 then (s.1 / p, s.2 ++ [p]) else s) (x, [])

/-- Factor using the primes in `PRIMES`. -/
def factor (inp : ℕ) : Option (List ℕ) :=
  let (x, fs) := divideOut PRIMES inp
  if x ≠ 1 then none else some fs

/-- Compute the CRT representation of `x` with respect to the primes `ps`. -/
def crt (x : ℕ) (ps : List ℕ) : Option (List ℕ) :=
  ps.mapM fun p => if p = 0 then none else some (x % p)

/-- The rounds of `inv`; `a` and `b` are never negative. -/
def invLoop (a b : ℕ) (x0 x1 : ℤ) : Option ℤ :=
  if 1 < a then
    if _h : b = 0 then none
    else do
      let step ← i128 ((a / b : ℕ) * x0)
      let x ← i128 (x1 - step)
      invLoop b (a % b) x x0
  else some x1
termination_by b
decreasing_by exact Nat.mod_lt a (Nat.pos_of_ne_zero _h)

/-- Invert `a` mod `b`. -/
def inv (a b : ℕ) : Option ℤ :=
  if b = 1 then some 1
  else do
    let x1 ← invLoop a b 0 1
    if x1 < 0 then i128 (x1 + b) else some x1

/-- One round of `crt_inv` for a prime and its residue. -/
def crtInvRound (M ret : ℤ) (pa : ℕ × ℕ) : Option ℤ :=
  if pa.1 = 0 then none
  else do
    let q := M / pa.1
    let i ← inv q.toNat pa.1
    let factor ← i128 (pa.2 * i)
    let term ← i128 (factor * q)
    let sum ← i128 (ret + term)
    return sum % M

/-- Compute the value `x` given a list of CRT primes and residues. -/
def crtInv (xs ps : List ℕ) : Option ℕ := do
  let M ← ps.foldlM (fun acc (x : ℕ) => i128 (x * acc)) (1 : ℤ)
  let ret ← (ps.zip xs).foldlM (crtInvRound M) 0
  return ret.toNat

/-- Compute the value `x` given the residues and the composite modulus `q`. -/
def crtInvFactor (xs : List ℕ) (q : ℕ) : Option ℕ := do
  let ps ← factor q
  crtInv xs ps

end EdaBitGen.FancyGarbling

/-!
## Bundles of wires

The gadgets on bundles that are tied to no representation of numbers, and mixed-radix addition.
-/

namespace EdaBitGen.FancyGarbling

/-- A collection of wires. -/
abbrev Bundle (W : Type) := List W

variable {m : Type → Type} [Monad m] {W : Type}

/-- The moduli of all the wires in the bundle. -/
def moduli [HasModulus W] (x : Bundle W) : List ℕ := x.map modulus

section Fancy

variable [Fancy m W]

/-- Creates a bundle of constant wires using moduli `ps`. -/
def constantBundle (xs ps : List ℕ) : m (Bundle W) :=
  (xs.zip ps).mapM fun p => constant p.1 p.2

/-- Output the wires that make up a bundle. -/
def outputBundle (x : Bundle W) : m (Option (List ℕ)) := outputs x

/-- `ws.pop()` and `ws.insert(0, zero)`. -/
def shiftOnce (zero : W) (ws : Bundle W) : Bundle W := zero :: ws.dropLast

/-- Shift residues, replacing them with zeros in the modulus of the last wire. -/
def shift (x : Bundle W) (n : ℕ) : m (Bundle W) := do
  let last ← unwrap x.getLast?
  let zero ← constant 0 (modulus last)
  return (shiftOnce zero)^[n] x

/-- Shift residues; the output is extended with `n` elements. -/
def shiftExtend (x : Bundle W) (n : ℕ) : m (Bundle W) := do
  let last ← unwrap x.getLast?
  let zero ← constant 0 (modulus last)
  return (List.cons zero)^[n] x

end Fancy

/-! ## Arithmetic gadgets -/

section Arithmetic

variable [FancyArithmetic m W]

/-- A gate for each pair of wires of two bundles. -/
def zipWires (op : W → W → m W) (x y : Bundle W) : m (Bundle W) :=
  (x.zip y).mapM fun p => op p.1 p.2

/-- Add two wire bundles pairwise. -/
def addBundles (x y : Bundle W) : m (Bundle W) :=
  if x.length ≠ y.length then fail (.invalidArgNum y.length x.length) else zipWires add x y

/-- Subtract two wire bundles, residue by residue. -/
def subBundles (x y : Bundle W) : m (Bundle W) :=
  if x.length ≠ y.length then fail (.invalidArgNum y.length x.length) else zipWires sub x y

/-- Multiply each wire in `x` with each wire in `y`, pairwise. -/
def mulBundles (x y : Bundle W) : m (Bundle W) := zipWires mul x y

/-- Whether two wires are equal, as a wire of modulus `wlen + 1`. -/
def eqWires (wlen : ℕ) (x y : W) : m W := do
  let z ← sub x y
  -- `eq_zero_tab[0] = 1` on a table of the modulus' length
  if modulus x = 0 then panic
  else do
    let toModulus ← word (wlen + 1)
    proj z toModulus (some (1 :: List.replicate (modulus x - 1) 0))

/-- Compute `x == y`. Returns a wire encoding the result mod 2. -/
def eqBundles (x y : Bundle W) : m W :=
  if moduli x ≠ moduli y then fail .unequalModuli
  else do
    let zs ← zipWires (eqWires (x.length % 2 ^ 16)) x y
    let z ← addMany zs
    proj z 2 (some (List.replicate zs.length 0 ++ [1]))

/-- The largest sum of a column, `nargs as u16 * (q - 1) + max_carry`. -/
def columnMax (nargs q maxCarry : ℕ) : m ℕ := do
  if q = 0 then panic
  else do
    let product ← word (nargs % 2 ^ 16 * (q - 1))
    word (product + maxCarry)

/-- The `i`th wires of all bundles. -/
def column (xs : List (Bundle W)) (i : ℕ) : m (List W) := xs.mapM fun x => index x i

/-- The sum of some wires and of a carry, if there is one. -/
def addCarry (sum : W) : Option W → m W
  | none => pure sum
  | some c => add sum c

/-- The carries that a column passes on: to the digit of the next one and to its carries. -/
structure Carries (W : Type) where
  digitCarry : Option W
  carryCarry : Option W
  maxCarry : ℕ

/-- The carry for the carries of the next column, of modulus `nextModulus`. -/
def nextCarryCarry (digitCarry carry : W) (q maxVal nextMod nextModulus : ℕ) : m W :=
  if maxVal / q < nextMod then modChange digitCarry nextModulus
  else proj carry nextModulus (some ((List.range (maxVal + 1)).map fun v => v / q))

/-- The carries out of column `i`, which is not the last one. -/
def nextCarries (moduli : List ℕ) (nargs i : ℕ) (ds : List W) (c : Carries W) :
    m (Carries W) := do
  let n := moduli.length
  let q ← index moduli i
  let maxVal ← columnMax nargs q c.maxCarry
  let maxCarry := maxVal / q
  let sumModulus ← word (maxVal + 1)
  let moddedDs ← ds.mapM fun d => modChange d sumModulus
  let carrySum ← addMany moddedDs
  let carry ← addCarry carrySum c.carryCarry
  let nextMod ← index moduli (i + 1)
  let tt ← (List.range (maxVal + 1)).mapM fun v => remainder (v / q) nextMod
  let digitCarry ← proj carry nextMod (some tt)
  let nextMaxVal ← columnMax nargs nextMod maxCarry
  if i + 2 < n then do
    let nextModulus ← word (nextMaxVal + 1)
    let carryCarry ← nextCarryCarry digitCarry carry q maxVal nextMod nextModulus
    return ⟨some digitCarry, some carryCarry, maxCarry⟩
  else return ⟨some digitCarry, none, maxCarry⟩

/-- The carries out of column `i`; the last one has none. -/
def columnCarries (moduli : List ℕ) (nargs i : ℕ) (ds : List W) (c : Carries W) :
    m (Carries W) :=
  if i + 1 < moduli.length then nextCarries moduli nargs i ds c
  else pure ⟨none, none, c.maxCarry⟩

/-- One round of `mixed_radix_addition`, with the digits that were found. -/
def additionColumn (xs : List (Bundle W)) (moduli : List ℕ) (s : List W × Carries W) (i : ℕ) :
    m (List W × Carries W) := do
  let ds ← column xs i
  let digitSum ← addMany ds
  let digit ← addCarry digitSum s.2.digitCarry
  let carries ← columnCarries moduli xs.length i ds s.2
  return (s.1 ++ [digit], carries)

/-- The moduli that all arguments share. -/
def commonModuli : List (Bundle W) → m (List ℕ)
  | [] => fail (.invalidArgNum 0 1)
  | x :: xs =>
    if ∀ y ∈ xs, moduli y = moduli x then pure (moduli x) else fail .unequalModuli

/-- Mixed radix addition. -/
def mixedRadixAddition (xs : List (Bundle W)) : m (Bundle W) := do
  let moduli ← commonModuli xs
  let (res, _) ← (List.range moduli.length).foldlM (additionColumn xs moduli)
    ([], ⟨none, none, 0⟩)
  return res

/-- The modulus of the carry out of column `i`: the last digit's own, before it that of the sums. -/
def msbModulus (moduli : List ℕ) (nargs i maxCarry : ℕ) : m ℕ := do
  let nextQ ← index moduli (i + 1)
  if i + 2 < moduli.length then do
    let nextMax ← columnMax nargs nextQ maxCarry
    word (nextMax + 1)
  else return nextQ

/-- One round of `mixed_radix_addition_msb_only`: the carry and its bound. -/
def msbColumn (xs : List (Bundle W)) (moduli : List ℕ) (s : Option W × ℕ) (i : ℕ) :
    m (Option W × ℕ) := do
  let ds ← column xs i
  let q ← index moduli i
  let maxVal ← columnMax xs.length q s.2
  let maxCarry := maxVal / q
  let sumModulus ← word (maxVal + 1)
  let moddedDs ← ds.mapM fun d => modChange d sumModulus
  let sum ← addMany moddedDs
  let sumWithCarry ← addCarry sum s.1
  let nextMod ← msbModulus moduli xs.length i maxCarry
  let tt ← (List.range (maxVal + 1)).mapM fun v => remainder (v / q) nextMod
  let carry ← proj sumWithCarry nextMod (some tt)
  return (some carry, maxCarry)

/-- Mixed radix addition only returning the most significant digit. -/
def mixedRadixAdditionMsbOnly (xs : List (Bundle W)) : m W := do
  let moduli ← commonModuli xs
  if moduli.length = 0 then panic
  else do
    let (carry, _) ← (List.range (moduli.length - 1)).foldlM (msbColumn xs moduli) (none, 0)
    let ds ← column xs (moduli.length - 1)
    let digitSum ← addMany ds
    addCarry digitSum carry

end Arithmetic

end EdaBitGen.FancyGarbling
