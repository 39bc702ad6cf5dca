import EdaBitGen.Algebra.Rounding
import EdaBitGen.FancyGarbling.Fancy

/-!
# Gadgets on bundles of residues

Numbers modulo a product of primes, one wire for each prime: arithmetic, conversion to mixed radix,
comparison and division.
-/

namespace EdaBitGen.FancyGarbling

/-- Both kinds of operations, on the same wires. -/
class FancyCrt (m : Type → Type) (W : outParam Type) extends FancyArithmetic m W, FancyBinary m W

variable {m : Type → Type} [Monad m] {W : Type}

/-! ## Arithmetic -/

section Arithmetic

variable [FancyArithmetic m W]

/-- Return the product of all the wires' moduli. -/
def compositeModulus (x : Bundle W) : m ℕ := unwrap (product (moduli x))

/-- Creates a bundle of constant wires for the CRT representation of `x`. -/
def crtConstantBundle (x q : ℕ) : m (Bundle W) := do
  let ps ← unwrap (factor q)
  let xs ← unwrap (crt x ps)
  constantBundle xs ps

/-- Output a CRT bundle and interpret it mod Q. -/
def crtOutput (x : Bundle W) : m (Option ℕ) := do
  let q ← compositeModulus x
  match ← outputBundle x with
  | none => return none
  | some xs => do
    let value ← unwrap (crtInvFactor xs q)
    return some value

/-- Add two CRT bundles. -/
def crtAdd (x y : Bundle W) : m (Bundle W) := addBundles x y

/-- Subtract two CRT bundles. -/
def crtSub (x y : Bundle W) : m (Bundle W) := subBundles x y

/-- Multiplies each wire in `x` by the corresponding residue of `c`. -/
def crtCmul (x : Bundle W) (c : ℕ) : m (Bundle W) := do
  let cs ← unwrap (crt c (moduli x))
  (x.zip cs).mapM fun p => cmul p.1 p.2

/-- Multiply `x` with `y`. -/
def crtMul (x y : Bundle W) : m (Bundle W) := mulBundles x y

/-- `(x as u64).pow(c) % p`; a power past 64 bits panics. -/
def powMod (c p x : ℕ) : m ℕ := if x ^ c < 2 ^ 64 then remainder (x ^ c) p else panic

/-- Exponentiate a wire by the constant `c`. -/
def cexpWire (c : ℕ) (x : W) : m W := do
  let tab ← (List.range (modulus x)).mapM fun v => powMod c (modulus x) v
  proj x (modulus x) (some tab)

/-- Exponentiate `x` by the constant `c`. -/
def crtCexp (x : Bundle W) (c : ℕ) : m (Bundle W) := x.mapM fun w => cexpWire c w

/-- Compute the remainder with respect to modulus `p`. -/
def crtRem (x : Bundle W) (p : ℕ) : m (Bundle W) := do
  match (moduli x).findIdx? (p = ·) with
  | none => fail (.invalidArg "p is not a modulus in this bundle!")
  | some i => do
    let w ← index x i
    (moduli x).mapM fun q => modChange w q

/-! ## Mixed radix -/

/-- The first pair of residues with a difference, and what `gadget_projection_tt` has for it. -/
def projectionEntry (p q z : ℕ) : Option ℕ := do
  let pq := p + q - 1
  let pairs := (List.range p).flatMap fun i => (List.range q).map fun j => (i, j)
  let (x, y) := (pairs.find? fun (i, j) => (i + pq - j) % pq = z).getD (0, 0)
  if (x + pq - y) % pq ≠ z then none
  else do
    let qInv ← inv q p
    let pInv ← inv p q
    let sum := x * q * qInv.toNat + y * p * pInv.toNat
    if sum < 2 ^ 32 then some (sum / p % q) else none

/-- The digit of two residues: their difference over the first modulus, in the second one. -/
def pmrGadget (x y : W) : m W := do
  let p := modulus x
  let q := modulus y
  let sum ← word (p + q)
  let x' ← modChange x (sum - 1)
  let y' ← modChange y (sum - 1)
  let z ← sub x' y'
  let tab ← unwrap ((List.range (sum - 1)).mapM (projectionEntry p q))
  proj z q (some tab)

/-- The rows of the table: each one comes from the row before, and its first wire is a digit. -/
def pmrRows : ℕ → List W → m (Bundle W)
  | 0, _ => return []
  | _ + 1, [] => panic
  | n + 1, w :: ws => do
    let row ← ws.mapM fun y => pmrGadget w y
    let digits ← pmrRows n row
    return w :: digits

/-- Convert the bundle to PMR representation. -/
def crtToPmr (xs : Bundle W) : m (Bundle W) := pmrRows xs.length xs

/-- Comparison based on PMR. There must be an extra modulus that is not necessary to represent the
values. -/
def pmrLt (x y : Bundle W) : m W := do
  let z ← crtSub x y
  let pmr ← crtToPmr z
  let w ← unwrap pmr.getLast?
  -- `tab[0] = 0` on a table of the modulus' length
  if modulus w = 0 then panic
  else proj w 2 (some (0 :: List.replicate (modulus w - 1) 1))

end Arithmetic

section Division

variable [FancyCrt m W]

/-- The negation of `pmr_lt`. -/
def pmrGeq (x y : Bundle W) : m W := do
  let z ← pmrLt x y
  negate z

/-- One round of `crt_div`, for the bit `b` of the quotient. -/
def crtDivRound (q q_ : ℕ) (one y : Bundle W) (s : Bundle W × Bundle W) (b : ℕ) :
    m (Bundle W × Bundle W) := do
  let (quotient, a) := s
  let pb := if q_ % b = 0 then q_ / b - 1 else q_ / b
  let tmp ← crtCmul y b
  let c1 ← pmrGeq a tmp
  let pbCrt ← crtConstantBundle pb q
  let c2 ← pmrGeq pbCrt y
  let c ← and c1 c2
  let cCrt ← one.mapM fun w => mul w c
  let bIf ← crtCmul cCrt b
  let quotient ← crtAdd quotient bIf
  let tmpIf ← crtMul cCrt tmp
  let a ← crtSub a tmpIf
  return (quotient, a)

/-- Generic, and expensive, CRT-based division. Requires an extra unused prime in both inputs. -/
def crtDiv (x y : Bundle W) : m (Bundle W) := do
  if moduli x ≠ moduli y then fail .unequalModuli
  else do
    let q ← compositeModulus x
    -- the last prime is unused
    if (moduli x).length = 0 then panic
    else do
      let q_ ← unwrap (product (moduli x).dropLast)
      let l := Nat.size q_
      let quotient ← crtConstantBundle 0 q
      let one ← crtConstantBundle 1 q
      let (quotient, _) ← ((List.range l).map fun i => 2 ^ (l - i - 1)).foldlM
        (crtDivRound q q_ one y) (quotient, x)
      return quotient

end Division

end EdaBitGen.FancyGarbling

/-!
## Signs of residues

The fraction `x / Q` is looked up digit by digit, residue by residue, in a mixed radix that is chosen
by the number of primes, and the sign of `x` is read from the last digit of the sum. Floating-point
numbers have 53 significant bits.
-/

namespace EdaBitGen.FancyGarbling

/-- Convert `x` into mixed radix form using the provided `radii`. -/
def asMixedRadix : ℕ → List ℕ → Option (List ℕ)
  | _, [] => some []
  | x, m :: radii =>
    if m ≤ x then
      if m = 0 then none
      else do
        let ds ← asMixedRadix ((x - x % m) / m) radii
        return x % m :: ds
    else do
      let ds ← asMixedRadix 0 radii
      return x :: ds

/-- A product of two non-negative `f64`. -/
def mulF64 (a b : ℕ) : ℕ := Rounding.roundBits 53 (a * b)

/-- `(M as f64 * x as f64 * crt_coef as f64 / p as f64).round()`. -/
def scaledResidue (M x coef p : ℕ) : ℕ :=
  Rounding.nearestQuotient 53
    (mulF64 (mulF64 (Rounding.roundBits 53 M) (Rounding.roundBits 53 x)) (Rounding.roundBits 53 coef)) p

/-- The `ms` of `get_ms` for the accuracy 100%, by the number of primes. -/
def msExact : ℕ → Option (List ℕ)
  | 3 => some (List.replicate 5 2)
  | 4 => some [3, 26]
  | 5 => some [3, 4, 54]
  | 6 => some [5, 5, 5, 60]
  | 7 => some [5, 6, 6, 7, 86]
  | 8 => some [5, 7, 8, 8, 9, 98]
  | 9 => some [5, 5, 7, 7, 7, 7, 7, 76]
  | 10 => some [5, 5, 6, 6, 6, 6, 11, 11, 202]
  | 11 => some [5, 5, 5, 5, 5, 6, 6, 6, 7, 7, 8, 150]
  | _ => none

/-- The `ms` for the accuracy 99.999%. -/
def ms99999 : ℕ → Option (List ℕ)
  | 8 => some [5, 5, 6, 7, 102]
  | 9 => some [5, 5, 6, 7, 114]
  | 10 => some [5, 6, 6, 7, 102]
  | 11 => some [5, 5, 6, 7, 130]
  | _ => none

/-- The `ms` for the accuracy 99.99%. -/
def ms9999 : ℕ → Option (List ℕ)
  | 6 => some [5, 5, 5, 42]
  | 7 => some [4, 5, 6, 88]
  | 8 => some [4, 5, 7, 78]
  | 9 => some [5, 5, 6, 84]
  | 10 => some [4, 5, 6, 112]
  | 11 => some [7, 11, 174]
  | _ => none

/-- The `ms` for the accuracy 99.9%. -/
def ms999 : ℕ → Option (List ℕ)
  | 5 => some [3, 5, 30]
  | 6 => some [4, 5, 48]
  | 7 => some [4, 5, 60]
  | 8 => some [3, 5, 78]
  | 9 => some [9, 140]
  | 10 => some [7, 190]
  | _ => none

/-- The `ms` for the accuracy 99%. -/
def ms99 : ℕ → Option (List ℕ)
  | 4 => some [3, 18]
  | 5 => some [3, 36]
  | 6 => some [3, 40]
  | 7 => some [3, 40]
  | 8 => some [126]
  | 9 => some [138]
  | 10 => some [140]
  | _ => none

/-- The `ms` needed for a number of CRT primes, with an accuracy. -/
def getMs (accuracy : String) (n : ℕ) : Option (List ℕ) :=
  if accuracy = "100%" then msExact n
  else if accuracy = "99.999%" then ms99999 n
  else if accuracy = "99.99%" then ms9999 n
  else if accuracy = "99.9%" then ms999 n
  else if accuracy = "99%" then ms99 n
  else none

variable {m : Type → Type} [Monad m] {W : Type}

section Arithmetic

variable [FancyArithmetic m W]

/-- The row of the tables for the residue `x` modulo `p`. -/
def fractionalDigits (q M p x : ℕ) (ms : List ℕ) : m (List ℕ) := do
  let coef ← unwrap (inv (q / p % p) p)
  let y ← remainder (scaledResidue M x coef.toNat p) M
  unwrap (asMixedRadix y ms)

/-- The digit at position `i`, from the rows of the tables. -/
def projColumn (ms : List ℕ) (wire : W) (rows : List (List ℕ)) (i : ℕ) : m W := do
  let tt ← rows.mapM fun row => index row i
  let modulus ← index ms i
  proj wire modulus (some tt)

/-- The digits for one wire. -/
def fractionalBundle (q M : ℕ) (ms : List ℕ) (wire : W) : m (Bundle W) := do
  let rows ← (List.range (modulus wire)).mapM fun x => fractionalDigits q M (modulus wire) x ms
  (List.range ms.length).mapM fun i => projColumn ms wire rows i

/-- Returns the MSB of the fractional part of `X/M` where `M=product(ms)`. -/
def crtFractionalMixedRadix (bun : Bundle W) (ms : List ℕ) : m W := do
  let q ← compositeModulus bun
  let M ← unwrap (product ms)
  let ds ← bun.mapM fun wire => fractionalBundle q M ms wire
  mixedRadixAdditionMsbOnly ds

/-- The MSB with the modulus that it has. -/
def fractionalMsb (x : Bundle W) (accuracy : String) : m (W × ℕ) := do
  let factorsOfM ← unwrap (getMs accuracy x.length)
  let res ← crtFractionalMixedRadix x factorsOfM
  let p ← unwrap factorsOfM.getLast?
  return (res, p)

/-- The wires of a bundle with the given moduli. -/
def withModuli (x : Bundle W) (moduli : List ℕ) : m (Bundle W) :=
  moduli.mapM fun p => unwrap (x.find? fun w => modulus w = p)

/-- The wires that an operation with optional output moduli works on. -/
def outputWires (x : Bundle W) : Option (List ℕ) → m (Bundle W)
  | none => return x
  | some ps => withModuli x ps

/-- Compute `max(x,0)`. -/
def crtRelu (x : Bundle W) (accuracy : String) (outputModuli : Option (List ℕ)) : m (Bundle W) := do
  let (res, p) ← fractionalMsb x accuracy
  -- project the MSB to 0/1, whether or not it is less than p/2
  let mask ← proj res 2 (some ((List.range p).map fun v => if v < p / 2 then 1 else 0))
  let wires ← outputWires x outputModuli
  wires.mapM fun w => mul w mask

/-- Return 0 if `x` is positive and 1 if `x` is negative. -/
def crtSign (x : Bundle W) (accuracy : String) : m W := do
  let (res, p) ← fractionalMsb x accuracy
  proj res 2 (some ((List.range p).map fun v => if p / 2 ≤ v then 1 else 0))

/-- The table entry of `crt_sgn` for `-1`; `p - 1` panics for the modulus 0. -/
def sgnWire (sign : W) (p : ℕ) : m W := if p = 0 then panic else proj sign p (some [1, p - 1])

/-- Return `if x >= 0 then 1 else -1`, where `-1` is interpreted as `Q-1`. -/
def crtSgn (x : Bundle W) (accuracy : String) (outputModuli : Option (List ℕ)) : m (Bundle W) := do
  let sign ← crtSign x accuracy
  (outputModuli.getD (moduli x)).mapM fun p => sgnWire sign p

/-- Returns 1 if `x < y`. -/
def crtLt (x y : Bundle W) (accuracy : String) : m W := do
  let z ← crtSub x y
  crtSign z accuracy

end Arithmetic

section Maximum

variable [FancyCrt m W]

/-- One wire of `x` or `y`. -/
def selectWire (neg pos x y : W) : m W := do
  let xp ← mul x neg
  let yp ← mul y pos
  add xp yp

/-- One round of `crt_max`. -/
def crtMaxRound (accuracy : String) (x y : Bundle W) : m (Bundle W) := do
  let pos ← crtLt x y accuracy
  let neg ← negate pos
  (x.zip y).mapM fun p => selectWire neg pos p.1 p.2

/-- Compute the maximum bundle in `xs`. -/
def crtMax (xs : List (Bundle W)) (accuracy : String) : m (Bundle W) :=
  match xs with
  | [] => fail (.invalidArgNum 0 1)
  | x :: xs => xs.foldlM (crtMaxRound accuracy) x

end Maximum

end EdaBitGen.FancyGarbling
