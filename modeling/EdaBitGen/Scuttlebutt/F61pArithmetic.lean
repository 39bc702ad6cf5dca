import EdaBitGen.Scuttlebutt.F61p

/-!
# The arithmetic of `F61p`

An element of `F61p` is a word of 64 bits.  The operations add, subtract and multiply in 128 bits
and fold the result once; on canonical words they give canonical words again, so that the words of
equal elements are equal.
-/

namespace EdaBitGen

open Coefficients Polynomial

namespace F61p

/-! ## Words -/

def modulus : ℕ := 2 ^ 61 - 1

/-- Fold a 128-bit integer once and subtract the modulus at most once. -/
def reduce (k : ℕ) : ℕ :=
  let i := k % 2 ^ 61 + k / 2 ^ 61
  let operand := if i < modulus then 0 else modulus
  (i - operand) % 2 ^ 64

def add (a b : ℕ) : ℕ := reduce (a + b)

/-- The modulus is added so that the difference is not negative. -/
def sub (a b : ℕ) : ℕ := reduce (a + modulus - b)

def mul (a b : ℕ) : ℕ := reduce (a * b)

def neg (a : ℕ) : ℕ := sub 0 a

/-- The loop of `pow_var_time`, over the bits of `n`. -/
def powLoop (acc b n : ℕ) : ℕ :=
  if h : n = 0 then acc
  else powLoop (if n % 2 = 1 then mul b acc else acc) (mul b b) (n / 2)
termination_by n
decreasing_by exact Nat.div_lt_self (Nat.pos_of_ne_zero h) Nat.one_lt_two

def powVarTime (a n : ℕ) : ℕ := powLoop 1 a n

/-- Zero cannot be inverted. -/
def inverse (a : ℕ) : Option ℕ :=
  if a = 0 then none else some (powVarTime a (modulus - 2))

def div (a b : ℕ) : Option ℕ := (inverse b).map (mul a)

/-! ## Conversions -/

def tryFrom (value : ℕ) : Option ℕ := if value < modulus then some value else none

/-- The value of bytes, lowest first. -/
def fromLeBytes (bytes : List (Fin 256)) : ℕ := Nat.ofDigits 256 (bytes.map Fin.val)

def toLeBytes (n x : ℕ) : List (Fin 256) := (List.range n).map fun i => Fin.ofNat 256 (x / 256 ^ i)

def fromBytes (bytes : List (Fin 256)) : Option ℕ := tryFrom (fromLeBytes bytes)

def toBytes (a : ℕ) : List (Fin 256) := toLeBytes 8 a

/-- The first eight of 16 bytes. -/
def fromUniformBytes (bytes : List (Fin 256)) : ℕ := reduce (fromLeBytes (bytes.take 8))

/-! ## The reduction -/

theorem modEq_of_cast {a b : ℕ} (h : (a : F61p) = b) : a ≡ b [MOD modulus] :=
  (ZMod.natCast_eq_natCast_iff _ _ _).1 h

theorem natCast_reduce_aux (k : ℕ) :
    ((k % 2 ^ 61 + k / 2 ^ 61 - (if k % 2 ^ 61 + k / 2 ^ 61 < modulus then 0 else modulus) : ℕ) :
      F61p) = k := by
  split_ifs with h
  · rw [Nat.sub_zero, cast_split]
  · rw [Nat.cast_sub (Nat.le_of_not_lt h), cast_split, modulus, ZMod.natCast_self, sub_zero]

theorem reduce_eq {k : ℕ} (h : k % 2 ^ 61 + k / 2 ^ 61 < 2 * modulus) : reduce k = k % modulus := by
  have hlt : k % 2 ^ 61 + k / 2 ^ 61 -
      (if k % 2 ^ 61 + k / 2 ^ 61 < modulus then 0 else modulus) < modulus := by
    split_ifs <;> omega
  have hword : modulus < 2 ^ 64 := by decide
  simp only [reduce]
  rw [Nat.mod_eq_of_lt (hlt.trans hword)]
  exact (Nat.mod_eq_of_lt hlt).symm.trans (modEq_of_cast (natCast_reduce_aux k))

theorem reduce_of_lt {k : ℕ} (h : k < 2 ^ 122 - 1) : reduce k = k % modulus := by
  refine reduce_eq ?_
  unfold modulus
  omega

theorem reduce_lt {k : ℕ} (h : k < 2 ^ 122 - 1) : reduce k < modulus := by
  rw [reduce_of_lt h]
  exact Nat.mod_lt _ (by decide)

theorem cast_reduce_of_lt {k : ℕ} (h : k < 2 ^ 122 - 1) : (reduce k : F61p) = k := by
  rw [reduce_of_lt h]
  exact (ZMod.natCast_mod k modulus)

theorem lt_of_mod_eq {m w j : ℕ} (hw : w = 8 * m + 8) (hm : 128 ≤ m) (hj : j < 16 * w)
    (h : j % w = j % m) : j < m := by
  have hr : j % w < m := h ▸ Nat.mod_lt j (by omega)
  have hq : j / w < 16 := Nat.div_lt_of_lt_mul (by rwa [mul_comm] at hj)
  have hdiv := Nat.div_add_mod j w
  have hsplit : 8 * (j / w) + j % w + m * (8 * (j / w)) = j := by
    calc 8 * (j / w) + j % w + m * (8 * (j / w)) = (8 * m + 8) * (j / w) + j % w := by ring
      _ = j := by rw [← hw, hdiv]
  have hmod : 8 * (j / w) + j % w ≡ 0 + j % w [MOD m] := by
    have hstep : (8 * (j / w) + j % w + m * (8 * (j / w))) % m = j % m := by rw [hsplit]
    rw [Nat.add_mul_mod_self_left, ← h] at hstep
    rw [Nat.ModEq, hstep, Nat.zero_add, Nat.mod_eq_of_lt hr]
  have hzero : 8 * (j / w) = 0 :=
    (Nat.ModEq.add_right_cancel' _ hmod).eq_of_lt_of_lt (by omega) (by omega)
  have hnone : j / w = 0 := by omega
  rw [hnone, Nat.mul_zero, Nat.zero_add] at hdiv
  rwa [hdiv] at hr

theorem reduce_eq_iff {k : ℕ} (hk : k < 2 ^ 128) :
    reduce k = k % modulus ↔ k % 2 ^ 61 + k / 2 ^ 61 < 2 * modulus := by
  refine ⟨fun heq => ?_, reduce_eq⟩
  by_contra hge
  have hmod := modEq_of_cast (natCast_reduce_aux k)
  have hi : k % 2 ^ 61 + k / 2 ^ 61 < 2 ^ 68 := by omega
  unfold reduce at heq
  dsimp only at heq
  generalize k % 2 ^ 61 + k / 2 ^ 61 = i at hge hmod heq hi
  rw [if_neg (by omega)] at heq hmod
  have hsub : i - modulus < 16 * 2 ^ 64 := (Nat.sub_le i modulus).trans_lt hi
  have hlt := lt_of_mod_eq (by decide) (by decide) hsub (heq.trans hmod.symm)
  clear heq hmod
  omega

theorem fullReduce_lt {k : ℕ} (h : k < 2 ^ 128) : fullReduce k < modulus := by
  have hi : k % 2 ^ 61 + k / 2 ^ 61 < 2 ^ 68 := by omega
  unfold fullReduce modulus
  dsimp only
  generalize k % 2 ^ 61 + k / 2 ^ 61 = i at hi ⊢
  split_ifs <;> omega

theorem fullReduce_eq {k : ℕ} (h : k < 2 ^ 128) : fullReduce k = k % modulus := by
  rw [← Nat.mod_eq_of_lt (fullReduce_lt h)]
  exact modEq_of_cast (cast_fullReduce k)

/-! ## The operations on canonical words -/

theorem val_lt_modulus (x : F61p) : x.val < modulus := ZMod.val_lt x

theorem eq_val {w : ℕ} {x : F61p} (hw : w < modulus) (h : (w : F61p) = x) : w = x.val := by
  rw [← h]
  exact (ZMod.val_natCast_of_lt hw).symm

theorem reduce_eq_val {k : ℕ} {x : F61p} (hk : k < 2 ^ 122 - 1) (h : (k : F61p) = x) :
    reduce k = x.val :=
  eq_val (reduce_lt hk) ((cast_reduce_of_lt hk).trans h)

section Operations

variable (x y : F61p)

theorem add_val : add x.val y.val = (x + y).val := by
  have hx := val_lt_modulus x
  have hy := val_lt_modulus y
  unfold modulus at hx hy
  refine reduce_eq_val (by omega) ?_
  rw [Nat.cast_add, ZMod.natCast_zmod_val, ZMod.natCast_zmod_val]

theorem sub_val : sub x.val y.val = (x - y).val := by
  have hx := val_lt_modulus x
  have hy := val_lt_modulus y
  have hk : x.val + modulus - y.val < 2 ^ 122 - 1 := by
    unfold modulus at hx hy ⊢
    omega
  refine reduce_eq_val hk ?_
  have hself : ((modulus : ℕ) : F61p) = 0 := ZMod.natCast_self _
  rw [Nat.cast_sub (by omega), Nat.cast_add, hself, ZMod.natCast_zmod_val, ZMod.natCast_zmod_val,
    add_zero]

theorem neg_val : neg x.val = (-x).val := by
  have hzero := sub_val 0 x
  rwa [ZMod.val_zero, zero_sub] at hzero

theorem mul_val : mul x.val y.val = (x * y).val := by
  have hx : x.val ≤ 2 ^ 61 - 2 := Nat.le_of_lt_succ (val_lt_modulus x)
  have hy : y.val ≤ 2 ^ 61 - 2 := Nat.le_of_lt_succ (val_lt_modulus y)
  have hk : x.val * y.val < 2 ^ 122 - 1 :=
    (Nat.mul_le_mul hx hy).trans_lt (by norm_num)
  refine reduce_eq_val hk ?_
  rw [Nat.cast_mul, ZMod.natCast_zmod_val, ZMod.natCast_zmod_val]

theorem powLoop_val (acc b : F61p) (n : ℕ) : powLoop acc.val b.val n = (acc * b ^ n).val := by
  induction n using Nat.strong_induction_on generalizing acc b with
  | _ n ih =>
    rw [powLoop]
    split_ifs with hzero hodd
    · rw [hzero, pow_zero, mul_one]
    · have hpow : b ^ n = (b * b) ^ (n / 2) * b := by
        calc b ^ n = b ^ (2 * (n / 2) + 1) := congrArg (b ^ ·) (by omega)
          _ = (b * b) ^ (n / 2) * b := by rw [pow_succ b, pow_mul b, pow_two b]
      rw [mul_val, mul_val, ih (n / 2) (by omega), hpow]
      ring_nf
    · have hpow : b ^ n = (b * b) ^ (n / 2) := by
        calc b ^ n = b ^ (2 * (n / 2)) := congrArg (b ^ ·) (by omega)
          _ = (b * b) ^ (n / 2) := by rw [pow_mul b, pow_two b]
      rw [mul_val, ih (n / 2) (by omega), hpow]

theorem powVarTime_val (n : ℕ) : powVarTime x.val n = (x ^ n).val := by
  have hloop := powLoop_val 1 x n
  rw [one_mul] at hloop
  rw [← hloop, powVarTime, ZMod.val_one'' (by decide)]

theorem inverse_val (hx : x ≠ 0) : inverse x.val = some (x⁻¹).val := by
  have hval : x.val ≠ 0 := fun h => hx ((ZMod.val_eq_zero x).1 h)
  have hpow : x ^ (modulus - 2) = x⁻¹ := by
    refine eq_inv_of_mul_eq_one_left ?_
    rw [← pow_succ]
    exact ZMod.pow_card_sub_one_eq_one hx
  rw [inverse, if_neg hval, powVarTime_val, hpow]

end Operations

theorem toLeBytes_succ (n x : ℕ) :
    toLeBytes (n + 1) x = Fin.ofNat 256 x :: toLeBytes n (x / 256) := by
  rw [toLeBytes, List.range_succ_eq_map, List.map_cons, List.map_map, pow_zero, Nat.div_one,
    toLeBytes]
  refine congrArg _ (List.map_congr_left fun i _ => ?_)
  simp only [Function.comp_apply, Nat.succ_eq_add_one]
  rw [pow_succ', Nat.div_div_eq_div_mul]

theorem fromLeBytes_toLeBytes (n x : ℕ) : fromLeBytes (toLeBytes n x) = x % 256 ^ n := by
  induction n generalizing x with
  | zero => rw [pow_zero, Nat.mod_one]; rfl
  | succ n ih =>
    have hrest : Nat.ofDigits 256 ((toLeBytes n (x / 256)).map Fin.val) = x / 256 % 256 ^ n :=
      ih (x / 256)
    rw [toLeBytes_succ, fromLeBytes, List.map_cons, Nat.ofDigits_cons, hrest, pow_succ',
      Nat.mod_mul]
    rfl

theorem fromLeBytes_lt (bytes : List (Fin 256)) : fromLeBytes bytes < 256 ^ bytes.length := by
  have h := Nat.ofDigits_lt_base_pow_length (b := 256) (l := bytes.map Fin.val) (by norm_num)
    fun x hx => by
      obtain ⟨byte, -, rfl⟩ := List.mem_map.1 hx
      exact byte.isLt
  rwa [List.length_map] at h

theorem fromLeBytes_toBytes {a : ℕ} (ha : a < modulus) : fromLeBytes (toBytes a) = a := by
  rw [toBytes, fromLeBytes_toLeBytes]
  exact Nat.mod_eq_of_lt (ha.trans (by decide))

/-! ## Canonical results -/

/-- The word `w` is the canonical representative of the integer `n`. -/
def IsResidue (w : ℕ) (n : ℤ) : Prop := w < modulus ∧ (w : ℤ) ≡ n [ZMOD modulus]

theorem isResidue_val {x : F61p} {n : ℤ} (h : (n : F61p) = x) : IsResidue x.val n := by
  have hx : ((x.val : ℤ) : F61p) = (n : F61p) := by
    rw [h, Int.cast_natCast, ZMod.natCast_zmod_val]
  exact ⟨val_lt_modulus x, (ZMod.intCast_eq_intCast_iff _ _ _).1 hx⟩

theorem isResidue_self {a : ℕ} (ha : a < modulus) : IsResidue a a := ⟨ha, Int.ModEq.refl _⟩

theorem eq_iff_modEq {a b : ℕ} (ha : a < modulus) (hb : b < modulus) :
    a = b ↔ a ≡ b [MOD modulus] :=
  ⟨fun h => h ▸ Nat.ModEq.refl a, fun h => h.eq_of_lt_of_lt ha hb⟩

theorem toBytes_eq_iff {a b : ℕ} (ha : a < modulus) (hb : b < modulus) :
    toBytes a = toBytes b ↔ a = b := by
  refine ⟨fun h => ?_, fun h => congrArg toBytes h⟩
  rw [← fromLeBytes_toBytes ha, h, fromLeBytes_toBytes hb]

theorem isResidue_tryFrom {v r : ℕ} (h : tryFrom v = some r) : IsResidue r v := by
  unfold tryFrom at h
  split_ifs at h with hv
  cases h
  exact isResidue_self hv

theorem isResidue_fromUniformBytes {bytes : List (Fin 256)} (h : bytes.length = 16) :
    IsResidue (fromUniformBytes bytes) (fromLeBytes (bytes.take 8)) := by
  have hlt := fromLeBytes_lt (bytes.take 8)
  rw [List.length_take, h] at hlt
  have hk : fromLeBytes (bytes.take 8) < 2 ^ 122 - 1 := hlt.trans (by norm_num)
  rw [fromUniformBytes, reduce_eq_val hk rfl]
  exact isResidue_val (by rw [Int.cast_natCast])

/-- On canonical words the operations and conversions give the canonical words of the results, and
words, bytes and elements are equal together. -/
theorem arithmetic_canonical {a b : ℕ} (ha : a < modulus) (hb : b < modulus) :
    IsResidue (add a b) (a + b) ∧ IsResidue (sub a b) (a - b) ∧ IsResidue (mul a b) (a * b) ∧
    IsResidue (neg a) (-a) ∧
    (a ≠ 0 → ∃ r, inverse a = some r ∧ r < modulus ∧ r * a ≡ 1 [MOD modulus]) ∧
    (∀ v < 2 ^ 128, (∀ r, tryFrom v = some r → IsResidue r v) ∧
      (tryFrom v = none ↔ modulus ≤ v)) ∧
    (∀ bytes : List (Fin 256), bytes.length = 8 →
      (∀ r, fromBytes bytes = some r → IsResidue r (fromLeBytes bytes)) ∧
        (fromBytes bytes = none ↔ modulus ≤ fromLeBytes bytes)) ∧
    (∀ bytes : List (Fin 256), bytes.length = 16 →
      IsResidue (fromUniformBytes bytes) (fromLeBytes (bytes.take 8))) ∧
    fromBytes (toBytes a) = some a ∧
    (a = b ↔ a ≡ b [MOD modulus]) ∧ (toBytes a = toBytes b ↔ a ≡ b [MOD modulus]) := by
  have hreject : ∀ v, tryFrom v = none ↔ modulus ≤ v := fun v => by
    unfold tryFrom
    split_ifs with h <;> simp <;> omega
  obtain ⟨x, rfl⟩ : ∃ x : F61p, a = x.val := ⟨a, eq_val ha rfl⟩
  obtain ⟨y, rfl⟩ : ∃ y : F61p, b = y.val := ⟨b, eq_val hb rfl⟩
  refine ⟨?_, ?_, ?_, ?_, ?_, ?_, ?_, ?_, ?_, ?_, ?_⟩
  · rw [add_val]
    exact isResidue_val (by push_cast; simp)
  · rw [sub_val]
    exact isResidue_val (by push_cast; simp)
  · rw [mul_val]
    exact isResidue_val (by push_cast; simp)
  · rw [neg_val]
    exact isResidue_val (by push_cast; simp)
  · intro hx
    have hne : x ≠ 0 := fun h => hx (by rw [h, ZMod.val_zero])
    refine ⟨_, inverse_val x hne, val_lt_modulus _, modEq_of_cast ?_⟩
    rw [Nat.cast_mul, ZMod.natCast_zmod_val, ZMod.natCast_zmod_val, inv_mul_cancel₀ hne,
      Nat.cast_one]
  · exact fun v _ => ⟨fun r => isResidue_tryFrom, hreject v⟩
  · exact fun bytes _ => ⟨fun r => isResidue_tryFrom, hreject _⟩
  · exact fun bytes h => isResidue_fromUniformBytes h
  · rw [fromBytes, fromLeBytes_toBytes ha, tryFrom, if_pos ha]
  · exact eq_iff_modEq ha hb
  · rw [toBytes_eq_iff ha hb, eq_iff_modEq ha hb]

/-- A sum that is exactly the modulus. -/
theorem arithmetic_canonical_max : IsResidue (add (2 ^ 61 - 2) 1) (((2 ^ 61 - 2 : ℕ) : ℤ) + (1 : ℕ)) :=
  (arithmetic_canonical (a := 2 ^ 61 - 2) (b := 1) (by decide) (by decide)).1

/-- Add terms up in a 128-bit integer, where an overflow is an error. -/
def accumulateChecked (terms : List ℕ) : Option ℕ :=
  terms.foldlM (fun t x => if t + x < 2 ^ 128 then some (t + x) else none) 0

/-- The sum of words, reduced once. -/
def sum (words : List ℕ) : Option ℕ := (accumulateChecked words).map reduce

/-- `convolveLonger` on the words of the elements, with its sums checked for overflows. -/
def convolveLongerChecked (x0 : F61p) (xs : List F61p) (y0 : F61p) (ys : List F61p) :
    Option (ℕ × List ℕ) := do
  let xDeg := xs.length
  let yDeg := ys.length
  let zDeg := xDeg + yDeg
  let products (lo hi k : ℕ) :=
    (List.range' lo (hi - lo)).map fun i => rlmul (xs.getD i 0) (ys.getD (k - i - 1) 0)
  let z0 := mul x0.val y0.val
  if yDeg = 0 then
    pure (z0, xs.map fun x => mul x.val y0.val)
  else do
    let low ← (List.range' 0 yDeg).mapM fun k => (accumulateChecked
      (rlmul x0 (ys.getD k 0) :: rlmul (xs.getD k 0) y0 :: products 0 k k)).map fullReduce
    let mid ← (List.range' yDeg (xDeg - yDeg)).mapM fun k => (accumulateChecked
      (rlmul (xs.getD k 0) y0 :: products (k - yDeg) k k)).map fullReduce
    let high ← (List.range' xDeg (zDeg - 1 - xDeg)).mapM fun k => (accumulateChecked
      (products (k - yDeg) xDeg k)).map fullReduce
    pure (z0, low ++ mid ++ high ++
      [mul (xs.getD (xDeg - 1) 0).val (ys.getD (yDeg - 1) 0).val])

def convolveChecked (x0 : F61p) (xs : List F61p) (y0 : F61p) (ys : List F61p) :
    Option (ℕ × List ℕ) :=
  if ys.length > xs.length then convolveLongerChecked y0 ys x0 xs
  else convolveLongerChecked x0 xs y0 ys

theorem accumulateChecked_eq (terms : List ℕ) :
    accumulateChecked terms = if terms.sum < 2 ^ 128 then some terms.sum else none := by
  have hloop : ∀ (terms : List ℕ) (t : ℕ), t < 2 ^ 128 →
      terms.foldlM (fun t x => if t + x < 2 ^ 128 then some (t + x) else none) t =
        if t + terms.sum < 2 ^ 128 then some (t + terms.sum) else none := by
    intro terms
    induction terms with
    | nil =>
      intro t ht
      rw [List.sum_nil, Nat.add_zero, if_pos ht]
      rfl
    | cons x terms ih =>
      intro t ht
      rw [List.foldlM_cons, List.sum_cons, ← Nat.add_assoc]
      by_cases hx : t + x < 2 ^ 128
      · rw [if_pos hx]
        exact ih (t + x) hx
      · rw [if_neg hx, if_neg (by omega)]
        rfl
  rw [accumulateChecked, hloop terms 0 (by norm_num), Nat.zero_add]

/-! ## The convolution with checked sums -/

section Checked

variable {x0 : F61p} {xs : List F61p} {y0 : F61p} {ys : List F61p}

/-- The coefficients of the schoolbook product modulo the modulus, the constant one first. -/
def schoolbook (x0 : F61p) (xs : List F61p) (y0 : F61p) (ys : List F61p) : ℕ × List ℕ :=
  (productTerm (x0 :: xs) (y0 :: ys) 0 % modulus,
    (List.range (xs.length + ys.length)).map fun k =>
      productTerm (x0 :: xs) (y0 :: ys) (k + 1) % modulus)

theorem rlmul_lt (x y : F61p) : rlmul x y < 2 ^ 128 := by
  have hx := (val_lt_modulus x).le
  have hy := (val_lt_modulus y).le
  exact (Nat.mul_le_mul hx hy).trans_lt (by decide)

theorem mul_eq_rlmul_mod (x y : F61p) : mul x.val y.val = rlmul x y % modulus := by
  rw [mul_val, ZMod.val_mul]
  rfl

theorem productTerm_zero : productTerm (x0 :: xs) (y0 :: ys) 0 = rlmul x0 y0 := by
  simp [productTerm, rlmul]

theorem map_fullReduce_of_sum {terms : List ℕ} {k : ℕ} (h : productTerm (x0 :: xs) (y0 :: ys) k =
    terms.sum) : (accumulateChecked terms).map fullReduce =
      if productTerm (x0 :: xs) (y0 :: ys) k < 2 ^ 128 then
        some (productTerm (x0 :: xs) (y0 :: ys) k % modulus) else none := by
  rw [accumulateChecked_eq, h]
  split_ifs with hlt
  · rw [Option.map_some, fullReduce_eq hlt]
  · rfl

variable (x0 xs y0 ys) in
/-- The coefficient of `X ^ (k + 1)`, if its sum fits. -/
def checkedCoefficient (k : ℕ) : Option ℕ :=
  if productTerm (x0 :: xs) (y0 :: ys) (k + 1) < 2 ^ 128 then
    some (productTerm (x0 :: xs) (y0 :: ys) (k + 1) % modulus) else none

variable (x0 xs y0 ys) in
theorem mapM_fullReduce (l : List ℕ) (terms : ℕ → List ℕ)
    (h : ∀ k ∈ l, productTerm (x0 :: xs) (y0 :: ys) (k + 1) = (terms k).sum) :
    (l.mapM fun k => (accumulateChecked (terms k)).map fullReduce) =
      l.mapM (checkedCoefficient x0 xs y0 ys) := by
  induction l with
  | nil => rfl
  | cons k l ih =>
    obtain ⟨hk, hl⟩ := List.forall_mem_cons.1 h
    rw [List.mapM_cons, List.mapM_cons, map_fullReduce_of_sum hk, ih hl]
    rfl

theorem mapM_checkedCoefficient (l : List ℕ) :
    l.mapM (checkedCoefficient x0 xs y0 ys) =
      if ∀ k ∈ l, productTerm (x0 :: xs) (y0 :: ys) (k + 1) < 2 ^ 128 then
        some (l.map fun k => productTerm (x0 :: xs) (y0 :: ys) (k + 1) % modulus) else none := by
  induction l with
  | nil => rfl
  | cons k l ih =>
    rw [List.mapM_cons, ih, checkedCoefficient]
    by_cases hfit : productTerm (x0 :: xs) (y0 :: ys) (k + 1) < 2 ^ 128
    · by_cases hall : ∀ j ∈ l, productTerm (x0 :: xs) (y0 :: ys) (j + 1) < 2 ^ 128
      · have hcons : ∀ j ∈ k :: l, productTerm (x0 :: xs) (y0 :: ys) (j + 1) < 2 ^ 128 :=
          List.forall_mem_cons.2 ⟨hfit, hall⟩
        rw [if_pos hfit, if_pos hall, if_pos hcons]
        rfl
      · rw [if_pos hfit, if_neg hall]
        exact (if_neg fun h => hall fun j hj => h j (List.mem_cons_of_mem k hj)).symm
    · rw [if_neg hfit]
      exact (if_neg fun h => hfit (h k List.mem_cons_self)).symm

theorem checkedCoefficient_last (hlen : ys.length ≤ xs.length) (hy : ys.length ≠ 0) :
    checkedCoefficient x0 xs y0 ys (xs.length + ys.length - 1) =
      some (mul (xs.getD (xs.length - 1) 0).val (ys.getD (ys.length - 1) 0).val) := by
  have hlast : productTerm (x0 :: xs) (y0 :: ys) (xs.length + ys.length - 1 + 1) =
      rlmul (xs.getD (xs.length - 1) 0) (ys.getD (ys.length - 1) 0) := productTerm_last hlen hy
  have hfit : productTerm (x0 :: xs) (y0 :: ys) (xs.length + ys.length - 1 + 1) < 2 ^ 128 :=
    hlast.trans_lt (rlmul_lt _ _)
  rw [checkedCoefficient, if_pos hfit, hlast, mul_eq_rlmul_mod]

/-- The checked convolution computes the schoolbook product when its coefficients fit, and fails
otherwise. -/
theorem convolveLongerChecked_eq (hlen : ys.length ≤ xs.length) :
    convolveLongerChecked x0 xs y0 ys =
      if ∀ k ∈ List.range (xs.length + ys.length), productTerm (x0 :: xs) (y0 :: ys) (k + 1) < 2 ^ 128
      then some (schoolbook x0 xs y0 ys) else none := by
  have hconst : mul x0.val y0.val = productTerm (x0 :: xs) (y0 :: ys) 0 % modulus := by
    rw [productTerm_zero, mul_eq_rlmul_mod]
  by_cases hy : ys.length = 0
  · obtain rfl := List.length_eq_zero_iff.1 hy
    have hterm : ∀ k, productTerm (x0 :: xs) [y0] (k + 1) = rlmul (xs.getD k 0) y0 := fun k => by
      rw [productTerm_mid (Nat.zero_le k)]
      simp
    rw [if_pos fun k _ => (hterm k).trans_lt (rlmul_lt _ _), schoolbook, ← hconst]
    simp only [convolveLongerChecked, List.length_nil, if_true, Nat.add_zero]
    refine congrArg (fun zs => some (_, zs)) (List.ext_getElem (by simp) fun k hk _ => ?_)
    rw [List.length_map] at hk
    simp only [List.getElem_map, List.getElem_range]
    rw [hterm, mul_eq_rlmul_mod, List.getD_eq_getElem?_getD, List.getElem?_eq_getElem hk,
      Option.getD_some]
  · have hz : xs.length + ys.length = (xs.length + ys.length - 1) + 1 := by omega
    have hsplit := range_split hlen (z := xs.length + ys.length - 1) (by omega)
    rw [← hz] at hsplit
    have hlow := mapM_fullReduce x0 xs y0 ys (List.range' 0 ys.length)
      (fun k => rlmul x0 (ys.getD k 0) ::
        rlmul (xs.getD k 0) y0 :: (List.range' 0 (k - 0)).map fun i =>
          rlmul (xs.getD i 0) (ys.getD (k - i - 1) 0))
      fun k _ => by rw [productTerm_low, List.sum_cons, List.sum_cons, Nat.add_assoc]
    have hmid := mapM_fullReduce x0 xs y0 ys
      (List.range' ys.length (xs.length - ys.length)) (fun k =>
        rlmul (xs.getD k 0) y0 :: (List.range' (k - ys.length) (k - (k - ys.length))).map fun i =>
          rlmul (xs.getD i 0) (ys.getD (k - i - 1) 0))
      fun k hk => by rw [productTerm_mid (List.mem_range'_1.1 hk).1, List.sum_cons]
    have hhigh := mapM_fullReduce x0 xs y0 ys
      (List.range' xs.length (xs.length + ys.length - 1 - xs.length)) (fun k =>
        (List.range' (k - ys.length) (xs.length - (k - ys.length))).map fun i =>
          rlmul (xs.getD i 0) (ys.getD (k - i - 1) 0))
      fun k hk => productTerm_high (List.mem_range'_1.1 hk).1 (hlen.trans (List.mem_range'_1.1 hk).1)
    have hall : (if ∀ k ∈ List.range (xs.length + ys.length),
          productTerm (x0 :: xs) (y0 :: ys) (k + 1) < 2 ^ 128
        then some (schoolbook x0 xs y0 ys) else none) =
        ((List.range (xs.length + ys.length)).mapM (checkedCoefficient x0 xs y0 ys)).map
          (mul x0.val y0.val, ·) := by
      rw [mapM_checkedCoefficient, hconst]
      split_ifs <;> rfl
    have hleading : [xs.length + ys.length - 1].mapM (checkedCoefficient x0 xs y0 ys) =
        some [mul (xs.getD (xs.length - 1) 0).val (ys.getD (ys.length - 1) 0).val] := by
      rw [List.mapM_cons, checkedCoefficient_last hlen hy]
      rfl
    rw [hall, hsplit]
    simp only [convolveLongerChecked, if_neg hy, hlow, hmid, hhigh, hleading, List.mapM_append]
    cases (List.range' 0 ys.length).mapM (checkedCoefficient x0 xs y0 ys) <;>
      cases (List.range' ys.length (xs.length - ys.length)).mapM
        (checkedCoefficient x0 xs y0 ys) <;>
      cases (List.range' xs.length (xs.length + ys.length - 1 - xs.length)).mapM
        (checkedCoefficient x0 xs y0 ys) <;>
      rfl

theorem schoolbook_comm : schoolbook y0 ys x0 xs = schoolbook x0 xs y0 ys := by
  unfold schoolbook
  rw [Nat.add_comm, productTerm_comm]
  simp only [productTerm_comm (y0 :: ys)]

theorem fits_comm {xs ys : List F61p} : Fits xs ys ↔ Fits ys xs := by
  simp only [Fits, productTerm_comm xs]

theorem forall_range_iff_fits :
    (∀ k ∈ List.range (xs.length + ys.length), productTerm (x0 :: xs) (y0 :: ys) (k + 1) < 2 ^ 128) ↔
      Fits (x0 :: xs) (y0 :: ys) := by
  refine ⟨fun h n => ?_, fun h k _ => h (k + 1)⟩
  cases n with
  | zero =>
    rw [productTerm_zero]
    exact rlmul_lt x0 y0
  | succ k =>
    by_cases hk : k < xs.length + ys.length
    · exact h k (List.mem_range.2 hk)
    · rw [productTerm_beyond (Nat.le_of_not_lt hk)]
      norm_num

theorem convolveLongerChecked_iff (hlen : ys.length ≤ xs.length) :
    convolveLongerChecked x0 xs y0 ys = some (schoolbook x0 xs y0 ys) ↔
      Fits (x0 :: xs) (y0 :: ys) := by
  rw [convolveLongerChecked_eq hlen, ← forall_range_iff_fits]
  split_ifs with h
  · exact iff_of_true rfl h
  · exact iff_of_false nofun h

theorem convolveChecked_iff :
    convolveChecked x0 xs y0 ys = some (schoolbook x0 xs y0 ys) ↔ Fits (x0 :: xs) (y0 :: ys) := by
  unfold convolveChecked
  split_ifs with h
  · rw [← schoolbook_comm, convolveLongerChecked_iff h.le, fits_comm]
  · exact convolveLongerChecked_iff (Nat.le_of_not_lt h)

end Checked

/-! ## Sums of words -/

theorem sum_val_le (l : List F61p) : (l.map ZMod.val).sum ≤ l.length * (2 ^ 61 - 2) := by
  have h := List.sum_le_card_nsmul (l.map ZMod.val) (2 ^ 61 - 2) fun w hw => by
    obtain ⟨x, -, rfl⟩ := List.mem_map.1 hw
    exact Nat.le_of_lt_succ (val_lt_modulus x)
  rwa [List.length_map, smul_eq_mul] at h

theorem val_sum (l : List F61p) : l.sum.val = (l.map ZMod.val).sum % modulus := by
  have hcast : (((l.map ZMod.val).sum : ℕ) : F61p) = l.sum := by
    rw [Nat.cast_list_sum, List.map_map]
    simp
  rw [← hcast]
  exact ZMod.val_natCast _ _

theorem sum_iff {l : List F61p} (hl : l.length < 2 ^ 67) :
    sum (l.map ZMod.val) = some l.sum.val ↔
      (l.map ZMod.val).sum % 2 ^ 61 + (l.map ZMod.val).sum / 2 ^ 61 < 2 * modulus := by
  have hfit : (l.map ZMod.val).sum < 2 ^ 128 :=
    (sum_val_le l).trans_lt ((Nat.mul_le_mul_right _ hl.le).trans_lt (by norm_num))
  rw [sum, accumulateChecked_eq, if_pos hfit, Option.map_some, Option.some.injEq, val_sum,
    reduce_eq_iff hfit]

/-- The convolution gives the schoolbook product without an overflow exactly when no coefficient of
the integer product leaves 128 bits, and a sum of supported length is the sum in the field exactly
when one fold leaves less than twice the modulus. -/
theorem convolve_sum_iff (x0 : F61p) (xs : List F61p) (y0 : F61p) (ys l : List F61p)
    (hl : l.length < 2 ^ 67) :
    (convolveChecked x0 xs y0 ys = some (schoolbook x0 xs y0 ys) ↔ Fits (x0 :: xs) (y0 :: ys)) ∧
    (sum (l.map ZMod.val) = some l.sum.val ↔
      (l.map ZMod.val).sum % 2 ^ 61 + (l.map ZMod.val).sum / 2 ^ 61 < 2 * modulus) := by
  constructor
  · exact convolveChecked_iff
  · exact sum_iff hl

theorem convolve_sum_three :
    (convolveChecked 2 [3] 5 [7] = some (schoolbook 2 [3] 5 [7]) ↔ Fits [2, 3] [5, 7]) ∧
    (sum (([1, 2, 3] : List F61p).map ZMod.val) = some ([1, 2, 3] : List F61p).sum.val ↔
      (([1, 2, 3] : List F61p).map ZMod.val).sum % 2 ^ 61 +
        (([1, 2, 3] : List F61p).map ZMod.val).sum / 2 ^ 61 < 2 * modulus) :=
  convolve_sum_iff 2 [3] 5 [7] [1, 2, 3] (by norm_num)

/-- The middle coefficient of the product of two polynomials with 65 coefficients `-1` overflows. -/
theorem not_convolve_65 :
    convolveChecked ((2 ^ 61 - 2 : ℕ) : F61p) (List.replicate 64 ((2 ^ 61 - 2 : ℕ) : F61p))
        ((2 ^ 61 - 2 : ℕ) : F61p) (List.replicate 64 ((2 ^ 61 - 2 : ℕ) : F61p)) ≠
      some (schoolbook ((2 ^ 61 - 2 : ℕ) : F61p) (List.replicate 64 ((2 ^ 61 - 2 : ℕ) : F61p))
        ((2 ^ 61 - 2 : ℕ) : F61p) (List.replicate 64 ((2 ^ 61 - 2 : ℕ) : F61p))) := by
  intro h
  have hfits := convolveChecked_iff.1 h 64
  have hval : ((2 ^ 61 - 2 : ℕ) : F61p).val = 2 ^ 61 - 2 := ZMod.val_natCast_of_lt (by norm_num)
  have hentry : ∀ i < 65, (List.replicate 65 ((2 ^ 61 - 2 : ℕ) : F61p)).getD i 0 =
      ((2 ^ 61 - 2 : ℕ) : F61p) := fun i hi => by
    rw [List.getD_eq_getElem?_getD, List.getElem?_replicate, if_pos hi, Option.getD_some]
  have hterm : productTerm (List.replicate 65 ((2 ^ 61 - 2 : ℕ) : F61p))
      (List.replicate 65 ((2 ^ 61 - 2 : ℕ) : F61p)) 64 = 65 * ((2 ^ 61 - 2) * (2 ^ 61 - 2)) := by
    rw [productTerm, Finset.sum_congr rfl fun i hi => ?_, Finset.sum_const, Finset.card_range,
      smul_eq_mul]
    have hlt := Finset.mem_range.1 hi
    rw [hentry i hlt, hentry (64 - i) (by omega), hval]
  rw [← List.replicate_succ, hterm] at hfits
  norm_num at hfits

end F61p

end EdaBitGen
