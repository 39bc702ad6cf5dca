import Mathlib

/-!
# Bits as integers

A list of bits, lowest first, as a natural number, and binary addition with a carry.
-/

namespace Bits

/-- The number with the given bits, lowest first. -/
def toNat : List (ZMod 2) → ℕ
  | [] => 0
  | b :: bs => b.val + 2 * toNat bs

@[simp] theorem toNat_nil : toNat [] = 0 := rfl

@[simp] theorem toNat_cons (b : ZMod 2) (bs : List (ZMod 2)) :
    toNat (b :: bs) = b.val + 2 * toNat bs := rfl

theorem toNat_append (as bs : List (ZMod 2)) :
    toNat (as ++ bs) = toNat as + 2 ^ as.length * toNat bs := by
  induction as with
  | nil => simp
  | cons a as ih =>
    rw [List.cons_append, toNat_cons, toNat_cons, ih, List.length_cons]
    ring

theorem toNat_take_add {n : ℕ} {bs : List (ZMod 2)} (hn : n ≤ bs.length) :
    toNat (bs.take n) + 2 ^ n * toNat (bs.drop n) = toNat bs := by
  conv_rhs => rw [← List.take_append_drop n bs, toNat_append, List.length_take, min_eq_left hn]

theorem toNat_concat (bs : List (ZMod 2)) (b : ZMod 2) :
    toNat (bs ++ [b]) = toNat bs + 2 ^ bs.length * b.val := by
  rw [toNat_append, toNat_cons, toNat_nil, mul_zero, add_zero]

theorem val_le_one (b : ZMod 2) : b.val ≤ 1 :=
  Nat.le_of_lt_succ (ZMod.val_lt b)

theorem toNat_lt (bs : List (ZMod 2)) : toNat bs < 2 ^ bs.length := by
  induction bs with
  | nil => simp
  | cons b bs ih =>
    have hb := val_le_one b
    rw [toNat_cons, List.length_cons, pow_succ]
    omega

theorem toNat_take_drop {n : ℕ} {bs : List (ZMod 2)} (hn : n ≤ bs.length) :
    toNat (bs.take n) = toNat bs % 2 ^ n ∧ toNat (bs.drop n) = toNat bs / 2 ^ n := by
  have hsplit := toNat_take_add hn
  have hlt : toNat (bs.take n) < 2 ^ n := by
    simpa [min_eq_left hn] using toNat_lt (bs.take n)
  rw [← hsplit, Nat.add_mul_mod_self_left, Nat.mod_eq_of_lt hlt,
    Nat.add_mul_div_left _ _ (Nat.two_pow_pos n), Nat.div_eq_of_lt hlt, Nat.zero_add]
  exact ⟨rfl, rfl⟩

/-- The lowest `w` bits of `n`. -/
def ofNat (w n : ℕ) : List (ZMod 2) :=
  (List.range w).map fun i => if n.testBit i then 1 else 0

@[simp] theorem length_ofNat (w n : ℕ) : (ofNat w n).length = w := by simp [ofNat]

theorem ofNat_succ (w n : ℕ) :
    ofNat (w + 1) n = (if n.testBit 0 then 1 else 0) :: ofNat w (n / 2) := by
  rw [ofNat, List.range_succ_eq_map, List.map_cons, List.map_map, ofNat]
  refine congrArg _ (List.map_congr_left fun i _ => ?_)
  simp [Nat.testBit_succ]

theorem toNat_ofNat (w n : ℕ) : toNat (ofNat w n) = n % 2 ^ w := by
  induction w generalizing n with
  | zero => simp [ofNat, Nat.mod_one]
  | succ w ih =>
    have hbit : (if n.testBit 0 then 1 else 0 : ZMod 2).val = n % 2 := by
      rcases Nat.mod_two_eq_zero_or_one n with h | h <;> simp [Nat.testBit_zero, h, ZMod.val_one]
    rw [ofNat_succ, toNat_cons, ih, hbit, pow_succ', Nat.mod_mul]

theorem cast_toNat_cons (b : ZMod 2) (bs : List (ZMod 2)) :
    ((toNat (b :: bs) : ℕ) : ZMod 2) = b := by
  have htwo : (2 : ZMod 2) = 0 := rfl
  rw [toNat_cons, Nat.cast_add, Nat.cast_mul, ZMod.natCast_zmod_val, Nat.cast_ofNat, htwo, zero_mul,
    add_zero]

theorem testBit_zero_iff (n : ℕ) : n.testBit 0 ↔ (n : ZMod 2) = 1 := by
  rw [Nat.testBit_zero, decide_eq_true_eq]
  exact (ZMod.natCast_eq_natCast_iff' n 1 2).symm.trans (by rw [Nat.cast_one])

theorem full_adder (x y c : ZMod 2) :
    x.val + y.val + c.val = (x + y + c).val + 2 * (c + (x + c) * (y + c)).val := by
  revert x y c
  decide

/-- `zs` and the carry `c` are the sum of `xs` and `ys`. -/
structure Adds (xs ys zs : List (ZMod 2)) (c : ZMod 2) : Prop where
  length_left : xs.length = zs.length
  length_right : ys.length = zs.length
  sum : toNat xs + toNat ys = toNat zs + 2 ^ zs.length * c.val

namespace Adds

variable {xs ys zs : List (ZMod 2)} {c : ZMod 2}

theorem nil : Adds [] [] [] 0 := ⟨rfl, rfl, rfl⟩

theorem concat (h : Adds xs ys zs c) (x y : ZMod 2) :
    Adds (xs ++ [x]) (ys ++ [y]) (zs ++ [x + y + c]) (c + (x + c) * (y + c)) where
  length_left := by simp [h.length_left]
  length_right := by simp [h.length_right]
  sum := by
    have hsum := h.sum
    have hfull := full_adder x y c
    rw [toNat_concat, toNat_concat, toNat_concat, h.length_left, h.length_right, List.length_append,
      List.length_singleton, pow_succ]
    calc toNat xs + 2 ^ zs.length * x.val + (toNat ys + 2 ^ zs.length * y.val)
        = toNat zs + 2 ^ zs.length * (x.val + y.val + c.val) := by linarith
      _ = toNat zs + 2 ^ zs.length * (x + y + c).val +
          2 ^ zs.length * 2 * (c + (x + c) * (y + c)).val := by rw [hfull]; ring

theorem toNat_eq (h : Adds xs ys zs c) : toNat zs = (toNat xs + toNat ys) % 2 ^ zs.length := by
  rw [h.sum, Nat.add_mul_mod_self_left, Nat.mod_eq_of_lt (toNat_lt zs)]

theorem div_eq (h : Adds xs ys zs c) : (toNat xs + toNat ys) / 2 ^ zs.length = c.val := by
  rw [h.sum, Nat.add_mul_div_left _ _ (Nat.two_pow_pos _), Nat.div_eq_of_lt (toNat_lt zs), zero_add]

theorem single (x y : ZMod 2) : Adds [x] [y] [x + y] (x * y) := by
  simpa using nil.concat x y

end Adds

/-! ## Products with a bit, and shifts -/

theorem val_mul (a b : ZMod 2) : (a * b).val = a.val * b.val := by
  revert a b
  decide

theorem toNat_map_mul (bs : List (ZMod 2)) (b : ZMod 2) :
    toNat (bs.map fun a => a * b) = toNat bs * b.val := by
  induction bs with
  | nil => simp
  | cons a bs ih =>
    rw [List.map_cons, toNat_cons, toNat_cons, ih, val_mul]
    ring

theorem toNat_replicate_zero (n : ℕ) : toNat (List.replicate n 0) = 0 := by
  induction n with
  | zero => rfl
  | succ n ih => rw [List.replicate_succ, toNat_cons, ih, ZMod.val_zero]

theorem toNat_dropLast (bs : List (ZMod 2)) :
    toNat bs.dropLast = toNat bs % 2 ^ (bs.length - 1) := by
  obtain rfl | ⟨as, b, rfl⟩ := List.eq_nil_or_concat' bs
  · simp
  · rw [List.dropLast_concat, toNat_concat, List.length_append, List.length_singleton,
      Nat.add_sub_cancel, Nat.add_mul_mod_self_left, Nat.mod_eq_of_lt (toNat_lt as)]

theorem toNat_cons_dropLast {bs : List (ZMod 2)} (h : 0 < bs.length) (b : ZMod 2) :
    toNat (b :: bs.dropLast) = (b.val + 2 * toNat bs) % 2 ^ bs.length := by
  obtain ⟨n, hn⟩ := Nat.exists_eq_succ_of_ne_zero h.ne'
  rw [toNat_cons, toNat_dropLast, hn, Nat.succ_sub_one, Nat.pow_succ']
  have hb := val_le_one b
  have hpos : 0 < 2 ^ n := Nat.two_pow_pos n
  have hmod := Nat.mod_lt (toNat bs) hpos
  have hdouble : 2 * toNat bs % (2 * 2 ^ n) = 2 * (toNat bs % 2 ^ n) := Nat.mul_mod_mul_left ..
  have hbit : b.val % (2 * 2 ^ n) = b.val := Nat.mod_eq_of_lt (by omega)
  have hsum : b.val + 2 * (toNat bs % 2 ^ n) < 2 * 2 ^ n := by omega
  calc b.val + 2 * (toNat bs % 2 ^ n)
      = (b.val % (2 * 2 ^ n) + 2 * toNat bs % (2 * 2 ^ n)) % (2 * 2 ^ n) := by
        rw [hbit, hdouble, Nat.mod_eq_of_lt hsum]
    _ = (b.val + 2 * toNat bs) % (2 * 2 ^ n) := (Nat.add_mod ..).symm

end Bits
