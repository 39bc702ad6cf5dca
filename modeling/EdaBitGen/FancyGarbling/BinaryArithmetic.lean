import EdaBitGen.FancyGarbling.Binary

/-!
# Arithmetic of the binary gadgets

Products, negation and division on wires that carry bits.
-/

namespace EdaBitGen.FancyGarbling

open Bits

/-- A run that returns `n` bits with a value. -/
def Computes (r : Dummy (Bundle DummyVal)) (n v : ℕ) : Prop :=
  ∃ zs, r = .ok (bits zs) ∧ zs.length = n ∧ toNat zs = v

/-! ## Shifts and constants -/

theorem map_iterate {α β : Type} (f : α → β) {g : α → α} {h : β → β}
    (hgh : ∀ a, f (g a) = h (f a)) (n : ℕ) (a : α) : f (g^[n] a) = h^[n] (f a) := by
  induction n generalizing a with
  | zero => rfl
  | succ n ih => rw [Function.iterate_succ_apply, Function.iterate_succ_apply, ih, hgh]

theorem shiftOnce_bits (b : ZMod 2) (bs : List (ZMod 2)) :
    shiftOnce (bit b) (bits bs) = bits (b :: bs.dropLast) := by
  rw [shiftOnce, bits_cons, bits, ← List.map_dropLast]

/-- The bits moved up by some positions. -/
def shiftedUp (n : ℕ) (bs : List (ZMod 2)) : List (ZMod 2) := (fun l => 0 :: l.dropLast)^[n] bs

theorem shift_bits {bs : List (ZMod 2)} (h : 0 < bs.length) (n : ℕ) :
    (shift (bits bs) n : Dummy _) = .ok (bits (shiftedUp n bs)) := by
  obtain ⟨as, b, rfl⟩ := (List.eq_nil_or_concat' bs).resolve_left (List.ne_nil_of_length_pos h)
  have hshift := map_iterate bits (fun l => (shiftOnce_bits 0 l).symm) n (as ++ [b])
  rw [shiftedUp, hshift]
  simp [shift, unwrap, bits]
  rfl

theorem shiftedUp_spec {bs : List (ZMod 2)} (h : 0 < bs.length) (n : ℕ) :
    (shiftedUp n bs).length = bs.length ∧
      toNat (shiftedUp n bs) = 2 ^ n * toNat bs % 2 ^ bs.length := by
  induction n with
  | zero =>
    rw [pow_zero, one_mul, Nat.mod_eq_of_lt (toNat_lt bs)]
    exact ⟨rfl, rfl⟩
  | succ n ih =>
    obtain ⟨hlength, hvalue⟩ := ih
    have hstep : shiftedUp (n + 1) bs = 0 :: (shiftedUp n bs).dropLast :=
      Function.iterate_succ_apply' ..
    refine ⟨by rw [hstep, List.length_cons, List.length_dropLast, hlength]; omega, ?_⟩
    rw [hstep, toNat_cons_dropLast (by rwa [hlength]), hlength, hvalue, ZMod.val_zero, zero_add,
      Nat.mul_mod_mod, pow_succ']
    rw [mul_assoc]

theorem shiftExtend_bits {bs : List (ZMod 2)} (h : 0 < bs.length) (n : ℕ) :
    (shiftExtend (bits bs) n : Dummy _) = .ok (bits (List.replicate n 0 ++ bs)) := by
  obtain ⟨as, b, rfl⟩ := (List.eq_nil_or_concat' bs).resolve_left (List.ne_nil_of_length_pos h)
  have hcons : ∀ n, (List.cons (bit 0))^[n] (bits (as ++ [b])) =
      bits (List.replicate n 0 ++ (as ++ [b])) := by
    intro n
    induction n with
    | zero => rfl
    | succ n ih => rw [Function.iterate_succ_apply', ih, List.replicate_succ]; rfl
  rw [← hcons]
  simp [shiftExtend, unwrap, bits]
  rfl

theorem toNat_replicate_append (n : ℕ) (bs : List (ZMod 2)) :
    Bits.toNat (List.replicate n 0 ++ bs) = 2 ^ n * Bits.toNat bs := by
  rw [toNat_append, toNat_replicate_zero, List.length_replicate, zero_add]

/-- The bits of a constant. -/
def constantBits (val : ℕ) : ℕ → List (ZMod 2)
  | 0 => []
  | n + 1 => (val : ZMod 2) :: constantBits (val / 2) n

theorem constantBits_spec (val n : ℕ) :
    (constantBits val n).length = n ∧ toNat (constantBits val n) = val % 2 ^ n := by
  induction n generalizing val with
  | zero => exact ⟨rfl, by rw [pow_zero, Nat.mod_one]; rfl⟩
  | succ n ih =>
    obtain ⟨hlength, hvalue⟩ := ih (val / 2)
    refine ⟨by rw [constantBits, List.length_cons, hlength], ?_⟩
    rw [constantBits, toNat_cons, hvalue, ZMod.val_natCast, pow_succ', Nat.mod_mul]

theorem binConstantBundle_bits (val n : ℕ) :
    (binConstantBundle val n : Dummy _) = .ok (bits (constantBits val n)) := by
  rw [binConstantBundle, constantBundle]
  induction n generalizing val with
  | zero => rfl
  | succ n ih =>
    rw [u128ToBits, List.replicate_succ, List.zip_cons_cons, List.mapM_cons, ih, constant_eq]
    have hbit : bit (val : ZMod 2) = ⟨val % 2, 2⟩ := by rw [bit, ZMod.val_natCast]
    simp [constantBits, hbit]

/-! ## Products -/

theorem andWire_bits (xs : List (ZMod 2)) (y : ZMod 2) :
    (andWire (bits xs) (bit y) : Dummy _) = .ok (bits (xs.map fun a => a * y)) := by
  rw [andWire, mapM_ok xs fun a _ => and_bit a y, bits, List.map_map]
  rfl

theorem lowerHalfRound_bits {xs sum : List (ZMod 2)} (h : sum.length = xs.length)
    (htwo : 2 ≤ xs.length) (y : ZMod 2) (i : ℕ) :
    Computes (lowerHalfRound (bits xs) (bits sum) (bit y, i)) xs.length
      ((toNat sum + toNat xs * 2 ^ i * y.val) % 2 ^ xs.length) := by
  have hpos : 0 < (xs.map fun a => a * y).length := by rw [List.length_map]; omega
  obtain ⟨hlength, hvalue⟩ := shiftedUp_spec hpos i
  rw [List.length_map] at hlength hvalue
  rw [toNat_map_mul] at hvalue
  obtain ⟨zs, hrun, hzs, hsum⟩ := binAdditionNoCarry_bits (h.trans hlength.symm) (by rwa [h])
  refine ⟨zs, ?_, hzs.trans h, ?_⟩
  · rw [lowerHalfRound, andWire_bits, ok_bind, shift_bits hpos, ok_bind]
    exact hrun
  · rw [hsum, h, hvalue, Nat.add_mod_mod]
    congr 2
    ring

theorem foldlM_lowerHalfRound {xs : List (ZMod 2)} (htwo : 2 ≤ xs.length) (ys : List (ZMod 2))
    {sum : List (ZMod 2)} (i : ℕ) (h : sum.length = xs.length) :
    Computes (((bits ys).zipIdx i).foldlM (lowerHalfRound (bits xs)) (bits sum)) xs.length
      ((toNat sum + toNat xs * 2 ^ i * toNat ys) % 2 ^ xs.length) := by
  induction ys generalizing sum i with
  | nil =>
    have hlt := toNat_lt sum
    rw [h] at hlt
    exact ⟨sum, rfl, h, by rw [toNat_nil, mul_zero, add_zero, Nat.mod_eq_of_lt hlt]⟩
  | cons y ys ih =>
    obtain ⟨zs, hrun, hzs, hvalue⟩ := lowerHalfRound_bits h htwo y i
    obtain ⟨ws, hrest, hws, hrestValue⟩ := ih (i + 1) hzs
    refine ⟨ws, ?_, hws, ?_⟩
    · rw [bits_cons, List.zipIdx_cons, List.foldlM_cons, hrun]
      exact hrest
    · rw [hrestValue, hvalue, Nat.mod_add_mod, toNat_cons]
      congr 1
      ring

theorem map_snd_pairs (ps : List (ZMod 2 × ZMod 2)) :
    (ps.map (Prod.map bit bit)).map Prod.snd = bits (ps.map Prod.snd) := by
  rw [List.map_map, bits, List.map_map]
  rfl

theorem toNat_map_mul_lt (xs : List (ZMod 2)) (y : ZMod 2) :
    toNat xs * y.val < 2 ^ xs.length := by
  have hlt := toNat_lt (xs.map fun a => a * y)
  rwa [toNat_map_mul, List.length_map] at hlt

theorem binMultiplicationLowerHalf_bits {xs ys : List (ZMod 2)} (h : xs.length = ys.length)
    (hpos : 0 < xs.length) :
    Computes (binMultiplicationLowerHalf (bits xs) (bits ys)) xs.length
      (toNat xs * toNat ys % 2 ^ xs.length) := by
  obtain ⟨ps, rfl, rfl⟩ := exists_pairs h
  rw [binMultiplicationLowerHalf, sameModuli_bits, ok_bind, map_snd_pairs]
  obtain ⟨p, qs, rfl⟩ := List.exists_cons_of_length_pos (by simpa using hpos : 0 < ps.length)
  rw [List.map_cons (f := Prod.snd), bits_cons]
  dsimp only
  rw [andWire_bits, ok_bind]
  obtain rfl | hqs := eq_or_ne qs []
  · have hlt := toNat_map_mul_lt [p.1] p.2
    refine ⟨[p.1 * p.2], rfl, rfl, ?_⟩
    simpa [val_mul] using (Nat.mod_eq_of_lt hlt).symm
  · have htwo : 2 ≤ ((p :: qs).map Prod.fst).length := by
      have hlength := List.length_pos_of_ne_nil hqs
      simp only [List.length_map, List.length_cons]
      omega
    have hlength : (((p :: qs).map Prod.fst).map fun a => a * p.2).length =
        ((p :: qs).map Prod.fst).length := List.length_map ..
    obtain ⟨zs, hrun, hzs, hvalue⟩ := foldlM_lowerHalfRound htwo (qs.map Prod.snd) 1 hlength
    refine ⟨zs, hrun, hzs, ?_⟩
    rw [hvalue, toNat_map_mul, toNat_cons p.2]
    congr 1
    ring

theorem mulRound_bits {xs sum : List (ZMod 2)} {i : ℕ} (hpos : 0 < xs.length)
    (h : sum.length = i + xs.length) (y : ZMod 2) :
    Computes (mulRound (bits xs) (bits sum) (bit y, i)) (i + 1 + xs.length)
      (toNat sum + toNat xs * 2 ^ i * y.val) := by
  have hpos' : 0 < (xs.map fun a => a * y).length := by rwa [List.length_map]
  have hlength : sum.length = (List.replicate i 0 ++ xs.map fun a => a * y).length := by
    rw [List.length_append, List.length_replicate, List.length_map, h]
  obtain ⟨zs, c, hrun, hadds⟩ := binAddition_bits hlength (by omega)
  refine ⟨zs ++ [c], ?_, ?_, ?_⟩
  · rw [mulRound, andWire_bits, ok_bind, shiftExtend_bits hpos', ok_bind, hrun, ok_bind]
    rw [bits_append]
    rfl
  · rw [List.length_append, List.length_singleton, ← hadds.length_left, h]
    omega
  · rw [toNat_concat, ← hadds.sum, toNat_replicate_append, toNat_map_mul]
    ring

theorem foldlM_mulRound {xs : List (ZMod 2)} (hpos : 0 < xs.length) (ys : List (ZMod 2))
    {sum : List (ZMod 2)} {i : ℕ} (h : sum.length = i + xs.length) :
    Computes (((bits ys).zipIdx i).foldlM (mulRound (bits xs)) (bits sum))
      (i + ys.length + xs.length) (toNat sum + toNat xs * 2 ^ i * toNat ys) := by
  induction ys generalizing sum i with
  | nil => exact ⟨sum, rfl, h, by rw [toNat_nil, mul_zero, add_zero]⟩
  | cons y ys ih =>
    obtain ⟨zs, hrun, hzs, hvalue⟩ := mulRound_bits hpos h y
    obtain ⟨ws, hrest, hws, hrestValue⟩ := ih hzs
    refine ⟨ws, ?_, by rw [hws, List.length_cons]; omega, ?_⟩
    · rw [bits_cons, List.zipIdx_cons, List.foldlM_cons, hrun]
      exact hrest
    · rw [hrestValue, hvalue, toNat_cons]
      ring

theorem binMul_bits {xs ys : List (ZMod 2)} (h : xs.length = ys.length) (hpos : 0 < xs.length) :
    Computes (binMul (bits xs) (bits ys)) (2 * xs.length) (toNat xs * toNat ys) := by
  obtain ⟨ps, rfl, rfl⟩ := exists_pairs h
  rw [binMul, sameModuli_bits, ok_bind, map_snd_pairs]
  obtain ⟨p, qs, rfl⟩ := List.exists_cons_of_length_pos (by simpa using hpos : 0 < ps.length)
  rw [List.map_cons (f := Prod.snd), bits_cons]
  dsimp only
  rw [andWire_bits, ok_bind, constant_zero, ok_bind]
  have hlength : ((((p :: qs).map Prod.fst).map fun a => a * p.2) ++ [0]).length =
      1 + ((p :: qs).map Prod.fst).length := by
    rw [List.length_append, List.length_map, List.length_singleton]
    omega
  obtain ⟨zs, hrun, hzs, hvalue⟩ := foldlM_mulRound hpos (qs.map Prod.snd) hlength
  refine ⟨zs, ?_, ?_, ?_⟩
  · rw [bits_append] at hrun
    exact hrun
  · rw [hzs]
    simp only [List.length_map, List.length_cons]
    omega
  · rw [hvalue, toNat_concat, toNat_map_mul, toNat_cons p.2, ZMod.val_zero]
    ring

theorem toNat_map_not (bs : List (ZMod 2)) :
    toNat (bs.map fun a => 1 + a) + toNat bs + 1 = 2 ^ bs.length := by
  induction bs with
  | nil => rfl
  | cons b bs ih =>
    have hnot : (1 + b).val + b.val = 1 := by
      clear ih
      revert b
      decide
    rw [List.map_cons, toNat_cons, toNat_cons, List.length_cons, pow_succ]
    omega

theorem mapM_negate_bits (bs : List (ZMod 2)) :
    ((bits bs).mapM negate : Dummy _) = .ok (bits (bs.map fun a => 1 + a)) := by
  rw [mapM_ok bs fun a _ => negate_bit a, bits, List.map_map]
  rfl

theorem binTwosComplement_bits {xs : List (ZMod 2)} (htwo : 2 ≤ xs.length) :
    Computes (binTwosComplement (bits xs)) xs.length
      ((2 ^ xs.length - toNat xs) % 2 ^ xs.length) := by
  obtain ⟨hlength, hone⟩ := constantBits_spec 1 xs.length
  have hnot := toNat_map_not xs
  obtain ⟨zs, hrun, hzs, hvalue⟩ := @binAdditionNoCarry_bits (xs.map fun a => 1 + a)
    (constantBits 1 xs.length) (by rw [List.length_map, hlength]) (by rwa [List.length_map])
  rw [List.length_map] at hzs hvalue
  refine ⟨zs, ?_, hzs, ?_⟩
  · rw [binTwosComplement, mapM_negate_bits, ok_bind, List.length_map, binConstantBundle_bits]
    exact hrun
  · have hpow : 1 < 2 ^ xs.length := Nat.one_lt_two_pow (by omega)
    rw [hvalue, hone, Nat.mod_eq_of_lt hpow]
    congr 1
    omega

theorem binTwosComplement_single (x : ZMod 2) :
    (binTwosComplement (bits [x]) : Dummy _) = .ok (bits [x, 1]) := by
  revert x
  decide

theorem binMultiplex_bits (b : ZMod 2) {xs ys : List (ZMod 2)} (h : xs.length = ys.length) :
    (binMultiplex (bit b) (bits xs) (bits ys) : Dummy _) = .ok (bits (if b = 0 then xs else ys)) := by
  obtain ⟨ps, rfl, rfl⟩ := exists_pairs h
  have hmux := mapM_ok (f := fun p : DummyVal × DummyVal => (mux (bit b) p.1 p.2 : Dummy _))
    (g := Prod.map bit bit) ps fun p _ => mux_bit b p.1 p.2
  rw [binMultiplex, zip_pairs, hmux]
  split <;> rw [bits, List.map_map] <;> rfl

theorem cmulRound_bits {xs z : List (ZMod 2)} (htwo : 2 ≤ xs.length) (h : z.length = xs.length)
    (i : ℕ) : Computes (cmulRound (bits xs) (bits z) i) xs.length
      ((toNat z + toNat xs * 2 ^ i) % 2 ^ xs.length) := by
  have hpos : 0 < xs.length := by omega
  obtain ⟨hlength, hvalue⟩ := shiftedUp_spec hpos i
  obtain ⟨zs, hrun, hzs, hsum⟩ := binAdditionNoCarry_bits (h.trans hlength.symm) (by rwa [h])
  refine ⟨zs, ?_, hzs.trans h, ?_⟩
  · rw [cmulRound, shift_bits hpos, ok_bind]
    exact hrun
  · rw [hsum, h, hvalue, Nat.add_mod_mod, mul_comm (toNat xs)]

theorem foldlM_cmulRound {xs : List (ZMod 2)} (htwo : 2 ≤ xs.length) (c n i : ℕ)
    {z : List (ZMod 2)} (h : z.length = xs.length) :
    Computes (((u128ToBits c n).zipIdx i |>.filterMap fun (b, i) =>
        if 0 < b then some i else none).foldlM (cmulRound (bits xs)) (bits z)) xs.length
      ((toNat z + toNat xs * 2 ^ i * (c % 2 ^ n)) % 2 ^ xs.length) := by
  induction n generalizing c i z with
  | zero =>
    have hlt := toNat_lt z
    rw [h] at hlt
    exact ⟨z, rfl, h, by rw [pow_zero, Nat.mod_one, mul_zero, add_zero, Nat.mod_eq_of_lt hlt]⟩
  | succ n ih =>
    rw [u128ToBits, List.zipIdx_cons, List.filterMap_cons]
    dsimp only
    rw [pow_succ', Nat.mod_mul]
    split
    · next hzero =>
      have hbit : c % 2 = 0 := by
        by_contra hne
        rw [if_pos (by omega)] at hzero
        cases hzero
      obtain ⟨ws, hrest, hws, hvalue⟩ := ih (c / 2) (i + 1) h
      refine ⟨ws, hrest, hws, ?_⟩
      rw [hvalue, hbit]
      congr 1
      ring
    · next j hone =>
      have hbit : c % 2 = 1 := by
        by_contra hne
        rw [if_neg (by omega)] at hone
        cases hone
      obtain rfl : i = j := by
        rw [if_pos (by omega)] at hone
        exact Option.some.inj hone
      obtain ⟨zs, hrun, hzs, hvalue⟩ := cmulRound_bits htwo h i
      obtain ⟨ws, hrest, hws, hrestValue⟩ := ih (c / 2) (i + 1) hzs
      refine ⟨ws, ?_, hws, ?_⟩
      · rw [List.foldlM_cons, hrun]
        exact hrest
      · rw [hrestValue, hvalue, hbit, Nat.mod_add_mod]
        congr 1
        ring

theorem binCmul_bits {xs : List (ZMod 2)} (htwo : 2 ≤ xs.length) (c : ℕ) :
    Computes (binCmul (bits xs) c xs.length) xs.length (c * toNat xs % 2 ^ xs.length) := by
  obtain ⟨hlength, hzero⟩ := constantBits_spec 0 xs.length
  obtain ⟨zs, hrun, hzs, hvalue⟩ := foldlM_cmulRound htwo c xs.length 0 hlength
  refine ⟨zs, ?_, hzs, ?_⟩
  · rw [binCmul, binConstantBundle_bits, ok_bind]
    exact hrun
  · rw [hvalue, hzero, Nat.zero_mod, zero_add, pow_zero, mul_one, Nat.mul_mod_mod, mul_comm]

end EdaBitGen.FancyGarbling
