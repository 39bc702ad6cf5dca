import EdaBitGen.FancyGarbling.BinaryArithmetic

/-!
# Division and comparisons of the binary gadgets
-/

namespace EdaBitGen.FancyGarbling

open Bits

/-! ## Division -/

theorem sub_carry {n a y z c : ℕ} (hy : 0 < y) (hyn : y < 2 ^ n) (hz : z < 2 ^ n)
    (h : a + (2 ^ n - y) % 2 ^ n = z + 2 ^ n * c) (hc : c ≤ 1) :
    (c = 1 ∧ y ≤ a ∧ z = a - y) ∨ (c = 0 ∧ a < y) := by
  rw [Nat.mod_eq_of_lt (by omega)] at h
  obtain rfl | rfl : c = 0 ∨ c = 1 := by omega
  · right
    omega
  · left
    omega

/-- Where a division is, after the bits of the dividend `done` were taken, highest first. -/
structure Divides (y : ℕ) (done : List (ZMod 2)) (acc qs : List (ZMod 2)) : Prop where
  length : qs.length = done.length
  value : toNat done.reverse = y * toNat qs.reverse + toNat acc
  rest : toNat acc < y

theorem toNat_reverse_concat (bs : List (ZMod 2)) (b : ZMod 2) :
    toNat (bs ++ [b]).reverse = b.val + 2 * toNat bs.reverse := by
  rw [List.reverse_append, List.reverse_singleton, List.singleton_append, toNat_cons]

theorem divRound_bits {ysNeg acc qs done : List (ZMod 2)} {n y : ℕ} (hn : 0 < n) (hy : 0 < y)
    (hyn : y < 2 ^ n) (hneg : ysNeg.length = n) (hnegValue : toNat ysNeg = (2 ^ n - y) % 2 ^ n)
    (hacc : acc.length = n) (hdone : done.length < n) (h : Divides y done acc qs) (x : ZMod 2) :
    ∃ acc' qs', (divRound (bits ysNeg) (bits acc, bits qs) (bit x) : Dummy _) =
        .ok (bits acc', bits qs') ∧ acc'.length = n ∧ Divides y (done ++ [x]) acc' qs' := by
  -- the remainder with the next bit is at most what was taken of the dividend
  have hx := val_le_one x
  have hfits : x.val + 2 * toNat acc < 2 ^ n := by
    have htaken := toNat_lt (done ++ [x]).reverse
    rw [toNat_reverse_concat, List.length_reverse, List.length_append, List.length_singleton] at htaken
    have hle : toNat acc ≤ toNat done.reverse := by rw [h.value]; omega
    have hpow : 2 ^ (done.length + 1) ≤ 2 ^ n := Nat.pow_le_pow_right (by omega) hdone
    omega
  have hnext : toNat (x :: acc.dropLast) = x.val + 2 * toNat acc := by
    rw [toNat_cons_dropLast (by omega), hacc, Nat.mod_eq_of_lt hfits]
  have hnextLength : (x :: acc.dropLast).length = n := by
    rw [List.length_cons, List.length_dropLast]
    omega
  obtain ⟨zs, c, hrun, hadds⟩ := binAddition_bits (hnextLength.trans hneg.symm)
    (by rw [hnextLength]; exact hn)
  have hzs : zs.length = n := hadds.length_left.symm.trans hnextLength
  have hsum := hadds.sum
  have hlt := toNat_lt zs
  rw [hzs] at hsum hlt
  rw [hnext, hnegValue] at hsum
  refine ⟨if c = 0 then x :: acc.dropLast else zs, qs ++ [c], ?_, ?_, ?_⟩
  · rw [divRound, shiftOnce_bits]
    dsimp only
    rw [hrun, ok_bind]
    dsimp only
    rw [binMultiplex_bits c (hnextLength.trans hzs.symm), ok_bind, bits_append]
    rfl
  · split
    · exact hnextLength
    · exact hzs
  · have hvalue := h.value
    have hrest := h.rest
    have hlength : (qs ++ [c]).length = (done ++ [x]).length := by
      simp [h.length]
    obtain ⟨hc, hle, hz⟩ | ⟨hc, hlt⟩ := sub_carry hy hyn hlt hsum (val_le_one c)
    · have hone : c ≠ 0 := by rintro rfl; simp at hc
      refine ⟨hlength, ?_, ?_⟩
      · rw [if_neg hone, toNat_reverse_concat, toNat_reverse_concat, hvalue, hc, hz]
        have hdistrib : y * (1 + 2 * toNat qs.reverse) = y + 2 * (y * toNat qs.reverse) := by ring
        omega
      · rw [if_neg hone, hz]
        omega
    · have hzero : c = 0 := (ZMod.val_eq_zero c).1 hc
      refine ⟨hlength, ?_, ?_⟩
      · rw [if_pos hzero, toNat_reverse_concat, toNat_reverse_concat, hvalue, hc, hnext]
        ring
      · rw [if_pos hzero, hnext]
        exact hlt

theorem foldlM_divRound {ysNeg : List (ZMod 2)} {n y : ℕ} (hn : 0 < n) (hy : 0 < y)
    (hyn : y < 2 ^ n) (hneg : ysNeg.length = n) (hnegValue : toNat ysNeg = (2 ^ n - y) % 2 ^ n)
    (xs : List (ZMod 2)) {acc qs done : List (ZMod 2)} (hacc : acc.length = n)
    (hxs : done.length + xs.length ≤ n) (h : Divides y done acc qs) :
    ∃ acc' qs', ((bits xs).foldlM (divRound (bits ysNeg)) (bits acc, bits qs) : Dummy _) =
      .ok (bits acc', bits qs') ∧ Divides y (done ++ xs) acc' qs' := by
  induction xs generalizing acc qs done with
  | nil => exact ⟨acc, qs, rfl, by rwa [List.append_nil]⟩
  | cons x xs ih =>
    rw [List.length_cons] at hxs
    obtain ⟨acc₁, qs₁, hrun, hacc₁, h₁⟩ := divRound_bits hn hy hyn hneg hnegValue hacc (by omega) h x
    obtain ⟨acc₂, qs₂, hrest, h₂⟩ := ih hacc₁ (by simp; omega) h₁
    refine ⟨acc₂, qs₂, ?_, by rwa [List.append_assoc] at h₂⟩
    rw [bits_cons, List.foldlM_cons, hrun]
    exact hrest

theorem sameModuli_eq {xs ys : List (ZMod 2)} (h : xs.length = ys.length) :
    ∃ ps, (sameModuli (bits xs) (bits ys) : Dummy _) = .ok ps := by
  obtain ⟨ps, rfl, rfl⟩ := exists_pairs h
  exact ⟨_, sameModuli_bits ps⟩

theorem binDiv_bits {xs ys : List (ZMod 2)} (h : xs.length = ys.length) (htwo : 2 ≤ xs.length)
    (hy : 0 < toNat ys) :
    Computes (binDiv (bits xs) (bits ys)) xs.length (toNat xs / toNat ys) := by
  obtain ⟨ps, hps⟩ := sameModuli_eq h
  obtain ⟨ns, hneg, hns, hnsValue⟩ := binTwosComplement_bits (h ▸ htwo)
  obtain ⟨hzeroLength, hzero⟩ := constantBits_spec 0 xs.length
  have hyn := toNat_lt ys
  rw [← h] at hns hnsValue hyn
  have hstart : Divides (toNat ys) [] (constantBits 0 xs.length) [] := by
    refine ⟨rfl, ?_, ?_⟩ <;> rw [hzero, Nat.zero_mod]
    · rfl
    · exact hy
  obtain ⟨acc, qs, hrun, hdiv⟩ := foldlM_divRound (by omega) hy hyn hns hnsValue xs.reverse
    hzeroLength (by simp) hstart
  refine ⟨qs.reverse, ?_, by simpa using hdiv.length, ?_⟩
  · rw [binDiv, hps, ok_bind, hneg, ok_bind, List.length_map, binConstantBundle_bits, ok_bind]
    rw [← bits_reverse, show ([] : Bundle DummyVal) = bits [] from rfl, hrun, ok_bind, bits_reverse]
    rfl
  · have hvalue := hdiv.value
    rw [List.nil_append, List.reverse_reverse] at hvalue
    rw [hvalue, Nat.mul_add_div hy, Nat.div_eq_of_lt hdiv.rest, add_zero]

/-! ## Comparisons -/

/-- The truth value as a bit. -/
def truth (p : Prop) [Decidable p] : ZMod 2 := if p then 1 else 0

theorem truth_congr {p q : Prop} [Decidable p] [Decidable q] (h : p ↔ q) : truth p = truth q :=
  if_congr h rfl rfl

theorem foldlM_or_bits (a : ZMod 2) (bs : List (ZMod 2)) :
    ((bits bs).foldlM or (bit a) : Dummy _) = .ok (bit (truth (¬ (a = 0 ∧ toNat bs = 0)))) := by
  induction bs generalizing a with
  | nil =>
    revert a
    decide
  | cons b bs ih =>
    rw [bits_cons, List.foldlM_cons, or_bit, ok_bind, ih, toNat_cons]
    have hor : a + b + a * b = 0 ↔ a = 0 ∧ b.val = 0 := by
      clear ih
      revert a b
      decide
    refine congrArg (fun v => Except.ok (bit v)) (truth_congr (not_congr ?_))
    rw [hor, and_assoc, Nat.add_eq_zero_iff, Nat.mul_eq_zero]
    simp

theorem orMany_bits {bs : List (ZMod 2)} (h : 0 < bs.length) :
    (orMany (bits bs) : Dummy _) = .ok (bit (truth (toNat bs ≠ 0))) := by
  obtain ⟨a, bs, rfl⟩ := List.exists_cons_of_length_pos h
  have hlength : ¬ (bits (a :: bs)).length < 1 := by simp
  rw [bits_cons] at hlength ⊢
  rw [orMany, foldArgs, if_neg hlength, foldlM_or_bits, toNat_cons]
  refine congrArg (fun v => Except.ok (bit v)) (truth_congr (not_congr ?_))
  rw [← ZMod.val_eq_zero a, Nat.add_eq_zero_iff, Nat.mul_eq_zero]
  simp

/-- The carry of a subtraction by the negated number: nothing was borrowed, and it is not zero. -/
theorem sub_carry_iff {n x y z : ℕ} {c : ZMod 2} (hx : x < 2 ^ n) (hyn : y < 2 ^ n) (hz : z < 2 ^ n)
    (h : x + (2 ^ n - y) % 2 ^ n = z + 2 ^ n * c.val) : c = truth (y ≠ 0 ∧ y ≤ x) := by
  have hc := val_le_one c
  obtain rfl | hy := Nat.eq_zero_or_pos y
  · rw [Nat.sub_zero, Nat.mod_self] at h
    have hzero : c.val = 0 := by
      by_contra hne
      obtain hone : c.val = 1 := by omega
      rw [hone] at h
      omega
    rw [(ZMod.val_eq_zero c).1 hzero]
    rfl
  · obtain ⟨hone, hle, -⟩ | ⟨hzero, hlt⟩ := sub_carry hy hyn hz h hc
    · rw [truth, if_pos ⟨by omega, hle⟩]
      exact ZMod.val_injective 2 hone
    · rw [truth, if_neg (by omega)]
      exact (ZMod.val_eq_zero c).1 hzero

theorem binSubtraction_bits {xs ys : List (ZMod 2)} (h : xs.length = ys.length)
    (htwo : 2 ≤ xs.length) :
    ∃ zs, (binSubtraction (bits xs) (bits ys) : Dummy _) =
      .ok (bits zs, bit (truth (toNat ys ≠ 0 ∧ toNat ys ≤ toNat xs))) := by
  obtain ⟨ns, hneg, hns, hnsValue⟩ := binTwosComplement_bits (h ▸ htwo)
  obtain ⟨zs, c, hrun, hadds⟩ := binAddition_bits (h.trans hns.symm) (by omega)
  have hsum := hadds.sum
  have hx := toNat_lt xs
  have hy := toNat_lt ys
  have hz := toNat_lt zs
  rw [hnsValue, ← hadds.length_left, h] at hsum
  rw [← hadds.length_left, h] at hz
  rw [h] at hx
  refine ⟨zs, ?_⟩
  rw [binSubtraction, hneg, ok_bind, hrun, sub_carry_iff hx hy hz hsum]

theorem binLt_bits {xs ys : List (ZMod 2)} (h : xs.length = ys.length) (htwo : 2 ≤ xs.length) :
    (binLt (bits xs) (bits ys) : Dummy _) = .ok (bit (truth (toNat xs < toNat ys))) := by
  obtain ⟨zs, hsub⟩ := binSubtraction_bits h htwo
  rw [binLt, hsub, ok_bind]
  dsimp only
  rw [orMany_bits (by omega), ok_bind, negate_bit, ok_bind, orMany_bits (by omega), ok_bind, and_bit,
    ok_bind, or_bit, ok_bind, negate_bit, ok_bind, or_bit, ok_bind, and_bit]
  congr 2
  unfold truth
  obtain hlt | hle := Nat.lt_or_ge (toNat xs) (toNat ys)
  · have hy : toNat ys ≠ 0 := by omega
    have hnle : ¬ toNat ys ≤ toNat xs := by omega
    by_cases hx : toNat xs = 0
    all_goals simp [hlt, hy, hnle, hx]
    decide
  · have hnlt : ¬ toNat xs < toNat ys := by omega
    by_cases hy : toNat ys = 0 <;> by_cases hx : toNat xs = 0
    all_goals simp [hnlt, hle, hy, hx]
    all_goals decide

/-- The number with the given bits in two's complement, lowest first. -/
def toInt (bs : List (ZMod 2)) : ℤ := toNat bs - 2 ^ bs.length * (bs.getLastD 0).val

theorem toInt_concat (as : List (ZMod 2)) (b : ZMod 2) :
    toInt (as ++ [b]) = toNat as - 2 ^ as.length * b.val := by
  rw [toInt, toNat_concat, List.length_append, List.length_singleton, List.getLastD_concat, pow_succ]
  push_cast
  ring

theorem binLtSigned_bits {xs ys : List (ZMod 2)} (h : xs.length = ys.length) (htwo : 2 ≤ xs.length) :
    (binLtSigned (bits xs) (bits ys) : Dummy _) = .ok (bit (truth (toInt xs < toInt ys))) := by
  have hlt := binLt_bits h htwo
  obtain ⟨as, a, rfl⟩ := (List.eq_nil_or_concat' xs).resolve_left (by rintro rfl; simp at htwo)
  obtain ⟨bs, b, rfl⟩ := (List.eq_nil_or_concat' ys).resolve_left (by rintro rfl; simp at h)
  have hlast : ∀ (cs : List (ZMod 2)) (c : ZMod 2),
      (unwrap (bits (cs ++ [c])).getLast? : Dummy _) = .ok (bit c) := by
    intro cs c
    rw [bits_append, List.getLast?_append]
    rfl
  rw [binLtSigned, hlast, ok_bind, hlast, ok_bind, negate_bit, ok_bind, negate_bit, ok_bind, hlt,
    ok_bind, constant_one, ok_bind, and_bit, ok_bind, mux_bit, ok_bind, constant_zero, ok_bind,
    and_bit, ok_bind, mux_bit]
  congr 2
  rw [toInt_concat, toInt_concat, toNat_concat, toNat_concat]
  have hlength : as.length = bs.length := by simpa using h
  have has := toNat_lt as
  have hbs := toNat_lt bs
  rw [hlength] at has ⊢
  unfold truth
  zify at has hbs
  have hbit : ∀ c : ZMod 2, c = 0 ∨ c = 1 := by decide
  have hone : (1 : ZMod 2).val = 1 := rfl
  have htwice : (1 + 1 : ZMod 2) = 0 := rfl
  obtain rfl | rfl := hbit a <;> obtain rfl | rfl := hbit b <;>
    simp [hone, htwice, -ZMod.natCast_val]
  · linarith
  · linarith

theorem binAbs_bits {xs : List (ZMod 2)} (htwo : 2 ≤ xs.length) :
    Computes (binAbs (bits xs)) xs.length (toInt xs).natAbs := by
  obtain ⟨ns, hneg, hns, hnsValue⟩ := binTwosComplement_bits htwo
  obtain ⟨as, a, rfl⟩ := (List.eq_nil_or_concat' xs).resolve_left (by rintro rfl; simp at htwo)
  refine ⟨if a = 0 then as ++ [a] else ns, ?_, ?_, ?_⟩
  · rw [binAbs, bits_append, List.getLast?_append, ← bits_append, hneg]
    exact binMultiplex_bits a hns.symm
  · split
    · rfl
    · exact hns
  · have has := toNat_lt as
    rw [toInt_concat]
    have hbit : ∀ c : ZMod 2, c = 0 ∨ c = 1 := by decide
    obtain rfl | rfl := hbit a
    · simp [toNat_concat]
    · have hpow : 2 ^ (as ++ [(1 : ZMod 2)]).length = 2 * 2 ^ as.length := by
        rw [List.length_append, List.length_singleton, pow_succ']
      have hone : (1 : ZMod 2).val = 1 := rfl
      rw [if_neg (by decide), hnsValue, hpow, toNat_concat, hone, mul_one, Nat.cast_one, mul_one]
      have hnegative : (toNat as : ℤ) - 2 ^ as.length = -((2 ^ as.length - toNat as : ℕ) : ℤ) := by
        rw [Nat.cast_sub has.le]
        push_cast
        ring
      rw [Nat.mod_eq_of_lt (by omega), hnegative, Int.natAbs_neg, Int.natAbs_natCast]
      omega

theorem maxRound_bits {xs ys : List (ZMod 2)} (h : xs.length = ys.length) (htwo : 2 ≤ xs.length) :
    (maxRound (bits xs) (bits ys) : Dummy _) =
      .ok (bits (if toNat xs < toNat ys then ys else xs)) := by
  rw [maxRound, binLt_bits h htwo, ok_bind, negate_bit, ok_bind]
  generalize hpos : truth (toNat xs < toNat ys) = pos
  obtain ⟨ps, rfl, rfl⟩ := exists_pairs h
  have hselect := mapM_ok (f := fun p : DummyVal × DummyVal => (do
      let xp ← and p.1 (bit (1 + pos))
      let yp ← and p.2 (bit pos)
      xor xp yp : Dummy DummyVal)) (g := Prod.map bit bit) ps (r := fun p =>
        bit (p.1 * (1 + pos) + p.2 * pos)) fun p _ => by simp
  rw [zip_pairs, hselect, bits, ← hpos]
  unfold truth
  have htwice : (1 + 1 : ZMod 2) = 0 := rfl
  split <;> simp [htwice]

theorem foldlM_maxRound {n : ℕ} (htwo : 2 ≤ n) (args : List (List (ZMod 2)))
    (hargs : ∀ bs ∈ args, bs.length = n) {as : List (ZMod 2)} (has : as.length = n) :
    Computes ((args.map bits).foldlM maxRound (bits as)) n
      ((args.map toNat).foldl max (toNat as)) := by
  induction args generalizing as with
  | nil => exact ⟨as, rfl, has, rfl⟩
  | cons bs args ih =>
    obtain ⟨hbs, hargs⟩ := List.forall_mem_cons.1 hargs
    have hround := maxRound_bits (has.trans hbs.symm) (has ▸ htwo)
    have hlength : (if toNat as < toNat bs then bs else as).length = n := by
      split <;> assumption
    obtain ⟨zs, hrun, hzs, hvalue⟩ := ih hargs hlength
    refine ⟨zs, ?_, hzs, ?_⟩
    · rw [List.map_cons, List.foldlM_cons, hround]
      exact hrun
    · rw [hvalue, List.map_cons, List.foldl_cons]
      congr 1
      split
      · rw [max_eq_right (by omega)]
      · rw [max_eq_left (by omega)]

theorem binMax_bits {n : ℕ} (htwo : 2 ≤ n) {as : List (ZMod 2)} {args : List (List (ZMod 2))}
    (hargs : ∀ bs ∈ as :: args, bs.length = n) :
    Computes (binMax ((as :: args).map bits)) n ((args.map toNat).foldl max (toNat as)) := by
  obtain ⟨has, hargs⟩ := List.forall_mem_cons.1 hargs
  exact foldlM_maxRound htwo args hargs has

end EdaBitGen.FancyGarbling

/-!
## The widths of the binary gadgets

An addition without its final carry treats the first and the last bit on their own, so a bundle of
one wire comes back with two. The gadgets that use it compute what they should on wider bundles.
-/

namespace EdaBitGen.FancyGarbling

open Bits

/-! ## Bundles of one wire -/

theorem Computes.length_eq {bs : List (ZMod 2)} {n v : ℕ} (h : Computes (.ok (bits bs)) n v) :
    bs.length = n := by
  obtain ⟨zs, hzs, hlength, -⟩ := h
  have hmap := congrArg List.length (Except.ok.inj hzs)
  rw [bits, bits, List.length_map, List.length_map] at hmap
  rw [hmap, hlength]

theorem not_computes_error {e : Failure} {n v : ℕ} : ¬ Computes (.error e) n v := by
  rintro ⟨zs, hzs, -⟩
  cases hzs

theorem binSubtraction_single (x y : ZMod 2) :
    (binSubtraction (bits [x]) (bits [y]) : Dummy _) = .error (.fancy .unequalModuli) := by
  revert x y
  decide

theorem binLt_single (x y : ZMod 2) :
    (binLt (bits [x]) (bits [y]) : Dummy _) = .error (.fancy .unequalModuli) := by
  rw [binLt, binSubtraction_single]
  rfl

theorem binLtSigned_single (x y : ZMod 2) :
    (binLtSigned (bits [x]) (bits [y]) : Dummy _) = .error (.fancy .unequalModuli) := by
  revert x y
  decide

theorem binDiv_single (x y : ZMod 2) :
    (binDiv (bits [x]) (bits [y]) : Dummy _) = .error (.fancy .unequalModuli) := by
  revert x y
  decide

theorem binAbs_single (x : ZMod 2) : (binAbs (bits [x]) : Dummy _) = .ok (bits [x]) := by
  revert x
  decide

theorem binCmul_single_even (x : ZMod 2) {c : ℕ} (hc : c % 2 = 0) :
    (binCmul (bits [x]) c 1 : Dummy _) = .ok (bits [0]) := by
  simp [binCmul, u128ToBits, hc, binConstantBundle_bits, constantBits]

theorem binCmul_single_odd (x : ZMod 2) {c : ℕ} (hc : c % 2 = 1) :
    (binCmul (bits [x]) c 1 : Dummy _) = .ok (bits [x, x]) := by
  simp [binCmul, u128ToBits, hc, binConstantBundle_bits, constantBits]
  revert x
  decide

theorem binMax_single (x y : ZMod 2) (args : List (List (ZMod 2))) :
    (binMax (([x] :: [y] :: args).map bits) : Dummy _) = .error (.fancy .unequalModuli) := by
  have hround : (maxRound (bits [x]) (bits [y]) : Dummy _) = .error (.fancy .unequalModuli) := by
    rw [maxRound, binLt_single]
    rfl
  rw [List.map_cons, List.map_cons, binMax, List.foldlM_cons, hround]
  rfl

/-! ## What each gadget computes -/

theorem exists_single {bs : List (ZMod 2)} {n : ℕ} (hlength : bs.length = n) (hn : 1 ≤ n)
    (h : ¬ 2 ≤ n) : n = 1 ∧ ∃ b, bs = [b] := by
  obtain rfl : n = 1 := by omega
  exact ⟨rfl, List.length_eq_one_iff.1 hlength⟩

/-- Additions and products of all widths. -/
structure SumsAndProducts (xs ys : List (ZMod 2)) : Prop where
  addition : ∃ zs c, (binAddition (bits xs) (bits ys) : Dummy _) = .ok (bits zs, bit c) ∧
    zs.length = xs.length ∧ toNat zs = (toNat xs + toNat ys) % 2 ^ xs.length ∧
    c.val = (toNat xs + toNat ys) / 2 ^ xs.length
  lowerHalf : Computes (binMultiplicationLowerHalf (bits xs) (bits ys)) xs.length
    (toNat xs * toNat ys % 2 ^ xs.length)
  mul : Computes (binMul (bits xs) (bits ys)) (2 * xs.length) (toNat xs * toNat ys)
  abs : Computes (binAbs (bits xs)) xs.length (toInt xs).natAbs

theorem sumsAndProducts {xs ys : List (ZMod 2)} (h : xs.length = ys.length) (hpos : 0 < xs.length) :
    SumsAndProducts xs ys where
  addition := by
    obtain ⟨zs, c, hrun, hadds⟩ := binAddition_bits h hpos
    refine ⟨zs, c, hrun, hadds.length_left.symm, ?_, ?_⟩
    · rw [hadds.length_left]
      exact hadds.toNat_eq
    · rw [hadds.length_left, hadds.sum, Nat.add_mul_div_left _ _ (Nat.two_pow_pos _),
        Nat.div_eq_of_lt (toNat_lt zs), zero_add]
  lowerHalf := binMultiplicationLowerHalf_bits h hpos
  mul := binMul_bits h hpos
  abs := by
    by_cases htwo : 2 ≤ xs.length
    · exact binAbs_bits htwo
    · obtain ⟨-, b, rfl⟩ := exists_single rfl hpos htwo
      refine ⟨[b], binAbs_single b, rfl, ?_⟩
      clear h hpos htwo
      revert b
      decide

/-- The gadgets on bundles of at least one wire. Additions with carry, products and absolute values
are right for every width; the others exactly where the addition without carry that they use is. -/
theorem binary_gadgets_iff {n : ℕ} (hn : 1 ≤ n) {xs ys : List (ZMod 2)} (hxs : xs.length = n)
    (hys : ys.length = n) :
    SumsAndProducts xs ys ∧
    (Computes (binAdditionNoCarry (bits xs) (bits ys)) n ((toNat xs + toNat ys) % 2 ^ n) ↔ 2 ≤ n) ∧
    (Computes (binTwosComplement (bits xs)) n ((2 ^ n - toNat xs) % 2 ^ n) ↔ 2 ≤ n) ∧
    (0 < toNat ys → (Computes (binDiv (bits xs) (bits ys)) n (toNat xs / toNat ys) ↔ 2 ≤ n)) ∧
    ((binLt (bits xs) (bits ys) : Dummy _) = .ok (bit (truth (toNat xs < toNat ys))) ↔ 2 ≤ n) ∧
    ((binLtSigned (bits xs) (bits ys) : Dummy _) = .ok (bit (truth (toInt xs < toInt ys))) ↔
      2 ≤ n) ∧
    (∀ c, Computes (binCmul (bits xs) c n) n (c * toNat xs % 2 ^ n) ↔ 2 ≤ n ∨ c % 2 = 0) ∧
    ∀ args : List (List (ZMod 2)), (∀ bs ∈ args, bs.length = n) →
      (Computes (binMax ((xs :: args).map bits)) n ((args.map toNat).foldl max (toNat xs)) ↔
        2 ≤ n ∨ args = []) := by
  subst hxs
  refine ⟨sumsAndProducts hys.symm hn, ?_⟩
  by_cases htwo : 2 ≤ xs.length
  · simp only [htwo, true_or, iff_true]
    refine ⟨?_, binTwosComplement_bits htwo, binDiv_bits hys.symm htwo, binLt_bits hys.symm htwo,
      binLtSigned_bits hys.symm htwo, binCmul_bits htwo, fun args hargs => ?_⟩
    · exact binAdditionNoCarry_bits hys.symm htwo
    · exact binMax_bits htwo (List.forall_mem_cons.2 ⟨rfl, hargs⟩)
  · obtain ⟨hone, x, rfl⟩ := exists_single rfl hn htwo
    obtain ⟨y, rfl⟩ := List.length_eq_one_iff.1 (hys.trans hone)
    simp only [htwo, false_or, iff_false]
    refine ⟨?_, ?_, fun _ => ?_, ?_, ?_, fun c => ?_, fun args hargs => ?_⟩
    · rw [binAdditionNoCarry_single]
      exact fun h => absurd h.length_eq (by simp)
    · rw [binTwosComplement_single]
      exact fun h => absurd h.length_eq (by simp)
    · rw [binDiv_single]
      exact not_computes_error
    · rw [binLt_single]
      rintro ⟨⟩
    · rw [binLtSigned_single]
      rintro ⟨⟩
    · obtain hc | hc := Nat.mod_two_eq_zero_or_one c
      · refine ⟨fun _ => hc, fun _ => ⟨[0], binCmul_single_even x hc, rfl, ?_⟩⟩
        rw [Nat.mul_mod, List.length_singleton, pow_one, hc, zero_mul, Nat.zero_mod]
        rfl
      · refine ⟨fun h => ?_, fun h => absurd (hc.symm.trans h) (by decide)⟩
        rw [List.length_singleton, binCmul_single_odd x hc] at h
        exact absurd h.length_eq (by simp)
    · cases args with
      | nil =>
        refine ⟨fun _ => rfl, fun _ => ⟨[x], rfl, rfl, rfl⟩⟩
      | cons z args =>
        obtain ⟨z, rfl⟩ := List.length_eq_one_iff.1 (hargs z List.mem_cons_self)
        rw [binMax_single]
        exact ⟨fun h => absurd h not_computes_error, fun h => absurd h (List.cons_ne_nil _ _)⟩

/-- Two bundles of two wires. -/
theorem binary_gadgets_iff_two :
    Computes (binDiv (bits [1, 1]) (bits [0, 1])) 2 (3 / 2) :=
  ((@binary_gadgets_iff 2 (by decide) [1, 1] [0, 1] rfl rfl).2.2.2.1
    (by decide)).2 (by decide)

/-- The sum of two bundles of one wire has two wires, and their quotient is an error. -/
theorem binary_gadgets_one_wire :
    (binAdditionNoCarry (bits [1]) (bits [1]) : Dummy _) = .ok (bits [0, 1]) ∧
    ¬ Computes (binAdditionNoCarry (bits [1]) (bits [1])) 1 ((1 + 1) % 2 ^ 1) ∧
    (binDiv (bits [1]) (bits [1]) : Dummy _) = .error (.fancy .unequalModuli) := by
  refine ⟨by decide, ?_, by decide⟩
  rw [binAdditionNoCarry_single]
  exact fun h => absurd h.length_eq (by decide)

end EdaBitGen.FancyGarbling
