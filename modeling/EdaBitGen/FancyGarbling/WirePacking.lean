import EdaBitGen.FancyGarbling.WireLabel

/-!
# Unpacking blocks

Whichever way a block is unpacked, the label has the digits of the block in base `q`, for every
modulus whose digits are split at the right width.
-/

namespace EdaBitGen.FancyGarbling

open Nat (ofDigits)

/-! ## The number of digits -/

theorem clog_of_bounds {q k : ℕ} (hlow : 2 ^ k < q) (hhigh : q ≤ 2 ^ (k + 1)) :
    Nat.clog 2 q = k + 1 :=
  le_antisymm (Nat.clog_le_of_le_pow hhigh) ((Nat.lt_clog_iff_pow_lt one_lt_two).2 hlow)

theorem digitsPerU128_eq {q : ℕ} (hq : 2 ≤ q) : digitsPerU128 q = 128 / Nat.clog 2 q := by
  rw [digitsPerU128]
  split_ifs with h2 h4 h8 h16 h32 h64 h128 h256 h512
  · rw [clog_of_bounds (k := 0) (by omega) (by omega)]
  · rw [clog_of_bounds (k := 1) (by omega) (by omega)]
  · rw [clog_of_bounds (k := 2) (by omega) (by omega)]
  · rw [clog_of_bounds (k := 3) (by omega) (by omega)]
  · rw [clog_of_bounds (k := 4) (by omega) (by omega)]
  · rw [clog_of_bounds (k := 5) (by omega) (by omega)]
  · rw [clog_of_bounds (k := 6) (by omega) (by omega)]
  · rw [clog_of_bounds (k := 7) (by omega) (by omega)]
  · rw [clog_of_bounds (k := 8) (by omega) (by omega)]
  · rfl

section

variable {q : ℕ} (hq : 2 ≤ q)

include hq

theorem digitsPerU128_pos (hword : q < 2 ^ 16) : 0 < digitsPerU128 q := by
  rw [digitsPerU128_eq hq]
  have hclog : Nat.clog 2 q ≤ 16 := Nat.clog_le_of_le_pow hword.le
  exact Nat.div_pos (by omega) (Nat.clog_pos one_lt_two hq)

theorem pow_digitsPerU128_le : q ^ digitsPerU128 q ≤ 2 ^ 128 := by
  rw [digitsPerU128_eq hq]
  calc q ^ (128 / Nat.clog 2 q) ≤ (2 ^ Nat.clog 2 q) ^ (128 / Nat.clog 2 q) :=
        Nat.pow_le_pow_left (Nat.le_pow_clog one_lt_two q) _
    _ = 2 ^ (Nat.clog 2 q * (128 / Nat.clog 2 q)) := (pow_mul _ _ _).symm
    _ ≤ 2 ^ 128 := Nat.pow_le_pow_right two_pos (Nat.mul_div_le _ _)

theorem isPowerOf2_iff : isPowerOf2 q = true ↔ ∃ k, q = 2 ^ k := by
  rw [isPowerOf2, beq_iff_eq, Nat.and_sub_one_eq_zero_iff_isPowerOfTwo (by omega),
    Nat.isPowerOfTwo]

theorem pow_digitsPerU128_lt (hword : q < 2 ^ 16) (hpow : ¬ ∃ k, q = 2 ^ k) :
    q ^ digitsPerU128 q < 2 ^ 128 := by
  have hpos := digitsPerU128_pos hq hword
  rw [digitsPerU128_eq hq] at hpos ⊢
  have hlt : q < 2 ^ Nat.clog 2 q :=
    lt_of_le_of_ne (Nat.le_pow_clog one_lt_two q) fun heq => hpow ⟨_, heq⟩
  calc q ^ (128 / Nat.clog 2 q) < (2 ^ Nat.clog 2 q) ^ (128 / Nat.clog 2 q) :=
        Nat.pow_lt_pow_left hlt hpos.ne'
    _ = 2 ^ (Nat.clog 2 q * (128 / Nat.clog 2 q)) := (pow_mul _ _ _).symm
    _ ≤ 2 ^ 128 := Nat.pow_le_pow_right two_pos (Nat.mul_div_le _ _)

end

theorem fromBaseQ_eq {q : ℕ} (hq : 1 < q) {ds : List ℕ} (hds : ∀ d ∈ ds, d < q)
    (hfit : q ^ ds.length ≤ 2 ^ 128) : fromBaseQ ds q = some (ofDigits q ds) := by
  induction ds with
  | nil => rfl
  | cons d ds ih =>
    have hlt := FixedDigits.ofDigits_lt hq hds
    rw [List.forall_mem_cons] at hds
    have hrest : q ^ ds.length ≤ 2 ^ 128 :=
      le_trans (Nat.pow_le_pow_right (by omega) (Nat.le_succ _)) hfit
    have hvalue := ih hds.2 hrest
    rw [fromBaseQ] at hvalue
    rw [Nat.ofDigits_cons, Nat.mul_comm] at hlt ⊢
    rw [fromBaseQ, List.reverse_cons, List.foldlM_append, hvalue, Option.bind_eq_bind,
      Option.bind_some, List.foldlM_cons, u128, if_pos (by omega), Option.bind_eq_bind,
      Option.bind_some, u128, if_pos (by omega), Nat.add_comm]
    rfl

/-! ## Unranking -/

theorem foldl_powers (q n : ℕ) : ∀ m ≤ n, (List.range' 1 m).foldl
    (fun npathsTab i => npathsTab.set i (npathsTab.getD (i - 1) 0 * q)) (List.replicate (n + 1) 1) =
      (List.range (n + 1)).map fun j => if j ≤ m then q ^ j else 1 := by
  intro m hm
  induction m with
  | zero =>
    refine List.ext_getElem (by simp) fun j hj _ => ?_
    simp only [List.range'_zero, List.foldl_nil, List.getElem_replicate, List.getElem_map,
      List.getElem_range]
    split
    · next h => rw [Nat.le_zero.1 h, pow_zero]
    · rfl
  | succ m ih =>
    have hget : ((List.range (n + 1)).map fun j => if j ≤ m then q ^ j else 1).getD m 0 = q ^ m := by
      rw [List.getD_eq_getElem?_getD, List.getElem?_map, List.getElem?_range (by omega),
        Option.map_some, Option.getD_some, if_pos le_rfl]
    rw [List.range'_concat, List.foldl_append, ih (by omega), List.foldl_cons, List.foldl_nil,
      show 1 + 1 * m - 1 = m by omega, hget]
    refine List.ext_getElem (by simp) fun j hj _ => ?_
    rw [List.getElem_set]
    simp only [List.getElem_map, List.getElem_range]
    by_cases hj : j = m + 1
    · rw [if_pos (by omega), if_pos hj.le, hj, pow_succ]
    · rw [if_neg (by omega)]
      by_cases hle : j ≤ m
      · rw [if_pos hle, if_pos (by omega)]
      · rw [if_neg hle, if_neg (by omega)]

theorem npathsTab_eq {q : ℕ} (hq : 2 ≤ q) (hword : q < 2 ^ 16) :
    npathsTab q = (List.range (digitsPerU128 q)).map (q ^ ·) := by
  have hpos := digitsPerU128_pos hq hword
  unfold npathsTab
  split
  case h_19 =>
    obtain ⟨n, hn⟩ := Nat.exists_eq_add_of_lt hpos
    rw [Nat.zero_add] at hn
    rw [hn]
    dsimp only
    rw [Nat.add_sub_cancel, foldl_powers q n n le_rfl]
    refine List.map_congr_left fun j hj => if_pos ?_
    rw [List.mem_range] at hj
    omega
  all_goals decide

theorem linearSearch_eq {npaths x k j : ℕ} (hle : j * npaths ≤ x)
    (hlt : x < (j + k) * npaths) :
    linearSearch npaths x k j (j * npaths) = (x / npaths, x % npaths) := by
  induction k generalizing j with
  | zero => exact absurd hlt (Nat.not_lt.2 hle)
  | succ k ih =>
    have hsucc : j * npaths + npaths = (j + 1) * npaths := (Nat.succ_mul j npaths).symm
    rw [linearSearch]
    split
    · next hfound =>
      have hdiv : x / npaths = j := Nat.div_eq_of_lt_le hle (hsucc ▸ hfound)
      rw [Nat.add_sub_cancel, hdiv, Nat.mod_eq_sub, hdiv, Nat.mul_comm]
    · next hskip =>
      rw [hsucc]
      refine ih (by omega) ?_
      rwa [Nat.add_right_comm, Nat.add_assoc]

theorem unrankDigit_eq {q : ℕ} (hq : 2 ≤ q) (hword : q < 2 ^ 16) {n i x : ℕ} (hi : i < n)
    (hx : x < q ^ (i + 1)) (ds : List ℕ) :
    unrankDigit q ((List.range n).map (q ^ ·)) (x, ds) i = some (x % q ^ i, ds.set i (x / q ^ i)) := by
  have hpos : 0 < q ^ i := Nat.pow_pos (by omega)
  rw [pow_succ'] at hx
  have hdigit : x / q ^ i < q := (Nat.div_lt_iff_lt_mul hpos).2 hx
  rw [unrankDigit, List.getElem?_map, List.getElem?_range hi, Option.map_some, Option.bind_eq_bind,
    Option.bind_some]
  split
  · have hsearch := linearSearch_eq (k := q) (j := 0) (x := x) (by omega)
      (by rwa [Nat.zero_add])
    rw [Nat.zero_mul] at hsearch
    rw [hsearch]
  · dsimp only
    rw [Nat.mod_eq_of_lt (hdigit.trans hword), Nat.mod_eq_sub, Nat.mul_comm]

/-- The digits from `k` on. -/
def digitsFrom (q n y k : ℕ) : List ℕ :=
  (List.range n).map fun j => if k ≤ j then y / q ^ j % q else 0

theorem unrank_eq {q : ℕ} (hq : 2 ≤ q) (hword : q < 2 ^ 16) (hpow : ¬ ∃ k, q = 2 ^ k) (inp : ℕ) :
    unrank inp q = some (FixedDigits.digits q (digitsPerU128 q) inp) := by
  have hpos := digitsPerU128_pos hq hword
  have hlt := pow_digitsPerU128_lt hq hword hpow
  generalize hn : digitsPerU128 q = n at hpos hlt
  -- the highest digits are found first
  have hloop : ∀ m ≤ n, (List.range m).reverse.foldlM (unrankDigit q ((List.range n).map (q ^ ·)))
      (inp % q ^ m, digitsFrom q n inp m) = some (inp % q ^ 0, digitsFrom q n inp 0) := by
    intro m hm
    induction m with
    | zero => rfl
    | succ m ih =>
      have hx : inp % q ^ (m + 1) < q ^ (m + 1) := Nat.mod_lt _ (Nat.pow_pos (by omega))
      have hrest : inp % q ^ (m + 1) % q ^ m = inp % q ^ m := by
        rw [pow_succ, Nat.mod_mul_right_mod]
      have hdigit : inp % q ^ (m + 1) / q ^ m = inp / q ^ m % q := by
        rw [pow_succ, Nat.mod_mul_right_div_self]
      have hset : (digitsFrom q n inp (m + 1)).set m (inp / q ^ m % q) = digitsFrom q n inp m := by
        refine List.ext_getElem (by simp [digitsFrom]) fun j hj _ => ?_
        rw [List.getElem_set]
        simp only [digitsFrom, List.getElem_map, List.getElem_range]
        by_cases hj : m = j
        · rw [if_pos hj, if_pos hj.le, hj]
        · rw [if_neg hj]
          by_cases hle : m + 1 ≤ j
          · rw [if_pos hle, if_pos (by omega)]
          · rw [if_neg hle, if_neg (by omega)]
      rw [List.range_succ, List.reverse_append, List.reverse_singleton, List.singleton_append,
        List.foldlM_cons, unrankDigit_eq hq hword (by omega) hx, hrest, hdigit, hset,
        Option.bind_eq_bind, Option.bind_some, ih (by omega)]
  have hstart : List.replicate n 0 = digitsFrom q n inp n := by
    refine List.ext_getElem (by simp [digitsFrom]) fun j hj _ => ?_
    rw [List.length_replicate] at hj
    simp only [digitsFrom, List.getElem_replicate, List.getElem_map, List.getElem_range]
    rw [if_neg (by omega)]
  have hlast : (List.map (q ^ ·) (List.range n))[n - 1]? = some (q ^ (n - 1)) := by
    rw [List.getElem?_map, List.getElem?_range (by omega), Option.map_some]
  have hm : q ^ (n - 1) * q = q ^ n := by
    rw [← pow_succ, Nat.sub_add_cancel hpos]
  rw [unrank, npathsTab_eq hq hword]
  simp only [hn, hlast, hm, u128, hlt, if_true, hstart, hloop n le_rfl, Option.bind_eq_bind,
    Option.bind_some, Option.some.injEq]
  exact List.map_congr_left fun j _ => if_pos (Nat.zero_le j)

section Lookup

variable {T : Tables} (hT : T.Spec) {q : ℕ} (hdefined : T.lookupDefinedForMod q = true)

include hT hdefined

theorem foldlM_baseQAddEq (hq : 23 < q) (inp : BitVec 128) : ∀ m ≤ 15,
    (List.range m).foldlM (fun ds i => baseQAddEq ds
      (T.lookupDigitsModAtPosition (inp.toNat / 256 ^ i % 256) q i) q)
      (T.lookupDigitsModAtPosition (inp.toNat / 256 ^ 15 % 256) q 15) =
    some (FixedDigits.digits q (T.numDigits q 15)
      (inp.toNat / 256 ^ 15 * 256 ^ 15 + inp.toNat % 256 ^ m)) := by
  have hbyte : ∀ i, inp.toNat / 256 ^ i % 256 < 256 := fun i => Nat.mod_lt _ (by omega)
  intro m hm
  induction m with
  | zero =>
    have htop : inp.toNat / 256 ^ 15 < 256 := by
      have := inp.isLt
      omega
    rw [hT.digits q hdefined 15 (by omega) _ (hbyte 15), Nat.mod_eq_of_lt htop, pow_zero, Nat.mod_one,
      Nat.add_zero]
    rfl
  | succ m ih =>
    have hnext : inp.toNat % 256 ^ (m + 1) =
        inp.toNat % 256 ^ m + inp.toNat / 256 ^ m % 256 * 256 ^ m := by
      rw [Nat.mod_pow_succ, Nat.mul_comm (256 ^ m)]
    have hpart : inp.toNat % 256 ^ (m + 1) ≤ inp.toNat % 256 ^ 15 := by
      rw [← Nat.mod_mod_of_dvd _ (pow_dvd_pow 256 (show m + 1 ≤ 15 by omega))]
      exact Nat.mod_le _ _
    have hwhole := Nat.div_add_mod' inp.toNat (256 ^ 15)
    have hblock := lt_of_lt_of_le inp.isLt (hT.block q hdefined hq)
    have hterm := hT.fits q hdefined m (by omega) _ (hbyte m)
    have hlonger := hT.longest q hdefined m (by omega)
    have hsum := FixedDigits.addWith_digits (by omega) hlonger hterm
      (x := inp.toNat / 256 ^ 15 * 256 ^ 15 + inp.toNat % 256 ^ m) (by omega)
    rw [Nat.add_assoc, ← hnext] at hsum
    rw [List.range_succ, List.foldlM_append, ih (by omega), Option.bind_eq_bind, Option.bind_some,
      List.foldlM_cons, hT.digits q hdefined m (by omega) _ (hbyte m), baseQAddEq,
      FixedDigits.length_digits, FixedDigits.length_digits, if_pos hlonger, hsum]
    rfl

theorem fromBlockLookup_eq (hq : 23 < q) (hpow : ¬ ∃ k, q = 2 ^ k) (inp : BitVec 128) :
    fromBlockLookup T inp q = some (FixedDigits.digits q (digitsPerU128 q) inp.toNat) := by
  have hlt := hT.lt q hdefined
  have hlong : digitsPerU128 q ≤ T.numDigits q 15 := by
    refine (Nat.pow_lt_pow_iff_right (a := q) (by omega)).1 ?_ |>.le
    exact (pow_digitsPerU128_lt (by omega) (by omega) hpow).trans_le (hT.block q hdefined hq)
  have hfold := foldlM_baseQAddEq hT hdefined hq inp 15 le_rfl
  rw [Nat.div_add_mod'] at hfold
  rw [fromBlockLookup, if_pos ⟨hlt, hdefined⟩]
  simp only [hfold, Option.bind_eq_bind, Option.bind_some, FixedDigits.take_digits hlong]

end Lookup

theorem splitBits_eq {k : ℕ} (hk : k ≤ 16) (n x : ℕ) :
    ((List.range n).map fun i => (x >>> (k * i) &&& 1 <<< k - 1) % 2 ^ 16) =
      FixedDigits.digits (2 ^ k) n x := by
  refine List.map_congr_left fun i _ => ?_
  have hword : x / (2 ^ k) ^ i % 2 ^ k < 2 ^ 16 :=
    (Nat.mod_lt _ (Nat.two_pow_pos k)).trans_le (Nat.pow_le_pow_right two_pos hk)
  rw [Nat.shiftRight_eq_div_pow, Nat.shiftLeft_eq, Nat.one_mul, Nat.and_two_pow_sub_one_eq_mod,
    pow_mul, Nat.mod_eq_of_lt hword]

/-- The moduli whose digits are unpacked as they were packed. -/
def Splittable (q : ℕ) : Prop := q ≠ 2 ^ 13 ∧ q < 2 ^ 15

theorem width_eq {k : ℕ} (hk : 2 ≤ k) (hq : Splittable (2 ^ k)) : 128 / digitsPerU128 (2 ^ k) = k := by
  have hle : 2 ≤ 2 ^ k := le_trans hk k.lt_two_pow_self.le
  have hlt : k < 15 := (Nat.pow_lt_pow_iff_right one_lt_two).1 hq.2
  have hne : k ≠ 13 := fun h => hq.1 (by rw [h])
  rw [digitsPerU128_eq hle, Nat.clog_pow _ _ one_lt_two]
  interval_cases k <;> first | rfl | exact absurd rfl hne

theorem WireModQ.fromBlock_eq {T : Tables} (hT : T.Spec) {q : ℕ} (hq : 4 ≤ q)
    (hsplit : Splittable q) (inp : BitVec 128) :
    WireModQ.fromBlock T inp q =
      some ⟨q, FixedDigits.digits q (digitsPerU128 q) inp.toNat⟩ := by
  have hlt := hsplit.2
  rw [WireModQ.fromBlock, if_neg (by omega)]
  by_cases hpow : ∃ k, q = 2 ^ k
  · rw [if_pos ((isPowerOf2_iff (by omega)).2 hpow)]
    obtain ⟨k, rfl⟩ := hpow
    have hk : 2 ≤ k := (Nat.pow_le_pow_iff_right one_lt_two).1 (show 2 ^ 2 ≤ 2 ^ k from hq)
    have hk' : k < 15 := (Nat.pow_lt_pow_iff_right one_lt_two).1 hlt
    simp only [width_eq hk hsplit, splitBits_eq (show k ≤ 16 by omega), Option.bind_eq_bind,
      Option.bind_some]
  · rw [if_neg fun h => hpow ((isPowerOf2_iff (by omega)).1 h)]
    have hunrank := unrank_eq (by omega) (by omega) hpow inp.toNat
    split
    · rw [hunrank]
      rfl
    · split
      · next hsmall hdefined =>
        rw [fromBlockLookup_eq hT hdefined (by omega) hpow]
        rfl
      · rw [hunrank]
        rfl

end EdaBitGen.FancyGarbling
