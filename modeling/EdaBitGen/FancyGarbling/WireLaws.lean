import EdaBitGen.FancyGarbling.WirePacking

/-!
# The laws of wire labels

For which moduli the operations on labels are those on digits, blocks hold labels, and every block
is unpacked to a label.
-/

namespace EdaBitGen.FancyGarbling

open Nat (ofDigits)

/-- The algebra of the labels of a modulus, and their packing. -/
structure WireLaws (T : Tables) (q : ℕ) : Prop where
  digits : ∀ x : AllWire, x.Valid q → x.digits.length = digitsPerU128 q ∧ ∀ d ∈ x.digits, d < q
  plus : ∀ x y : AllWire, x.Valid q → y.Valid q → ∃ z, x.plus y = some z ∧ z.Valid q ∧
    z.digits = List.zipWith (fun a b => (a + b) % q) x.digits y.digits
  minus : ∀ x y : AllWire, x.Valid q → y.Valid q → ∃ z, x.minus y = some z ∧ z.Valid q ∧
    z.digits = List.zipWith (fun a b => (a + (q - b)) % q) x.digits y.digits
  negate : ∀ x : AllWire, x.Valid q → ∃ z, x.negate = some z ∧ z.Valid q ∧
    z.digits = x.digits.map fun d => (q - d) % q
  cmul : ∀ (x : AllWire) (c : ℕ), x.Valid q → c < 2 ^ 16 → ∃ z, x.cmul c = some z ∧ z.Valid q ∧
    z.digits = x.digits.map fun d => d * c % q
  color : ∀ x : AllWire, x.Valid q → ∃ c, x.color = some c ∧ x.digits[0]? = some c
  ext : ∀ x y : AllWire, x.Valid q → y.Valid q → x.digits = y.digits → x = y
  pack : ∀ x : AllWire, x.Valid q → ∃ b, x.asBlock = some b ∧ AllWire.fromBlock T b q = some x
  fromBlock : ∀ b, ∃ x, AllWire.fromBlock T b q = some x ∧ x.Valid q
  hashToMod : ∀ b, ∃ x, AllWire.hashToMod T b q = some x ∧ x.Valid q

/-! ## Modulus two -/

namespace WireMod2

variable (x y : WireMod2)

theorem digits_eq : x.digits = (List.range 128).map fun i => (x.val.getLsbD i).toNat := by
  refine List.map_congr_left fun i _ => ?_
  rw [BitVec.toNat_ushiftRight, Nat.and_one_is_mod, Nat.mod_mod_of_dvd _ (by decide),
    BitVec.getLsbD, Nat.toNat_testBit, Nat.shiftRight_eq_div_pow]

theorem digits_lt : ∀ d ∈ x.digits, d < 2 := by
  intro d hd
  rw [digits_eq] at hd
  obtain ⟨i, -, rfl⟩ := List.mem_map.1 hd
  exact Bool.toNat_lt _

theorem digits_plus :
    (x.plus y).digits = List.zipWith (fun a b => (a + b) % 2) x.digits y.digits := by
  rw [digits_eq, digits_eq, digits_eq, List.zipWith_map, List.zipWith_self]
  refine List.map_congr_left fun i _ => ?_
  rw [plus, BitVec.getLsbD_xor]
  cases x.val.getLsbD i <;> cases y.val.getLsbD i <;> rfl

theorem digits_minus :
    (x.plus y.negate).digits = List.zipWith (fun a b => (a + (2 - b)) % 2) x.digits y.digits := by
  rw [digits_eq, digits_eq, digits_eq, List.zipWith_map, List.zipWith_self]
  refine List.map_congr_left fun i _ => ?_
  rw [plus, negate, BitVec.getLsbD_xor]
  cases x.val.getLsbD i <;> cases y.val.getLsbD i <;> rfl

theorem digits_negate : x.negate.digits = x.digits.map fun d => (2 - d) % 2 := by
  rw [negate, digits_eq, List.map_map]
  refine List.map_congr_left fun i _ => ?_
  cases h : x.val.getLsbD i <;> simp [h]

theorem digits_cmul (c : ℕ) : (x.cmul c).digits = x.digits.map fun d => d * c % 2 := by
  rw [cmul, Nat.and_one_is_mod, digits_eq x, List.map_map]
  split
  · next heven =>
    rw [digits_eq]
    refine List.map_congr_left fun i _ => ?_
    rw [Function.comp_apply, Nat.mul_mod, heven, Nat.mul_zero, Nat.zero_mod]
    simp
  · next hodd =>
    rw [digits_eq]
    refine List.map_congr_left fun i _ => ?_
    rw [Function.comp_apply, Nat.mul_mod, show c % 2 = 1 by omega]
    cases x.val.getLsbD i <;> rfl

theorem color_eq : x.digits[0]? = some x.color := by
  have hone : (1 : BitVec 128).toNat = 1 := rfl
  rw [digits_eq, List.getElem?_map, List.getElem?_range (by omega), Option.map_some, color,
    BitVec.toNat_and, hone, Nat.and_one_is_mod, BitVec.getLsbD, Nat.toNat_testBit, pow_zero,
    Nat.div_one]

theorem ext_of_digits {x y : WireMod2} (hdigits : x.digits = y.digits) : x = y := by
  rw [digits_eq, digits_eq] at hdigits
  have hval : x.val = y.val := by
    refine BitVec.eq_of_getLsbD_eq fun i hi => ?_
    have hbit := List.map_inj_left.1 hdigits i (List.mem_range.2 hi)
    revert hbit
    cases x.val.getLsbD i <;> cases y.val.getLsbD i <;> simp
  cases x
  cases y
  exact congrArg WireMod2.mk hval

end WireMod2

theorem exists_mod2 {x : AllWire} (hx : x.Valid 2) : ∃ w, x = .mod2 w := by
  cases x with
  | mod2 w => exact ⟨w, rfl⟩
  | mod3 w => exact absurd hx.1 (by decide)
  | modN w => exact absurd rfl hx.1

theorem wireLaws_two (T : Tables) : WireLaws T 2 where
  digits x hx := by
    obtain ⟨w, rfl⟩ := exists_mod2 hx
    exact ⟨by simp [AllWire.digits, WireMod2.digits, digitsPerU128], w.digits_lt⟩
  plus x y hx hy := by
    obtain ⟨v, rfl⟩ := exists_mod2 hx
    obtain ⟨w, rfl⟩ := exists_mod2 hy
    exact ⟨_, rfl, rfl, v.digits_plus w⟩
  minus x y hx hy := by
    obtain ⟨v, rfl⟩ := exists_mod2 hx
    obtain ⟨w, rfl⟩ := exists_mod2 hy
    exact ⟨_, rfl, rfl, v.digits_minus w⟩
  negate x hx := by
    obtain ⟨w, rfl⟩ := exists_mod2 hx
    exact ⟨_, rfl, rfl, w.digits_negate⟩
  cmul x c hx _ := by
    obtain ⟨w, rfl⟩ := exists_mod2 hx
    exact ⟨_, rfl, rfl, w.digits_cmul c⟩
  color x hx := by
    obtain ⟨w, rfl⟩ := exists_mod2 hx
    exact ⟨_, rfl, w.color_eq⟩
  ext x y hx hy hdigits := by
    obtain ⟨v, rfl⟩ := exists_mod2 hx
    obtain ⟨w, rfl⟩ := exists_mod2 hy
    exact congrArg AllWire.mod2 (WireMod2.ext_of_digits hdigits)
  pack x hx := by
    obtain ⟨w, rfl⟩ := exists_mod2 hx
    exact ⟨_, rfl, rfl⟩
  fromBlock b := ⟨_, rfl, rfl⟩
  hashToMod b := ⟨_, rfl, rfl⟩

/-! ## Modulus three -/

theorem WireMod3.digits_eq (x : WireMod3) : x.digits = List.replicate 64 0 := by
  refine List.ext_getElem (by simp [digits]) fun i hi _ => ?_
  simp only [digits, List.getElem_map, List.getElem_range, List.getElem_replicate,
    Nat.and_one_is_mod]
  rcases Nat.mod_two_eq_zero_or_one ((x.lsb >>> i).toNat % 2 ^ 16) with hl | hl <;>
    rcases Nat.mod_two_eq_zero_or_one ((x.msb >>> i).toNat % 2 ^ 16) with hm | hm <;>
    rw [hl, hm] <;> rfl

theorem not_wireLaws_three (T : Tables) : ¬ WireLaws T 3 := by
  intro h
  have heq := h.ext (.mod3 ⟨0, 0⟩) (.mod3 ⟨1, 0⟩) ⟨rfl, rfl⟩ ⟨rfl, rfl⟩
    ((WireMod3.digits_eq _).trans (WireMod3.digits_eq _).symm)
  exact absurd heq (by decide)

/-! ## Other moduli -/

namespace WireModQ

variable {q n : ℕ} {x y : WireModQ}

theorem digitwise_ds (f : ℕ → ℕ → ℕ) (x y : WireModQ) :
    (digitwise f x y).ds = List.zipWith f x.ds y.ds := by
  simp [digitwise, List.zip, List.map_zipWith]

theorem minus_eq (hx : x.Valid q n) (hy : y.Valid q n) (hq : 0 < q) (hword : 2 * q ≤ 2 ^ 16) :
    ∃ z, x.minus y = some z ∧ z.Valid q n ∧
      z.ds = List.zipWith (fun a b => (a + (q - b)) % q) x.ds y.ds := by
  have hneg := hy.map hq fun d => q - d
  have hplus := plus_eq hx hneg (hx.words hneg hword)
  refine ⟨_, ?_, hx.digitwise hneg hq fun a b => a + b, ?_⟩
  · rw [minus, negate_eq hy]
    exact hplus
  · rw [digitwise_ds, List.zipWith_map_right]
    simp only [Nat.add_mod_mod]

theorem asBlock_eq (hx : x.Valid q (digitsPerU128 q)) (hq : 2 ≤ q) :
    x.asBlock = some (BitVec.ofNat 128 (ofDigits q x.ds)) := by
  rw [asBlock, hx.modulus, fromBaseQ_eq hq hx.digits]
  · rfl
  · rw [hx.length]
    exact pow_digitsPerU128_le hq

theorem valid_digits (hq : 0 < q) (n v : ℕ) : Valid q n ⟨q, FixedDigits.digits q n v⟩ where
  modulus := rfl
  length := FixedDigits.length_digits q n v
  digits _ hd := FixedDigits.lt_of_mem_digits hq hd

theorem digits_asBlock (hx : x.Valid q (digitsPerU128 q)) (hq : 2 ≤ q) :
    FixedDigits.digits q (digitsPerU128 q) (BitVec.ofNat 128 (ofDigits q x.ds)).toNat = x.ds := by
  have hlt := FixedDigits.ofDigits_lt hq hx.digits
  rw [hx.length] at hlt
  rw [BitVec.toNat_ofNat, Nat.mod_eq_of_lt (hlt.trans_le (pow_digitsPerU128_le hq))]
  conv_lhs => rw [← hx.length]
  exact FixedDigits.digits_ofDigits hq hx.digits

end WireModQ

theorem exists_modN {q : ℕ} (hq : 4 ≤ q) {x : AllWire} (hx : x.Valid q) :
    ∃ w, x = .modN w ∧ w.Valid q (digitsPerU128 q) := by
  cases x with
  | mod2 w =>
    have hq2 : q = 2 := hx
    omega
  | mod3 w => exact absurd hx.1 (by omega)
  | modN w => exact ⟨w, rfl, hx.2.2⟩

theorem wireLaws_of_splittable {T : Tables} (hT : T.Spec) {q : ℕ} (hq : 4 ≤ q)
    (hsplit : Splittable q) : WireLaws T q := by
  have hlt := hsplit.2
  have hpos : 0 < digitsPerU128 q := digitsPerU128_pos (by omega) (by omega)
  have hvalid : ∀ {w : WireModQ}, w.Valid q (digitsPerU128 q) → (AllWire.modN w).Valid q :=
    fun hw => ⟨by omega, by omega, hw⟩
  have hunpack : ∀ b, AllWire.fromBlock T b q =
      some (.modN ⟨q, FixedDigits.digits q (digitsPerU128 q) b.toNat⟩) := by
    intro b
    rw [AllWire.fromBlock, if_neg (by omega), if_neg (by omega),
      WireModQ.fromBlock_eq hT hq hsplit]
    rfl
  have hfrom : ∀ b, ∃ x, AllWire.fromBlock T b q = some x ∧ x.Valid q := fun b =>
    ⟨_, hunpack b, hvalid (WireModQ.valid_digits (by omega) _ _)⟩
  constructor
  case digits =>
    intro x hx
    obtain ⟨w, rfl, hw⟩ := exists_modN hq hx
    exact ⟨hw.length, hw.digits⟩
  case plus =>
    intro x y hx hy
    obtain ⟨v, rfl, hv⟩ := exists_modN hq hx
    obtain ⟨w, rfl, hw⟩ := exists_modN hq hy
    refine ⟨_, ?_, hvalid (hv.digitwise hw (by omega) fun a b => a + b),
      WireModQ.digitwise_ds _ v w⟩
    rw [AllWire.plus, WireModQ.plus_eq hv hw (hv.words hw (by omega))]
    rfl
  case minus =>
    intro x y hx hy
    obtain ⟨v, rfl, hv⟩ := exists_modN hq hx
    obtain ⟨w, rfl, hw⟩ := exists_modN hq hy
    obtain ⟨z, hz, hzvalid, hzds⟩ := WireModQ.minus_eq hv hw (by omega) (by omega)
    refine ⟨.modN z, ?_, hvalid hzvalid, hzds⟩
    rw [WireModQ.minus] at hz
    obtain ⟨u, hu, hplus⟩ := Option.bind_eq_some_iff.1 hz
    simp only [AllWire.minus, AllWire.negate, hu, Option.map_some, Option.bind_eq_bind,
      Option.bind_some, AllWire.plus, hplus]
  case negate =>
    intro x hx
    obtain ⟨w, rfl, hw⟩ := exists_modN hq hx
    refine ⟨_, ?_, hvalid (hw.map (by omega) fun d => q - d), rfl⟩
    rw [AllWire.negate, WireModQ.negate_eq hw]
    rfl
  case cmul =>
    intro x c hx _
    obtain ⟨w, rfl, hw⟩ := exists_modN hq hx
    refine ⟨_, ?_, hvalid (hw.map (by omega) fun d => d * c), rfl⟩
    rw [AllWire.cmul, WireModQ.cmul_eq (by omega) hw]
    rfl
  case color =>
    intro x hx
    obtain ⟨w, rfl, hw⟩ := exists_modN hq hx
    have hlength : 0 < w.ds.length := by rwa [hw.length]
    have hfirst : w.ds[0]? = some w.ds[0] := List.getElem?_eq_getElem hlength
    refine ⟨_, ?_, hfirst⟩
    rw [AllWire.color, WireModQ.color, hfirst, Option.bind_eq_bind, Option.bind_some, hw.modulus,
      if_pos (hw.digits _ (List.getElem_mem hlength))]
  case ext =>
    intro x y hx hy hdigits
    obtain ⟨⟨q₁, ds₁⟩, rfl, hv⟩ := exists_modN hq hx
    obtain ⟨⟨q₂, ds₂⟩, rfl, hw⟩ := exists_modN hq hy
    obtain rfl : q₁ = q₂ := hv.modulus.trans hw.modulus.symm
    obtain rfl : ds₁ = ds₂ := hdigits
    rfl
  case pack =>
    intro x hx
    obtain ⟨w, rfl, hw⟩ := exists_modN hq hx
    refine ⟨_, WireModQ.asBlock_eq hw (by omega), ?_⟩
    rw [hunpack, WireModQ.digits_asBlock hw (by omega), ← hw.modulus]
  case fromBlock => exact hfrom
  case hashToMod =>
    intro b
    rw [AllWire.hashToMod, if_neg (by omega)]
    exact hfrom b

theorem not_wireLaws_of_wide (T : Tables) {k : ℕ} (hk : 2 ≤ k)
    (hwide : k < 128 / digitsPerU128 (2 ^ k)) (hword : 128 / digitsPerU128 (2 ^ k) ≤ 16) :
    ¬ WireLaws T (2 ^ k) := by
  intro h
  have hq : 4 ≤ 2 ^ k := Nat.pow_le_pow_right two_pos hk
  have hlt : 2 ^ k < 2 ^ 16 := Nat.pow_lt_pow_right one_lt_two (by omega)
  have hpos := digitsPerU128_pos (show 2 ≤ 2 ^ k by omega) hlt
  obtain ⟨x, hx, hvalid⟩ := h.fromBlock (BitVec.ofNat 128 (2 ^ k))
  have hmod : (BitVec.ofNat 128 (2 ^ k)).toNat = 2 ^ k := by
    rw [BitVec.toNat_ofNat, Nat.mod_eq_of_lt (Nat.pow_lt_pow_right one_lt_two (by omega))]
  rw [AllWire.fromBlock, if_neg (by omega), if_neg (by omega), WireModQ.fromBlock,
    if_neg (by omega), if_pos ((isPowerOf2_iff (by omega)).2 ⟨k, rfl⟩)] at hx
  simp only [splitBits_eq hword, hmod, Option.bind_eq_bind, Option.bind_some, Option.map_some,
    Option.some.injEq] at hx
  subst hx
  -- the lowest group holds the modulus itself
  have hmem : 2 ^ k ∈ FixedDigits.digits (2 ^ (128 / digitsPerU128 (2 ^ k)))
      (digitsPerU128 (2 ^ k)) (2 ^ k) := by
    refine List.mem_map.2 ⟨0, List.mem_range.2 hpos, ?_⟩
    rw [pow_zero, Nat.div_one, Nat.mod_eq_of_lt (Nat.pow_lt_pow_right one_lt_two hwide)]
  exact lt_irrefl _ (hvalid.2.2.digits _ hmem)

theorem not_wireLaws_of_large (T : Tables) {q : ℕ} (hlarge : 2 ^ 15 < q) (hword : q < 2 ^ 16) :
    ¬ WireLaws T q := by
  intro h
  have hpos := digitsPerU128_pos (show 2 ≤ q by omega) hword
  obtain ⟨n, hn⟩ := Nat.exists_eq_add_of_lt hpos
  rw [Nat.zero_add] at hn
  have hvalid : AllWire.Valid q (.modN ⟨q, List.replicate (n + 1) (q - 1)⟩) := by
    refine ⟨by omega, by omega, rfl, ?_, ?_⟩
    · rw [List.length_replicate, hn]
    · intro d hd
      have := List.eq_of_mem_replicate hd
      omega
  obtain ⟨z, hz, -⟩ := h.plus _ _ hvalid hvalid
  obtain ⟨w, hw, -⟩ := Option.map_eq_some_iff.1 hz
  have hsum := WireModQ.words_of_plus hw (q - 1, q - 1) (by simp [List.replicate_succ])
  simp only at hsum
  omega

/-- The laws hold for every modulus but three, those whose digits overflow when added, and the power
of two whose digits are unpacked at another width than they were packed. -/
theorem wireLaws_iff (T : Tables) (hT : T.Spec) (q : ℕ) (hq : 2 ≤ q) (hword : q < 2 ^ 16) :
    WireLaws T q ↔ q ≠ 3 ∧ q ≠ 2 ^ 13 ∧ q < 2 ^ 15 := by
  constructor
  · intro h
    refine ⟨?_, ?_, ?_⟩
    · rintro rfl
      exact not_wireLaws_three T h
    · rintro rfl
      have hn : digitsPerU128 (2 ^ 13) = 9 := by
        rw [digitsPerU128_eq (by omega), Nat.clog_pow _ _ one_lt_two]
      exact not_wireLaws_of_wide T (by omega) (by rw [hn]; omega) (by rw [hn]; omega) h
    · rcases Nat.lt_trichotomy q (2 ^ 15) with hlt | rfl | hgt
      · exact hlt
      · have hn : digitsPerU128 (2 ^ 15) = 8 := by
          rw [digitsPerU128_eq (by omega), Nat.clog_pow _ _ one_lt_two]
        exact absurd h (not_wireLaws_of_wide T (by omega) (by rw [hn]; omega) (by rw [hn]))
      · exact absurd h (not_wireLaws_of_large T hgt hword)
  · rintro ⟨h3, h13, h15⟩
    by_cases h2 : q = 2
    · rw [h2]
      exact wireLaws_two T
    · exact wireLaws_of_splittable hT (by omega) ⟨h13, h15⟩

/-- The rows of the tables as their script writes them, for the moduli up to `113`. -/
def Tables.generated : Tables where
  numDigits q pos := if 5 ≤ q ∧ q ≤ 113 then Nat.clog q (256 ^ (pos + 1)) else 0
  lookupDigitsModAtPosition x q pos :=
    FixedDigits.digits q (if 5 ≤ q ∧ q ≤ 113 then Nat.clog q (256 ^ (pos + 1)) else 0)
      (x * 256 ^ pos)

theorem Tables.generated_spec : Tables.generated.Spec := by
  have hdefined : ∀ q, Tables.generated.lookupDefinedForMod q = true → 5 ≤ q ∧ q ≤ 113 := by
    intro q h
    by_contra hnot
    simp [lookupDefinedForMod, generated, hnot] at h
  have hdigits : ∀ q, Tables.generated.lookupDefinedForMod q = true → ∀ pos,
      Tables.generated.numDigits q pos = Nat.clog q (256 ^ (pos + 1)) := fun q h pos =>
    if_pos (hdefined q h)
  have hpow : ∀ q, Tables.generated.lookupDefinedForMod q = true → ∀ pos,
      256 ^ (pos + 1) ≤ q ^ Tables.generated.numDigits q pos := fun q h pos => by
    rw [hdigits q h]
    exact Nat.le_pow_clog (by have := hdefined q h; omega) _
  refine ⟨fun q h => ?_, fun q h pos _ x _ => rfl, fun q h pos _ x hx => ?_, fun q h pos hpos => ?_,
    fun q h _ => hpow q h 15⟩
  · have := hdefined q h
    omega
  · refine lt_of_lt_of_le ?_ (hpow q h pos)
    rw [pow_succ']
    exact Nat.mul_lt_mul_of_pos_right hx (Nat.pow_pos (by omega))
  · rw [hdigits q h, hdigits q h]
    exact Nat.clog_mono_right _ (Nat.pow_le_pow_right (by omega) (by omega))

theorem wireLaws_iff_hundred : Tables.generated.Spec ∧ WireLaws Tables.generated 100 :=
  ⟨Tables.generated_spec, (wireLaws_iff _ Tables.generated_spec 100 (by decide) (by decide)).2
    (by decide)⟩

/-- All labels of modulus three have the same digits. -/
theorem wireLaws_mod3 : ¬ WireLaws Tables.generated 3 := not_wireLaws_three _

end EdaBitGen.FancyGarbling
