import EdaBitGen.FancyGarbling.Pmr

/-!
# The rounding of the fractional mixed radix

The sum of the table entries is the scaled fraction `M x / Q` up to multiples of `M` and one rounding
error for each prime.
-/

namespace EdaBitGen.FancyGarbling

open MixedRadix Residues Rounding

/-! ## Mixed-radix digits -/

theorem sub_mod_div (x m : ℕ) (hm : 0 < m) : (x - x % m) / m = x / m := by
  have hdiv := Nat.div_add_mod x m
  rw [show x - x % m = m * (x / m) by omega, Nat.mul_div_cancel_left _ hm]

theorem asMixedRadix_eq {ms : List ℕ} (hms : ∀ r ∈ ms, 0 < r) (x : ℕ) :
    asMixedRadix x ms = some ((List.range ms.length).map (digit (radices ms) x)) := by
  induction ms generalizing x with
  | nil => rfl
  | cons r ms ih =>
    obtain ⟨hr, hms⟩ := List.forall_mem_cons.1 hms
    have hcons : (List.range (r :: ms).length).map (digit (radices (r :: ms)) x) =
        x % r :: (List.range ms.length).map (digit (radices ms) (x / r)) := by
      rw [List.length_cons, List.range_succ_eq_map, List.map_cons, List.map_map]
      congr 1
      · simp [digit, radices]
      · refine List.map_congr_left fun i _ => ?_
        rw [Function.comp_apply, Nat.succ_eq_add_one, digit_succ]
        rfl
    rw [asMixedRadix, hcons]
    split
    · rw [if_neg hr.ne', sub_mod_div x r hr, ih hms]
      rfl
    · next hlt =>
      rw [ih hms, Nat.mod_eq_of_lt (by omega), Nat.div_eq_of_lt (by omega)]
      rfl

/-! ## The tables -/

/-- The table entry of the residue `x` modulo `p`, before it is reduced. -/
def entry (ps : List ℕ) (M x p : ℕ) : ℕ := nearestDiv (M * (x % p) * inverse (cofactor ps p) p) p

/-- What the radices for `k` primes are chosen for. -/
structure ExactTable (k : ℕ) (ms : List ℕ) : Prop where
  primes : 3 ≤ k
  few : 2 * k ≤ ms.prod
  radices_pos : ∀ r ∈ ms, 0 < r
  nonempty : ms ≠ []
  product : ms.prod * (110 * 110) ≤ 2 ^ 53
  quotient : ms.prod * 110 ≤ 2 ^ 46
  sums : ∀ i < ms.length, maxSum (radices ms) k i + 1 < 2 ^ 16
  even : radices ms (ms.length - 1) % 2 = 0

theorem getMs_exact {k : ℕ} {ms : List ℕ} (h : getMs "100%" k = some ms) : ExactTable k ms := by
  rw [getMs, if_pos rfl] at h
  unfold msExact at h
  split at h
  all_goals cases h
  all_goals exact ⟨by decide, by decide, by decide, by decide, by decide, by decide, by decide, by decide⟩

section Tables

variable {ps ms : List ℕ} (h : Supported ps) (hms : ExactTable ps.length ms)

theorem inverse_mod (a p : ℕ) : inverse (a % p) p = inverse a p := by
  rw [inverse, inverse, ZMod.natCast_mod]

include h in
theorem inv_cofactor {p : ℕ} (hp : p ∈ ps) :
    inv (ps.prod / p % p) p = some (inverse (cofactor ps p) p : ℤ) := by
  have hprime := h.prime hp
  have hco := cofactor_coprime (fun _ => h.pos) h.coprime hp
  have hco' : (cofactor ps p % p).Coprime p := by
    rwa [Nat.Coprime, ← Nat.gcd_rec, Nat.gcd_comm]
  have hpos : 0 < cofactor ps p % p := by
    refine Nat.pos_of_ne_zero fun hzero => ?_
    rw [hzero, Nat.coprime_zero_left] at hco'
    exact hprime.one_lt.ne' hco'
  have hlt := h.lt hp
  change inv (cofactor ps p % p) p = _
  rw [inv_eq hpos hprime.one_lt (hlt.trans (by norm_num)) hco', inverse_mod]

theorem scaledResidue_eq {M x c p : ℕ} (hM : 0 < M) (hp : 0 < p) (hlt : p < 110) (hx : x < p) (hc : c < p)
    (hproduct : M * (110 * 110) ≤ 2 ^ 53) (hquotient : M * 110 ≤ 2 ^ 46) :
    scaledResidue M x c p = nearestDiv (M * x * c) p := by
  have hMx : M * x ≤ M * 110 := Nat.mul_le_mul_left M (by omega)
  have hMxc : M * x * c ≤ M * 110 * 110 := Nat.mul_le_mul hMx (by omega)
  have hbits : ∀ {n : ℕ}, n ≤ 2 ^ 53 → roundBits 53 n = n := fun hn => roundBits_of_le (by norm_num) hn
  rw [scaledResidue, mulF64, mulF64, hbits (n := M) (by omega), hbits (n := x) (by omega),
    hbits (n := c) (by omega), hbits (n := M * x) (by omega), hbits (n := M * x * c) (by omega)]
  refine nearestQuotient_eq (k := 7) hp (by omega) (by norm_num) ?_
  have hdiv : M * x * c / p ≤ M * x := by
    refine Nat.div_le_of_le_mul ?_
    rw [mul_comm p]
    exact Nat.mul_le_mul_left _ hc.le
  have hstrict : M * x < M * 110 := Nat.mul_lt_mul_of_pos_left (by omega) hM
  exact hdiv.trans_lt (hstrict.trans_le hquotient)

include hms in
theorem ExactTable.pos : 0 < ms.prod := List.prod_pos hms.radices_pos

include h hms in
theorem fractionalDigits_eq {p : ℕ} (hp : p ∈ ps) {x : ℕ} (hx : x < p) :
    (fractionalDigits ps.prod ms.prod p x ms : Dummy _) =
      .ok ((List.range ms.length).map (digit (radices ms) (entry ps ms.prod x p % ms.prod))) := by
  have hscaled := scaledResidue_eq hms.pos (h.pos hp) (h.lt hp) hx
    (inverse_lt (cofactor ps p) (h.pos hp)) hms.product hms.quotient
  rw [fractionalDigits, inv_cofactor h hp, unwrap_some, ok_bind, Int.toNat_natCast, hscaled,
    remainder_eq _ hms.pos, ok_bind, asMixedRadix_eq hms.radices_pos, unwrap_some, entry,
    Nat.mod_eq_of_lt hx]

theorem radices_eq {i : ℕ} (hi : i < ms.length) : ms[i]? = some (radices ms i) := by
  rw [radices, List.getD_eq_getElem?_getD, List.getElem?_eq_getElem hi]
  rfl

include hms in
theorem ExactTable.radix_pos {i : ℕ} (hi : i < ms.length) : 0 < radices ms i :=
  hms.radices_pos _ (List.mem_of_getElem? (radices_eq hi))

/-- The digits of the table entry for one prime. -/
def entryDigits (ps ms : List ℕ) (x p : ℕ) : ℕ → ℕ :=
  digit (radices ms) (entry ps ms.prod x p % ms.prod)

include hms in
theorem projColumn_eq {p x i : ℕ} (hx : x < p) (hi : i < ms.length) :
    (projColumn ms ⟨x, p⟩ ((List.range p).map fun v =>
        (List.range ms.length).map (entryDigits ps ms v p)) i : Dummy DummyVal) =
      .ok ⟨entryDigits ps ms x p i, radices ms i⟩ := by
  have hcolumn : ((List.range p).map fun v => (List.range ms.length).map (entryDigits ps ms v p)).mapM
      (fun row => (index row i : Dummy ℕ)) =
        .ok ((List.range p).map fun v => entryDigits ps ms v p i) :=
    mapM_ok _ fun v _ => index_eq (by simp [hi])
  rw [projColumn, hcolumn, ok_bind, index_eq (radices_eq hi), ok_bind]
  exact proj_range (f := fun v => entryDigits ps ms v p i) le_rfl hx fun v _ =>
    Nat.mod_lt _ (hms.radix_pos hi)

theorem entry_mod (M x p : ℕ) : entry ps M (x % p) p = entry ps M x p := by
  rw [entry, entry, Nat.mod_mod]

include h hms in
theorem fractionalBundle_eq {p : ℕ} (hp : p ∈ ps) (x : ℕ) :
    (fractionalBundle ps.prod ms.prod ms ⟨x % p, p⟩ : Dummy _) =
      .ok (numeral (radices ms) ms.length (entryDigits ps ms x p)) := by
  have hrows : ((List.range p).mapM fun v =>
      (fractionalDigits ps.prod ms.prod p v ms : Dummy _)) =
      .ok ((List.range p).map fun v => (List.range ms.length).map (entryDigits ps ms v p)) :=
    mapM_eq _ fun v hv => fractionalDigits_eq h hms hp (List.mem_range.1 hv)
  rw [fractionalBundle, modulus_mk, hrows, ok_bind, mapM_eq _ fun i hi =>
    projColumn_eq hms (Nat.mod_lt x (h.pos hp)) (List.mem_range.1 hi), numeral]
  simp only [entryDigits, entry_mod]

/-- The sum of the table entries. -/
def entrySum (ps : List ℕ) (M x : ℕ) : ℕ := (ps.map (entry ps M x)).sum

theorem prod_take_last : weight (radices ms) ms.length = ms.prod := by
  rw [weight_radices le_rfl, List.take_length]

include hms in
theorem numerals_entries (hps : ps ≠ []) (x : ℕ) :
    Numerals (radices ms) ms.length (ps.map fun p => entryDigits ps ms x p) where
  nonempty := by simpa using hps
  digits := by
    intro d hd i hi
    obtain ⟨p, -, rfl⟩ := List.mem_map.1 hd
    exact Nat.mod_lt _ (hms.radix_pos hi)

theorem sumOf_entries (ps ms : List ℕ) (x : ℕ) :
    sumOf (radices ms) ms.length (ps.map fun p => entryDigits ps ms x p) ≡
      entrySum ps ms.prod x [MOD ms.prod] := by
  rw [sumOf, entrySum, List.map_map]
  have hpart : ∀ l : List ℕ, ((l.map ((fun d => value (radices ms) d ms.length) ∘
      fun p => entryDigits ps ms x p)).sum) ≡ (l.map (entry ps ms.prod x)).sum [MOD ms.prod] := by
    intro l
    induction l with
    | nil => rfl
    | cons p l ih =>
      rw [List.map_cons, List.map_cons, List.sum_cons, List.sum_cons]
      refine Nat.ModEq.add ?_ ih
      rw [Function.comp_apply, entryDigits, value_digit, prod_take_last, Nat.mod_mod]
      exact Nat.mod_modEq _ _
  exact hpart ps

include hms in
theorem digit_last_congr {s t : ℕ} (hst : s ≡ t [MOD ms.prod]) :
    digit (radices ms) s (ms.length - 1) = digit (radices ms) t (ms.length - 1) := by
  have hlength := List.length_pos_of_ne_nil hms.nonempty
  have hprod : ms.prod = weight (radices ms) (ms.length - 1) * radices ms (ms.length - 1) := by
    rw [← weight_succ, Nat.sub_add_cancel hlength, prod_take_last]
  rw [digit, digit, ← Nat.mod_mul_right_div_self, ← Nat.mod_mul_right_div_self t, ← hprod, hst]

include h hms in
theorem crtFractionalMixedRadix_eq (hQ : ps.prod < 2 ^ 128) (x : ℕ) :
    (crtFractionalMixedRadix (residues ps x) ms : Dummy DummyVal) =
      .ok ⟨digit (radices ms) (entrySum ps ms.prod x) (ms.length - 1),
        radices ms (ms.length - 1)⟩ := by
  have hlength := List.length_pos_of_ne_nil hms.nonempty
  have hps : ps ≠ [] := by
    have hprimes := hms.primes
    rintro rfl
    exact absurd hprimes (by decide)
  have hnum := numerals_entries hms hps x
  have hM : product ms = some ms.prod :=
    product_eq hms.radices_pos (lt_of_le_of_lt (by have := hms.quotient; omega) (by norm_num : 2 ^ 46 < 2 ^ 128))
  have hbundles : (residues ps x).mapM (fun wire =>
      (fractionalBundle ps.prod ms.prod ms wire : Dummy _)) =
      .ok ((ps.map fun p => entryDigits ps ms x p).map (numeral (radices ms) ms.length)) := by
    rw [List.map_map]
    exact mapM_ok ps fun p hp => fractionalBundle_eq h hms hp x
  have hsum := digit_last_congr hms (sumOf_entries ps ms x)
  obtain ⟨n, hn⟩ := Nat.exists_eq_succ_of_ne_zero hlength.ne'
  have hmsb := mixedRadixAdditionMsbOnly_eq (n := n) (hn ▸ hnum)
    (by rw [List.length_map]; exact (by decide : 2 ≤ 3).trans hms.primes)
    (fun i hi => by rw [List.length_map]; exact Nat.lt_of_succ_lt (hms.sums i (by omega)))
    (fun i hi => by rw [List.length_map]; exact hms.sums i (by omega))
  rw [crtFractionalMixedRadix, compositeModulus_residues h hQ, ok_bind, hM, unwrap_some, ok_bind,
    hbundles, ok_bind, ← hsum, hn, hmsb, Nat.succ_sub_one, digit_sumOf (hn ▸ hnum) (Nat.lt_succ_self n)]

include hms in
theorem ExactTable.prod_eq :
    weight (radices ms) (ms.length - 1) * radices ms (ms.length - 1) = ms.prod := by
  rw [← weight_succ, Nat.sub_add_cancel (List.length_pos_of_ne_nil hms.nonempty), prod_take_last]

include hms in
theorem half_le_digit_iff (s : ℕ) :
    radices ms (ms.length - 1) / 2 ≤ digit (radices ms) s (ms.length - 1) ↔
      ms.prod ≤ 2 * (s % ms.prod) := by
  have heven := hms.even
  have hprod := hms.prod_eq
  have hpos : 0 < weight (radices ms) (ms.length - 1) :=
    Nat.pos_of_ne_zero fun hzero => by
      have hM := hms.pos
      rw [← hprod, hzero, Nat.zero_mul] at hM
      exact hM.false
  obtain ⟨half, hhalf⟩ : ∃ half, radices ms (ms.length - 1) = 2 * half :=
    ⟨radices ms (ms.length - 1) / 2, by omega⟩
  rw [digit, ← Nat.mod_mul_right_div_self, hprod, Nat.le_div_iff_mul_le hpos, hhalf,
    Nat.mul_div_cancel_left _ Nat.two_pos, ← hprod, hhalf]
  rw [show weight (radices ms) (ms.length - 1) * (2 * half) =
    2 * (half * weight (radices ms) (ms.length - 1)) by ring]
  exact (Nat.mul_le_mul_left_iff Nat.two_pos).symm

include h hms in
theorem fractionalMsb_eq (hget : getMs "100%" ps.length = some ms) (hQ : ps.prod < 2 ^ 128) (x : ℕ) :
    (fractionalMsb (residues ps x) "100%" : Dummy _) =
      .ok (⟨digit (radices ms) (entrySum ps ms.prod x) (ms.length - 1),
        radices ms (ms.length - 1)⟩, radices ms (ms.length - 1)) := by
  have hlast : ms.getLast? = some (radices ms (ms.length - 1)) := by
    rw [List.getLast?_eq_getElem?,
      radices_eq (Nat.sub_one_lt (List.length_pos_of_ne_nil hms.nonempty).ne')]
  rw [fractionalMsb, length_residues, hget, unwrap_some, ok_bind,
    crtFractionalMixedRadix_eq h hms hQ, ok_bind, hlast]
  rfl

include h hms in
theorem crtSign_eq (hget : getMs "100%" ps.length = some ms) (hQ : ps.prod < 2 ^ 128) (x : ℕ) :
    (crtSign (residues ps x) "100%" : Dummy DummyVal) =
      .ok ⟨if ms.prod ≤ 2 * (entrySum ps ms.prod x % ms.prod) then 1 else 0, 2⟩ := by
  have hradix := hms.radix_pos (Nat.sub_one_lt (List.length_pos_of_ne_nil hms.nonempty).ne')
  have hproj := proj_range (q := radices ms (ms.length - 1)) (p := 2)
    (f := fun v => if radices ms (ms.length - 1) / 2 ≤ v then 1 else 0) le_rfl
    (Nat.mod_lt (entrySum ps ms.prod x / weight (radices ms) (ms.length - 1)) hradix)
    fun e _ => by split <;> decide
  rw [crtSign, fractionalMsb_eq h hms hget hQ, ok_bind]
  refine hproj.trans ?_
  exact congrArg (fun v => (Except.ok ⟨v, 2⟩ : Dummy DummyVal))
    (if_congr (half_le_digit_iff hms (entrySum ps ms.prod x)) rfl rfl)

include hms in
theorem relu_mask_eq (x : ℕ) :
    (proj ⟨digit (radices ms) (entrySum ps ms.prod x) (ms.length - 1), radices ms (ms.length - 1)⟩ 2
        (some ((List.range (radices ms (ms.length - 1))).map fun v =>
          if v < radices ms (ms.length - 1) / 2 then 1 else 0)) : Dummy DummyVal) =
      .ok ⟨if ms.prod ≤ 2 * (entrySum ps ms.prod x % ms.prod) then 0 else 1, 2⟩ := by
  have hradix := hms.radix_pos (Nat.sub_one_lt (List.length_pos_of_ne_nil hms.nonempty).ne')
  have hproj := proj_range (q := radices ms (ms.length - 1)) (p := 2)
    (f := fun v => if v < radices ms (ms.length - 1) / 2 then 1 else 0) le_rfl
    (Nat.mod_lt (entrySum ps ms.prod x / weight (radices ms) (ms.length - 1)) hradix)
    fun e _ => by split <;> decide
  refine hproj.trans ?_
  have hiff := half_le_digit_iff hms (entrySum ps ms.prod x)
  rw [digit] at hiff
  split <;> split <;> first | rfl | omega

end Tables

/-! ## Rounding errors -/

/-- What rounding adds to the table entry of one prime. -/
def roundingError (ps : List ℕ) (M x p : ℕ) : ℚ :=
  entry ps M x p - (M * (x % p) * inverse (cofactor ps p) p : ℕ) / p

/-- The scaled fraction `M x / Q` with the rounding errors of its residues. -/
def roundedFraction (ps : List ℕ) (M x : ℕ) : ℚ :=
  M * x / ps.prod + (ps.map (roundingError ps M x)).sum

theorem abs_nearestDiv_sub (a : ℕ) {b : ℕ} (hb : 0 < b) :
    |(nearestDiv a b : ℚ) - (a : ℚ) / b| ≤ 1 / 2 := by
  have hb' : (0 : ℚ) < b := Nat.cast_pos.2 hb
  have hlow : nearestDiv a b * (2 * b) ≤ 2 * a + b := Nat.div_mul_le_self _ _
  have hhigh : 2 * a + b < (nearestDiv a b + 1) * (2 * b) := 
    (Nat.lt_mul_div_succ _ (by omega)).trans_eq (mul_comm _ _)
  have hlow' : (nearestDiv a b : ℚ) * (2 * b) ≤ 2 * a + b := by exact_mod_cast hlow
  have hhigh' : (2 * a + b : ℚ) < (nearestDiv a b + 1) * (2 * b) := by exact_mod_cast hhigh
  have hdiv : (a : ℚ) / b * b = a := div_mul_cancel₀ _ hb'.ne'
  rw [abs_le]
  constructor
  · refine le_of_mul_le_mul_right ?_ hb'
    rw [sub_mul, hdiv]
    linarith
  · refine le_of_mul_le_mul_right ?_ hb'
    rw [sub_mul, hdiv]
    linarith

section Errors

variable {ps : List ℕ} (h : Supported ps)

include h in
theorem abs_sum_roundingError_le (M x : ℕ) :
    |(ps.map (roundingError ps M x)).sum| ≤ (ps.length : ℚ) / 2 := by
  have hpart : ∀ l : List ℕ, (∀ p ∈ l, 0 < p) →
      |(l.map (roundingError ps M x)).sum| ≤ (l.length : ℚ) / 2 := by
    intro l hl
    induction l with
    | nil => simp
    | cons p l ih =>
      obtain ⟨hp, hl⟩ := List.forall_mem_cons.1 hl
      have hfirst := abs_nearestDiv_sub (M * (x % p) * inverse (cofactor ps p) p) hp
      rw [List.map_cons, List.sum_cons, List.length_cons, Nat.cast_succ]
      refine (abs_add_le _ _).trans ?_
      have hrest := ih hl
      change |roundingError ps M x p| ≤ 1 / 2 at hfirst
      linarith
  exact hpart ps fun _ => h.pos

include h in
theorem exists_entrySum {x : ℕ} (hx : x < ps.prod) (M : ℕ) :
    ∃ k : ℕ, (entrySum ps M x : ℚ) = roundedFraction ps M x + M * k := by
  have hQ : (0 : ℚ) < ps.prod := Nat.cast_pos.2 h.prod_pos
  have hmod := sum_term_modEq (fun _ => h.pos) h.coprime x
  refine ⟨(ps.map (term ps x)).sum / ps.prod, ?_⟩
  have hterms : ((ps.map (term ps x)).sum : ℚ) =
      x + ps.prod * ((ps.map (term ps x)).sum / ps.prod : ℕ) := by
    have hdiv := Nat.mod_add_div (ps.map (term ps x)).sum ps.prod
    rw [hmod, Nat.mod_eq_of_lt hx] at hdiv
    exact_mod_cast hdiv.symm
  -- entry by entry, the exact value is the term of the residue over `Q`
  have hpart : ∀ l : List ℕ, (∀ p ∈ l, p ∈ ps) →
      ((l.map (entry ps M x)).sum : ℚ) =
        (l.map (roundingError ps M x)).sum + M * (l.map (term ps x)).sum / ps.prod := by
    intro l hl
    induction l with
    | nil => simp
    | cons p l ih =>
      obtain ⟨hp, hl⟩ := List.forall_mem_cons.1 hl
      have hp' : (0 : ℚ) < p := Nat.cast_pos.2 (h.pos hp)
      have hcofactor : (cofactor ps p : ℚ) * p = ps.prod := by
        exact_mod_cast Nat.div_mul_cancel (List.dvd_prod hp)
      have hne : (cofactor ps p : ℚ) ≠ 0 := fun hzero => by
        rw [hzero, zero_mul] at hcofactor
        exact hQ.ne hcofactor
      have hone : (entry ps M x p : ℚ) = roundingError ps M x p + M * term ps x p / ps.prod := by
        rw [roundingError, term, ← hcofactor]
        push_cast
        field_simp
        ring
      rw [List.map_cons, List.map_cons, List.map_cons, List.sum_cons, List.sum_cons, List.sum_cons,
        Nat.cast_add, Nat.cast_add, ih hl, hone]
      ring
  rw [entrySum, hpart ps fun _ hp => hp, hterms, roundedFraction]
  field_simp
  ring

/-- The accumulated rounding error leaves `M x / Q` in its half of the numbers below `M`. -/
def Accurate (ps : List ℕ) (M x : ℕ) : Prop :=
  if 2 * x < ps.prod then 0 ≤ roundedFraction ps M x ∧ roundedFraction ps M x < M / 2
  else M / 2 ≤ roundedFraction ps M x ∧ roundedFraction ps M x < M

instance (ps : List ℕ) (M x : ℕ) : Decidable (Accurate ps M x) := by
  unfold Accurate
  infer_instance

theorem emod_cases {z M : ℤ} (hlow : -M < z) (hhigh : z < 2 * M) :
    z % M = if z < 0 then z + M else if z < M then z else z - M := by
  split
  · next h => rw [← Int.add_emod_right, Int.emod_eq_of_lt (by omega) (by omega)]
  · split
    · next h => exact Int.emod_eq_of_lt (by omega) h
    · next h =>
      rw [← Int.emod_eq_of_lt (a := z - M) (b := M) (by omega) (by omega), Int.sub_emod_right]

include h in
theorem half_iff {M x : ℕ} (hx : x < ps.prod) (hM : 0 < M) (hfew : 2 * ps.length ≤ M) :
    (M ≤ 2 * (entrySum ps M x % M) ↔ ps.prod ≤ 2 * x) ↔ Accurate ps M x := by
  have hQ : (0 : ℚ) < ps.prod := Nat.cast_pos.2 h.prod_pos
  have hM' : (0 : ℚ) < M := Nat.cast_pos.2 hM
  obtain ⟨k, hk⟩ := exists_entrySum h hx M
  obtain ⟨z, hz⟩ : ∃ z : ℤ, z = entrySum ps M x - M * k := ⟨_, rfl⟩
  have hzq : (z : ℚ) = roundedFraction ps M x := by
    rw [hz]
    push_cast
    rw [hk]
    ring
  have hmod : ((entrySum ps M x % M : ℕ) : ℤ) = z % M := by
    rw [hz, Int.natCast_emod, Int.sub_mul_emod_self_left]
  obtain ⟨herr₁, herr₂⟩ := abs_le.1 (abs_sum_roundingError_le h M x)
  have hfew' : (2 * ps.length : ℚ) ≤ M := by exact_mod_cast hfew
  have hsum : (z : ℚ) = M * x / ps.prod + (ps.map (roundingError ps M x)).sum := hzq
  have hfraction : (M : ℚ) * x / ps.prod * ps.prod = M * x := div_mul_cancel₀ _ hQ.ne'
  have hnonneg : (0 : ℚ) ≤ M * x / ps.prod :=
    div_nonneg (mul_nonneg (Nat.cast_nonneg _) (Nat.cast_nonneg _)) hQ.le
  generalize (M : ℚ) * x / ps.prod = f at hsum hfraction hnonneg
  have hx' : (x : ℚ) < ps.prod := by exact_mod_cast hx
  have hhalfz : ((z : ℚ) < M / 2 ↔ 2 * z < M) := by
    rw [lt_div_iff₀ two_pos, mul_comm]
    exact_mod_cast Iff.rfl
  rw [Accurate, ← hzq]
  split
  · next hhalf =>
    have hhalf' : (2 * x : ℚ) < ps.prod := by exact_mod_cast hhalf
    have hf : f < M / 2 := by
      refine lt_of_mul_lt_mul_right ?_ hQ.le
      rw [hfraction]
      nlinarith
    have hlow : -(M : ℤ) ≤ 4 * z := by
      have hcast : (-M : ℚ) ≤ 4 * z := by linarith
      exact_mod_cast hcast
    have hhigh : 4 * z < 3 * (M : ℤ) := by
      have hcast : (4 * z : ℚ) < 3 * M := by linarith
      exact_mod_cast hcast
    have hcases := emod_cases (z := z) (M := M) (by omega) (by omega)
    rw [hhalfz, Int.cast_nonneg_iff]
    split at hcases
    · omega
    · split at hcases <;> omega
  · next hhalf =>
    have hhalf' : (ps.prod : ℚ) ≤ 2 * x := by exact_mod_cast Nat.not_lt.1 hhalf
    have hf : M / 2 ≤ f := by
      refine le_of_mul_le_mul_right ?_ hQ
      rw [hfraction]
      nlinarith
    have hf' : f < M := by
      refine lt_of_mul_lt_mul_right ?_ hQ.le
      rw [hfraction]
      exact mul_lt_mul_of_pos_left hx' hM'
    have hlow : (M : ℤ) ≤ 4 * z := by
      have hcast : (M : ℚ) ≤ 4 * z := by linarith
      exact_mod_cast hcast
    have hhigh : 4 * z < 5 * (M : ℤ) + 1 := by
      have hcast : (4 * z : ℚ) < 5 * M + 1 := by linarith
      exact_mod_cast hcast
    have hcases := emod_cases (z := z) (M := M) (by omega) (by omega)
    have hltz : ((z : ℚ) < M ↔ z < M) := by exact_mod_cast Iff.rfl
    have hlez : ((M : ℚ) / 2 ≤ z ↔ ¬ 2 * z < M) := by rw [← not_lt, hhalfz]
    rw [hlez, hltz]
    split at hcases
    · omega
    · split at hcases <;> omega

end Errors

end EdaBitGen.FancyGarbling
