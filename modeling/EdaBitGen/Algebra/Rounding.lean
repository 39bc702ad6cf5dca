import Mathlib

/-!
# Rounding to some bits

Natural numbers and their quotients are rounded to the nearest number with `p` significant bits, to
the even one of two.  Rounding the quotient up to an integer then gives the exact value for numbers up
to `2 ^ p`.
-/

namespace Rounding

/-! ## The next integer -/

theorem ceilDiv_eq {a b m : ℕ} (hb : 0 < b) (hlt : m * b < a) (hle : a ≤ (m + 1) * b) :
    (a + b - 1) / b = m + 1 := by
  refine Nat.div_eq_of_lt_le ?_ ?_
  · have hexpand : (m + 1) * b = m * b + b := by ring
    omega
  · have hexpand : (m + 1 + 1) * b = (m + 1) * b + b := by ring
    omega

theorem ceilDiv_mul {b : ℕ} (hb : 0 < b) (m : ℕ) : (m * b + b - 1) / b = m := by
  cases m with
  | zero =>
    rw [Nat.zero_mul, Nat.zero_add]
    exact Nat.div_eq_of_lt (by omega)
  | succ m => exact ceilDiv_eq hb (by rw [Nat.succ_mul]; omega) le_rfl

theorem ceilDiv_le {n k : ℕ} (hk : 0 < k) : (n + k - 1) / k ≤ n := by
  cases n with
  | zero => exact (Nat.div_eq_of_lt (by omega)).le
  | succ m =>
    refine Nat.div_le_of_le_mul ?_
    have hmul : m ≤ k * m := Nat.le_mul_of_pos_left m hk
    rw [Nat.mul_succ]
    omega

theorem le_ceilDiv_mul (n : ℕ) {k : ℕ} (hk : 0 < k) : n ≤ (n + k - 1) / k * k := by
  have := Nat.lt_div_mul_add (a := n + k - 1) hk
  omega

/-- The integer next to a quotient, the even one of two. -/
def roundDiv (a b : ℕ) : ℕ :=
  if 2 * (a % b) < b ∨ (2 * (a % b) = b ∧ a / b % 2 = 0) then a / b else a / b + 1

theorem roundDiv_mul {b : ℕ} (hb : 0 < b) (m : ℕ) : roundDiv (m * b) b = m := by
  rw [roundDiv, Nat.mul_mod_left, Nat.mul_div_cancel m hb, if_pos (.inl hb)]

theorem div_le_roundDiv (a b : ℕ) : a / b ≤ roundDiv a b := by
  rw [roundDiv]
  split
  · exact le_rfl
  · exact Nat.le_succ _

theorem roundDiv_le {a b m : ℕ} (hb : 0 < b) (h : a ≤ m * b) : roundDiv a b ≤ m := by
  rcases h.lt_or_eq with h | rfl
  · have hdiv : a / b < m := Nat.div_lt_of_lt_mul (Nat.mul_comm m b ▸ h)
    rw [roundDiv]
    split
    · exact hdiv.le
    · exact hdiv
  · exact (roundDiv_mul hb m).le

theorem lt_roundDiv {a b m : ℕ} (hb : 0 < b) (h : (2 * m + 1) * b < 2 * a) : m < roundDiv a b := by
  have hdiv := Nat.div_add_mod a b
  rcases Nat.lt_or_ge m (a / b) with hlt | hle
  · exact hlt.trans_le (div_le_roundDiv a b)
  · have hmul : b * (a / b) ≤ b * m := Nat.mul_le_mul_left b hle
    have hexpand : (2 * m + 1) * b = 2 * (b * m) + b := by ring
    have hm : m ≤ a / b := by
      by_contra hlt
      have hsucc : b * (a / b + 1) ≤ b * m := Nat.mul_le_mul_left b (Nat.lt_of_not_le hlt)
      have hmod : a < b * (a / b + 1) := Nat.lt_mul_div_succ a hb
      omega
    obtain rfl : m = a / b := Nat.le_antisymm hm hle
    rw [roundDiv, if_neg (by omega)]
    exact Nat.lt_succ_self _

/-! ## Significant bits -/

/-- A number rounded to some significant bits. -/
def roundBits (p n : ℕ) : ℕ :=
  let e := n.log2 + 1 - p
  roundDiv n (2 ^ e) * 2 ^ e

theorem roundBits_of_le {p n : ℕ} (hp : 0 < p) (h : n ≤ 2 ^ p) : roundBits p n = n := by
  rcases h.lt_or_eq with h | rfl
  · have hlog : n.log2 + 1 - p = 0 := by
      rcases Nat.eq_zero_or_pos n with rfl | hn
      · rw [Nat.log2_zero]
        omega
      · have := (Nat.log2_lt hn.ne').2 h
        omega
    rw [roundBits, hlog, pow_zero, mul_one]
    simpa using roundDiv_mul Nat.one_pos n
  · have hlog : (2 ^ p).log2 + 1 - p = 1 := by
      rw [Nat.log2_two_pow]
      omega
    obtain ⟨k, rfl⟩ := Nat.exists_eq_add_of_lt hp
    rw [roundBits, hlog, pow_one, Nat.zero_add, pow_succ, roundDiv_mul Nat.two_pos]

theorem le_roundBits {p n : ℕ} (hp : 0 < p) (h : 2 ^ p ≤ n) : 2 ^ p ≤ roundBits p n := by
  have hn : n ≠ 0 := (Nat.two_pow_pos p).trans_le h |>.ne'
  have hlog : p ≤ n.log2 := (Nat.le_log2 hn).2 h
  have hself : 2 ^ n.log2 ≤ n := Nat.log2_self_le hn
  have hsplit : 2 ^ (p - 1) * 2 ^ (n.log2 + 1 - p) = 2 ^ n.log2 := by
    rw [← pow_add]
    congr 1
    omega
  have hdiv : 2 ^ (p - 1) ≤ n / 2 ^ (n.log2 + 1 - p) :=
    (Nat.le_div_iff_mul_le (Nat.two_pow_pos _)).2 (hsplit ▸ hself)
  calc 2 ^ p ≤ 2 ^ n.log2 := Nat.pow_le_pow_right Nat.two_pos hlog
    _ = 2 ^ (p - 1) * 2 ^ (n.log2 + 1 - p) := hsplit.symm
    _ ≤ roundBits p n := Nat.mul_le_mul_right _ (hdiv.trans (div_le_roundDiv _ _))

/-- A quotient rounded to some significant bits, and then up to an integer. -/
def ceilQuotient (p a b : ℕ) : ℕ :=
  if a = 0 then 0 else
  if a < b then 1 else
  let l := (a / b).log2
  if p ≤ l + 1 then roundDiv a (b * 2 ^ (l + 1 - p)) * 2 ^ (l + 1 - p)
  else
    let s := p - 1 - l
    (roundDiv (a * 2 ^ s) b + 2 ^ s - 1) / 2 ^ s

theorem ceilQuotient_eq {p a b : ℕ} (hp : 0 < p) (hb : 0 < b) (ha : a ≤ 2 ^ p) :
    ceilQuotient p a b = (a + b - 1) / b := by
  rw [ceilQuotient]
  by_cases hzero : a = 0
  · subst hzero
    rw [if_pos rfl, Nat.zero_add, Nat.div_eq_of_lt (by omega)]
  rw [if_neg hzero]
  by_cases hlt : a < b
  · rw [if_pos hlt]
    exact (ceilDiv_eq (m := 0) hb (by omega) (by omega)).symm
  rw [if_neg hlt]
  have hq : a / b ≠ 0 := (Nat.div_pos (Nat.le_of_not_lt hlt) hb).ne'
  have hlog : 2 ^ (a / b).log2 ≤ a / b := Nat.log2_self_le hq
  have hmul : a / b * b ≤ a := Nat.div_mul_le_self a b
  dsimp only
  generalize hl : (a / b).log2 = l at hlog
  split
  · rename_i hpl
    -- the divisor is one or two, and divides `a`
    have hsplit : 2 ^ l = 2 ^ (l + 1 - p) * 2 ^ (p - 1) := by
      rw [← pow_add]
      congr 1
      omega
    have hpow : 2 ^ p = 2 * 2 ^ (p - 1) := by
      rw [← pow_succ']
      congr 1
      omega
    have hbound : b * 2 ^ (l + 1 - p) * 2 ^ (p - 1) ≤ a :=
      calc b * 2 ^ (l + 1 - p) * 2 ^ (p - 1) = 2 ^ l * b := by rw [hsplit]; ring
        _ ≤ a / b * b := Nat.mul_le_mul_right b hlog
        _ ≤ a := hmul
    have htwo : b * 2 ^ (l + 1 - p) ≤ 2 :=
      Nat.le_of_mul_le_mul_right (hbound.trans (ha.trans hpow.le)) (Nat.two_pow_pos (p - 1))
    obtain ⟨c, hc⟩ : b * 2 ^ (l + 1 - p) ∣ a := by
      have hpos : 0 < b * 2 ^ (l + 1 - p) := Nat.mul_pos hb (Nat.two_pow_pos _)
      obtain hone | htwo : b * 2 ^ (l + 1 - p) = 1 ∨ b * 2 ^ (l + 1 - p) = 2 := by omega
      · rw [hone]
        exact Nat.one_dvd a
      · rw [htwo] at hbound ⊢
        exact ⟨2 ^ (p - 1), Nat.le_antisymm (ha.trans hpow.le) hbound⟩
    have hcb : a = c * 2 ^ (l + 1 - p) * b := by rw [hc]; ring
    have hcB : a = c * (b * 2 ^ (l + 1 - p)) := by rw [hc]; ring
    conv_lhs => rw [hcB, roundDiv_mul (Nat.mul_pos hb (Nat.two_pow_pos _))]
    conv_rhs => rw [hcb, ceilDiv_mul hb]
  · rename_i hpl
    have hs : 0 < 2 ^ (p - 1 - l) := Nat.two_pow_pos _
    have hdiv := Nat.div_add_mod' a b
    by_cases hmod : a % b = 0
    · have hexact : a = a / b * b := by omega
      have hscaled : a * 2 ^ (p - 1 - l) = a / b * 2 ^ (p - 1 - l) * b := by
        calc a * 2 ^ (p - 1 - l) = a / b * b * 2 ^ (p - 1 - l) := by rw [← hexact]
          _ = _ := by ring
      rw [hscaled, roundDiv_mul hb, ceilDiv_mul hs]
      conv_rhs => rw [hexact, ceilDiv_mul hb]
    · -- the remainder is too large for the quotient to be rounded to an integer below
      have hmod_lt : a % b < b := Nat.mod_lt a hb
      have hpow : 2 ^ p = 2 * 2 ^ (p - 1 - l) * 2 ^ l := by
        rw [mul_assoc, ← pow_add, ← pow_succ']
        congr 1
        omega
      have hb_lt : b < 2 * 2 ^ (p - 1 - l) := by
        by_contra hle
        have hle' : 2 * 2 ^ (p - 1 - l) * 2 ^ l ≤ b * (a / b) :=
          Nat.mul_le_mul (Nat.le_of_not_lt hle) hlog
        rw [Nat.mul_comm b] at hle'
        omega
      have hlower : a / b * 2 ^ (p - 1 - l) < roundDiv (a * 2 ^ (p - 1 - l)) b := by
        refine lt_roundDiv hb ?_
        calc (2 * (a / b * 2 ^ (p - 1 - l)) + 1) * b
            = 2 * (a / b * b) * 2 ^ (p - 1 - l) + b := by ring
          _ < 2 * (a / b * b) * 2 ^ (p - 1 - l) + 2 * 2 ^ (p - 1 - l) := by omega
          _ = 2 * (a / b * b + 1) * 2 ^ (p - 1 - l) := by ring
          _ ≤ 2 * a * 2 ^ (p - 1 - l) := Nat.mul_le_mul_right _ (by omega)
          _ = 2 * (a * 2 ^ (p - 1 - l)) := by ring
      have hupper : roundDiv (a * 2 ^ (p - 1 - l)) b ≤ (a / b + 1) * 2 ^ (p - 1 - l) := by
        refine roundDiv_le hb ?_
        calc a * 2 ^ (p - 1 - l) ≤ (a / b * b + b) * 2 ^ (p - 1 - l) :=
              Nat.mul_le_mul_right _ (by omega)
          _ = _ := by ring
      rw [ceilDiv_eq hs hlower hupper]
      exact (ceilDiv_eq hb (by omega) (by rw [Nat.succ_mul]; omega)).symm

/-! ## The nearest integer to a rounded quotient -/

/-- The integer next to a quotient, the larger one of two. -/
def nearestDiv (a b : ℕ) : ℕ := (2 * a + b) / (2 * b)

/-- A quotient rounded to some significant bits, and then to the nearest integer. -/
def nearestQuotient (p a b : ℕ) : ℕ :=
  if a = 0 then 0 else
  if a < b then
    let s := p - 1 + Nat.clog 2 ((b + a - 1) / a)
    nearestDiv (roundDiv (a * 2 ^ s) b) (2 ^ s)
  else
  let l := (a / b).log2
  if p ≤ l + 1 then roundDiv a (b * 2 ^ (l + 1 - p)) * 2 ^ (l + 1 - p)
  else
    let s := p - 1 - l
    nearestDiv (roundDiv (a * 2 ^ s) b) (2 ^ s)

theorem nearestDiv_eq {a b n : ℕ} (hlow : 2 * n * b ≤ 2 * a + b)
    (hhigh : 2 * a < (2 * n + 1) * b) : nearestDiv a b = n := by
  refine Nat.div_eq_of_lt_le ?_ ?_
  · calc n * (2 * b) = 2 * n * b := by ring
      _ ≤ 2 * a + b := hlow
  · calc 2 * a + b < (2 * n + 1) * b + b := by omega
      _ = (n + 1) * (2 * b) := by ring

/-- A quotient that is closer to an integer than to the next one is rounded to no more. -/
theorem roundDiv_le_of_lt {a b m : ℕ} (hb : 0 < b) (h : 2 * a < (2 * m + 1) * b) :
    roundDiv a b ≤ m := by
  have hdiv := Nat.div_add_mod' a b
  have hexpand : (2 * m + 1) * b = 2 * (m * b) + b := by ring
  have hle : a / b ≤ m := by
    refine Nat.le_of_lt_succ (Nat.div_lt_of_lt_mul ?_)
    rw [Nat.mul_succ, Nat.mul_comm b]
    omega
  obtain hlt | rfl := hle.lt_or_eq
  · rw [roundDiv]
    split
    · exact hle
    · exact hlt
  · rw [roundDiv, if_pos (Or.inl (by omega))]

/-- With more bits behind the point than the divisor has, the first rounding does not show. -/
theorem nearestDiv_roundDiv {a b s : ℕ} (hb : 0 < b) (hs : b < 2 ^ s) :
    nearestDiv (roundDiv (a * 2 ^ s) b) (2 ^ s) = nearestDiv a b := by
  obtain ⟨t, rfl⟩ : ∃ t, s = t + 1 := by
    refine Nat.exists_eq_succ_of_ne_zero fun h => ?_
    rw [h, pow_zero] at hs
    omega
  generalize hn : nearestDiv a b = n
  have hlow : n * (2 * b) ≤ 2 * a + b := hn ▸ Nat.div_mul_le_self _ _
  have hhigh : 2 * a + b < (n + 1) * (2 * b) := by
    rw [← hn, nearestDiv]
    exact (Nat.lt_mul_div_succ _ (by omega)).trans_eq (mul_comm _ _)
  have hpow : 2 ^ (t + 1) = 2 * 2 ^ t := by rw [pow_succ, mul_comm]
  have hK : 0 < 2 ^ t := Nat.two_pow_pos t
  refine nearestDiv_eq ?_ ?_
  · have hhalf : 2 * n * 2 ^ t ≤ (a * 2 ^ (t + 1) + 2 ^ t * b) / b := by
      rw [Nat.le_div_iff_mul_le hb, hpow]
      calc 2 * n * 2 ^ t * b = n * (2 * b) * 2 ^ t := by ring
        _ ≤ (2 * a + b) * 2 ^ t := Nat.mul_le_mul_right _ hlow
        _ = a * (2 * 2 ^ t) + 2 ^ t * b := by ring
    rw [Nat.add_mul_div_right _ _ hb] at hhalf
    have hround := div_le_roundDiv (a * 2 ^ (t + 1)) b
    calc 2 * n * 2 ^ (t + 1) = 2 * (2 * n * 2 ^ t) := by rw [hpow]; ring
      _ ≤ 2 * (roundDiv (a * 2 ^ (t + 1)) b + 2 ^ t) := by omega
      _ = 2 * roundDiv (a * 2 ^ (t + 1)) b + 2 ^ (t + 1) := by rw [hpow]; ring
  · obtain ⟨m, hm⟩ : ∃ m, (2 * n + 1) * 2 ^ t = m + 1 :=
      Nat.exists_eq_succ_of_ne_zero (Nat.mul_pos (by omega) hK).ne'
    have hround : roundDiv (a * 2 ^ (t + 1)) b ≤ m := by
      refine roundDiv_le_of_lt hb ?_
      have hscaled : (2 * a + 1) * 2 ^ (t + 1) ≤ (2 * n + 1) * b * 2 ^ (t + 1) :=
        Nat.mul_le_mul_right _ (by linarith)
      have hproduct : (2 * n + 1) * b * 2 ^ (t + 1) = 2 * (m + 1) * b := by
        rw [← hm, hpow]
        ring
      linarith
    calc 2 * roundDiv (a * 2 ^ (t + 1)) b < 2 * ((2 * n + 1) * 2 ^ t) := by omega
      _ = (2 * n + 1) * 2 ^ (t + 1) := by rw [hpow]; ring

theorem nearestQuotient_eq {p a b k : ℕ} (hb : 0 < b) (hk : b < 2 ^ k) (hp : k < p)
    (ha : a / b < 2 ^ (p - k)) : nearestQuotient p a b = nearestDiv a b := by
  have hpos : k ≠ 0 := by
    rintro rfl
    omega
  rw [nearestQuotient]
  split
  · next h =>
    subst h
    exact (nearestDiv_eq (n := 0) (by simp) (by omega)).symm
  split
  · next h =>
    exact nearestDiv_roundDiv hb (hk.trans_le (Nat.pow_le_pow_right Nat.two_pos (by omega)))
  · next h0 h =>
    have hq : a / b ≠ 0 := (Nat.div_pos (Nat.le_of_not_lt h) hb).ne'
    have hlog : (a / b).log2 < p - k := (Nat.log2_lt hq).2 ha
    dsimp only
    rw [if_neg (by omega)]
    exact nearestDiv_roundDiv hb (hk.trans_le (Nat.pow_le_pow_right Nat.two_pos (by omega)))

end Rounding
