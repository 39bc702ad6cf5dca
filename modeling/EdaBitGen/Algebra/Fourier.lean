import Mathlib

/-!
# Fourier transforms over a field

The transform of a sequence by a root of unity and its inverse, the reversal of the digits of an
index, and the sums that the stages of a transform in place compute.
-/

namespace Fourier

variable {F : Type*} [Field F]

/-! ## The transform -/

/-- The values of the polynomial with coefficients `x` at the powers of `ω`. -/
def transform (n : ℕ) (ω : F) (x : ℕ → F) (j : ℕ) : F :=
  ∑ s ∈ Finset.range n, x s * ω ^ (s * j)

theorem transform_congr {n : ℕ} {ω : F} {x y : ℕ → F} (h : ∀ s < n, x s = y s) :
    transform n ω x = transform n ω y := by
  funext j
  refine Finset.sum_congr rfl fun s hs => ?_
  rw [h s (Finset.mem_range.1 hs)]

theorem sum_pow_mul_pow {n : ℕ} {ω : F} (hω : IsPrimitiveRoot ω n) {t j : ℕ} (ht : t < n)
    (hj : j < n) :
    ∑ s ∈ Finset.range n, ω⁻¹ ^ (t * s) * ω ^ (s * j) = if t = j then (n : F) else 0 := by
  have hne : ω ≠ 0 := hω.ne_zero (Nat.ne_of_gt (Nat.zero_lt_of_lt hj))
  have hterm : ∀ s, ω⁻¹ ^ (t * s) * ω ^ (s * j) = (ω⁻¹ ^ t * ω ^ j) ^ s := by
    intro s
    rw [mul_pow, ← pow_mul, ← pow_mul, Nat.mul_comm s j]
  simp only [hterm]
  have hratio : ω⁻¹ ^ t * ω ^ j = 1 ↔ t = j := by
    rw [inv_pow, inv_mul_eq_one₀ (pow_ne_zero t hne)]
    exact ⟨fun h => hω.pow_inj ht hj h, fun h => by rw [h]⟩
  split_ifs with h
  · rw [hratio.2 h]
    simp
  · have hpow : (ω⁻¹ ^ t * ω ^ j) ^ n = 1 := by
      rw [mul_pow, ← pow_mul, ← pow_mul, Nat.mul_comm t, Nat.mul_comm j, pow_mul, pow_mul, inv_pow,
        hω.pow_eq_one, inv_one, one_pow, one_pow, one_mul]
    have hgeom := geom_sum_mul (ω⁻¹ ^ t * ω ^ j) n
    rw [hpow, sub_self] at hgeom
    exact (mul_eq_zero.1 hgeom).resolve_right (sub_ne_zero.2 (hratio.not.2 h))

theorem natCast_ne_zero {n : ℕ} {ω : F} (hω : IsPrimitiveRoot ω n) (hn : 0 < n) : (n : F) ≠ 0 := by
  have : NeZero n := ⟨hn.ne'⟩
  exact hω.neZero'.ne

/-- The transform by the inverse root, divided by the length, is undone by the transform. -/
theorem transform_inverse {n : ℕ} {ω : F} (hω : IsPrimitiveRoot ω n) (x : ℕ → F) {j : ℕ}
    (hj : j < n) : transform n ω (fun s => transform n ω⁻¹ x s * (n : F)⁻¹) j = x j := by
  have hn := natCast_ne_zero hω (Nat.zero_lt_of_lt hj)
  calc transform n ω (fun s => transform n ω⁻¹ x s * (n : F)⁻¹) j
      = ∑ s ∈ Finset.range n, ∑ t ∈ Finset.range n,
          x t * (n : F)⁻¹ * (ω⁻¹ ^ (t * s) * ω ^ (s * j)) := by
        refine Finset.sum_congr rfl fun s _ => ?_
        change (∑ t ∈ Finset.range n, _) * (n : F)⁻¹ * ω ^ (s * j) = _
        rw [Finset.sum_mul, Finset.sum_mul]
        refine Finset.sum_congr rfl fun t _ => ?_
        ring
    _ = ∑ t ∈ Finset.range n, x t * (n : F)⁻¹ * if t = j then (n : F) else 0 := by
        rw [Finset.sum_comm]
        refine Finset.sum_congr rfl fun t ht => ?_
        rw [← Finset.mul_sum, sum_pow_mul_pow hω (Finset.mem_range.1 ht) hj]
    _ = x j := by
        rw [Finset.sum_eq_single j]
        · rw [if_pos rfl, mul_assoc, inv_mul_cancel₀ hn, mul_one]
        · intro t _ hne
          rw [if_neg hne, mul_zero]
        · intro hmem
          exact absurd (Finset.mem_range.2 hj) hmem

/-- The transform is undone by the transform by the inverse root, divided by the length. -/
theorem inverse_transform {n : ℕ} {ω : F} (hω : IsPrimitiveRoot ω n) (x : ℕ → F) {j : ℕ}
    (hj : j < n) : transform n ω⁻¹ (transform n ω x) j * (n : F)⁻¹ = x j := by
  have h := transform_inverse hω.inv x hj
  rw [inv_inv] at h
  rw [← h, transform, transform, Finset.sum_mul]
  refine Finset.sum_congr rfl fun s _ => ?_
  ring

/-! ## Digits in reverse -/

/-- The number whose `c` digits in base `r` are those of `b`, in reverse. -/
def reverse (r : ℕ) : ℕ → ℕ → ℕ
  | 0, _ => 0
  | c + 1, b => reverse r c (b / r) + b % r * r ^ c

theorem reverse_lt {r : ℕ} (hr : 0 < r) (c b : ℕ) : reverse r c b < r ^ c := by
  induction c generalizing b with
  | zero => simp [reverse]
  | succ c ih =>
    have hdigit : b % r + 1 ≤ r := Nat.mod_lt b hr
    calc reverse r (c + 1) b < r ^ c + b % r * r ^ c := Nat.add_lt_add_right (ih (b / r)) _
      _ = (b % r + 1) * r ^ c := by ring
      _ ≤ r * r ^ c := Nat.mul_le_mul_right _ hdigit
      _ = r ^ (c + 1) := (pow_succ' r c).symm

theorem reverse_mul_add {r e : ℕ} (he : e < r) (c b : ℕ) :
    reverse r (c + 1) (b * r + e) = reverse r c b + e * r ^ c := by
  have hdiv : (b * r + e) / r = b := by
    rw [Nat.mul_comm, Nat.mul_add_div (Nat.zero_lt_of_lt he), Nat.div_eq_of_lt he, Nat.add_zero]
  have hmod : (b * r + e) % r = e := by rw [Nat.mul_add_mod', Nat.mod_eq_of_lt he]
  rw [reverse, hdiv, hmod]

theorem reverse_zero (r c : ℕ) : reverse r c 0 = 0 := by
  induction c with
  | zero => rfl
  | succ c ih => rw [reverse, Nat.zero_div, ih, Nat.zero_mod, Nat.zero_mul]

theorem reverse_add_mul {r e : ℕ} (he : e < r) (c : ℕ) {b : ℕ} (hb : b < r ^ c) :
    reverse r (c + 1) (b + e * r ^ c) = reverse r c b * r + e := by
  have hr := Nat.zero_lt_of_lt he
  induction c generalizing b with
  | zero =>
    have hzero : b = 0 := by
      rw [pow_zero] at hb
      omega
    simp [reverse, hzero, Nat.mod_eq_of_lt he]
  | succ c ih =>
    have hsplit : b + e * r ^ (c + 1) = b + r * (e * r ^ c) := by ring
    have hlt : b / r < r ^ c := Nat.div_lt_of_lt_mul (by rwa [← pow_succ'])
    rw [reverse, hsplit, Nat.add_mul_div_left _ _ hr, Nat.add_mul_mod_self_left, ih hlt, reverse]
    ring

theorem reverse_reverse {r : ℕ} (hr : 0 < r) (c : ℕ) {b : ℕ} (hb : b < r ^ c) :
    reverse r c (reverse r c b) = b := by
  induction c generalizing b with
  | zero =>
    have hzero : b = 0 := by
      rw [pow_zero] at hb
      omega
    rw [hzero]
    rfl
  | succ c ih =>
    have hlt : b / r < r ^ c := Nat.div_lt_of_lt_mul (by rwa [← pow_succ'])
    have hstep : reverse r (c + 1) b = reverse r c (b / r) + b % r * r ^ c := rfl
    rw [hstep, reverse_add_mul (Nat.mod_lt b hr) c (reverse_lt hr c _), ih hlt,
      Nat.div_add_mod']

variable {α ι : Type*}

theorem foldl_exchange {ρ : ℕ → ℕ} {n : ℕ} (hlt : ∀ i < n, ρ i < n) (hinv : ∀ i < n, ρ (ρ i) = i)
    (x : ℕ → α) {p : ℕ} (hp : p ≤ n) {i : ℕ} (hi : i < n) :
    ((List.range p).foldl (fun data pos =>
      if pos < ρ pos then data ∘ Equiv.swap (ρ pos) pos else data) x) i =
      if i < p ∨ ρ i < p then x (ρ i) else x i := by
  induction p generalizing i with
  | zero => simp
  | succ p ih =>
    have hpn : p < n := hp
    rw [List.range_succ, List.foldl_append, List.foldl_cons, List.foldl_nil]
    have hpartner : ρ i = p → i = ρ p := fun h => by rw [← h, hinv i hi]
    split_ifs with hswap hcond hcond
    · rw [Function.comp_apply]
      by_cases hip : i = p
      · rw [hip, Equiv.swap_apply_right, ih hpn.le (hlt p hpn), hinv p hpn, if_neg (by omega)]
      · by_cases hiρ : i = ρ p
        · rw [hiρ, Equiv.swap_apply_left, ih hpn.le hpn, hinv p hpn, if_neg (by omega)]
        · rw [Equiv.swap_apply_of_ne_of_ne hiρ hip, ih hpn.le hi, if_pos]
          have hne : ρ i ≠ p := fun h => hiρ (hpartner h)
          omega
    · rw [Function.comp_apply, Equiv.swap_apply_of_ne_of_ne, ih hpn.le hi, if_neg (by omega)]
      · rintro rfl
        rw [hinv p hpn] at hcond
        omega
      · omega
    · rw [ih hpn.le hi]
      split_ifs with hold
      · rfl
      · by_cases hip : i = p
        · have hfix : ρ p = p := by
            rw [hip] at hold
            omega
          rw [hip, hfix]
        · have hiρ : i = ρ p := hpartner (by omega)
          omega
    · rw [ih hpn.le hi, if_neg (by omega)]

section Blocks

variable {own : ℕ → ι} {f : ι → (ℕ → α) → ℕ → α} {ks : List ι}
  (hframe : ∀ k ∈ ks, ∀ data i, own i ≠ k → f k data i = data i)

include hframe in
theorem foldl_blocks_of_notMem {data : ℕ → α} {i : ℕ} (h : own i ∉ ks) :
    (ks.foldl (fun data k => f k data) data) i = data i := by
  induction ks generalizing data with
  | nil => rfl
  | cons k ks ih =>
    rw [List.mem_cons, not_or] at h
    rw [List.foldl_cons, ih (fun k hk => hframe k (List.mem_cons_of_mem _ hk)) h.2,
      hframe k List.mem_cons_self data i h.1]

include hframe in
theorem foldl_blocks_of_mem
    (hlocal : ∀ k ∈ ks, ∀ data data', (∀ i, own i = k → data i = data' i) →
      ∀ i, own i = k → f k data i = f k data' i)
    (hks : ks.Nodup) {data : ℕ → α} {i : ℕ} (h : own i ∈ ks) :
    (ks.foldl (fun data k => f k data) data) i = f (own i) data i := by
  induction ks generalizing data with
  | nil => cases h
  | cons k ks ih =>
    rw [List.nodup_cons] at hks
    have hframe' := fun k hk => hframe k (List.mem_cons_of_mem _ hk)
    rw [List.foldl_cons]
    by_cases hk : own i = k
    · have hnot : own i ∉ ks := hk ▸ hks.1
      rw [foldl_blocks_of_notMem hframe' hnot, hk]
    · have hmem : own i ∈ ks := (List.mem_cons.1 h).resolve_left hk
      rw [ih hframe' (fun k hk => hlocal k (List.mem_cons_of_mem _ hk)) hks.2 hmem]
      refine hlocal _ (List.mem_cons_of_mem _ hmem) _ _ (fun i' hi' => ?_) i rfl
      exact hframe k List.mem_cons_self data i' (hi' ▸ hk)

end Blocks

theorem sum_range_mul {M : Type*} [AddCommMonoid M] (f : ℕ → M) (m r : ℕ) :
    ∑ s ∈ Finset.range (m * r), f s =
      ∑ s ∈ Finset.range m, ∑ u ∈ Finset.range r, f (s * r + u) := by
  induction m with
  | zero => simp
  | succ m ih => rw [Nat.succ_mul, Finset.sum_range_add, ih, Finset.sum_range_succ]

/-- What is at an index after `d` stages, with `c` stages to come. -/
def stage (r c d : ℕ) (ω : F) (x : ℕ → F) (i : ℕ) : F :=
  ∑ s ∈ Finset.range (r ^ d),
    x (reverse r c (i / r ^ d) + s * r ^ c) * ω ^ (r ^ c * (s * (i % r ^ d)))

theorem stage_zero (r c : ℕ) (ω : F) (x : ℕ → F) (i : ℕ) :
    stage r c 0 ω x i = x (reverse r c i) := by
  simp [stage]

theorem stage_last {r d : ℕ} {ω : F} {x : ℕ → F} {i : ℕ} (hi : i < r ^ d) :
    stage r 0 d ω x i = transform (r ^ d) ω x i := by
  refine Finset.sum_congr rfl fun s _ => ?_
  rw [reverse, pow_zero, Nat.mul_one, Nat.zero_add, Nat.one_mul, Nat.mod_eq_of_lt hi]

/-- One stage takes sums of entries at a distance of `r ^ d`, with powers of two roots. -/
theorem stage_succ {r c d : ℕ} (hr : 0 < r) {ω : F} (hω : ω ^ r ^ (c + d + 1) = 1) (x : ℕ → F)
    (i : ℕ) :
    stage r c (d + 1) ω x i = ∑ u ∈ Finset.range r,
      (ω ^ r ^ (c + d)) ^ (i / r ^ d % r * u) * (((ω ^ r ^ c) ^ (i % r ^ d)) ^ u *
        stage r (c + 1) d ω x (i % r ^ d + i / r ^ (d + 1) * r ^ (d + 1) + u * r ^ d)) := by
  have hmod : i % r ^ (d + 1) = i % r ^ d + r ^ d * (i / r ^ d % r) := Nat.mod_pow_succ
  have hpos : 0 < r ^ d := Nat.pow_pos hr
  have hread : ∀ u < r, ∀ s,
      x (reverse r (c + 1)
          ((i % r ^ d + i / r ^ (d + 1) * r ^ (d + 1) + u * r ^ d) / r ^ d) + s * r ^ (c + 1)) =
        x (reverse r c (i / r ^ (d + 1)) + (s * r + u) * r ^ c) ∧
      (i % r ^ d + i / r ^ (d + 1) * r ^ (d + 1) + u * r ^ d) % r ^ d = i % r ^ d := by
    intro u hu s
    have hsplit : i % r ^ d + i / r ^ (d + 1) * r ^ (d + 1) + u * r ^ d =
        i % r ^ d + r ^ d * (i / r ^ (d + 1) * r + u) := by ring
    have hlt : i % r ^ d < r ^ d := Nat.mod_lt i hpos
    rw [hsplit, Nat.add_mul_div_left _ _ hpos, Nat.div_eq_of_lt hlt, Nat.zero_add,
      reverse_mul_add hu, Nat.add_mul_mod_self_left, Nat.mod_eq_of_lt hlt]
    refine ⟨?_, rfl⟩
    congr 1
    ring
  rw [stage, pow_succ r d, sum_range_mul, Finset.sum_comm, ← pow_succ]
  refine Finset.sum_congr rfl fun u hu => ?_
  rw [stage, Finset.mul_sum, Finset.mul_sum]
  refine Finset.sum_congr rfl fun s _ => ?_
  obtain ⟨hx, hj⟩ := hread u (Finset.mem_range.1 hu) s
  rw [hx, hj, hmod]
  have hexp : r ^ c * ((s * r + u) * (i % r ^ d + r ^ d * (i / r ^ d % r))) =
      r ^ (c + d + 1) * (s * (i / r ^ d % r)) + r ^ (c + d) * (i / r ^ d % r * u) +
        r ^ c * (i % r ^ d * u) + r ^ (c + 1) * (s * (i % r ^ d)) := by ring
  have hroot : ω ^ (r ^ (c + d + 1) * (s * (i / r ^ d % r))) = 1 := by rw [pow_mul, hω, one_pow]
  rw [hexp, pow_add ω, pow_add ω, pow_add ω, hroot, one_mul, pow_mul ω (r ^ (c + d)),
    pow_mul ω (r ^ c) (i % r ^ d * u), pow_mul (ω ^ r ^ c)]
  ring

end Fourier
