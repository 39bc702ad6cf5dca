import EdaBitGen.Algebra.Coefficients
import EdaBitGen.Algebra.Fourier
import EdaBitGen.Scuttlebutt.F2e19x3e26

/-!
# Fourier transforms in place

The transforms of radix 2 and 3 rearrange a slice, so that the digits of the indices are reversed,
and then combine entries at growing distances.  A slice is its length and its contents.
-/

namespace EdaBitGen.Fft

open Fourier Coefficients

variable {F : Type} [Field F]

/-! ## Rearrangement -/

/-- Count up a number whose bits are in reverse, from the bit of the mask on. -/
def increment (target mask : ℕ) : ℕ :=
  if target &&& mask ≠ 0 then increment (target.ldiff mask) (mask >>> 1) else target ||| mask
termination_by mask
decreasing_by
  rename_i h
  have hmask : mask ≠ 0 := fun hzero => h (by rw [hzero, Nat.and_zero])
  rw [Nat.shiftRight_one]
  omega

def fft2InPlaceRearrange (len : ℕ) (data : ℕ → F) : ℕ → F :=
  ((List.range len).foldl (fun (s : (ℕ → F) × ℕ) pos =>
    (if s.2 > pos then s.1 ∘ Equiv.swap s.2 pos else s.1, increment s.2 (len >>> 1)))
    (data, 0)).1

def trigitsLen (n result : ℕ) : ℕ :=
  if 3 ^ result < n + 1 then trigitsLen n (result + 1) else result
termination_by n + 1 - 3 ^ result
decreasing_by
  have hpos : 0 < 3 ^ result := Nat.pow_pos (by decide)
  rw [pow_succ]
  omega

/-- Count up the trigits of a number, and the number whose trigits are in reverse. -/
def incrementTrigits : List ℤ → List ℕ → ℤ → List ℕ × ℤ
  | power :: powers, trigit :: trigits, target =>
    if trigit < 2 then ((trigit + 1) :: trigits, target + power)
    else
      let next := incrementTrigits powers trigits (target - 2 * power)
      (0 :: next.1, next.2)
  | _, trigits, target => (trigits, target)

def fft3InPlaceRearrange (len : ℕ) (data : ℕ → F) : ℕ → F :=
  let trigitsLen := trigitsLen (len - 1) 1
  let powers := ((List.range trigitsLen).map fun x => (3 : ℤ) ^ x).reverse
  ((List.range len).foldl (fun (s : (ℕ → F) × List ℕ × ℤ) pos =>
    (if s.2.2.toNat > pos then s.1 ∘ Equiv.swap s.2.2.toNat pos else s.1,
      incrementTrigits powers s.2.1 s.2.2))
    (data, List.replicate trigitsLen 0, 0)).1

/-! ## Stages -/

def butterfly2 (factor : F) (step pair : ℕ) (data : ℕ → F) : ℕ → F :=
  let x := data pair
  let y := data (pair + step) * factor
  Function.update (Function.update data pair (x + y)) (pair + step) (x - y)

def butterfly3 (bigOmega factor : F) (step pair : ℕ) (data : ℕ → F) : ℕ → F :=
  let bigOmegaSq := bigOmega * bigOmega
  let factorSq := factor * factor
  let x := data pair
  let y := data (pair + step) * factor
  let z := data (pair + 2 * step) * factorSq
  Function.update (Function.update (Function.update data pair (x + y + z))
    (pair + step) (x + bigOmega * y + bigOmegaSq * z))
    (pair + 2 * step) (x + bigOmegaSq * y + bigOmega * z)

/-- The indices from `group` on, at a distance of `jump`. -/
def pairs (group len jump : ℕ) : List ℕ :=
  (List.range ((len - group + jump - 1) / jump)).map fun i => group + i * jump

/-- The pairs of one group, all with one factor. -/
def group (butterfly : F → ℕ → ℕ → (ℕ → F) → ℕ → F) (r len step : ℕ) (factor : F) (k : ℕ)
    (data : ℕ → F) : ℕ → F :=
  (pairs k len (r * step)).foldl (fun data pair => butterfly factor step pair data) data

/-- One stage of a transform of radix `r`, with what it does to the entries of one pair. -/
def groups (butterfly : F → ℕ → ℕ → (ℕ → F) → ℕ → F) (r len step : ℕ) (ω : F) (data : ℕ → F) :
    ℕ → F :=
  let factorStride := ω ^ (len / step / r)
  ((List.range step).foldl (fun (s : (ℕ → F) × F) k =>
    (group butterfly r len step s.2 k s.1, s.2 * factorStride)) (data, 1)).1

/-- The stages, each with a step that is `r` times that of the one before. -/
def compute (butterfly : F → ℕ → ℕ → (ℕ → F) → ℕ → F) (r : ℕ) (hr : 1 < r) (len depth : ℕ) (ω : F)
    (data : ℕ → F) : ℕ → F :=
  if r ^ depth < len then
    compute butterfly r hr len (depth + 1) ω (groups butterfly r len (r ^ depth) ω data)
  else data
termination_by len - r ^ depth
decreasing_by
  have hlt : r ^ depth < r ^ (depth + 1) := Nat.pow_lt_pow_succ hr
  omega

def fft2InPlace (len : ℕ) (ω : F) (data : ℕ → F) : ℕ → F :=
  compute butterfly2 2 Nat.one_lt_two len 0 ω (fft2InPlaceRearrange len data)

def fft3InPlace (len : ℕ) (ω : F) (data : ℕ → F) : ℕ → F :=
  let bigOmega := ω ^ (len / 3)
  compute (butterfly3 bigOmega) 3 (by decide) len 0 ω (fft3InPlaceRearrange len data)

def fft2 (aCoef : List F) (ω : F) : List F :=
  (List.range aCoef.length).map (fft2InPlace aCoef.length ω fun i => aCoef.getD i 0)

def fft2Inverse (aPoint : List F) (ω : F) : List F :=
  (fft2 aPoint ω⁻¹).map (· * (aPoint.length : F)⁻¹)

def fft3 (aCoef : List F) (ω : F) : List F :=
  (List.range aCoef.length).map (fft3InPlace aCoef.length ω fun i => aCoef.getD i 0)

def fft3Inverse (aPoint : List F) (ω : F) : List F :=
  (fft3 aPoint ω⁻¹).map (· * (aPoint.length : F)⁻¹)

/-! ## The rearranged slices -/

theorem two_pow_bits {b c : ℕ} (hb : b < 2 ^ c) :
    b &&& 2 ^ c = 0 ∧ b ||| 2 ^ c = b + 2 ^ c ∧ (b + 2 ^ c) &&& 2 ^ c ≠ 0 ∧
      (b + 2 ^ c).ldiff (2 ^ c) = b := by
  have hbit : b.testBit c = false := Nat.testBit_lt_two_pow hb
  have hor : b + 2 ^ c = 2 ^ c ||| b := by
    have h := Nat.two_pow_add_eq_or_of_lt hb 1
    rwa [Nat.mul_one, Nat.add_comm] at h
  refine ⟨?_, by rw [hor, Nat.or_comm], fun h => ?_, ?_⟩
  · apply Nat.eq_of_testBit_eq
    intro i
    rw [Nat.testBit_and, Nat.testBit_two_pow, Nat.zero_testBit]
    by_cases hi : c = i
    · rw [← hi, hbit, Bool.false_and]
    · simp [hi]
  · have hself : ((b + 2 ^ c) &&& 2 ^ c).testBit c = true := by
      rw [Nat.testBit_and, hor, Nat.testBit_or, Nat.testBit_two_pow_self, Bool.true_or,
        Bool.true_and]
    rw [h, Nat.zero_testBit] at hself
    exact Bool.false_ne_true hself
  · apply Nat.eq_of_testBit_eq
    intro i
    rw [hor, Nat.testBit_ldiff, Nat.testBit_or, Nat.testBit_two_pow]
    by_cases hi : c = i
    · rw [← hi, hbit]
      simp
    · simp [hi]

theorem increment_reverse (c b : ℕ) :
    increment (reverse 2 c b) (2 ^ c >>> 1) = reverse 2 c (b + 1) := by
  induction c generalizing b with
  | zero =>
    rw [increment]
    simp [reverse]
  | succ c ih =>
    have hmask : 2 ^ (c + 1) >>> 1 = 2 ^ c := by
      rw [Nat.shiftRight_one, pow_succ, Nat.mul_div_cancel _ Nat.two_pos]
    obtain ⟨hand, hor, hand', hldiff⟩ := two_pow_bits (reverse_lt Nat.two_pos c (b / 2))
    rw [hmask, increment]
    rcases Nat.mod_two_eq_zero_or_one b with hb | hb
    · have hnext : (b + 1) / 2 = b / 2 ∧ (b + 1) % 2 = 1 := by omega
      rw [reverse, hb, Nat.zero_mul, Nat.add_zero, hand, if_neg (not_not_intro rfl), hor, reverse,
        hnext.1, hnext.2, Nat.one_mul]
    · have hnext : (b + 1) / 2 = b / 2 + 1 ∧ (b + 1) % 2 = 0 := by omega
      rw [reverse, hb, Nat.one_mul, if_pos hand', hldiff, ih, reverse, hnext.1, hnext.2,
        Nat.zero_mul]
      rfl

omit [Field F] in
theorem fft2InPlaceRearrange_apply (a : ℕ) (data : ℕ → F) {i : ℕ} (hi : i < 2 ^ a) :
    fft2InPlaceRearrange (2 ^ a) data i = data (reverse 2 a i) := by
  have hrun : ∀ p, (List.range p).foldl (fun (s : (ℕ → F) × ℕ) pos =>
      (if s.2 > pos then s.1 ∘ Equiv.swap s.2 pos else s.1, increment s.2 (2 ^ a >>> 1)))
      (data, 0) = ((List.range p).foldl (fun data pos =>
        if pos < reverse 2 a pos then data ∘ Equiv.swap (reverse 2 a pos) pos else data) data,
        reverse 2 a p) := by
    intro p
    induction p with
    | zero => rw [reverse_zero]; rfl
    | succ p ih =>
      rw [List.range_succ, List.foldl_append, List.foldl_append, ih, List.foldl_cons,
        List.foldl_cons, List.foldl_nil, List.foldl_nil, increment_reverse]
  have hlt : ∀ i < 2 ^ a, reverse 2 a i < 2 ^ a := fun i _ => reverse_lt Nat.two_pos a i
  rw [fft2InPlaceRearrange, hrun]
  dsimp only
  rw [foldl_exchange hlt (fun i hi => reverse_reverse Nat.two_pos a hi) data le_rfl hi,
    if_pos (.inl hi)]

/-- The trigits of a number, from the least one on. -/
def trigits : ℕ → ℕ → List ℕ
  | 0, _ => []
  | c + 1, b => b % 3 :: trigits c (b / 3)

theorem trigits_zero (c : ℕ) : trigits c 0 = List.replicate c 0 := by
  induction c with
  | zero => rfl
  | succ c ih => rw [trigits, Nat.zero_div, ih, List.replicate_succ]

theorem powers_succ (c : ℕ) : ((List.range (c + 1)).map fun x => (3 : ℤ) ^ x).reverse =
    3 ^ c :: ((List.range c).map fun x => (3 : ℤ) ^ x).reverse := by
  rw [List.range_succ, List.map_append, List.reverse_append]
  rfl

theorem incrementTrigits_trigits (c b : ℕ) (target : ℤ) :
    incrementTrigits ((List.range c).map fun x => (3 : ℤ) ^ x).reverse (trigits c b) target =
      (trigits c (b + 1), target - reverse 3 c b + reverse 3 c (b + 1)) := by
  induction c generalizing b target with
  | zero => simp [incrementTrigits, trigits, reverse]
  | succ c ih =>
    rw [powers_succ, trigits, incrementTrigits, trigits, reverse, reverse]
    split_ifs with hb
    · have hnext : (b + 1) / 3 = b / 3 ∧ (b + 1) % 3 = b % 3 + 1 := by omega
      rw [hnext.1, hnext.2]
      push_cast
      congr 1
      ring
    · have hnext : b % 3 = 2 ∧ (b + 1) / 3 = b / 3 + 1 ∧ (b + 1) % 3 = 0 := by omega
      rw [ih, hnext.1, hnext.2.1, hnext.2.2]
      push_cast
      congr 1
      ring

theorem trigitsLen_eq {a result : ℕ} (hle : result ≤ a) : trigitsLen (3 ^ a - 1) result = a := by
  have hpos : 0 < 3 ^ a := Nat.pow_pos (by decide)
  have hsub : 3 ^ a - 1 + 1 = 3 ^ a := Nat.sub_add_cancel hpos
  induction h : a - result generalizing result with
  | zero =>
    have heq : result = a := by omega
    rw [trigitsLen, hsub, heq, if_neg (lt_irrefl _)]
  | succ d ih =>
    have hlt : 3 ^ result < 3 ^ a := Nat.pow_lt_pow_right (by decide) (by omega)
    rw [trigitsLen, hsub, if_pos hlt]
    exact ih (by omega) (by omega)

omit [Field F] in
theorem fft3InPlaceRearrange_apply {a : ℕ} (ha : 0 < a) (data : ℕ → F) {i : ℕ} (hi : i < 3 ^ a) :
    fft3InPlaceRearrange (3 ^ a) data i = data (reverse 3 a i) := by
  have hthree : 0 < 3 := by decide
  have hrun : ∀ p, (List.range p).foldl (fun (s : (ℕ → F) × List ℕ × ℤ) pos =>
      (if s.2.2.toNat > pos then s.1 ∘ Equiv.swap s.2.2.toNat pos else s.1,
        incrementTrigits ((List.range a).map fun x => (3 : ℤ) ^ x).reverse s.2.1 s.2.2))
      (data, List.replicate a 0, 0) = ((List.range p).foldl (fun data pos =>
        if pos < reverse 3 a pos then data ∘ Equiv.swap (reverse 3 a pos) pos else data) data,
        trigits a p, (reverse 3 a p : ℤ)) := by
    intro p
    induction p with
    | zero => rw [reverse_zero, trigits_zero]; rfl
    | succ p ih =>
      rw [List.range_succ, List.foldl_append, List.foldl_append, ih, List.foldl_cons,
        List.foldl_cons, List.foldl_nil, List.foldl_nil, incrementTrigits_trigits, sub_self,
        zero_add, Int.toNat_natCast]
  have hlt : ∀ i < 3 ^ a, reverse 3 a i < 3 ^ a := fun i _ => reverse_lt hthree a i
  rw [fft3InPlaceRearrange, trigitsLen_eq ha, hrun]
  dsimp only
  rw [foldl_exchange hlt (fun i hi => reverse_reverse hthree a hi) data le_rfl hi,
    if_pos (.inl hi)]

/-! ## The stages compute the transform -/

/-- Combine the entries of a pair with powers of a root of unity and of a factor. -/
structure IsButterfly (r : ℕ) (bigOmega : F) (butterfly : F → ℕ → ℕ → (ℕ → F) → ℕ → F) : Prop where
  other : ∀ factor step pair data i, (∀ e < r, i ≠ pair + e * step) →
    butterfly factor step pair data i = data i
  apply : ∀ factor step pair data e, 0 < step → e < r →
    butterfly factor step pair data (pair + e * step) = ∑ u ∈ Finset.range r,
      bigOmega ^ (e * u) * (factor ^ u * data (pair + u * step))

theorem mem_pairs {group len jump p : ℕ} (hg : group < jump) :
    p ∈ pairs group len jump ↔ p < len ∧ p % jump = group := by
  have hcount : ∀ i, i < (len - group + jump - 1) / jump ↔ group + i * jump < len := by
    intro i
    rw [← Nat.succ_le_iff, Nat.le_div_iff_mul_le (Nat.zero_lt_of_lt hg), Nat.succ_mul]
    omega
  simp only [pairs, List.mem_map, List.mem_range, hcount]
  constructor
  · rintro ⟨i, hlt, rfl⟩
    exact ⟨hlt, by rw [Nat.add_mul_mod_self_right, Nat.mod_eq_of_lt hg]⟩
  · rintro ⟨hlt, rfl⟩
    have hdiv : p % jump + p / jump * jump = p := Nat.mod_add_div' p jump
    exact ⟨p / jump, by omega, hdiv⟩

theorem nodup_pairs {group len jump : ℕ} (hg : group < jump) : (pairs group len jump).Nodup := by
  apply List.Nodup.map_on _ List.nodup_range
  intro i _ j _ h
  exact Nat.eq_of_mul_eq_mul_right (Nat.zero_lt_of_lt hg) (Nat.add_left_cancel h)

/-- The first index of the pair of an index. -/
def lead (r step i : ℕ) : ℕ := i % step + i / (r * step) * (r * step)

theorem lead_add (r step i : ℕ) : lead r step i + i / step % r * step = i := by
  have hmod := Nat.mod_mul (a := step) (b := r) (x := i)
  have hdiv := Nat.mod_add_div' i (r * step)
  rw [Nat.mul_comm r step] at hdiv
  rw [lead, Nat.mul_comm r step, Nat.mul_comm (i / step % r)]
  omega

section Lead

variable {r step : ℕ} (hr : 0 < r) (hstep : 0 < step)
include hr hstep

theorem lead_mod (i : ℕ) : lead r step i % (r * step) = i % step := by
  have hlt : i % step < r * step :=
    (Nat.mod_lt i hstep).trans_le (Nat.le_mul_of_pos_left step hr)
  rw [lead, Nat.add_mul_mod_self_right, Nat.mod_eq_of_lt hlt]

theorem lead_of_mem {p e : ℕ} (he : e < r) (hp : p % (r * step) < step) :
    lead r step (p + e * step) = p ∧ (p + e * step) / step % r = e := by
  have hsplit := Nat.mod_add_div' p (r * step)
  have heq : p + e * step = (p % (r * step) + e * step) + p / (r * step) * (r * step) := by omega
  have hlt : p % (r * step) + e * step < r * step := by
    calc p % (r * step) + e * step < step + e * step := Nat.add_lt_add_right hp _
      _ = (e + 1) * step := by ring
      _ ≤ r * step := Nat.mul_le_mul_right step he
  have hdiv : (p + e * step) / (r * step) = p / (r * step) := by
    rw [heq, Nat.add_mul_div_right _ _ (Nat.mul_pos hr hstep), Nat.div_eq_of_lt hlt, Nat.zero_add]
  have hmod : (p + e * step) % step = p % (r * step) := by
    rw [heq, ← Nat.mul_assoc, Nat.add_mul_mod_self_right, Nat.add_mul_mod_self_right,
      Nat.mod_eq_of_lt hp]
  have hlead : lead r step (p + e * step) = p := by
    rw [lead, hdiv, hmod]
    exact hsplit
  refine ⟨hlead, ?_⟩
  have hadd := lead_add r step (p + e * step)
  rw [hlead] at hadd
  exact Nat.eq_of_mul_eq_mul_right hstep (Nat.add_left_cancel hadd)

omit hr in
theorem lead_add_lt {len i u : ℕ} (hlen : r * step ∣ len) (hi : i < len) (hu : u < r) :
    lead r step i + u * step < len := by
  obtain ⟨q, rfl⟩ := hlen
  have hq : i / (r * step) + 1 ≤ q := Nat.div_lt_of_lt_mul hi
  calc lead r step i + u * step < step + i / (r * step) * (r * step) + u * step :=
        Nat.add_lt_add_right (Nat.add_lt_add_right (Nat.mod_lt i hstep) _) _
    _ = (u + 1) * step + i / (r * step) * (r * step) := by ring
    _ ≤ r * step + i / (r * step) * (r * step) :=
        Nat.add_le_add_right (Nat.mul_le_mul_right step hu) _
    _ = (i / (r * step) + 1) * (r * step) := by ring
    _ ≤ q * (r * step) := Nat.mul_le_mul_right _ hq
    _ = r * step * q := Nat.mul_comm _ _

end Lead

variable {r : ℕ} {bigOmega : F} {butterfly : F → ℕ → ℕ → (ℕ → F) → ℕ → F}

theorem group_apply (hb : IsButterfly r bigOmega butterfly) (hr : 0 < r) {step k len : ℕ}
    (hgroup : k < step) (factor : F) (data : ℕ → F) (i : ℕ) :
    group butterfly r len step factor k data i =
      if lead r step i < len ∧ i % step = k then
        ∑ u ∈ Finset.range r, bigOmega ^ (i / step % r * u) *
          (factor ^ u * data (lead r step i + u * step))
      else data i := by
  have hstep := Nat.zero_lt_of_lt hgroup
  have hjump : k < r * step := hgroup.trans_le (Nat.le_mul_of_pos_left step hr)
  have hpair : ∀ p ∈ pairs k len (r * step), p % (r * step) < step := by
    intro p hp
    rw [((mem_pairs hjump).1 hp).2]
    exact hgroup
  have hmem : lead r step i ∈ pairs k len (r * step) ↔
      lead r step i < len ∧ i % step = k := by rw [mem_pairs hjump, lead_mod hr hstep]
  have happly : ∀ p ∈ pairs k len (r * step), ∀ data i, lead r step i = p →
      butterfly factor step p data i = ∑ u ∈ Finset.range r, bigOmega ^ (i / step % r * u) *
        (factor ^ u * data (p + u * step)) := by
    intro p _ data i h
    have hi := lead_add r step i
    rw [h] at hi
    rw [← hb.apply factor step p data _ hstep (Nat.mod_lt _ hr), hi]
  have hframe : ∀ p ∈ pairs k len (r * step), ∀ data i, lead r step i ≠ p →
      butterfly factor step p data i = data i := by
    intro p hp data i hne
    apply hb.other
    rintro e he rfl
    exact hne (lead_of_mem hr hstep he (hpair p hp)).1
  rw [group]
  split_ifs with h
  · rw [foldl_blocks_of_mem hframe _ (nodup_pairs hjump) (hmem.2 h), happly _ (hmem.2 h) _ _ rfl]
    intro p hp data data' hdata i hi
    rw [happly p hp _ _ hi, happly p hp _ _ hi]
    refine Finset.sum_congr rfl fun u hu => ?_
    rw [hdata _ (lead_of_mem hr hstep (Finset.mem_range.1 hu) (hpair p hp)).1]
  · exact foldl_blocks_of_notMem hframe (hmem.not.2 h)

theorem groups_apply (hb : IsButterfly r bigOmega butterfly) (hr : 0 < r) {step len : ℕ}
    (hstep : 0 < step) (ω : F) (data : ℕ → F) {i : ℕ} (hi : i < len) :
    groups butterfly r len step ω data i =
      ∑ u ∈ Finset.range r, bigOmega ^ (i / step % r * u) *
        (((ω ^ (len / step / r)) ^ (i % step)) ^ u * data (lead r step i + u * step)) := by
  have hrun : ∀ p, (List.range p).foldl (fun (s : (ℕ → F) × F) k =>
      (group butterfly r len step s.2 k s.1, s.2 * ω ^ (len / step / r))) (data, 1) =
      ((List.range p).foldl (fun data k =>
        group butterfly r len step ((ω ^ (len / step / r)) ^ k) k data) data,
        (ω ^ (len / step / r)) ^ p) := by
    intro p
    induction p with
    | zero => simp
    | succ p ih =>
      rw [List.range_succ, List.foldl_append, List.foldl_append, ih, List.foldl_cons,
        List.foldl_cons, List.foldl_nil, List.foldl_nil, pow_succ]
  have hframe : ∀ k ∈ List.range step, ∀ data i, i % step ≠ k →
      group butterfly r len step ((ω ^ (len / step / r)) ^ k) k data i = data i := by
    intro k hk data i hne
    rw [group_apply hb hr (List.mem_range.1 hk), if_neg fun h => hne h.2]
  have hlocal : ∀ k ∈ List.range step, ∀ data data', (∀ i, i % step = k → data i = data' i) →
      ∀ i, i % step = k → group butterfly r len step ((ω ^ (len / step / r)) ^ k) k data i =
        group butterfly r len step ((ω ^ (len / step / r)) ^ k) k data' i := by
    intro k hk data data' hdata i hi
    rw [group_apply hb hr (List.mem_range.1 hk), group_apply hb hr (List.mem_range.1 hk),
      hdata i hi]
    congr 1
    refine Finset.sum_congr rfl fun u _ => ?_
    rw [hdata]
    rw [lead, Nat.add_mul_mod_self_right, ← Nat.mul_assoc, Nat.add_mul_mod_self_right,
      Nat.mod_mod, hi]
  have hmem : i % step ∈ List.range step := List.mem_range.2 (Nat.mod_lt i hstep)
  have hle : lead r step i < len := by
    have hadd := lead_add r step i
    omega
  rw [groups, hrun]
  dsimp only
  rw [@foldl_blocks_of_mem _ _ (fun i => i % step) _ _ hframe hlocal List.nodup_range _ _ hmem,
    group_apply hb hr (Nat.mod_lt i hstep), if_pos ⟨hle, rfl⟩]

theorem compute_apply {hr : 1 < r} {c d : ℕ} {ω : F} {x data : ℕ → F}
    (hω : ω ^ r ^ (c + d) = 1)
    (hb : 0 < c → IsButterfly r (ω ^ (r ^ (c + d) / r)) butterfly)
    (hdata : ∀ i < r ^ (c + d), data i = stage r c d ω x i) {i : ℕ} (hi : i < r ^ (c + d)) :
    compute butterfly r hr (r ^ (c + d)) d ω data i = stage r 0 (c + d) ω x i := by
  have hpos : 0 < r := Nat.zero_lt_of_lt hr
  induction c generalizing d data with
  | zero =>
    rw [compute, Nat.zero_add, if_neg (lt_irrefl _)]
    exact hdata i hi
  | succ c ih =>
    have hsum : c + 1 + d = c + (d + 1) := by omega
    have hlt : r ^ d < r ^ (c + 1 + d) := Nat.pow_lt_pow_right hr (by omega)
    have hstride : r ^ (c + 1 + d) / r ^ d / r = r ^ c := by
      rw [Nat.pow_div (by omega) hpos, Nat.add_sub_cancel, pow_succ, Nat.mul_div_cancel _ hpos]
    have hroot : r ^ (c + 1 + d) / r = r ^ (c + d) := by
      rw [Nat.add_right_comm, pow_succ, Nat.mul_div_cancel _ hpos]
    have hdvd : r * r ^ d ∣ r ^ (c + 1 + d) := by
      rw [← pow_succ']
      exact Nat.pow_dvd_pow r (by omega)
    have hb' := hb (Nat.succ_pos c)
    rw [compute, if_pos hlt]
    rw [hsum] at hω hb hi hb' hstride hdata hdvd ⊢
    refine ih hω (fun _ => hb') (fun j hj => ?_) hi
    rw [groups_apply hb' hpos (Nat.pow_pos hpos) ω data hj, hstride, stage_succ hpos hω]
    refine Finset.sum_congr rfl fun u hu => ?_
    rw [hdata _ (lead_add_lt (Nat.pow_pos hpos) hdvd hj (Finset.mem_range.1 hu)), ← hsum,
      hroot, lead, ← pow_succ']

theorem isButterfly2 : IsButterfly 2 (-1 : F) butterfly2 where
  other factor step pair data i h := by
    have hzero := h 0 (by decide)
    have hone := h 1 (by decide)
    rw [Nat.zero_mul, Nat.add_zero] at hzero
    rw [Nat.one_mul] at hone
    rw [butterfly2, Function.update_of_ne hone, Function.update_of_ne hzero]
  apply factor step pair data e hstep he := by
    have hne : pair ≠ pair + step := by omega
    simp only [Finset.sum_range_succ, Finset.sum_range_zero]
    interval_cases e
    · simp [butterfly2, Function.update_of_ne hne, mul_comm]
    · simp [butterfly2]
      ring

theorem isButterfly3 {bigOmega : F} (h : bigOmega ^ 3 = 1) :
    IsButterfly 3 bigOmega (butterfly3 bigOmega) where
  other factor step pair data i h := by
    have hzero := h 0 (by decide)
    have hone := h 1 (by decide)
    have htwo := h 2 (by decide)
    rw [Nat.zero_mul, Nat.add_zero] at hzero
    rw [Nat.one_mul] at hone
    rw [butterfly3, Function.update_of_ne htwo, Function.update_of_ne hone,
      Function.update_of_ne hzero]
  apply factor step pair data e hstep he := by
    have hne : pair ≠ pair + step ∧ pair ≠ pair + 2 * step ∧ pair + step ≠ pair + 2 * step := by
      omega
    have hfour : bigOmega ^ 4 = bigOmega := by rw [pow_succ, h, one_mul]
    simp only [Finset.sum_range_succ, Finset.sum_range_zero, Nat.zero_mul, Nat.one_mul,
      Nat.add_zero]
    interval_cases e
    · simp only [butterfly3, Nat.zero_mul, Nat.add_zero, Function.update_of_ne hne.1,
        Function.update_of_ne hne.2.1, Function.update_self]
      ring
    · simp only [butterfly3, Nat.one_mul, Function.update_of_ne hne.2.2, Function.update_self]
      ring
    · simp only [butterfly3, Function.update_self]
      linear_combination (-factor ^ 2 * data (pair + 2 * step)) * hfour

theorem fft2InPlace_apply {a : ℕ} {ω : F} (hω : IsPrimitiveRoot ω (2 ^ a)) (x : ℕ → F) {i : ℕ}
    (hi : i < 2 ^ a) : fft2InPlace (2 ^ a) ω x i = transform (2 ^ a) ω x i := by
  have hb : 0 < a → IsButterfly 2 (ω ^ (2 ^ a / 2)) butterfly2 := by
    intro ha
    obtain ⟨c, rfl⟩ := Nat.exists_eq_add_of_lt ha
    have hsplit : 2 ^ (0 + c + 1) = 2 ^ (0 + c + 1) / 2 * 2 := by
      rw [pow_succ, Nat.mul_div_cancel _ Nat.two_pos]
    rw [(hω.pow (Nat.pow_pos Nat.two_pos) hsplit).eq_neg_one_of_two_right]
    exact isButterfly2
  rw [← stage_last hi]
  refine compute_apply (c := a) (d := 0) hω.pow_eq_one hb (fun j hj => ?_) hi
  rw [fft2InPlaceRearrange_apply a x hj, stage_zero]

theorem fft3InPlace_one (ω : F) (x : ℕ → F) : fft3InPlace 1 ω x = x := by
  have hstages : ∀ data : ℕ → F,
      compute (butterfly3 (ω ^ (1 / 3))) 3 (by decide) 1 0 ω data = data := by
    intro data
    rw [compute, pow_zero, if_neg (lt_irrefl _)]
  rw [fft3InPlace, hstages]
  rfl

theorem fft3InPlace_apply {a : ℕ} {ω : F} (hω : IsPrimitiveRoot ω (3 ^ a)) (x : ℕ → F) {i : ℕ}
    (hi : i < 3 ^ a) : fft3InPlace (3 ^ a) ω x i = transform (3 ^ a) ω x i := by
  rcases Nat.eq_zero_or_pos a with rfl | ha
  · obtain rfl := Nat.lt_one_iff.1 hi
    rw [pow_zero, fft3InPlace_one, transform, Finset.sum_range_one, Nat.zero_mul, pow_zero, mul_one]
  have hb : IsButterfly 3 (ω ^ (3 ^ a / 3)) (butterfly3 (ω ^ (3 ^ a / 3))) := by
    apply isButterfly3
    rw [← pow_mul, Nat.div_mul_cancel (dvd_pow_self 3 ha.ne'), hω.pow_eq_one]
  rw [← stage_last hi]
  refine compute_apply (c := a) (d := 0) hω.pow_eq_one (fun _ => hb) (fun j hj => ?_) hi
  rw [fft3InPlaceRearrange_apply ha x hj, stage_zero]

/-! ## Lists -/

theorem transform_getD (xs : List F) (ω : F) (j : ℕ) :
    transform xs.length ω (fun i => xs.getD i 0) j = (ofCoeffs xs).eval (ω ^ j) := by
  induction xs with
  | nil => simp [transform]
  | cons x xs ih =>
    have ih' : ∑ s ∈ Finset.range xs.length, xs.getD s 0 * ω ^ (s * j) =
        (ofCoeffs xs).eval (ω ^ j) := ih
    rw [transform, List.length_cons, Finset.sum_range_succ', ofCoeffs_cons, Polynomial.eval_add,
      Polynomial.eval_mul, Polynomial.eval_X, Polynomial.eval_C, ← ih', Finset.mul_sum]
    simp only [List.getD_cons_succ, List.getD_cons_zero, Nat.zero_mul, pow_zero, mul_one]
    rw [add_comm]
    congr 1
    refine Finset.sum_congr rfl fun s _ => ?_
    rw [Nat.succ_mul, pow_add]
    ring

/-- A list transform that takes coefficients to the values at the powers of the root. -/
def IsTransform (n : ℕ) (ω : F) (fft : List F → F → List F) : Prop :=
  ∀ xs : List F, xs.length = n →
    fft xs ω = (List.range n).map fun j => (ofCoeffs xs).eval (ω ^ j)

theorem isTransform_fft2 {a : ℕ} {ω : F} (hω : IsPrimitiveRoot ω (2 ^ a)) :
    IsTransform (2 ^ a) ω fft2 := by
  intro xs hlen
  rw [fft2, hlen]
  refine List.map_congr_left fun j hj => ?_
  rw [fft2InPlace_apply hω _ (List.mem_range.1 hj), ← hlen, transform_getD]

theorem isTransform_fft3 {a : ℕ} {ω : F} (hω : IsPrimitiveRoot ω (3 ^ a)) :
    IsTransform (3 ^ a) ω fft3 := by
  intro xs hlen
  rw [fft3, hlen]
  refine List.map_congr_left fun j hj => ?_
  rw [fft3InPlace_apply hω _ (List.mem_range.1 hj), ← hlen, transform_getD]

/-- The inverse that goes with a transform. -/
def inverse (fft : List F → F → List F) (aPoint : List F) (ω : F) : List F :=
  (fft aPoint ω⁻¹).map (· * (aPoint.length : F)⁻¹)

theorem fft2Inverse_eq (aPoint : List F) (ω : F) :
    fft2Inverse aPoint ω = inverse fft2 aPoint ω := rfl

theorem fft3Inverse_eq (aPoint : List F) (ω : F) :
    fft3Inverse aPoint ω = inverse fft3 aPoint ω := rfl

namespace IsTransform

variable {n : ℕ} {ω : F} {fft : List F → F → List F}

theorem length_inverse (h : IsTransform n ω⁻¹ fft) {ys : List F} (hlen : ys.length = n) :
    (inverse fft ys ω).length = n := by
  rw [inverse, List.length_map, h ys hlen, List.length_map, List.length_range]

theorem getD_inverse (h : IsTransform n ω⁻¹ fft) {ys : List F} (hlen : ys.length = n) {s : ℕ}
    (hs : s < n) : (inverse fft ys ω).getD s 0 =
      transform n ω⁻¹ (fun i => ys.getD i 0) s * (n : F)⁻¹ := by
  subst hlen
  rw [inverse, h ys rfl, List.map_map, List.getD_eq_getElem?_getD, List.getElem?_map,
    List.getElem?_range hs, Option.map_some, Option.getD_some, Function.comp_apply, transform_getD]

theorem eval_inverse (h : IsTransform n ω⁻¹ fft) (hω : IsPrimitiveRoot ω n) {ys : List F}
    (hlen : ys.length = n) {j : ℕ} (hj : j < n) :
    (ofCoeffs (inverse fft ys ω)).eval (ω ^ j) = ys.getD j 0 := by
  rw [← transform_getD, h.length_inverse hlen,
    transform_congr fun s hs => h.getD_inverse hlen hs]
  exact transform_inverse hω (fun i => ys.getD i 0) hj

theorem inverse_eval (h : IsTransform n ω⁻¹ fft) (hω : IsPrimitiveRoot ω n) {xs : List F}
    (hlen : xs.length = n) :
    inverse fft ((List.range n).map fun j => (ofCoeffs xs).eval (ω ^ j)) ω = xs := by
  have hlen' : ((List.range n).map fun j => (ofCoeffs xs).eval (ω ^ j)).length = n := by
    rw [List.length_map, List.length_range]
  apply List.ext_getElem (by rw [h.length_inverse hlen', hlen])
  intro s hs hs'
  have hsn : s < n := hlen ▸ hs'
  rw [← List.getD_eq_getElem _ 0 hs, ← List.getD_eq_getElem _ 0 hs', h.getD_inverse hlen' hsn]
  subst hlen
  rw [← inverse_transform hω (fun i => xs.getD i 0) hsn]
  congr 1
  refine congrFun (transform_congr fun j hj => ?_) s
  rw [List.getD_eq_getElem?_getD, List.getElem?_map, List.getElem?_range hj, Option.map_some,
    Option.getD_some, transform_getD]

end IsTransform

/-- A transform, and its inverse from both sides. -/
structure IsFourier (n : ℕ) (ω : F) (fft fftInverse : List F → F → List F) : Prop where
  apply : ∀ a : List F, a.length = n → fft a ω = (List.range n).map fun i =>
    ∑ j ∈ Finset.range n, a.getD j 0 * ω ^ (i * j)
  inverse_fft : ∀ a : List F, a.length = n → fftInverse (fft a ω) ω = a
  fft_inverse : ∀ a : List F, a.length = n → fft (fftInverse a ω) ω = a

theorem IsTransform.isFourier {n : ℕ} {ω : F} {fft : List F → F → List F}
    (h : IsTransform n ω fft) (hinv : IsTransform n ω⁻¹ fft) (hω : IsPrimitiveRoot ω n) :
    IsFourier n ω fft (inverse fft) where
  apply a hlen := by
    rw [h a hlen]
    refine List.map_congr_left fun i _ => ?_
    subst hlen
    rw [← transform_getD, transform]
    simp only [Nat.mul_comm]
  inverse_fft a hlen := by rw [h a hlen, hinv.inverse_eval hω hlen]
  fft_inverse a hlen := by
    rw [h _ (hinv.length_inverse hlen)]
    apply List.ext_getElem
    · rw [List.length_map, List.length_range, hlen]
    · intro j hj hj'
      rw [List.getElem_map, List.getElem_range, hinv.eval_inverse hω hlen (hlen ▸ hj'),
        List.getD_eq_getElem _ 0 hj']

theorem fft_correct {k k' : ℕ} {ω ω' : F} (hω : orderOf ω = 2 ^ k) (hω' : orderOf ω' = 3 ^ k') :
    IsFourier (2 ^ k) ω fft2 fft2Inverse ∧ IsFourier (3 ^ k') ω' fft3 fft3Inverse := by
  have h2 := IsPrimitiveRoot.iff_orderOf.2 hω
  have h3 := IsPrimitiveRoot.iff_orderOf.2 hω'
  exact ⟨(isTransform_fft2 h2).isFourier (isTransform_fft2 h2.inv) h2,
    (isTransform_fft3 h3).isFourier (isTransform_fft3 h3.inv) h3⟩

/-- Transforms of 32 and of 81 field elements. -/
theorem fft_correct_roots :
    orderOf (FieldForFFT.roots 2 5 : F2e19x3e26) = 2 ^ 5 ∧
      orderOf (FieldForFFT.roots 3 4 : F2e19x3e26) = 3 ^ 4 ∧
      IsFourier (2 ^ 5) (FieldForFFT.roots 2 5 : F2e19x3e26) fft2 fft2Inverse ∧
      IsFourier (3 ^ 4) (FieldForFFT.roots 3 4 : F2e19x3e26) fft3 fft3Inverse := by
  have h2 : orderOf (FieldForFFT.roots 2 5 : F2e19x3e26) = 2 ^ 5 :=
    (FieldForFFT.isPrimitiveRoot_roots 5 (by decide)).eq_orderOf.symm
  have h3 : orderOf (FieldForFFT.roots 3 4 : F2e19x3e26) = 3 ^ 4 :=
    (FieldForFFT.isPrimitiveRoot_roots 4 (by decide)).eq_orderOf.symm
  exact ⟨h2, h3, fft_correct h2 h3⟩

end EdaBitGen.Fft
