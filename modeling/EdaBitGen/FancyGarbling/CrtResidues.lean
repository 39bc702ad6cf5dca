import EdaBitGen.Algebra.Residues
import EdaBitGen.FancyGarbling.Fancy

/-!
# Factors and residues of a supported modulus

A supported modulus is the product of some of the library's primes. Its residues determine a number
below it, and the reconstruction finds that number when its sums fit in 128 bits.
-/

namespace EdaBitGen.FancyGarbling

open Residues

/-- Some of the primes that are supported, in ascending order. -/
def Supported (ps : List ℕ) : Prop := ps.Sublist PRIMES

theorem primes_prime : ∀ p ∈ PRIMES, p.Prime := by
  unfold PRIMES
  norm_num

theorem primes_lt : ∀ p ∈ PRIMES, p < 110 := by decide

theorem primes_nodup : PRIMES.Nodup := by decide

namespace Supported

variable {ps : List ℕ} (h : Supported ps)

include h

theorem prime {p : ℕ} (hp : p ∈ ps) : p.Prime := primes_prime p (h.subset hp)

theorem pos {p : ℕ} (hp : p ∈ ps) : 0 < p := (h.prime hp).pos

theorem lt {p : ℕ} (hp : p ∈ ps) : p < 110 := primes_lt p (h.subset hp)

theorem coprime : ps.Pairwise Nat.Coprime :=
  (primes_nodup.sublist h).imp_of_mem fun hp hr hne =>
    (Nat.coprime_primes (h.prime hp) (h.prime hr)).2 hne

theorem prod_pos : 0 < ps.prod := List.prod_pos fun _ hp => h.pos hp

end Supported

/-! ## Words of 128 bits -/

theorem u128_eq {v : ℕ} (h : v < 2 ^ 128) : u128 v = some v := if_pos h

theorem i128_eq {v : ℤ} (h : -2 ^ 127 ≤ v) (h' : v < 2 ^ 127) : i128 v = some v := if_pos ⟨h, h'⟩

theorem i128_eq_none {v : ℤ} (h : 2 ^ 127 ≤ v) : i128 v = none := if_neg fun hv => by omega

theorem foldlM_u128 (xs : List ℕ) (acc : ℕ) (hxs : ∀ x ∈ xs, 0 < x) (h : acc * xs.prod < 2 ^ 128) :
    xs.foldlM (fun acc x => u128 (acc * x)) acc = some (acc * xs.prod) := by
  induction xs generalizing acc with
  | nil => simp
  | cons x xs ih =>
    obtain ⟨-, hxs⟩ := List.forall_mem_cons.1 hxs
    rw [List.prod_cons, ← mul_assoc] at h ⊢
    have hle : acc * x ≤ acc * x * xs.prod := Nat.le_mul_of_pos_right _ (List.prod_pos hxs)
    rw [List.foldlM_cons, u128_eq (by omega)]
    exact ih _ hxs h

theorem product_eq {xs : List ℕ} (hxs : ∀ x ∈ xs, 0 < x) (h : xs.prod < 2 ^ 128) :
    product xs = some xs.prod := by
  rw [product, foldlM_u128 xs 1 hxs (by rwa [one_mul]), one_mul]

theorem divideOut_eq {primes ps : List ℕ} (h : ps.Sublist primes) (hprime : ∀ p ∈ primes, p.Prime)
    (hnodup : primes.Nodup) (fs : List ℕ) :
    primes.foldl (fun s p => if s.1 % p = 0 then (s.1 / p, s.2 ++ [p]) else s) (ps.prod, fs) =
      (1, fs ++ ps) := by
  induction h generalizing fs with
  | slnil => simp
  | @cons ps primes p h ih =>
    obtain ⟨hp, hprimes⟩ := List.forall_mem_cons.1 hprime
    obtain ⟨hmem, hnodup⟩ := List.nodup_cons.1 hnodup
    have hne : ¬ ps.prod % p = 0 := by
      intro hzero
      have hdvd := (hp.prime.dvd_prod_iff).1 (Nat.dvd_of_mod_eq_zero hzero)
      obtain ⟨r, hr, hpr⟩ := hdvd
      have heq := (Nat.prime_dvd_prime_iff_eq hp (hprimes r (h.subset hr))).1 hpr
      exact hmem (heq ▸ h.subset hr)
    rw [List.foldl_cons, if_neg hne]
    exact ih hprimes hnodup fs
  | @cons_cons ps primes p h ih =>
    obtain ⟨hp, hprimes⟩ := List.forall_mem_cons.1 hprime
    obtain ⟨-, hnodup⟩ := List.nodup_cons.1 hnodup
    rw [List.foldl_cons, List.prod_cons, if_pos (Nat.mul_mod_right p _),
      Nat.mul_div_cancel_left _ hp.pos]
    rw [ih hprimes hnodup, List.append_assoc]
    rfl

theorem Supported.factor_eq {ps : List ℕ} (h : Supported ps) : factor ps.prod = some ps := by
  have hdivide : divideOut PRIMES ps.prod = (1, ps) := divideOut_eq h primes_prime primes_nodup []
  rw [factor, hdivide]
  rfl

theorem crt_eq {ps : List ℕ} (hps : ∀ p ∈ ps, 0 < p) (x : ℕ) : crt x ps = some (ps.map (x % ·)) := by
  induction ps with
  | nil => rfl
  | cons p ps ih =>
    obtain ⟨hp, hps⟩ := List.forall_mem_cons.1 hps
    rw [crt, List.mapM_cons, if_neg hp.ne', ← crt, ih hps]
    rfl

/-! ## The extended Euclidean algorithm -/

/-- The coefficients of the algorithm for the input `A` and the modulus `P`, with their sizes `u` and
`v` and their sign. -/
structure Bezout (A P a b : ℕ) (x0 x1 : ℤ) (u v : ℕ) (sign : ℤ) : Prop where
  left : x1 * A ≡ a [ZMOD P]
  right : x0 * A ≡ b [ZMOD P]
  pos : 0 < a
  coprime : a.Coprime b
  unit : sign = 1 ∨ sign = -1
  size_left : x1 = sign * u
  size_right : x0 = -sign * v
  sum : u * b + v * a = P
  small : u < P

theorem Bezout.step {A P a b : ℕ} {x0 x1 sign : ℤ} {u v : ℕ} (h : Bezout A P a b x0 x1 u v sign)
    (ha : 1 < a) (hb : b ≠ 0) :
    Bezout A P b (a % b) (x1 - (a / b : ℕ) * x0) x0 v (u + a / b * v) (-sign) where
  left := h.right
  right := by
    have hdiv : ((a % b : ℕ) : ℤ) = a - (a / b : ℕ) * b := by
      have := Nat.mod_add_div a b
      have hcast : ((a % b : ℕ) : ℤ) + b * (a / b : ℕ) = a := by exact_mod_cast this
      linarith
    rw [hdiv, sub_mul, mul_assoc]
    exact h.left.sub (h.right.mul_left _)
  pos := Nat.pos_of_ne_zero hb
  coprime := by
    rw [Nat.coprime_comm, ← Nat.coprime_comm, Nat.Coprime, Nat.gcd_comm]
    rw [← Nat.gcd_rec, Nat.gcd_comm]
    exact h.coprime
  unit := by
    obtain hs | hs := h.unit
    · exact .inr (by rw [hs])
    · exact .inl (by rw [hs, neg_neg])
  size_left := h.size_right
  size_right := by
    rw [h.size_left, h.size_right]
    push_cast
    ring
  sum := by
    have hdiv := Nat.mod_add_div a b
    calc v * (a % b) + (u + a / b * v) * b = u * b + v * (a % b + b * (a / b)) := by ring
      _ = P := by rw [hdiv, h.sum]
  small := by
    have hsum := h.sum
    have hv : v * 2 ≤ v * a := Nat.mul_le_mul_left v ha
    have hpos : 0 < P := by have := h.small; omega
    obtain rfl | hv0 := Nat.eq_zero_or_pos v
    · exact hpos
    · omega

theorem Bezout.start {A P : ℕ} (hA : 0 < A) (hP : 1 < P) (hco : A.Coprime P) :
    Bezout A P A P 0 1 1 0 1 where
  left := by rw [one_mul]
  right := by
    rw [zero_mul]
    exact (Int.modEq_zero_iff_dvd.2 dvd_rfl).symm
  pos := hA
  coprime := hco
  unit := .inl rfl
  size_left := rfl
  size_right := rfl
  sum := by omega
  small := hP

theorem invLoop_eq {A P a b : ℕ} {x0 x1 sign : ℤ} {u v : ℕ} (hP : P < 2 ^ 126)
    (h : Bezout A P a b x0 x1 u v sign) :
    ∃ r : ℤ, invLoop a b x0 x1 = some r ∧ r * A ≡ 1 [ZMOD P] ∧ -P < r ∧ r < P := by
  induction b using Nat.strong_induction_on generalizing a x0 x1 u v sign with
  | _ b ih =>
    rw [invLoop]
    split
    · next ha =>
      have hb : b ≠ 0 := by
        rintro rfl
        have hone := h.coprime
        rw [Nat.coprime_zero_right] at hone
        omega
      have hstep := h.step ha hb
      -- the next coefficient is the largest number of the round
      have hsize : u + a / b * v ≤ P := by
        have hsum := hstep.sum
        have hmul := Nat.le_mul_of_pos_right (u + a / b * v) hstep.pos
        omega
      have hproduct : ((a / b : ℕ) * x0) = -sign * (a / b * v : ℕ) := by
        rw [h.size_right]
        push_cast
        ring
      have hnext : x1 - (a / b : ℕ) * x0 = sign * (u + a / b * v : ℕ) := by
        rw [hstep.size_right, neg_neg]
      have hbounds : ∀ k : ℕ, k ≤ P → ∀ s : ℤ, s = 1 ∨ s = -1 → i128 (s * k) = some (s * k) := by
        rintro k hk s (rfl | rfl) <;> exact i128_eq (by omega) (by omega)
      rw [dif_neg hb]
      have hproductFits : i128 ((a / b : ℕ) * x0) = some ((a / b : ℕ) * x0) := by
        rw [hproduct]
        refine hbounds _ (by omega) _ ?_
        obtain hs | hs := h.unit
        · exact .inr (by rw [hs])
        · exact .inl (by rw [hs, neg_neg])
      have hnextFits : i128 (x1 - (a / b : ℕ) * x0) = some (x1 - (a / b : ℕ) * x0) := by
        rw [hnext]
        exact hbounds _ hsize _ h.unit
      rw [hproductFits, Option.bind_eq_bind, Option.bind_some, hnextFits,
        Option.bind_some]
      exact ih (a % b) (Nat.mod_lt _ (Nat.pos_of_ne_zero hb)) hstep
    · next ha =>
      have hone : a = 1 := by have := h.pos; omega
      have hleft := h.left
      have hsmall := h.small
      rw [hone, Nat.cast_one] at hleft
      refine ⟨x1, rfl, hleft, ?_, ?_⟩ <;> rw [h.size_left] <;>
        obtain hs | hs := h.unit <;> rw [hs] <;> omega

theorem inv_eq {A P : ℕ} (hA : 0 < A) (hP : 1 < P) (hword : P < 2 ^ 126) (hco : A.Coprime P) :
    inv A P = some (inverse A P : ℤ) := by
  obtain ⟨r, hrun, hmul, hlow, hhigh⟩ := invLoop_eq hword (Bezout.start hA hP hco)
  -- a negative coefficient is moved up by the modulus
  obtain ⟨i, hi⟩ : ∃ i : ℕ, (i : ℤ) = if r < 0 then r + P else r :=
    ⟨(if r < 0 then r + P else r).toNat, Int.toNat_of_nonneg (by split <;> omega)⟩
  have hinverse : i = inverse A P := by
    refine eq_inverse hco (by split at hi <;> omega) ?_
    rw [← Int.natCast_modEq_iff]
    push_cast
    rw [hi]
    split
    · rw [add_mul]
      exact (Int.modEq_zero_iff_dvd.2 ⟨(A : ℤ), rfl⟩ |>.add_left (r * A)).trans (by simpa using hmul)
    · exact hmul
  rw [inv, if_neg hP.ne', hrun, Option.bind_eq_bind, Option.bind_some, ← hinverse, hi]
  split
  · exact i128_eq (by omega) (by omega)
  · rfl

/-! ## Reconstruction -/

/-- The numbers that the reconstruction of `x` runs through are signed words of 128 bits. -/
def Reconstructs (ps : List ℕ) (x : ℕ) : Prop :=
  ps.prod < 2 ^ 127 ∧ ∀ pre p post, ps = pre ++ p :: post →
    (pre.map (term ps x)).sum % ps.prod + term ps x p < 2 ^ 127

theorem foldlM_i128 {xs : List ℕ} (hxs : ∀ x ∈ xs, 0 < x) {acc : ℕ} (hacc : 0 < acc)
    (hword : acc < 2 ^ 127) :
    xs.foldlM (fun acc (x : ℕ) => i128 (x * acc)) (acc : ℤ) =
      if acc * xs.prod < 2 ^ 127 then some ((acc * xs.prod : ℕ) : ℤ) else none := by
  induction xs generalizing acc with
  | nil =>
    rw [List.prod_nil, mul_one, if_pos hword]
    rfl
  | cons x xs ih =>
    obtain ⟨hx, hxs⟩ := List.forall_mem_cons.1 hxs
    rw [List.foldlM_cons, List.prod_cons, ← mul_assoc]
    have hcast : (x : ℤ) * acc = ((acc * x : ℕ) : ℤ) := by push_cast; ring
    rw [hcast]
    by_cases hfits : acc * x < 2 ^ 127
    · rw [i128_eq (by omega) (by exact_mod_cast hfits)]
      exact ih hxs (Nat.mul_pos hacc hx) hfits
    · have hle : acc * x ≤ acc * x * xs.prod := Nat.le_mul_of_pos_right _ (List.prod_pos hxs)
      rw [i128_eq_none (by exact_mod_cast Nat.le_of_not_lt hfits), if_neg (by omega)]
      rfl

theorem crtInvRound_eq {ps : List ℕ} (h : Supported ps) {p : ℕ} (hp : p ∈ ps) (x ret : ℕ) :
    crtInvRound ps.prod ret (p, x % p) =
      if ret + term ps x p < 2 ^ 127 then some (((ret + term ps x p) % ps.prod : ℕ) : ℤ)
      else none := by
  have hpos := h.pos hp
  have hcofactor : 0 < cofactor ps p :=
    Nat.div_pos (Nat.le_of_dvd h.prod_pos (List.dvd_prod hp)) hpos
  have hinv := inv_eq hcofactor (h.prime hp).one_lt (by have := h.lt hp; omega)
    (cofactor_coprime (fun _ => h.pos) h.coprime hp)
  have hquotient : (ps.prod : ℤ) / p = (cofactor ps p : ℕ) := by rw [cofactor]; push_cast; rfl
  have hfactor : ((x % p : ℕ) : ℤ) * (inverse (cofactor ps p) p : ℤ) =
      ((x % p * inverse (cofactor ps p) p : ℕ) : ℤ) := by push_cast; rfl
  have hterm : ((x % p * inverse (cofactor ps p) p : ℕ) : ℤ) * (cofactor ps p : ℕ) =
      (term ps x p : ℕ) := by rw [term]; push_cast; rfl
  have hle : x % p * inverse (cofactor ps p) p ≤ term ps x p := Nat.le_mul_of_pos_right _ hcofactor
  rw [crtInvRound]
  dsimp only
  rw [if_neg hpos.ne', hquotient, Int.toNat_natCast, hinv, Option.bind_eq_bind, Option.bind_some,
    hfactor]
  split
  · next hfits =>
    rw [i128_eq (by omega) (by omega), Option.bind_some, hterm, i128_eq (by omega) (by omega),
      Option.bind_some, i128_eq (by omega) (by omega)]
    push_cast
    rfl
  · next hfits =>
    by_cases hsmall : term ps x p < 2 ^ 127
    · rw [i128_eq (by omega) (by omega), Option.bind_some, hterm, i128_eq (by omega) (by omega),
        Option.bind_some, i128_eq_none (by omega)]
      rfl
    · by_cases hsmaller : x % p * inverse (cofactor ps p) p < 2 ^ 127
      · rw [i128_eq (by omega) (by omega), Option.bind_some, hterm, i128_eq_none (by omega)]
        rfl
      · rw [i128_eq_none (by omega)]
        rfl

theorem foldlM_crtInvRound {ps : List ℕ} (h : Supported ps) (x : ℕ) (pre : List ℕ)
    {post : List ℕ} (hpost : ∀ p ∈ post, p ∈ ps) (r : ℤ) :
    (post.map fun p => (p, x % p)).foldlM (crtInvRound ps.prod)
        (((pre.map (term ps x)).sum % ps.prod : ℕ) : ℤ) = some r ↔
      r = (((pre ++ post).map (term ps x)).sum % ps.prod : ℕ) ∧
      ∀ mid p rest, post = mid ++ p :: rest →
        ((pre ++ mid).map (term ps x)).sum % ps.prod + term ps x p < 2 ^ 127 := by
  induction post generalizing pre with
  | nil => simp [eq_comm]
  | cons p post ih =>
    obtain ⟨hp, hpost⟩ := List.forall_mem_cons.1 hpost
    have hsum : ((pre.map (term ps x)).sum % ps.prod + term ps x p) % ps.prod =
        ((pre ++ [p]).map (term ps x)).sum % ps.prod := by
      rw [Nat.mod_add_mod]
      simp
    have hrest := ih (pre ++ [p]) hpost
    rw [List.map_cons, List.foldlM_cons, crtInvRound_eq h hp]
    split
    · next hfits =>
      rw [hsum, Option.bind_eq_bind, Option.bind_some, hrest, List.append_assoc,
        List.singleton_append]
      refine and_congr_right fun _ => ⟨fun hall mid q rest hq => ?_, fun hall mid q rest hq => ?_⟩
      · cases mid with
        | nil =>
          obtain ⟨rfl, -⟩ := List.cons.inj hq
          simpa using hfits
        | cons m mid =>
          obtain ⟨rfl, htail⟩ := List.cons.inj hq
          simpa using hall mid q rest htail
      · simpa using hall (p :: mid) q rest (by rw [hq, List.cons_append])
    · next hfits =>
      refine ⟨fun hnone => (by cases hnone), fun hall => ?_⟩
      exact absurd (by simpa using hall.2 [] p post rfl) hfits

theorem crtInv_iff {ps : List ℕ} (h : Supported ps) {x : ℕ} (hx : x < ps.prod) :
    crtInv (ps.map (x % ·)) ps = some x ↔ Reconstructs ps x := by
  have hmodulus := @foldlM_i128 ps (fun _ => h.pos) 1 one_pos (by norm_num)
  rw [Nat.cast_one, one_mul] at hmodulus
  rw [crtInv, hmodulus, Reconstructs]
  split
  · next hfits =>
    have hzip : ps.zip (ps.map (x % ·)) = ps.map fun p => (p, x % p) := by
      have hmap := List.zip_map' (f := fun p : ℕ => p) (g := (x % ·)) (l := ps)
      rwa [List.map_id'] at hmap
    have hrounds := foldlM_crtInvRound h x [] (fun _ (hp : _ ∈ ps) => hp)
    have hvalue : (ps.map (term ps x)).sum % ps.prod = x := by
      have hmod := sum_term_modEq (fun _ => h.pos) h.coprime x
      rw [Nat.ModEq, Nat.mod_eq_of_lt hx] at hmod
      exact hmod
    simp only [List.map_nil, List.sum_nil, Nat.zero_mod, Nat.cast_zero, List.nil_append,
      hvalue] at hrounds
    rw [Option.bind_eq_bind, Option.bind_some, hzip]
    constructor
    · intro hrun
      obtain ⟨r, hr, -⟩ := Option.bind_eq_some_iff.1 hrun
      exact ⟨hfits, ((hrounds r).1 hr).2⟩
    · intro hall
      rw [(hrounds x).2 ⟨rfl, hall.2⟩]
      rfl
  · next hfits => exact ⟨fun hnone => (by cases hnone), fun hall => absurd hall.1 hfits⟩

end EdaBitGen.FancyGarbling
