import Mathlib

/-!
# Parities of sums modulo an odd number

Residues `x` modulo an odd `p` come with the parity `b` they should have.  The representative of `x`
in `[-p, p)` of that parity is the amount by which adding `x` moves a residue without a change of
parity that `b` does not predict.  A start from which every partial sum has the predicted parity
exists exactly when the absolute values of these representatives sum to less than `p`.
-/

namespace Parity

/-- The sum of the elements of `xs` that `e` selects. -/
def selectSum {R : Type} [Semiring R] : List (ZMod 2) → List R → R
  | e :: es, x :: xs => (if e = 0 then 0 else x) + selectSum es xs
  | _, _ => 0

section Select

variable {R S : Type} [Semiring R] [Semiring S]

@[simp] theorem selectSum_nil (es : List (ZMod 2)) : selectSum es ([] : List R) = 0 := by
  cases es <;> rfl

@[simp] theorem selectSum_zero_cons (es : List (ZMod 2)) (x : R) (xs : List R) :
    selectSum (0 :: es) (x :: xs) = selectSum es xs := by
  simp [selectSum]

@[simp] theorem selectSum_one_cons (es : List (ZMod 2)) (x : R) (xs : List R) :
    selectSum (1 :: es) (x :: xs) = x + selectSum es xs := by
  simp [selectSum]

theorem selectSum_map (f : R →+* S) (es : List (ZMod 2)) (xs : List R) :
    selectSum es (xs.map f) = f (selectSum es xs) := by
  induction xs generalizing es with
  | nil => simp
  | cons x xs ih =>
    cases es with
    | nil => simp [selectSum]
    | cons e es => by_cases he : e = 0 <;> simp [selectSum, he, ih]

theorem selectSum_replicate_zero (n : ℕ) (xs : List R) :
    selectSum (List.replicate n 0) xs = 0 := by
  induction n generalizing xs with
  | zero => rfl
  | succ n ih =>
    cases xs with
    | nil => simp
    | cons x xs => rw [List.replicate_succ, selectSum_zero_cons, ih]

theorem selectSum_zeros (es : List (ZMod 2)) (n : ℕ) :
    selectSum es (List.replicate n (0 : R)) = 0 := by
  induction n generalizing es with
  | zero => simp
  | succ n ih =>
    cases es with
    | nil => rfl
    | cons e es => simp [selectSum, List.replicate_succ, ih]

end Select

theorem eq_zero_or_one (e : ZMod 2) : e = 0 ∨ e = 1 := by
  revert e
  decide

/-! ## Integers -/

/-- The sum of the negative parts. -/
def negPart (zs : List ℤ) : ℤ := (zs.map fun z => max (-z) 0).sum

theorem selectSum_bounds (es : List (ZMod 2)) (zs : List ℤ) :
    -negPart zs ≤ selectSum es zs ∧ selectSum es zs ≤ (zs.map abs).sum - negPart zs := by
  induction zs generalizing es with
  | nil => simp [negPart]
  | cons z zs ih =>
    have habs : max (-z) 0 ≤ |z| := max_le (neg_le_abs z) (abs_nonneg z)
    have hself : z + max (-z) 0 ≤ |z| := by
      rw [← max_add_add_left, add_neg_cancel, add_zero]
      exact max_le (abs_nonneg z) (le_abs_self z)
    have hneg : -max (-z) 0 ≤ z := by
      have := le_max_left (-z) 0
      omega
    have hnonneg : 0 ≤ max (-z) 0 := le_max_right _ _
    cases es with
    | nil =>
      have h := ih []
      simp only [selectSum, negPart, List.map_cons, List.sum_cons] at h ⊢
      omega
    | cons e es =>
      have h := ih es
      rcases eq_zero_or_one e with rfl | rfl
      · rw [selectSum_zero_cons]
        simp only [negPart, List.map_cons, List.sum_cons] at h ⊢
        omega
      · rw [selectSum_one_cons]
        simp only [negPart, List.map_cons, List.sum_cons] at h ⊢
        omega

theorem exists_selectSum_eq (zs : List ℤ) :
    (∃ es, es.length = zs.length ∧ selectSum es zs = -negPart zs) ∧
      ∃ es, es.length = zs.length ∧ selectSum es zs = (zs.map abs).sum - negPart zs := by
  induction zs with
  | nil => exact ⟨⟨[], rfl, rfl⟩, [], rfl, rfl⟩
  | cons z zs ih =>
    obtain ⟨⟨lo, hlo, hlo'⟩, hi, hhi, hhi'⟩ := ih
    have hneg : negPart (z :: zs) = max (-z) 0 + negPart zs := by
      rw [negPart, List.map_cons, List.sum_cons, negPart]
    rcases le_or_gt 0 z with hz | hz
    · have hmax : max (-z) 0 = 0 := max_eq_right (by omega)
      refine ⟨⟨0 :: lo, by simp [hlo], ?_⟩, 1 :: hi, by simp [hhi], ?_⟩
      · rw [selectSum_zero_cons, hlo', hneg, hmax]
        ring
      · rw [selectSum_one_cons, hhi', hneg, hmax, List.map_cons, List.sum_cons, abs_of_nonneg hz]
        ring
    · have hmax : max (-z) 0 = -z := max_eq_left (by omega)
      refine ⟨⟨1 :: lo, by simp [hlo], ?_⟩, 0 :: hi, by simp [hhi], ?_⟩
      · rw [selectSum_one_cons, hlo', hneg, hmax]
        ring
      · rw [selectSum_zero_cons, hhi', hneg, hmax, List.map_cons, List.sum_cons, abs_of_neg hz]
        ring

/-! ## Residues -/

section Residues

variable {p : ℕ} [NeZero p]

/-- The parity of the least representative. -/
def parity (x : ZMod p) : ZMod 2 := (x.val : ZMod 2)

/-- The representative of `x` in `[-p, p)` of parity `b`. -/
def representative (b : ZMod 2) (x : ZMod p) : ℤ :=
  if parity x = b then x.val else x.val - p

theorem cast_representative (b : ZMod 2) (x : ZMod p) :
    ((representative b x : ℤ) : ZMod p) = x := by
  unfold representative
  split <;> simp

omit [NeZero p] in
theorem cast_representative_two (hp : Odd p) (b : ZMod 2) (x : ZMod p) :
    ((representative b x : ℤ) : ZMod 2) = b := by
  have hodd : (p : ZMod 2) = 1 := (ZMod.natCast_eq_one_iff_odd).2 hp
  unfold representative
  split
  · next h => exact_mod_cast h
  · next h =>
    have hflip : ∀ a b : ZMod 2, a ≠ b → a - 1 = b := by decide
    rw [Int.cast_sub, Int.cast_natCast, Int.cast_natCast, hodd]
    exact hflip _ _ h

theorem representative_bounds (b : ZMod 2) (x : ZMod p) :
    -(p : ℤ) ≤ representative b x ∧ representative b x < p := by
  have hlt : (x.val : ℤ) < p := by exact_mod_cast ZMod.val_lt x
  have hpos : (0 : ℤ) ≤ x.val := Int.natCast_nonneg _
  unfold representative
  split <;> omega

theorem val_intCast {k : ℤ} (h0 : 0 ≤ k) (hk : k < p) : (((k : ZMod p).val : ℕ) : ℤ) = k := by
  rw [ZMod.val_intCast, Int.emod_eq_of_lt h0 hk]

theorem val_add_of_parity (hp : Odd p) {v x : ZMod p} {b : ZMod 2}
    (h : parity (v + x) = parity v + b) :
    (((v + x).val : ℕ) : ℤ) = v.val + representative b x := by
  obtain ⟨hlo, hhi⟩ := representative_bounds b x
  have hv : (v.val : ℤ) < p := by exact_mod_cast ZMod.val_lt v
  have hs : ((v + x).val : ℤ) < p := by exact_mod_cast ZMod.val_lt (v + x)
  have hdvd : (p : ℤ) ∣ (v.val + representative b x) - (v + x).val := by
    rw [← ZMod.intCast_zmod_eq_zero_iff_dvd]
    push_cast
    rw [cast_representative]
    simp
  have htwo : (2 : ℤ) ∣ (v.val + representative b x) - (v + x).val := by
    have hcast : (((v.val + representative b x) - (v + x).val : ℤ) : ZMod 2) = 0 := by
      push_cast
      rw [cast_representative_two hp]
      exact sub_eq_zero.2 h.symm
    exact (ZMod.intCast_zmod_eq_zero_iff_dvd _ 2).1 hcast
  have hcoprime : IsCoprime ((2 : ℕ) : ℤ) p :=
    Nat.isCoprime_iff_coprime.2 (Nat.coprime_two_left.2 hp)
  obtain ⟨k, hk⟩ := hcoprime.mul_dvd htwo hdvd
  rw [Nat.cast_ofNat] at hk
  -- the difference is a multiple of `2 p` that is smaller than `2 p`
  have hk0 : k = 0 := by
    have hppos : (0 : ℤ) < p := by exact_mod_cast Nat.pos_of_ne_zero (NeZero.ne p)
    have h1 : 2 * (p : ℤ) * k < 2 * p := by omega
    have h2 : -(2 * (p : ℤ)) < 2 * p * k := by omega
    have hlt : k < 1 := by nlinarith
    have hgt : -1 < k := by nlinarith
    omega
  rw [hk0, mul_zero] at hk
  omega

theorem val_add_selectSum (hp : Odd p) (ds : List (ZMod 2 × ZMod p)) (v : ZMod p)
    (h : ∀ es : List (ZMod 2), es.length = ds.length →
      parity (v + selectSum es (ds.map Prod.snd)) = parity v + selectSum es (ds.map Prod.fst))
    (es : List (ZMod 2)) (hes : es.length = ds.length) :
    (((v + selectSum es (ds.map Prod.snd)).val : ℕ) : ℤ) =
      v.val + selectSum es (ds.map fun d => representative d.1 d.2) := by
  induction ds generalizing v es with
  | nil => simp
  | cons d ds ih =>
    obtain ⟨b, x⟩ := d
    cases es with
    | nil => simp at hes
    | cons e es =>
      have hes' : es.length = ds.length := by simpa using hes
      rcases eq_zero_or_one e with rfl | rfl
      · simp only [List.map_cons, selectSum_zero_cons]
        refine ih v (fun es' hlen => ?_) es hes'
        have h0 := h (0 :: es') (by simp [hlen])
        simpa only [List.map_cons, selectSum_zero_cons] using h0
      · have hx : parity (v + x) = parity v + b := by
          have h1 := h (1 :: List.replicate ds.length 0) (by simp)
          simp only [List.map_cons, selectSum_one_cons, selectSum_replicate_zero, add_zero] at h1
          exact h1
        simp only [List.map_cons, selectSum_one_cons]
        rw [← add_assoc, ih (v + x) (fun es' hlen => ?_) es hes', val_add_of_parity hp hx]
        · ring
        · have h1 := h (1 :: es') (by simp [hlen])
          simp only [List.map_cons, selectSum_one_cons, ← add_assoc] at h1
          rw [h1, hx]

/-- How far the residues can be moved: the sum of the absolute values of the representatives. -/
def spread (ds : List (ZMod 2 × ZMod p)) : ℤ :=
  ((ds.map fun d => representative d.1 d.2).map abs).sum

/-- Every partial sum from the start `v` has the predicted parity. -/
def Predicts (ds : List (ZMod 2 × ZMod p)) (v : ZMod p) (c : ZMod 2) : Prop :=
  ∀ es : List (ZMod 2), es.length = ds.length →
    parity (v + selectSum es (ds.map Prod.snd)) = c + selectSum es (ds.map Prod.fst)

theorem spread_lt_of_predicts (hp : Odd p) {ds : List (ZMod 2 × ZMod p)} {v : ZMod p} {c : ZMod 2}
    (h : Predicts ds v c) : spread ds < p := by
  have hc : c = parity v := by
    have h0 := h (List.replicate ds.length 0) (by simp)
    simpa only [selectSum_replicate_zero, add_zero, eq_comm] using h0
  subst hc
  obtain ⟨⟨lo, hlo, hlo'⟩, hi, hhi, hhi'⟩ :=
    exists_selectSum_eq (ds.map fun d => representative d.1 d.2)
  have hval := val_add_selectSum hp ds v h
  have h1 := hval lo (by simpa using hlo)
  have h2 := hval hi (by simpa using hhi)
  rw [hlo'] at h1
  rw [hhi'] at h2
  have hlt : ((v + selectSum hi (ds.map Prod.snd)).val : ℤ) < p := by
    exact_mod_cast ZMod.val_lt _
  unfold spread
  omega

theorem exists_predicts (hp : Odd p) {ds : List (ZMod 2 × ZMod p)} (h : spread ds < p) :
    ∃ v c, Predicts ds v c := by
  let zs := ds.map fun d => representative d.1 d.2
  refine ⟨((negPart zs : ℤ) : ZMod p), ((negPart zs : ℤ) : ZMod 2), fun es _ => ?_⟩
  have hsnd : ds.map Prod.snd = zs.map (Int.castRingHom (ZMod p)) := by
    simp [zs, cast_representative, Function.comp_def]
  have hfst : ds.map Prod.fst = zs.map (Int.castRingHom (ZMod 2)) := by
    simp [zs, cast_representative_two hp, Function.comp_def]
  obtain ⟨hlo, hhi⟩ := selectSum_bounds es zs
  have hspread : (zs.map abs).sum < p := h
  have hval : (((((negPart zs + selectSum es zs : ℤ) : ZMod p)).val : ℕ) : ℤ) =
      negPart zs + selectSum es zs := val_intCast (by omega) (by omega)
  rw [hsnd, hfst, selectSum_map, selectSum_map, eq_intCast, eq_intCast, ← Int.cast_add,
    ← Int.cast_add, parity, ← Int.cast_natCast (R := ZMod 2), hval]

end Residues

end Parity
