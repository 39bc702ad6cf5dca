import Mathlib

/-!
# Numerals

The digits of a number: limbs of one width, the lowest digits in a base, positions with radices of
their own, and the limbs of a machine word.
-/

/-!
## Limbs of a number

The limbs of a number in base `2 ^ w`, lowest first, and the number that limbs make.
-/

namespace Limbs

variable {R : Type} [CommSemiring R]

/-- The sum of the limbs with the powers of the base. -/
def recombine (w : ℕ) (cs : List R) : R :=
  (cs.zipIdx.map fun c => c.1 * 2 ^ (c.2 * w)).sum

theorem recombine_concat (w : ℕ) (cs : List R) (c : R) :
    recombine w (cs ++ [c]) = recombine w cs + c * 2 ^ (cs.length * w) := by
  simp [recombine, List.zipIdx_append]

theorem recombine_cast (w : ℕ) (cs : List ℕ) :
    recombine w (cs.map ((↑) : ℕ → R)) = (recombine w cs : ℕ) := by
  induction cs using List.reverseRecOn with
  | nil => simp [recombine]
  | append_singleton cs c ih =>
    rw [List.map_append, List.map_singleton, recombine_concat, recombine_concat, ih,
      List.length_map]
    push_cast
    rfl

theorem recombine_lt {w : ℕ} {cs : List ℕ} (h : ∀ c ∈ cs, c < 2 ^ w) :
    recombine w cs < 2 ^ (cs.length * w) := by
  induction cs using List.reverseRecOn with
  | nil => simp [recombine]
  | append_singleton cs c ih =>
    have hlt := ih fun d hd => h d (List.mem_append_left _ hd)
    have hc : c + 1 ≤ 2 ^ w := h c (by simp)
    rw [recombine_concat, List.length_append, List.length_singleton, Nat.succ_mul, pow_add]
    calc recombine w cs + c * 2 ^ (cs.length * w)
        < 2 ^ (cs.length * w) + c * 2 ^ (cs.length * w) := Nat.add_lt_add_right hlt _
      _ = (c + 1) * 2 ^ (cs.length * w) := by ring
      _ ≤ 2 ^ w * 2 ^ (cs.length * w) := Nat.mul_le_mul_right _ hc
      _ = 2 ^ (cs.length * w) * 2 ^ w := Nat.mul_comm _ _

/-- A limb below the highest one. -/
def limb (w x i : ℕ) : ℕ := x >>> (i * w) &&& (2 ^ w - 1)

theorem limb_lt (w x i : ℕ) : limb w x i < 2 ^ w := by
  rw [limb, Nat.and_two_pow_sub_one_eq_mod]
  exact Nat.mod_lt _ (Nat.two_pow_pos w)

theorem recombine_limbs (w x n : ℕ) :
    recombine w ((List.range n).map (limb w x)) = x % 2 ^ (n * w) := by
  induction n with
  | zero => simp [recombine, Nat.mod_one]
  | succ n ih =>
    rw [List.range_succ, List.map_append, List.map_singleton, recombine_concat, ih,
      List.length_map, List.length_range, limb, Nat.and_two_pow_sub_one_eq_mod,
      Nat.shiftRight_eq_div_pow, Nat.succ_mul, pow_add, Nat.mod_mul]
    ring

theorem recombine_limbs_concat (w x n : ℕ) :
    recombine w ((List.range n).map (limb w x) ++ [x >>> (n * w)]) = x := by
  rw [recombine_concat, recombine_limbs, List.length_map, List.length_range,
    Nat.shiftRight_eq_div_pow, Nat.mul_comm (x / _)]
  exact Nat.mod_add_div x _

/-- How many limbs cover `bits` bits. -/
def numChunks (bits w : ℕ) : ℕ := (bits + w - 1) / w

/-- The width of the highest limb. -/
def lastChunkSize (bits w : ℕ) : ℕ := if bits % w = 0 then w else bits % w

theorem numChunks_spec {bits w : ℕ} (hbits : 0 < bits) (hw : 0 < w) :
    0 < numChunks bits w ∧ 0 < lastChunkSize bits w ∧ lastChunkSize bits w ≤ w ∧
      (numChunks bits w - 1) * w + lastChunkSize bits w = bits := by
  have hdecomp := Nat.div_add_mod bits w
  have hlt := Nat.mod_lt bits hw
  rw [numChunks, lastChunkSize]
  by_cases hmod : bits % w = 0
  · have hq : 0 < bits / w := Nat.div_pos (Nat.le_of_dvd hbits (Nat.dvd_of_mod_eq_zero hmod)) hw
    have hnum : (bits + w - 1) / w = bits / w := by
      rw [show bits + w - 1 = w * (bits / w) + (w - 1) by omega, Nat.mul_add_div hw,
        Nat.div_eq_of_lt (show w - 1 < w by omega), Nat.add_zero]
    obtain ⟨q, hq'⟩ : ∃ q, bits / w = q + 1 := ⟨bits / w - 1, by omega⟩
    rw [hnum, if_pos hmod, hq']
    rw [hq', hmod] at hdecomp
    refine ⟨Nat.succ_pos q, hw, le_rfl, ?_⟩
    rw [Nat.add_sub_cancel, ← Nat.succ_mul, Nat.mul_comm]
    exact hdecomp
  · have hnum : (bits + w - 1) / w = bits / w + 1 := by
      rw [show bits + w - 1 = w * (bits / w + 1) + (bits % w - 1) by
        rw [Nat.mul_succ]; omega, Nat.mul_add_div hw,
        Nat.div_eq_of_lt (show bits % w - 1 < w by omega), Nat.add_zero]
    rw [hnum, if_neg hmod, Nat.add_sub_cancel, Nat.mul_comm]
    exact ⟨Nat.succ_pos _, Nat.pos_of_ne_zero hmod, hlt.le, hdecomp⟩

theorem recombine_lt_of_sizes {bits w : ℕ} (hbits : 0 < bits) (hw : 0 < w) {cs : List ℕ}
    (hlen : cs.length = numChunks bits w) (h : ∀ i c, cs[i]? = some c →
      c < 2 ^ if i = numChunks bits w - 1 then lastChunkSize bits w else w) :
    recombine w cs < 2 ^ bits := by
  obtain ⟨hpos, -, -, hsum⟩ := numChunks_spec hbits hw
  obtain ⟨init, last, rfl⟩ : ∃ init last, cs = init ++ [last] := by
    obtain rfl | hcs := List.eq_nil_or_concat' cs
    · rw [List.length_nil] at hlen
      omega
    · exact hcs
  rw [List.length_append, List.length_singleton] at hlen
  have hinit : ∀ c ∈ init, c < 2 ^ w := by
    intro c hc
    obtain ⟨i, hi, rfl⟩ := List.getElem_of_mem hc
    have hlt := h i init[i] (by rw [List.getElem?_append_left hi, List.getElem?_eq_getElem hi])
    rwa [if_neg (by omega)] at hlt
  have hlast : last + 1 ≤ 2 ^ lastChunkSize bits w := by
    have hlt := h init.length last (by simp)
    rwa [if_pos (by omega)] at hlt
  have hlow := recombine_lt hinit
  rw [recombine_concat, ← hsum, pow_add, ← hlen, Nat.add_sub_cancel]
  calc recombine w init + last * 2 ^ (init.length * w)
      < 2 ^ (init.length * w) + last * 2 ^ (init.length * w) := Nat.add_lt_add_right hlow _
    _ = 2 ^ (init.length * w) * (last + 1) := by ring
    _ ≤ 2 ^ (init.length * w) * 2 ^ lastChunkSize bits w := Nat.mul_le_mul_left _ hlast

end Limbs

/-!
## Numerals of a fixed length

The digits of a number in a base, the lowest first, for a number of digits given beforehand.
-/

namespace FixedDigits

open Nat (ofDigits)

/-- The `n` lowest digits of `x`. -/
def digits (q n x : ℕ) : List ℕ := (List.range n).map fun i => x / q ^ i % q

variable {q n x : ℕ}

@[simp] theorem length_digits (q n x : ℕ) : (digits q n x).length = n := by
  rw [digits, List.length_map, List.length_range]

theorem lt_of_mem_digits (hq : 0 < q) {d : ℕ} (hd : d ∈ digits q n x) : d < q := by
  obtain ⟨i, -, rfl⟩ := List.mem_map.1 hd
  exact Nat.mod_lt _ hq

theorem take_digits {m : ℕ} (hm : m ≤ n) : (digits q n x).take m = digits q m x := by
  rw [digits, ← List.map_take, List.take_range, Nat.min_eq_left hm, digits]

theorem ofDigits_digits (q n x : ℕ) : ofDigits q (digits q n x) = x % q ^ n := by
  induction n with
  | zero => simp [digits, Nat.mod_one]
  | succ n ih =>
    rw [digits] at ih ⊢
    rw [List.range_succ, List.map_append, List.map_singleton, Nat.ofDigits_append, ih,
      Nat.ofDigits_singleton, List.length_map, List.length_range, Nat.mod_pow_succ]

theorem ofDigits_lt (hq : 1 < q) {ds : List ℕ} (hds : ∀ d ∈ ds, d < q) :
    ofDigits q ds < q ^ ds.length :=
  Nat.ofDigits_lt_base_pow_length hq hds

theorem digits_ofDigits (hq : 1 < q) {ds : List ℕ} (hds : ∀ d ∈ ds, d < q) :
    digits q ds.length (ofDigits q ds) = ds := by
  refine Nat.ofDigits_inj_of_len_eq hq (length_digits _ _ _)
    (fun d hd => lt_of_mem_digits (by omega) hd) hds ?_
  rw [ofDigits_digits, Nat.mod_eq_of_lt (ofDigits_lt hq hds)]

/-! ## Addition -/

/-- What is left of a carry above the shorter numeral. -/
def carryOn (q c : ℕ) : List ℕ → List ℕ
  | [] => []
  | x :: xs => if q ≤ x + c then (x + c - q) :: carryOn q c xs else (x + c) :: xs

/-- The columns of a sum, with a carry of at most one. -/
def addWith (q : ℕ) : ℕ → List ℕ → List ℕ → List ℕ
  | c, xs, [] => carryOn q c xs
  | _, [], _ :: _ => []
  | c, x :: xs, y :: ys =>
    if q ≤ x + (y + c) then (x + (y + c) - q) :: addWith q 1 xs ys
    else (x + (y + c)) :: addWith q 0 xs ys

theorem addWith_nil (q c : ℕ) (xs : List ℕ) : addWith q c xs [] = carryOn q c xs := by
  cases xs <;> rfl

theorem length_carryOn (q c : ℕ) (xs : List ℕ) : (carryOn q c xs).length = xs.length := by
  induction xs with
  | nil => rfl
  | cons x xs ih =>
    rw [carryOn]
    split
    · rw [List.length_cons, ih, List.length_cons]
    · rfl

theorem carryOn_lt {c : ℕ} (hc : c ≤ 1) {xs : List ℕ} (hxs : ∀ d ∈ xs, d < q) :
    ∀ d ∈ carryOn q c xs, d < q := by
  induction xs with
  | nil => exact fun d hd => absurd hd List.not_mem_nil
  | cons x xs ih =>
    rw [List.forall_mem_cons] at hxs
    rw [carryOn]
    split
    · exact List.forall_mem_cons.2 ⟨by omega, ih hxs.2⟩
    · exact List.forall_mem_cons.2 ⟨by omega, hxs.2⟩

theorem ofDigits_carryOn {c : ℕ} (hc : c ≤ 1) {xs : List ℕ} (hxs : ∀ d ∈ xs, d < q)
    (hfit : ofDigits q xs + c < q ^ xs.length) : ofDigits q (carryOn q c xs) = ofDigits q xs + c := by
  induction xs with
  | nil =>
    rw [Nat.ofDigits_nil, List.length_nil, pow_zero] at hfit
    rw [carryOn, Nat.ofDigits_nil]
    omega
  | cons x xs ih =>
    rw [List.forall_mem_cons] at hxs
    rw [Nat.ofDigits_cons, List.length_cons, pow_succ'] at hfit
    rw [carryOn]
    split
    · next hge =>
      -- the carry was one and the digit is zero
      have hc1 : c = 1 := by omega
      have hx : x + 1 = q := by omega
      subst hc1
      have hsum : x + q * ofDigits q xs + 1 = q * (ofDigits q xs + 1) := by
        rw [← hx]
        ring
      rw [hsum] at hfit
      rw [Nat.ofDigits_cons, Nat.ofDigits_cons, ih hxs.2 (Nat.lt_of_mul_lt_mul_left hfit), hx,
        Nat.sub_self, hsum, Nat.zero_add]
    · rw [Nat.ofDigits_cons, Nat.ofDigits_cons]
      ring

theorem length_addWith (q c : ℕ) (xs ys : List ℕ) (hlength : ys.length ≤ xs.length) :
    (addWith q c xs ys).length = xs.length := by
  induction ys generalizing c xs with
  | nil => rw [addWith_nil, length_carryOn]
  | cons y ys ih =>
    cases xs with
    | nil => exact absurd hlength (by simp)
    | cons x xs =>
      rw [List.length_cons, List.length_cons] at hlength
      rw [addWith]
      split <;> rw [List.length_cons, ih _ _ (by omega), List.length_cons]

theorem addWith_lt {c : ℕ} (hc : c ≤ 1) {xs ys : List ℕ} (hxs : ∀ d ∈ xs, d < q)
    (hys : ∀ d ∈ ys, d < q) : ∀ d ∈ addWith q c xs ys, d < q := by
  induction ys generalizing c xs with
  | nil =>
    rw [addWith_nil]
    exact carryOn_lt hc hxs
  | cons y ys ih =>
    rw [List.forall_mem_cons] at hys
    cases xs with
    | nil => exact fun d hd => absurd hd List.not_mem_nil
    | cons x xs =>
      rw [List.forall_mem_cons] at hxs
      rw [addWith]
      split
      · exact List.forall_mem_cons.2 ⟨by omega, ih le_rfl hxs.2 hys.2⟩
      · exact List.forall_mem_cons.2 ⟨by omega, ih (Nat.zero_le _) hxs.2 hys.2⟩

theorem ofDigits_addWith {c : ℕ} (hc : c ≤ 1) {xs ys : List ℕ} (hxs : ∀ d ∈ xs, d < q)
    (hys : ∀ d ∈ ys, d < q) (hlength : ys.length ≤ xs.length)
    (hfit : ofDigits q xs + ofDigits q ys + c < q ^ xs.length) :
    ofDigits q (addWith q c xs ys) = ofDigits q xs + ofDigits q ys + c := by
  induction ys generalizing c xs with
  | nil =>
    rw [Nat.ofDigits_nil, Nat.add_zero] at hfit ⊢
    rw [addWith_nil, ofDigits_carryOn hc hxs hfit]
  | cons y ys ih =>
    cases xs with
    | nil => exact absurd hlength (by simp)
    | cons x xs =>
      rw [List.forall_mem_cons] at hxs hys
      rw [List.length_cons, List.length_cons] at hlength
      rw [Nat.ofDigits_cons, Nat.ofDigits_cons, List.length_cons, pow_succ'] at hfit
      rw [addWith, Nat.ofDigits_cons, Nat.ofDigits_cons]
      split
      · next hge =>
        have hsum : x + q * ofDigits q xs + (y + q * ofDigits q ys) + c =
            x + (y + c) - q + q * (ofDigits q xs + ofDigits q ys + 1) := by
          calc x + q * ofDigits q xs + (y + q * ofDigits q ys) + c
              = x + (y + c) + q * (ofDigits q xs + ofDigits q ys) := by ring
            _ = x + (y + c) - q + q + q * (ofDigits q xs + ofDigits q ys) := by
              rw [Nat.sub_add_cancel hge]
            _ = x + (y + c) - q + q * (ofDigits q xs + ofDigits q ys + 1) := by ring
        rw [hsum] at hfit
        have hrest := Nat.lt_of_mul_lt_mul_left (lt_of_le_of_lt (Nat.le_add_left _ _) hfit)
        rw [Nat.ofDigits_cons, ih le_rfl hxs.2 hys.2 (by omega) hrest, hsum]
      · have hsum : x + q * ofDigits q xs + (y + q * ofDigits q ys) + c =
            x + (y + c) + q * (ofDigits q xs + ofDigits q ys + 0) := by
          ring
        rw [hsum] at hfit
        have hrest := Nat.lt_of_mul_lt_mul_left (lt_of_le_of_lt (Nat.le_add_left _ _) hfit)
        rw [Nat.ofDigits_cons, ih (Nat.zero_le _) hxs.2 hys.2 (by omega) hrest, hsum]

/-- Numerals are added as the numbers are, when the sum fits into the longer one. -/
theorem addWith_digits (hq : 1 < q) {m y : ℕ} (hmn : m ≤ n) (hy : y < q ^ m)
    (hfit : x + y < q ^ n) : addWith q 0 (digits q n x) (digits q m y) = digits q n (x + y) := by
  have hdigits : ∀ n x, ∀ d ∈ digits q n x, d < q := fun n x d => lt_of_mem_digits (by omega)
  have hlength : (digits q m y).length ≤ (digits q n x).length := by
    rwa [length_digits, length_digits]
  have hvalue : ofDigits q (digits q n x) + ofDigits q (digits q m y) = x + y := by
    rw [ofDigits_digits, ofDigits_digits, Nat.mod_eq_of_lt hy, Nat.mod_eq_of_lt (by omega)]
  refine Nat.ofDigits_inj_of_len_eq hq ?_
    (addWith_lt (Nat.zero_le _) (hdigits _ _) (hdigits _ _)) (hdigits _ _) ?_
  · rw [length_addWith _ _ _ _ hlength, length_digits, length_digits]
  · rw [ofDigits_addWith (Nat.zero_le _) (hdigits _ _) (hdigits _ _) hlength
        (by rw [hvalue, length_digits]; exact hfit),
      hvalue, ofDigits_digits, Nat.mod_eq_of_lt hfit, Nat.add_zero]

end FixedDigits

/-!
## Mixed-radix numerals

Numerals whose positions have radices of their own, the lowest first, and the carries of a sum of
columns.
-/

namespace MixedRadix

open Finset

variable (q d : ℕ → ℕ)

/-- The weight of position `i`. -/
def weight (i : ℕ) : ℕ := ∏ j ∈ range i, q j

/-- The number with `n` digits. -/
def value (n : ℕ) : ℕ := ∑ i ∈ range n, d i * weight q i

/-- A number's digit at position `i`. -/
def digit (x i : ℕ) : ℕ := x / weight q i % q i

/-- The carry into column `i`. -/
def carry : ℕ → ℕ
  | 0 => 0
  | i + 1 => (d i + carry i) / q i

@[simp] theorem weight_zero : weight q 0 = 1 := prod_range_zero q

theorem weight_succ (i : ℕ) : weight q (i + 1) = weight q i * q i := prod_range_succ q i

@[simp] theorem value_zero : value q d 0 = 0 := rfl

theorem value_succ (n : ℕ) : value q d (n + 1) = value q d n + d n * weight q n :=
  sum_range_succ _ n

variable {q}

theorem weight_pos {n : ℕ} (hq : ∀ i < n, 0 < q i) : 0 < weight q n :=
  prod_pos fun i hi => hq i (mem_range.1 hi)

theorem carry_eq {n : ℕ} (hq : ∀ i < n, 0 < q i) : carry q d n = value q d n / weight q n := by
  induction n with
  | zero => rw [value_zero, Nat.zero_div]; rfl
  | succ n ih =>
    have hpos := weight_pos fun i hi => hq i (Nat.lt_succ_of_lt hi)
    rw [carry, ih fun i hi => hq i (Nat.lt_succ_of_lt hi), value_succ, weight_succ,
      ← Nat.div_div_eq_div_mul, Nat.add_mul_div_right _ _ hpos, Nat.add_comm]

theorem exists_value (n k : ℕ) : ∃ r, value q d (n + k) = value q d n + weight q n * r := by
  induction k with
  | zero => exact ⟨0, rfl⟩
  | succ k ih =>
    obtain ⟨r, hr⟩ := ih
    obtain ⟨w, hw⟩ : weight q n ∣ weight q (n + k) :=
      prod_dvd_prod_of_subset _ _ q (range_mono (Nat.le_add_right n k))
    refine ⟨r + d (n + k) * w, ?_⟩
    rw [← Nat.add_assoc, value_succ, hr, hw]
    ring

theorem digit_value {n i : ℕ} (hq : ∀ j < n, 0 < q j) (hi : i < n) :
    digit q (value q d n) i = (d i + carry q d i) % q i := by
  obtain ⟨k, rfl⟩ := Nat.exists_eq_add_of_lt hi
  have hpos : 0 < weight q i := weight_pos fun j hj => hq j (by omega)
  obtain ⟨r, hr⟩ := exists_value (q := q) d (i + 1) k
  rw [show i + k + 1 = i + 1 + k by omega, digit, hr, value_succ, weight_succ,
    carry_eq d fun j hj => hq j (by omega)]
  rw [show value q d i + d i * weight q i + weight q i * q i * r =
    value q d i + (d i + q i * r) * weight q i by ring, Nat.add_mul_div_right _ _ hpos]
  rw [← Nat.add_assoc, Nat.add_mul_mod_self_left, Nat.add_comm]

theorem value_digit (x n : ℕ) : value q (digit q x) n = x % weight q n := by
  induction n with
  | zero => rw [value_zero, weight_zero, Nat.mod_one]
  | succ n ih => rw [value_succ, ih, weight_succ, digit, Nat.mod_mul, Nat.mul_comm (_ % _)]

theorem digit_succ (x i : ℕ) : digit q x (i + 1) = digit (fun j => q (j + 1)) (x / q 0) i := by
  rw [digit, digit, weight, prod_range_succ', Nat.mul_comm, ← Nat.div_div_eq_div_mul]
  rfl

theorem value_sum (ds : List (ℕ → ℕ)) (n : ℕ) :
    (ds.map fun d => value q d n).sum = value q (fun i => (ds.map fun d => d i).sum) n := by
  induction ds with
  | nil => simp [value]
  | cons d ds ih =>
    rw [List.map_cons, List.sum_cons, ih, value, value, value, ← sum_add_distrib]
    exact sum_congr rfl fun i _ => by rw [List.map_cons, List.sum_cons, Nat.add_mul]

end MixedRadix

/-!
## Little-endian limbs

A machine word as a list of narrower ones, the lowest first.
-/

namespace LittleEndian

variable {w m : ℕ}

/-- The `n` lowest limbs of `w` bits. -/
def limbs (w n : ℕ) (x : BitVec m) : List (BitVec w) :=
  (List.range n).map fun i => x.extractLsb' (i * w) w

def ofLimbs (m : ℕ) : List (BitVec w) → BitVec m
  | [] => 0
  | l :: ls => l.setWidth m ||| (ofLimbs m ls <<< w)

@[simp] theorem length_limbs (w n : ℕ) (x : BitVec m) : (limbs w n x).length = n := by
  rw [limbs, List.length_map, List.length_range]

theorem getLsbD_ofLimbs (hw : 0 < w) (ls : List (BitVec w)) {k : ℕ} (hk : k < m) :
    (ofLimbs m ls).getLsbD k = (ls.getD (k / w) 0).getLsbD (k % w) := by
  induction ls generalizing k with
  | nil => simp [ofLimbs]
  | cons l ls ih =>
    rw [ofLimbs, BitVec.getLsbD_or, BitVec.getLsbD_setWidth, BitVec.getLsbD_shiftLeft]
    by_cases hlt : k < w
    · rw [Nat.div_eq_of_lt hlt, Nat.mod_eq_of_lt hlt]
      simp [hk, hlt]
    · obtain ⟨j, rfl⟩ := Nat.exists_eq_add_of_le' (Nat.le_of_not_lt hlt)
      have hlow : l.getLsbD (j + w) = false := BitVec.getLsbD_of_ge _ _ (by omega)
      have hj : j < m := by omega
      rw [Nat.add_div_right j hw, Nat.add_mod_right, List.getD_cons_succ, ← ih hj, hlow]
      simp [hk, hlt]

theorem ofLimbs_limbs (hw : 0 < w) {n : ℕ} (hm : n * w = m) (x : BitVec m) :
    ofLimbs m (limbs w n x) = x := by
  refine BitVec.eq_of_getLsbD_eq fun k hk => ?_
  have hdiv : k / w < n := Nat.div_lt_of_lt_mul (by rwa [Nat.mul_comm, hm])
  have hlimb : (limbs w n x).getD (k / w) 0 = x.extractLsb' (k / w * w) w := by
    rw [limbs, List.getD_eq_getElem?_getD, List.getElem?_map, List.getElem?_range hdiv]
    rfl
  rw [getLsbD_ofLimbs hw _ hk, hlimb, BitVec.getLsbD_extractLsb',
    decide_eq_true (Nat.mod_lt k hw), Bool.true_and, Nat.div_add_mod']

end LittleEndian
