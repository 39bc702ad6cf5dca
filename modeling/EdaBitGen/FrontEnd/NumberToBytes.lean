import EdaBitGen.Algebra.Numerals

/-!
# Numbers as bytes

A number of the text reader is a list of words of 64 bits, the lowest first.  `number_to_bytes`
counts the bytes that are zero at its high end and keeps the others, or one if there is none.
-/

namespace EdaBitGen.FrontEnd

open Nat (ofDigits)

/-- The number that little-endian bytes denote. -/
def ofBytes (bytes : List UInt8) : ℕ := ofDigits 256 (bytes.map UInt8.toNat)

/-- The number that little-endian words denote. -/
def ofWords (words : List UInt64) : ℕ := ofDigits (2 ^ 64) (words.map UInt64.toNat)

def toLeBytes (u : UInt64) : List UInt8 :=
  (FixedDigits.digits 256 8 u.toNat).map UInt8.ofNat

/-- The zeros in front, and whether something else follows them. -/
def zerosOfWord : List UInt8 → ℕ × Bool
  | [] => (0, false)
  | b :: bs => if b = 0 then ((zerosOfWord bs).1 + 1, (zerosOfWord bs).2) else (0, true)

/-- The zero bytes at the high end, counted word by word from the highest on. -/
def countZeros : List UInt64 → ℕ
  | [] => 0
  | u :: us =>
    let (nbZeros, stop) := zerosOfWord (toLeBytes u).reverse
    if stop then nbZeros else nbZeros + countZeros us

/-- A vector of `real` zeros after the bytes have been written over it, until it is full. -/
def fill : ℕ → List UInt8 → List UInt8
  | 0, _ => []
  | real, [] => List.replicate real 0
  | real + 1, b :: bs => b :: fill real bs

def numberToBytes (words : List UInt64) : List UInt8 :=
  let total := 8 * words.length
  let nbZeros := countZeros words.reverse
  let real := if total - nbZeros = 0 then 1 else total - nbZeros
  fill real (words.flatMap toLeBytes)

/-! ## The number that the bytes denote -/

theorem ofBytes_append (xs ys : List UInt8) :
    ofBytes (xs ++ ys) = ofBytes xs + 256 ^ xs.length * ofBytes ys := by
  rw [ofBytes, List.map_append, Nat.ofDigits_append, List.length_map]
  rfl

theorem ofBytes_eq_zero {bytes : List UInt8} (h : ∀ b ∈ bytes, b = 0) : ofBytes bytes = 0 := by
  induction bytes with
  | nil => rfl
  | cons b bytes ih =>
    rw [List.forall_mem_cons] at h
    rw [ofBytes, List.map_cons, Nat.ofDigits_cons, h.1]
    have htail := ih h.2
    rw [ofBytes] at htail
    rw [htail]
    rfl

theorem length_toLeBytes (u : UInt64) : (toLeBytes u).length = 8 := by
  rw [toLeBytes, List.length_map, FixedDigits.length_digits]

theorem ofBytes_digits (n x : ℕ) :
    ofBytes ((FixedDigits.digits 256 n x).map UInt8.ofNat) = x % 256 ^ n := by
  have hdigits : ((FixedDigits.digits 256 n x).map UInt8.ofNat).map UInt8.toNat =
      FixedDigits.digits 256 n x := by
    rw [List.map_map]
    refine (List.map_congr_left fun d hd => ?_).trans (List.map_id _)
    have hlt := FixedDigits.lt_of_mem_digits (by decide) hd
    simp [Nat.mod_eq_of_lt hlt]
  rw [ofBytes, hdigits, FixedDigits.ofDigits_digits]

theorem ofBytes_toLeBytes (u : UInt64) : ofBytes (toLeBytes u) = u.toNat := by
  rw [toLeBytes, ofBytes_digits]
  exact Nat.mod_eq_of_lt u.toNat_lt

theorem ofBytes_flatMap (words : List UInt64) :
    ofBytes (words.flatMap toLeBytes) = ofWords words := by
  induction words with
  | nil => rfl
  | cons u words ih =>
    rw [List.flatMap_cons, ofBytes_append, ofBytes_toLeBytes, length_toLeBytes, ih, ofWords,
      ofWords, List.map_cons, Nat.ofDigits_cons]
    norm_num

/-! ## The count of zeros -/

theorem zerosOfWord_append (bs cs : List UInt8) :
    (zerosOfWord (bs ++ cs)).1 =
      if (zerosOfWord bs).2 then (zerosOfWord bs).1
      else (zerosOfWord bs).1 + (zerosOfWord cs).1 := by
  induction bs with
  | nil => simp [zerosOfWord]
  | cons b bs ih =>
    by_cases h : b = 0
    · simp only [List.cons_append, zerosOfWord, h, if_true, ih]
      split <;> omega
    · simp [zerosOfWord, h]

theorem countZeros_reverse (words : List UInt64) :
    countZeros words.reverse = (zerosOfWord (words.flatMap toLeBytes).reverse).1 := by
  have hall : ∀ us : List UInt64, countZeros us =
      (zerosOfWord (us.flatMap fun u => (toLeBytes u).reverse)).1 := fun us => by
    induction us with
    | nil => rfl
    | cons u us ih => rw [countZeros, List.flatMap_cons, zerosOfWord_append, ← ih]
  rw [hall, List.flatMap_reverse]
  rfl

theorem eq_zeros_append (bs : List UInt8) :
    bs = List.replicate (zerosOfWord bs).1 0 ++ bs.drop (zerosOfWord bs).1 := by
  induction bs with
  | nil => rfl
  | cons b bs ih =>
    by_cases h : b = 0
    · simp only [zerosOfWord, h, if_true, List.replicate_succ, List.drop_succ_cons,
        List.cons_append]
      rw [← ih]
    · simp [zerosOfWord, h]

theorem fill_eq_take {real : ℕ} {bytes : List UInt8} (h : real ≤ bytes.length) :
    fill real bytes = bytes.take real := by
  induction real generalizing bytes with
  | zero => cases bytes <;> rfl
  | succ real ih =>
    cases bytes with
    | nil => simp at h
    | cons b bs => rw [fill, List.take_succ_cons, ih (by simpa using h)]

theorem eq_append_zeros (bs : List UInt8) :
    bs = bs.take (bs.length - (zerosOfWord bs.reverse).1) ++
      List.replicate (zerosOfWord bs.reverse).1 0 := by
  have h := congrArg List.reverse (eq_zeros_append bs.reverse)
  rw [List.reverse_append, List.reverse_reverse, List.reverse_replicate, List.drop_reverse,
    List.reverse_reverse] at h
  exact h

theorem ofBytes_take_zeros (bs : List UInt8) :
    ofBytes (bs.take (bs.length - (zerosOfWord bs.reverse).1)) = ofBytes bs := by
  conv_rhs => rw [eq_append_zeros bs]
  rw [ofBytes_append, ofBytes_eq_zero fun b hb => List.eq_of_mem_replicate hb, mul_zero, add_zero]

theorem fill_one {bs : List UInt8} (h : ∀ b ∈ bs, b = 0) : fill 1 bs = [0] := by
  cases bs with
  | nil => rfl
  | cons b bs => rw [fill, fill, h b List.mem_cons_self]

theorem ofBytes_numberToBytes (words : List UInt64) :
    ofBytes (numberToBytes words) = ofWords words := by
  have hlength : (words.flatMap toLeBytes).length = 8 * words.length := by
    rw [List.length_flatMap, List.map_congr_left fun u _ => length_toLeBytes u, List.map_const',
      List.sum_replicate_nat, mul_comm]
  have htake := ofBytes_take_zeros (words.flatMap toLeBytes)
  rw [← ofBytes_flatMap, numberToBytes, countZeros_reverse, ← hlength]
  split
  · next hzero =>
    have hall := eq_append_zeros (words.flatMap toLeBytes)
    rw [hzero, List.take_zero, List.nil_append] at hall
    have hmem : ∀ b ∈ words.flatMap toLeBytes, b = 0 := fun b hb => by
      rw [hall] at hb
      exact List.eq_of_mem_replicate hb
    rw [fill_one hmem, ofBytes_eq_zero hmem]
    rfl
  · rw [fill_eq_take (Nat.sub_le _ _), htake]

end EdaBitGen.FrontEnd
