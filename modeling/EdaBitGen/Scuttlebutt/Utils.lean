import EdaBitGen.Algebra.Rounding

/-!
# Bits in bytes

Bits are packed eight to a byte, the first one lowest.  The number of bytes is computed with a double,
so that from `2 ^ 53` bits on it depends on how the number of bits is rounded.
-/

namespace EdaBitGen.Utils

/-! ## The functions -/

/-- A number of bits as a double, divided by eight and rounded up. -/
def nbytes (n : ℕ) : ℕ := (Rounding.roundBits 53 n + 7) / 8

/-- The positions in byte `i` up to the first one that is not below `n`. -/
def positions (n i : ℕ) : List ℕ := (List.range 8).takeWhile fun j => 8 * i + j < n

def packByte (bits : List Bool) (i : ℕ) : BitVec 8 :=
  (positions bits.length i).foldl
    (fun byte j => byte ||| BitVec.setWidth 8 (BitVec.ofBool (bits.getD (8 * i + j) false)) <<< j) 0

/-- Pack a bit slice into bytes. -/
def packBits (bits : List Bool) : List (BitVec 8) :=
  (List.range (nbytes bits.length)).map (packByte bits)

def unpackByte (size i : ℕ) (byte : BitVec 8) : List Bool :=
  (positions size i).map fun j => byte >>> j &&& 1 != 0

/-- Unpack a bit vector from a slice of bytes. -/
def unpackBits (bytes : List (BitVec 8)) (size : ℕ) : List Bool :=
  bytes.zipIdx.flatMap fun byte => unpackByte size byte.2 byte.1

theorem positions_eq (n i : ℕ) : positions n i = List.range (min 8 (n - 8 * i)) := by
  have hrange : ∀ k, (List.range k).takeWhile (fun j => decide (8 * i + j < n)) =
      List.range (min k (n - 8 * i)) := by
    intro k
    induction k with
    | zero => simp
    | succ k ih =>
      rw [List.range_succ, List.takeWhile_append, ih]
      by_cases hk : 8 * i + k < n
      · have hall : min k (n - 8 * i) = k := by omega
        have hnext : min (k + 1) (n - 8 * i) = k + 1 := by omega
        rw [hall, if_pos rfl, hnext, List.range_succ]
        simp [hk]
      · by_cases hfull : k ≤ n - 8 * i
        · have hall : min k (n - 8 * i) = k := by omega
          have hnext : min (k + 1) (n - 8 * i) = k := by omega
          rw [hall, if_pos rfl, hnext]
          simp [hk]
        · have hall : min k (n - 8 * i) = n - 8 * i := by omega
          have hnext : min (k + 1) (n - 8 * i) = n - 8 * i := by omega
          rw [hall, hnext, if_neg (by simp; omega)]
  exact hrange 8

theorem getLsbD_foldl (f : ℕ → Bool) (k j : ℕ) :
    ((List.range k).foldl
      (fun byte j => byte ||| BitVec.setWidth 8 (BitVec.ofBool (f j)) <<< j) (0 : BitVec 8)).getLsbD j =
      (decide (j < 8) && decide (j < k) && f j) := by
  induction k with
  | zero => simp
  | succ k ih =>
    rw [List.range_succ, List.foldl_append, List.foldl_cons, List.foldl_nil, BitVec.getLsbD_or, ih,
      BitVec.getLsbD_shiftLeft, BitVec.getLsbD_setWidth, BitVec.getLsbD_ofBool]
    rcases lt_trichotomy j k with hlt | rfl | hgt
    · have hnext : j < k + 1 := by omega
      simp [hlt, hnext]
    · simp
    · have hle : ¬j < k + 1 := by omega
      have hnot : ¬j < k := by omega
      have hdiff : j - k ≠ 0 := by omega
      simp [hle, hnot, hdiff]

theorem getLsbD_packByte (bits : List Bool) (i j : ℕ) :
    (packByte bits i).getLsbD j = (decide (j < 8) && bits.getD (8 * i + j) false) := by
  rw [packByte, positions_eq, getLsbD_foldl]
  by_cases hj : 8 * i + j < bits.length
  · have hmin : j < 8 → j < min 8 (bits.length - 8 * i) := by omega
    by_cases h8 : j < 8 <;> simp [h8, hmin]
  · have hmin : ¬j < min 8 (bits.length - 8 * i) := by omega
    have hnone : bits.getD (8 * i + j) false = false := by
      rw [List.getD_eq_getElem?_getD, List.getElem?_eq_none (Nat.le_of_not_lt hj), Option.getD_none]
    rw [hnone, decide_eq_false hmin, Bool.and_false, Bool.and_false]

theorem unpackByte_eq (size i : ℕ) (byte : BitVec 8) :
    unpackByte size i byte = (List.range (min 8 (size - 8 * i))).map byte.getLsbD := by
  rw [unpackByte, positions_eq]
  refine List.map_congr_left fun j _ => ?_
  have hbit : ∀ b : BitVec 8, (b &&& 1 != 0) = b.getLsbD 0 := by decide
  rw [hbit, BitVec.getLsbD_ushiftRight, Nat.add_zero]

/-! ## All bytes -/

theorem getElem?_unpack (size : ℕ) (bytes : List (BitVec 8)) (i k : ℕ) :
    ((bytes.zipIdx i).flatMap fun byte => unpackByte size byte.2 byte.1)[k]? =
      if k < 8 * bytes.length ∧ 8 * i + k < size then
        some ((bytes.getD (k / 8) 0).getLsbD (k % 8)) else none := by
  induction bytes generalizing i k with
  | nil => simp
  | cons byte bytes ih =>
    rw [List.zipIdx_cons, List.flatMap_cons, unpackByte_eq, List.getElem?_append,
      List.length_map, List.length_range]
    by_cases hk : k < min 8 (size - 8 * i)
    · have hdiv : k / 8 = 0 := by omega
      have hmod : k % 8 = k := by omega
      have hin : k < 8 * (byte :: bytes).length ∧ 8 * i + k < size := by
        rw [List.length_cons]
        omega
      rw [if_pos hk, if_pos hin, hdiv, hmod, List.getElem?_map, List.getElem?_range hk]
      rfl
    · rw [if_neg hk, ih]
      by_cases hfull : 8 * i + 8 ≤ size
      · -- the first byte has all its bits
        have hmin : min 8 (size - 8 * i) = 8 := by omega
        rw [hmin] at hk ⊢
        have hdiv : k / 8 = (k - 8) / 8 + 1 := by omega
        have hmod : k % 8 = (k - 8) % 8 := by omega
        have hiff : (k - 8 < 8 * bytes.length ∧ 8 * (i + 1) + (k - 8) < size) ↔
            (k < 8 * (byte :: bytes).length ∧ 8 * i + k < size) := by
          rw [List.length_cons]
          omega
        rw [if_congr hiff rfl rfl, hdiv, hmod, List.getD_cons_succ]
      · have hafter : ¬8 * (i + 1) + (k - min 8 (size - 8 * i)) < size := by omega
        have hout : ¬8 * i + k < size := by omega
        rw [if_neg fun h => hafter h.2, if_neg fun h => hout h.2]

theorem getElem?_unpackBits (bytes : List (BitVec 8)) (size k : ℕ) :
    (unpackBits bytes size)[k]? = if k < 8 * bytes.length ∧ k < size then
      some ((bytes.getD (k / 8) 0).getLsbD (k % 8)) else none := by
  have h := getElem?_unpack size bytes 0 k
  rwa [Nat.mul_zero, Nat.zero_add] at h

theorem length_unpackBits (bytes : List (BitVec 8)) (size : ℕ) :
    (unpackBits bytes size).length = min (8 * bytes.length) size := by
  refine Nat.le_antisymm (Nat.le_of_not_lt fun hlt => ?_) (Nat.le_of_not_lt fun hlt => ?_)
  · have hsome := List.getElem?_eq_getElem hlt
    rw [getElem?_unpackBits, if_neg (by omega)] at hsome
    cases hsome
  · have hnone := List.getElem?_eq_none (Nat.le_refl (unpackBits bytes size).length)
    rw [getElem?_unpackBits, if_pos (by omega)] at hnone
    cases hnone

@[simp] theorem length_packBits (bits : List Bool) : (packBits bits).length = nbytes bits.length := by
  rw [packBits, List.length_map, List.length_range]

theorem getLsbD_packBits {bits : List Bool} {i j : ℕ} (hi : i < nbytes bits.length) (hj : j < 8) :
    ((packBits bits).getD i 0).getLsbD j = bits.getD (8 * i + j) false := by
  rw [List.getD_eq_getElem?_getD, packBits, List.getElem?_map, List.getElem?_range hi,
    Option.map_some, Option.getD_some, getLsbD_packByte, decide_eq_true hj, Bool.true_and]

theorem unpackBits_packBits (bits : List Bool) :
    unpackBits (packBits bits) bits.length = bits.take (8 * nbytes bits.length) := by
  refine List.ext_getElem? fun k => ?_
  rw [getElem?_unpackBits, length_packBits, List.getElem?_take]
  by_cases hk : k < 8 * nbytes bits.length
  · by_cases hbits : k < bits.length
    · have hsplit : 8 * (k / 8) + k % 8 = k := Nat.div_add_mod k 8
      rw [if_pos ⟨hk, hbits⟩, if_pos hk, getLsbD_packBits (by omega) (Nat.mod_lt k (by omega)), hsplit,
        List.getD_eq_getElem?_getD, List.getElem?_eq_getElem hbits, Option.getD_some]
    · rw [if_neg fun h => hbits h.2, if_pos hk, List.getElem?_eq_none (Nat.le_of_not_lt hbits)]
  · rw [if_neg fun h => hk h.1, if_neg hk]

/-- The bits of the bytes after the first `n` ones are zero. -/
def Padded (bytes : List (BitVec 8)) (n : ℕ) : Prop :=
  ∀ k, n ≤ k → (bytes.getD (k / 8) 0).getLsbD (k % 8) = false

theorem packBits_unpackBits {bytes : List (BitVec 8)} {n : ℕ} (hbytes : n ≤ 8 * bytes.length)
    (hpadded : Padded bytes n) {i : ℕ} (hi : i < nbytes n) :
    (packBits (unpackBits bytes n)).getD i 0 = bytes.getD i 0 := by
  have hlength : (unpackBits bytes n).length = n := by
    rw [length_unpackBits, Nat.min_eq_right hbytes]
  refine BitVec.eq_of_getLsbD_eq fun j hj => ?_
  have hdiv : (8 * i + j) / 8 = i := by omega
  have hmod : (8 * i + j) % 8 = j := by omega
  rw [getLsbD_packBits (by rwa [hlength]) hj, List.getD_eq_getElem?_getD, getElem?_unpackBits, hdiv,
    hmod]
  by_cases hk : 8 * i + j < n
  · rw [if_pos ⟨by omega, hk⟩, Option.getD_some]
  · have hzero := hpadded (8 * i + j) (Nat.le_of_not_lt hk)
    rw [hdiv, hmod] at hzero
    rw [if_neg fun h => hk h.2, Option.getD_none, hzero]

/-- Packing and unpacking `n` bits give the bits and the bytes back, in as many bytes as it takes. -/
structure Inverse (n : ℕ) : Prop where
  unpack_pack : ∀ v : List Bool, v.length = n → unpackBits (packBits v) n = v
  length : ∀ v : List Bool, v.length = n → (packBits v).length = (n + 7) / 8
  pack_unpack : ∀ bytes : List (BitVec 8), bytes.length = (n + 7) / 8 → Padded bytes n →
    packBits (unpackBits bytes n) = bytes

theorem inverse_of_nbytes {n : ℕ} (h : nbytes n = (n + 7) / 8) : Inverse n where
  unpack_pack v hv := by
    subst hv
    rw [unpackBits_packBits, List.take_of_length_le (by omega)]
  length v hv := by rw [length_packBits, hv, h]
  pack_unpack bytes hbytes hpadded := by
    have hlength : (packBits (unpackBits bytes n)).length = bytes.length := by
      rw [length_packBits, length_unpackBits, Nat.min_eq_right (by omega), h, hbytes]
    refine List.ext_getElem hlength fun i hi hi' => ?_
    have hbyte := packBits_unpackBits (by omega) hpadded (i := i) (by omega)
    rwa [List.getD_eq_getElem?_getD, List.getD_eq_getElem?_getD, List.getElem?_eq_getElem hi,
      List.getElem?_eq_getElem hi'] at hbyte

end EdaBitGen.Utils
