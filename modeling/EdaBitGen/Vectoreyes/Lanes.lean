import Mathlib

/-!
# Vector operations, lane by lane

A vector of `n` lanes of `w` bits is a function on `Fin n`. Every operation is the scalar one of the
crate: immediates of a shuffle are listed as in the source, the highest lane first.
-/

namespace EdaBitGen.Vectoreyes

abbrev Lanes (n w : ℕ) : Type := Fin n → BitVec w

/-- There are lanes in a vector of two and in one of four, as constants for the numerals of lanes. -/
theorem neZero_two : NeZero 2 := ⟨by decide⟩

theorem neZero_four : NeZero 4 := ⟨by decide⟩

abbrev U8x16 : Type := Lanes 16 8
abbrev U8x32 : Type := Lanes 32 8
abbrev U16x8 : Type := Lanes 8 16
abbrev U16x16 : Type := Lanes 16 16
abbrev U32x8 : Type := Lanes 8 32
abbrev U64x4 : Type := Lanes 4 64

/-! ## Reading the lanes at another width -/

section Cast

variable {n m w : ℕ}

/-- Two neighbouring lanes as one lane, the first of them in the low half. -/
def widen (x : Lanes (2 * n) w) : Lanes n (w + w) :=
  fun i => x ⟨2 * i + 1, by omega⟩ ++ x ⟨2 * i, by omega⟩

/-- Every lane as two lanes, its low half first. -/
def narrow (x : Lanes n (w + w)) : Lanes (2 * n) w :=
  fun i => (x ⟨i / 2, by omega⟩).extractLsb' (w * (i % 2)) w

/-- Lanes moved by `σ`, seen at half the width. -/
def double (σ : Fin n → Fin m) : Fin (2 * n) → Fin (2 * m) :=
  fun i => ⟨2 * σ ⟨i / 2, by omega⟩ + i % 2, by omega⟩

theorem extractLsb'_append_lo (a b : BitVec w) : (a ++ b).extractLsb' 0 w = b := by
  ext k hk
  simp [BitVec.getLsbD_append, hk, BitVec.getLsbD_eq_getElem]

theorem extractLsb'_append_hi (a b : BitVec w) : (a ++ b).extractLsb' w w = a := by
  ext k hk
  simp [BitVec.getLsbD_append, BitVec.getLsbD_eq_getElem hk]

theorem narrow_comp_widen (x : Lanes (2 * m) w) (σ : Fin n → Fin m) :
    narrow (widen x ∘ σ) = x ∘ double σ := by
  funext i
  have hparity : (i : ℕ) % 2 = 0 ∨ (i : ℕ) % 2 = 1 := by omega
  rcases hparity with h | h
  · simp [narrow, widen, double, h, extractLsb'_append_lo]
  · simp [narrow, widen, double, h, extractLsb'_append_hi]

theorem narrow_widen (x : Lanes (2 * n) w) : narrow (widen x) = x := by
  have hid : double (id : Fin n → Fin n) = id := by
    funext i
    exact Fin.ext (Nat.div_add_mod _ _)
  have := narrow_comp_widen x id
  rwa [hid] at this

theorem widen_narrow (x : Lanes n (w + w)) : widen (narrow x) = x := by
  funext i
  have hodd : (2 * (i : ℕ) + 1) / 2 = i := by omega
  simp [widen, narrow, hodd]

end Cast

def U16x8.ofU8x16 (x : U8x16) : U16x8 := widen (n := 8) (w := 8) x
def U32x8.ofU16x16 (x : U16x16) : U32x8 := widen (n := 8) (w := 16) x
def U64x4.ofU32x8 (x : U32x8) : U64x4 := widen (n := 4) (w := 32) x
def U64x4.ofU16x16 (x : U16x16) : U64x4 := U64x4.ofU32x8 (U32x8.ofU16x16 x)
def U16x16.ofU32x8 (x : U32x8) : U16x16 := narrow (n := 8) (w := 16) x
def U32x8.ofU64x4 (x : U64x4) : U32x8 := narrow (n := 4) (w := 32) x
def U16x16.ofU64x4 (x : U64x4) : U16x16 := U16x16.ofU32x8 (U32x8.ofU64x4 x)
def U8x32.ofU16x16 (x : U16x16) : U8x32 := narrow (n := 16) (w := 8) x

/-- The lower eight lanes of the first vector, then those of the second. -/
def U16x16.ofPair (lo hi : U16x8) : U16x16 :=
  fun i => if h : (i : ℕ) < 8 then lo ⟨i, h⟩ else hi ⟨i - 8, by omega⟩

theorem U16x8.ofU8x16_bijective : Function.Bijective U16x8.ofU8x16 :=
  Function.bijective_iff_has_inverse.mpr
    ⟨fun x => narrow (n := 8) (w := 8) x, narrow_widen (n := 8) (w := 8),
      widen_narrow (n := 8) (w := 8)⟩

/-! ## Moving lanes -/

/-- Which lane a shuffle of four lanes takes. -/
def select (i3 i2 i1 i0 : Fin 4) : Fin 4 → Fin 4 := ![i0, i1, i2, i3]

/-- Which lane a shuffle within each half of eight lanes takes. -/
def selectHalves (i3 i2 i1 i0 : Fin 4) : Fin 8 → Fin 8 :=
  fun k => ⟨4 * (k / 4) + select i3 i2 i1 i0 ⟨k % 4, by omega⟩, by omega⟩

def U64x4.shuffle (i3 i2 i1 i0 : Fin 4) (x : U64x4) : U64x4 := x ∘ select i3 i2 i1 i0

def U32x8.shuffle (i3 i2 i1 i0 : Fin 4) (x : U32x8) : U32x8 := x ∘ selectHalves i3 i2 i1 i0

/-- Lane `i` is taken from `ifTrue` where bit `i`, listed from the highest, is set. -/
def U32x8.blend (b7 b6 b5 b4 b3 b2 b1 b0 : Bool) (x ifTrue : U32x8) : U32x8 :=
  fun i => if ![b0, b1, b2, b3, b4, b5, b6, b7] i then ifTrue i else x i

def U32x8.shiftRight (bits : ℕ) (x : U32x8) : U32x8 := fun i => x i >>> bits

def U32x8.shiftLeft (bits : ℕ) (x : U32x8) : U32x8 := fun i => x i <<< bits

def U32x8.or (x y : U32x8) : U32x8 := fun i => x i ||| y i

/-- In each half, the lower four lanes of the two vectors in turn. -/
def U16x16.unpackLo (x other : U16x16) : U16x16 :=
  fun i =>
    if (i : ℕ) % 2 = 0 then x ⟨8 * (i / 8) + i % 8 / 2, by omega⟩
    else other ⟨8 * (i / 8) + i % 8 / 2, by omega⟩

/-- The lanes that `unpackLo` takes of a vector unpacked with itself. -/
def unpacked : Fin 16 → Fin 16 := fun i => ⟨8 * (i / 8) + i % 8 / 2, by omega⟩

theorem U16x16.unpackLo_self (x : U16x16) : x.unpackLo x = x ∘ unpacked := by
  funext i
  simp [U16x16.unpackLo, unpacked]

theorem U16x16.ofU32x8_shuffle (i3 i2 i1 i0 : Fin 4) (x : U16x16) :
    U16x16.ofU32x8 ((U32x8.ofU16x16 x).shuffle i3 i2 i1 i0) =
      x ∘ (double (selectHalves i3 i2 i1 i0) : Fin 16 → Fin 16) :=
  narrow_comp_widen (n := 8) (m := 8) (w := 16) x (selectHalves i3 i2 i1 i0)

theorem U32x8.ofU16x16_ofU32x8 (x : U32x8) : U32x8.ofU16x16 (U16x16.ofU32x8 x) = x :=
  widen_narrow (n := 8) (w := 16) x

theorem U64x4.ofU32x8_shuffle (i3 i2 i1 i0 : Fin 4) (x : U16x16) :
    U64x4.ofU32x8 ((U32x8.ofU16x16 x).shuffle i3 i2 i1 i0) =
      U64x4.ofU16x16 (x ∘ (double (selectHalves i3 i2 i1 i0) : Fin 16 → Fin 16)) := by
  rw [← U16x16.ofU32x8_shuffle, U64x4.ofU16x16, U32x8.ofU16x16_ofU32x8]

theorem U16x16.ofU64x4_shuffle (i3 i2 i1 i0 : Fin 4) (x : U16x16) :
    U16x16.ofU64x4 ((U64x4.ofU16x16 x).shuffle i3 i2 i1 i0) =
      x ∘ (double (double (select i3 i2 i1 i0)) : Fin 16 → Fin 16) := by
  have hwords : U32x8.ofU64x4 ((U64x4.ofU16x16 x).shuffle i3 i2 i1 i0) =
      U32x8.ofU16x16 x ∘ (double (select i3 i2 i1 i0) : Fin 8 → Fin 8) :=
    narrow_comp_widen (n := 4) (m := 4) (w := 32) (U32x8.ofU16x16 x) (select i3 i2 i1 i0)
  rw [U16x16.ofU64x4, hwords]
  exact narrow_comp_widen (n := 8) (m := 8) (w := 16) x _

theorem U16x16.ofU32x8_blend (b7 b6 b5 b4 b3 b2 b1 b0 : Bool) (x ifTrue : U16x16) (i : Fin 16) :
    U16x16.ofU32x8 ((U32x8.ofU16x16 x).blend b7 b6 b5 b4 b3 b2 b1 b0 (U32x8.ofU16x16 ifTrue)) i =
      if ![b0, b1, b2, b3, b4, b5, b6, b7] ⟨i / 2, by omega⟩ then ifTrue i else x i := by
  have hblend : U16x16.ofU32x8 ((U32x8.ofU16x16 x).blend b7 b6 b5 b4 b3 b2 b1 b0
      (U32x8.ofU16x16 ifTrue)) i =
      if ![b0, b1, b2, b3, b4, b5, b6, b7] ⟨i / 2, by omega⟩
      then narrow (n := 8) (w := 16) (U32x8.ofU16x16 ifTrue) i
      else narrow (n := 8) (w := 16) (U32x8.ofU16x16 x) i := by
    simp only [U16x16.ofU32x8, U32x8.blend, narrow]
    split_ifs <;> rfl
  rw [hblend, U32x8.ofU16x16, U32x8.ofU16x16, narrow_widen, narrow_widen]

/-- The neighbour of a lane in its pair. -/
def neighbour : Fin 16 → Fin 16 := fun i => ⟨2 * (i / 2) + (1 - i % 2), by omega⟩

theorem rotate_append (a b : BitVec 16) :
    (a ++ b) >>> 16 ||| (a ++ b) <<< 16 = b ++ a := by
  ext k hk
  simp only [BitVec.getElem_or, BitVec.getElem_ushiftRight, BitVec.getElem_shiftLeft,
    BitVec.getElem_append, BitVec.getLsbD_append]
  by_cases h : k < 16
  · simp [h, BitVec.getLsbD_eq_getElem]
  · have hge : b.getLsbD (16 + k) = false := BitVec.getLsbD_of_ge _ _ (by omega)
    have hlow : k - 16 < 16 := by omega
    simp [h, hlow, BitVec.getLsbD_of_ge a k (by omega)]

theorem U16x16.ofU32x8_rotate (x : U16x16) :
    U16x16.ofU32x8 (((U32x8.ofU16x16 x).shiftRight 16).or ((U32x8.ofU16x16 x).shiftLeft 16)) =
      x ∘ neighbour := by
  funext i
  have hpair : ((U32x8.ofU16x16 x).shiftRight 16).or ((U32x8.ofU16x16 x).shiftLeft 16)
      = fun j : Fin 8 => (x ⟨2 * j, by omega⟩ ++ x ⟨2 * j + 1, by omega⟩ : BitVec 32) := by
    funext j
    exact rotate_append _ _
  rw [hpair]
  have hparity : (i : ℕ) % 2 = 0 ∨ (i : ℕ) % 2 = 1 := by omega
  rcases hparity with h | h
  · simp only [U16x16.ofU32x8, narrow, neighbour, h, Function.comp_apply]
    exact extractLsb'_append_lo _ _
  · simp only [U16x16.ofU32x8, narrow, neighbour, h, Function.comp_apply]
    exact extractLsb'_append_hi _ _

/-! ## Comparing -/

/-- All ones in each lane where the two vectors agree. -/
def U16x16.cmpEq (x other : U16x16) : U16x16 :=
  fun i => if x i = other i then BitVec.allOnes 16 else 0

/-- One bit for each byte: its highest. -/
def U8x32.mostSignificantBits (x : U8x32) : BitVec 32 :=
  (List.finRange 32).foldl (fun out i => out ||| ((x i >>> 7).setWidth 32 <<< (i : ℕ))) 0#32

theorem foldl_or_eq_zero {α : Type*} {w : ℕ} (f : α → BitVec w) (l : List α) (init : BitVec w) :
    l.foldl (fun out a => out ||| f a) init = 0#w ↔ init = 0#w ∧ ∀ a ∈ l, f a = 0#w := by
  induction l generalizing init with
  | nil => simp
  | cons a l ih => rw [List.foldl_cons, ih, BitVec.or_eq_zero_iff, List.forall_mem_cons, and_assoc]

theorem highest_shifted_eq_zero (b : BitVec 8) (i : Fin 32) :
    (b >>> 7).setWidth 32 <<< (i : ℕ) = 0#32 ↔ b.getLsbD 7 = false := by
  constructor
  · intro h
    have hbit := congrArg (fun v : BitVec 32 => v.getLsbD i) h
    simpa [i.isLt] using hbit
  · intro h
    have hzero : b >>> 7 = 0#8 := by
      ext k hk
      by_cases hk0 : k = 0
      · subst hk0
        simpa using h
      · simp [BitVec.getLsbD_of_ge b (7 + k) (by omega)]
    rw [hzero]
    simp

theorem mostSignificantBits_cmpEq (x y : U16x16) :
    (U8x32.ofU16x16 (x.cmpEq y)).mostSignificantBits = 0#32 ↔ ∀ i, x i ≠ y i := by
  have hbyte : ∀ j : Fin 32, (U8x32.ofU16x16 (x.cmpEq y) j).getLsbD 7 = false ↔
      x ⟨j / 2, by omega⟩ ≠ y ⟨j / 2, by omega⟩ := by
    intro j
    simp only [U8x32.ofU16x16, narrow, U16x16.cmpEq]
    split_ifs with h
    · have hpos : 8 * ((j : ℕ) % 2) + 7 < 16 := by omega
      simp only [BitVec.getLsbD_extractLsb', BitVec.getLsbD_allOnes, h, hpos]
      simp
    · simp [h]
  rw [U8x32.mostSignificantBits, foldl_or_eq_zero]
  simp only [true_and, List.mem_finRange, forall_const, highest_shifted_eq_zero, hbyte]
  constructor
  · intro h i
    have := h ⟨2 * i, by omega⟩
    simpa using this
  · intro h j
    exact h _

end EdaBitGen.Vectoreyes
