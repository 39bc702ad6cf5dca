import Mathlib

/-!
# Bits in bytes

Bytes hold bits with the lowest one first. The transposition of a bit matrix goes over its bits one by
one.
-/

namespace EdaBitGen.Ocelot

abbrev Bytes : Type := List (BitVec 8)

def getBit (src : Bytes) (i : ℕ) : Bool := (src.getD (i / 8) 0).getLsbD (i % 8)

def setBit (dst : Bytes) (i : ℕ) (b : Bool) : Bytes :=
  dst.modify (i / 8) fun byte =>
    if b then byte ||| (1#8 <<< (i % 8)) else byte &&& ~~~(1#8 <<< (i % 8))

/-- The transposition of a matrix with `m` columns, into a destination. -/
def transposeNaiveInplace (dst src : Bytes) (m : ℕ) : Bytes :=
  let l := src.length * 8
  let n := l / m
  (List.range l).foldl (fun dst i => setBit dst (i % m * n + i / m) (getBit src i)) dst

/-- The length is divided by the number of columns, so that a matrix without columns stops the program. -/
def transpose (input : Bytes) (nrows ncols : ℕ) : Option Bytes :=
  if nrows % 8 = 0 ∧ ncols % 8 = 0 ∧ nrows * ncols = input.length * 8 ∧ ncols ≠ 0 then
    some (transposeNaiveInplace (List.replicate (nrows * ncols / 8) 0) input ncols)
  else none

def boolvecToU8vec (bv : List Bool) : Bytes :=
  let offset := if bv.length % 8 = 0 then 0 else 1
  bv.zipIdx.foldl (fun v b => v.modify (b.2 / 8) fun byte =>
    byte ||| (BitVec.ofNat 8 b.1.toNat <<< (b.2 % 8))) (List.replicate (bv.length / 8 + offset) 0)

def u8vecToBoolvec (v : Bytes) : List Bool :=
  v.flatMap fun byte => (List.range 8).map fun i => (1#8 <<< i) &&& byte != 0

def xorInplace (a b : Bytes) : Bytes := a.zipWith (· ^^^ ·) b ++ a.drop b.length

/-! ## Single bits -/

theorem getLsbD_oneShift {p q : ℕ} (hq : q < 8) : (1#8 <<< p).getLsbD q = decide (p = q) := by
  rw [← BitVec.twoPow_eq, BitVec.getLsbD_twoPow]
  by_cases h : p = q
  · subst h
    simp [hq]
  · simp [h]

theorem getD_modify (dst : Bytes) (f : BitVec 8 → BitVec 8) {k : ℕ} (hk : k < dst.length) (i : ℕ) :
    (dst.modify k f).getD i 0 = if i = k then f (dst.getD i 0) else dst.getD i 0 := by
  rw [List.getD_eq_getElem?_getD, List.getElem?_modify, List.getD_eq_getElem?_getD]
  by_cases h : i = k
  · subst h
    rw [List.getElem?_eq_getElem hk]
    simp
  · simp [h, Ne.symm h]

theorem getBit_setBit (dst : Bytes) {k : ℕ} (hk : k / 8 < dst.length) (b : Bool) (i : ℕ) :
    getBit (setBit dst k b) i = if i = k then b else getBit dst i := by
  have hmod : i % 8 < 8 := Nat.mod_lt _ (by omega)
  unfold getBit setBit
  rw [getD_modify _ _ hk]
  by_cases hbyte : i / 8 = k / 8
  · rw [if_pos hbyte]
    have hiff : (k % 8 = i % 8) ↔ i = k := by omega
    cases b with
    | true =>
      rw [if_pos rfl, BitVec.getLsbD_or, getLsbD_oneShift hmod]
      by_cases h : i = k
      · simp [h]
      · simp [hiff, h]
    | false =>
      rw [if_neg Bool.false_ne_true, BitVec.getLsbD_and, BitVec.getLsbD_not,
        getLsbD_oneShift hmod]
      by_cases h : i = k
      · simp [h]
      · simp [hiff, h, hmod]
  · rw [if_neg hbyte, if_neg (by omega)]

theorem length_setBit (dst : Bytes) (k : ℕ) (b : Bool) : (setBit dst k b).length = dst.length :=
  List.length_modify ..

theorem getBit_append (a b : Bytes) {i : ℕ} (hi : i < a.length * 8) :
    getBit (a ++ b) i = getBit a i := by
  unfold getBit
  rw [List.getD_append _ _ _ _ (by omega)]

theorem getBit_append_right (a b : Bytes) {i : ℕ} (hi : a.length * 8 ≤ i) :
    getBit (a ++ b) i = getBit b (i - a.length * 8) := by
  unfold getBit
  rw [List.getD_append_right _ _ _ _ (by omega), (by omega : i / 8 - a.length = (i - a.length * 8) / 8),
    (by omega : i % 8 = (i - a.length * 8) % 8)]

theorem getBit_slice (v : Bytes) (d : ℕ) {w i : ℕ} (hi : i < w * 8) :
    getBit ((v.drop d).take w) i = getBit v (d * 8 + i) := by
  unfold getBit
  have hlt : i / 8 < w := by omega
  rw [List.getD_eq_getElem?_getD, List.getElem?_take, if_pos hlt, List.getElem?_drop,
    List.getD_eq_getElem?_getD, (by omega : (d * 8 + i) / 8 = d + i / 8),
    (by omega : (d * 8 + i) % 8 = i % 8)]

theorem getBit_foldl (dst : Bytes) {place : ℕ → ℕ} {b : ℕ → Bool} {l : ℕ}
    (hplace : ∀ i < l, place i / 8 < dst.length)
    (hinj : ∀ i < l, ∀ j < l, place i = place j → i = j) :
    ((List.range l).foldl (fun dst i => setBit dst (place i) (b i)) dst).length = dst.length ∧
      ∀ i < l, getBit ((List.range l).foldl (fun dst i => setBit dst (place i) (b i)) dst)
        (place i) = b i := by
  induction l with
  | zero => exact ⟨rfl, fun i hi => absurd hi (Nat.not_lt_zero i)⟩
  | succ l ih =>
    have ⟨hlen, hbits⟩ := ih (fun i hi => hplace i (by omega))
      fun i hi j hj => hinj i (by omega) j (by omega)
    rw [List.range_succ, List.foldl_append, List.foldl_cons, List.foldl_nil]
    refine ⟨(length_setBit ..).trans hlen, fun i hi => ?_⟩
    rw [getBit_setBit _ (by rw [hlen]; exact hplace l (by omega))]
    by_cases hil : i = l
    · rw [if_pos (by rw [hil]), hil]
    · rw [if_neg fun h => hil (hinj i hi l (by omega) h)]
      exact hbits i (by omega)

theorem exists_transpose {input : Bytes} {nrows ncols : ℕ} (hrows : nrows % 8 = 0)
    (hcols : ncols % 8 = 0) (hpos : 0 < ncols) (hlen : nrows * ncols = input.length * 8) :
    ∃ out, transpose input nrows ncols = some out ∧ ∀ row < nrows, ∀ col < ncols,
      getBit out (col * nrows + row) = getBit input (row * ncols + col) := by
  refine ⟨_, if_pos ⟨hrows, hcols, hlen, by omega⟩, fun row hrow col hcol => ?_⟩
  have hn : input.length * 8 / ncols = nrows := by
    rw [← hlen, Nat.mul_div_cancel _ hpos]
  have hdiv : ∀ i < input.length * 8, i / ncols < nrows := by
    intro i hi
    rw [Nat.div_lt_iff_lt_mul hpos, hlen]
    exact hi
  have hplace : ∀ i < input.length * 8, (i % ncols * nrows + i / ncols) / 8 <
      (List.replicate (nrows * ncols / 8) (0 : BitVec 8)).length := by
    intro i hi
    rw [List.length_replicate, hlen, Nat.mul_div_cancel _ (by omega : 0 < 8),
      Nat.div_lt_iff_lt_mul (by omega), ← hlen, Nat.mul_comm nrows]
    have hmod : i % ncols + 1 ≤ ncols := Nat.mod_lt _ hpos
    have hmul := Nat.mul_le_mul_right nrows hmod
    have hlt := hdiv i hi
    rw [Nat.add_mul, Nat.one_mul] at hmul
    omega
  have hinj : ∀ i < input.length * 8, ∀ j < input.length * 8,
      i % ncols * nrows + i / ncols = j % ncols * nrows + j / ncols → i = j := by
    intro i hi j hj h
    have hdivi : i / ncols = j / ncols := by
      have hmod : (i % ncols * nrows + i / ncols) % nrows =
          (j % ncols * nrows + j / ncols) % nrows := by rw [h]
      rwa [Nat.mul_add_mod_self_right, Nat.mul_add_mod_self_right, Nat.mod_eq_of_lt (hdiv i hi),
        Nat.mod_eq_of_lt (hdiv j hj)] at hmod
    rw [hdivi] at h
    have hmod := Nat.eq_of_mul_eq_mul_right (by omega) (Nat.add_right_cancel h)
    rw [← Nat.div_add_mod i ncols, ← Nat.div_add_mod j ncols, hdivi, hmod]
  have hi : row * ncols + col < input.length * 8 := by
    rw [← hlen]
    have hmul := Nat.mul_le_mul_right ncols (Nat.succ_le_of_lt hrow)
    rw [Nat.succ_mul] at hmul
    omega
  have hbit := (getBit_foldl (List.replicate (nrows * ncols / 8) 0) hplace hinj (b := getBit input)).2
    _ hi
  have hcol' : (row * ncols + col) % ncols = col := by
    rw [Nat.mul_add_mod_self_right, Nat.mod_eq_of_lt hcol]
  have hrow' : (row * ncols + col) / ncols = row := by
    rw [Nat.add_comm, Nat.add_mul_div_right _ _ hpos, Nat.div_eq_of_lt hcol, Nat.zero_add]
  rw [hcol', hrow'] at hbit
  unfold transposeNaiveInplace
  dsimp only
  rw [hn]
  exact hbit

/-! ## Packed bits -/

theorem length_transpose {input out : Bytes} {nrows ncols : ℕ}
    (h : transpose input nrows ncols = some out) : out.length = nrows * ncols / 8 := by
  have hfold : ∀ (l : List ℕ) (dst : Bytes) (place : ℕ → ℕ) (b : ℕ → Bool),
      (l.foldl (fun dst i => setBit dst (place i) (b i)) dst).length = dst.length := by
    intro l
    induction l with
    | nil => exact fun dst place b => rfl
    | cons i l ih => exact fun dst place b => (ih _ place b).trans (length_setBit ..)
  unfold transpose at h
  split at h
  · rw [← Option.some.inj h]
    exact (hfold _ _ _ _).trans List.length_replicate
  · cases h

theorem getLsbD_bit {b : Bool} {p q : ℕ} (hq : q < 8) :
    (BitVec.ofNat 8 b.toNat <<< p).getLsbD q = (b && decide (p = q)) := by
  cases b with
  | false => simp
  | true => exact getLsbD_oneShift hq

theorem boolvec_foldl (bv : List Bool) (n : ℕ) (v : Bytes) (hlen : n + bv.length ≤ v.length * 8) :
    ((bv.zipIdx n).foldl (fun v b => v.modify (b.2 / 8) fun byte =>
      byte ||| (BitVec.ofNat 8 b.1.toNat <<< (b.2 % 8))) v).length = v.length ∧
    ∀ i, getBit ((bv.zipIdx n).foldl (fun v b => v.modify (b.2 / 8) fun byte =>
      byte ||| (BitVec.ofNat 8 b.1.toNat <<< (b.2 % 8))) v) i =
        (getBit v i || (decide (n ≤ i) && bv.getD (i - n) false)) := by
  induction bv generalizing n v with
  | nil => exact ⟨rfl, fun i => by simp⟩
  | cons b bv ih =>
    rw [List.length_cons] at hlen
    have hmodify : (v.modify (n / 8) fun byte =>
        byte ||| (BitVec.ofNat 8 b.toNat <<< (n % 8))).length = v.length := List.length_modify ..
    have ⟨hlen', hbits⟩ := ih (n + 1) (v.modify (n / 8) fun byte =>
      byte ||| (BitVec.ofNat 8 b.toNat <<< (n % 8))) (by rw [hmodify]; omega)
    rw [List.zipIdx_cons, List.foldl_cons]
    refine ⟨hlen'.trans hmodify, fun i => (hbits i).trans ?_⟩
    have hmod : i % 8 < 8 := Nat.mod_lt _ (by omega)
    have hbit : getBit (v.modify (n / 8) fun byte =>
        byte ||| (BitVec.ofNat 8 b.toNat <<< (n % 8))) i = (getBit v i || (b && decide (n = i))) := by
      unfold getBit
      rw [getD_modify _ _ (by omega)]
      by_cases hbyte : i / 8 = n / 8
      · have hiff : (n % 8 = i % 8) ↔ n = i := by omega
        rw [if_pos hbyte, BitVec.getLsbD_or, getLsbD_bit hmod]
        simp only [hiff]
      · have hne : ¬n = i := by omega
        rw [if_neg hbyte]
        simp [hne]
    rw [hbit]
    rcases Nat.lt_trichotomy i n with hlt | rfl | hgt
    · have hne : ¬n = i := by omega
      have hle : ¬n ≤ i := by omega
      have hle' : ¬n + 1 ≤ i := by omega
      simp [hne, hle, hle']
    · have hle : ¬i + 1 ≤ i := by omega
      simp [hle]
    · have hsub : i - n = i - (n + 1) + 1 := by omega
      have hne : ¬n = i := by omega
      have hle : n ≤ i := by omega
      have hle' : n + 1 ≤ i := hgt
      rw [hsub, List.getD_cons_succ]
      simp [hne, hle, hle']

theorem length_boolvecToU8vec (bv : List Bool) :
    (boolvecToU8vec bv).length = bv.length / 8 + if bv.length % 8 = 0 then 0 else 1 := by
  unfold boolvecToU8vec
  refine (boolvec_foldl bv 0 _ ?_).1.trans List.length_replicate
  rw [List.length_replicate]
  split <;> omega

theorem getBit_replicate (n i : ℕ) : getBit (List.replicate n 0) i = false := by
  unfold getBit
  rw [List.getD_eq_getElem?_getD, List.getElem?_replicate]
  split
  · exact BitVec.getLsbD_zero
  · exact BitVec.getLsbD_zero

theorem getBit_boolvecToU8vec (bv : List Bool) (i : ℕ) :
    getBit (boolvecToU8vec bv) i = bv.getD i false := by
  unfold boolvecToU8vec
  refine ((boolvec_foldl bv 0 _ ?_).2 i).trans ?_
  · rw [List.length_replicate]
    split <;> omega
  · rw [getBit_replicate]
    simp

theorem and_oneShift {w : ℕ} (x : BitVec w) {i : ℕ} (hi : i < w) :
    (x &&& (1#w <<< i) != 0) = x.getLsbD i := by
  rw [← BitVec.twoPow_eq, BitVec.and_twoPow]
  cases x.getLsbD i with
  | false => simp
  | true =>
    have hne : BitVec.twoPow w i ≠ 0 := by
      intro h
      have hbit := congrArg (BitVec.getLsbD · i) h
      simp [hi] at hbit
    simpa using hne

theorem u8vecToBoolvec_eq (v : Bytes) :
    u8vecToBoolvec v = (List.range (v.length * 8)).map (getBit v) := by
  induction v with
  | nil => rfl
  | cons byte v ih =>
    have hlen : (byte :: v).length * 8 = 8 + v.length * 8 := by
      rw [List.length_cons]
      omega
    have hfirst : (List.range 8).map (getBit (byte :: v)) =
        (List.range 8).map fun i => (1#8 <<< i) &&& byte != 0 := by
      refine List.map_congr_left fun i hi => ?_
      have hi := List.mem_range.1 hi
      rw [BitVec.and_comm, and_oneShift byte hi, getBit, Nat.div_eq_of_lt hi, Nat.mod_eq_of_lt hi]
      rfl
    have hrest : (List.range (v.length * 8)).map (getBit (byte :: v) ∘ (8 + ·)) =
        (List.range (v.length * 8)).map (getBit v) := by
      refine List.map_congr_left fun i _ => ?_
      show getBit (byte :: v) (8 + i) = getBit v i
      unfold getBit
      rw [(by omega : (8 + i) / 8 = i / 8 + 1), (by omega : (8 + i) % 8 = i % 8),
        List.getD_cons_succ]
    rw [hlen, List.range_add, List.map_append, List.map_map, hfirst, hrest, ← ih]
    rfl

theorem getBit_xorInplace {a b : Bytes} (h : a.length = b.length) (i : ℕ) :
    getBit (xorInplace a b) i = (getBit a i ^^ getBit b i) := by
  have hdrop : a.drop b.length = [] := List.drop_eq_nil_of_le (Nat.le_of_eq h)
  unfold getBit xorInplace
  rw [hdrop, List.append_nil, List.getD_eq_getElem?_getD, List.getD_eq_getElem?_getD,
    List.getD_eq_getElem?_getD, List.getElem?_zipWith]
  by_cases hi : i / 8 < a.length
  · rw [List.getElem?_eq_getElem hi, List.getElem?_eq_getElem (h ▸ hi)]
    exact BitVec.getLsbD_xor ..
  · rw [List.getElem?_eq_none (by omega), List.getElem?_eq_none (by omega)]
    simp

theorem length_xorInplace {a b : Bytes} (h : a.length = b.length) :
    (xorInplace a b).length = a.length := by
  unfold xorInplace
  rw [List.length_append, List.length_zipWith, List.length_drop]
  omega

theorem getBit_flatten {rows : List Bytes} {ncols : ℕ} (hcols : ncols % 8 = 0)
    (hrows : ∀ row ∈ rows, row.length = ncols / 8) {k j : ℕ} {row : Bytes} (hk : rows[k]? = some row)
    (hj : j < ncols) : getBit rows.flatten (k * ncols + j) = getBit row j := by
  induction rows generalizing k with
  | nil => cases hk
  | cons first rows ih =>
    have ⟨hfirst, hrest⟩ := List.forall_mem_cons.1 hrows
    rw [List.flatten_cons]
    cases k with
    | zero =>
      obtain rfl := Option.some.inj hk
      unfold getBit
      rw [Nat.zero_mul, Nat.zero_add, List.getD_append _ _ _ _ (by omega)]
    | succ k =>
      rw [← ih hrest hk]
      unfold getBit
      have hdiv : ((k + 1) * ncols + j) / 8 = first.length + (k * ncols + j) / 8 := by
        rw [Nat.succ_mul, hfirst]
        omega
      have hmod : ((k + 1) * ncols + j) % 8 = (k * ncols + j) % 8 := by
        rw [Nat.succ_mul]
        omega
      rw [hdiv, hmod, List.getD_append_right _ _ _ _ (by omega), Nat.add_sub_cancel_left]

end EdaBitGen.Ocelot
