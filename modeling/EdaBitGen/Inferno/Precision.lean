import EdaBitGen.Algebra.Rounding
import EdaBitGen.Inferno.Forgery
import EdaBitGen.Inferno.Sizes

/-!
# Sizes in single precision

The lengths are divided in single precision.  Up to `2 ^ 24` multiplications the sizes are those
without rounding, and fit.  With one more, the cache of compression factor eight is filled for eight
chunks, and there are nine.
-/

namespace EdaBitGen.Inferno

open Rounding

/-! ## Sizes without rounding -/

section Exact

variable {float : Float} {nmuls compressionFactor bound : ℕ}

/-- The sizes are not rounded for lengths up to a bound, and no logarithm is too large. -/
structure Float.ExactTo (float : Float) (bound : ℕ) : Prop where
  ceilDiv : ∀ n ≤ bound, ∀ k, 0 < k ∨ n = 0 → float.ceilDiv n k = (n + k - 1) / k
  log : ∀ n ≤ bound, ∀ k, float.log n k ≤ Nat.log k n

theorem chunks_le (n : ℕ) {k : ℕ} (hk : 0 < k) :
    (n + (n + k - 1) / k - 1) / ((n + k - 1) / k) ≤ k := by
  have hle := le_ceilDiv_mul n hk
  generalize (n + k - 1) / k = d at hle
  rcases Nat.eq_zero_or_pos d with rfl | hd
  · rw [Nat.div_zero]
    exact Nat.zero_le k
  · refine Nat.le_of_lt_succ (Nat.div_lt_of_lt_mul ?_)
    rw [Nat.mul_succ, Nat.mul_comm d k]
    rw [Nat.mul_comm] at hle
    omega

theorem two_le_chunks {n k : ℕ} (hk : 2 ≤ k) (hn : 2 ≤ n) :
    2 ≤ (n + (n + k - 1) / k - 1) / ((n + k - 1) / k) := by
  have hlt : (n + k - 1) / k < n := by
    refine Nat.div_lt_of_lt_mul ?_
    obtain ⟨m, rfl⟩ := Nat.exists_eq_add_of_le hn
    have : (2 + m) * 2 ≤ (2 + m) * k := Nat.mul_le_mul_left _ hk
    have : k * (2 + m) = 2 * k + m * k := by ring
    have : m * 2 ≤ m * k := Nat.mul_le_mul_left _ hk
    omega
  have hpos : 0 < (n + k - 1) / k := Nat.div_pos (by omega) (by omega)
  rw [Nat.le_div_iff_mul_le hpos]
  omega

variable (hfloat : float.ExactTo bound) (hbound : nmuls ≤ bound) (hk : 2 ≤ compressionFactor)
include hfloat hbound hk

theorem roundLength_le (i : ℕ) : roundLength float nmuls compressionFactor i ≤ bound := by
  induction i with
  | zero => exact hbound
  | succ i ih =>
    rw [roundLength_succ, hfloat.ceilDiv _ ih _ (.inl (by omega))]
    exact (ceilDiv_le (by omega)).trans ih

theorem ceilDiv_roundLength (i : ℕ) :
    float.ceilDiv (roundLength float nmuls compressionFactor i) compressionFactor =
      (roundLength float nmuls compressionFactor i + compressionFactor - 1) / compressionFactor :=
  hfloat.ceilDiv _ (roundLength_le hfloat hbound hk i) _ (.inl (by omega))

theorem le_roundLength_mul (i : ℕ) :
    nmuls ≤ roundLength float nmuls compressionFactor i * compressionFactor ^ i := by
  induction i with
  | zero => exact (Nat.mul_one nmuls).ge
  | succ i ih =>
    rw [roundLength_succ, ceilDiv_roundLength hfloat hbound hk, pow_succ', ← mul_assoc]
    exact ih.trans (Nat.mul_le_mul_right _ (le_ceilDiv_mul _ (by omega)))

theorem two_le_roundLength {i : ℕ} (hi : i < float.log nmuls compressionFactor) :
    2 ≤ roundLength float nmuls compressionFactor i := by
  have hlog : i + 1 ≤ Nat.log compressionFactor nmuls :=
    Nat.lt_of_lt_of_le hi (hfloat.log _ hbound _)
  have hne : nmuls ≠ 0 := by
    rintro rfl
    rw [Nat.log_zero_right] at hlog
    omega
  have hpow : compressionFactor * compressionFactor ^ i ≤
      roundLength float nmuls compressionFactor i * compressionFactor ^ i :=
    calc compressionFactor * compressionFactor ^ i = compressionFactor ^ (i + 1) :=
          (pow_succ' _ _).symm
      _ ≤ nmuls := Nat.pow_le_of_le_log hne hlog
      _ ≤ _ := le_roundLength_mul hfloat hbound hk i
  exact hk.trans (Nat.le_of_mul_le_mul_right hpow (Nat.pow_pos (by omega)))

theorem cachedChunks_eq (i : ℕ) : cachedChunks float nmuls compressionFactor i =
    countedChunks float nmuls compressionFactor i := by
  rw [cachedChunks, countedChunks]
  refine hfloat.ceilDiv _ (roundLength_le hfloat hbound hk i) _ ?_
  rw [ceilDiv_roundLength hfloat hbound hk]
  rcases Nat.eq_zero_or_pos (roundLength float nmuls compressionFactor i) with hzero | hpos
  · exact .inr hzero
  · exact .inl (Nat.div_pos (by omega) (by omega))

theorem Float.ExactTo.fits : Fits float nmuls compressionFactor := by
  have hcached := cachedChunks_eq hfloat hbound hk
  have hdimension := ceilDiv_roundLength hfloat hbound hk
  have hlog : ∀ i < nrounds float nmuls compressionFactor,
      i + 1 < float.log nmuls compressionFactor := by
    intro i hi
    rw [nrounds] at hi
    split at hi <;> omega
  refine ⟨fun i hi => ?_, fun hrounds i hi => ⟨?_, ?_, i, hi, Iff.rfl, (hcached i).symm⟩⟩
  · have hle := chunks_le (roundLength float nmuls compressionFactor i)
      (k := compressionFactor) (by omega)
    rw [hcached, countedChunks, hdimension]
    split
    · exact hle
    · have hlt : i < nrounds float nmuls compressionFactor := by omega
      have hi_lt := hlog i hlt
      exact ⟨two_le_chunks hk (two_le_roundLength hfloat hbound hk (by omega)), by omega⟩
  · have hlast := hlog _ (Nat.sub_lt hrounds Nat.one_pos)
    have htwo := two_le_roundLength hfloat hbound hk (i := i) (by omega)
    rw [hdimension]
    exact (Nat.div_pos (by omega) (by omega)).ne'
  · have hlast := hlog _ (Nat.sub_lt hrounds Nat.one_pos)
    have htwo := two_le_roundLength hfloat hbound hk (i := i) (by omega)
    rw [countedChunks, hdimension]
    exact (Nat.lt_of_lt_of_le Nat.two_pos (two_le_chunks hk htwo)).ne'

end Exact

/-! ## Single precision -/

section Single

/-- The quotient of two lengths in single precision, rounded up; infinity becomes the largest
length. -/
def ceilDivSingle (n k : ℕ) : ℕ :=
  let a := roundBits 24 n
  let b := roundBits 24 k
  if b = 0 ∧ a ≠ 0 then 2 ^ 64 - 1 else ceilQuotient 24 a b

/-- Quotients in single precision, and given logarithms. -/
def single (log : ℕ → ℕ → ℕ) : Float where
  log := log
  ceilDiv := ceilDivSingle

theorem ceilDivSingle_eq {n k : ℕ} (hn : n ≤ 2 ^ 24) (hk : 0 < k) :
    ceilDivSingle n k = (n + k - 1) / k := by
  have hp : 0 < 24 := by decide
  rw [ceilDivSingle, roundBits_of_le hp hn]
  rcases Nat.le_total k (2 ^ 24) with hle | hge
  · rw [roundBits_of_le hp hle, if_neg (by omega), ceilQuotient_eq hp hk hn]
  · have hround := le_roundBits hp hge
    generalize roundBits 24 k = b at hround
    have hb : 0 < b := by omega
    rw [if_neg (by omega), ceilQuotient_eq hp hb hn]
    rcases Nat.eq_zero_or_pos n with rfl | hpos
    · rw [Nat.zero_add, Nat.zero_add, Nat.div_eq_of_lt (by omega), Nat.div_eq_of_lt (by omega)]
    · rw [ceilDiv_eq (m := 0) hb (by omega) (by omega),
        ceilDiv_eq (m := 0) hk (by omega) (by omega)]

theorem single_exactTo {log : ℕ → ℕ → ℕ} (hlog : ∀ n ≤ 2 ^ 24, ∀ k, log n k ≤ Nat.log k n) :
    (single log).ExactTo (2 ^ 24) where
  ceilDiv n hn k hk := by
    rcases Nat.eq_zero_or_pos k with rfl | hpos
    · obtain rfl : n = 0 := hk.resolve_left (lt_irrefl 0)
      change ceilDivSingle 0 0 = _
      decide
    · exact ceilDivSingle_eq hn hpos
  log := hlog

theorem fits_single {log : ℕ → ℕ → ℕ} (hlog : ∀ n ≤ 2 ^ 24, ∀ k, log n k ≤ Nat.log k n)
    {nmuls compressionFactor : ℕ} (hk : 2 ≤ compressionFactor) (hnmuls : nmuls ≤ 2 ^ 24) :
    Fits (single log) nmuls compressionFactor :=
  (single_exactTo hlog).fits hnmuls hk

end Single

/-! ## Many squares -/

section Squares

variable {F : Type} [Field F]

/-- The square of the input, once and `m` times again. -/
def squares (m : ℕ) : Circuit F where
  ops := List.replicate (m + 1) (.mul 0 0)
  ninputs := 1
  noutputs := 1
  noutputs_le := by simp
  args_lt p hp n hn := by
    rw [List.eq_of_mem_replicate (List.fst_mem_of_mem_zipIdx hp)] at hn
    obtain rfl : n = 0 := by simpa [Op.args] using hn
    omega

omit [Field F] in
theorem nmuls_squares (m : ℕ) : (squares m : Circuit F).nmuls = m + 1 := by
  rw [Circuit.nmuls, squares, List.filter_replicate,
    if_pos (show (Op.mul 0 0 : Op F).isMul = true from rfl), List.length_replicate]

theorem foldl_replicate {step : List F → Op F → List F} {op : Op F}
    (hstep : ∀ n, step (List.replicate (n + 1) 0) op = List.replicate (n + 2) 0) (j n : ℕ) :
    (List.replicate n op).foldl step (List.replicate (j + 1) 0) =
      List.replicate (j + n + 1) 0 := by
  induction n generalizing j with
  | zero => rfl
  | succ n ih =>
    rw [List.replicate_succ (n := n), List.foldl_cons, hstep, ih (j + 1)]
    congr 1
    omega

theorem squares_accepts (m : ℕ) : (squares m : Circuit F).Accepts [0] := by
  have hwires : (squares m : Circuit F).wires [0] = List.replicate (m + 1 + 1) 0 := by
    have hstep : ∀ n, List.replicate (n + 1) (0 : F) ++ [(List.replicate (n + 1) (0 : F)).getD 0 0 *
        (List.replicate (n + 1) (0 : F)).getD 0 0] = List.replicate (n + 2) 0 := fun n => by
      rw [List.replicate_succ' (n := n + 1)]
      simp
    exact (foldl_replicate hstep 0 (m + 1)).trans (by rw [Nat.zero_add])
  refine ⟨rfl, ?_⟩
  rw [Circuit.eval, hwires]
  simp [squares]

theorem orderOf_generator : 2 * 8 < orderOf (37 : F61p) := by
  have hpos : 0 < orderOf (37 : F61p) :=
    orderOf_pos_iff.2 (isOfFinOrder_iff_pow_eq_one.2
      ⟨2 ^ 61 - 1 - 1, by decide, ZMod.pow_card_sub_one_eq_one (by decide)⟩)
  by_contra hle
  have hpow := pow_orderOf_eq_one (37 : F61p)
  have hall : ∀ i < 17, 0 < i → (37 : F61p) ^ i ≠ 1 := by
    decide +kernel
  exact hall _ (by omega) hpos hpow

theorem complete_squares : Complete (single fun n k => Nat.log k n) plainEncoding
    (⟨id, fun _ _ _ => []⟩ : HashOracle (List UInt8)) (squares 63) 8 (37 : F61p) [0]
      (fun _ : Fin 16 => 0) (fun _ => ⟨fun _ _ => 0, fun _ => (0, 0)⟩) :=
  (complete_iff (single fun n k => Nat.log k n) plainEncoding ⟨id, fun _ _ _ => []⟩
    orderOf_generator ⟨4, rfl⟩ (squares_accepts 63) (fun _ => 0)
      fun _ => ⟨fun _ _ => 0, fun _ => (0, 0)⟩).2
    (nmuls_squares (F := F61p) 63 ▸ fits_single (fun _ _ _ => le_rfl) (by decide) (by decide))

/-- In single precision `2 ^ 24 + 1` rounds to `2 ^ 24`, and the cache is filled for eight chunks, not
for nine. -/
theorem not_fits_squares : ¬ Fits (single fun n k => Nat.log k n) (2 ^ 24 + 1) 8 := by
  have hlog : Nat.log 8 (2 ^ 24 + 1) = 8 :=
    (Nat.log_eq_iff (.inl (by decide))).2 ⟨by decide, by decide⟩
  have hrounds : nrounds (single fun n k => Nat.log k n) (2 ^ 24 + 1) 8 = 7 := by
    rw [nrounds]
    change (if Nat.log 8 (2 ^ 24 + 1) > 0 then Nat.log 8 (2 ^ 24 + 1) - 1 else _) = 7
    rw [hlog]
    rfl
  intro hfits
  obtain ⟨-, -, j, hj, -, hcount⟩ := hfits.counted (by rw [hrounds]; decide) 0 (Nat.zero_le _)
  rw [hrounds] at hj
  have hall : ∀ j ≤ 7, countedChunks (single fun n k => Nat.log k n) (2 ^ 24 + 1) 8 0 ≠
      cachedChunks (single fun n k => Nat.log k n) (2 ^ 24 + 1) 8 j := by
    decide +kernel
  exact hall j hj hcount

theorem squares_not_complete : (squares (2 ^ 24) : Circuit F61p).Accepts [0] ∧
    2 * 8 < orderOf (37 : F61p) ∧
    ¬ Complete (single fun n k => Nat.log k n) plainEncoding
      (⟨id, fun _ _ _ => []⟩ : HashOracle (List UInt8)) (squares (2 ^ 24)) 8 (37 : F61p) [0]
        (fun _ : Fin 16 => 0) (fun _ => ⟨fun _ _ => 0, fun _ => (0, 0)⟩) := by
  refine ⟨squares_accepts _, orderOf_generator, fun hcomplete => ?_⟩
  have hfits := hcomplete.fits ⟨4, rfl⟩ (squares_accepts _)
  rw [nmuls_squares] at hfits
  exact not_fits_squares hfits

end Squares

end EdaBitGen.Inferno
