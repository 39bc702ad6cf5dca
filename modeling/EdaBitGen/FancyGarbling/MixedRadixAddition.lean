import EdaBitGen.Algebra.Numerals
import EdaBitGen.FancyGarbling.Dummy

/-!
# Mixed-radix addition

The columns are added one after the other, and the carry of a column is looked up in a table of all
its sums.
-/

namespace EdaBitGen.FancyGarbling

open MixedRadix

/-- The bundle of a numeral with `n` digits. -/
def numeral (q : ℕ → ℕ) (n : ℕ) (d : ℕ → ℕ) : Bundle DummyVal :=
  (List.range n).map fun i => ⟨d i, q i⟩

/-- The largest carry into a column. -/
def maxCarry (q : ℕ → ℕ) (nargs : ℕ) : ℕ → ℕ := carry q fun i => nargs * (q i - 1)

/-- The largest sum of a column. -/
def maxSum (q : ℕ → ℕ) (nargs i : ℕ) : ℕ := nargs * (q i - 1) + maxCarry q nargs i

/-- The sum of a column. -/
def columnSum (args : List (ℕ → ℕ)) (i : ℕ) : ℕ := (args.map fun d => d i).sum

/-- Numerals with the digits of their radices, at least one of them. -/
structure Numerals (q : ℕ → ℕ) (n : ℕ) (args : List (ℕ → ℕ)) : Prop where
  nonempty : args ≠ []
  digits : ∀ d ∈ args, ∀ i < n, d i < q i

namespace Numerals

variable {q : ℕ → ℕ} {n : ℕ} {args : List (ℕ → ℕ)}

theorem pos (h : Numerals q n args) {i : ℕ} (hi : i < n) : 0 < q i := by
  obtain ⟨d, hd⟩ := List.exists_mem_of_ne_nil args h.nonempty
  exact Nat.zero_lt_of_lt (h.digits d hd i hi)

theorem columnSum_le (h : Numerals q n args) {i : ℕ} (hi : i < n) :
    columnSum args i ≤ args.length * (q i - 1) := by
  have hle := List.sum_le_card_nsmul (args.map fun d => d i) (q i - 1) ?_
  · simpa [columnSum] using hle
  · intro v hv
    obtain ⟨d, hd, rfl⟩ := List.mem_map.1 hv
    have hlt := h.digits d hd i hi
    omega

theorem carry_le (h : Numerals q n args) {i : ℕ} (hi : i ≤ n) :
    carry q (columnSum args) i ≤ maxCarry q args.length i := by
  induction i with
  | zero => exact le_rfl
  | succ i ih =>
    exact Nat.div_le_div_right (Nat.add_le_add (h.columnSum_le hi) (ih (by omega)))

theorem add_carry_le (h : Numerals q n args) {i : ℕ} (hi : i < n) :
    columnSum args i + carry q (columnSum args) i ≤ maxSum q args.length i :=
  Nat.add_le_add (h.columnSum_le hi) (h.carry_le hi.le)

theorem le_maxSum (h : Numerals q n args) (i : ℕ) :
    q i ≤ maxSum q args.length i + 1 := by
  have hlength : 1 ≤ args.length := List.length_pos_of_ne_nil h.nonempty
  have hmul := Nat.mul_le_mul_right (q i - 1) hlength
  unfold maxSum
  omega

end Numerals

/-! ## The gates of a column -/

section Gates

variable {q : ℕ → ℕ} {n : ℕ}

theorem moduli_numeral (d : ℕ → ℕ) : moduli (numeral q n d) = (List.range n).map q := by
  rw [moduli, numeral, List.map_map]
  rfl

theorem commonModuli_numerals {args : List (ℕ → ℕ)} (h : args ≠ []) :
    (commonModuli (args.map (numeral q n)) : Dummy _) = .ok ((List.range n).map q) := by
  obtain ⟨d, ds, rfl⟩ := List.exists_cons_of_ne_nil h
  rw [List.map_cons, commonModuli, if_pos]
  · rw [moduli_numeral]
    rfl
  · intro y hy
    obtain ⟨e, -, rfl⟩ := List.mem_map.1 hy
    rw [moduli_numeral, moduli_numeral]

theorem index_moduli {i : ℕ} (hi : i < n) :
    (index ((List.range n).map q) i : Dummy ℕ) = .ok (q i) := index_eq (by simp [hi])

theorem column_numerals (args : List (ℕ → ℕ)) {i : ℕ} (hi : i < n) :
    (column (args.map (numeral q n)) i : Dummy _) = .ok (args.map fun d => ⟨d i, q i⟩) :=
  mapM_ok args fun d _ => index_eq (by simp [numeral, hi])

theorem columnMax_eq {nargs p c : ℕ} (hp : 0 < p) (h : nargs * (p - 1) + c < 2 ^ 16) :
    (columnMax nargs p c : Dummy ℕ) = .ok (nargs * (p - 1) + c) := by
  have hproduct : nargs % 2 ^ 16 * (p - 1) = nargs * (p - 1) := by
    obtain hone | htwo : p - 1 = 0 ∨ 1 ≤ p - 1 := by omega
    · rw [hone, Nat.mul_zero, Nat.mul_zero]
    · have hle := Nat.mul_le_mul_left nargs htwo
      rw [Nat.mod_eq_of_lt (by omega)]
  rw [columnMax, if_neg hp.ne', hproduct, word_eq (by omega), ok_bind, word_eq h]

theorem addCarry_some {s c p : ℕ} (hp : 0 < p) (h : s + c < 2 ^ 16) :
    (addCarry ⟨s % p, p⟩ (some ⟨c % p, p⟩) : Dummy DummyVal) = .ok ⟨(s + c) % p, p⟩ := by
  have hs := Nat.mod_le s p
  have hc := Nat.mod_le c p
  rw [addCarry, add_eq hp (by omega), ← Nat.add_mod]

/-- What a column needs that is not the last one: its largest sum and one more are words. -/
def Fits (q : ℕ → ℕ) (nargs n : ℕ) : Prop := ∀ i, i + 1 < n → maxSum q nargs i + 1 < 2 ^ 16

variable {args : List (ℕ → ℕ)}

theorem maxSum_div (q : ℕ → ℕ) (nargs i : ℕ) : maxSum q nargs i / q i = maxCarry q nargs (i + 1) :=
  rfl

theorem mapM_modChange (h : Numerals q n args) {i : ℕ} (hi : i < n) :
    ((args.map fun d => DummyVal.mk (d i) (q i)).mapM fun d =>
        (modChange d (maxSum q args.length i + 1) : Dummy DummyVal)) =
      .ok ((args.map fun d => d i).map fun v => ⟨v, maxSum q args.length i + 1⟩) := by
  rw [List.map_map]
  refine mapM_ok args fun d hd => ?_
  have hdigit := h.digits d hd i hi
  have hle := h.le_maxSum i
  rw [modChange_eq hdigit (Nat.succ_pos _), Nat.mod_eq_of_lt (by omega)]
  rfl

theorem carrySum (h : Numerals q n args) (htwo : 2 ≤ args.length) {i : ℕ} (hi : i < n)
    (hfits : maxSum q args.length i + 1 < 2 ^ 16) :
    (addMany ((args.map fun d => d i).map fun v =>
        DummyVal.mk v (maxSum q args.length i + 1)) : Dummy DummyVal) =
      .ok ⟨columnSum args i % (maxSum q args.length i + 1), maxSum q args.length i + 1⟩ := by
  have hle := h.add_carry_le hi
  refine addMany_eq (by rwa [List.length_map]) ?_ ?_
  · intro v hv
    obtain ⟨d, hd, rfl⟩ := List.mem_map.1 hv
    have hdigit := h.digits d hd i hi
    have hlt := h.le_maxSum i
    omega
  · change columnSum args i < _
    omega

theorem proj_carry (h : Numerals q n args) {i : ℕ} (hi : i < n) {p : ℕ} {f : ℕ → ℕ}
    (hf : ∀ v ≤ maxSum q args.length i, f v < p) :
    (proj ⟨(columnSum args i + carry q (columnSum args) i) % (maxSum q args.length i + 1),
        maxSum q args.length i + 1⟩ p
        (some ((List.range (maxSum q args.length i + 1)).map f)) : Dummy DummyVal) =
      .ok ⟨f (columnSum args i + carry q (columnSum args) i), p⟩ := by
  have hle := h.add_carry_le hi
  rw [Nat.mod_eq_of_lt (by omega)]
  exact proj_range le_rfl (by omega) fun e he => hf e (by omega)

end Gates

/-! ## The columns of an addition -/

section Columns

variable {q : ℕ → ℕ} {n : ℕ} {args : List (ℕ → ℕ)}

/-- The carries into a column, before the last one was added. -/
def carriesAt (q : ℕ → ℕ) (args : List (ℕ → ℕ)) (n : ℕ) : ℕ → Carries DummyVal
  | 0 => ⟨none, none, 0⟩
  | i + 1 =>
    ⟨some ⟨carry q (columnSum args) (i + 1) % q (i + 1), q (i + 1)⟩,
      if i + 2 < n then
        some ⟨carry q (columnSum args) (i + 1) % (maxSum q args.length (i + 1) + 1),
          maxSum q args.length (i + 1) + 1⟩
      else none,
      maxCarry q args.length (i + 1)⟩

theorem carriesAt_maxCarry (i : ℕ) : (carriesAt q args n i).maxCarry = maxCarry q args.length i := by
  cases i <;> rfl

theorem addCarry_carryCarry (h : Numerals q n args) {i : ℕ} (hi : i + 1 < n)
    (hfits : maxSum q args.length i + 1 < 2 ^ 16) :
    (addCarry ⟨columnSum args i % (maxSum q args.length i + 1), maxSum q args.length i + 1⟩
        (carriesAt q args n i).carryCarry : Dummy DummyVal) =
      .ok ⟨(columnSum args i + carry q (columnSum args) i) % (maxSum q args.length i + 1),
        maxSum q args.length i + 1⟩ := by
  cases i with
  | zero => rfl
  | succ i =>
    have hle := h.add_carry_le (by omega : i + 1 < n)
    rw [carriesAt]
    dsimp only
    rw [if_pos hi]
    exact addCarry_some (Nat.succ_pos _) (by omega)

theorem nextCarryCarry_eq (h : Numerals q n args) {i : ℕ} (hi : i + 1 < n) :
    (nextCarryCarry ⟨carry q (columnSum args) (i + 1) % q (i + 1), q (i + 1)⟩
        ⟨(columnSum args i + carry q (columnSum args) i) % (maxSum q args.length i + 1),
          maxSum q args.length i + 1⟩ (q i) (maxSum q args.length i) (q (i + 1))
        (maxSum q args.length (i + 1) + 1) : Dummy DummyVal) =
      .ok ⟨carry q (columnSum args) (i + 1) % (maxSum q args.length (i + 1) + 1),
        maxSum q args.length (i + 1) + 1⟩ := by
  have hcarry := h.carry_le hi.le
  have hnext := h.pos hi
  have hmax : maxCarry q args.length (i + 1) ≤ maxSum q args.length (i + 1) := Nat.le_add_left _ _
  rw [nextCarryCarry, maxSum_div]
  split
  · next hlt =>
    have hmod : carry q (columnSum args) (i + 1) % q (i + 1) = carry q (columnSum args) (i + 1) :=
      Nat.mod_eq_of_lt (by omega)
    rw [hmod, modChange_eq (by omega) (Nat.succ_pos _)]
  · have htable : ∀ v ≤ maxSum q args.length i, v / q i < maxSum q args.length (i + 1) + 1 := by
      intro v hv
      have hdiv : v / q i ≤ maxCarry q args.length (i + 1) := Nat.div_le_div_right hv
      omega
    have hvalue : (columnSum args i + carry q (columnSum args) i) / q i =
        carry q (columnSum args) (i + 1) := rfl
    rw [proj_carry h (by omega) htable, hvalue, Nat.mod_eq_of_lt (by omega)]

theorem nextCarries_eq (h : Numerals q n args) (htwo : 2 ≤ args.length)
    (hsums : ∀ i < n, maxSum q args.length i < 2 ^ 16) (hfits : Fits q args.length n) {i : ℕ}
    (hi : i + 1 < n) :
    (nextCarries ((List.range n).map q) args.length i (args.map fun d => ⟨d i, q i⟩)
        (carriesAt q args n i) : Dummy _) = .ok (carriesAt q args n (i + 1)) := by
  have hpos := h.pos (by omega : i < n)
  have hnext := h.pos hi
  have hsum := hfits i hi
  rw [nextCarries, index_moduli (by omega), ok_bind, carriesAt_maxCarry,
    columnMax_eq hpos (hsums i (by omega)), ok_bind]
  dsimp only
  rw [← maxSum, word_eq hsum, ok_bind, mapM_modChange h (by omega), ok_bind,
    carrySum h htwo (by omega) hsum, ok_bind, addCarry_carryCarry h hi hsum, ok_bind,
    index_moduli hi, ok_bind, mapM_remainder _ _ hnext, ok_bind,
    proj_carry h (by omega) fun v _ => Nat.mod_lt _ hnext, ok_bind, maxSum_div,
    columnMax_eq hnext (hsums (i + 1) hi), ok_bind, ← maxSum, List.length_map, List.length_range]
  split
  · next hlast =>
    have hcarry := nextCarryCarry_eq h hi
    rw [word_eq (hfits (i + 1) hlast), ok_bind, carriesAt, if_pos hlast]
    exact congrArg (· >>= _) hcarry
  · next hlast =>
    rw [carriesAt, if_neg hlast]
    rfl

/-- The digits that the sum has in its first columns. -/
def sumDigits (q : ℕ → ℕ) (args : List (ℕ → ℕ)) (i : ℕ) : Bundle DummyVal :=
  numeral q i fun i => (columnSum args i + carry q (columnSum args) i) % q i

theorem sumDigits_succ (i : ℕ) : sumDigits q args (i + 1) = sumDigits q args i ++
    [⟨(columnSum args i + carry q (columnSum args) i) % q i, q i⟩] := by
  rw [sumDigits, numeral, List.range_succ, List.map_append]
  rfl

theorem digitSum (h : Numerals q n args) (htwo : 2 ≤ args.length)
    (hsums : ∀ i < n, maxSum q args.length i < 2 ^ 16) {i : ℕ} (hi : i < n) :
    (addMany (args.map fun d => DummyVal.mk (d i) (q i)) : Dummy DummyVal) =
      .ok ⟨columnSum args i % q i, q i⟩ := by
  have hle := h.add_carry_le hi
  have hlt := hsums i hi
  have hadd := addMany_eq (q := q i) (by rwa [List.length_map] : 2 ≤ (args.map fun d => d i).length)
    ?_ ?_
  · rw [List.map_map] at hadd
    exact hadd
  · intro v hv
    obtain ⟨d, hd, rfl⟩ := List.mem_map.1 hv
    exact h.digits d hd i hi
  · change columnSum args i < _
    omega

theorem addCarry_digitCarry (h : Numerals q n args)
    (hsums : ∀ i < n, maxSum q args.length i < 2 ^ 16) {i : ℕ} (hi : i < n) :
    (addCarry ⟨columnSum args i % q i, q i⟩ (carriesAt q args n i).digitCarry : Dummy DummyVal) =
      .ok ⟨(columnSum args i + carry q (columnSum args) i) % q i, q i⟩ := by
  cases i with
  | zero => rfl
  | succ i =>
    have hle := h.add_carry_le hi
    have hlt := hsums _ hi
    exact addCarry_some (h.pos hi) (by omega)

theorem additionColumn_eq (h : Numerals q n args) (htwo : 2 ≤ args.length)
    (hsums : ∀ i < n, maxSum q args.length i < 2 ^ 16) {i : ℕ} (hi : i < n)
    {carries : Carries DummyVal}
    (hcarries : (columnCarries ((List.range n).map q) args.length i
      (args.map fun d => DummyVal.mk (d i) (q i)) (carriesAt q args n i) : Dummy _) = .ok carries) :
    (additionColumn (args.map (numeral q n)) ((List.range n).map q)
        (sumDigits q args i, carriesAt q args n i) i : Dummy _) =
      .ok (sumDigits q args (i + 1), carries) := by
  rw [additionColumn, column_numerals args hi, ok_bind, digitSum h htwo hsums hi, ok_bind,
    addCarry_digitCarry h hsums hi, ok_bind, List.length_map, hcarries, ok_bind, sumDigits_succ]
  rfl

theorem mixedRadixAddition_eq (h : Numerals q n args) (htwo : 2 ≤ args.length)
    (hsums : ∀ i < n, maxSum q args.length i < 2 ^ 16) (hfits : Fits q args.length n) :
    (mixedRadixAddition (args.map (numeral q n)) : Dummy _) = .ok (sumDigits q args n) := by
  rw [mixedRadixAddition, commonModuli_numerals h.nonempty, ok_bind, List.length_map,
    List.length_range]
  cases n with
  | zero => rfl
  | succ n =>
    have hcarries : ∀ i < n, (columnCarries ((List.range (n + 1)).map q) args.length i
        (args.map fun d => DummyVal.mk (d i) (q i)) (carriesAt q args (n + 1) i) : Dummy _) =
          .ok (carriesAt q args (n + 1) (i + 1)) := by
      intro i hi
      rw [columnCarries, List.length_map, List.length_range, if_pos (by omega)]
      exact nextCarries_eq h htwo hsums hfits (by omega)
    have hrun := foldlM_range (fun i => (sumDigits q args i, carriesAt q args (n + 1) i)) (n := n)
      fun i hi => additionColumn_eq h htwo hsums (Nat.lt_succ_of_lt hi) (hcarries i hi)
    have hlast := additionColumn_eq h htwo hsums (Nat.lt_succ_self n) (by
      rw [columnCarries, List.length_map, List.length_range, if_neg (Nat.lt_irrefl _)]
      rfl)
    have hstart : (sumDigits q args 0, carriesAt q args (n + 1) 0) = ([], ⟨none, none, 0⟩) := rfl
    rw [hstart] at hrun
    rw [List.range_succ, List.foldlM_append, ← List.range_succ, hrun, ok_bind, List.foldlM_cons,
      hlast]
    rfl

/-! ### The most significant digit -/

/-- The carry into a column. -/
def msbCarryAt (q : ℕ → ℕ) (args : List (ℕ → ℕ)) (n : ℕ) : ℕ → Option DummyVal
  | 0 => none
  | i + 1 =>
    let p := if i + 2 < n then maxSum q args.length (i + 1) + 1 else q (i + 1)
    some ⟨carry q (columnSum args) (i + 1) % p, p⟩

theorem msbModulus_eq (h : Numerals q n args) (hsums : ∀ i < n, maxSum q args.length i < 2 ^ 16)
    (hfits : Fits q args.length n) {i : ℕ} (hi : i + 1 < n) :
    (msbModulus ((List.range n).map q) args.length i (maxCarry q args.length (i + 1)) : Dummy ℕ) =
      .ok (if i + 2 < n then maxSum q args.length (i + 1) + 1 else q (i + 1)) := by
  rw [msbModulus, index_moduli hi, ok_bind, List.length_map, List.length_range]
  split
  · next hlast =>
    rw [columnMax_eq (h.pos hi) (hsums _ hi), ok_bind]
    exact word_eq (hfits _ hlast)
  · rfl

theorem addCarry_msbCarry (h : Numerals q n args) {i : ℕ} (hi : i + 1 < n)
    (hfits : maxSum q args.length i + 1 < 2 ^ 16) :
    (addCarry ⟨columnSum args i % (maxSum q args.length i + 1), maxSum q args.length i + 1⟩
        (msbCarryAt q args n i) : Dummy DummyVal) =
      .ok ⟨(columnSum args i + carry q (columnSum args) i) % (maxSum q args.length i + 1),
        maxSum q args.length i + 1⟩ := by
  cases i with
  | zero => rfl
  | succ i =>
    have hle := h.add_carry_le (by omega : i + 1 < n)
    rw [msbCarryAt, if_pos hi]
    exact addCarry_some (Nat.succ_pos _) (by omega)

theorem msbColumn_eq (h : Numerals q n args) (htwo : 2 ≤ args.length)
    (hsums : ∀ i < n, maxSum q args.length i < 2 ^ 16) (hfits : Fits q args.length n) {i : ℕ}
    (hi : i + 1 < n) :
    (msbColumn (args.map (numeral q n)) ((List.range n).map q)
        (msbCarryAt q args n i, maxCarry q args.length i) i : Dummy _) =
      .ok (msbCarryAt q args n (i + 1), maxCarry q args.length (i + 1)) := by
  have hpos := h.pos (by omega : i < n)
  have hsum := hfits i hi
  have hmodulus : 0 < if i + 2 < n then maxSum q args.length (i + 1) + 1 else q (i + 1) := by
    split
    · exact Nat.succ_pos _
    · exact h.pos hi
  rw [msbColumn, column_numerals args (by omega), ok_bind, index_moduli (by omega), ok_bind,
    List.length_map, columnMax_eq hpos (hsums i (by omega)), ok_bind]
  dsimp only
  rw [← maxSum, word_eq hsum, ok_bind, mapM_modChange h (by omega), ok_bind,
    carrySum h htwo (by omega) hsum, ok_bind, addCarry_msbCarry h hi hsum, ok_bind, maxSum_div,
    msbModulus_eq h hsums hfits hi, ok_bind, mapM_remainder _ _ hmodulus, ok_bind,
    proj_carry h (by omega) fun v _ => Nat.mod_lt _ hmodulus]
  rfl

theorem mixedRadixAdditionMsbOnly_eq (h : Numerals q (n + 1) args) (htwo : 2 ≤ args.length)
    (hsums : ∀ i < n + 1, maxSum q args.length i < 2 ^ 16) (hfits : Fits q args.length (n + 1)) :
    (mixedRadixAdditionMsbOnly (args.map (numeral q (n + 1))) : Dummy _) =
      .ok ⟨(columnSum args n + carry q (columnSum args) n) % q n, q n⟩ := by
  have hrun := foldlM_range (fun i => (msbCarryAt q args (n + 1) i, maxCarry q args.length i))
    (n := n) fun i hi => msbColumn_eq h htwo hsums hfits (by omega)
  have hstart : (msbCarryAt q args (n + 1) 0, maxCarry q args.length 0) = (none, 0) := rfl
  rw [hstart] at hrun
  rw [mixedRadixAdditionMsbOnly, commonModuli_numerals h.nonempty, ok_bind, List.length_map,
    List.length_range, if_neg (Nat.succ_ne_zero n), Nat.add_sub_cancel, hrun, ok_bind]
  dsimp only
  rw [column_numerals args (Nat.lt_succ_self n), ok_bind, digitSum h htwo hsums (Nat.lt_succ_self n),
    ok_bind]
  cases n with
  | zero => rfl
  | succ n =>
    have hle := h.add_carry_le (Nat.lt_succ_self (n + 1))
    have hlt := hsums (n + 1) (Nat.lt_succ_self _)
    rw [msbCarryAt, if_neg (Nat.lt_irrefl _)]
    exact addCarry_some (h.pos (Nat.lt_succ_self _)) (by omega)

end Columns

/-! ## What a sum needs -/

section Needs

variable {q : ℕ → ℕ} {n : ℕ} {args : List (ℕ → ℕ)}

theorem nextCarries_ok {moduli : List ℕ} {nargs i : ℕ} {ds : List DummyVal}
    {c c' : Carries DummyVal} (h : (nextCarries moduli nargs i ds c : Dummy _) = .ok c') :
    ∃ p maxVal, (index moduli i : Dummy ℕ) = .ok p ∧
      (columnMax nargs p c.maxCarry : Dummy ℕ) = .ok maxVal ∧ maxVal + 1 < 2 ^ 16 ∧
      c'.maxCarry = maxVal / p := by
  rw [nextCarries] at h
  obtain ⟨p, hp, h⟩ := exists_of_bind h
  obtain ⟨maxVal, hmax, h⟩ := exists_of_bind h
  obtain ⟨sumModulus, hword, h⟩ := exists_of_bind h
  refine ⟨p, maxVal, hp, hmax, (word_ok hword).1, ?_⟩
  obtain ⟨_, -, h⟩ := exists_of_bind h
  obtain ⟨_, -, h⟩ := exists_of_bind h
  obtain ⟨_, -, h⟩ := exists_of_bind h
  obtain ⟨_, -, h⟩ := exists_of_bind h
  obtain ⟨_, -, h⟩ := exists_of_bind h
  obtain ⟨_, -, h⟩ := exists_of_bind h
  obtain ⟨_, -, h⟩ := exists_of_bind h
  split at h
  · obtain ⟨_, -, h⟩ := exists_of_bind h
    obtain ⟨_, -, h⟩ := exists_of_bind h
    cases h
    rfl
  · cases h
    rfl

theorem column_length {i : ℕ} {ds : List DummyVal}
    (h : (column (args.map (numeral q n)) i : Dummy _) = .ok ds) : ds.length = args.length := by
  rw [length_of_mapM h, List.length_map]

theorem columnMax_maxSum (h : Numerals q n args)
    (hsums : ∀ i < n, maxSum q args.length i < 2 ^ 16) {i p maxVal : ℕ} (hi : i < n)
    (hp : (index ((List.range n).map q) i : Dummy ℕ) = .ok p)
    (hmax : (columnMax args.length p (maxCarry q args.length i) : Dummy ℕ) = .ok maxVal) :
    p = q i ∧ maxVal = maxSum q args.length i := by
  rw [index_moduli hi] at hp
  cases hp
  rw [columnMax_eq (h.pos hi) (hsums i hi)] at hmax
  exact ⟨rfl, (Except.ok.inj hmax).symm⟩

theorem additionColumn_ok (h : Numerals q n args)
    (hsums : ∀ i < n, maxSum q args.length i < 2 ^ 16) {i : ℕ} (hi : i < n)
    {s s' : List DummyVal × Carries DummyVal} (hs : s.2.maxCarry = maxCarry q args.length i)
    (hrun : (additionColumn (args.map (numeral q n)) ((List.range n).map q) s i : Dummy _) =
      .ok s') :
    (2 ≤ args.length ∧ (i + 1 < n → maxSum q args.length i + 1 < 2 ^ 16)) ∧
      (i + 1 < n → s'.2.maxCarry = maxCarry q args.length (i + 1)) := by
  rw [additionColumn] at hrun
  obtain ⟨ds, hds, hrun⟩ := exists_of_bind hrun
  obtain ⟨sum, hsum, hrun⟩ := exists_of_bind hrun
  obtain ⟨_, -, hrun⟩ := exists_of_bind hrun
  obtain ⟨carries, hcarries, hrun⟩ := exists_of_bind hrun
  cases hrun
  have htwo := addMany_ok hsum
  rw [column_length hds] at htwo
  rw [columnCarries, List.length_map, List.length_map, List.length_range] at hcarries
  split at hcarries
  · next hlast =>
    obtain ⟨p, maxVal, hp, hmax, hfits, hcarry⟩ := nextCarries_ok hcarries
    rw [hs] at hmax
    obtain ⟨rfl, rfl⟩ := columnMax_maxSum h hsums hi hp hmax
    exact ⟨⟨htwo, fun _ => hfits⟩, fun _ => hcarry⟩
  · next hlast => exact ⟨⟨htwo, fun h => absurd h hlast⟩, fun h => absurd h hlast⟩

theorem needs_of_mixedRadixAddition (h : Numerals q n args) (hn : 1 ≤ n)
    (hsums : ∀ i < n, maxSum q args.length i < 2 ^ 16) {z : Bundle DummyVal}
    (hrun : (mixedRadixAddition (args.map (numeral q n)) : Dummy _) = .ok z) :
    2 ≤ args.length ∧ Fits q args.length n := by
  rw [mixedRadixAddition, commonModuli_numerals h.nonempty, ok_bind, List.length_map,
    List.length_range] at hrun
  obtain ⟨s, hrun, -⟩ := exists_of_bind hrun
  have hall := foldlM_range_ok
    (p := fun i s => i < n → s.2.maxCarry = maxCarry q args.length i)
    (fun i hi t t' ht hstep => additionColumn_ok h hsums hi (ht hi) hstep) (fun _ => rfl) hrun
  exact ⟨(hall.1 0 hn).1, fun i hi => (hall.1 i (by omega)).2 hi⟩

theorem msbColumn_ok (h : Numerals q n args)
    (hsums : ∀ i < n, maxSum q args.length i < 2 ^ 16) {i : ℕ} (hi : i + 1 < n)
    {s s' : Option DummyVal × ℕ} (hs : s.2 = maxCarry q args.length i)
    (hrun : (msbColumn (args.map (numeral q n)) ((List.range n).map q) s i : Dummy _) = .ok s') :
    maxSum q args.length i + 1 < 2 ^ 16 ∧ s'.2 = maxCarry q args.length (i + 1) := by
  rw [msbColumn, List.length_map, hs] at hrun
  obtain ⟨_, -, hrun⟩ := exists_of_bind hrun
  obtain ⟨p, hp, hrun⟩ := exists_of_bind hrun
  obtain ⟨maxVal, hmax, hrun⟩ := exists_of_bind hrun
  obtain ⟨rfl, rfl⟩ := columnMax_maxSum h hsums (by omega) hp hmax
  obtain ⟨sumModulus, hword, hrun⟩ := exists_of_bind hrun
  refine ⟨(word_ok hword).1, ?_⟩
  obtain ⟨_, -, hrun⟩ := exists_of_bind hrun
  obtain ⟨_, -, hrun⟩ := exists_of_bind hrun
  obtain ⟨_, -, hrun⟩ := exists_of_bind hrun
  obtain ⟨_, -, hrun⟩ := exists_of_bind hrun
  obtain ⟨_, -, hrun⟩ := exists_of_bind hrun
  obtain ⟨_, -, hrun⟩ := exists_of_bind hrun
  cases hrun
  rfl

theorem needs_of_msbOnly (h : Numerals q n args) (hn : 1 ≤ n)
    (hsums : ∀ i < n, maxSum q args.length i < 2 ^ 16) {z : DummyVal}
    (hrun : (mixedRadixAdditionMsbOnly (args.map (numeral q n)) : Dummy _) = .ok z) :
    2 ≤ args.length ∧ Fits q args.length n := by
  rw [mixedRadixAdditionMsbOnly, commonModuli_numerals h.nonempty, ok_bind, List.length_map,
    List.length_range, if_neg (by omega)] at hrun
  obtain ⟨s, hcolumns, hrun⟩ := exists_of_bind hrun
  obtain ⟨ds, hds, hrun⟩ := exists_of_bind hrun
  obtain ⟨sum, hsum, -⟩ := exists_of_bind hrun
  have htwo := addMany_ok hsum
  rw [column_length hds] at htwo
  have hall := foldlM_range_ok (p := fun i s => s.2 = maxCarry q args.length i)
    (fun i hi t t' ht hstep => msbColumn_ok h hsums (by omega) ht hstep) rfl hcolumns
  exact ⟨htwo, fun i hi => hall.1 i (by omega)⟩

/-- The sum of the numerals. -/
def sumOf (q : ℕ → ℕ) (n : ℕ) (args : List (ℕ → ℕ)) : ℕ := (args.map fun d => value q d n).sum

theorem digit_sumOf (h : Numerals q n args) {i : ℕ} (hi : i < n) :
    digit q (sumOf q n args) i = (columnSum args i + carry q (columnSum args) i) % q i := by
  rw [sumOf, value_sum]
  exact digit_value _ (fun j hj => h.pos hj) hi

theorem sumDigits_eq (h : Numerals q n args) :
    sumDigits q args n = numeral q n (digit q (sumOf q n args)) := by
  refine List.map_congr_left fun i hi => ?_
  rw [digit_sumOf h (List.mem_range.1 hi)]

/-- For numerals of at least one digit whose column sums are words: the gadgets return the digits of
the sum, and its last digit, exactly for two arguments or more, when one more than the largest sum of
each column before the last is a word, too. -/
theorem mixedRadixAddition_iff {q : ℕ → ℕ} {n : ℕ} {args : List (ℕ → ℕ)} (hn : 1 ≤ n)
    (h : Numerals q n args) (hsums : ∀ i < n, maxSum q args.length i < 2 ^ 16) :
    ((mixedRadixAddition (args.map (numeral q n)) : Dummy _) =
        .ok (numeral q n (digit q (sumOf q n args))) ↔
      2 ≤ args.length ∧ ∀ i, i + 1 < n → maxSum q args.length i + 1 < 2 ^ 16) ∧
    ((mixedRadixAdditionMsbOnly (args.map (numeral q n)) : Dummy _) =
        .ok ⟨digit q (sumOf q n args) (n - 1), q (n - 1)⟩ ↔
      2 ≤ args.length ∧ ∀ i, i + 1 < n → maxSum q args.length i + 1 < 2 ^ 16) := by
  refine ⟨⟨needs_of_mixedRadixAddition h hn hsums, fun hneeds => ?_⟩,
    ⟨needs_of_msbOnly h hn hsums, fun hneeds => ?_⟩⟩
  · rw [mixedRadixAddition_eq h hneeds.1 hsums hneeds.2, sumDigits_eq h]
  · obtain ⟨n, rfl⟩ := Nat.exists_eq_succ_of_ne_zero (by omega : n ≠ 0)
    rw [mixedRadixAdditionMsbOnly_eq h hneeds.1 hsums hneeds.2, Nat.succ_sub_one,
      digit_sumOf h (Nat.lt_succ_self n)]

/-- 9 and 8 with the radices 4 and 3 add up to 17, which is 5 modulo 12. -/
theorem mixedRadixAddition_iff_two :
    (mixedRadixAddition [[⟨1, 4⟩, ⟨2, 3⟩], [⟨0, 4⟩, ⟨2, 3⟩]] : Dummy _) = .ok [⟨1, 4⟩, ⟨1, 3⟩] := by
  have hall := @mixedRadixAddition_iff (fun i => if i = 0 then 4 else 3) 2
    [fun i => i + 1, fun i => 2 * i] (by decide) ⟨by decide, by decide⟩ (by decide)
  refine hall.1.2 ⟨by decide, fun i hi => ?_⟩
  obtain rfl : i = 0 := by omega
  decide

/-- One argument is accepted by the check and refused by `add_many`. -/
theorem mixedRadixAddition_one_argument :
    (mixedRadixAddition [[⟨1, 4⟩, ⟨2, 3⟩]] : Dummy _) = .error (.fancy (.invalidArgNum 1 2)) ∧
    (mixedRadixAdditionMsbOnly [[⟨1, 4⟩, ⟨2, 3⟩]] : Dummy _) =
      .error (.fancy (.invalidArgNum 1 2)) := by
  decide

end Needs

end EdaBitGen.FancyGarbling
