import EdaBitGen.FancyGarbling.CrtSignRounding

/-!
# Signs and comparisons of residues

When the gadgets that read the sign of a number from its residues are exact.
-/

namespace EdaBitGen.FancyGarbling

open MixedRadix Residues Rounding

/-- The sign that the gadgets see in `x`. -/
def SeenNegative (ps : List ℕ) (M x : ℕ) : Prop := M ≤ 2 * (entrySum ps M x % M)

instance (ps : List ℕ) (M x : ℕ) : Decidable (SeenNegative ps M x) :=
  inferInstanceAs (Decidable (_ ≤ _))

section Gadgets

variable {ps ms : List ℕ} (h : Supported ps) (hget : getMs "100%" ps.length = some ms)

include h hget

theorem prod_lt_word : ps.prod < 2 ^ 128 := by
  have hlength : ps.length ≤ 11 := by
    rw [getMs, if_pos rfl] at hget
    unfold msExact at hget
    split at hget
    all_goals first
      | omega
      | cases hget
  calc ps.prod ≤ 110 ^ ps.length := List.prod_le_pow_card ps 110 fun p hp => (h.lt hp).le
    _ ≤ 110 ^ 11 := Nat.pow_le_pow_right (by norm_num) hlength
    _ < 2 ^ 128 := by norm_num

theorem seenNegative_iff {x : ℕ} (hx : x < ps.prod) :
    (SeenNegative ps ms.prod x ↔ ps.prod ≤ 2 * x) ↔ Accurate ps ms.prod x := by
  have hms := getMs_exact hget
  exact half_iff h hx hms.pos hms.few

theorem crtSign_residues (x : ℕ) :
    (crtSign (residues ps x) "100%" : Dummy DummyVal) =
      .ok ⟨if SeenNegative ps ms.prod x then 1 else 0, 2⟩ :=
  crtSign_eq h (getMs_exact hget) hget (prod_lt_word h hget) x

omit h hget in
theorem ok_truth_iff {s t : Prop} [Decidable s] [Decidable t] :
    (.ok ⟨if s then 1 else 0, 2⟩ : Dummy DummyVal) = .ok ⟨if t then 1 else 0, 2⟩ ↔ (s ↔ t) := by
  by_cases hs : s <;> by_cases ht : t <;> simp [hs, ht]

/-! ### Positive parts and signs -/

omit h hget in
theorem outputWires_residues {outs : Option (List ℕ)} (houts : ∀ qs ∈ outs, ∀ q ∈ qs, q ∈ ps) (x : ℕ) :
    (outputWires (residues ps x) outs : Dummy _) = .ok (residues (outs.getD ps) x) := by
  cases outs with
  | none => rfl
  | some qs =>
    refine mapM_eq qs fun q hq => ?_
    have hfind : (residues ps x).find? (fun w => modulus w = q) = some ⟨x % q, q⟩ := by
      have hq' : ps.find? (fun p => decide (p = q)) = some q := by
        have hsome : (ps.find? fun p => decide (p = q)).isSome :=
          List.find?_isSome.2 ⟨q, houts qs rfl q hq, decide_eq_true rfl⟩
        obtain ⟨r, hr⟩ := Option.isSome_iff_exists.1 hsome
        have hrq := List.find?_some hr
        rw [hr, of_decide_eq_true hrq]
      rw [residues, List.find?_map]
      change (ps.find? fun p => decide (p = q)).map _ = _
      rw [hq']
      rfl
    rw [hfind, unwrap_some]

omit h hget in
theorem residues_inj {qs : List ℕ} {a b : ℕ} :
    residues qs a = residues qs b ↔ ∀ q ∈ qs, a % q = b % q := by
  rw [residues, residues, List.map_inj_left]
  simp

omit h hget in
theorem residues_choice_iff {s t : Prop} [Decidable s] [Decidable t] {qs : List ℕ} {a b : ℕ} :
    residues qs (if s then a else b) = residues qs (if t then a else b) ↔
      (s ↔ t) ∨ ∀ q ∈ qs, a % q = b % q := by
  rw [residues_inj]
  by_cases hs : s <;> by_cases ht : t <;> simp [hs, ht, eq_comm]

omit h hget in
theorem mem_of_outputs {outs : Option (List ℕ)} (houts : ∀ qs ∈ outs, ∀ q ∈ qs, q ∈ ps) :
    ∀ q ∈ outs.getD ps, q ∈ ps := by
  cases outs with
  | none => exact fun q hq => hq
  | some qs => exact houts qs rfl

theorem crtRelu_residues {outs : Option (List ℕ)} (houts : ∀ qs ∈ outs, ∀ q ∈ qs, q ∈ ps) (x : ℕ) :
    (crtRelu (residues ps x) "100%" outs : Dummy _) =
      .ok (residues (outs.getD ps) (if SeenNegative ps ms.prod x then 0 else x)) := by
  have hms := getMs_exact hget
  have hiff : ms.prod ≤ 2 * (entrySum ps ms.prod x % ms.prod) ↔ SeenNegative ps ms.prod x := Iff.rfl
  rw [crtRelu, fractionalMsb_eq h hms hget (prod_lt_word h hget), ok_bind]
  dsimp only
  rw [relu_mask_eq hms, ok_bind, outputWires_residues houts, ok_bind, if_congr hiff rfl rfl]
  refine mapM_ok _ fun q hq => ?_
  have hpos := h.pos (mem_of_outputs houts q hq)
  have hlt := h.lt (mem_of_outputs houts q hq)
  have hmod := Nat.mod_lt x hpos
  split
  · rw [mul_eq hpos (by omega), Nat.mul_zero]
  · rw [mul_eq hpos (by omega), Nat.mul_one, Nat.mod_mod]

theorem crtSgn_residues {outs : Option (List ℕ)} (houts : ∀ qs ∈ outs, ∀ q ∈ qs, q ∈ ps) (x : ℕ) :
    (crtSgn (residues ps x) "100%" outs : Dummy _) =
      .ok (residues (outs.getD ps) (if SeenNegative ps ms.prod x then ps.prod - 1 else 1)) := by
  rw [crtSgn, crtSign_residues h hget, ok_bind, moduli_residues]
  refine mapM_eq _ fun q hq => ?_
  have hmem := mem_of_outputs houts q hq
  have hone := (h.prime hmem).one_lt
  have hminus : (ps.prod - 1) % q = q - 1 := by
    obtain ⟨k, hk⟩ := List.dvd_prod hmem
    obtain ⟨k, rfl⟩ := Nat.exists_eq_succ_of_ne_zero (fun hzero => by
      rw [hzero, Nat.mul_zero] at hk
      exact h.prod_pos.ne' hk : k ≠ 0)
    rw [hk, show q * k.succ - 1 = q - 1 + q * k by rw [Nat.mul_succ]; omega,
      Nat.add_mul_mod_self_left, Nat.mod_eq_of_lt (by omega)]
  have htable : ∀ e ∈ [1, q - 1], e < q := by
    intro e he
    obtain rfl | rfl : e = 1 ∨ e = q - 1 := by simpa using he
    · exact hone
    · omega
  rw [sgnWire, if_neg (by omega)]
  split
  · rw [proj_eq (r := q - 1) (by simp) htable rfl, hminus]
  · rw [proj_eq (r := 1) (by simp) htable rfl, Nat.mod_eq_of_lt hone]

/-! ### Comparisons -/

/-- The residues of a difference, where a negative one wraps around. -/
def differenceMod (ps : List ℕ) (x y : ℕ) : ℕ := (x + ps.prod - y) % ps.prod

theorem crtLt_residues (x : ℕ) {y : ℕ} (hy : y < ps.prod) :
    (crtLt (residues ps x) (residues ps y) "100%" : Dummy DummyVal) =
      .ok ⟨if SeenNegative ps ms.prod (differenceMod ps x y) then 1 else 0, 2⟩ := by
  rw [crtLt, crtSub_residues h x hy.le, ok_bind, ← residues_mod, ← differenceMod,
    crtSign_residues h hget]

omit h hget in
theorem half_le_differenceMod_iff {x y : ℕ} (hy : y < ps.prod)
    (hxy : 2 * (x - y) < ps.prod) (hyx : 2 * (y - x) ≤ ps.prod) :
    ps.prod ≤ 2 * differenceMod ps x y ↔ x < y := by
  rw [differenceMod]
  obtain hle | hlt := Nat.lt_or_ge x y |>.symm
  · rw [show x + ps.prod - y = x - y + ps.prod by omega, Nat.add_mod_right,
      Nat.mod_eq_of_lt (by omega)]
    omega
  · rw [Nat.mod_eq_of_lt (by omega)]
    omega

theorem seenNegative_difference_iff {x y : ℕ} (hy : y < ps.prod)
    (hxy : 2 * (x - y) < ps.prod) (hyx : 2 * (y - x) ≤ ps.prod) :
    (SeenNegative ps ms.prod (differenceMod ps x y) ↔ x < y) ↔
      Accurate ps ms.prod (differenceMod ps x y) := by
  rw [← half_le_differenceMod_iff hy hxy hyx]
  exact seenNegative_iff h hget (Nat.mod_lt _ h.prod_pos)

theorem crtMaxRound_residues (x : ℕ) {y : ℕ} (hy : y < ps.prod) :
    (crtMaxRound "100%" (residues ps x) (residues ps y) : Dummy _) =
      .ok (residues ps (if SeenNegative ps ms.prod (differenceMod ps x y) then y else x)) := by
  rw [crtMaxRound, crtLt_residues h hget x hy, ok_bind, negate_truth, ok_bind, zip_residues]
  refine mapM_ok (f := fun w : DummyVal × DummyVal => (selectWire _ _ w.1 w.2 : Dummy DummyVal)) ps
    fun p hp => ?_
  have hpos := h.pos hp
  have hlt := h.lt hp
  have hx := Nat.mod_lt x hpos
  have hy := Nat.mod_lt y hpos
  rw [selectWire]
  split
  · rw [mul_eq hpos (by omega), ok_bind, mul_eq hpos (by omega), ok_bind, Nat.mul_zero, Nat.mul_one,
      Nat.zero_mod, Nat.mod_mod, add_eq hpos (by omega), Nat.zero_add, Nat.mod_mod]
  · rw [mul_eq hpos (by omega), ok_bind, mul_eq hpos (by omega), ok_bind, Nat.mul_zero, Nat.mul_one,
      Nat.zero_mod, Nat.mod_mod, add_eq hpos (by omega), Nat.add_zero, Nat.mod_mod]

omit hget in
theorem accurate_zero {M : ℕ} (hM : 0 < M) : Accurate ps M 0 := by
  have herr : (ps.map (roundingError ps M 0)).sum = 0 := by
    refine List.sum_eq_zero fun e he => ?_
    obtain ⟨p, hp, rfl⟩ := List.mem_map.1 he
    have hentry : entry ps M 0 p = 0 := by
      rw [entry, Nat.zero_mod, Nat.mul_zero, Nat.zero_mul]
      exact Nat.div_eq_of_lt (by have := h.pos hp; omega)
    rw [roundingError, hentry, Nat.zero_mod, Nat.mul_zero, Nat.zero_mul, Nat.cast_zero, zero_div,
      sub_zero]
  have hzero : roundedFraction ps M 0 = 0 := by
    rw [roundedFraction, herr, Nat.cast_zero, mul_zero, zero_div, add_zero]
  rw [Accurate, if_pos (by simpa using h.prod_pos), hzero]
  exact ⟨le_rfl, div_pos (Nat.cast_pos.2 hM) two_pos⟩

theorem crtMaxRound_iff {x y : ℕ} (hx : x < ps.prod) (hy : y < ps.prod)
    (hxy : 2 * (x - y) < ps.prod) (hyx : 2 * (y - x) ≤ ps.prod) :
    (crtMaxRound "100%" (residues ps x) (residues ps y) : Dummy _) = .ok (residues ps (max x y)) ↔
      Accurate ps ms.prod (differenceMod ps x y) := by
  have hmax : max x y = if x < y then y else x := by
    split <;> omega
  rw [crtMaxRound_residues h hget x hy, Except.ok.injEq, hmax, residues_choice_iff,
    seenNegative_difference_iff h hget hy hxy hyx]
  refine or_iff_left_of_imp fun heq => ?_
  obtain rfl := eq_of_mod_eq h.coprime hy hx heq
  rw [differenceMod, Nat.add_sub_cancel_left, Nat.mod_self]
  exact accurate_zero h (getMs_exact hget).pos

omit h hget in
theorem crtMax_concat (accuracy : String) (x : Bundle DummyVal) (xs : List (Bundle DummyVal))
    (y : Bundle DummyVal) :
    (crtMax (x :: (xs ++ [y])) accuracy : Dummy _) =
      (crtMax (x :: xs) accuracy : Dummy _) >>= fun z => crtMaxRound accuracy z y := by
  rw [crtMax, crtMax, List.foldlM_append]
  refine bind_congr fun z => ?_
  rw [List.foldlM_cons]
  exact bind_pure _

omit h hget in
theorem foldl_max_mem (v : ℕ) (vs : List ℕ) : vs.foldl max v ∈ v :: vs := by
  induction vs generalizing v with
  | nil => exact List.mem_singleton_self v
  | cons a vs ih =>
    obtain hmem | hmem := List.mem_cons.1 (ih (max v a))
    · rw [List.foldl_cons, hmem]
      obtain hmax | hmax := max_choice v a <;> rw [hmax] <;> simp
    · exact List.mem_cons_of_mem _ (List.mem_cons_of_mem _ hmem)

/-- The maximum of every initial part is right, exactly when every comparison with the maximum so far
is accurate. -/
theorem crtMax_iff {v : ℕ} {vs : List ℕ} (hvs : ∀ a ∈ v :: vs, a < ps.prod)
    (hdiff : ∀ a ∈ v :: vs, ∀ b ∈ v :: vs, 2 * (a - b) < ps.prod) :
    (∀ pre, pre <+: vs → (crtMax ((v :: pre).map (residues ps)) "100%" : Dummy _) =
        .ok (residues ps (pre.foldl max v))) ↔
      ∀ pre y, pre ++ [y] <+: vs → Accurate ps ms.prod (differenceMod ps (pre.foldl max v) y) := by
  have hstep : ∀ pre y, pre ++ [y] <+: vs →
      (crtMax ((v :: pre).map (residues ps)) "100%" : Dummy _) = .ok (residues ps (pre.foldl max v)) →
      ((crtMax ((v :: (pre ++ [y])).map (residues ps)) "100%" : Dummy _) =
          .ok (residues ps ((pre ++ [y]).foldl max v)) ↔
        Accurate ps ms.prod (differenceMod ps (pre.foldl max v) y)) := by
    intro pre y hpre hmax
    have hsub : v :: pre ⊆ v :: vs :=
      List.cons_subset_cons v ((List.prefix_append _ _).trans hpre).subset
    have hmem : pre.foldl max v ∈ v :: vs := hsub (foldl_max_mem v pre)
    have hy : y ∈ v :: vs := List.mem_cons_of_mem _ (hpre.subset (by simp))
    rw [List.map_cons, List.map_append, List.map_singleton, crtMax_concat, ← List.map_cons, hmax,
      ok_bind, List.foldl_append]
    exact crtMaxRound_iff h hget (hvs _ hmem) (hvs y hy) (hdiff _ hmem y hy) (hdiff y hy _ hmem).le
  constructor
  · intro hall pre y hpre
    exact (hstep pre y hpre (hall pre ((List.prefix_append _ _).trans hpre))).1 (hall _ hpre)
  · intro hall pre
    induction pre using List.reverseRecOn with
    | nil => exact fun _ => rfl
    | append_singleton pre y ih =>
      intro hpre
      exact (hstep pre y hpre (ih ((List.prefix_append _ _).trans hpre))).2 (hall pre y hpre)

/-- At accuracy 100% the sign, the positive part, the signum, comparisons of numbers that differ by
less than half of the modulus and maxima are exact, exactly when the rounding errors leave the scaled
fraction of the number in its half. -/
theorem crt_sign_iff {x y : ℕ} (hx : x < ps.prod) (hy : y < ps.prod) {outs : Option (List ℕ)}
    (houts : ∀ qs ∈ outs, ∀ q ∈ qs, q ∈ ps) {v : ℕ} {vs : List ℕ} (hvs : ∀ a ∈ v :: vs, a < ps.prod)
    (hdiff : ∀ a ∈ v :: vs, ∀ b ∈ v :: vs, 2 * (a - b) < ps.prod) :
    ((crtSign (residues ps x) "100%" : Dummy DummyVal) =
        .ok ⟨if ps.prod ≤ 2 * x then 1 else 0, 2⟩ ↔ Accurate ps ms.prod x) ∧
    ((crtRelu (residues ps x) "100%" outs : Dummy _) =
        .ok (residues (outs.getD ps) (if ps.prod ≤ 2 * x then 0 else x)) ↔
      Accurate ps ms.prod x ∨ ∀ q ∈ outs.getD ps, 0 % q = x % q) ∧
    ((crtSgn (residues ps x) "100%" outs : Dummy _) =
        .ok (residues (outs.getD ps) (if ps.prod ≤ 2 * x then ps.prod - 1 else 1)) ↔
      Accurate ps ms.prod x ∨ ∀ q ∈ outs.getD ps, (ps.prod - 1) % q = 1 % q) ∧
    (2 * (x - y) < ps.prod → 2 * (y - x) ≤ ps.prod →
      ((crtLt (residues ps x) (residues ps y) "100%" : Dummy DummyVal) =
          .ok ⟨if x < y then 1 else 0, 2⟩ ↔ Accurate ps ms.prod (differenceMod ps x y))) ∧
    ((∀ pre, pre <+: vs → (crtMax ((v :: pre).map (residues ps)) "100%" : Dummy _) =
        .ok (residues ps (pre.foldl max v))) ↔
      ∀ pre w, pre ++ [w] <+: vs → Accurate ps ms.prod (differenceMod ps (pre.foldl max v) w)) := by
  have hseen := seenNegative_iff h hget hx
  refine ⟨?_, ?_, ?_, fun hxy hyx => ?_, crtMax_iff h hget hvs hdiff⟩
  · rw [crtSign_residues h hget, ok_truth_iff, hseen]
  · rw [crtRelu_residues h hget houts, Except.ok.injEq, residues_choice_iff, hseen]
  · rw [crtSgn_residues h hget houts, Except.ok.injEq, residues_choice_iff, hseen]
  · rw [crtLt_residues h hget x hy, ok_truth_iff, seenNegative_difference_iff h hget hy hxy hyx]

end Gadgets

/-- 0, 1 and 28 modulo 30, where 32 is large enough for every rounding. -/
theorem crt_sign_iff_thirty :
    (crtSign (residues [2, 3, 5] 28) "100%" : Dummy DummyVal) = .ok ⟨1, 2⟩ ∧
    (crtMax ([1, 0].map (residues [2, 3, 5])) "100%" : Dummy _) = .ok (residues [2, 3, 5] 1) := by
  have hall := @crt_sign_iff [2, 3, 5] (List.replicate 5 2) (by decide : List.Sublist _ _) rfl 28 0
    (by decide) (by decide) none (by simp) 1 [0] (by decide) (by decide)
  refine ⟨hall.1.2 (by decide +kernel), hall.2.2.2.2.2 ?_ [0] List.prefix_rfl⟩
  intro pre w hpre
  obtain rfl : pre = [] := by
    have hlength := hpre.length_le
    rw [List.length_append, List.length_singleton, List.length_singleton] at hlength
    exact List.length_eq_zero_iff.1 (by omega)
  obtain rfl : w = 0 := List.mem_singleton.1 (hpre.subset (List.mem_singleton_self w))
  decide +kernel

/-- The number 1 modulo 385 is seen as negative: its residues are rounded to more than a half. -/
theorem crtSign_one :
    (crtSign (residues [5, 7, 11] 1) "100%" : Dummy DummyVal) = .ok ⟨1, 2⟩ ∧
    ¬ [5, 7, 11].prod ≤ 2 * 1 := by
  decide +kernel

end EdaBitGen.FancyGarbling
