import EdaBitGen.Ligero.SecretSharing

/-!
# Newton polynomials with a table of inverse differences

The table holds the inverse differences of the points in rows, one for each pass of the
interpolation, and a row is as long as there are points.  The interpolation reads rows that are as
long as there are values.
-/

namespace EdaBitGen

open Polynomial

/-! ## Loops with an invariant state -/

section Loops

variable {σ : Type} {f : σ → ℕ → Option σ}

theorem foldlM_reverse_range' {T : ℕ → σ} {j n : ℕ} (hj : j ≤ n)
    (h : ∀ i, j ≤ i → i < n → f (T (i + 1)) i = some (T i)) :
    (List.range' j (n - j)).reverse.foldlM f (T n) = some (T j) := by
  obtain ⟨k, rfl⟩ := Nat.exists_eq_add_of_le hj
  rw [Nat.add_sub_cancel_left]
  induction k with
  | zero => rfl
  | succ k ih =>
    rw [List.range'_concat, Nat.one_mul, List.reverse_append, List.reverse_singleton,
      List.singleton_append, List.foldlM_cons, ← Nat.add_assoc, h (j + k) (by omega) (by omega)]
    exact ih (by omega) fun i hi hik => h i hi (by omega)

theorem foldlM_range' {T : ℕ → σ} {j k : ℕ}
    (h : ∀ i, j ≤ i → i < j + k → f (T i) i = some (T (i + 1))) :
    (List.range' j k).foldlM f (T j) = some (T (j + k)) := by
  induction k with
  | zero => rfl
  | succ k ih =>
    rw [List.range'_concat, Nat.one_mul, List.foldlM_append, ih fun i hi hik => h i hi (by omega)]
    show List.foldlM f (T (j + k)) [j + k] = _
    rw [List.foldlM_cons, h (j + k) (by omega) (by omega)]
    rfl

end Loops

structure NewtonPolynomial (F : Type) where
  points : List F
  cache : List F

namespace NewtonPolynomial

variable {F : Type} [Field F] [DecidableEq F]

/-- Entry `i` of row `j`, from the span of the points that the entry before belongs to. -/
def computeEntry (points : List F) (j : ℕ) (s : List (ℕ × ℕ) × List F) (i : ℕ) :
    Option (List (ℕ × ℕ) × List F) := do
  let indexLower := (← s.1[i - 1]?).1
  let indexUpper := (← s.1[i]?).2
  let pointLower ← points[indexLower]?
  let pointUpper ← points[indexUpper]?
  let pointDiff := pointUpper - pointLower
  -- zero cannot be inverted
  if pointDiff ≠ 0 ∧ j * points.length + i < s.2.length then
    some (s.1.set i (indexLower, indexUpper), s.2.set (j * points.length + i) pointDiff⁻¹)
  else
    none

def computeNewtonPoints (points : List F) : Option (List F) := do
  let length := points.length
  let indices := (List.range length).map fun index => (index, index)
  let cache := List.replicate (length * length) 0
  let s ← (List.range' 1 (length - 1)).foldlM (fun s j =>
    (List.range' j (length - j)).reverse.foldlM (computeEntry points j) s) (indices, cache)
  pure s.2

def new (points : List F) : Option (NewtonPolynomial F) :=
  (computeNewtonPoints points).map (NewtonPolynomial.mk points)

/-- The update of a value in a pass, for `n` values. -/
def update (self : NewtonPolynomial F) (n j : ℕ) (values : List F) (i : ℕ) : Option (List F) := do
  let coefLower ← values[i - 1]?
  let coefUpper ← values[i]?
  let coefDiff := coefUpper - coefLower
  let inverse ← self.cache[j * n + i]?
  pure (values.set i (coefDiff * inverse))

def interpolateInPlace (self : NewtonPolynomial F) (values : List F) : Option (List F) :=
  let n := values.length
  if n ≤ self.points.length then
    (List.range' 1 (n - 1)).foldlM (fun values j =>
      (List.range' j (n - j)).reverse.foldlM (self.update n j) values) values
  else
    none

/-- Without a coefficient the range of the loop is out of bounds. -/
def eval (self : NewtonPolynomial F) (coefficients : List F) (point : F) : Option F :=
  if 0 < coefficients.length ∧ coefficients.length ≤ self.points.length then
    some (Inferno.NewtonPolynomial.eval self.points coefficients point)
  else
    none

/-! ## The rows of the table -/

/-- The entry at position `c` of the table, once the rows before `j` and those entries of row `j`
from `k` on are there. -/
def entry (points : List F) (j k c : ℕ) : F :=
  let row := c / points.length
  let i := c % points.length
  if 1 ≤ row ∧ row ≤ i ∧ (row < j ∨ row = j ∧ k ≤ i) then
    (points.getD i 0 - points.getD (i - row) 0)⁻¹
  else
    0

/-- The spans and the table in the middle of pass `j`. -/
def tableState (points : List F) (j k : ℕ) : List (ℕ × ℕ) × List F :=
  ((List.range points.length).map fun i =>
      (if k ≤ i then i - j else i - (j - 1), i),
    (List.range (points.length * points.length)).map (entry points j k))

variable {points : List F}

omit [DecidableEq F] in
theorem div_mod_position {N j i : ℕ} (hi : i < N) : (j * N + i) / N = j ∧ (j * N + i) % N = i := by
  have hpos : 0 < N := by omega
  rw [Nat.mul_comm, Nat.mul_add_div hpos, Nat.mul_add_mod, Nat.div_eq_of_lt hi, Nat.mod_eq_of_lt hi]
  exact ⟨Nat.add_zero j, rfl⟩

theorem position_lt {N j i : ℕ} (hj : j < N) (hi : i < N) : j * N + i < N * N :=
  calc j * N + i < j * N + N := Nat.add_lt_add_left hi _
    _ = (j + 1) * N := (Nat.succ_mul j N).symm
    _ ≤ N * N := Nat.mul_le_mul_right N hj

theorem computeEntry_tableState (h : points.Nodup) {j i : ℕ} (hj : 1 ≤ j) (hji : j ≤ i)
    (hi : i < points.length) :
    computeEntry points j (tableState points j (i + 1)) i = some (tableState points j i) := by
  have hlower : (tableState points j (i + 1)).1[i - 1]? = some (i - j, i - 1) := by
    simp only [tableState, List.getElem?_map, List.getElem?_range (show i - 1 < points.length by omega)]
    rw [Option.map_some, if_neg (by omega), show i - 1 - (j - 1) = i - j by omega]
  have hupper : (tableState points j (i + 1)).1[i]? = some (i - (j - 1), i) := by
    simp only [tableState, List.getElem?_map, List.getElem?_range hi]
    rw [Option.map_some, if_neg (by omega)]
  have hne : points[i] - points[i - j] ≠ 0 := fun hzero => by
    have := h.getElem_inj_iff.1 (sub_eq_zero.1 hzero)
    omega
  have hpos := position_lt (show j < points.length by omega) hi
  have hlen : (tableState points j (i + 1)).2.length = points.length * points.length := by
    simp [tableState]
  simp only [computeEntry, hlower, hupper, Option.bind_eq_bind, Option.bind_some,
    List.getElem?_eq_getElem hi, List.getElem?_eq_getElem (show i - j < points.length by omega), hlen]
  rw [if_pos ⟨hne, hpos⟩]
  refine congrArg some (Prod.ext ?_ ?_)
  · refine List.ext_getElem (by simp [tableState]) fun m hm hm' => ?_
    simp only [tableState, List.getElem_set, List.getElem_map, List.getElem_range]
    by_cases hmi : i = m
    · subst hmi
      rw [if_pos rfl, if_pos le_rfl]
    · rw [if_neg hmi]
      by_cases hlt : i + 1 ≤ m
      · rw [if_pos hlt, if_pos (by omega)]
      · rw [if_neg hlt, if_neg (by omega)]
  · refine List.ext_getElem (by simp [tableState]) fun c hc hc' => ?_
    simp only [tableState, List.getElem_set, List.getElem_map, List.getElem_range]
    obtain ⟨hrow, hcol⟩ := div_mod_position (N := points.length) (j := j) hi
    by_cases hci : j * points.length + i = c
    · subst hci
      rw [if_pos rfl, entry, hrow, hcol, if_pos ⟨hj, hji, Or.inr ⟨rfl, le_rfl⟩⟩]
      simp [List.getD_eq_getElem?_getD, hi, show i - j < points.length by omega]
    · rw [if_neg hci, entry, entry]
      refine if_congr ?_ rfl rfl
      have hne : ¬(c / points.length = j ∧ c % points.length = i) := fun hboth => hci (by
        rw [← hboth.1, ← hboth.2, Nat.mul_comm, Nat.div_add_mod])
      omega

omit [DecidableEq F] in
theorem tableState_succ {j : ℕ} (hj : 1 ≤ j) (hjN : j < points.length) :
    tableState points j j = tableState points (j + 1) points.length := by
  refine Prod.ext (List.map_congr_left fun i hi => ?_) (List.map_congr_left fun c hc => ?_)
  · have hlt := List.mem_range.1 hi
    rw [if_neg (Nat.not_le.2 hlt), Nat.add_sub_cancel]
    split_ifs with hji
    · rfl
    · rw [Prod.mk.injEq]
      omega
  · have hmod := Nat.mod_lt c (show 0 < points.length by omega)
    exact if_congr (by omega) rfl rfl

theorem computeNewtonPoints_eq (h : points.Nodup) :
    computeNewtonPoints points = some ((List.range (points.length * points.length)).map
      (entry points points.length points.length)) := by
  have hinit : ((List.range points.length).map fun index => (index, index),
      List.replicate (points.length * points.length) (0 : F)) =
        tableState points 1 points.length := by
    refine Prod.ext (List.map_congr_left fun i hi => ?_)
      (List.ext_getElem (by simp [tableState]) fun c hc hc' => ?_)
    · rw [if_neg (Nat.not_le.2 (List.mem_range.1 hi)), Nat.sub_self, Nat.sub_zero]
    · have hpos : 0 < points.length := by
        rw [List.length_replicate] at hc
        exact Nat.pos_of_ne_zero fun hzero => by simp [hzero] at hc
      have hmod := Nat.mod_lt c hpos
      simp only [tableState, List.getElem_replicate, List.getElem_map, List.getElem_range]
      rw [entry, if_neg (by omega)]
  simp only [computeNewtonPoints, hinit]
  rcases Nat.eq_zero_or_pos points.length with hzero | hpos
  · obtain rfl := List.length_eq_zero_iff.1 hzero
    rfl
  · have hloop := foldlM_range' (j := 1) (k := points.length - 1)
      (T := fun j => tableState points j points.length) (f := fun s j =>
        (List.range' j (points.length - j)).reverse.foldlM (computeEntry points j) s)
      fun j hj hjN => by
        rw [foldlM_reverse_range' (T := tableState points j) (by omega) fun i hji hi =>
          computeEntry_tableState h hj hji hi, tableState_succ hj (by omega)]
    rw [hloop, show 1 + (points.length - 1) = points.length by omega]
    rfl

theorem new_eq (h : points.Nodup) :
    new points = some ⟨points, (List.range (points.length * points.length)).map
      (entry points points.length points.length)⟩ := by
  rw [new, computeNewtonPoints_eq h, Option.map_some]

/-! ## A pass over the values -/

/-- The values in the middle of a pass that reads the entries `w`: those from `k` on are updated. -/
def passWith (w : ℕ → F) (k : ℕ) (values : List F) : List F :=
  values.mapIdx fun i value => if k ≤ i then (value - values.getD (i - 1) 0) * w i else value

omit [DecidableEq F] in
theorem passWith_length (w : ℕ → F) (values : List F) :
    passWith w values.length values = values := by
  refine List.ext_getElem (by simp [passWith]) fun i hi hi' => ?_
  simp only [passWith, List.getElem_mapIdx]
  rw [if_neg (Nat.not_le.2 hi')]

omit [DecidableEq F] in
theorem update_passWith {self : NewtonPolynomial F} {values : List F} {w : ℕ → F} {j i : ℕ}
    (hi : 1 ≤ i) (hin : i < values.length) (hw : self.cache[j * values.length + i]? = some (w i)) :
    self.update values.length j (passWith w (i + 1) values) i = some (passWith w i values) := by
  have hprev : i - 1 < values.length := by omega
  have hlower : (passWith w (i + 1) values)[i - 1]? = some values[i - 1] := by
    rw [passWith, List.getElem?_mapIdx, List.getElem?_eq_getElem hprev, Option.map_some,
      if_neg (by omega)]
  have hupper : (passWith w (i + 1) values)[i]? = some values[i] := by
    rw [passWith, List.getElem?_mapIdx, List.getElem?_eq_getElem hin, Option.map_some,
      if_neg (by omega)]
  simp only [update, hlower, hupper, hw, Option.bind_eq_bind, Option.bind_some]
  refine congrArg some (List.ext_getElem (by simp [passWith]) fun m hm hm' => ?_)
  simp only [passWith, List.getElem_set, List.getElem_mapIdx]
  by_cases him : i = m
  · subst him
    rw [if_pos rfl, if_pos le_rfl, List.getD_eq_getElem?_getD, List.getElem?_eq_getElem hprev,
      Option.getD_some]
  · rw [if_neg him]
    exact if_congr (by omega) rfl rfl

omit [DecidableEq F] in
theorem foldlM_update {self : NewtonPolynomial F} {values : List F} {w : ℕ → F} {j : ℕ}
    (hj : 1 ≤ j) (hjn : j ≤ values.length)
    (hw : ∀ i < values.length, self.cache[j * values.length + i]? = some (w i)) :
    (List.range' j (values.length - j)).reverse.foldlM (self.update values.length j) values =
      some (passWith w j values) := by
  have hloop := foldlM_reverse_range' (T := fun k => passWith w k values) (n := values.length)
    (f := self.update values.length j) hjn fun i hji hi =>
      update_passWith (hj.trans hji) hi (hw i hi)
  rwa [passWith_length] at hloop

omit [Field F] [DecidableEq F] in
theorem length_foldl {f : List F → ℕ → List F} (hf : ∀ vs j, (f vs j).length = vs.length)
    (js : List ℕ) (values : List F) : (js.foldl f values).length = values.length := by
  induction js generalizing values with
  | nil => rfl
  | cons j js ih => rw [List.foldl_cons, ih, hf]

omit [Field F] [DecidableEq F] in
theorem foldlM_eq_foldl {n : ℕ} {step : List F → ℕ → Option (List F)}
    {f : List F → ℕ → List F} {js : List ℕ} {values : List F} (hlen : values.length = n)
    (hf : ∀ vs j, (f vs j).length = vs.length)
    (h : ∀ j ∈ js, ∀ vs : List F, vs.length = n → step vs j = some (f vs j)) :
    js.foldlM step values = some (js.foldl f values) := by
  induction js generalizing values with
  | nil => rfl
  | cons j js ih =>
    obtain ⟨hj, hjs⟩ := List.forall_mem_cons.1 h
    rw [List.foldlM_cons, hj values hlen, List.foldl_cons]
    exact ih ((hf values j).trans hlen) hjs

/-! ## The interpolation on the table -/

/-- The polynomial of distinct points, with its whole table. -/
def ofNodup (points : List F) : NewtonPolynomial F :=
  ⟨points, (List.range (points.length * points.length)).map
    (entry points points.length points.length)⟩

/-- The entries that pass `j` reads for `n` values. -/
def readEntries (points : List F) (n j i : ℕ) : F :=
  entry points points.length points.length (j * n + i)

omit [DecidableEq F] in
theorem interpolateInPlace_eq {values : List F} (hn : values.length ≤ points.length) :
    (ofNodup points).interpolateInPlace values =
      some ((List.range' 1 (values.length - 1)).foldl (fun vs j =>
        passWith (readEntries points values.length j) j vs) values) := by
  refine (if_pos hn).trans ?_
  refine foldlM_eq_foldl rfl (fun vs j => by simp [passWith]) fun j hj vs hvs => ?_
  have hj' := List.mem_range'_1.1 hj
  rw [← hvs]
  refine foldlM_update hj'.1 (by omega) fun i hi => ?_
  have hlt : j * vs.length + i < points.length * points.length :=
    (position_lt (by omega) hi).trans_le (Nat.mul_le_mul (by omega) (by omega))
  simp [ofNodup, readEntries, hlt]

/-- The interpolation runs, and its result evaluates to the polynomial through the values. -/
def Interpolates (points values : List F) : Prop :=
  ∃ self coefficients, new points = some self ∧
    self.interpolateInPlace values = some coefficients ∧
    ∃ p : F[X], p.degree < values.length ∧ (∀ i < values.length,
      p.eval (points.getD i 0) = values.getD i 0) ∧
      ∀ x, self.eval coefficients x = some (p.eval x)

/-! ### As many values as points -/

omit [DecidableEq F] in
theorem passWith_readEntries {j : ℕ} (hj : 1 ≤ j) {vs : List F} (hlen : vs.length = points.length) :
    passWith (readEntries points points.length j) j vs = Inferno.NewtonPolynomial.pass points j vs := by
  refine List.ext_getElem (by simp [passWith, Inferno.NewtonPolynomial.pass]) fun i hi hi' => ?_
  have hin : i < points.length := by
    rw [← hlen]
    simpa [passWith] using hi
  simp only [passWith, Inferno.NewtonPolynomial.pass, List.getElem_mapIdx]
  split_ifs with hji
  · obtain ⟨hrow, hcol⟩ := div_mod_position (N := points.length) (j := j) hin
    rw [readEntries, entry, hrow, hcol, if_pos ⟨hj, hji, Or.inl (by omega)⟩,
      Inferno.NewtonPolynomial.cache]
  · rfl

omit [DecidableEq F] in
theorem interpolateInPlace_of_length_eq {values : List F} (hn : values.length = points.length) :
    (ofNodup points).interpolateInPlace values =
      some (Inferno.NewtonPolynomial.interpolate points values) := by
  rw [interpolateInPlace_eq hn.le, Inferno.NewtonPolynomial.interpolate, List.range'_eq_map_range,
    List.foldl_map]
  refine congrArg some ?_
  have hfold : ∀ (js : List ℕ) (vs : List F), vs.length = points.length →
      js.foldl (fun vs j => passWith (readEntries points values.length (1 + j)) (1 + j) vs) vs =
        js.foldl (fun vs j => Inferno.NewtonPolynomial.pass points (j + 1) vs) vs := by
    intro js
    induction js with
    | nil => exact fun _ _ => rfl
    | cons j js ih =>
      intro vs hvs
      rw [List.foldl_cons, List.foldl_cons, hn, Nat.add_comm 1 j,
        passWith_readEntries (Nat.succ_pos j) hvs, ← hn]
      exact ih _ (by simp [Inferno.NewtonPolynomial.pass, hvs])
  exact hfold _ values hn

omit [DecidableEq F] in
theorem length_interpolate (points values : List F) :
    (Inferno.NewtonPolynomial.interpolate points values).length = values.length := by
  exact length_foldl (fun _ _ => by simp [Inferno.NewtonPolynomial.pass]) _ _

omit [DecidableEq F] in
theorem eval_of_length {self : NewtonPolynomial F} {coefficients : List F} {n : ℕ}
    (hlen : coefficients.length = n) (hpos : 0 < n) (hn : n ≤ self.points.length) (x : F) :
    self.eval coefficients x =
      some (Inferno.NewtonPolynomial.eval self.points coefficients x) := by
  subst hlen
  exact if_pos ⟨hpos, hn⟩

theorem interpolates_of_length_eq (h : points.Nodup) {values : List F} (hpos : 0 < values.length)
    (hn : values.length = points.length) : Interpolates points values := by
  let v := fun i => points.getD i 0
  have hinj : Set.InjOn v (Finset.range points.length) := Inferno.NewtonPolynomial.injOn_getD h
  let p := Lagrange.interpolate (Finset.range points.length) v fun i => values.getD i 0
  have hdegree : p.degree < points.length := by
    have hlt := Lagrange.degree_interpolate_lt (fun i => values.getD i 0) hinj
    rwa [Finset.card_range] at hlt
  have hvalue : ∀ i < values.length, p.eval (points.getD i 0) = values.getD i 0 := fun i hi =>
    Lagrange.eval_interpolate_at_node _ hinj (Finset.mem_range.2 (hn ▸ hi))
  have hvalues : values = points.map p.eval := by
    refine List.ext_getElem (by simp [hn]) fun i hi hi' => ?_
    have hpoint := hvalue i hi
    rw [List.getElem_map]
    simpa [List.getD_eq_getElem?_getD, hi, hn ▸ hi] using hpoint.symm
  refine ⟨ofNodup points, _, new_eq h, interpolateInPlace_of_length_eq hn, p, hn ▸ hdegree, hvalue,
    fun x => ?_⟩
  rw [eval_of_length (length_interpolate points values) hpos hn.le]
  refine congrArg some ?_
  have hlen := (length_interpolate points values).trans hn
  rw [show (ofNodup points).points = points from rfl,
    Inferno.NewtonPolynomial.eval_eq_evalWithBasisPolynomial x hlen (hn ▸ hpos), hvalues]
  exact Inferno.NewtonPolynomial.evalWithBasisPolynomial_interpolate h (hn ▸ hpos) hdegree x

theorem interpolates_one (h : points.Nodup) (hpos : 0 < points.length) {values : List F}
    (hn : values.length = 1) : Interpolates points values := by
  obtain ⟨y, rfl⟩ := List.length_eq_one_iff.1 hn
  refine ⟨ofNodup points, [y], new_eq h, interpolateInPlace_eq hpos, C y, ?_, fun i hi => ?_,
    fun x => ?_⟩
  · exact degree_C_lt
  · obtain rfl : i = 0 := by simpa using hi
    rw [eval_C]
    rfl
  · have hlen : [y].length ≤ (ofNodup points).points.length := hpos
    rw [eval_of_length (rfl : [y].length = 1) Nat.one_pos hlen, eval_C]
    simp [Inferno.NewtonPolynomial.eval]

/-! ### Fewer values than points -/

section Fewer

variable {values : List F}

omit [DecidableEq F] in
/-- For fewer values than points the first pass reads the first row, which is empty, or its end. -/
theorem readEntries_one {n : ℕ} (hn : n < points.length) : readEntries points n 1 1 = 0 := by
  have hempty : ¬(1 ≤ (1 * n + 1) / points.length ∧
      (1 * n + 1) / points.length ≤ (1 * n + 1) % points.length) := by
    rcases Nat.lt_or_ge (1 * n + 1) points.length with hlt | hge
    · rw [Nat.div_eq_of_lt hlt]
      omega
    · rw [show 1 * n + 1 = points.length by omega, Nat.mod_self]
      omega
  rw [readEntries, entry, if_neg fun h => hempty ⟨h.1, h.2.1⟩]

omit [DecidableEq F] in
theorem getD_passWith {w : ℕ → F} {k i : ℕ} (vs : List F) (hi : i < vs.length) :
    (passWith w k vs).getD i 0 =
      if k ≤ i then (vs.getD i 0 - vs.getD (i - 1) 0) * w i else vs.getD i 0 := by
  simp [passWith, List.getD_eq_getElem?_getD, hi]

omit [DecidableEq F] in
theorem foldl_passWith_getD {w : ℕ → ℕ → F} {js : List ℕ} (hjs : ∀ j ∈ js, 2 ≤ j) {i : ℕ}
    (hi : i < 2) (vs : List F) (hvs : 2 ≤ vs.length) :
    (js.foldl (fun vs j => passWith (w j) j vs) vs).getD i 0 = vs.getD i 0 := by
  induction js generalizing vs with
  | nil => rfl
  | cons j js ih =>
    obtain ⟨hj, hjs⟩ := List.forall_mem_cons.1 hjs
    rw [List.foldl_cons, ih hjs _ (by simpa [passWith] using hvs), getD_passWith vs (by omega),
      if_neg (by omega)]

theorem not_interpolates (h : points.Nodup) (hn : 2 ≤ values.length)
    (hlt : values.length < points.length) (hne : values.getD 0 0 ≠ values.getD 1 0) :
    ¬Interpolates points values := by
  rintro ⟨self, coefficients, hnew, hinterpolate, p, -, hp, heval⟩
  rw [new_eq h, Option.some.injEq] at hnew
  subst hnew
  rw [← ofNodup, interpolateInPlace_eq hlt.le, Option.some.injEq] at hinterpolate
  have hjs : List.range' 1 (values.length - 1) = 1 :: List.range' 2 (values.length - 2) := by
    rw [show values.length - 1 = (values.length - 2) + 1 by omega, List.range'_succ]
  rw [hjs, List.foldl_cons] at hinterpolate
  have hlater : ∀ j ∈ List.range' 2 (values.length - 2), 2 ≤ j := fun j hj =>
    (List.mem_range'_1.1 hj).1
  have hpass : (passWith (readEntries points values.length 1) 1 values).length = values.length := by
    simp [passWith]
  have hfirst : coefficients.getD 0 0 = values.getD 0 0 := by
    rw [← hinterpolate, foldl_passWith_getD hlater (by norm_num) _ (hpass.ge.trans' hn),
      getD_passWith values (by omega), if_neg (by norm_num)]
  have hsecond : coefficients.getD 1 0 = 0 := by
    rw [← hinterpolate, foldl_passWith_getD hlater (by norm_num) _ (hpass.ge.trans' hn),
      getD_passWith values (by omega), if_pos le_rfl, readEntries_one hlt, mul_zero]
  have hlen : coefficients.length = values.length := by
    rw [← hinterpolate, length_foldl (fun _ _ => by simp [passWith]), hpass]
  have hvalue := heval (points.getD 1 0)
  rw [eval_of_length hlen (by omega) hlt.le, Option.some.injEq, hp 1 hn,
    Inferno.NewtonPolynomial.eval_eq_sum _ (by omega), hlen] at hvalue
  refine hne ?_
  rw [← hvalue, ← hfirst, Finset.sum_eq_single 0 ?_ fun hout => absurd (Finset.mem_range.2 (by omega)) hout,
    Finset.range_zero, Finset.prod_empty, mul_one]
  intro i _ hi
  rcases Nat.lt_or_ge i 2 with hlow | hhigh
  · rw [show i = 1 by omega, hsecond, zero_mul]
  · rw [Finset.prod_eq_zero (i := 1) (Finset.mem_range.2 hhigh) (sub_self _), mul_zero]

end Fewer

/-- For a number of values the interpolation is right for all of them exactly when there is one, or
as many as points. -/
theorem interpolates_iff (h : points.Nodup) :
    (∀ n ≤ points.length, (∀ values : List F, values.length = n → Interpolates points values) ↔
      n = 1 ∨ 0 < n ∧ n = points.length) ∧
    ∀ values : List F, 2 ≤ values.length → values.length < points.length →
      values.getD 0 0 ≠ values.getD 1 0 → ¬Interpolates points values := by
  refine ⟨fun n hn => ⟨fun hall => ?_, ?_⟩, fun values => not_interpolates h⟩
  · rcases Nat.lt_trichotomy n 1 with hzero | hone | htwo
    · obtain rfl : n = 0 := by omega
      obtain ⟨self, coefficients, -, hinterpolate, p, -, -, heval⟩ := hall [] rfl
      obtain rfl : coefficients = [] := by
        have hnil : self.interpolateInPlace [] = some [] := by
          show (if 0 ≤ self.points.length then some [] else none) = some []
          exact if_pos (Nat.zero_le _)
        rw [hnil, Option.some.injEq] at hinterpolate
        exact hinterpolate.symm
      exact nomatch heval 0
    · exact Or.inl hone
    · by_contra hnot
      have hlen : (1 :: List.replicate (n - 1) (0 : F)).length = n := by
        rw [List.length_cons, List.length_replicate]
        omega
      have hne : (1 :: List.replicate (n - 1) (0 : F)).getD 0 0 ≠
          (1 :: List.replicate (n - 1) (0 : F)).getD 1 0 := by
        rw [List.getD_cons_zero, List.getD_cons_succ, List.getD_eq_getElem?_getD,
          List.getElem?_replicate]
        split_ifs <;> exact one_ne_zero
      exact not_interpolates h (by omega) (by omega) hne (hall _ hlen)
  · rintro (rfl | ⟨hpos, rfl⟩) values hvalues
    · exact interpolates_one h hn hvalues
    · exact interpolates_of_length_eq h (by omega) hvalues

/-- Three points. -/
theorem interpolates_iff_three :
    (∀ n ≤ ([0, 1, 2] : List (ZMod 3)).length,
      (∀ values : List (ZMod 3), values.length = n → Interpolates [0, 1, 2] values) ↔
        n = 1 ∨ 0 < n ∧ n = ([0, 1, 2] : List (ZMod 3)).length) ∧
    ∀ values : List (ZMod 3), 2 ≤ values.length →
      values.length < ([0, 1, 2] : List (ZMod 3)).length →
      values.getD 0 0 ≠ values.getD 1 0 → ¬Interpolates [0, 1, 2] values :=
  interpolates_iff (by decide)

/-- Two values for three points. -/
theorem not_interpolates_two : ¬Interpolates ([0, 1, 2] : List (ZMod 3)) [0, 1] :=
  not_interpolates (by decide) (by decide) (by decide) (by decide)

end NewtonPolynomial

end EdaBitGen
