import EdaBitGen.HdQuicksilver.Proof

/-!
# Completeness and soundness of the proof

Every call adds the polynomial of its statement to the accumulated one, on the prover's side as
coefficients and on the verifier's side as a value at `Δ`.  The accumulated polynomial has the sum of
the asserted values with the powers of `chi` as its leading coefficient.
-/

namespace EdaBitGen

open Coefficients Polynomial Interaction Party HDInterp

variable {M G H PF F : Type} [Field PF] [Field F] [DecidableEq F] [Algebra PF F]

/-! ## The polynomial of a statement -/

/-- The product of `a`, `a - 1` and so on up to `a - n`. -/
noncomputable def rangePoly (a : DegPoly F) : ℕ → DegPoly F
  | 0 => a
  | n + 1 => (rangePoly a n).mul (a.addConstant (-(n + 1)))

omit [DecidableEq F] in
theorem lead_rangePoly (a : DegPoly F) (n : ℕ) :
    (rangePoly a n).lead = ∏ k ∈ Finset.range (n + 1), (a.lead - k) := by
  induction n with
  | zero => simp [rangePoly]
  | succ n ih =>
    rw [rangePoly, DegPoly.lead_mul, ih, DegPoly.lead_addConstant, Finset.prod_range_succ _ (n + 1),
      sub_eq_add_neg, Nat.cast_succ]

omit [DecidableEq F] in
theorem degree_rangePoly (a : DegPoly F) (n : ℕ) :
    (rangePoly a n).degree = (n + 1) * a.degree := by
  induction n with
  | zero => simp [rangePoly]
  | succ n ih =>
    rw [rangePoly, DegPoly.degree_mul, ih, DegPoly.degree_addConstant]
    ring

omit [DecidableEq F] in
theorem rangeProduct_polyKey (Δ : F) (a : DegPoly F) (n : ℕ) :
    QSStateVerifier.rangeProduct Δ (polyKey Δ a) n = (polyKey Δ (rangePoly a n), (n : F)) := by
  induction n with
  | zero => simp [QSStateVerifier.rangeProduct, rangePoly]
  | succ n ih =>
    rw [QSStateVerifier.rangeProduct, ih]
    simp only [← polyKey_subConstant, ← polyKey_mul, Nat.cast_succ, rangePoly]

theorem rangeProduct_represents {cv : Convolve F} (hcv : cv.Linear) {p : HDMacProver F}
    {a : DegPoly F} (h : p.Represents a) (hdeg : p.qsDegree = 1) (n : ℕ) :
    (QSStateProver.rangeProduct cv p n).1.Represents (rangePoly a n) ∧
      (QSStateProver.rangeProduct cv p n).2 = n := by
  induction n with
  | zero => exact ⟨h, by simp [QSStateProver.rangeProduct]⟩
  | succ n ih =>
    obtain ⟨hrep, hcst⟩ := ih
    have hsub := h.subAssignConstant (n + 1 : F)
    have hlen : ((p.subAssignConstant (n + 1 : F)).poly.coefficients.take
        (p.subAssignConstant (n + 1 : F)).poly.degree).length ≤ 1 := by
      have hle := hsub.degree_le
      have hqs : (p.subAssignConstant (n + 1 : F)).qsDegree = 1 := hdeg
      rw [List.length_take]
      omega
    rw [QSStateProver.rangeProduct]
    simp only [hcst]
    refine ⟨hrep.mulAssign hsub (hcv _ _ _ _ hlen), by simp⟩

/-- The next accumulated polynomial. -/
noncomputable def accumulate (chi : F) (S A : DegPoly F) : DegPoly F := (S.add (A.smul 1)).smul chi

omit [DecidableEq F] in
theorem verifier_checkZero (Δ chi : F) (S A : DegPoly F) (count : ℕ) :
    (⟨Δ, chi, polyKey Δ S, count⟩ : QSStateVerifier F).checkZero (polyKey Δ A) =
      ⟨Δ, chi, polyKey Δ (accumulate chi S A), count + 1⟩ := by
  have hadd := polyKey_add Δ S A true
  rw [if_pos rfl] at hadd
  simp only [QSStateVerifier.checkZero, HDMacVerifier.addAssign]
  rw [← hadd, ← polyKey_smul, accumulate]

theorem prover_checkZero {S A : DegPoly F} {self : QSStateProver F} {mp : HDMacProver F}
    (hS : self.state.Represents S) (hA : mp.Represents A) (h : mp.value = 0) :
    ∃ self', self.checkZero mp = some self' ∧ self'.chi = self.chi ∧
      self'.state.Represents (accumulate self.chi S A) := by
  obtain ⟨r, hr, hrep⟩ := hS.addAssign hA
  refine ⟨⟨self.chi, r.mulAssignConstant self.chi, self.count + 1⟩, ?_, rfl,
    hrep.mulAssignConstant self.chi⟩
  simp only [QSStateProver.checkZero, if_pos h, hr, Option.bind_eq_bind, Option.bind_some]

namespace QSCall

/-- What a call asserts holds, and the prover's code takes it: its multiplications satisfy `ok`, and
the MAC of a range check is of degree one. -/
def Honest (ok : HDMacProver F → HDMacProver F → Prop) : QSCall F → Prop
  | checkZero mp => mp.value = 0
  | checkMult mpA mpB mpC => mpA.value * mpB.value = mpC.value ∧ ok mpA mpB
  | checkPow2Range bits mp => (∃ k < 2 ^ bits, mp.value = (k : ℕ)) ∧ mp.qsDegree = 1

theorem value_eq_zero {ok : HDMacProver F → HDMacProver F → Prop} {c : QSCall F}
    (h : c.Honest ok) : c.value = 0 := by
  cases c with
  | checkZero mp => exact h
  | checkMult mpA mpB mpC => exact sub_eq_zero.2 h.1
  | checkPow2Range bits mp =>
    obtain ⟨⟨k, hk, hval⟩, -⟩ := h
    exact Finset.prod_eq_zero (Finset.mem_range.2 hk) (sub_eq_zero.2 hval)

/-- The calls of both parties add the polynomial `A` to the accumulated one. -/
structure Adds (cv : Convolve F) (ok : HDMacProver F → HDMacProver F → Prop) (c : QSCall F)
    (A : DegPoly F) : Prop where
  lead_eq : A.lead = c.value
  degree_eq : A.degree = c.degree
  verifier_eq : ∀ (Δ chi : F) (S : DegPoly F) (count : ℕ),
    verifier ⟨Δ, chi, polyKey Δ S, count⟩ c =
      some ⟨Δ, chi, polyKey Δ (accumulate chi S A), count + 1⟩
  prover_eq : c.Honest ok → ∀ (S : DegPoly F) (self : QSStateProver F), self.state.Represents S →
    ∃ self', prover cv self c = some self' ∧ self'.chi = self.chi ∧
      self'.state.Represents (accumulate self.chi S A)

omit [DecidableEq F] in
theorem key_eq {p : HDMacProver F} {a : DegPoly F} (h : p.Represents a) (Δ : F) :
    p.key Δ = polyKey Δ a := by
  rw [HDMacProver.key, polyKey, h.eval_eq, h.qsDegree_eq]

theorem exists_adds {cv : Convolve F} {ok : HDMacProver F → HDMacProver F → Prop}
    (hcv : cv.Linear) (hok : ∀ p q, ok p q → HDMacProver.Multiplies cv .mulAssign p q)
    {c : QSCall F} (h : c.WellFormed) : ∃ A, c.Adds cv ok A := by
  cases c with
  | checkZero mp =>
    obtain ⟨a, ha⟩ := represents_toDegPoly h
    refine ⟨a, ha.value_eq.symm, ha.qsDegree_eq.symm, fun Δ chi S count => ?_,
      fun hhon S self hS => prover_checkZero hS ha hhon⟩
    rw [QSCall.verifier, key_eq ha, verifier_checkZero]
  | checkMult mpA mpB mpC =>
    obtain ⟨a, ha⟩ := represents_toDegPoly h.1
    obtain ⟨b, hb⟩ := represents_toDegPoly h.2.1
    obtain ⟨c, hc⟩ := represents_toDegPoly h.2.2
    refine ⟨(a.mul b).add (c.smul (-1)), ?_, ?_, fun Δ chi S count => ?_, fun hhon S self hS => ?_⟩
    · simp [QSCall.value, ha.value_eq, hb.value_eq, hc.value_eq, sub_eq_add_neg]
    · simp [QSCall.degree, ha.qsDegree_eq, hb.qsDegree_eq, hc.qsDegree_eq]
    · have hsub := polyKey_add Δ (a.mul b) c false
      rw [if_neg Bool.false_ne_true, polyKey_mul] at hsub
      simp only [QSCall.verifier, QSStateVerifier.checkMult, key_eq ha, key_eq hb, key_eq hc]
      rw [HDMacVerifier.subAssign, ← hsub, verifier_checkZero]
    · obtain ⟨r, hr, hrep⟩ := (ha.mulAssign hb (hok _ _ hhon.2)).subAssign hc
      have hval : r.value = 0 := by
        rw [hrep.value_eq, DegPoly.lead_add, DegPoly.lead_mul, DegPoly.lead_smul, ← ha.value_eq,
          ← hb.value_eq, ← hc.value_eq, hhon.1]
        ring
      obtain ⟨self', hself, hrest⟩ := prover_checkZero hS hrep hval
      refine ⟨self', ?_, hrest⟩
      simp only [QSCall.prover, QSStateProver.checkMult, if_pos hhon.1, hr, Option.bind_eq_bind,
        Option.bind_some, hself]
  | checkPow2Range bits mp =>
    obtain ⟨hdeg, hpos, hlt⟩ := h
    obtain ⟨a, ha⟩ := represents_toDegPoly hdeg
    have hrounds : pow2Rounds bits = some (2 ^ bits - 1) := if_pos hlt
    have hpow : 2 ^ bits - 1 + 1 = 2 ^ bits := Nat.sub_add_cancel Nat.one_le_two_pow
    have hlead : (rangePoly a (2 ^ bits - 1)).lead = QSCall.value (.checkPow2Range bits mp) := by
      rw [lead_rangePoly, hpow, ← ha.value_eq]
      rfl
    refine ⟨rangePoly a (2 ^ bits - 1), hlead, ?_, fun Δ chi S count => ?_,
      fun hhon S self hS => ?_⟩
    · rw [degree_rangePoly, hpow, ← ha.qsDegree_eq]
      rfl
    · simp only [QSCall.verifier, QSStateVerifier.checkPow2Range, hrounds, Option.bind_eq_bind,
        Option.bind_some, key_eq ha, rangeProduct_polyKey, verifier_checkZero]
    · obtain ⟨hrep, -⟩ := rangeProduct_represents hcv ha hhon.2 (2 ^ bits - 1)
      have hqs : (QSStateProver.rangeProduct cv mp (2 ^ bits - 1)).1.qsDegree = 2 ^ bits := by
        rw [hrep.qsDegree_eq, degree_rangePoly, hpow, ← ha.qsDegree_eq, hhon.2, mul_one]
      have hval : (QSStateProver.rangeProduct cv mp (2 ^ bits - 1)).1.value = 0 := by
        rw [hrep.value_eq, hlead]
        exact value_eq_zero hhon
      obtain ⟨self', hself, hrest⟩ := prover_checkZero hS hrep hval
      refine ⟨self', ?_, hrest⟩
      simp only [QSCall.prover, QSStateProver.checkPow2Range, if_pos hpos, hrounds,
        Option.bind_eq_bind, Option.bind_some, if_pos hqs, hself]

end QSCall

/-! ## The accumulated polynomial -/

/-- The degree of the statements, or one. -/
def qsDegree (calls : List (QSCall F)) : ℕ := calls.foldl (fun d c => max d c.degree) 1

omit [Field F] [DecidableEq F] in
theorem le_foldl_max (calls : List (QSCall F)) (d : ℕ) :
    d ≤ calls.foldl (fun d c => max d c.degree) d := by
  induction calls generalizing d with
  | nil => exact le_rfl
  | cons c calls ih => exact (Nat.le_max_left _ _).trans (ih (max d c.degree))

omit [Field F] [DecidableEq F] in
theorem one_le_qsDegree (calls : List (QSCall F)) : 1 ≤ qsDegree calls := le_foldl_max calls 1

omit [DecidableEq F] in
theorem foldl_eq_powerSum (chi : F) (vs : List F) :
    vs.foldl (fun acc v => chi * (acc + v)) 0 = Roots.powerSum chi vs.reverse := by
  rw [← List.foldr_reverse]
  induction vs.reverse with
  | nil => rfl
  | cons v vs ih => rw [List.foldr_cons, ih, Roots.powerSum_cons, add_comm]

/-- What the calls `calls` make of the accumulated polynomial `S`. -/
structure Accumulates (cv : Convolve F) (ok : HDMacProver F → HDMacProver F → Prop) (chi : F)
    (calls : List (QSCall F)) (S T : DegPoly F) : Prop where
  lead_eq : T.lead = (calls.map QSCall.value).foldl (fun acc v => chi * (acc + v)) S.lead
  degree_eq : T.degree = calls.foldl (fun d c => max d c.degree) S.degree
  verifier_eq : ∀ (Δ : F) (count : ℕ),
    calls.foldlM QSCall.verifier ⟨Δ, chi, polyKey Δ S, count⟩ =
      some ⟨Δ, chi, polyKey Δ T, count + calls.length⟩
  prover_eq : (∀ c ∈ calls, c.Honest ok) → ∀ self : QSStateProver F, self.chi = chi →
    self.state.Represents S → ∃ self', calls.foldlM (QSCall.prover cv) self = some self' ∧
      self'.chi = chi ∧ self'.state.Represents T

theorem exists_accumulates {cv : Convolve F} {ok : HDMacProver F → HDMacProver F → Prop}
    (hcv : cv.Linear) (hok : ∀ p q, ok p q → HDMacProver.Multiplies cv .mulAssign p q) (chi : F)
    {calls : List (QSCall F)} (h : ∀ c ∈ calls, c.WellFormed) (S : DegPoly F) :
    ∃ T, Accumulates cv ok chi calls S T := by
  induction calls generalizing S with
  | nil => exact ⟨S, rfl, rfl, fun _ _ => rfl, fun _ self hchi hS => ⟨self, rfl, hchi, hS⟩⟩
  | cons c calls ih =>
    obtain ⟨A, hA⟩ := QSCall.exists_adds hcv hok (h c List.mem_cons_self)
    obtain ⟨T, hT⟩ := ih (fun d hd => h d (List.mem_cons_of_mem _ hd)) (accumulate chi S A)
    refine ⟨T, ?_, ?_, fun Δ count => ?_, fun hhon self hchi hS => ?_⟩
    · rw [hT.lead_eq, accumulate, DegPoly.lead_smul, DegPoly.lead_add, DegPoly.lead_smul, one_mul,
        hA.lead_eq]
      rfl
    · rw [hT.degree_eq, accumulate, DegPoly.degree_smul, DegPoly.degree_add, DegPoly.degree_smul,
        hA.degree_eq]
      rfl
    · rw [List.foldlM_cons, hA.verifier_eq, Option.bind_eq_bind, Option.bind_some, hT.verifier_eq,
        List.length_cons]
      congr 2
      omega
    · obtain ⟨self₁, hself₁, hchi₁, hS₁⟩ := hA.prover_eq (hhon c List.mem_cons_self) S self hS
      rw [hchi] at hchi₁ hS₁
      obtain ⟨self₂, hself₂, hrest⟩ :=
        hT.prover_eq (fun d hd => hhon d (List.mem_cons_of_mem _ hd)) self₁ hchi₁ hS₁
      refine ⟨self₂, ?_, hrest⟩
      rw [List.foldlM_cons, hself₁, Option.bind_eq_bind, Option.bind_some, hself₂]

variable [FiniteField PF F]

omit [DecidableEq F] in
theorem exists_maskStep (j : ℕ) (is : List (Fin (FiniteField.degree PF F)))
    (s : FComProver PF F) : ∃ (u w : F) (s' : FComProver PF F),
    (∀ mask : GeneralPolynomial F, j + 1 ≤ mask.coefficients.length → ∃ mask',
      Silent (QSStateProver.maskStep j is mask : Party M G _ _) s mask' s' ∧
      mask'.coefficients.length = mask.coefficients.length ∧
      mask'.toPoly = mask.toPoly + X ^ j * (C u * X - C w)) ∧
    ∀ Δ x, Silent (QSStateVerifier.maskStep PF is x : Party M H _ _) (s.keys Δ)
      (x + (u * Δ - w)) (s'.keys Δ) := by
  induction is generalizing s with
  | nil =>
    refine ⟨0, 0, s, fun mask _ => ⟨mask, Silent.pure, rfl, by simp⟩, fun Δ x => ?_⟩
    have hx : x + (0 * Δ - 0) = x := by ring
    rw [hx]
    exact Silent.pure
  | cons i is ih =>
    have hp := (silent_random (M := M) (G := G) (H := H) s).1
    have hv := (silent_random (M := M) (G := G) (H := H) s).2
    obtain ⟨u, w, s', hprover, hverifier⟩ := ih ⟨s.pool.draw.2⟩
    refine ⟨s.pool.draw.1.value • makeXI PF F i + u, s.pool.draw.1.mac * makeXI PF F i + w, s',
      fun mask hlen => ?_, fun Δ x => ?_⟩
    · obtain ⟨hpoly₁, hlen₁⟩ := mask.addAt_eq (o := j + 1)
        (l := [s.pool.draw.1.value • makeXI PF F i]) (by simpa using hlen)
      obtain ⟨hpoly₂, hlen₂⟩ := (mask.addAt (j + 1) [s.pool.draw.1.value • makeXI PF F i]).addAt_eq
        (o := j) (l := [-(s.pool.draw.1.mac * makeXI PF F i)])
        (by rw [hlen₁, List.length_singleton]; omega)
      obtain ⟨mask', hsilent, hlen', hpoly'⟩ := hprover _ (by rwa [hlen₂, hlen₁])
      refine ⟨mask', ?_, by rw [hlen', hlen₂, hlen₁], ?_⟩
      · unfold QSStateProver.maskStep at hsilent ⊢
        rw [List.foldlM_cons]
        refine Silent.bind (hp.bind Silent.pure) ?_
        exact hsilent
      · rw [hpoly', hpoly₂, hpoly₁]
        simp only [ofCoeffs_cons, ofCoeffs_nil, C_add, C_neg]
        ring
    · have hx : x + ((s.pool.draw.1.value • makeXI PF F i + u) * Δ -
          (s.pool.draw.1.mac * makeXI PF F i + w)) =
            x - (s.pool.draw.1.key Δ).mac * makeXI PF F i + (u * Δ - w) := by
        simp only [MacProver.key_mac, Algebra.smul_def]
        ring
      rw [hx]
      unfold QSStateVerifier.maskStep at hverifier ⊢
      rw [List.foldlM_cons]
      refine Silent.bind ((hv Δ).bind Silent.pure) ?_
      exact hverifier Δ _

omit [DecidableEq F] in
theorem exists_maskLoop (n : ℕ) (s : FComProver PF F) : ∃ (K : F[X]) (s' : FComProver PF F),
    K.natDegree ≤ n ∧
    (∀ mask : GeneralPolynomial F, n ≤ mask.coefficients.length → ∃ mask',
      Silent (QSStateProver.maskLoop n mask : Party M G _ _) s mask' s' ∧
      mask'.coefficients.length = mask.coefficients.length ∧
      mask'.toPoly = mask.toPoly + K) ∧
    ∀ Δ x, Silent (QSStateVerifier.maskLoop PF Δ n x : Party M H _ _) (s.keys Δ)
      (x * Δ ^ n + K.eval Δ) (s'.keys Δ) := by
  induction n generalizing s with
  | zero =>
    refine ⟨0, s, by simp, fun mask _ => ⟨mask, Silent.pure, rfl, by simp⟩, fun Δ x => ?_⟩
    have hx : x * Δ ^ 0 + eval Δ (0 : F[X]) = x := by simp
    rw [hx]
    exact Silent.pure
  | succ n ih =>
    obtain ⟨u, w, s₁, hprover, hverifier⟩ := exists_maskStep (M := M) (G := G) (H := H) n
      (List.finRange (FiniteField.degree PF F)) s
    obtain ⟨K, s', hK, hrest, hrest'⟩ := ih s₁
    refine ⟨X ^ n * (C u * X - C w) + K, s', ?_, fun mask hlen => ?_, fun Δ x => ?_⟩
    · refine (natDegree_add_le _ _).trans (max_le ?_ (hK.trans n.le_succ))
      refine natDegree_mul_le.trans ?_
      have hX := natDegree_X_pow_le (R := F) n
      have hlin : (C u * X - C w).natDegree ≤ 1 := by compute_degree
      omega
    · obtain ⟨mask₁, hsilent₁, hlen₁, hpoly₁⟩ := hprover mask hlen
      obtain ⟨mask₂, hsilent₂, hlen₂, hpoly₂⟩ := hrest mask₁ (by omega)
      refine ⟨mask₂, hsilent₁.bind hsilent₂, by rw [hlen₂, hlen₁], ?_⟩
      rw [hpoly₂, hpoly₁]
      ring
    · have hx : x * Δ ^ (n + 1) + eval Δ (X ^ n * (C u * X - C w) + K) =
          (x * Δ + (u * Δ - w)) * Δ ^ n + K.eval Δ := by
        simp only [eval_add, eval_mul, eval_pow, eval_X, eval_sub, eval_C]
        ring
      rw [hx]
      exact (hverifier Δ (x * Δ)).bind (hrest' Δ _)

/-! ## Finalizing -/

omit [DecidableEq F] in
theorem ofCoeffs_range (p : F[X]) {n : ℕ} (h : p.natDegree < n) :
    ofCoeffs ((List.range n).map p.coeff) = p := by
  ext i
  rw [coeff_ofCoeffs]
  by_cases hi : i < n
  · simp [hi]
  · rw [coeff_eq_zero_of_natDegree_lt (by omega)]
    simp [Nat.le_of_not_lt hi]

omit [DecidableEq F] in
theorem sync_maskLoop {Δ : F} (n : ℕ) :
    Sync (Correlated Δ)
      (QSStateProver.maskLoop n ⟨0, List.replicate n 0⟩ : Party M G (FComProver PF F) _)
      (QSStateVerifier.maskLoop PF Δ n 0 : Party M H _ _) fun mask x =>
        mask.coefficients.length = n ∧ x = mask.toPoly.eval Δ := by
  refine Sync.silent ?_
  rintro s _ rfl
  obtain ⟨K, s', -, hprover, hverifier⟩ := exists_maskLoop (M := M) (G := G) (H := H) n s
  obtain ⟨mask, hsilent, hlen, hpoly⟩ := hprover ⟨0, List.replicate n 0⟩ (by simp)
  refine ⟨mask, s', _, _, hsilent, hverifier Δ 0, rfl, ?_, ?_⟩
  · rw [hlen, List.length_replicate]
  · rw [hpoly, eval_add]
    simp [GeneralPolynomial.toPoly]

variable (PF) in
theorem sync_finalize [CanonicalSerialize M F] {Δ : F} {self : QSStateProver F} {S : DegPoly F}
    (hS : self.state.Represents S) (hlead : S.lead = 0) (hdeg : 0 < S.degree) (count : ℕ) :
    Sync (Correlated Δ) (self.finalize : Party M G (FComProver PF F) _)
      ((⟨Δ, self.chi, polyKey Δ S, count⟩ : QSStateVerifier F).finalizeAndVerify PF :
        Party M H _ _) fun self' r =>
          self' = .initWithChi self.chi ∧ r = (true, .initWithDeltaAndChi Δ self.chi) := by
  have hqs : self.state.qsDegree = S.degree := hS.qsDegree_eq
  have hlt : self.state.poly.degree < S.degree := by
    rw [GeneralPolynomial.degree_eq, hS.toPoly_eq]
    exact DegPoly.natDegree_lt_of_lead_eq_zero hdeg hlead
  have hne : S.degree ≠ 0 := by omega
  have hne' : self.state.qsDegree ≠ 0 := by omega
  unfold QSStateProver.finalize QSStateVerifier.finalizeAndVerify
  refine Sync.assert_left hne' (Sync.assert_right hne ?_)
  rw [hqs]
  refine Sync.bind (sync_maskLoop (S.degree - 1)) fun mask x hmask => ?_
  obtain ⟨hlen, rfl⟩ := hmask
  have hmaskdeg : mask.degree < S.degree := by
    have := mask.degree_le
    omega
  rw [← hqs] at hlt hmaskdeg
  unfold QSStateProver.finalizeWithMask
  rw [assert_true hlt, assert_true hmaskdeg, pure_bind, pure_bind, pure_bind]
  refine (Sync.write_readEach (fun j => (mask.addAssign self.state.poly).coeff j) rfl).bind
    fun _ out hout => ?_
  refine Sync.flush_left ?_
  have hpoly : ofCoeffs out = mask.toPoly + S.poly := by
    have hsum := (mask.addAssign_eq self.state.poly).1
    have hcoeff : (fun j => (mask.addAssign self.state.poly).coeff j) =
        (mask.toPoly + S.poly).coeff := by
      funext j
      rw [← GeneralPolynomial.coeff_toPoly, hsum, hS.toPoly_eq]
    rw [hout, hcoeff]
    refine ofCoeffs_range _ (lt_of_le_of_lt (natDegree_add_le _ _) (max_lt ?_ ?_))
    · rwa [← GeneralPolynomial.degree_eq, ← hqs]
    · exact DegPoly.natDegree_lt_of_lead_eq_zero hdeg hlead
  have hnum : out.length = S.degree := by rw [hout, List.length_map, List.length_range]
  cases out with
  | nil =>
    rw [List.length_nil] at hnum
    omega
  | cons c cs =>
    have hproof : (⟨c, cs⟩ : GeneralPolynomial F).degree < S.degree := by
      have hle := (⟨c, cs⟩ : GeneralPolynomial F).degree_le
      rw [List.length_cons] at hnum
      exact lt_of_le_of_lt hle (by simpa using hnum.le)
    have heval : (⟨c, cs⟩ : GeneralPolynomial F).eval Δ = S.poly.eval Δ + mask.toPoly.eval Δ := by
      rw [GeneralPolynomial.eval_eq, GeneralPolynomial.toPoly, hpoly, eval_add, add_comm]
    refine Sync.pure ⟨rfl, ?_⟩
    rw [QSStateVerifier.finalizeWithMaskAndVerify, decide_eq_true ⟨hproof, heval⟩]
    rfl

/-- An accepting verifier has received the coefficients of a polynomial that agrees at `Δ` with the
masked one. -/
theorem run_finalizeAndVerify [CanonicalSerialize M F] {Δ chi : F} {S : DegPoly F} {count : ℕ}
    {t t' : FComVerifier F} {h h' : H} {inbox rest : List M} {self : QSStateVerifier F} {x : F}
    (hmask : Silent (QSStateVerifier.maskLoop PF Δ (S.degree - 1) 0 : Party M H _ _) t x t')
    {t₁ : FComVerifier F}
    (hrun : Proc.run ((⟨Δ, chi, polyKey Δ S, count⟩ : QSStateVerifier F).finalizeAndVerify PF t h)
      inbox = some ((((true, self), t₁), h'), rest)) :
    S.degree ≠ 0 ∧ ∃ out mid, readEach F S.degree inbox = some (out, mid) ∧
      (ofCoeffs out).eval Δ = S.poly.eval Δ + x := by
  unfold QSStateVerifier.finalizeAndVerify at hrun
  rw [run_bind_eq_some] at hrun
  obtain ⟨_, s₁, g₁, mid₁, hassert, hrun⟩ := hrun
  obtain ⟨hne, rfl, rfl, rfl⟩ := run_assert_eq_some.1 hassert
  have hrun := (hmask.run_bind g₁ mid₁).symm.trans hrun
  rw [run_bind_eq_some] at hrun
  obtain ⟨out, s₂, g₂, mid₂, hread, hrun⟩ := hrun
  rw [run_mapM_readSerializable, Option.map_eq_some_iff] at hread
  obtain ⟨⟨xs, mid₃⟩, hread, heq⟩ := hread
  simp only [Prod.mk.injEq] at heq
  obtain ⟨⟨⟨rfl, rfl⟩, rfl⟩, rfl⟩ := heq
  rw [List.length_range] at hread
  refine ⟨hne, xs, mid₃, hread, ?_⟩
  have hlen : xs.length = S.degree := length_readEach hread
  cases xs with
  | nil => exact absurd hlen.symm hne
  | cons c cs =>
    obtain ⟨hval, -⟩ := run_pure_eq_some.1 hrun
    have hok := (Prod.mk.inj hval).1
    have hcheck := (of_decide_eq_true hok.symm).2
    rw [GeneralPolynomial.eval_eq] at hcheck
    exact hcheck

/-- When the leading coefficient of the accumulated polynomial does not vanish, the verifier accepts
a fixed response for no more values of `Δ` than the degree. -/
theorem encard_finalizeAndVerify_le [CanonicalSerialize M F] (chi : F) {S : DegPoly F} (count : ℕ)
    (hlead : S.lead ≠ 0) (s : FComProver PF F) (h : H) (inbox : List M) :
    {Δ : F | ∃ self t' h' rest, Proc.run
      ((⟨Δ, chi, polyKey Δ S, count⟩ : QSStateVerifier F).finalizeAndVerify PF (s.keys Δ) h) inbox =
        some ((((true, self), t'), h'), rest)}.encard ≤ S.degree := by
  obtain ⟨K, s₁, hK, -, hverifier⟩ :=
    exists_maskLoop (M := M) (G := H) (H := H) (S.degree - 1) s
  by_cases hacc : S.degree ≠ 0 ∧ ∃ out mid, readEach F S.degree inbox = some (out, mid)
  · obtain ⟨hne, out, mid, hread⟩ := hacc
    have hlen : out.length = S.degree := length_readEach hread
    have hcoeff : (S.poly + K - ofCoeffs out).coeff S.degree = S.lead := by
      have hK0 : K.coeff S.degree = 0 := coeff_eq_zero_of_natDegree_lt (by omega)
      have hout : (ofCoeffs out).coeff S.degree = 0 := by
        rw [coeff_ofCoeffs, List.getD_eq_getElem?_getD, List.getElem?_eq_none hlen.le,
          Option.getD_none]
      rw [coeff_sub, coeff_add, hK0, hout, add_zero, sub_zero]
      rfl
    have hpoly : S.poly + K - ofCoeffs out ≠ 0 := by
      intro hzero
      rw [hzero, coeff_zero] at hcoeff
      exact hlead hcoeff.symm
    have hdeg : (S.poly + K - ofCoeffs out).natDegree ≤ S.degree := by
      refine (natDegree_sub_le _ _).trans (max_le ((natDegree_add_le _ _).trans (max_le ?_ ?_)) ?_)
      · exact S.natDegree_le
      · omega
      · cases out with
        | nil => simp
        | cons c cs =>
          refine (natDegree_ofCoeffs_cons_le c cs).trans ?_
          rw [List.length_cons] at hlen
          omega
    refine (Set.encard_le_encard ?_).trans (Roots.encard_roots_le hpoly hdeg)
    rintro Δ ⟨self, t', h', rest, hrun⟩
    obtain ⟨-, out', mid', hread', hcheck⟩ := run_finalizeAndVerify (hverifier Δ 0) hrun
    obtain ⟨rfl, -⟩ : out = out' ∧ mid = mid' := by simpa [hread] using hread'
    show eval Δ (S.poly + K - ofCoeffs out) = 0
    rw [eval_sub, eval_add, hcheck]
    ring
  · refine (Set.encard_eq_zero.2 (Set.eq_empty_of_forall_notMem ?_)).trans_le bot_le
    rintro Δ ⟨self, t', h', rest, hrun⟩
    obtain ⟨hne, out, mid, hread, -⟩ := run_finalizeAndVerify (hverifier Δ 0) hrun
    exact hacc ⟨hne, out, mid, hread⟩

/-! ## Rounds -/

omit [DecidableEq F] in
theorem represents_default : (HDMacProver.default : HDMacProver F).Represents (.zero 1) :=
  ⟨GeneralPolynomial.toPoly_zero, rfl⟩

omit [DecidableEq F] in
theorem polyKey_default (Δ : F) : polyKey Δ (.zero 1) = HDMacVerifier.default := by
  simp [polyKey, DegPoly.zero, HDMacVerifier.default]

omit [DecidableEq F] in
theorem lead_zero (d : ℕ) : (DegPoly.zero d : DegPoly F).lead = 0 := coeff_zero d

theorem sync_rounds [CanonicalSerialize M F] {cv : Convolve F}
    {ok : HDMacProver F → HDMacProver F → Prop} (hcv : cv.Linear)
    (hok : ∀ p q, ok p q → HDMacProver.Multiplies cv .mulAssign p q) (Δ chi : F)
    (rounds : List (List (QSCall F)))
    (h : ∀ calls ∈ rounds, ∀ c ∈ calls, c.WellFormed ∧ c.Honest ok) :
    Sync (Correlated Δ)
      (QSStateProver.rounds PF cv rounds (.initWithChi chi) : Party M G (FComProver PF F) _)
      (QSStateVerifier.rounds PF rounds (.initWithDeltaAndChi Δ chi) : Party M H _ _) fun self r =>
        self = .initWithChi chi ∧
          r = (List.replicate rounds.length true, .initWithDeltaAndChi Δ chi) := by
  induction rounds with
  | nil => exact Sync.pure ⟨rfl, rfl⟩
  | cons calls rounds ih =>
    have hcalls := h calls List.mem_cons_self
    obtain ⟨T, hT⟩ := exists_accumulates hcv hok chi
      (fun c hc => (hcalls c hc).1) (.zero 1)
    have hver := hT.verifier_eq Δ 0
    rw [polyKey_default] at hver
    obtain ⟨self, hself, hchi, hrep⟩ := hT.prover_eq (fun c hc => (hcalls c hc).2)
      (.initWithChi chi) rfl represents_default
    have hlead : T.lead = 0 := by
      rw [hT.lead_eq, lead_zero, foldl_eq_powerSum]
      refine Roots.powerSum_eq_zero_of_forall _ fun v hv => ?_
      obtain ⟨c, hc, rfl⟩ := List.mem_map.1 (List.mem_reverse.1 hv)
      exact QSCall.value_eq_zero (hcalls c hc).2
    have hdeg : 0 < T.degree := by
      rw [hT.degree_eq]
      exact one_le_qsDegree calls
    have hfin := sync_finalize PF (M := M) (G := G) (H := H) (Δ := Δ) hrep hlead hdeg
      (0 + calls.length)
    rw [hchi] at hfin
    simp only [QSStateProver.rounds, QSStateVerifier.rounds, hself]
    unfold QSStateVerifier.initWithDeltaAndChi at *
    rw [hver]
    refine hfin.bind fun self' r hr => ?_
    obtain ⟨rfl, rfl⟩ := hr
    rw [← bind_pure (QSStateProver.rounds PF cv rounds (.initWithChi chi))]
    refine (ih fun cs hcs => h cs (List.mem_cons_of_mem _ hcs)).bind fun self'' r hr => ?_
    obtain ⟨rfl, rfl⟩ := hr
    exact Sync.pure ⟨rfl, rfl⟩

/-- A fixed response to statements whose sum with the powers of `chi` does not vanish is accepted for
at most as many values of `Δ` as the degree. -/
theorem encard_rounds_le [CanonicalSerialize M F] (chi : F) {calls : List (QSCall F)}
    (h : ∀ c ∈ calls, c.WellFormed)
    (hne : Roots.powerSum chi (calls.map QSCall.value).reverse ≠ 0) (s : FComProver PF F) (g : H)
    (inbox : List M) :
    {Δ : F | ∃ self t' g' rest, Proc.run (QSStateVerifier.rounds PF [calls]
      (.initWithDeltaAndChi Δ chi) (s.keys Δ) g) inbox =
        some (((([true], self), t'), g'), rest)}.encard ≤ qsDegree calls := by
  obtain ⟨T, hT⟩ : ∃ T, Accumulates _ (fun _ _ => True) chi calls (.zero 1) T :=
    exists_accumulates linear_default (fun _ _ _ => Convolve.multiplies_default _ _ _ _) chi h
      (.zero 1)
  have hlead : T.lead ≠ 0 := by
    rw [hT.lead_eq, lead_zero, foldl_eq_powerSum]
    exact hne
  have hbound := encard_finalizeAndVerify_le (M := M) chi (0 + calls.length) hlead s g inbox
  rw [hT.degree_eq] at hbound
  refine (Set.encard_le_encard ?_).trans hbound
  rintro Δ ⟨self, t', g', rest, hrun⟩
  have hver := hT.verifier_eq Δ 0
  rw [polyKey_default] at hver
  simp only [QSStateVerifier.rounds] at hrun
  unfold QSStateVerifier.initWithDeltaAndChi at hrun
  rw [hver, run_bind_eq_some] at hrun
  obtain ⟨⟨b, self'⟩, t₁, g₁, mid, hfin, hrun⟩ := hrun
  rw [run_bind_eq_some] at hrun
  obtain ⟨⟨bs, self''⟩, t₂, g₂, mid₂, hpure, hrun⟩ := hrun
  obtain ⟨hval, rfl, rfl, rfl⟩ := run_pure_eq_some.1 hrun
  obtain rfl : b = true := by
    have := (List.cons.inj (Prod.mk.inj hval).1).1
    exact this.symm
  exact ⟨self', t₁, g₁, mid, hfin⟩

/-- On true statements, with range checks on MACs of degree one, the verifier accepts in every round
and both parties start the next one afresh; over `F61p` no coefficient of a product may leave 128
bits.  A fixed response to statements whose weighted sum does not vanish is accepted for at most as
many values of `Δ` as the degree. -/
theorem rounds_complete_sound :
    (∀ (M G H PF F : Type) [Field PF] [Field F] [DecidableEq F] [Algebra PF F] [FiniteField PF F]
      [CanonicalSerialize M F] (Δ chi : F) (rounds : List (List (QSCall F))),
      (∀ calls ∈ rounds, ∀ c ∈ calls, c.WellFormed ∧ c.Honest fun _ _ => True) →
      Sync (Correlated Δ)
        (QSStateProver.rounds PF .default rounds (.initWithChi chi) :
          Party M G (FComProver PF F) _)
        (QSStateVerifier.rounds PF rounds (.initWithDeltaAndChi Δ chi) : Party M H _ _)
        fun self r => self = .initWithChi chi ∧
          r = (List.replicate rounds.length true, .initWithDeltaAndChi Δ chi)) ∧
    (∀ (M G H : Type) [CanonicalSerialize M F61p] (Δ chi : F61p)
      (rounds : List (List (QSCall F61p))),
      (∀ calls ∈ rounds, ∀ c ∈ calls, c.WellFormed ∧ c.Honest (HDMacProver.Fits .mulAssign)) →
      Sync (Correlated Δ)
        (QSStateProver.rounds F61p F61p.convolve rounds (.initWithChi chi) :
          Party M G (FComProver F61p F61p) _)
        (QSStateVerifier.rounds F61p rounds (.initWithDeltaAndChi Δ chi) : Party M H _ _)
        fun self r => self = .initWithChi chi ∧
          r = (List.replicate rounds.length true, .initWithDeltaAndChi Δ chi)) ∧
    ∀ (M H PF F : Type) [Field PF] [Field F] [DecidableEq F] [Algebra PF F] [FiniteField PF F]
      [CanonicalSerialize M F] (chi : F) (calls : List (QSCall F)),
      (∀ c ∈ calls, c.WellFormed) →
      Roots.powerSum chi (calls.map QSCall.value).reverse ≠ 0 →
      ∀ (s : FComProver PF F) (g : H) (inbox : List M),
        {Δ : F | ∃ self t' g' rest, Proc.run (QSStateVerifier.rounds PF [calls]
          (.initWithDeltaAndChi Δ chi) (s.keys Δ) g) inbox =
            some (((([true], self), t'), g'), rest)}.encard ≤ qsDegree calls := by
  refine ⟨?_, ?_, ?_⟩
  · intro M G H PF F _ _ _ _ _ _ Δ chi rounds h
    exact sync_rounds linear_default (fun _ _ _ => Convolve.multiplies_default _ _ _ _) Δ chi rounds h
  · intro M G H _ Δ chi rounds h
    exact sync_rounds linear_f61p (fun _ _ hfit => F61p.multiplies_convolve hfit) Δ chi rounds h
  · intro M H PF F _ _ _ _ _ _ chi calls h hne s g inbox
    exact encard_rounds_le chi h hne s g inbox

/-- Two rounds over `F61p` on a zero, a bit and a product, and a response to a MAC of one. -/
theorem rounds_complete_sound_bit :
    Sync (Correlated (7 : F61p))
      (QSStateProver.rounds F61p .default
        [[.checkZero ⟨⟨5, [0]⟩, 1⟩, .checkPow2Range 1 ⟨⟨5, [1]⟩, 1⟩],
          [.checkMult ⟨⟨4, [2]⟩, 1⟩ ⟨⟨9, [3]⟩, 1⟩ ⟨⟨8, [6]⟩, 1⟩]] (.initWithChi 2) :
        Party (Msg F40b F61p) Unit (FComProver F61p F61p) _)
      (QSStateVerifier.rounds F61p
        [[.checkZero ⟨⟨5, [0]⟩, 1⟩, .checkPow2Range 1 ⟨⟨5, [1]⟩, 1⟩],
          [.checkMult ⟨⟨4, [2]⟩, 1⟩ ⟨⟨9, [3]⟩, 1⟩ ⟨⟨8, [6]⟩, 1⟩]] (.initWithDeltaAndChi 7 2) :
        Party (Msg F40b F61p) Unit _ _)
      (fun self r => self = .initWithChi 2 ∧
        r = (List.replicate 2 true, .initWithDeltaAndChi 7 2)) ∧
    Sync (Correlated (7 : F61p))
      (QSStateProver.rounds F61p F61p.convolve
        [[.checkMult ⟨⟨4, [2]⟩, 1⟩ ⟨⟨9, [3]⟩, 1⟩ ⟨⟨8, [6]⟩, 1⟩]] (.initWithChi 2) :
        Party (Msg F40b F61p) Unit (FComProver F61p F61p) _)
      (QSStateVerifier.rounds F61p
        [[.checkMult ⟨⟨4, [2]⟩, 1⟩ ⟨⟨9, [3]⟩, 1⟩ ⟨⟨8, [6]⟩, 1⟩]] (.initWithDeltaAndChi 7 2) :
        Party (Msg F40b F61p) Unit _ _)
      (fun self r => self = .initWithChi 2 ∧
        r = (List.replicate 1 true, .initWithDeltaAndChi 7 2)) ∧
    {Δ : F61p | ∃ self t' g' rest, Proc.run (QSStateVerifier.rounds F61p
      [[.checkZero ⟨⟨5, [1]⟩, 1⟩]] (.initWithDeltaAndChi Δ 2)
      ((⟨.const ⟨[⟨0, 0⟩], by simp⟩, [], ⟨0, 0⟩⟩ : FComProver F61p F61p).keys Δ) ())
        ([] : List (Msg F40b F61p)) = some (((([true], self), t'), g'), rest)}.encard ≤
      qsDegree [.checkZero (⟨⟨5, [1]⟩, 1⟩ : HDMacProver F61p)] := by
  refine ⟨rounds_complete_sound.1 (Msg F40b F61p) Unit Unit F61p F61p 7 2 _ ?_,
    rounds_complete_sound.2.1 (Msg F40b F61p) Unit Unit 7 2 _ ?_,
    rounds_complete_sound.2.2 (Msg F40b F61p) Unit F61p F61p 2 _ ?_ ?_ _ () []⟩
  · have hmult : ∀ c ∈ ([.checkMult ⟨⟨4, [2]⟩, 1⟩ ⟨⟨9, [3]⟩, 1⟩ ⟨⟨8, [6]⟩, 1⟩] :
        List (QSCall F61p)), c.WellFormed ∧ c.Honest fun _ _ => True := by
      intro c hc
      obtain rfl := List.mem_singleton.1 hc
      exact ⟨by unfold QSCall.WellFormed; decide +kernel, by decide +kernel, trivial⟩
    intro calls hcalls
    rcases List.mem_cons.1 hcalls with rfl | hcalls
    · intro c hc
      rcases List.mem_cons.1 hc with rfl | hc
      · exact ⟨by unfold QSCall.WellFormed; decide +kernel, by unfold QSCall.Honest; decide +kernel⟩
      · obtain rfl := List.mem_singleton.1 hc
        exact ⟨by unfold QSCall.WellFormed; decide +kernel, ⟨1, by decide, by decide +kernel⟩, rfl⟩
    · obtain rfl := List.mem_singleton.1 hcalls
      exact hmult
  · intro calls hcalls c hc
    obtain rfl := List.mem_singleton.1 hcalls
    obtain rfl := List.mem_singleton.1 hc
    exact ⟨by unfold QSCall.WellFormed; decide +kernel, by decide +kernel,
      F61p.fits_of_length_le (by decide +kernel)⟩
  · intro c hc
    obtain rfl := List.mem_singleton.1 hc
    unfold QSCall.WellFormed
    decide +kernel
  · simp only [List.map_singleton, List.reverse_singleton, Roots.powerSum_cons,
      Roots.powerSum_nil]
    decide +kernel

/-- A bit in a MAC of degree two is no statement that the prover's range check takes. -/
theorem not_complete_range_of_degree_two :
    (QSCall.checkPow2Range 1 (⟨⟨0, [0, 1]⟩, 2⟩ : HDMacProver F61p)).WellFormed ∧
      (⟨⟨0, [0, 1]⟩, 2⟩ : HDMacProver F61p).value = 1 ∧
      ¬Sync (Correlated (7 : F61p))
        (QSStateProver.rounds F61p F61p.convolve [[.checkPow2Range 1 ⟨⟨0, [0, 1]⟩, 2⟩]]
          (.initWithChi 2) : Party (Msg F40b F61p) Unit (FComProver F61p F61p) _)
        (QSStateVerifier.rounds F61p [[.checkPow2Range 1 ⟨⟨0, [0, 1]⟩, 2⟩]]
          (.initWithDeltaAndChi 7 2) : Party (Msg F40b F61p) Unit _ _)
        fun _ r => r.1 = [true] := by
  refine ⟨by unfold QSCall.WellFormed; decide +kernel, by decide +kernel, fun hsync => ?_⟩
  obtain ⟨l, r, a, b, hjoint, -⟩ :=
    hsync (⟨.const ⟨[⟨0, 0⟩], by simp⟩, [], ⟨0, 0⟩⟩ : FComProver F61p F61p) _ rfl () ()
  have hrun := Proc.joint_run_left hjoint
  have hpanic : [QSCall.checkPow2Range 1 (⟨⟨0, [0, 1]⟩, 2⟩ : HDMacProver F61p)].foldlM
      (QSCall.prover F61p.convolve) (.initWithChi 2) = none := by
    have hcheck : (QSStateProver.rangeProduct F61p.convolve ⟨⟨0, [0, 1]⟩, 2⟩ 1).1.qsDegree ≠ 2 := by
      decide +kernel
    simp [QSCall.prover, QSStateProver.checkPow2Range, pow2Rounds, hcheck]
  simp only [QSStateProver.rounds, hpanic, abort_apply, Proc.run_fail, reduceCtorEq] at hrun

end EdaBitGen
