import EdaBitGen.HdQuicksilver.Mac

/-!
# Operations on MACs of higher degree are homomorphic

The prover's MAC represents a polynomial with a declared degree, the verifier's MAC is its value at
`Δ`, and the plain value is its leading coefficient.  Each operation of the prover follows the one on
polynomials, provided the convolution of the field multiplies.
-/

namespace EdaBitGen

open Coefficients Polynomial

variable {PF F : Type} [Field PF] [Field F] [DecidableEq F] [Algebra PF F]

/-! ## The prover -/

namespace HDMacProver

/-- The MAC is the polynomial `a` with its declared degree. -/
structure Represents (p : HDMacProver F) (a : DegPoly F) : Prop where
  toPoly_eq : p.poly.toPoly = a.poly
  qsDegree_eq : p.qsDegree = a.degree

namespace Represents

variable {p q : HDMacProver F} {a b : DegPoly F}

theorem degree_le (h : p.Represents a) : p.poly.degree ≤ p.qsDegree := by
  rw [GeneralPolynomial.degree_eq, h.toPoly_eq, h.qsDegree_eq]
  exact a.natDegree_le

theorem value_eq (h : p.Represents a) : p.value = a.lead := by
  have hcoeff : p.poly.coeff p.qsDegree = a.lead := by
    rw [← GeneralPolynomial.coeff_toPoly, h.toPoly_eq, h.qsDegree_eq, DegPoly.lead]
  unfold value
  split_ifs with hd
  · rw [← hcoeff, ← GeneralPolynomial.coeff_toPoly, coeff_eq_zero_of_natDegree_lt]
    rwa [← GeneralPolynomial.degree_eq]
  · exact hcoeff

omit [DecidableEq F] in
theorem eval_eq (h : p.Represents a) (x : F) : p.poly.eval x = a.poly.eval x := by
  rw [GeneralPolynomial.eval_eq, h.toPoly_eq]

theorem toPoly_resize (h : p.Represents a) :
    (⟨p.poly.constant, resize p.poly.coefficients p.qsDegree⟩ : GeneralPolynomial F).toPoly =
      a.poly := by
  rw [← h.toPoly_eq]
  simp only [GeneralPolynomial.toPoly, ofCoeffs_cons]
  rw [GeneralPolynomial.ofCoeffs_resize h.degree_le]

theorem addAt (h : p.Represents a) {o : ℕ} {l : List F} (ho : o + l.length ≤ p.qsDegree + 1) :
    (GeneralPolynomial.addAt ⟨p.poly.constant, resize p.poly.coefficients p.qsDegree⟩ o l).toPoly =
      a.poly + X ^ o * ofCoeffs l := by
  have hlen := GeneralPolynomial.length_resize p.poly.coefficients p.qsDegree
  rw [(GeneralPolynomial.addAt_eq _ (by rw [hlen]; exact ho)).1, h.toPoly_resize]

theorem addAssignConstant (h : p.Represents a) (x : F) :
    (p.addAssignConstant x).Represents (a.addConstant x) := by
  refine ⟨?_, h.qsDegree_eq⟩
  refine (h.addAt (o := p.qsDegree) (l := [x]) le_rfl).trans ?_
  simp only [DegPoly.addConstant, ofCoeffs_cons, ofCoeffs_nil, h.qsDegree_eq]
  ring

theorem subAssignConstant (h : p.Represents a) (x : F) :
    (p.subAssignConstant x).Represents (a.addConstant (-x)) :=
  h.addAssignConstant (-x)

omit [DecidableEq F] in
theorem mulAssignConstant (h : p.Represents a) (x : F) :
    (p.mulAssignConstant x).Represents (a.smul x) :=
  ⟨by rw [HDMacProver.mulAssignConstant, GeneralPolynomial.toPoly_mulConstant, h.toPoly_eq]; rfl,
    h.qsDegree_eq⟩

omit [DecidableEq F] in
theorem shiftMut (h : p.Represents a) (n : ℕ) :
    (⟨p.poly.shiftMut n, p.qsDegree + n⟩ : HDMacProver F).Represents (a.raise n) :=
  ⟨by rw [GeneralPolynomial.toPoly_shiftMut, h.toPoly_eq]; rfl,
    by rw [h.qsDegree_eq, Nat.add_comm]; rfl⟩

theorem ofCoeffs_terms (h : q.Represents b) (ADD : Bool) :
    ofCoeffs ((q.poly.constant :: q.poly.coefficients.take q.poly.degree).map
      fun x => if ADD then x else -x) = (b.smul (if ADD then 1 else -1)).poly := by
  have hpoly : ofCoeffs (q.poly.constant :: q.poly.coefficients.take q.poly.degree) = b.poly := by
    rw [← h.toPoly_eq, ofCoeffs_cons, GeneralPolynomial.ofCoeffs_take_degree]
    rfl
  have hmap : (fun x : F => if ADD then x else -x) = fun x => (if ADD then 1 else -1) * x := by
    funext x
    cases ADD <;> simp
  rw [hmap, ofCoeffs_map_mul, hpoly]
  rfl

theorem addSubAssignImpl (h : p.Represents a) (h' : q.Represents b) (ADD : Bool) :
    ∃ r, p.addSubAssignImpl ADD q = some r ∧
      r.Represents (a.add (b.smul (if ADD then 1 else -1))) := by
  -- the first operand, raised to the degree of the other
  obtain ⟨self, hself, hdeg, hrep⟩ : ∃ self : HDMacProver F,
      self = (if q.qsDegree > p.qsDegree then
        ⟨p.poly.shiftMut (q.qsDegree - p.qsDegree), q.qsDegree⟩ else p) ∧
      q.qsDegree ≤ self.qsDegree ∧ self.Represents (a.raise (b.degree - a.degree)) := by
    refine ⟨_, rfl, ?_, ?_⟩
    · split_ifs with hlt
      · exact le_rfl
      · exact Nat.le_of_not_lt hlt
    · have hshift := h.shiftMut (q.qsDegree - p.qsDegree)
      rw [← h.qsDegree_eq, ← h'.qsDegree_eq]
      split_ifs with hlt
      · rwa [Nat.add_sub_cancel' hlt.le] at hshift
      · have hzero : q.qsDegree - p.qsDegree = 0 := by omega
        rw [hzero] at hshift ⊢
        exact hshift
  have hle := h'.degree_le
  have hfit : self.qsDegree - q.qsDegree + q.poly.degree ≤ self.qsDegree := by omega
  have hlen : ((q.poly.constant :: q.poly.coefficients.take q.poly.degree).map
      fun x => if ADD then x else -x).length ≤ q.poly.degree + 1 := by
    rw [List.length_map, List.length_cons, List.length_take]
    omega
  refine ⟨_, by simp only [HDMacProver.addSubAssignImpl, ← hself, if_pos hfit]; rfl, ?_⟩
  have hoffset : self.qsDegree - q.qsDegree = a.degree - b.degree := by
    rw [hrep.qsDegree_eq, DegPoly.degree_align, h'.qsDegree_eq]
    omega
  refine ⟨?_, ?_⟩
  · refine (hrep.addAt (by omega)).trans ?_
    rw [h'.ofCoeffs_terms, hoffset]
    rfl
  · rw [hrep.qsDegree_eq, DegPoly.degree_align]
    rfl

theorem addAssign (h : p.Represents a) (h' : q.Represents b) :
    ∃ r, p.addAssign q = some r ∧ r.Represents (a.add (b.smul 1)) :=
  h.addSubAssignImpl h' true

theorem subAssign (h : p.Represents a) (h' : q.Represents b) :
    ∃ r, p.subAssign q = some r ∧ r.Represents (a.add (b.smul (-1))) :=
  h.addSubAssignImpl h' false

end Represents

/-- The convolution multiplies the operands of a multiplication. -/
def Multiplies (cv : Convolve F) : HDBinary → HDMacProver F → HDMacProver F → Prop
  | .mulAssign, p, q | .xorAssign, p, q =>
    cv.Multiplies p.poly.constant (p.poly.coefficients.take p.poly.degree) q.poly.constant
      (q.poly.coefficients.take q.poly.degree)
  | _, _, _ => True

theorem Represents.mulAssign {cv : Convolve F} {p q : HDMacProver F} {a b : DegPoly F}
    (h : p.Represents a) (h' : q.Represents b) (hcv : Multiplies cv .mulAssign p q) :
    (p.mulAssign cv q).Represents (a.mul b) :=
  ⟨by rw [HDMacProver.mulAssign, (GeneralPolynomial.mulAssign_eq hcv).1, h.toPoly_eq,
      h'.toPoly_eq]; rfl,
    by rw [HDMacProver.mulAssign, h.qsDegree_eq, h'.qsDegree_eq]; rfl⟩

/-- In a multiplication, no coefficient of the product leaves 128 bits. -/
def Fits : HDBinary → HDMacProver F61p → HDMacProver F61p → Prop
  | .mulAssign, p, q | .xorAssign, p, q =>
    F61p.Fits (p.poly.constant :: p.poly.coefficients.take p.poly.degree)
      (q.poly.constant :: q.poly.coefficients.take q.poly.degree)
  | _, _, _ => True

/-- The verifier's side of a MAC. -/
def key (Δ : F) (p : HDMacProver F) : HDMacVerifier F := ⟨p.poly.eval Δ, p.qsDegree⟩

end HDMacProver

/-! ## The interpretations -/

namespace HDInterp

def prover (PF : Type) [Field PF] [Algebra PF F] (cv : Convolve F) :
    HDInterp PF F (HDMacProver F) where
  source
    | .ofMac x => .ofMac x
    | .newConstant x => .newConstant x
    | .default => .default
  unary
    | .addAssignConstant x, p => p.addAssignConstant x
    | .subAssignConstant x, p => p.subAssignConstant x
    | .mulAssignConstant x, p => p.mulAssignConstant x
  binary
    | .addAssign, p, q => p.addAssign q
    | .subAssign, p, q => p.subAssign q
    | .mulAssign, p, q => some (p.mulAssign cv q)
    | .xorAssign, p, q => p.xorAssign cv q

def verifier (PF : Type) [Field PF] [Algebra PF F] (Δ : F) : HDInterp PF F (HDMacVerifier F) where
  source
    | .ofMac x => .ofMac (x.key Δ)
    | .newConstant x => .newConstant Δ x
    | .default => .default
  unary
    | .addAssignConstant x, v => v.addAssignConstant Δ x
    | .subAssignConstant x, v => v.subAssignConstant Δ x
    | .mulAssignConstant x, v => v.mulAssignConstant x
  binary
    | .addAssign, v, w => some (v.addAssign Δ w)
    | .subAssign, v, w => some (v.subAssign Δ w)
    | .mulAssign, v, w => some (v.mulAssign w)
    | .xorAssign, v, w => some (v.xorAssign Δ w)

attribute [local instance] atLeastTwo_two in
/-- The operations on the values. -/
def plain (PF F : Type) [Field PF] [Field F] [Algebra PF F] : HDInterp PF F F where
  source
    | .ofMac x => algebraMap PF F x.value
    | .newConstant x => x
    | .default => 0
  unary
    | .addAssignConstant x, a => a + x
    | .subAssignConstant x, a => a - x
    | .mulAssignConstant x, a => a * x
  binary
    | .addAssign, a, b => some (a + b)
    | .subAssign, a, b => some (a - b)
    | .mulAssign, a, b => some (a * b)
    | .xorAssign, a, b => some (a + b - 2 * (a * b))

/-- The operations on polynomials with declared degrees. -/
noncomputable def poly (PF F : Type) [Field PF] [Field F] [Algebra PF F] :
    HDInterp PF F (DegPoly F) where
  source
    | .ofMac x => ⟨C (-x.mac) + C (algebraMap PF F x.value) * X, 1, by compute_degree⟩
    | .newConstant x => ⟨C x * X, 1, by compute_degree⟩
    | .default => .zero 1
  unary
    | .addAssignConstant x, a => a.addConstant x
    | .subAssignConstant x, a => a.addConstant (-x)
    | .mulAssignConstant x, a => a.smul x
  binary
    | .addAssign, a, b => some (a.add (b.smul 1))
    | .subAssign, a, b => some (a.add (b.smul (-1)))
    | .mulAssign, a, b => some (a.mul b)
    | .xorAssign, a, b => some ((a.add (b.smul 1)).add (((a.mul b).smul (-1 + -1)).smul 1))

theorem simulates_prover (PF : Type) [Field PF] [Algebra PF F] (cv : Convolve F) :
    Simulates (prover PF cv) (poly PF F) (HDMacProver.Multiplies cv) HDMacProver.Represents where
  source s := by
    cases s with
    | ofMac x =>
      refine ⟨?_, rfl⟩
      simp only [prover, poly, HDMacProver.ofMac, GeneralPolynomial.toPoly, ofCoeffs_cons,
        ofCoeffs_nil]
      ring
    | newConstant x =>
      refine ⟨?_, rfl⟩
      simp only [prover, poly, HDMacProver.newConstant, GeneralPolynomial.toPoly, ofCoeffs_cons,
        ofCoeffs_nil, C_0]
      ring
    | default => exact ⟨GeneralPolynomial.toPoly_zero, rfl⟩
  unary op p a h := by
    cases op with
    | addAssignConstant x => exact h.addAssignConstant x
    | subAssignConstant x => exact h.subAssignConstant x
    | mulAssignConstant x => exact h.mulAssignConstant x
  binary op p a q b hok h h' := by
    cases op with
    | addAssign =>
      obtain ⟨r, hr, hrep⟩ := h.addAssign h'
      simp only [prover, poly, hr]
      exact .some hrep
    | subAssign =>
      obtain ⟨r, hr, hrep⟩ := h.subAssign h'
      simp only [prover, poly, hr]
      exact .some hrep
    | mulAssign => exact .some (h.mulAssign h' hok)
    | xorAssign =>
      obtain ⟨r, hr, hrep⟩ := h.addAssign h'
      have ht := (h.mulAssign h' hok).mulAssignConstant (-1 + -1)
      obtain ⟨r', hr', hrep'⟩ := hrep.addAssign ht
      have hxor : p.xorAssign cv q = some r' := by
        simp only [HDMacProver.xorAssign, hr, Option.bind_eq_bind, Option.bind_some, hr']
      simp only [prover, poly, hxor]
      exact .some hrep'

/-- The value at `Δ`, with the declared degree. -/
noncomputable def polyKey (Δ : F) (a : DegPoly F) : HDMacVerifier F := ⟨a.poly.eval Δ, a.degree⟩

omit [DecidableEq F] in
theorem iterate_mul (Δ x : F) (n : ℕ) : (· * Δ)^[n] x = x * Δ ^ n := by
  rw [mul_right_iterate]

omit [DecidableEq F] in
theorem polyKey_add (Δ : F) (a b : DegPoly F) (ADD : Bool) :
    polyKey Δ (a.add (b.smul (if ADD then 1 else -1))) =
      HDMacVerifier.addSubAssignImpl ADD Δ (polyKey Δ a) (polyKey Δ b) := by
  have hmac := DegPoly.eval_add a (b.smul (if ADD then 1 else -1)) Δ
  rw [DegPoly.eval_smul] at hmac
  rw [DegPoly.degree_smul] at hmac
  unfold HDMacVerifier.addSubAssignImpl polyKey
  simp only [iterate_mul]
  by_cases hle : a.degree ≤ b.degree
  · have hzero : a.degree - b.degree = 0 := by omega
    rw [if_pos hle, hmac, hzero]
    cases ADD <;> simp [hle, mul_comm, sub_eq_add_neg]
  · have hzero : b.degree - a.degree = 0 := by omega
    rw [if_neg hle, hmac, hzero]
    cases ADD <;> simp [Nat.le_of_not_le hle, mul_comm, sub_eq_add_neg]

omit [DecidableEq F] in
theorem polyKey_mul (Δ : F) (a b : DegPoly F) :
    polyKey Δ (a.mul b) = (polyKey Δ a).mulAssign (polyKey Δ b) := by
  simp only [polyKey, HDMacVerifier.mulAssign, DegPoly.eval_mul, DegPoly.degree_mul]

omit [DecidableEq F] in
theorem polyKey_smul (Δ x : F) (a : DegPoly F) :
    polyKey Δ (a.smul x) = (polyKey Δ a).mulAssignConstant x := by
  simp only [polyKey, HDMacVerifier.mulAssignConstant, DegPoly.eval_smul, DegPoly.degree_smul,
    mul_comm]

omit [DecidableEq F] in
theorem polyKey_subConstant (Δ x : F) (a : DegPoly F) :
    polyKey Δ (a.addConstant (-x)) = (polyKey Δ a).subAssignConstant Δ x := by
  simp only [HDMacVerifier.subAssignConstant, polyKey, iterate_mul, DegPoly.eval_addConstant,
    DegPoly.degree_addConstant, neg_mul, sub_eq_add_neg]

omit [DecidableEq F] in
theorem simulates_verifier (PF : Type) [Field PF] [Algebra PF F] (Δ : F) :
    Simulates (poly PF F) (verifier PF Δ) (fun _ _ _ => True) (fun a v => v = polyKey Δ a) where
  source s := by
    cases s with
    | ofMac x =>
      simp [verifier, poly, polyKey, HDMacVerifier.ofMac, Algebra.smul_def, sub_eq_add_neg,
        add_comm]
    | newConstant x =>
      have hmac : eval Δ (C x * X) = Δ * x := by rw [eval_C_mul, eval_X, mul_comm]
      simp only [verifier, poly, polyKey, HDMacVerifier.newConstant, hmac]
    | default => simp [verifier, poly, polyKey, HDMacVerifier.default, DegPoly.zero]
  unary op a v h := by
    subst h
    cases op with
    | addAssignConstant x =>
      simp [verifier, poly, polyKey, HDMacVerifier.addAssignConstant, iterate_mul,
        DegPoly.addConstant]
    | subAssignConstant x => exact (polyKey_subConstant Δ x a).symm
    | mulAssignConstant x => exact (polyKey_smul Δ x a).symm
  binary op a v b w _ h h' := by
    subst h h'
    cases op with
    | addAssign => exact .some (polyKey_add Δ a b true).symm
    | subAssign => exact .some (polyKey_add Δ a b false).symm
    | mulAssign => exact .some (polyKey_mul Δ a b).symm
    | xorAssign =>
      have hadd := polyKey_add Δ a b true
      have hxor := polyKey_add Δ (a.add (b.smul 1)) ((a.mul b).smul (-1 + -1)) true
      have ht : polyKey Δ ((a.mul b).smul (-1 + -1)) =
          (HDMacVerifier.mulAssign (polyKey Δ a) (polyKey Δ b)).mulAssignConstant (-1 + -1) := by
        rw [polyKey_smul, polyKey_mul]
      simp only [if_true] at hadd hxor
      refine .some (Eq.symm ?_)
      rw [hxor, hadd, ht]
      rfl

theorem simulates_plain (PF F : Type) [Field PF] [Field F] [Algebra PF F] :
    Simulates (poly PF F) (plain PF F) (fun _ _ _ => True) (fun a x => x = a.lead) where
  source s := by
    cases s <;> simp [plain, poly, DegPoly.lead, DegPoly.zero]
  unary op a x h := by
    subst h
    cases op with
    | addAssignConstant x => simp [plain, poly]
    | subAssignConstant x => simp [plain, poly, sub_eq_add_neg]
    | mulAssignConstant x => simp only [plain, poly, DegPoly.lead_smul, mul_comm]
  binary op a x b y _ h h' := by
    subst h h'
    cases op with
    | addAssign => exact .some (by simp)
    | subAssign => exact .some (by simp [sub_eq_add_neg])
    | mulAssign => exact .some (by simp)
    | xorAssign =>
      refine .some ?_
      simp only [DegPoly.lead_add, DegPoly.lead_smul, DegPoly.lead_mul]
      ring

/-- A run of both parties and of the values from the MACs `macs`: all stop together for want of an
operand, or the verifier ends with the prover's polynomials at `Δ`, the values are the prover's
values, and no polynomial exceeds its degree. -/
def RunAgrees (cv : Convolve F) (Δ : F) (ops : List (HDOp PF F)) (macs : List (HDMacProver F)) :
    Prop :=
  (verifier PF Δ).run ops (macs.map (HDMacProver.key Δ)) =
      ((prover PF cv).run ops macs).map (List.map (HDMacProver.key Δ)) ∧
    (plain PF F).run ops (macs.map HDMacProver.value) =
      ((prover PF cv).run ops macs).map (List.map HDMacProver.value) ∧
    ∀ macs' ∈ (prover PF cv).run ops macs, ∀ p ∈ macs', p.poly.degree ≤ p.qsDegree

theorem represents_toDegPoly {p : HDMacProver F} (h : p.poly.degree ≤ p.qsDegree) :
    ∃ a, p.Represents a :=
  ⟨⟨p.poly.toPoly, p.qsDegree, by rwa [← GeneralPolynomial.degree_eq]⟩, rfl, rfl⟩

theorem exists_represents {macs : List (HDMacProver F)}
    (h : ∀ p ∈ macs, p.poly.degree ≤ p.qsDegree) :
    ∃ as, List.Forall₂ HDMacProver.Represents macs as := by
  induction macs with
  | nil => exact ⟨[], .nil⟩
  | cons p macs ih =>
    obtain ⟨a, ha⟩ := represents_toDegPoly (h p List.mem_cons_self)
    obtain ⟨as, has⟩ := ih fun q hq => h q (List.mem_cons_of_mem _ hq)
    exact ⟨a :: as, .cons ha has⟩

omit [DecidableEq F] in
theorem map_key {Δ : F} {ps : List (HDMacProver F)} {as : List (DegPoly F)}
    (h : List.Forall₂ HDMacProver.Represents ps as) :
    ps.map (HDMacProver.key Δ) = as.map (polyKey Δ) := by
  induction h with
  | nil => rfl
  | cons hpa _ ih =>
    rw [List.map_cons, List.map_cons, ih, HDMacProver.key, polyKey, hpa.eval_eq, hpa.qsDegree_eq]

theorem map_value {ps : List (HDMacProver F)} {as : List (DegPoly F)}
    (h : List.Forall₂ HDMacProver.Represents ps as) :
    ps.map HDMacProver.value = as.map DegPoly.lead := by
  induction h with
  | nil => rfl
  | cons hpa _ ih => rw [List.map_cons, List.map_cons, ih, hpa.value_eq]

theorem runAgrees_of_multiplies {cv : Convolve F} {ops : List (HDOp PF F)}
    {macs : List (HDMacProver F)} (h : ∀ p ∈ macs, p.poly.degree ≤ p.qsDegree)
    (hcv : (prover PF cv).RunMeets (HDMacProver.Multiplies cv) ops macs) (Δ : F) :
    RunAgrees cv Δ ops macs := by
  obtain ⟨as, has⟩ := exists_represents h
  have hrun := (simulates_prover PF cv).run ops hcv has
  have hver := run_map (simulates_verifier PF Δ) ops as
  have hplain := run_map (simulates_plain PF F) ops as
  unfold RunAgrees
  rw [map_key has, map_value has, hver, hplain]
  revert hrun
  generalize (prover PF cv).run ops macs = x, (poly PF F).run ops as = y
  intro hrun
  cases hrun with
  | none => simp
  | @some ps bs hps =>
    refine ⟨?_, ?_, ?_⟩
    · rw [Option.map_some, Option.map_some, map_key hps]
    · rw [Option.map_some, Option.map_some, map_value hps]
    · intro macs' hmem p hp
      obtain rfl : ps = macs' := Option.mem_some.1 hmem
      obtain ⟨a, -, ha⟩ := exists_of_mem hps hp
      exact ha.degree_le

theorem RunMeets.multiplies {ops : List (HDOp PF F61p)} {macs : List (HDMacProver F61p)}
    [Algebra PF F61p] (h : (prover PF F61p.convolve).RunMeets HDMacProver.Fits ops macs) :
    (prover PF F61p.convolve).RunMeets (HDMacProver.Multiplies F61p.convolve) ops macs := by
  refine h.mono fun op p q hfit => ?_
  cases op with
  | addAssign | subAssign => trivial
  | mulAssign | xorAssign => exact F61p.multiplies_convolve hfit

/-- Both parties agree on every run over a field that inherits its convolution, and on every run
over `F61p` in which no coefficient of a product leaves 128 bits. -/
theorem runs_agree {PF F : Type} [Field PF] [Field F] [DecidableEq F] [Algebra PF F] (Δ : F)
    (ops : List (HDOp PF F)) (macs : List (HDMacProver F))
    (hmacs : ∀ p ∈ macs, p.poly.degree ≤ p.qsDegree) (Δ₁ : F61p) (ops₁ : List (HDOp F61p F61p))
    (macs₁ : List (HDMacProver F61p)) (hmacs₁ : ∀ p ∈ macs₁, p.poly.degree ≤ p.qsDegree)
    (hfit : (prover F61p F61p.convolve).RunMeets HDMacProver.Fits ops₁ macs₁) :
    RunAgrees Convolve.default Δ ops macs ∧ RunAgrees F61p.convolve Δ₁ ops₁ macs₁ := by
  refine ⟨?_, runAgrees_of_multiplies hmacs₁ hfit.multiplies Δ₁⟩
  refine runAgrees_of_multiplies hmacs ((runMeets_true _ ops macs).mono fun op p q _ => ?_) Δ
  cases op with
  | addAssign | subAssign => trivial
  | mulAssign | xorAssign => exact Convolve.multiplies_default _ _ _ _

theorem runs_agree_square :
    RunAgrees Convolve.default (7 : F61p) ([.binary .mulAssign 0 0] : List (HDOp F61p F61p))
        [⟨⟨2, [3]⟩, 1⟩] ∧
      RunAgrees F61p.convolve 7 ([.binary .mulAssign 0 0] : List (HDOp F61p F61p))
        [⟨⟨2, [3]⟩, 1⟩] := by
  have hdeg : ∀ p ∈ ([⟨⟨2, [3]⟩, 1⟩] : List (HDMacProver F61p)), p.poly.degree ≤ p.qsDegree := by
    decide +kernel
  refine runs_agree 7 _ _ hdeg 7 _ _ hdeg ⟨?_, fun _ _ => trivial⟩
  intro a ha b _
  obtain rfl := Option.mem_some.1 ha
  exact F61p.fits_of_length_le (by decide +kernel)

/-- Two MACs of degree 64 with all coefficients `-1`, which the operations before build. -/
def overflowOps : List (HDOp F61p F61p) :=
  [.push (.ofMac ⟨-1, 1⟩), .push (.ofMac ⟨0, -1⟩), .push (.ofMac ⟨-1, 0⟩)] ++
    (List.replicate 63 [.binary .mulAssign 0 1, .binary .addAssign 0 2]).flatten ++
    [.clone 0, .binary .mulAssign 0 3]

theorem not_runAgrees_overflowOps : ¬ RunAgrees F61p.convolve 1 overflowOps [] := by
  intro h
  have hne : (verifier F61p (1 : F61p)).run overflowOps [] ≠
      ((prover F61p F61p.convolve).run overflowOps []).map (List.map (HDMacProver.key 1)) := by
    decide +kernel
  exact hne h.1

end HDInterp

end EdaBitGen
