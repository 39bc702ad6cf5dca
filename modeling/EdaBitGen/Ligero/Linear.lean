import EdaBitGen.Ligero.Codewords
import EdaBitGen.Ligero.Model

/-!
# The check of the linear constraints

The verifier does not look at the degree of the polynomial for the combined constraints.  A prover
who knows the combination interpolates it through the values that the verifier expects at all
columns, and makes the sum at the secrets' points what he likes.
-/

namespace EdaBitGen.Ligero

open Fft Coefficients Polynomial
open Inferno (Circuit Op)

variable {F : Type} [Field F]

/-! ## The linear constraints of a circuit -/

/-- The extended witness satisfies the constraint of the gate with output wire `k`. -/
def GateSatisfied (w : ℕ → F) (k : ℕ) : Op F → Prop
  | .add i j => w i + w j = w k
  | .mul _ _ => True
  | .sub i j => w i - w j = w k
  | .constant f => w k = f
  | .copy i => w i = w k

/-- The extended witness satisfies all linear constraints. -/
def LinearSatisfied (c : Circuit F) (w : ℕ → F) : Prop :=
  (∀ op ∈ c.ops.zipIdx, GateSatisfied w (op.2 + c.ninputs) op.1) ∧
    w (c.ops.length + c.ninputs - 1) = 0

variable [FieldForLigero F]

/-! ## Sizes -/

theorem candidate_eq_some {size kexp : ℕ} {params : Params F}
    (h : Params.candidate size kexp = some params) :
    params.m = (size + params.l - 1) / params.l ∧ params.t = FieldForLigero.fieldSize F := by
  unfold Params.candidate at h
  dsimp only at h
  split at h
  · split at h
    · cases h
    · obtain rfl := Option.some.inj h
      exact ⟨rfl, rfl⟩
  · cases h

theorem new_eq_some {size : ℕ} {params : Params F} (h : Params.new size = some params) :
    params.m = (size + params.l - 1) / params.l ∧ params.t = FieldForLigero.fieldSize F := by
  rw [Params.new] at h
  split at h
  · cases h
  · obtain ⟨kexp, -, hkexp⟩ := List.mem_filterMap.1 (List.argmin_mem h)
    exact candidate_eq_some hkexp

theorem size_le {size : ℕ} {params : Params F} (h : Params.new size = some params) :
    size ≤ params.m * params.l := by
  have hm := (new_eq_some h).1
  have hl := params.l_pos
  have hdiv := Nat.div_add_mod (size + params.l - 1) params.l
  have hmod := Nat.mod_lt (size + params.l - 1) hl
  rw [← hm, Nat.mul_comm] at hdiv
  omega

omit [FieldForLigero F] in
theorem length_constants (c : Circuit F) (ml : ℕ) : (constants c ml).length = ml := by
  have hfold : ∀ (ops : List (Op F × ℕ)) (badd : List F),
      (ops.foldl (setConstant c.ninputs) badd).length = badd.length := by
    intro ops
    induction ops with
    | nil => exact fun _ => rfl
    | cons op ops ih =>
      intro badd
      rw [List.foldl_cons, ih, setConstant]
      split
      · exact List.length_set
      · rfl
  rw [constants, hfold, List.length_replicate]

/-- The public values of a circuit. -/
structure IsPublic (c : Circuit F) (shared : Option Range) (pub : Public F) : Prop where
  Px_eq : pub.Px = gateEntries c (products fun i _ _ => i)
  Py_eq : pub.Py = gateEntries c (products fun _ j _ => j)
  Pz_eq : pub.Pz = gateEntries c (products fun _ _ k => k)
  Padd_eq : pub.Padd =
    gateEntries c linear ++ [(c.ops.length + c.ninputs, c.ops.length + c.ninputs - 1, 1)]
  badd_eq : pub.badd = constants c (pub.params.m * pub.params.l)
  shared_eq : pub.shared = shared.getD ⟨0, 0⟩
  mask_start : pub.sharedMask.start = c.ops.length + c.ninputs + 1
  mask_stop : pub.sharedMask.stop = c.ops.length + c.ninputs + 2
  length_badd : pub.badd.length = pub.params.m * pub.params.l
  size_le : c.ops.length + c.ninputs + 2 ≤ pub.params.m * pub.params.l

theorem isPublic_new {c : Circuit F} {shared : Option Range} {pub : Public F}
    (h : Public.new c shared = some pub) : IsPublic c shared pub := by
  rw [Public.new] at h
  dsimp only at h
  split at h
  · cases h
  · obtain ⟨params, hparams, h⟩ := Option.bind_eq_some_iff.1 h
    obtain rfl := Option.some.inj h
    exact ⟨rfl, rfl, rfl, rfl, rfl, rfl, rfl, rfl, length_constants c _, size_le hparams⟩

namespace IsPublic

variable {c : Circuit F} {shared : Option Range} {pub : Public F}

theorem mask_len (h : IsPublic c shared pub) : pub.sharedMask.len = 1 := by
  rw [Range.len, h.mask_start, h.mask_stop]
  omega

theorem exists_finalizePadd (h : IsPublic c shared pub)
    (hshared : ∀ r ∈ shared, r.stop ≤ c.ops.length + c.ninputs) {rshared : List (List F)}
    {qshared : List F} (hrows : ∀ row ∈ rshared, row.length = pub.shared.len)
    (hrshared : rshared.length = pub.sharedMask.len)
    (hqshared : qshared.length = pub.sharedMask.len) :
    ∃ pub' : Public F, pub.finalizePadd rshared qshared = some pub' ∧ pub'.params = pub.params ∧
      pub'.badd.length = pub.params.m * pub.params.l := by
  have hstop : pub.shared.stop ≤ c.ops.length + c.ninputs := by
    rw [h.shared_eq]
    cases shared with
    | none => exact Nat.zero_le _
    | some r => exact hshared r rfl
  have hindices : ∀ s ∈ pub.shared.indices, s < pub.badd.length := by
    intro s hs
    rw [Range.indices, Range.len, List.mem_range'_1] at hs
    have hsize := h.size_le
    rw [h.length_badd]
    omega
  rw [Public.finalizePadd, if_pos ⟨hrows, hrshared, hqshared, hindices⟩]
  refine ⟨_, rfl, rfl, ?_⟩
  have hsize := h.size_le
  simp only [List.length_append, List.length_take, List.length_drop, hqshared, h.mask_len,
    h.mask_start, h.mask_stop, h.length_badd]
  omega

end IsPublic

/-! ## Interpolation -/

variable (params : Params F)

theorem omegaSecrets_pow_eq_one {j i : ℕ} (h : params.omegaShares ^ j = params.omegaSecrets ^ i) :
    params.omegaSecrets ^ i = 1 := by
  have hcoprime : Nat.Coprime (3 ^ params.nexp) (2 ^ params.kexp) :=
    Nat.Coprime.pow _ _ (by decide)
  refine (pow_eq_one_iff_of_coprime hcoprime).1 ⟨?_, ?_⟩
  · rw [← h, ← pow_mul, Nat.mul_comm, pow_mul, params.isPrimitiveRoot_omegaShares.pow_eq_one,
      one_pow]
  · rw [← pow_mul, Nat.mul_comm, pow_mul, params.isPrimitiveRoot_omegaSecrets.pow_eq_one, one_pow]

theorem points_ne {j c : ℕ} (hc : c < params.l) :
    params.omegaShares ^ (j + 1) ≠ params.omegaSecrets ^ (c + 1) := by
  intro h
  have hk := params.l_add_t
  have hk' := params.k_add_one
  have hone := omegaSecrets_pow_eq_one params h
  rw [params.isPrimitiveRoot_omegaSecrets.pow_eq_one_iff_dvd] at hone
  have hle := Nat.le_of_dvd (Nat.succ_pos c) hone
  omega

/-- The points of all columns of codewords and of rows. -/
def points : Fin params.n ⊕ Fin params.l → F
  | .inl j => params.omegaShares ^ (j.val + 1)
  | .inr c => params.omegaSecrets ^ (c.val + 1)

theorem points_injective : Function.Injective (points params) := by
  have hn := params.n_add_one
  have hk := params.k_add_one
  have hl := params.l_add_t
  rintro (i | i) (j | j) h
  · have hij := params.isPrimitiveRoot_omegaShares.pow_inj (by omega) (by omega) h
    rw [Fin.ext (Nat.succ.inj hij)]
  · exact absurd h (points_ne params j.isLt)
  · exact absurd h.symm (points_ne params i.isLt)
  · have hij := params.isPrimitiveRoot_omegaSecrets.pow_inj (by omega) (by omega) h
    rw [Fin.ext (Nat.succ.inj hij)]

theorem exists_coeffs (f : Fin params.n ⊕ Fin params.l → F) : ∃ q : List F,
    ∀ x, (ofCoeffs q).eval (points params x) = f x := by
  classical
  have hinj : Set.InjOn (points params) (Finset.univ : Finset (Fin params.n ⊕ Fin params.l)) :=
    (points_injective params).injOn
  let p := Lagrange.interpolate Finset.univ (points params) f
  refine ⟨toCoeffs (p.natDegree + 1) p, fun x => ?_⟩
  have hdegree : p.degree < ((p.natDegree + 1 : ℕ) : WithBot ℕ) :=
    degree_le_natDegree.trans_lt (Nat.cast_lt.2 (Nat.lt_succ_self _))
  rw [ofCoeffs_toCoeffs hdegree]
  exact Lagrange.eval_interpolate_at_node f hinj (Finset.mem_univ x)

omit [FieldForLigero F] in
theorem sum_map_range (f : ℕ → F) (n : ℕ) :
    ((List.range n).map f).sum = ∑ c : Fin n, f c := by
  induction n with
  | zero => simp
  | succ n ih => rw [List.sum_range_succ, ih, Fin.sum_univ_castSucc, Fin.val_last]; rfl

theorem sumAtSecrets_eq (q : List F) : sumAtSecrets params q =
    ∑ c : Fin params.l, (ofCoeffs q).eval (params.omegaSecrets ^ (c.val + 1)) := by
  have hk := params.l_add_t
  rw [sumAtSecrets, fft2Peval_eq, List.range_succ_eq_map, List.map_cons, List.drop_succ_cons,
    List.drop_zero, List.map_map, ← List.map_take, List.take_range, Nat.min_eq_left (by omega),
    sum_map_range]
  rfl

/-- A polynomial with any values at the columns of codewords, and any sum at the secrets'
points. -/
theorem exists_coeffs_sum (f : ℕ → F) (target : F) : ∃ q : List F,
    (∀ j < params.n, params.peval3 q (j + 1) = f j) ∧ sumAtSecrets params q = target := by
  obtain ⟨q, hq⟩ := exists_coeffs params (Sum.elim (fun j => f j)
    (Pi.single ⟨0, params.l_pos⟩ target))
  refine ⟨q, fun j hj => ?_, ?_⟩
  · rw [peval3_eq]
    exact hq (.inl ⟨j, hj⟩)
  · rw [sumAtSecrets_eq]
    calc ∑ c : Fin params.l, (ofCoeffs q).eval (params.omegaSecrets ^ (c.val + 1))
        = ∑ c, (Pi.single ⟨0, params.l_pos⟩ target : Fin params.l → F) c :=
          Finset.sum_congr rfl fun c _ => hq (.inr c)
      _ = target := Finset.sum_pi_single' _ _ _ |>.trans (if_pos (Finset.mem_univ _))

/-! ## The attack -/

/-- The challenges of the verifier but for the combination of the linear constraints. -/
structure Challenges (pub : Public F) where
  r : Fin (4 * pub.params.m) → F
  rx : Fin (pub.params.m * pub.params.l) → F
  ry : Fin (pub.params.m * pub.params.l) → F
  rz : Fin (pub.params.m * pub.params.l) → F
  rq : Fin pub.params.m → F
  rshared : Fin pub.sharedMask.len → Fin pub.shared.len → F

namespace Challenges

variable {pub : Public F}

def round1 (ch : Challenges pub) (radd : Fin (pub.params.m * pub.params.l) → F) : Round1 F where
  r := List.ofFn ch.r
  radd := List.ofFn radd
  rx := List.ofFn ch.rx
  ry := List.ofFn ch.ry
  rz := List.ofFn ch.rz
  rq := List.ofFn ch.rq
  rshared := List.ofFn fun i => List.ofFn (ch.rshared i)

end Challenges

variable [DecidableEq F]

/-- The check of the linear constraints accepts at the columns `Q`, where codewords of the rows of
the extended witness and of the blinding are opened. -/
def AdditionAccepts (pub : Public F) (Uw : List (List F)) (uadd : List F) (r1 : Round1 F)
    (r2 : Round2 F) (Q : List (Fin pub.params.n)) : Prop :=
  ∃ pub', pub.finalizePadd r1.rshared r2.qshared = some pub' ∧
    additionCheck pub' r1.radd r2.qadd (Q.map Fin.val) (Q.map fun j => column Uw j.val)
      (Q.map fun j => uadd.getD j.val 0) = some true

omit [DecidableEq F] in
theorem length_makeRa (radd : List F) (P : TriMat F) : (makeRa params radd P).length = params.m := by
  rw [makeRa, List.length_map, Chunks.exact, List.length_map, List.length_range,
    TriMat.combine, List.length_map, List.length_range, Nat.mul_div_cancel _ params.l_pos]

theorem openedCheck_eq_true {ra : List (List F)} {q : List F} {Q : List ℕ} {Ua : ℕ → List F}
    {ua d : ℕ → F}
    (hdot : ∀ j ∈ Q, dot (column (ra.map params.fft3) j) (Ua j) = some (d j))
    (hq : ∀ j ∈ Q, params.peval3 q (j + 1) = ua j + d j) :
    openedCheck params ra q Q (Q.map Ua) (Q.map ua) = some true := by
  rw [openedCheck, List.zip_map', zip_map_self, checkAll_some (p := fun _ => true)]
  · simp
  · intro x hx
    obtain ⟨j, hj, rfl⟩ := List.mem_map.1 hx
    simp only [hdot j hj, hq j hj, Option.bind_eq_bind, Option.bind_some, decide_true]

variable {c : Circuit F} {shared : Option Range} {pub : Public F}

theorem exists_round2 (h : IsPublic c shared pub)
    (hshared : ∀ r ∈ shared, r.stop ≤ c.ops.length + c.ninputs) {Uw : List (List F)}
    (hUw : Uw.length = pub.params.m) (uadd : List F) (ch : Challenges pub)
    (radd : Fin (pub.params.m * pub.params.l) → F) :
    ∃ r2, ∀ Q, AdditionAccepts pub Uw uadd (ch.round1 radd) r2 Q := by
  let r1 := ch.round1 radd
  let qshared := List.replicate pub.sharedMask.len (0 : F)
  have hrows : ∀ row ∈ r1.rshared, row.length = pub.shared.len := by
    intro row hrow
    obtain ⟨i, rfl⟩ := List.mem_ofFn.1 hrow
    exact List.length_ofFn
  obtain ⟨pub', hfinal, hparams, hbadd⟩ := h.exists_finalizePadd hshared hrows List.length_ofFn
    (List.length_replicate (a := (0 : F)))
  have htarget : ∃ target, dot pub'.badd r1.radd = some target := by
    have hlen : pub'.badd.length = r1.radd.length := hbadd.trans List.length_ofFn.symm
    rw [dot, if_pos hlen]
    exact ⟨_, rfl⟩
  obtain ⟨target, htarget⟩ := htarget
  let ra := makeRa pub.params r1.radd pub'.Padd
  let d (j : ℕ) : F := (List.zipWith (· * ·) (column (ra.map pub.params.fft3) j) (column Uw j)).sum
  have hdot : ∀ j, dot (column (ra.map pub.params.fft3) j) (column Uw j) = some (d j) := by
    intro j
    apply if_pos
    rw [column, column, List.length_map, List.length_map, List.length_map, length_makeRa, hUw]
  obtain ⟨q, hq, hsum⟩ := exists_coeffs_sum pub.params (fun j => uadd.getD j 0 + d j) target
  refine ⟨⟨[], q, [], [], [], [], qshared⟩, fun Q => ⟨pub', hfinal, ?_⟩⟩
  have hmap : ∀ {α : Type} (f : ℕ → α), (Q.map fun j => f j.val) = (Q.map Fin.val).map f := by
    intro α f
    rw [List.map_map]
    rfl
  rw [additionCheck, htarget, hparams, hmap (column Uw), hmap fun j => uadd.getD j 0]
  simp only [Option.bind_eq_bind, Option.bind_some, hsum, if_true]
  apply openedCheck_eq_true _ (fun j _ => hdot j)
  intro j hj
  obtain ⟨i, -, rfl⟩ := List.mem_map.1 hj
  exact hq i i.isLt

/-- The vector with the rows of a matrix one after another. -/
def flatten {m l : ℕ} (W : Fin m → Fin l → F) (i : ℕ) : F :=
  if h : i / l < m ∧ i % l < l then W ⟨i / l, h.1⟩ ⟨i % l, h.2⟩ else 0

/-- Whatever the prover sends for a combination of constraints one of which is violated, the
combinations for which he is accepted at all columns are at most one in the size of the field. -/
def LinearSound [Fintype F] (c : Circuit F) (pub : Public F)
    (W : Fin pub.params.m → Fin pub.params.l → F)
    (random : Fin pub.params.m → Fin pub.params.t → F) (uadd : List F) (ch : Challenges pub) :
    Prop :=
  ¬ LinearSatisfied c (flatten W) → ∀ strategy : Round1 F → Round2 F,
    (Nat.card {radd // ∀ Q, AdditionAccepts pub (encodeRows pub.params W random) uadd
      (ch.round1 radd) (strategy (ch.round1 radd)) Q} : ℚ) /
      Nat.card (Fin (pub.params.m * pub.params.l) → F) ≤ 1 / Fintype.card F

theorem not_linearSound [Fintype F] (h : IsPublic c shared pub)
    (hshared : ∀ r ∈ shared, r.stop ≤ c.ops.length + c.ninputs)
    {W : Fin pub.params.m → Fin pub.params.l → F} (hW : ¬ LinearSatisfied c (flatten W))
    (random : Fin pub.params.m → Fin pub.params.t → F) (uadd : List F) (ch : Challenges pub) :
    ¬ LinearSound c pub W random uadd ch := by
  classical
  intro hsound
  have hUw : (encodeRows pub.params W random).length = pub.params.m := List.length_ofFn
  let strategy (r1 : Round1 F) : Round2 F :=
    if hr2 : ∃ r2, ∀ Q, AdditionAccepts pub (encodeRows pub.params W random) uadd r1 r2 Q
      then hr2.choose else ⟨[], [], [], [], [], [], []⟩
  have haccepts : ∀ radd Q, AdditionAccepts pub (encodeRows pub.params W random) uadd
      (ch.round1 radd) (strategy (ch.round1 radd)) Q := by
    intro radd
    have hr2 := exists_round2 h hshared hUw uadd ch radd
    have hchoose : strategy (ch.round1 radd) = hr2.choose := dif_pos hr2
    rw [hchoose]
    exact hr2.choose_spec
  have hfraction := hsound hW strategy
  rw [Nat.card_congr (Equiv.subtypeUnivEquiv haccepts), div_self, le_div_iff₀, one_mul] at hfraction
  · have hcard : 1 < Fintype.card F := Fintype.one_lt_card
    exact absurd (Nat.cast_le.1 (hfraction.trans_eq Nat.cast_one.symm)) (not_le.2 hcard)
  · exact Nat.cast_pos.2 Fintype.card_pos
  · exact Nat.cast_ne_zero.2 Nat.card_pos.ne'

/-- The check is sound for no extended witness that violates a constraint. -/
theorem linearSound_iff [Fintype F] (h : Public.new c shared = some pub)
    (hshared : ∀ r ∈ shared, r.stop ≤ c.ops.length + c.ninputs)
    (W : Fin pub.params.m → Fin pub.params.l → F)
    (random : Fin pub.params.m → Fin pub.params.t → F) (uadd : List F) (ch : Challenges pub) :
    LinearSound c pub W random uadd ch ↔ LinearSatisfied c (flatten W) := by
  constructor
  · intro hsound
    by_contra hW
    exact not_linearSound (isPublic_new h) hshared hW random uadd ch hsound
  · intro hW hnot
    exact absurd hW hnot

/-- A copy of the only input. -/
def copyCircuit : Circuit F2e19x3e26 where
  ops := [.copy 0]
  ninputs := 1
  noutputs := 1
  noutputs_le := Nat.one_pos
  args_lt := by decide

def copyPublic : Public F2e19x3e26 := (Public.new copyCircuit none).get rfl

/-- The input is zero and its copy is not. -/
def wrongCopy (i : Fin copyPublic.params.m) (c : Fin copyPublic.params.l) : F2e19x3e26 :=
  if i.val = 0 ∧ c.val = 1 then 1 else 0

theorem not_linearSatisfied_wrongCopy : ¬ LinearSatisfied copyCircuit (flatten wrongCopy) := by
  intro h
  have hlast : flatten wrongCopy 1 = 0 := h.2
  revert hlast
  decide

def zeroChallenges : Challenges copyPublic := ⟨0, 0, 0, 0, 0, 0⟩

theorem linearSound_iff_copy :
    LinearSound copyCircuit copyPublic wrongCopy 0 [] zeroChallenges ↔
      LinearSatisfied copyCircuit (flatten wrongCopy) :=
  linearSound_iff (Option.some_get _).symm (fun _ h => by cases h) wrongCopy 0 [] zeroChallenges

/-- The wrong copy is accepted. -/
theorem not_linearSound_copy :
    ¬ LinearSound copyCircuit copyPublic wrongCopy 0 [] zeroChallenges :=
  not_linearSound (isPublic_new (Option.some_get _).symm) (fun _ h => by cases h)
    not_linearSatisfied_wrongCopy 0 [] zeroChallenges

end EdaBitGen.Ligero
