import EdaBitGen.Ligero.Combination

/-!
# Honest provers

The secret of a prover who follows the protocol are codewords whose rows are the extended witness and
the products.  A blinding polynomial has `n + 1` coefficients, and a product of a combined row and a
row has `2 * k + 1`.
-/

namespace EdaBitGen.Ligero

open Fft Coefficients Polynomial
open Inferno (Circuit Op)

variable {F : Type} [Field F] [FieldForLigero F]

/-! ## Combinations of rows -/

namespace RowPoly

variable {params : Params F}

noncomputable def zero : RowPoly params where
  poly := 0
  degree_lt := by
    rw [degree_zero]
    exact WithBot.bot_lt_coe _
  eval_one := eval_zero

noncomputable def add (P P' : RowPoly params) : RowPoly params where
  poly := P.poly + P'.poly
  degree_lt := (degree_add_le _ _).trans_lt (max_lt P.degree_lt P'.degree_lt)
  eval_one := by rw [eval_add, P.eval_one, P'.eval_one, add_zero]

noncomputable def smul (a : F) (P : RowPoly params) : RowPoly params where
  poly := C a * P.poly
  degree_lt := by
    rw [← smul_eq_C_mul]
    exact (degree_smul_le a P.poly).trans_lt P.degree_lt
  eval_one := by rw [eval_mul, P.eval_one, mul_zero]

/-- A combination of rows. -/
noncomputable def combine : List F → List (RowPoly params) → RowPoly params
  | r :: rs, P :: Ps => (P.smul r).add (combine rs Ps)
  | _, _ => zero

theorem entry_combine (r : List F) (Ps : List (RowPoly params)) (j : ℕ) :
    (combine r Ps).entry j = (List.zipWith (· * ·) r (Ps.map fun P => P.entry j)).sum := by
  induction r generalizing Ps with
  | nil => simp [combine, zero, entry]
  | cons a r ih =>
    cases Ps with
    | nil => simp [combine, zero, entry]
    | cons P Ps =>
      rw [List.map_cons, List.zipWith_cons_cons, List.sum_cons, ← ih]
      simp only [combine, add, smul, entry, eval_add, eval_mul, eval_C]

theorem column_map_codeword (Ps : List (RowPoly params)) {j : ℕ} (hj : j < params.n) :
    column (Ps.map codeword) j = Ps.map fun P => P.entry j := by
  rw [column, List.map_map]
  exact List.map_congr_left fun P _ => P.getD_codeword hj

theorem combineRows_codewords (r : List F) (Ps : List (RowPoly params)) (B : RowPoly params) :
    List.zipWith (· + ·) (combineRows params.n r (Ps.map codeword)) B.codeword =
      ((combine r Ps).add B).codeword := by
  rw [combineRows, codeword, codeword, List.zipWith_map, List.zipWith_self]
  refine List.map_congr_left fun j hj => ?_
  rw [column_map_codeword Ps (List.mem_range.1 hj), ← entry_combine]
  exact eval_add.symm

end RowPoly

/-! ## The secrets of an honest prover -/

/-- The polynomials of a prover's codewords. -/
structure Rows (params : Params F) where
  w : Fin params.m → RowPoly params
  x : Fin params.m → RowPoly params
  y : Fin params.m → RowPoly params
  z : Fin params.m → RowPoly params
  u : RowPoly params
  ux : RowPoly params
  uy : RowPoly params
  uz : RowPoly params
  u0 : RowPoly params
  uadd : RowPoly params

/-- The polynomials of the interleaved code. -/
def Rows.all {params : Params F} (R : Rows params) : List (RowPoly params) :=
  List.ofFn R.w ++ List.ofFn R.x ++ List.ofFn R.y ++ List.ofFn R.z

/-- The inputs or the outputs of the products. -/
def elements (c : Circuit F) (pick : ℕ → ℕ → ℕ → ℕ) (w : List F) : List F :=
  c.ops.zipIdx.foldl (setProduct pick w c.ninputs) (List.replicate w.length 0)

/-- The secret has codewords with the given polynomials, whose rows are the extended witness and the
products. -/
structure IsSecret (pub : Public F) (c : Circuit F) (w : List F) (R : Rows pub.params)
    (s : Secret F) : Prop where
  w_eq : s.w = w
  Uw_eq : s.Uw = codewords R.w
  Ux_eq : s.Ux = codewords R.x
  Uy_eq : s.Uy = codewords R.y
  Uz_eq : s.Uz = codewords R.z
  u_eq : s.u = R.u.codeword
  ux_eq : s.ux = R.ux.codeword
  uy_eq : s.uy = R.uy.codeword
  uz_eq : s.uz = R.uz.codeword
  u0_eq : s.u0 = R.u0.codeword
  uadd_eq : s.uadd = R.uadd.codeword
  row_w : ∀ i : Fin pub.params.m, ∀ j < pub.params.l,
    (R.w i).row j = w.getD (i * pub.params.l + j) 0
  row_x : ∀ i : Fin pub.params.m, ∀ j < pub.params.l,
    (R.x i).row j = (elements c (fun i _ _ => i) w).getD (i * pub.params.l + j) 0
  row_y : ∀ i : Fin pub.params.m, ∀ j < pub.params.l,
    (R.y i).row j = (elements c (fun _ j _ => j) w).getD (i * pub.params.l + j) 0
  row_z : ∀ i : Fin pub.params.m, ∀ j < pub.params.l,
    (R.z i).row j = (elements c (fun _ _ k => k) w).getD (i * pub.params.l + j) 0
  product : ∀ k, (elements c (fun i _ _ => i) w).getD k 0 * (elements c (fun _ j _ => j) w).getD k 0 =
    (elements c (fun _ _ k => k) w).getD k 0
  sum_ux : ∑ j ∈ Finset.range pub.params.l, R.ux.row j = 0
  sum_uy : ∑ j ∈ Finset.range pub.params.l, R.uy.row j = 0
  sum_uz : ∑ j ∈ Finset.range pub.params.l, R.uz.row j = 0
  sum_uadd : ∑ j ∈ Finset.range pub.params.l, R.uadd.row j = 0
  row_u0 : ∀ j < pub.params.l, R.u0.row j = 0

theorem IsSecret.U_eq {pub : Public F} {c : Circuit F} {w : List F} {R : Rows pub.params}
    {s : Secret F} (hs : IsSecret pub c w R s) : s.U = R.all.map RowPoly.codeword := by
  rw [Secret.U, hs.Uw_eq, hs.Ux_eq, hs.Uy_eq, hs.Uz_eq, Rows.all]
  simp only [List.map_append, List.map_ofFn]
  rfl

section

variable {c : Circuit F} {shared : Option Range} {pub : Public F} (hpub : IsPublic c shared pub)
  {inp : List F} (hinp : inp.length = c.ninputs)
include hpub hinp

theorem product_elements (mask : F) (k : ℕ) :
    (elements c (fun i _ _ => i) (extWitness pub c inp mask)).getD k 0 *
      (elements c (fun _ j _ => j) (extWitness pub c inp mask)).getD k 0 =
      (elements c (fun _ _ k => k) (extWitness pub c inp mask)).getD k 0 := by
  have hsize := hpub.size_le
  have hlen := length_extWitness hpub hinp mask
  have hml : c.ops.length + c.ninputs ≤ (extWitness pub c inp mask).length := by omega
  simp only [elements, getD_foldl_write (isWrite_setProduct _ _ c.ninputs) hml]
  by_cases hk : c.ninputs ≤ k
  · simp only [if_pos hk]
    cases hop : c.ops[k - c.ninputs]? with
    | none => simp
    | some op =>
      cases op with
      | mul i j =>
        have hmem : (Op.mul i j, k - c.ninputs) ∈ c.ops.zipIdx :=
          List.mem_zipIdx_iff_getElem?.2 hop
        have hvalue := opValue_extWitness hpub hinp mask hmem
        rw [Nat.sub_add_cancel hk] at hvalue
        exact hvalue.symm
      | add i j => exact mul_zero 0
      | sub i j => exact mul_zero 0
      | constant f => exact mul_zero 0
      | copy i => exact mul_zero 0
  · simp only [if_neg hk, mul_zero]

variable [DecidableEq F]

theorem exists_secret (coins : Coins pub.params) : ∃ s R, Secret.new pub c inp coins = some s ∧
    IsSecret pub c (extWitness pub c inp coins.mask) R s := by
  let w := extWitness pub c inp coins.mask
  have hw : w.length = pub.params.m * pub.params.l := length_extWitness hpub hinp coins.mask
  have hlen : ∀ pick, (elements c pick w).length = pub.params.m * pub.params.l := by
    intro pick
    rw [elements, length_foldl_write (isWrite_setProduct pick w c.ninputs), List.length_replicate, hw]
  obtain ⟨W, hW, hrowW⟩ := exists_encodeInterleaved pub.params hw coins.w
  obtain ⟨X, hX, hrowX⟩ := exists_encodeInterleaved pub.params (hlen fun i _ _ => i) coins.x
  obtain ⟨Y, hY, hrowY⟩ := exists_encodeInterleaved pub.params (hlen fun _ j _ => j) coins.y
  obtain ⟨Z, hZ, hrowZ⟩ := exists_encodeInterleaved pub.params (hlen fun _ _ k => k) coins.z
  obtain ⟨u, hu⟩ := coins.u.exists_codeword
  obtain ⟨ux, hux, hsumx⟩ := coins.ux.exists_zeroCodeword
  obtain ⟨uy, huy, hsumy⟩ := coins.uy.exists_zeroCodeword
  obtain ⟨uz, huz, hsumz⟩ := coins.uz.exists_zeroCodeword
  obtain ⟨uadd, huadd, hsumadd⟩ := coins.uadd.exists_zeroCodeword
  let u0 := RowPoly.ofRow (List.replicate pub.params.l 0) (List.ofFn coins.u0)
    List.length_replicate List.length_ofFn
  have hu0 : ∀ j < pub.params.l, u0.row j = 0 := by
    intro j hj
    rw [RowPoly.row_ofRow _ _ hj]
    simp
  have hproduct := product_elements hpub hinp coins.mask
  have hfold : ∀ pick, c.ops.zipIdx.foldl (setProduct pick w c.ninputs)
      (List.replicate (pub.params.m * pub.params.l) 0) = elements c pick w := by
    intro pick
    rw [elements, hw]
  refine ⟨⟨w, elements c (fun i _ _ => i) w, elements c (fun _ j _ => j) w,
    elements c (fun _ _ k => k) w, codewords W, codewords X, codewords Y, codewords Z, u.codeword,
    ux.codeword, uy.codeword, uz.codeword, u0.codeword, uadd.codeword⟩,
    ⟨W, X, Y, Z, u, ux, uy, uz, u0, uadd⟩, ?_, ?_⟩
  · rw [Secret.new, if_pos hinp]
    have hassign : assign (assign (List.replicate (pub.params.m * pub.params.l) 0) 0 (c.wires inp))
        pub.sharedMask.start [coins.mask] = w := rfl
    dsimp only
    simp only [hassign, hfold]
    rw [if_pos fun k _ => sub_eq_zero.2 (hproduct k)]
    rw [← hW, ← hX, ← hY, ← hZ, ← hu, ← hux, ← huy, ← huz, ← huadd,
      ← RowPoly.encode_eq List.length_replicate List.length_ofFn]
  · exact ⟨rfl, rfl, rfl, rfl, rfl, rfl, rfl, rfl, rfl, rfl, rfl, hrowW, hrowX, hrowY, hrowZ,
      hproduct, hsumx, hsumy, hsumz, hsumadd, hu0⟩

end

section

variable {params : Params F}

theorem length_of_mem_makePa {X : Fin params.m → RowPoly params} {p : List F}
    (hp : p ∈ makePa params (codewords X)) : p.length = params.k + 1 := by
  rw [makePa_codewords] at hp
  obtain ⟨i, rfl⟩ := List.mem_ofFn.1 hp
  exact length_toCoeffs _ _

theorem length_honestP0 (hm : 0 < params.m) (X Y Z : Fin params.m → RowPoly params)
    (B : RowPoly params) (rq : Fin params.m → F) :
    (honestP0 X Y Z B rq).length = max (params.n + 1) (2 * params.k + 1) := by
  have hlen : ∀ X : Fin params.m → RowPoly params,
      (makePa params (codewords X)).length = params.m := by
    intro X
    rw [makePa_codewords, List.length_ofFn]
  rw [honestP0, makeP0, length_foldl_padd_map (n := 2 * params.k + 1),
    RowPoly.fft3Inverse_codeword, length_toCoeffs]
  · rintro ⟨r, x, y, z⟩ hrow
    have hx := length_of_mem_makePa (List.of_mem_zip (List.of_mem_zip hrow).2).1
    have hyz := (List.of_mem_zip (List.of_mem_zip hrow).2).2
    have hy := length_of_mem_makePa (List.of_mem_zip hyz).1
    have hz := length_of_mem_makePa (List.of_mem_zip hyz).2
    have hx' : x ≠ [] := List.ne_nil_of_length_eq_add_one hx
    have hy' : y ≠ [] := List.ne_nil_of_length_eq_add_one hy
    rw [List.length_map, length_psub, pmul2_eq params hx' hy' hx.le hy.le, length_toCoeffs, hx, hy,
      hz]
    omega
  · apply List.ne_nil_of_length_pos
    simp only [List.length_zip, List.length_ofFn, hlen, Nat.min_self]
    exact hm

theorem rowTerms_ne_nil (hm : 0 < params.m) (v : List F) (X : Fin params.m → RowPoly params) :
    rowTerms v X ≠ [] := by
  apply List.ne_nil_of_length_pos
  rw [rowTerms, List.length_ofFn]
  exact hm

end

theorem IsPublic.m_pos {c : Circuit F} {shared : Option Range} {pub : Public F}
    (h : IsPublic c shared pub) : 0 < pub.params.m := by
  have hsize := h.size_le
  apply Nat.pos_of_ne_zero
  intro hm
  rw [hm, Nat.zero_mul] at hsize
  omega

section

variable {params : Params F} [DecidableEq F] {Q : List ℕ} (hQ : ∀ j ∈ Q, j < params.n)
include hQ

theorem codeCheck_combine {r : List F} {Ps : List (RowPoly params)} (hr : r.length = Ps.length)
    (B : RowPoly params) :
    codeCheck r ((RowPoly.combine r Ps).add B).codeword Q
      (Q.map (column (Ps.map RowPoly.codeword))) (Q.map fun j => B.codeword.getD j 0) =
      some true := by
  rw [codeCheck, List.zip_map', zip_map_self, checkAll_some (p := fun _ => true)]
  · simp
  · intro x hx
    obtain ⟨j, hj, rfl⟩ := List.mem_map.1 hx
    have hj' := hQ j hj
    have hcolumn : (column (Ps.map RowPoly.codeword) j).length = r.length := by
      rw [column, List.length_map, List.length_map, hr]
    have hv : ((RowPoly.combine r Ps).add B).codeword[j]? =
        some (((RowPoly.combine r Ps).add B).entry j) := by
      rw [RowPoly.codeword, List.getElem?_map, List.getElem?_range hj', Option.map_some]
    have hentry : ((RowPoly.combine r Ps).add B).entry j =
        (List.zipWith (· * ·) r (column (Ps.map RowPoly.codeword) j)).sum + B.entry j := by
      rw [RowPoly.column_map_codeword Ps hj', ← RowPoly.entry_combine]
      exact eval_add
    simp only [dot, if_pos hcolumn.symm, hv, hentry, B.getD_codeword hj', Option.bind_eq_bind,
      Option.bind_some, decide_true]

theorem openedCheck_rowTerms {v : List F} (hv : v.length = params.m * params.l)
    (X : Fin params.m → RowPoly params) (B : RowPoly params) :
    openedCheck params ((Chunks.exact params.l v).map params.fft2Inverse)
      (combination (rowTerms v X) B) Q (Q.map (column (codewords X)))
      (Q.map fun j => B.codeword.getD j 0) = some true := by
  have h := openedCheck_combination B (length_of_mem_rowTerms hv X) hQ
  rw [fst_rowTerms hv X] at h
  rw [← h]
  congr 1
  · exact List.map_congr_left fun j hj => (entries_rowTerms v X (hQ j hj)).symm
  · exact List.map_congr_left fun j hj => B.getD_codeword (hQ j hj)

theorem openedCheck_imlTerms {ra : List F} (hra : ra.length = params.m * params.l) (Pa : TriMat F)
    (X W : Fin params.m → RowPoly params) (B : RowPoly params) :
    openedCheck params (makeRaImlPaNeg params ra Pa) (combination (imlTerms params ra Pa X W) B) Q
      (List.zipWith (· ++ ·) (Q.map (column (codewords X))) (Q.map (column (codewords W))))
      (Q.map fun j => B.codeword.getD j 0) = some true := by
  have h := openedCheck_combination B (length_of_mem_imlTerms hra Pa X W) hQ
  rw [fst_imlTerms hra Pa X W] at h
  rw [← h, List.zipWith_map, List.zipWith_self]
  congr 1
  · exact List.map_congr_left fun j hj => (entries_imlTerms Pa X W (hQ j hj)).symm
  · exact List.map_congr_left fun j hj => B.getD_codeword (hQ j hj)

end

omit [FieldForLigero F] in
theorem TriMat.bilinear_neg (P : TriMat F) (r w : ℕ → F) :
    TriMat.bilinear (P.map fun e => (e.1, e.2.1, -e.2.2)) r w = -P.bilinear r w := by
  induction P with
  | nil => simp [bilinear]
  | cons e P ih =>
    rw [bilinear] at ih ⊢
    rw [bilinear, List.map_cons, List.map_cons, List.sum_cons, ih, List.map_cons, List.sum_cons,
      bilinear]
    ring

theorem sum_imlTerms {params : Params F} [DecidableEq F] {ra : List F}
    (hra : ra.length = params.m * params.l) {Pa : TriMat F}
    (hcols : ∀ e ∈ Pa, e.2.1 < params.m * params.l) {X W : Fin params.m → RowPoly params}
    {B : RowPoly params} (hB : ∑ j ∈ Finset.range params.l, B.row j = 0) {x w : ℕ → F}
    (hX : ∀ i : Fin params.m, ∀ j < params.l, (X i).row j = x (i * params.l + j))
    (hW : ∀ i : Fin params.m, ∀ j < params.l, (W i).row j = w (i * params.l + j))
    (hx : ∑ k ∈ Finset.range (params.m * params.l), ra.getD k 0 * x k =
      Pa.bilinear (ra.getD · 0) w) :
    sumAtSecrets params (combination (imlTerms params ra Pa X W) B) = 0 := by
  have hneg : ∀ e ∈ Pa.map fun e => (e.1, e.2.1, -e.2.2), e.2.1 < params.m * params.l := by
    intro e he
    obtain ⟨e', he', rfl⟩ := List.mem_map.1 he
    exact hcols e' he'
  rw [sumAtSecrets_combination B (length_of_mem_imlTerms hra Pa X W) hB, imlTerms, List.map_append,
    List.sum_append, sum_rowTerms hra X hX, sum_rowTerms (TriMat.length_combine _ _ _) W hW, hx,
    TriMat.sum_combine _ ra w hneg, TriMat.bilinear_neg, add_neg_cancel]

/-! ## The second round -/

/-- The message with the combinations of the given polynomials. -/
structure IsRound2 (pub pub' : Public F) (R : Rows pub.params) (ch : Challenges pub)
    (radd : Fin (pub.params.m * pub.params.l) → F) (r2 : Round2 F) : Prop where
  v_eq : r2.v = ((RowPoly.combine (List.ofFn ch.r) R.all).add R.u).codeword
  qadd_eq : r2.qadd = combination
    (rowTerms (pub'.Padd.combine (pub.params.m * pub.params.l) (List.ofFn radd)) R.w) R.uadd
  qx_eq : r2.qx = combination (imlTerms pub.params (List.ofFn ch.rx) pub.Px R.x R.w) R.ux
  qy_eq : r2.qy = combination (imlTerms pub.params (List.ofFn ch.ry) pub.Py R.y R.w) R.uy
  qz_eq : r2.qz = combination (imlTerms pub.params (List.ofFn ch.rz) pub.Pz R.z R.w) R.uz
  p0_eq : r2.p0 = honestP0 R.x R.y R.z R.u0 ch.rq
  final : pub.finalizePadd (ch.round1 radd).rshared r2.qshared = some pub'

section

variable {c : Circuit F} {shared : Option Range} {pub : Public F} (hpub : IsPublic c shared pub)
include hpub

theorem imlTerms_ne_nil (ra : List F) (Pa : TriMat F) (X W : Fin pub.params.m → RowPoly pub.params) :
    imlTerms pub.params ra Pa X W ≠ [] := by
  rw [imlTerms]
  exact List.append_ne_nil_of_left_ne_nil (rowTerms_ne_nil hpub.m_pos _ _) _

theorem length_combination_imlTerms {ra : List F} (hra : ra.length = pub.params.m * pub.params.l)
    (Pa : TriMat F) (X W : Fin pub.params.m → RowPoly pub.params) (U : RowPoly pub.params) :
    (combination (imlTerms pub.params ra Pa X W) U).length =
      max (pub.params.n + 1) (2 * pub.params.k + 1) :=
  length_combination _ (length_of_mem_imlTerms hra _ _ _) (imlTerms_ne_nil hpub _ _ _ _)

theorem exists_honest_finalizePadd (hshared : ∀ r ∈ shared, r.stop ≤ c.ops.length + c.ninputs)
    {w : List F} (hw : w.length = pub.params.m * pub.params.l) (ch : Challenges pub)
    (radd : Fin (pub.params.m * pub.params.l) → F) :
    ∃ pub', pub.finalizePadd (ch.round1 radd).rshared
      (makeQshared w pub.shared pub.sharedMask (ch.round1 radd).rshared) = some pub' ∧
      pub'.params = pub.params := by
  have hsize := hpub.size_le
  have hrows : ∀ row ∈ (ch.round1 radd).rshared, row.length = pub.shared.len := by
    intro row hrow
    obtain ⟨i, rfl⟩ := List.mem_ofFn.1 hrow
    exact List.length_ofFn
  have hqshared : (makeQshared w pub.shared pub.sharedMask (ch.round1 radd).rshared).length =
      pub.sharedMask.len := by
    have hmask := hpub.mask_start
    have hone := hpub.mask_len
    have hrshared : (ch.round1 radd).rshared.length = pub.sharedMask.len := List.length_ofFn
    rw [makeQshared, List.length_zipWith, hrshared, List.length_take, List.length_drop, hw]
    omega
  obtain ⟨pub', hfinal, hparams, -⟩ := hpub.exists_finalizePadd hshared hrows List.length_ofFn
    hqshared
  exact ⟨pub', hfinal, hparams⟩

theorem exists_round2_eq (hshared : ∀ r ∈ shared, r.stop ≤ c.ops.length + c.ninputs)
    {inp : List F} (hinp : inp.length = c.ninputs) {mask : F} {R : Rows pub.params} {s : Secret F}
    (hs : IsSecret pub c (extWitness pub c inp mask) R s) (ch : Challenges pub)
    (radd : Fin (pub.params.m * pub.params.l) → F) : ∃ r2 pub', IsRound2 pub pub' R ch radd r2 ∧
      pub'.params = pub.params ∧
      r2.qshared = makeQshared (extWitness pub c inp mask) pub.shared pub.sharedMask
        (ch.round1 radd).rshared ∧
      round2 pub s (ch.round1 radd) =
        if pub.params.n ≤ 2 * pub.params.k then some r2 else none := by
  let r1 := ch.round1 radd
  let qshared := makeQshared s.w pub.shared pub.sharedMask r1.rshared
  have hw : s.w.length = pub.params.m * pub.params.l := by
    rw [hs.w_eq, length_extWitness hpub hinp]
  obtain ⟨pub', hfinal, hparams⟩ := exists_honest_finalizePadd hpub hshared hw ch radd
  let r2 : Round2 F := {
    v := ((RowPoly.combine (List.ofFn ch.r) R.all).add R.u).codeword
    qadd := combination
      (rowTerms (pub'.Padd.combine (pub.params.m * pub.params.l) (List.ofFn radd)) R.w) R.uadd
    qx := combination (imlTerms pub.params (List.ofFn ch.rx) pub.Px R.x R.w) R.ux
    qy := combination (imlTerms pub.params (List.ofFn ch.ry) pub.Py R.y R.w) R.uy
    qz := combination (imlTerms pub.params (List.ofFn ch.rz) pub.Pz R.z R.w) R.uz
    p0 := honestP0 R.x R.y R.z R.u0 ch.rq
    qshared := qshared }
  refine ⟨r2, pub', ⟨rfl, rfl, rfl, rfl, rfl, rfl, hfinal⟩, hparams, ?_, ?_⟩
  · rw [← hs.w_eq]
  · have hv : List.zipWith (· + ·) (combineRows pub.params.n (List.ofFn ch.r) s.U) s.u = r2.v := by
      rw [hs.U_eq, hs.u_eq, RowPoly.combineRows_codewords]
    have hqadd : makeQadd pub.params s.uadd (makePa pub.params s.Uw) pub'.Padd (List.ofFn radd) =
        r2.qadd := by
      rw [hs.uadd_eq, hs.Uw_eq, makeQadd_eq]
    have hqx : makeQa pub.params (makePa pub.params s.Uw) pub.Px s.Ux s.ux (List.ofFn ch.rx) =
        r2.qx := by
      rw [hs.ux_eq, hs.Uw_eq, hs.Ux_eq, makeQa_eq List.length_ofFn]
    have hqy : makeQa pub.params (makePa pub.params s.Uw) pub.Py s.Uy s.uy (List.ofFn ch.ry) =
        r2.qy := by
      rw [hs.uy_eq, hs.Uw_eq, hs.Uy_eq, makeQa_eq List.length_ofFn]
    have hqz : makeQa pub.params (makePa pub.params s.Uw) pub.Pz s.Uz s.uz (List.ofFn ch.rz) =
        r2.qz := by
      rw [hs.uz_eq, hs.Uw_eq, hs.Uz_eq, makeQa_eq List.length_ofFn]
    have hp0 : makeP0 pub.params s.u0 (makePa pub.params s.Ux) (makePa pub.params s.Uy)
        (makePa pub.params s.Uz) (List.ofFn ch.rq) = r2.p0 := by
      rw [hs.u0_eq, hs.Ux_eq, hs.Uy_eq, hs.Uz_eq]
      rfl
    have hround : round2 pub s r1 = if r2.v.length = pub.params.n ∧
        r2.qadd.length = 2 * pub.params.k + 1 ∧ r2.qx.length = 2 * pub.params.k + 1 ∧
        r2.qy.length = 2 * pub.params.k + 1 ∧ r2.qz.length = 2 * pub.params.k + 1 ∧
        r2.p0.length = 2 * pub.params.k + 1 then some r2 else none := by
      have hr2 : (⟨List.zipWith (· + ·) (combineRows pub.params.n (List.ofFn ch.r) s.U) s.u,
          makeQadd pub.params s.uadd (makePa pub.params s.Uw) pub'.Padd (List.ofFn radd),
          makeQa pub.params (makePa pub.params s.Uw) pub.Px s.Ux s.ux (List.ofFn ch.rx),
          makeQa pub.params (makePa pub.params s.Uw) pub.Py s.Uy s.uy (List.ofFn ch.ry),
          makeQa pub.params (makePa pub.params s.Uw) pub.Pz s.Uz s.uz (List.ofFn ch.rz),
          makeP0 pub.params s.u0 (makePa pub.params s.Ux) (makePa pub.params s.Uy)
            (makePa pub.params s.Uz) (List.ofFn ch.rq), qshared⟩ : Round2 F) = r2 := by
        rw [hv, hqadd, hqx, hqy, hqz, hp0]
      rw [← hr2]
      unfold round2
      dsimp only
      rw [hfinal]
      rfl
    have hm := hpub.m_pos
    have hv' : r2.v.length = pub.params.n := RowPoly.length_codeword _
    have hqadd' : r2.qadd.length = max (pub.params.n + 1) (2 * pub.params.k + 1) :=
      length_combination _ (length_of_mem_rowTerms (TriMat.length_combine _ _ _) _)
        (rowTerms_ne_nil hm _ _)
    have hqx' : r2.qx.length = max (pub.params.n + 1) (2 * pub.params.k + 1) :=
      length_combination_imlTerms hpub List.length_ofFn _ _ _ _
    have hqy' : r2.qy.length = max (pub.params.n + 1) (2 * pub.params.k + 1) :=
      length_combination_imlTerms hpub List.length_ofFn _ _ _ _
    have hqz' : r2.qz.length = max (pub.params.n + 1) (2 * pub.params.k + 1) :=
      length_combination_imlTerms hpub List.length_ofFn _ _ _ _
    have hp0' : r2.p0.length = max (pub.params.n + 1) (2 * pub.params.k + 1) :=
      length_honestP0 hm _ _ _ _ _
    have hmax : max (pub.params.n + 1) (2 * pub.params.k + 1) = 2 * pub.params.k + 1 ↔
        pub.params.n ≤ 2 * pub.params.k := by omega
    rw [hround]
    simp only [hv', hqadd', hqx', hqy', hqz', hp0', hmax, true_and, and_self]

end

omit [Field F] [FieldForLigero F] in
theorem openColumns_toMatrix {F : Type} [Field F] {r n : ℕ} {rows : List (List F)}
    (hrows : rows.length = r) (Q : List (Fin n)) :
    (openColumns (toMatrix r n rows) Q).columns.map List.ofFn =
      (Q.map Fin.val).map (column rows) := by
  subst hrows
  rw [openColumns, List.map_map, List.map_map]
  refine List.map_congr_left fun j _ => ?_
  apply List.ext_getElem (by simp [column])
  intro i hi hi'
  simp [toMatrix, column, List.getD_eq_getElem?_getD]

theorem column_part {params : Params F} (R : Rows params) (j : ℕ) :
    ((column (R.all.map RowPoly.codeword) j).drop (0 * params.m)).take params.m =
        column (codewords R.w) j ∧
      ((column (R.all.map RowPoly.codeword) j).drop (1 * params.m)).take params.m =
        column (codewords R.x) j ∧
      ((column (R.all.map RowPoly.codeword) j).drop (2 * params.m)).take params.m =
        column (codewords R.y) j ∧
      ((column (R.all.map RowPoly.codeword) j).drop (3 * params.m)).take params.m =
        column (codewords R.z) j := by
  have hlen : ∀ X : Fin params.m → RowPoly params,
      (column (codewords X) j).length = params.m := by
    intro X
    rw [column, codewords, List.length_map, List.length_ofFn]
  have hall : column (R.all.map RowPoly.codeword) j = column (codewords R.w) j ++
      (column (codewords R.x) j ++ (column (codewords R.y) j ++ column (codewords R.z) j)) := by
    simp only [Rows.all, column, codewords, List.map_append, List.map_ofFn, List.append_assoc]
    rfl
  have hfirst : ∀ {part rest : List F}, part.length = params.m →
      ((part ++ rest).drop (0 * params.m)).take params.m = part := by
    intro part rest hpart
    rw [Nat.zero_mul, List.drop_zero, ← hpart, List.take_left]
  have hnext : ∀ {part rest : List F} (b : ℕ), part.length = params.m →
      (part ++ rest).drop ((b + 1) * params.m) = rest.drop (b * params.m) := by
    intro part rest b hpart
    rw [Nat.succ_mul, Nat.add_comm, ← List.drop_drop, ← hpart, List.drop_left]
  have hlast := List.append_nil (column (codewords R.z) j)
  rw [hall, hnext 0 (hlen _), hnext 1 (hlen _), hnext 2 (hlen _), hnext 0 (hlen _),
    hnext 1 (hlen _), hnext 0 (hlen _), ← hlast, hfirst (hlen _), hfirst (hlen _), hfirst (hlen _),
    hfirst (hlen _)]
  exact ⟨rfl, rfl, rfl, hlast.symm⟩

theorem cols_finalizePadd {c : Circuit F} {shared : Option Range} {pub pub' : Public F}
    (hpub : IsPublic c shared pub) {rshared : List (List F)} {qshared : List F}
    (h : pub.finalizePadd rshared qshared = some pub') :
    (∀ e ∈ pub'.Padd, e.2.1 < pub.params.m * pub.params.l) ∧
      pub'.badd.length = pub.params.m * pub.params.l ∧ pub'.Px = pub.Px ∧ pub'.Py = pub.Py ∧
      pub'.Pz = pub.Pz := by
  have hsize := hpub.size_le
  have hstart := hpub.mask_start
  have hone := hpub.mask_len
  rw [Public.finalizePadd] at h
  split at h
  · rename_i hcond
    obtain rfl := Option.some.inj h
    have hbadd : (pub.badd.take pub.sharedMask.start ++ qshared ++
        pub.badd.drop pub.sharedMask.stop).length = pub.params.m * pub.params.l := by
      have hstop := hpub.mask_stop
      simp only [List.length_append, List.length_take, List.length_drop, hcond.2.2.1, hone,
        hpub.length_badd]
      omega
    refine ⟨fun e he => ?_, hbadd, rfl, rfl, rfl⟩
    rcases List.mem_append.1 he with he | he
    · rw [hpub.Padd_eq] at he
      rcases List.mem_append.1 he with he | he
      · have hle : c.ops.length + c.ninputs ≤ pub.params.m * pub.params.l := by omega
        exact cols_gateEntries hle cols_linear e he
      · rw [List.mem_singleton.1 he]
        change c.ops.length + c.ninputs - 1 < _
        omega
    · obtain ⟨row, hrow, he⟩ := List.mem_flatMap.1 he
      rcases List.mem_append.1 he with he | he
      · rw [← List.map_uncurry_zip_eq_zipWith] at he
        obtain ⟨sr, hsr, rfl⟩ := List.mem_map.1 he
        rw [← hpub.length_badd]
        exact hcond.2.2.2 _ (List.of_mem_zip hsr).1
      · rw [List.mem_singleton.1 he]
        have hmask := (List.of_mem_zip hrow).1
        rw [Range.indices, hone, List.mem_range'_1] at hmask
        change row.1 < _
        omega
  · cases h

end EdaBitGen.Ligero
