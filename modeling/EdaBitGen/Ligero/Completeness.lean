import EdaBitGen.Ligero.Honest

/-!
# Completeness

A prover who follows the protocol is accepted if and only if the polynomials that he sends have the
length that he asserts.
-/

namespace EdaBitGen.Ligero

open Fft Coefficients Polynomial
open Inferno (Circuit Op)

variable {F : Type} [Field F] [FieldForLigero F]

/-! ## Verification -/

section

variable [DecidableEq F] {c : Circuit F} {shared : Option Range} {pub pub' : Public F}
  (hpub : IsPublic c shared pub) {inp : List F} (hinp : inp.length = c.ninputs) {mask : F}
  {R : Rows pub.params} {s : Secret F} (hs : IsSecret pub c (extWitness pub c inp mask) R s)
include hpub hinp hs

/-- The inputs or outputs of the products are the product of a matrix and the extended witness. -/
theorem sumAtSecrets_products {pick : ℕ → ℕ → ℕ → ℕ}
    (hpick : ∀ i j k, pick i j k = k ∨ pick i j k = i ∨ pick i j k = j) {ra : List F}
    (hra : ra.length = pub.params.m * pub.params.l) {X : Fin pub.params.m → RowPoly pub.params}
    (hX : ∀ i : Fin pub.params.m, ∀ j < pub.params.l, (X i).row j =
      (elements c pick (extWitness pub c inp mask)).getD (i * pub.params.l + j) 0)
    {B : RowPoly pub.params} (hB : ∑ j ∈ Finset.range pub.params.l, B.row j = 0) :
    sumAtSecrets pub.params
      (combination (imlTerms pub.params ra (gateEntries c (products pick)) X R.w) B) = 0 := by
  have hsize := hpub.size_le
  have hml : c.ops.length + c.ninputs ≤ pub.params.m * pub.params.l := by omega
  have hgate : ∀ k op, ∀ e ∈ products (F := F) pick k op, e.2.1 = k ∨ e.2.1 ∈ op.args := by
    intro k op e he
    cases op with
    | mul i j =>
      rw [List.mem_singleton.1 he]
      simpa [Op.args] using hpick i j k
    | add i j => cases he
    | sub i j => cases he
    | constant f => cases he
    | copy i => cases he
  let w := extWitness pub c inp mask
  have hlen : w.length = pub.params.m * pub.params.l := length_extWitness hpub hinp mask
  have hx : ∑ k ∈ Finset.range (pub.params.m * pub.params.l),
      ra.getD k 0 * (elements c pick w).getD k 0 =
        (gateEntries c (products pick)).bilinear (ra.getD · 0) (w.getD · 0) := by
    rw [elements, hlen]
    exact sum_elements hml pick w (ra.getD · 0)
  exact sum_imlTerms (x := fun k => (elements c pick w).getD k 0) (w := fun k => w.getD k 0) hra
    (cols_gateEntries hml hgate) hB hX hs.row_w hx

variable {ch : Challenges pub} {radd : Fin (pub.params.m * pub.params.l) → F} {r2 : Round2 F}
  (hr2 : IsRound2 pub pub' R ch radd r2) {Q : List ℕ} (hQ : ∀ j ∈ Q, j < pub.params.n)
include hr2 hQ

theorem multiplicationCheck_honest (hparams : pub'.params = pub.params) :
    multiplicationCheck pub' (ch.round1 radd) r2 Q (Q.map (column (codewords R.w)))
      (Q.map (column (codewords R.x))) (Q.map (column (codewords R.y)))
      (Q.map (column (codewords R.z))) (Q.map fun j => R.ux.codeword.getD j 0)
      (Q.map fun j => R.uy.codeword.getD j 0) (Q.map fun j => R.uz.codeword.getD j 0)
      (Q.map fun j => R.u0.codeword.getD j 0) = some true := by
  obtain ⟨-, -, hPx, hPy, hPz⟩ := cols_finalizePadd hpub hr2.final
  have hsumx : sumAtSecrets pub.params r2.qx = 0 := by
    rw [hr2.qx_eq, hpub.Px_eq]
    exact sumAtSecrets_products hpub hinp hs (fun _ _ _ => .inr (.inl rfl)) List.length_ofFn hs.row_x
      hs.sum_ux
  have hsumy : sumAtSecrets pub.params r2.qy = 0 := by
    rw [hr2.qy_eq, hpub.Py_eq]
    exact sumAtSecrets_products hpub hinp hs (fun _ _ _ => .inr (.inr rfl)) List.length_ofFn hs.row_y
      hs.sum_uy
  have hsumz : sumAtSecrets pub.params r2.qz = 0 := by
    rw [hr2.qz_eq, hpub.Pz_eq]
    exact sumAtSecrets_products hpub hinp hs (fun _ _ _ => .inl rfl) List.length_ofFn hs.row_z
      hs.sum_uz
  have hx := openedCheck_imlTerms hQ (List.length_ofFn (f := ch.rx)) pub.Px R.x R.w R.ux
  have hy := openedCheck_imlTerms hQ (List.length_ofFn (f := ch.ry)) pub.Py R.y R.w R.uy
  have hz := openedCheck_imlTerms hQ (List.length_ofFn (f := ch.rz)) pub.Pz R.z R.w R.uz
  have hproduct : ∀ j, j + 1 < pub.params.l →
      ∑ i, ch.rq i * ((R.x i).row j * (R.y i).row j - (R.z i).row j) = 0 := by
    intro j hj
    refine Finset.sum_eq_zero fun i _ => ?_
    have hj' := Nat.lt_of_succ_lt hj
    rw [hs.row_x i j hj', hs.row_y i j hj', hs.row_z i j hj', hs.product, sub_self, mul_zero]
  have hquadratic := (quadraticCheck_honest R.x R.y R.z R.u0 ch.rq hQ hs.row_u0).2 hproduct
  rw [← hr2.qx_eq] at hx
  rw [← hr2.qy_eq] at hy
  rw [← hr2.qz_eq] at hz
  rw [← hr2.p0_eq] at hquadratic
  rw [multiplicationCheck, hparams, hPx, hPy, hPz]
  dsimp only
  rw [if_pos ⟨hsumx, hsumy, hsumz⟩]
  have hround : ch.round1 radd = ⟨List.ofFn ch.r, List.ofFn radd, List.ofFn ch.rx, List.ofFn ch.ry,
    List.ofFn ch.rz, List.ofFn ch.rq, (ch.round1 radd).rshared⟩ := rfl
  rw [hround]
  dsimp only
  rw [hx, hy, hz]
  exact hquadratic

theorem additionCheck_honest (hparams : pub'.params = pub.params)
    (hzero : (c.wires inp).getD (c.ops.length + c.ninputs - 1) 0 = 0)
    (hshared : ∀ r ∈ shared, r.start ≤ r.stop ∧ r.stop ≤ c.ops.length + c.ninputs)
    (hq : r2.qshared = makeQshared (extWitness pub c inp mask) pub.shared pub.sharedMask
      (ch.round1 radd).rshared) :
    additionCheck pub' (List.ofFn radd) r2.qadd Q (Q.map (column (codewords R.w)))
      (Q.map fun j => R.uadd.codeword.getD j 0) = some true := by
  let v := pub'.Padd.combine (pub.params.m * pub.params.l) (List.ofFn radd)
  have hv : v.length = pub.params.m * pub.params.l := TriMat.length_combine _ _ _
  have hfinal := hr2.final
  obtain ⟨hcols, hbadd, -⟩ := cols_finalizePadd hpub hfinal
  obtain ⟨row, hrow⟩ : ∃ row, (ch.round1 radd).rshared = [row] := by
    apply List.length_eq_one_iff.1
    exact List.length_ofFn.trans hpub.mask_len
  rw [hq, hrow] at hfinal
  have hlinear := bilinear_finalizePadd hpub hinp hzero hshared hfinal ((List.ofFn radd).getD · 0)
  have hsum : sumAtSecrets pub.params r2.qadd =
      ∑ k ∈ Finset.range (pub.params.m * pub.params.l),
        pub'.badd.getD k 0 * (List.ofFn radd).getD k 0 := by
    rw [hr2.qadd_eq, sumAtSecrets_combination R.uadd (length_of_mem_rowTerms hv R.w) hs.sum_uadd,
      sum_rowTerms (x := fun k => (extWitness pub c inp mask).getD k 0) hv R.w hs.row_w,
      TriMat.sum_combine _ _ _ hcols, hlinear]
    exact Finset.sum_congr rfl fun k _ => mul_comm _ _
  have hdot := dot_eq_sum hbadd (List.length_ofFn (f := radd))
  have hopened := openedCheck_rowTerms hQ hv R.w R.uadd
  rw [← hr2.qadd_eq] at hopened
  rw [additionCheck, hparams]
  rw [hdot, hsum]
  exact (if_pos rfl).trans hopened

end

section

variable {Digest : Type} (ser : CanonicalSerialize F) (H : List UInt8 → Digest)
  (merkle : MerkleCbt Digest)

theorem length_all {params : Params F} (R : Rows params) : R.all.length = 4 * params.m := by
  simp only [Rows.all, List.length_append, List.length_ofFn]
  omega

theorem exists_round4_eq (hcomplete : merkle.Complete) (hshort : merkle.Short)
    {params : Params F} (ht : 0 < params.t) {s : Secret F} (Q : Queries params) :
    ∃ lem, round4 ser H merkle params s Q.Q = some ⟨lem, Q.Q.map fun j => s.ux.getD j.val 0,
        Q.Q.map fun j => s.uy.getD j.val 0, Q.Q.map fun j => s.uz.getD j.val 0,
        Q.Q.map fun j => s.uadd.getD j.val 0, Q.Q.map fun j => s.u.getD j.val 0,
        Q.Q.map fun j => s.u0.getD j.val 0⟩ ∧
      lem.columns = openColumns (toMatrix (4 * params.m) params.n s.U) Q.Q ∧
      lem.verify ser H merkle (round0 ser H merkle params s).U_root = true := by
  have hne : Q.Q ≠ [] := by
    apply List.ne_nil_of_length_pos
    rw [Q.length_eq]
    exact ht
  obtain ⟨lem, hlem, hcolumns, hverify⟩ := exists_new ser H merkle hcomplete
    (toMatrix (4 * params.m) params.n s.U) hne Q.nodup
  refine ⟨lem, ?_, hcolumns, hverify⟩
  have hncols : lem.columns.columns.length = params.t := by
    rw [hcolumns, openColumns, List.length_map, Q.length_eq]
  have hnrows : lem.columns.nrows = 4 * params.m := by rw [hcolumns, openColumns]
  have hlemmas : lem.lemmas.length ≤ params.t * Nat.clog 2 params.n := by
    obtain ⟨proof, hproof, hlem'⟩ := Option.bind_eq_some_iff.1 hlem
    obtain rfl := Option.some.inj hlem'
    have h := hshort _ _ _ hproof
    rwa [List.length_map, List.length_map, List.length_finRange, Q.length_eq] at h
  have hentries : ∀ u : List F, (Q.Q.map fun j => u.getD j.val 0).length = params.t := by
    intro u
    rw [List.length_map, Q.length_eq]
  rw [round4, hlem]
  exact if_pos ⟨hncols, hnrows, hlemmas, hentries _, hentries _, hentries _, hentries _, hentries _,
    hentries _⟩

variable [DecidableEq F] {c : Circuit F} {shared : Option Range} {pub : Public F}
  (hpub : IsPublic c shared pub) {inp : List F} (hinp : inp.length = c.ninputs)
  (hzero : (c.wires inp).getD (c.ops.length + c.ninputs - 1) 0 = 0)
  (hshared : ∀ r ∈ shared, r.start ≤ r.stop ∧ r.stop ≤ c.ops.length + c.ninputs)
include hpub hinp hzero hshared

theorem verify_honest {mask : F} {R : Rows pub.params} {s : Secret F}
    (hs : IsSecret pub c (extWitness pub c inp mask) R s) {ch : Challenges pub}
    {radd : Fin (pub.params.m * pub.params.l) → F} {r2 : Round2 F} {pub' : Public F}
    (hr2 : IsRound2 pub pub' R ch radd r2) (hparams : pub'.params = pub.params)
    (hq : r2.qshared = makeQshared (extWitness pub c inp mask) pub.shared pub.sharedMask
      (ch.round1 radd).rshared) {Q : List (Fin pub.params.n)} {lem : Lemma F Digest}
    (hlem : lem.columns = openColumns (toMatrix (4 * pub.params.m) pub.params.n s.U) Q)
    {r0 : Round0 Digest} (hverify : lem.verify ser H merkle r0.U_root = true) :
    verify ser H merkle pub r0 (ch.round1 radd) r2 (Q.map Fin.val)
      ⟨lem, Q.map fun j => s.ux.getD j.val 0, Q.map fun j => s.uy.getD j.val 0,
        Q.map fun j => s.uz.getD j.val 0, Q.map fun j => s.uadd.getD j.val 0,
        Q.map fun j => s.u.getD j.val 0, Q.map fun j => s.u0.getD j.val 0⟩ = some true := by
  have hQ : ∀ j ∈ Q.map Fin.val, j < pub.params.n := by
    intro j hj
    obtain ⟨i, -, rfl⟩ := List.mem_map.1 hj
    exact i.isLt
  have hnrows : lem.columns.nrows = 4 * pub.params.m := by rw [hlem, openColumns]
  have hcolumns : lem.columns.columns.map List.ofFn =
      (Q.map Fin.val).map (column (R.all.map RowPoly.codeword)) := by
    rw [hlem, openColumns_toMatrix, hs.U_eq]
    rw [hs.U_eq, List.length_map, length_all]
  have hmap : ∀ u : List F, (Q.map fun j => u.getD j.val 0) =
      (Q.map Fin.val).map fun j => u.getD j 0 := by
    intro u
    rw [List.map_map]
    rfl
  have hr : (List.ofFn ch.r).length = R.all.length := by rw [List.length_ofFn, length_all]
  have hcode := codeCheck_combine hQ hr R.u
  have haddition := additionCheck_honest hpub hinp hs hr2 hQ hparams hzero hshared hq
  have hmultiplication := multiplicationCheck_honest hpub hinp hs hr2 hQ hparams
  have hhash : hashCheck ser H merkle pub.params r0.U_root r2.v lem = some true := by
    have hv : r2.v.length = pub.params.n := by rw [hr2.v_eq, RowPoly.length_codeword]
    rw [hashCheck, if_pos hv, hverify, hr2.v_eq, RowPoly.codewordIsValid_codeword]
    rfl
  rw [← hr2.v_eq] at hcode
  have hparts : ∀ b (X : List (List F)), (∀ j, ((column (R.all.map RowPoly.codeword) j).drop
      (b * pub.params.m)).take pub.params.m = column X j) →
      (lem.columns.columns.map List.ofFn).map (fun col =>
        (col.drop (b * pub.params.m)).take pub.params.m) = (Q.map Fin.val).map (column X) := by
    intro b X hX
    rw [hcolumns, List.map_map]
    exact List.map_congr_left fun j _ => hX j
  have hcode' : codeCheck (ch.round1 radd).r r2.v (Q.map Fin.val)
      (lem.columns.columns.map List.ofFn) (Q.map fun j => s.u.getD j.val 0) = some true := by
    rw [hcolumns, hs.u_eq, hmap]
    exact hcode
  have haddition' : additionCheck pub' (ch.round1 radd).radd r2.qadd (Q.map Fin.val)
      ((lem.columns.columns.map List.ofFn).map fun col =>
        (col.drop (0 * pub.params.m)).take pub.params.m)
      (Q.map fun j => s.uadd.getD j.val 0) = some true := by
    rw [hparts 0 _ fun j => (column_part R j).1, hs.uadd_eq, hmap]
    exact haddition
  have hmultiplication' : multiplicationCheck pub' (ch.round1 radd) r2 (Q.map Fin.val)
      ((lem.columns.columns.map List.ofFn).map fun col =>
        (col.drop (0 * pub.params.m)).take pub.params.m)
      ((lem.columns.columns.map List.ofFn).map fun col =>
        (col.drop (1 * pub.params.m)).take pub.params.m)
      ((lem.columns.columns.map List.ofFn).map fun col =>
        (col.drop (2 * pub.params.m)).take pub.params.m)
      ((lem.columns.columns.map List.ofFn).map fun col =>
        (col.drop (3 * pub.params.m)).take pub.params.m)
      (Q.map fun j => s.ux.getD j.val 0) (Q.map fun j => s.uy.getD j.val 0)
      (Q.map fun j => s.uz.getD j.val 0) (Q.map fun j => s.u0.getD j.val 0) = some true := by
    rw [hparts 0 _ fun j => (column_part R j).1, hparts 1 _ fun j => (column_part R j).2.1,
      hparts 2 _ fun j => (column_part R j).2.2.1, hparts 3 _ fun j => (column_part R j).2.2.2,
      hs.ux_eq, hs.uy_eq, hs.uz_eq, hs.u0_eq, hmap, hmap, hmap, hmap]
    exact hmultiplication
  rw [verify, hr2.final]
  simp only [Option.bind_eq_bind, Option.bind_some, if_neg (Nat.not_lt.2 hnrows.ge), hcode',
    haddition', hmultiplication', hparams, hhash, Bool.and_self]

theorem interactive_eq (hcomplete : merkle.Complete) (hshort : merkle.Short)
    (ht : 0 < pub.params.t) (coins : Coins pub.params) (ch : Challenges pub)
    (radd : Fin (pub.params.m * pub.params.l) → F) (queries : Queries pub.params) :
    interactive ser H merkle pub c inp coins ch radd queries =
      if pub.params.n ≤ 2 * pub.params.k then some true else none := by
  obtain ⟨s, R, hnew, hs⟩ := exists_secret hpub hinp coins
  obtain ⟨r2, pub', hr2, hparams, hq, hround⟩ :=
    exists_round2_eq hpub (fun r hr => (hshared r hr).2) hinp hs ch radd
  obtain ⟨lem, hround4, hcolumns, hverify⟩ :=
    exists_round4_eq ser H merkle hcomplete hshort ht (s := s) queries
  have haccept := verify_honest ser H merkle hpub hinp hzero hshared hs hr2 hparams hq hcolumns
    hverify
  simp only [interactive, hnew, hround, Option.bind_eq_bind, Option.bind_some]
  split_ifs
  · rw [Option.bind_some, hround4]
    exact haccept
  · rfl

end

/-! ## Both variants -/

section

variable {N : ℕ} (ser : CanonicalSerialize F) (H : List UInt8 → Vector UInt8 N)
  (merkle : MerkleCbt (Vector UInt8 N)) [DecidableEq F] {c : Circuit F} {shared : Option Range}
  {inp : List F} (hinp : inp.length = c.ninputs)
  (hzero : (c.wires inp).getD (c.ops.length + c.ninputs - 1) 0 = 0)
  (hshared : ∀ r ∈ shared, r.start ≤ r.stop ∧ r.stop ≤ c.ops.length + c.ninputs)

include hinp hzero hshared in
theorem noninteractive_eq {pub : Public F} (hpub : IsPublic c shared pub)
    (hcomplete : merkle.Complete) (hshort : merkle.Short) (ht : 0 < pub.params.t)
    (generators : Generators pub N) (coins : Coins pub.params) (cktHash : Vector UInt8 N)
    (otherCommit : List UInt8) :
    noninteractive ser H merkle generators c inp coins cktHash otherCommit =
      if pub.params.n ≤ 2 * pub.params.k then some true else none := by
  obtain ⟨s, R, hnew, hs⟩ := exists_secret hpub hinp coins
  let digest := H (makeR1Bytes cktHash (round0 ser H merkle pub.params s) otherCommit)
  obtain ⟨r2, pub', hr2, hparams, hq, hround⟩ := exists_round2_eq hpub
    (fun r hr => (hshared r hr).2) hinp hs (generators.round1 digest).1 (generators.round1 digest).2
  let queries := makeR3 ser H generators digest r2
  obtain ⟨lem, hround4, hcolumns, hverify⟩ :=
    exists_round4_eq ser H merkle hcomplete hshort ht (s := s) queries
  have haccept := verify_honest ser H merkle hpub hinp hzero hshared hs hr2 hparams hq hcolumns
    hverify
  have hr1 : makeR1 H generators cktHash (round0 ser H merkle pub.params s) otherCommit =
    ((generators.round1 digest).1.round1 (generators.round1 digest).2, digest) := rfl
  simp only [noninteractive, makeProof, hnew, hr1, hround, Option.bind_eq_bind, Option.bind_some]
  split_ifs
  · rw [Option.bind_some, hround4, Option.bind_some, Option.bind_some]
    exact haccept
  · rfl

/-- All runs end with the verifier accepting, without any failed assertion. -/
def IsComplete (c : Circuit F) (shared : Option Range) (inp : List F) : Prop :=
  ∃ pub, Public.new c shared = some pub ∧
    (∀ coins ch radd queries,
      interactive ser H merkle pub c inp coins ch radd queries = some true) ∧
    ∀ (generators : Generators pub N) coins cktHash otherCommit,
      noninteractive ser H merkle generators c inp coins cktHash otherCommit = some true

omit [DecidableEq F] in
theorem exists_queries (params : Params F) : Nonempty (Queries params) := by
  have hk := params.k_lt_n
  have hl := params.l_add_t
  refine ⟨⟨(List.finRange params.n).take params.t, ?_, ?_⟩⟩
  · exact (List.nodup_finRange _).sublist (List.take_sublist _ _)
  · rw [List.length_take, List.length_finRange]
    omega

omit [DecidableEq F] in
theorem params_new (hnwires : 0 < c.ops.length + c.ninputs) :
    (Public.new c shared).map (fun pub => pub.params) =
      Params.new (c.ops.length + c.ninputs + 2) := by
  rw [Public.new]
  dsimp only
  rw [if_neg hnwires.ne']
  change ((Params.new (c.ops.length + c.ninputs + 2)).bind _).map _ = _
  cases Params.new (F := F) (c.ops.length + c.ninputs + 2) <;> rfl

omit [DecidableEq F] in
theorem t_pos_of_new (ht : 0 < FieldForLigero.fieldSize F) {pub : Public F}
    (hpub : Public.new c shared = some pub) : 0 < pub.params.t := by
  rw [Public.new] at hpub
  dsimp only at hpub
  split at hpub
  · cases hpub
  · obtain ⟨params, hparams, hpub⟩ := Option.bind_eq_some_iff.1 hpub
    obtain rfl := Option.some.inj hpub
    rw [(new_eq_some hparams).2]
    exact ht

include hinp hzero hshared in
theorem le_of_isComplete (ht : 0 < FieldForLigero.fieldSize F) (hcomplete : merkle.Complete)
    (hshort : merkle.Short) (h : IsComplete ser H merkle c shared inp) {params : Params F}
    (hparams : (Public.new c shared).map (fun pub => pub.params) = some params) :
    params.n ≤ 2 * params.k := by
  obtain ⟨pub, hpub, hinteractive, -⟩ := h
  rw [hpub, Option.map_some, Option.some_inj] at hparams
  subst hparams
  obtain ⟨queries⟩ := exists_queries pub.params
  let coins : Coins pub.params := ⟨0, 0, 0, 0, 0, ⟨0, 0⟩, ⟨0, 0⟩, ⟨0, 0⟩, ⟨0, 0⟩, 0, ⟨0, 0⟩⟩
  have hrun := hinteractive coins ⟨0, 0, 0, 0, 0, 0⟩ 0 queries
  rw [interactive_eq ser H merkle (isPublic_new hpub) hinp hzero hshared hcomplete hshort
    (t_pos_of_new ht hpub)] at hrun
  by_contra hle
  rw [if_neg hle] at hrun
  cases hrun

include hinp hzero hshared in
/-- Proofs are complete if and only if the codewords for the size of the circuit are not longer than
products. -/
theorem isComplete_iff (hnwires : 0 < c.ops.length + c.ninputs)
    (ht : 0 < FieldForLigero.fieldSize F) (hcomplete : merkle.Complete) (hshort : merkle.Short) :
    IsComplete ser H merkle c shared inp ↔
      ∃ params : Params F, Params.new (c.ops.length + c.ninputs + 2) = some params ∧
        params.n ≤ 2 * params.k := by
  have hnew : (Public.new c shared).map (fun pub => pub.params) =
      Params.new (c.ops.length + c.ninputs + 2) := params_new hnwires
  rw [← hnew]
  constructor
  · intro h
    obtain ⟨pub, hpub, -⟩ := id h
    have hparams : (Public.new c shared).map (fun pub => pub.params) = some pub.params := by
      rw [hpub, Option.map_some]
    exact ⟨pub.params, hparams,
      le_of_isComplete ser H merkle hinp hzero hshared ht hcomplete hshort h hparams⟩
  · rintro ⟨params, hparams, hle⟩
    obtain ⟨pub, hpub, rfl⟩ := Option.map_eq_some_iff.1 hparams
    have htpos := t_pos_of_new ht hpub
    refine ⟨pub, hpub, fun coins ch radd queries => ?_,
      fun generators coins cktHash otherCommit => ?_⟩
    · rw [interactive_eq ser H merkle (isPublic_new hpub) hinp hzero hshared hcomplete hshort htpos,
        if_pos hle]
    · rw [noninteractive_eq ser H merkle hinp hzero hshared (isPublic_new hpub) hcomplete hshort
        htpos, if_pos hle]

end

/-! ## Sizes that fail -/

/-- The sum of the bytes of digests. -/
def checksum (digests : List (Vector UInt8 1)) : UInt8 := (digests.map fun d => d[0]).sum

def byteHash (bytes : List UInt8) : Vector UInt8 1 := #v[bytes.sum]

/-- A tree whose root is the sum of all leaves, with the sum of the other leaves as a proof. -/
def byteMerkle : MerkleCbt (Vector UInt8 1) where
  root leaves := #v[checksum leaves]
  buildProof leaves indices := do
    let opened ← indices.mapM (leaves[·]?)
    if indices = [] then none
    else if leaves.length ≤ 1 then some (indices, [])
    else some (indices, [#v[checksum leaves - checksum opened]])
  verify indices lemmas root opened :=
    indices.length = opened.length && root[0] = checksum opened + checksum lemmas
  leafOf _ i := i

theorem short_byteMerkle : byteMerkle.Short := by
  intro leaves indices proof h
  obtain ⟨opened, -, h⟩ := Option.bind_eq_some_iff.1 h
  split_ifs at h with hne hle
  · obtain rfl := Option.some.inj h
    exact Nat.zero_le _
  · obtain rfl := Option.some.inj h
    have hlog : 0 < Nat.clog 2 leaves.length := Nat.clog_pos (by decide) (by omega)
    exact Nat.mul_pos (List.length_pos_of_ne_nil hne) hlog

theorem complete_byteMerkle : byteMerkle.Complete := by
  intro leaves indices hne hnodup hlt
  obtain ⟨opened, hopened, hlen⟩ := exists_mapM_getElem? hlt
  by_cases hle : leaves.length ≤ 1
  · -- the only leaf is opened
    have hindices : indices = [0] := by
      obtain ⟨i, rest, rfl⟩ := List.exists_cons_of_ne_nil hne
      have hi := hlt i List.mem_cons_self
      cases rest with
      | nil => rw [show i = 0 by omega]
      | cons j rest =>
        have hj := hlt j (by simp)
        rw [List.nodup_cons, List.mem_cons, not_or] at hnodup
        omega
    have hone : opened = leaves := by
      obtain ⟨leaf, rfl⟩ : ∃ leaf, leaves = [leaf] := by
        apply List.length_eq_one_iff.1
        have hzero := hlt 0 (by rw [hindices]; exact List.mem_cons_self)
        omega
      rw [hindices] at hopened
      exact (Option.some.inj hopened).symm
    refine ⟨opened, (indices, []), hopened, ?_, ?_⟩
    · simp only [byteMerkle, hopened, Option.bind_eq_bind, Option.bind_some, if_neg hne, if_pos hle]
    · simp [byteMerkle, ← hlen, hone, checksum]
  · refine ⟨opened, (indices, [#v[checksum leaves - checksum opened]]), hopened, ?_, ?_⟩
    · simp only [byteMerkle, hopened, Option.bind_eq_bind, Option.bind_some, if_neg hne, if_neg hle]
    · have hsum : checksum leaves =
          checksum opened + checksum [#v[checksum leaves - checksum opened]] := by
        rw [UInt8.add_comm]
        simp [checksum]
      simp [byteMerkle, hlen, ← hsum]

theorem isComplete_iff_copy :
    IsComplete f2e19x3e26Serialize byteHash byteMerkle copyCircuit none [0] ↔
      ∃ params : Params F2e19x3e26, Params.new (1 + 1 + 2) = some params ∧
        params.n ≤ 2 * params.k :=
  isComplete_iff f2e19x3e26Serialize byteHash byteMerkle rfl rfl (fun _ h => by cases h) (by decide)
    (by decide) complete_byteMerkle short_byteMerkle

/-- A copy of the first of many inputs. -/
def wideCircuit : Circuit F2e19x3e26 where
  ops := [.copy 0]
  ninputs := 192
  noutputs := 1
  noutputs_le := by decide
  args_lt := by decide

theorem new_wide : (Params.new (F := F2e19x3e26) 195).map (fun params => (params.n, params.k)) =
    some (728, 255) := rfl

theorem not_isComplete_wide : byteMerkle.Complete ∧ byteMerkle.Short ∧
    ¬ IsComplete f2e19x3e26Serialize byteHash byteMerkle wideCircuit none (List.replicate 192 0) := by
  refine ⟨complete_byteMerkle, short_byteMerkle, fun h => ?_⟩
  obtain ⟨params, hparams, hsizes⟩ := Option.map_eq_some_iff.1 new_wide
  have hnew : (Public.new wideCircuit none).map (fun pub => pub.params) = some params :=
    (params_new (by decide)).trans hparams
  have hzero : (wideCircuit.wires (List.replicate 192 0)).getD
      (wideCircuit.ops.length + wideCircuit.ninputs - 1) 0 = 0 := by
    decide
  have hle := le_of_isComplete f2e19x3e26Serialize byteHash byteMerkle List.length_replicate hzero
    (fun _ h => by cases h) (by decide) complete_byteMerkle short_byteMerkle h hnew
  obtain ⟨hn, hk⟩ := Prod.mk.inj hsizes
  omega

end EdaBitGen.Ligero
