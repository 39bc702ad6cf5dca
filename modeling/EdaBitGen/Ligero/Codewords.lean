import EdaBitGen.Ligero.Params

/-!
# Codewords

What the operations on coefficients do to polynomials, and the polynomials of codewords.
-/

namespace EdaBitGen.Ligero

open Fft Coefficients Polynomial

variable {F : Type} [Field F]

/-! ## Coefficients -/

theorem length_padTo (len : ℕ) (p : List F) : (padTo len p).length = max len p.length := by
  rw [padTo, List.length_append, List.length_replicate]
  omega

theorem ofCoeffs_padTo (len : ℕ) (p : List F) : ofCoeffs (padTo len p) = ofCoeffs p := by
  rw [padTo, ofCoeffs_append, ofCoeffs_replicate_zero, mul_zero, add_zero]

theorem length_padTo_max (p q : List F) :
    (padTo (max p.length q.length) p).length = (padTo (max p.length q.length) q).length := by
  rw [length_padTo, length_padTo]
  omega

theorem ofCoeffs_padd (p q : List F) : ofCoeffs (padd p q) = ofCoeffs p + ofCoeffs q := by
  rw [padd, ofCoeffs_zipWith_add (length_padTo_max p q), ofCoeffs_padTo, ofCoeffs_padTo]

theorem ofCoeffs_psub (p q : List F) : ofCoeffs (psub p q) = ofCoeffs p - ofCoeffs q := by
  rw [psub, ofCoeffs_zipWith_sub (length_padTo_max p q), ofCoeffs_padTo, ofCoeffs_padTo]

theorem length_padd (p q : List F) : (padd p q).length = max p.length q.length := by
  rw [padd, List.length_zipWith, length_padTo, length_padTo]
  omega

theorem length_psub (p q : List F) : (psub p q).length = max p.length q.length := by
  rw [psub, List.length_zipWith, length_padTo, length_padTo]
  omega

theorem ofCoeffs_foldl_padd (acc : List F) (ps : List (List F)) :
    ofCoeffs (ps.foldl padd acc) = ofCoeffs acc + (ps.map ofCoeffs).sum := by
  induction ps generalizing acc with
  | nil => simp
  | cons p ps ih => rw [List.foldl_cons, ih, ofCoeffs_padd, List.map_cons, List.sum_cons, add_assoc]

theorem length_foldl_padd {acc : List F} {ps : List (List F)}
    (h : ∀ p ∈ ps, p.length ≤ acc.length) : (ps.foldl padd acc).length = acc.length := by
  induction ps generalizing acc with
  | nil => rfl
  | cons p ps ih =>
    have hacc : (padd acc p).length = acc.length := by
      rw [length_padd, max_eq_left (h p List.mem_cons_self)]
    rw [List.foldl_cons, ih, hacc]
    intro q hq
    rw [hacc]
    exact h q (List.mem_cons_of_mem _ hq)

theorem eval_chunks {n : ℕ} {x : F} (hx : x ^ n = 1) (xs : List F) (i : ℕ) :
    (((List.range i).map fun j => (xs.drop (j * n)).take n).map ofCoeffs).sum.eval x =
      (ofCoeffs (xs.take (i * n))).eval x := by
  induction i with
  | zero => simp
  | succ i ih =>
    rw [List.range_succ, List.map_append, List.map_append, List.sum_append, eval_add, ih,
      Nat.succ_mul, List.take_add, ofCoeffs_append, eval_add, eval_mul, eval_pow, eval_X]
    congr 1
    rw [List.map_singleton, List.map_singleton, List.sum_singleton]
    rcases Nat.le_total (i * n) xs.length with hle | hle
    · rw [List.length_take, Nat.min_eq_left hle, Nat.mul_comm, pow_mul, hx, one_pow, one_mul]
    · rw [List.drop_eq_nil_of_le hle, List.take_nil, ofCoeffs_nil, eval_zero, mul_zero]

/-! ## Evaluation -/

variable [FieldForLigero F] (params : Params F)

theorem omegaSecrets_pow : params.omegaSecrets ^ (params.k + 1) = 1 := by
  rw [params.k_add_one]
  exact params.isPrimitiveRoot_omegaSecrets.pow_eq_one

omit [FieldForLigero F] in
theorem getD_map_range (f : ℕ → F) {n j : ℕ} (hj : j < n) :
    ((List.range n).map f).getD j 0 = f j := by
  rw [List.getD_eq_getElem?_getD, List.getElem?_map, List.getElem?_range hj, Option.map_some,
    Option.getD_some]

theorem fft2Peval_eq (q : List F) :
    params.fft2Peval q = (List.range (params.k + 1)).map fun c =>
      (ofCoeffs q).eval (params.omegaSecrets ^ c) := by
  have hlen : ((Chunks.all (params.k + 1) q).foldl padd (List.replicate (params.k + 1) 0)).length =
      params.k + 1 := by
    rw [length_foldl_padd, List.length_replicate]
    intro p hp
    rw [List.length_replicate]
    exact Chunks.length_le_of_mem_all hp
  rw [Params.fft2Peval, params.isTransform_secrets _ hlen]
  refine List.map_congr_left fun c _ => ?_
  have hroot : (params.omegaSecrets ^ c) ^ (params.k + 1) = 1 := by
    rw [← pow_mul, Nat.mul_comm, pow_mul, omegaSecrets_pow, one_pow]
  have hall : (Chunks.all (params.k + 1) q).flatten = q :=
    Chunks.flatten_all (Nat.succ_pos _) q
  rw [ofCoeffs_foldl_padd, ofCoeffs_replicate_zero, zero_add, Chunks.all, eval_chunks hroot]
  rw [Chunks.all, Chunks.flatten_slices] at hall
  rw [hall]

theorem peval3_eq (p : List F) (ix : ℕ) :
    params.peval3 p ix = (ofCoeffs p).eval (params.omegaShares ^ ix) := by
  rw [Params.peval3, GeneralPolynomial.eval_eq, GeneralPolynomial.toPoly_ofSlice]

theorem pmul2_eq {p q : List F} (hp : p ≠ []) (hq : q ≠ []) (hp' : p.length ≤ params.k + 1)
    (hq' : q.length ≤ params.k + 1) :
    params.pmul2 p q = toCoeffs (p.length + q.length - 1) (ofCoeffs p * ofCoeffs q) := by
  have hω : IsPrimitiveRoot (FieldForFFT.roots 2 (params.kexp + 1) : F) (2 ^ (params.kexp + 1)) :=
    FieldForFFT.isPrimitiveRoot_roots _ params.kexp_lt
  have hmax : 2 ^ (params.kexp + 1) = params.k + 1 + (params.k + 1) := by
    rw [pow_succ, ← params.k_add_one]
    omega
  have hplen := List.length_pos_of_ne_nil hp
  have hqlen := List.length_pos_of_ne_nil hq
  have hpad : ∀ {r : List F}, r.length ≤ params.k + 1 →
      (padTo (2 ^ (params.kexp + 1)) r).length = 2 ^ (params.kexp + 1) := by
    intro r hr
    rw [length_padTo]
    omega
  have hdegree : (ofCoeffs p * ofCoeffs q).degree < ((2 ^ (params.kexp + 1) : ℕ) : WithBot ℕ) :=
    (degree_mul_ofCoeffs_lt hp hq).trans_le (Nat.cast_le.2 (by omega))
  rw [Params.pmul2, isTransform_fft2 hω _ (hpad hp'), isTransform_fft2 hω _ (hpad hq'),
    ofCoeffs_padTo, ofCoeffs_padTo, List.zipWith_map, List.zipWith_self, fft2Inverse_eq]
  have hinv := (isTransform_fft2 hω.inv).inverse_eval hω
    (length_toCoeffs (2 ^ (params.kexp + 1)) (ofCoeffs p * ofCoeffs q))
  rw [ofCoeffs_toCoeffs hdegree] at hinv
  simp only [eval_mul] at hinv
  rw [hinv, take_toCoeffs, Nat.min_eq_left (by omega)]

theorem ofCoeffs_pmul2 {p q : List F} (hp : p ≠ []) (hq : q ≠ []) (hp' : p.length ≤ params.k + 1)
    (hq' : q.length ≤ params.k + 1) :
    ofCoeffs (params.pmul2 p q) = ofCoeffs p * ofCoeffs q := by
  rw [pmul2_eq params hp hq hp' hq', ofCoeffs_toCoeffs (degree_mul_ofCoeffs_lt hp hq)]

/-! ## Codewords -/

/-- The polynomial of a row. -/
structure RowPoly (params : Params F) where
  poly : F[X]
  degree_lt : poly.degree < ((params.k + 1 : ℕ) : WithBot ℕ)
  eval_one : poly.eval 1 = 0

namespace RowPoly

variable {params} (P : RowPoly params)

/-- The element of the row at a column. -/
noncomputable def row (c : ℕ) : F := P.poly.eval (params.omegaSecrets ^ (c + 1))

/-- The entry of the codeword at a column. -/
noncomputable def entry (j : ℕ) : F := P.poly.eval (params.omegaShares ^ (j + 1))

noncomputable def codeword : List F := (List.range params.n).map P.entry

@[simp] theorem length_codeword : P.codeword.length = params.n := by simp [codeword]

theorem getD_codeword {j : ℕ} (hj : j < params.n) : P.codeword.getD j 0 = P.entry j :=
  getD_map_range P.entry hj

theorem cons_codeword : 0 :: P.codeword = (List.range (params.n + 1)).map fun j =>
    P.poly.eval (params.omegaShares ^ j) := by
  rw [List.range_succ_eq_map, List.map_cons, List.map_map, pow_zero, P.eval_one]
  rfl

theorem degree_lt_shares : P.poly.degree < ((params.n + 1 : ℕ) : WithBot ℕ) :=
  P.degree_lt.trans_le (Nat.cast_le.2 (Nat.succ_le_succ params.k_lt_n.le))

theorem inverse_cons_codeword :
    Fft.fft3Inverse (0 :: P.codeword) params.omegaShares = toCoeffs (params.n + 1) P.poly := by
  have hω := params.isPrimitiveRoot_omegaShares
  rw [← params.n_add_one] at hω
  have h := params.isTransform_shares_inv.inverse_eval hω
    (length_toCoeffs (params.n + 1) P.poly)
  rw [ofCoeffs_toCoeffs P.degree_lt_shares] at h
  rw [cons_codeword, fft3Inverse_eq, h]

theorem fft3Inverse_codeword :
    params.fft3Inverse P.codeword = toCoeffs (params.n + 1) P.poly := by
  have hlen : (0 :: P.codeword).length = params.n + 1 := by
    rw [List.length_cons, length_codeword]
  rw [Params.fft3Inverse, padTo, hlen, Nat.sub_self, List.replicate_zero, List.append_nil,
    inverse_cons_codeword]

theorem take_fft3Inverse_codeword :
    (params.fft3Inverse P.codeword).take (params.k + 1) = toCoeffs (params.k + 1) P.poly := by
  rw [fft3Inverse_codeword, take_toCoeffs, Nat.min_eq_left (Nat.succ_le_succ params.k_lt_n.le)]

theorem codewordIsValid_codeword [DecidableEq F] : params.codewordIsValid P.codeword = true := by
  have hfirst : (fft2 (toCoeffs (params.k + 1) P.poly) params.omegaSecrets).getD 0 0 = 0 := by
    rw [params.isTransform_secrets _ (length_toCoeffs _ _), getD_map_range _ (Nat.succ_pos _),
      ofCoeffs_toCoeffs P.degree_lt, pow_zero, P.eval_one]
  have hlast : ∀ x ∈ (toCoeffs (params.n + 1) P.poly).drop (params.k + 1), x = 0 := by
    intro x hx
    rw [toCoeffs, ← List.map_drop] at hx
    obtain ⟨i, hi, rfl⟩ := List.mem_map.1 hx
    rw [List.range_eq_range', List.drop_range', List.mem_range'_1] at hi
    exact coeff_eq_zero_of_degree_lt (P.degree_lt.trans_le (Nat.cast_le.2 (by omega)))
  rw [Params.codewordIsValid, inverse_cons_codeword]
  simp only [take_toCoeffs, Nat.min_eq_left (Nat.succ_le_succ params.k_lt_n.le), hfirst,
    decide_true, Bool.true_and, List.all_eq_true, decide_eq_true_eq]
  exact hlast

section OfRow

variable (wf randomness : List F) (hwf : wf.length = params.l)
  (hrandomness : randomness.length = params.t)
include hwf hrandomness

theorem length_secrets : (0 :: (wf ++ randomness)).length = params.k + 1 := by
  rw [List.length_cons, List.length_append, hwf, hrandomness, params.l_add_t]

theorem eval_secrets {j : ℕ} (hj : j < params.k + 1) :
    (ofCoeffs (Fft.fft2Inverse (0 :: (wf ++ randomness)) params.omegaSecrets)).eval
      (params.omegaSecrets ^ j) = (0 :: (wf ++ randomness)).getD j 0 := by
  have hω := params.isPrimitiveRoot_omegaSecrets
  rw [← params.k_add_one] at hω
  exact params.isTransform_secrets_inv.eval_inverse hω
    (length_secrets wf randomness hwf hrandomness) hj

theorem length_inverse_secrets :
    (Fft.fft2Inverse (0 :: (wf ++ randomness)) params.omegaSecrets).length = params.k + 1 :=
  params.isTransform_secrets_inv.length_inverse (length_secrets wf randomness hwf hrandomness)

end OfRow

/-- The polynomial of an encoded row, with the random elements at its end. -/
noncomputable def ofRow (wf randomness : List F) (hwf : wf.length = params.l)
    (hrandomness : randomness.length = params.t) : RowPoly params where
  poly := ofCoeffs (Fft.fft2Inverse (0 :: (wf ++ randomness)) params.omegaSecrets)
  degree_lt := by
    have h := degree_ofCoeffs_lt
      (Fft.fft2Inverse (0 :: (wf ++ randomness)) params.omegaSecrets)
    rwa [length_inverse_secrets wf randomness hwf hrandomness] at h
  eval_one := by
    have h := eval_secrets wf randomness hwf hrandomness (Nat.succ_pos _)
    rwa [pow_zero] at h

variable {wf randomness : List F} (hwf : wf.length = params.l)
  (hrandomness : randomness.length = params.t)

theorem row_ofRow {c : ℕ} (hc : c < params.l) :
    (ofRow wf randomness hwf hrandomness).row c = wf.getD c 0 := by
  have hk := params.l_add_t
  rw [row, ofRow, eval_secrets wf randomness hwf hrandomness (by omega), List.getD_cons_succ,
    List.getD_append _ _ _ _ (hwf ▸ hc)]

theorem encode_eq : params.encode wf randomness = (ofRow wf randomness hwf hrandomness).codeword := by
  have hkn := params.k_lt_n
  have hlen : (Fft.fft2Inverse (0 :: (wf ++ randomness)) params.omegaSecrets ++
      List.replicate (params.n - params.k) 0).length = params.n + 1 := by
    rw [List.length_append, length_inverse_secrets wf randomness hwf hrandomness,
      List.length_replicate]
    omega
  rw [Params.encode, params.isTransform_shares _ hlen, ofCoeffs_append, ofCoeffs_replicate_zero,
    mul_zero, add_zero, List.range_succ_eq_map, List.map_cons, List.tail_cons, List.map_map]
  rfl

end RowPoly

/-! ## Valid words -/

namespace RowPoly

variable {params} (P : RowPoly params)

/-- The polynomial of a valid word. -/
noncomputable def ofValid [DecidableEq F] (cf : List F) (hcf : cf.length = params.n)
    (hvalid : params.codewordIsValid cf = true) : RowPoly params where
  poly := ofCoeffs ((Fft.fft3Inverse (0 :: cf) params.omegaShares).take (params.k + 1))
  degree_lt := by
    refine (degree_ofCoeffs_lt _).trans_le (Nat.cast_le.2 ?_)
    rw [List.length_take]
    exact Nat.min_le_left _ _
  eval_one := by
    have hlen : ((Fft.fft3Inverse (0 :: cf) params.omegaShares).take (params.k + 1)).length =
        params.k + 1 := by
      have hkn := params.k_lt_n
      have hcons : (0 :: cf).length = params.n + 1 := by rw [List.length_cons, hcf]
      have hinv := params.isTransform_shares_inv.length_inverse hcons
      rw [fft3Inverse_eq, List.length_take, hinv]
      omega
    rw [Params.codewordIsValid, Bool.and_eq_true, decide_eq_true_iff] at hvalid
    have hfirst := hvalid.1
    rwa [params.isTransform_secrets _ hlen, getD_map_range _ (Nat.succ_pos _), pow_zero] at hfirst

theorem codeword_ofValid [DecidableEq F] {cf : List F} (hcf : cf.length = params.n)
    (hvalid : params.codewordIsValid cf = true) : (ofValid cf hcf hvalid).codeword = cf := by
  have hω := params.isPrimitiveRoot_omegaShares
  rw [← params.n_add_one] at hω
  have hlen : (0 :: cf).length = params.n + 1 := by rw [List.length_cons, hcf]
  have hall : ofCoeffs (Fft.fft3Inverse (0 :: cf) params.omegaShares) =
      (ofValid cf hcf hvalid).poly := by
    have hzeros := hvalid
    rw [Params.codewordIsValid, Bool.and_eq_true, List.all_eq_true] at hzeros
    have hdrop : (Fft.fft3Inverse (0 :: cf) params.omegaShares).drop (params.k + 1) =
        List.replicate _ 0 := List.eq_replicate_of_mem fun x hx => of_decide_eq_true (hzeros.2 x hx)
    rw [ofValid]
    conv_lhs => rw [← List.take_append_drop (params.k + 1) (Fft.fft3Inverse _ _)]
    rw [ofCoeffs_append, hdrop, ofCoeffs_replicate_zero, mul_zero, add_zero]
  apply List.ext_getElem (by rw [length_codeword, hcf])
  intro j hj hj'
  have hjn : j + 1 < params.n + 1 := by omega
  have hentry := params.isTransform_shares_inv.eval_inverse hω hlen hjn
  rw [← fft3Inverse_eq, hall, List.getD_cons_succ, List.getD_eq_getElem _ 0 hj'] at hentry
  rw [← List.getD_eq_getElem _ 0 hj, getD_codeword _ (hcf ▸ hj'), entry, hentry]

theorem exists_encode_eq (P : RowPoly params) : ∃ wf randomness : List F,
    wf.length = params.l ∧ randomness.length = params.t ∧
      params.encode wf randomness = P.codeword := by
  have hω := params.isPrimitiveRoot_omegaSecrets
  rw [← params.k_add_one] at hω
  have hk := params.l_add_t
  have hwf : ((List.range params.l).map P.row).length = params.l := by simp
  have hrandomness : ((List.range params.t).map fun j => P.row (params.l + j)).length =
      params.t := by simp
  refine ⟨_, _, hwf, hrandomness, ?_⟩
  rw [encode_eq hwf hrandomness]
  have hvalues : 0 :: ((List.range params.l).map P.row ++
      (List.range params.t).map fun j => P.row (params.l + j)) =
      (List.range (params.k + 1)).map fun j =>
        (ofCoeffs (toCoeffs (params.k + 1) P.poly)).eval (params.omegaSecrets ^ j) := by
    rw [ofCoeffs_toCoeffs P.degree_lt, List.range_succ_eq_map, List.map_cons, List.map_map,
      pow_zero, P.eval_one, ← hk, List.range_add, List.map_append, List.map_map]
    rfl
  have hpoly : (ofRow _ _ hwf hrandomness).poly = P.poly := by
    show ofCoeffs (Fft.fft2Inverse (0 :: (_ ++ _)) params.omegaSecrets) = P.poly
    rw [hvalues, fft2Inverse_eq,
      params.isTransform_secrets_inv.inverse_eval hω (length_toCoeffs _ _),
      ofCoeffs_toCoeffs P.degree_lt]
  rw [codeword, codeword]
  refine List.map_congr_left fun j _ => ?_
  rw [entry, entry, hpoly]

theorem decode_codeword : params.decode P.codeword = (List.range params.l).map P.row := by
  have hle : params.l ≤ params.k := Nat.le_of_add_right_le params.l_add_t.le
  have hkn := Nat.succ_le_succ params.k_lt_n.le
  rw [Params.decode, Params.decodeNoStrip, inverse_cons_codeword]
  simp only [take_toCoeffs, Nat.min_eq_left hkn]
  rw [params.isTransform_secrets _ (length_toCoeffs _ _), ofCoeffs_toCoeffs P.degree_lt,
    List.range_succ_eq_map, List.map_cons, List.drop_one, List.tail_cons, List.map_map,
    ← List.map_take, List.take_range, Nat.min_eq_left hle]
  rfl

end RowPoly

/-- The valid words are the encoded rows, and a row is decoded from its codeword. -/
theorem codewords_exact [DecidableEq F] (params : Params F) :
    (∀ c : Fin params.n → F, params.codewordIsValid (List.ofFn c) = true ↔
      ∃ (w : Fin params.l → F) (randomness : Fin params.t → F),
        params.encode (List.ofFn w) (List.ofFn randomness) = List.ofFn c) ∧
    ∀ (w : Fin params.l → F) (randomness : Fin params.t → F),
      params.decode (params.encode (List.ofFn w) (List.ofFn randomness)) = List.ofFn w := by
  refine ⟨fun c => ⟨fun hvalid => ?_, ?_⟩, fun w randomness => ?_⟩
  · obtain ⟨wf, randomness, hwf, hrandomness, hencode⟩ :=
      (RowPoly.ofValid (List.ofFn c) List.length_ofFn hvalid).exists_encode_eq
    refine ⟨fun i => wf.get (i.cast hwf.symm), fun i => randomness.get (i.cast hrandomness.symm), ?_⟩
    have hofFn : ∀ {m : ℕ} (l : List F) (h : l.length = m),
        List.ofFn (fun i => l.get (i.cast h.symm)) = l := by
      rintro _ l rfl
      exact List.ofFn_get l
    rw [hofFn wf hwf, hofFn randomness hrandomness, hencode, RowPoly.codeword_ofValid]
  · rintro ⟨w, randomness, hencode⟩
    rw [← hencode, RowPoly.encode_eq List.length_ofFn List.length_ofFn]
    exact RowPoly.codewordIsValid_codeword _
  · rw [RowPoly.encode_eq List.length_ofFn List.length_ofFn, RowPoly.decode_codeword]
    apply List.ext_getElem (by simp)
    intro i hi hi'
    have hil : i < params.l := by simpa using hi
    rw [List.getElem_map, List.getElem_range, RowPoly.row_ofRow _ _ hil,
      List.getD_eq_getElem _ 0 hi']

variable {params}

/-- The codewords of rows. -/
noncomputable def codewords (X : Fin params.m → RowPoly params) : List (List F) :=
  List.ofFn fun i => (X i).codeword

variable (params) in
/-- The codewords of the rows of a matrix. -/
def encodeRows (x : Fin params.m → Fin params.l → F) (random : Fin params.m → Fin params.t → F) :
    List (List F) :=
  List.ofFn fun i => params.encode (List.ofFn (x i)) (List.ofFn (random i))

variable (params) in
theorem exists_encodeRows (x : Fin params.m → Fin params.l → F)
    (random : Fin params.m → Fin params.t → F) : ∃ X : Fin params.m → RowPoly params,
      encodeRows params x random = codewords X ∧ ∀ i (c : Fin params.l), (X i).row c = x i c := by
  refine ⟨fun i => RowPoly.ofRow (List.ofFn (x i)) (List.ofFn (random i)) (List.length_ofFn)
    (List.length_ofFn), ?_, fun i c => ?_⟩
  · rw [encodeRows, codewords]
    congr 1
    funext i
    exact RowPoly.encode_eq _ _
  · rw [RowPoly.row_ofRow _ _ c.isLt, List.getD_eq_getElem?_getD, List.getElem?_ofFn,
      dif_pos c.isLt, Option.getD_some]

end EdaBitGen.Ligero
