import EdaBitGen.Data.Returns
import EdaBitGen.Ligero.Completeness

/-!
# One prover and one verifier for many proofs

Each proof adds its shared checks to the linear constraints, where those of the proofs before still
are.  The constants of the shared checks are overwritten, the entries of the matrix are not.
-/

namespace EdaBitGen.Ligero

open Coefficients Polynomial
open Inferno (Circuit)

/-! ## Calls one after another -/

section Calls

variable {σ α β ε : Type}

/-- The results of calls, each in the state that the one before has left. -/
def calls (call : σ → α → Option (β × σ)) (s : σ) : List α → Option (List β)
  | [] => some []
  | x :: xs => do
    let (y, s) ← call s x
    some (y :: (← calls call s xs))

/-- The results are those in the first state. -/
def Reusable (call : σ → α → Option (β × σ)) (s : σ) (xs : List α) : Prop :=
  calls call s xs = xs.mapM fun x => (call s x).map Prod.fst

/-- Each element has a property with what the ones before have left. -/
def EachAfter (leaves : α → List ε) (P : List ε → α → Prop) (left : List ε) : List α → Prop
  | [] => True
  | x :: xs => P left x ∧ EachAfter leaves P (left ++ leaves x) xs

theorem calls_eq_some_iff {call : σ → α → Option (β × σ)} {leaves : α → List ε}
    {P : List ε → α → Prop} {Left : List ε → σ → Prop} {fresh : α → β} {xs : List α}
    (hstep : ∀ x ∈ xs, ∀ left s, Left left s → ∃ y s', call s x = some (y, s') ∧
      Left (left ++ leaves x) s' ∧ (y = fresh x ↔ P left x))
    {left : List ε} {s : σ} (h : Left left s) :
    calls call s xs = some (xs.map fresh) ↔ EachAfter leaves P left xs := by
  induction xs generalizing left s with
  | nil => exact iff_of_true rfl trivial
  | cons x xs ih =>
    obtain ⟨y, s', hcall, hleft, hy⟩ := hstep x List.mem_cons_self left s h
    have ih' := ih (fun x hx => hstep x (List.mem_cons_of_mem _ hx)) hleft
    rw [EachAfter, ← ih', ← hy, calls, hcall, List.map_cons]
    dsimp only [Option.bind_eq_bind, Option.bind_some]
    cases calls call s' xs <;> simp

theorem reusable_iff {call : σ → α → Option (β × σ)} {leaves : α → List ε}
    {P : List ε → α → Prop} (Left : List ε → σ → Prop) (fresh : α → β) {s : σ} {xs : List α}
    (hfresh : ∀ x ∈ xs, (call s x).map Prod.fst = some (fresh x))
    (hstep : ∀ x ∈ xs, ∀ left s, Left left s → ∃ y s', call s x = some (y, s') ∧
      Left (left ++ leaves x) s' ∧ (y = fresh x ↔ P left x))
    (h : Left [] s) : Reusable call s xs ↔ EachAfter leaves P [] xs := by
  rw [Reusable, Traversal.mapM_some xs hfresh, calls_eq_some_iff hstep h]

theorem eachAfter_map {γ : Type} {leaves : α → List ε} {P : List ε → α → Prop} (f : γ → α)
    (left : List ε) (xs : List γ) : EachAfter leaves P left (xs.map f) ↔
      EachAfter (fun x => leaves (f x)) (fun left x => P left (f x)) left xs := by
  induction xs generalizing left with
  | nil => rfl
  | cons x xs ih => rw [List.map_cons, EachAfter, EachAfter, ih]

end Calls

/-! ## The objects -/

variable {F : Type} [Field F] [FieldForLigero F]

/-- All messages of one proof. -/
structure Session (F Digest : Type) where
  r0 : Round0 Digest
  r1 : Round1 F
  r2 : Round2 F
  r3 : Round3
  r4 : Round4 F Digest

/-- The opened part of the extended witness. -/
def Session.Uw {Digest : Type} (p : Session F Digest) (m : ℕ) : List (List F) :=
  (p.r4.U_lemma.columns.columns.map List.ofFn).map fun col => (col.drop (0 * m)).take m

/-- The entries that the shared checks add to the linear constraints. -/
def Public.sharedRows (pub : Public F) (rshared : List (List F)) : TriMat F :=
  (pub.sharedMask.indices.zip rshared).flatMap fun row =>
    List.zipWith (fun s r => (row.1, s, r)) pub.shared.indices row.2 ++ [(row.1, row.1, 1)]

section

variable {Digest : Type} (ser : CanonicalSerialize F) (H : List UInt8 → Digest)
  (merkle : MerkleCbt Digest)

/-- The message of a prover, who keeps the shared checks. -/
def Secret.round2 (s : Secret F) (pub : Public F) (r1 : Round1 F) :
    Option (Round2 F × Public F) := do
  let r2 ← Ligero.round2 pub s r1
  let pub ← pub.finalizePadd r1.rshared r2.qshared
  some (r2, pub)

variable [DecidableEq F]

/-- The verdict on a proof, whose shared checks are kept. -/
def Public.verify (pub : Public F) (p : Session F Digest) : Option (Bool × Public F) := do
  let verdict ← Ligero.verify ser H merkle pub p.r0 p.r1 p.r2 p.r3.Q p.r4
  let pub ← pub.finalizePadd p.r1.rshared p.r2.qshared
  some (verdict, pub)

/-- A verifier, with the messages of a proof so far. -/
structure Verifier (F Digest : Type) [Field F] [FieldForLigero F] where
  pub : Public F
  r0 : Option (Round0 Digest)
  r1 : Option (Round1 F)
  r2 : Option (Round2 F)
  r3 : Option Round3

namespace Verifier

omit [DecidableEq F] in
def new (pub : Public F) : Verifier F Digest := ⟨pub, none, none, none, none⟩

/-- Send a challenge for a commitment. -/
def round1 (v : Verifier F Digest) (r1 : Round1 F) (r0 : Round0 Digest) : Verifier F Digest :=
  { v with r0 := some r0, r1 := some r1 }

/-- Send the columns to open. -/
def round3 (v : Verifier F Digest) (r3 : Round3) (r2 : Round2 F) : Verifier F Digest :=
  { v with r2 := some r2, r3 := some r3 }

def verify (v : Verifier F Digest) (r4 : Round4 F Digest) : Option (Bool × Verifier F Digest) := do
  let p : Session F Digest := ⟨← v.r0, ← v.r1, ← v.r2, ← v.r3, r4⟩
  let (verdict, pub) ← v.pub.verify ser H merkle p
  some (verdict, { v with pub := pub })

/-- All rounds of a proof. -/
def check (v : Verifier F Digest) (p : Session F Digest) : Option (Bool × Verifier F Digest) :=
  ((v.round1 p.r1 p.r0).round3 p.r3 p.r2).verify ser H merkle p.r4

end Verifier

end

/-! ## Sums of constraints -/

section Sums

variable {params : Params F}

omit [FieldForLigero F] in
theorem TriMat.combine_append (P P' : TriMat F) (n : ℕ) (ra : List F) :
    TriMat.combine (P ++ P') n ra = List.zipWith (· + ·) (P.combine n ra) (P'.combine n ra) := by
  rw [combine, combine, combine, List.zipWith_map, List.zipWith_self]
  refine List.map_congr_left fun c _ => ?_
  rw [List.filter_append, List.map_append, List.sum_append]

omit [FieldForLigero F] in
/-- The entries that are left stand between those of the circuit and of the new shared checks. -/
theorem TriMat.combine_between (P left rows : TriMat F) (n : ℕ) (ra : List F) :
    TriMat.combine (P ++ left ++ rows) n ra =
      List.zipWith (· + ·) (TriMat.combine (P ++ rows) n ra) (left.combine n ra) := by
  simp only [combine_append]
  simp only [combine, List.zipWith_map, List.zipWith_self]
  exact List.map_congr_left fun c _ => add_right_comm _ _ _

theorem makeRa_eq (ra : List F) (P : TriMat F) : makeRa params ra P = List.ofFn fun i : Fin params.m =>
    params.fft2Inverse (((P.combine (params.m * params.l) ra).drop (i * params.l)).take params.l) := by
  rw [makeRa, exact_eq_ofFn params (TriMat.length_combine P _ ra), List.map_ofFn]
  rfl

omit [FieldForLigero F] in
theorem padTo_zipWith_add (len : ℕ) {r r' : List F} (h : r.length = r'.length) :
    padTo len (List.zipWith (· + ·) r r') = List.zipWith (· + ·) (padTo len r) (padTo len r') := by
  rw [padTo, padTo, padTo, List.zipWith_append h, List.length_zipWith, h, min_self,
    List.zipWith_replicate, min_self, add_zero]

theorem ofCoeffs_fft2Inverse_add {r r' : List F} (hr : r.length = params.l)
    (hr' : r'.length = params.l) :
    ofCoeffs (params.fft2Inverse (List.zipWith (· + ·) r r')) =
      ofCoeffs (params.fft2Inverse r) + ofCoeffs (params.fft2Inverse r') := by
  have hlen : (0 :: r).length = (0 :: r').length := by
    rw [List.length_cons, List.length_cons, hr, hr']
  have hpad : ∀ row : List F, row.length = params.l →
      (padTo (params.k + 1) (0 :: row)).length = params.k + 1 := by
    intro row hrow
    have hk := params.l_add_t
    rw [length_padTo, List.length_cons]
    omega
  have hsum : padTo (params.k + 1) (0 :: List.zipWith (· + ·) r r') =
      List.zipWith (· + ·) (padTo (params.k + 1) (0 :: r)) (padTo (params.k + 1) (0 :: r')) := by
    rw [← padTo_zipWith_add _ hlen, List.zipWith_cons_cons, add_zero]
  have hsumlen : (List.zipWith (· + ·) (padTo (params.k + 1) (0 :: r))
      (padTo (params.k + 1) (0 :: r'))).length = params.k + 1 := by
    rw [List.length_zipWith, hpad r hr, hpad r' hr', min_self]
  rw [Params.fft2Inverse, Params.fft2Inverse, Params.fft2Inverse, hsum]
  simp only [Fft.fft2Inverse_eq, Fft.inverse]
  rw [params.isTransform_secrets_inv _ (hpad r hr), params.isTransform_secrets_inv _ (hpad r' hr'),
    params.isTransform_secrets_inv _ hsumlen, hpad r hr, hpad r' hr', hsumlen,
    List.map_map, List.map_map, List.map_map, ← ofCoeffs_zipWith_add (by simp), List.zipWith_map,
    List.zipWith_self]
  congr 1
  refine List.map_congr_left fun j _ => ?_
  simp only [Function.comp_apply,
    ofCoeffs_zipWith_add ((hpad r hr).trans (hpad r' hr').symm), eval_add, add_mul]

theorem chunk_zipWith_add (v v' : List F) (i : ℕ) :
    ((List.zipWith (· + ·) v v').drop (i * params.l)).take params.l =
      List.zipWith (· + ·) ((v.drop (i * params.l)).take params.l)
        ((v'.drop (i * params.l)).take params.l) := by
  rw [List.drop_zipWith, List.take_zipWith]

theorem getD_fft3_add {p q r : List F} (hp : p.length = params.k + 1)
    (hq : q.length = params.k + 1) (hr : r.length = params.k + 1)
    (h : ofCoeffs p = ofCoeffs q + ofCoeffs r) (j : ℕ) :
    (params.fft3 p).getD j 0 = (params.fft3 q).getD j 0 + (params.fft3 r).getD j 0 := by
  have hkn := params.k_lt_n
  have hle : ∀ x : List F, x.length = params.k + 1 → x.length ≤ params.n + 1 := by
    intro x hx
    omega
  by_cases hj : j < params.n
  · rw [getD_fft3 (hle p hp) hj, getD_fft3 (hle q hq) hj, getD_fft3 (hle r hr) hj, h, eval_add]
  · have hend : ∀ x : List F, x.length = params.k + 1 → (params.fft3 x).getD j 0 = 0 := by
      intro x hx
      have hlen : (padTo (params.n + 1) x).length = params.n + 1 := by
        rw [length_padTo, max_eq_left (hle x hx)]
      apply List.getD_eq_default
      rw [Params.fft3, params.isTransform_shares _ hlen, List.length_tail, List.length_map,
        List.length_range]
      omega
    rw [hend p hp, hend q hq, hend r hr, add_zero]

theorem column_between (P left rows : TriMat F) (ra : List F) (j : ℕ) :
    column ((makeRa params ra (P ++ left ++ rows)).map params.fft3) j =
      List.zipWith (· + ·) (column ((makeRa params ra (P ++ rows)).map params.fft3) j)
        (column ((makeRa params ra left).map params.fft3) j) := by
  have hlen := TriMat.length_combine (P ++ rows) (params.m * params.l) ra
  have hlen' := TriMat.length_combine left (params.m * params.l) ra
  simp only [column, makeRa_eq, List.map_ofFn, zipWith_ofFn]
  congr 1
  funext i
  have hchunk := length_chunk hlen i
  have hchunk' := length_chunk hlen' i
  simp only [Function.comp_apply, TriMat.combine_between, chunk_zipWith_add]
  refine getD_fft3_add (length_fft2Inverse ?_) (length_fft2Inverse hchunk)
    (length_fft2Inverse hchunk') (ofCoeffs_fft2Inverse_add hchunk hchunk') j
  rw [List.length_zipWith, hchunk, hchunk', min_self]

omit [FieldForLigero F] in
theorem sum_zipWith_add_mul {xs xs' ys : List F} (h : xs.length = xs'.length)
    (hlen : xs.length = ys.length) :
    (List.zipWith (· * ·) (List.zipWith (· + ·) xs xs') ys).sum =
      (List.zipWith (· * ·) xs ys).sum + (List.zipWith (· * ·) xs' ys).sum := by
  induction xs generalizing xs' ys with
  | nil =>
    obtain rfl := List.length_eq_zero_iff.1 h.symm
    simp
  | cons x xs ih =>
    cases xs' with
    | nil => cases h
    | cons x' xs' =>
      cases ys with
      | nil => cases hlen
      | cons y ys =>
        simp only [List.zipWith_cons_cons, List.sum_cons, ih (Nat.succ.inj h) (Nat.succ.inj hlen)]
        ring

omit [FieldForLigero F] in
theorem dot_zipWith_add {xs xs' ys : List F} {x : F} (h : xs.length = xs'.length)
    (hx : dot xs ys = some x) : ∃ x', dot xs' ys = some x' ∧
      dot (List.zipWith (· + ·) xs xs') ys = some (x + x') := by
  rw [dot] at hx
  obtain ⟨hlen, hx⟩ := Option.ite_none_right_eq_some.1 hx
  obtain rfl := Option.some.inj hx
  refine ⟨_, if_pos (h.symm.trans hlen), ?_⟩
  rw [dot, if_pos (by rw [List.length_zipWith, ← h, min_self, hlen]), sum_zipWith_add_mul h hlen]

end Sums

omit [Field F] [FieldForLigero F] in
theorem checkAll_eq_true_iff {α : Type} {check : α → Option Bool} {xs : List α} :
    checkAll check xs = some true ↔ ∀ x ∈ xs, check x = some true := by
  induction xs with
  | nil => exact iff_of_true rfl fun x hx => absurd hx List.not_mem_nil
  | cons x xs ih =>
    rw [checkAll, List.forall_mem_cons, ← ih]
    rcases check x with _ | _ | _ <;> simp


section Checks

variable {params : Params F} [DecidableEq F]

theorem openedCheck_between (left : TriMat F) {P rows : TriMat F} {ra q : List F} {Q : List ℕ}
    {Ua : List (List F)} {ua : List F}
    (h : openedCheck params (makeRa params ra (P ++ rows)) q Q Ua ua = some true) :
    ∃ b, openedCheck params (makeRa params ra (P ++ left ++ rows)) q Q Ua ua = some b ∧
      (b = true ↔ ∀ x ∈ Q.zip (Ua.zip ua),
        dot (column ((makeRa params ra left).map params.fft3) x.1) x.2.1 = some 0) := by
  have hfresh := checkAll_eq_true_iff.1 h
  have hlen : ∀ (P : TriMat F) (j : ℕ),
      (column ((makeRa params ra P).map params.fft3) j).length = params.m := by
    intro P j
    rw [column, List.length_map, List.length_map, length_makeRa]
  let e (x : ℕ × List F × F) : F :=
    (dot (column ((makeRa params ra left).map params.fft3) x.1) x.2.1).getD 0
  have hdots : ∀ x ∈ Q.zip (Ua.zip ua), ∃ d,
      dot (column ((makeRa params ra left).map params.fft3) x.1) x.2.1 = some (e x) ∧
      dot (column ((makeRa params ra (P ++ left ++ rows)).map params.fft3) x.1) x.2.1 =
        some (d + e x) ∧ x.2.2 + d = params.peval3 q (x.1 + 1) := by
    intro x hx
    obtain ⟨d, hd, hcheck⟩ := Option.bind_eq_some_iff.1 (hfresh x hx)
    obtain ⟨d', hd', hsum⟩ := dot_zipWith_add ((hlen _ x.1).trans (hlen left x.1).symm) hd
    have he : e x = d' := by
      show (dot _ _).getD 0 = d'
      rw [hd', Option.getD_some]
    rw [← column_between] at hsum
    exact ⟨d, he ▸ hd', he ▸ hsum, of_decide_eq_true (Option.some.inj hcheck)⟩
  have hchecks : ∀ x ∈ Q.zip (Ua.zip ua), (do
      some (decide (x.2.2 + (← dot (column ((makeRa params ra (P ++ left ++ rows)).map
        params.fft3) x.1) x.2.1) = params.peval3 q (x.1 + 1))) : Option Bool) =
      some (decide (e x = 0)) := by
    intro x hx
    obtain ⟨d, -, hsum, heval⟩ := hdots x hx
    rw [hsum, ← heval]
    simp
  refine ⟨_, checkAll_some hchecks, ?_⟩
  rw [List.all_eq_true]
  refine forall₂_congr fun x hx => ?_
  obtain ⟨d, hd, -⟩ := hdots x hx
  rw [decide_eq_true_iff, hd, Option.some_inj]

end Checks

/-! ## Public values after some proofs -/

/-- The public values after proofs that have left entries. -/
def Left (pub : Public F) (left : TriMat F) (st : Public F) : Prop :=
  ∃ badd : List F, st = { pub with Padd := pub.Padd ++ left, badd := badd } ∧
    badd.length = pub.badd.length ∧
    badd.take pub.sharedMask.start = pub.badd.take pub.sharedMask.start ∧
    badd.drop pub.sharedMask.stop = pub.badd.drop pub.sharedMask.stop

theorem left_nil (pub : Public F) : Left pub [] pub :=
  ⟨pub.badd, by rw [List.append_nil], rfl, rfl, rfl⟩

section Finalize

variable {c : Circuit F} {shared : Option Range} {pub : Public F} (hpub : IsPublic c shared pub)
include hpub

theorem finalizePadd_left {left : TriMat F} {st final : Public F} {rshared : List (List F)}
    {qshared : List F} (h : Left pub left st)
    (hfinal : pub.finalizePadd rshared qshared = some final) :
    final = { pub with Padd := pub.Padd ++ pub.sharedRows rshared, badd := final.badd } ∧
      st.finalizePadd rshared qshared =
        some { final with Padd := pub.Padd ++ left ++ pub.sharedRows rshared } ∧
      Left pub (left ++ pub.sharedRows rshared)
        { final with Padd := pub.Padd ++ left ++ pub.sharedRows rshared } := by
  obtain ⟨badd, rfl, hlen, htake, hdrop⟩ := h
  rw [Public.finalizePadd] at hfinal
  obtain ⟨hguard, hfinal⟩ := Option.ite_none_right_eq_some.1 hfinal
  obtain rfl := Option.some.inj hfinal
  have hsize := hpub.size_le
  have hstart : pub.sharedMask.start ≤ pub.badd.length := by
    rw [hpub.length_badd, hpub.mask_start]
    omega
  have htakelen : (pub.badd.take pub.sharedMask.start).length = pub.sharedMask.start := by
    rw [List.length_take, min_eq_left hstart]
  have hstop : (pub.badd.take pub.sharedMask.start ++ qshared).length = pub.sharedMask.stop := by
    rw [List.length_append, htakelen, hguard.2.2.1, hpub.mask_len, hpub.mask_start, hpub.mask_stop]
  refine ⟨rfl, ?_, ⟨pub.badd.take pub.sharedMask.start ++ qshared ++
    pub.badd.drop pub.sharedMask.stop, ?_, ?_, ?_, ?_⟩⟩
  · rw [Public.finalizePadd, if_pos (by rw [hlen]; exact hguard)]
    simp only [htake, hdrop]
    rfl
  · rw [← List.append_assoc]
  · rw [List.length_append, hstop, List.length_drop, hpub.length_badd, hpub.mask_stop]
    omega
  · rw [List.append_assoc, List.take_left' htakelen]
  · rw [List.drop_left' hstop]

omit hpub in
theorem additionCheck_left [DecidableEq F] (left : TriMat F) {final : Public F} {P rows : TriMat F}
    {radd qadd : List F} {Q : List ℕ} {Uw : List (List F)} {uadd : List F}
    (hfinal : final.Padd = P ++ rows)
    (h : additionCheck final radd qadd Q Uw uadd = some true) :
    ∃ b, additionCheck { final with Padd := P ++ left ++ rows } radd qadd Q Uw uadd = some b ∧
      (b = true ↔ ∀ x ∈ Q.zip (Uw.zip uadd),
        dot (column ((makeRa final.params radd left).map final.params.fft3) x.1) x.2.1 =
          some 0) := by
  obtain ⟨d, hd, h⟩ := Option.bind_eq_some_iff.1 h
  split at h
  · rename_i hsum
    rw [hfinal] at h
    obtain ⟨b, hb, hiff⟩ := openedCheck_between left h
    refine ⟨b, ?_, hiff⟩
    rw [additionCheck, hd]
    exact (if_pos hsum).trans hb
  · cases h

variable {Digest : Type} (ser : CanonicalSerialize F) (H : List UInt8 → Digest)
  (merkle : MerkleCbt Digest) [DecidableEq F]

omit hpub in
/-- The entries that are left are zero at the columns that a proof opens. -/
def Public.CancelsAtColumns (pub : Public F) (left : TriMat F) (p : Session F Digest) : Prop :=
  ∀ x ∈ p.r3.Q.zip ((p.Uw pub.params.m).zip p.r4.uadd),
    dot (column ((makeRa pub.params p.r1.radd left).map pub.params.fft3) x.1) x.2.1 = some 0

theorem verify_left {left : TriMat F} {st : Public F} {p : Session F Digest}
    (hvalid : (pub.verify ser H merkle p).map Prod.fst = some true) (h : Left pub left st) :
    ∃ b st', st.verify ser H merkle p = some (b, st') ∧
      Left pub (left ++ pub.sharedRows p.r1.rshared) st' ∧
      (b = true ↔ pub.CancelsAtColumns left p) := by
  obtain ⟨⟨_, _⟩, hrun, rfl⟩ := Option.map_eq_some_iff.1 hvalid
  obtain ⟨verdict, hverify, hrun⟩ := Option.bind_eq_some_iff.1 hrun
  obtain ⟨final, hfinal, hrun⟩ := Option.bind_eq_some_iff.1 hrun
  obtain ⟨rfl, rfl⟩ := Prod.mk.inj (Option.some.inj hrun)
  obtain ⟨hpubfinal, hstfinal, hleft⟩ := finalizePadd_left hpub h hfinal
  have hparams : final.params = pub.params := by rw [hpubfinal]
  have hPadd : final.Padd = pub.Padd ++ pub.sharedRows p.r1.rshared := by rw [hpubfinal]
  have hstparams : st.params = pub.params := by
    obtain ⟨badd, rfl, -⟩ := h
    rfl
  rw [Ligero.verify, hfinal] at hverify
  dsimp only [Option.bind_eq_bind, Option.bind_some] at hverify
  split at hverify
  · cases hverify
  rename_i hnrows
  obtain ⟨code, hcode, hverify⟩ := Option.bind_eq_some_iff.1 hverify
  obtain ⟨addition, haddition, hverify⟩ := Option.bind_eq_some_iff.1 hverify
  obtain ⟨multiplication, hmultiplication, hverify⟩ := Option.bind_eq_some_iff.1 hverify
  obtain ⟨hash, hhash, hverify⟩ := Option.bind_eq_some_iff.1 hverify
  have hall := Option.some.inj hverify
  simp only [Bool.and_eq_true] at hall
  obtain ⟨⟨⟨rfl, rfl⟩, rfl⟩, rfl⟩ := hall
  obtain ⟨b, hb, hiff⟩ := additionCheck_left left hPadd haddition
  refine ⟨b, _, ?_, hleft, ?_⟩
  · have hrun : Ligero.verify ser H merkle st p.r0 p.r1 p.r2 p.r3.Q p.r4 = some b := by
      rw [Ligero.verify, hstfinal, hstparams]
      dsimp only [Option.bind_eq_bind, Option.bind_some]
      rw [if_neg hnrows]
      refine Option.bind_eq_some_iff.2 ⟨true, hcode, Option.bind_eq_some_iff.2 ⟨b, hb, ?_⟩⟩
      refine Option.bind_eq_some_iff.2 ⟨true, hmultiplication, ?_⟩
      refine Option.bind_eq_some_iff.2 ⟨true, hhash, ?_⟩
      rw [Bool.true_and, Bool.and_true, Bool.and_true]
    rw [Public.verify, hrun, hstfinal]
    rfl
  · rw [hiff, hparams]
    rfl

end Finalize

/-! ## Proofs of one prover -/

section Prover

variable {c : Circuit F} {shared : Option Range} {pub : Public F} (hpub : IsPublic c shared pub)
include hpub

omit hpub in
/-- The combination of the entries that are left with the polynomials of a prover's witness is
zero. -/
def Public.CancelsPolynomial (pub : Public F) (s : Secret F) (left : TriMat F) (r1 : Round1 F) :
    Prop :=
  (List.zipWith (fun ra p => ofCoeffs ra * ofCoeffs p) (makeRa pub.params r1.radd left)
    (makePa pub.params s.Uw)).sum = 0

omit hpub in
theorem ofCoeffs_makeQadd (P : TriMat F) (radd : List F) (W : Fin pub.params.m → RowPoly pub.params)
    (B : RowPoly pub.params) :
    ofCoeffs (makeQadd pub.params B.codeword (makePa pub.params (codewords W)) P radd) =
      B.poly + (List.zipWith (fun ra p => ofCoeffs ra * ofCoeffs p) (makeRa pub.params radd P)
        (makePa pub.params (codewords W))).sum := by
  have hv := TriMat.length_combine P (pub.params.m * pub.params.l) radd
  rw [makeQadd_eq, ofCoeffs_combination B (length_of_mem_rowTerms hv W), makeRa_eq, makePa_codewords,
    zipWith_ofFn, rowTerms, List.map_ofFn]
  congr 3
  funext i
  rw [Function.comp_apply, ofCoeffs_toCoeffs (W i).degree_lt]

omit hpub in
theorem sum_between (P left rows : TriMat F) (radd : List F) (p : Fin pub.params.m → List F) :
    (List.zipWith (fun ra p => ofCoeffs ra * ofCoeffs p)
      (makeRa pub.params radd (P ++ left ++ rows)) (List.ofFn p)).sum =
      (List.zipWith (fun ra p => ofCoeffs ra * ofCoeffs p)
        (makeRa pub.params radd (P ++ rows)) (List.ofFn p)).sum +
      (List.zipWith (fun ra p => ofCoeffs ra * ofCoeffs p)
        (makeRa pub.params radd left) (List.ofFn p)).sum := by
  have hlen := TriMat.length_combine (P ++ rows) (pub.params.m * pub.params.l) radd
  have hlen' := TriMat.length_combine left (pub.params.m * pub.params.l) radd
  simp only [makeRa_eq, zipWith_ofFn, List.sum_ofFn, TriMat.combine_between, chunk_zipWith_add]
  rw [← Finset.sum_add_distrib]
  refine Finset.sum_congr rfl fun i _ => ?_
  rw [ofCoeffs_fft2Inverse_add (length_chunk hlen i) (length_chunk hlen' i), add_mul]

omit [FieldForLigero F] hpub in
theorem eq_of_ofCoeffs_eq {p q : List F} (hlen : p.length = q.length)
    (h : ofCoeffs p = ofCoeffs q) : p = q := by
  apply List.ext_getElem hlen
  intro i hi hi'
  rw [← List.getD_eq_getElem _ 0 hi, ← List.getD_eq_getElem _ 0 hi', ← coeff_ofCoeffs, h,
    coeff_ofCoeffs]

theorem round2_left {s : Secret F} {W : Fin pub.params.m → RowPoly pub.params}
    (hUw : s.Uw = codewords W) {B : RowPoly pub.params} (huadd : s.uadd = B.codeword)
    {left : TriMat F} {st : Public F} {r1 : Round1 F} {r2 : Round2 F}
    (hr2 : Ligero.round2 pub s r1 = some r2) (h : Left pub left st) :
    ∃ r2' st', s.round2 st r1 = some (r2', st') ∧
      Left pub (left ++ pub.sharedRows r1.rshared) st' ∧
      (r2' = r2 ↔ pub.CancelsPolynomial s left r1) := by
  obtain ⟨final, hfinal, hr2⟩ := Option.bind_eq_some_iff.1 hr2
  obtain ⟨hlens, hr2⟩ := Option.ite_none_right_eq_some.1 hr2
  replace hr2 := Option.some.inj hr2
  obtain ⟨hpubfinal, hstfinal, hleft⟩ := finalizePadd_left hpub h hfinal
  have hPadd : final.Padd = pub.Padd ++ pub.sharedRows r1.rshared := by rw [hpubfinal]
  let qadd (P : TriMat F) : List F := makeQadd pub.params s.uadd (makePa pub.params s.Uw) P r1.radd
  have hqaddlen : ∀ P : TriMat F, (qadd P).length = max (pub.params.n + 1) (2 * pub.params.k + 1) := by
    intro P
    have hv := TriMat.length_combine P (pub.params.m * pub.params.l) r1.radd
    show (makeQadd pub.params s.uadd (makePa pub.params s.Uw) P r1.radd).length = _
    rw [huadd, hUw, makeQadd_eq]
    exact length_combination B (length_of_mem_rowTerms hv W) (rowTerms_ne_nil hpub.m_pos _ W)
  have hqadd : qadd (pub.Padd ++ left ++ pub.sharedRows r1.rshared) = qadd final.Padd ↔
      pub.CancelsPolynomial s left r1 := by
    have hof : ∀ P : TriMat F, ofCoeffs (qadd P) = _ := fun P =>
      (congrArg₂ (fun u U => ofCoeffs (makeQadd pub.params u (makePa pub.params U) P r1.radd))
        huadd hUw).trans (ofCoeffs_makeQadd P r1.radd W B)
    have hiff : qadd (pub.Padd ++ left ++ pub.sharedRows r1.rshared) = qadd final.Padd ↔
        ofCoeffs (qadd (pub.Padd ++ left ++ pub.sharedRows r1.rshared)) =
          ofCoeffs (qadd final.Padd) :=
      ⟨congrArg ofCoeffs, eq_of_ofCoeffs_eq ((hqaddlen _).trans (hqaddlen _).symm)⟩
    rw [hiff, hof, hof, hPadd, Public.CancelsPolynomial, hUw, makePa_codewords, sum_between,
      ← add_assoc, add_eq_left]
  obtain ⟨badd, rfl, -⟩ := h
  have hlen : (qadd (pub.Padd ++ left ++ pub.sharedRows r1.rshared)).length =
      2 * pub.params.k + 1 :=
    (hqaddlen _).trans ((hqaddlen final.Padd).symm.trans hlens.2.1)
  refine ⟨{ r2 with qadd := qadd (pub.Padd ++ left ++ pub.sharedRows r1.rshared) }, _, ?_, hleft, ?_⟩
  · have hround : Ligero.round2 { pub with Padd := pub.Padd ++ left, badd := badd } s r1 =
        some { r2 with qadd := qadd (pub.Padd ++ left ++ pub.sharedRows r1.rshared) } := by
      rw [Ligero.round2, ← hr2]
      dsimp only
      rw [hstfinal]
      exact if_pos ⟨hlens.1, hlen, hlens.2.2⟩
    rw [Secret.round2, hround, ← hr2]
    dsimp only [Option.bind_eq_bind, Option.bind_some]
    rw [hstfinal]
    rfl
  · have hr2qadd : r2.qadd = qadd final.Padd := by rw [← hr2]
    rw [← hqadd, ← hr2qadd]
    exact ⟨congrArg Round2.qadd, fun heq => Round2.ext rfl heq rfl rfl rfl rfl rfl⟩

end Prover

/-! ## All calls -/

section Reuse

variable {N : ℕ} (ser : CanonicalSerialize F) (H : List UInt8 → Vector UInt8 N)
  (merkle : MerkleCbt (Vector UInt8 N))

/-- A proof and its challenges from hashes, for a commitment of another proof. -/
def Proof.session {pub : Public F} (generators : Generators pub N) (cktHash : Vector UInt8 N)
    (p : Proof F N × List UInt8) : Session F (Vector UInt8 N) :=
  let (r1, state) := makeR1 H generators cktHash p.1.r0 p.2
  let queries := makeR3 ser H generators state p.1.r2
  ⟨p.1.r0, r1, p.1.r2, ⟨queries.Q.map Fin.val⟩, p.1.r4⟩

variable [DecidableEq F]

/-- The verdict of a verifier without interaction, who was created with the public values of the
generators. -/
def Public.verifyProof {pub₀ : Public F} (generators : Generators pub₀ N) (cktHash : Vector UInt8 N)
    (pub : Public F) (p : Proof F N × List UInt8) : Option (Bool × Public F) :=
  pub.verify ser H merkle (Proof.session ser H generators cktHash p)

theorem map_fst_verifyProof {pub : Public F} (generators : Generators pub N)
    (cktHash : Vector UInt8 N) (p : Proof F N × List UInt8) :
    (Public.verifyProof ser H merkle generators cktHash pub p).map Prod.fst =
      Ligero.verifyProof ser H merkle generators p.1 cktHash p.2 := by
  let t := Proof.session ser H generators cktHash p
  show (pub.verify ser H merkle t).map Prod.fst =
    Ligero.verify ser H merkle pub t.r0 t.r1 t.r2 t.r3.Q t.r4
  rw [Public.verify]
  cases hverify : Ligero.verify ser H merkle pub t.r0 t.r1 t.r2 t.r3.Q t.r4 with
  | none => rfl
  | some verdict =>
    rw [Ligero.verify] at hverify
    obtain ⟨final, hfinal, -⟩ := Option.bind_eq_some_iff.1 hverify
    rw [hfinal]
    rfl

/-- One verifier checks valid proofs, and one prover makes them, as new ones do exactly if what the
proofs before have left cancels. -/
structure ReusedExactly (c : Circuit F) (pub : Public F) : Prop where
  verifier : ∀ ps : List (Session F (Vector UInt8 N)),
    (∀ p ∈ ps, ((Verifier.new pub).check ser H merkle p).map Prod.fst = some true) →
    (Reusable (Verifier.check ser H merkle) (Verifier.new pub) ps ↔
      EachAfter (fun p => pub.sharedRows p.r1.rshared) pub.CancelsAtColumns [] ps)
  verifyProof : ∀ (generators : Generators pub N) (cktHash : Vector UInt8 N)
    (ps : List (Proof F N × List UInt8)),
    (∀ p ∈ ps, Ligero.verifyProof ser H merkle generators p.1 cktHash p.2 = some true) →
    (Reusable (Public.verifyProof ser H merkle generators cktHash) pub ps ↔
      EachAfter (fun p => pub.sharedRows p.r1.rshared) pub.CancelsAtColumns []
        (ps.map (Proof.session ser H generators cktHash)))
  prover : ∀ (inp : List F) (coins : Coins pub.params) (s : Secret F),
    Secret.new pub c inp coins = some s → ∀ r1s : List (Round1 F),
    (∀ r1 ∈ r1s, (Ligero.round2 pub s r1).isSome) →
    (Reusable s.round2 pub r1s ↔
      EachAfter (fun r1 => pub.sharedRows r1.rshared) (pub.CancelsPolynomial s) [] r1s)

variable {c : Circuit F} {shared : Option Range} {pub : Public F}

theorem check_left (hpub : IsPublic c shared pub) {left : TriMat F}
    {v : Verifier F (Vector UInt8 N)} {p : Session F (Vector UInt8 N)}
    (hvalid : ((Verifier.new pub).check ser H merkle p).map Prod.fst = some true)
    (h : Left pub left v.pub) : ∃ b v', v.check ser H merkle p = some (b, v') ∧
      Left pub (left ++ pub.sharedRows p.r1.rshared) v'.pub ∧
      (b = true ↔ pub.CancelsAtColumns left p) := by
  have hvalid' : (pub.verify ser H merkle p).map Prod.fst = some true := by
    obtain ⟨⟨_, _⟩, hcheck, rfl⟩ := Option.map_eq_some_iff.1 hvalid
    obtain ⟨⟨_, _⟩, hrun, hcheck⟩ := Option.bind_eq_some_iff.1 hcheck
    obtain ⟨rfl, -⟩ := Prod.mk.inj (Option.some.inj hcheck)
    exact Option.map_eq_some_iff.2 ⟨_, hrun, rfl⟩
  obtain ⟨b, st, hrun, hleft, hb⟩ := verify_left hpub ser H merkle hvalid' h
  exact ⟨b, { (v.round1 p.r1 p.r0).round3 p.r3 p.r2 with pub := st },
    Option.bind_eq_some_iff.2 ⟨(b, st), hrun, rfl⟩, hleft, hb⟩

theorem check_reusable_iff (hpub : IsPublic c shared pub) {ps : List (Session F (Vector UInt8 N))}
    (hps : ∀ p ∈ ps, ((Verifier.new pub).check ser H merkle p).map Prod.fst = some true) :
    Reusable (Verifier.check ser H merkle) (Verifier.new pub) ps ↔
      EachAfter (fun p => pub.sharedRows p.r1.rshared) pub.CancelsAtColumns [] ps := by
  refine reusable_iff (fun left v => Left pub left v.pub) (fun _ => true) hps ?_ (left_nil pub)
  exact fun p hp left v hv => check_left ser H merkle hpub (hps p hp) hv

theorem reusedExactly (h : Public.new c shared = some pub) :
    ReusedExactly ser H merkle c pub where
  verifier _ hps := check_reusable_iff ser H merkle (isPublic_new h) hps
  verifyProof generators cktHash ps hps := by
    have hpub := isPublic_new h
    have hvalid : ∀ p ∈ ps, (Public.verifyProof ser H merkle generators cktHash pub p).map Prod.fst =
        some true := by
      intro p hp
      rw [map_fst_verifyProof, hps p hp]
    rw [eachAfter_map]
    refine reusable_iff (Left pub) (fun _ => true) hvalid ?_ (left_nil pub)
    exact fun p hp left st hst => verify_left hpub ser H merkle (hvalid p hp) hst
  prover inp coins s hs r1s hr1s := by
    have hpub := isPublic_new h
    have hinp : inp.length = c.ninputs := (Option.ite_none_right_eq_some.1 hs).1
    obtain ⟨s', R, hs', hsecret⟩ := exists_secret hpub hinp coins
    obtain rfl := Option.some.inj (hs.symm.trans hs')
    have hstep : ∀ r1 ∈ r1s, ∃ r2, Ligero.round2 pub s r1 = some r2 ∧
        ∀ left st, Left pub left st → ∃ r2' st', s.round2 st r1 = some (r2', st') ∧
          Left pub (left ++ pub.sharedRows r1.rshared) st' ∧
          (r2' = r2 ↔ pub.CancelsPolynomial s left r1) := by
      intro r1 hr1
      obtain ⟨r2, hr2⟩ := Option.isSome_iff_exists.1 (hr1s r1 hr1)
      exact ⟨r2, hr2, fun left st => round2_left hpub hsecret.Uw_eq hsecret.uadd_eq hr2⟩
    let fresh (r1 : Round1 F) : Round2 F :=
      (Ligero.round2 pub s r1).getD ⟨[], [], [], [], [], [], []⟩
    refine reusable_iff (Left pub) fresh ?_ ?_ (left_nil pub)
    · intro r1 hr1
      obtain ⟨r2, hr2, hnext⟩ := hstep r1 hr1
      obtain ⟨r2', st, hrun, -⟩ := hnext [] pub (left_nil pub)
      obtain ⟨_, hround, hfinal⟩ := Option.bind_eq_some_iff.1 hrun
      obtain ⟨_, -, hpair⟩ := Option.bind_eq_some_iff.1 hfinal
      obtain ⟨rfl, -⟩ := Prod.mk.inj (Option.some.inj hpair)
      show _ = some ((Ligero.round2 pub s r1).getD _)
      rw [hrun, hround]
      rfl
    · intro r1 hr1 left st hst
      obtain ⟨r2, hr2, hnext⟩ := hstep r1 hr1
      obtain ⟨r2', st', hrun, hleft, hiff⟩ := hnext left st hst
      refine ⟨r2', st', hrun, hleft, ?_⟩
      show r2' = (Ligero.round2 pub s r1).getD _ ↔ _
      rw [hr2]
      exact hiff

theorem reusedExactly_copy :
    ReusedExactly f2e19x3e26Serialize byteHash byteMerkle copyCircuit copyPublic :=
  reusedExactly f2e19x3e26Serialize byteHash byteMerkle (Option.some_get _).symm

end Reuse

/-! ## A proof that is checked twice -/

section Twice

variable {params : Params F}

/-- The polynomial of a row that is zero everywhere but at one place has no zeros at the points of
the shares. -/
theorem entry_ne_zero {P : RowPoly params} {c : ℕ} (hc : c < params.k + 1)
    (hzero : ∀ i < params.k + 1, i ≠ c → P.poly.eval (params.omegaSecrets ^ i) = 0)
    (hne : P.poly.eval (params.omegaSecrets ^ c) ≠ 0) {j : ℕ} (hj : j < params.n) :
    P.entry j ≠ 0 := by
  classical
  intro hentry
  have hω := params.isPrimitiveRoot_omegaSecrets
  rw [← params.k_add_one] at hω
  let secrets := ((Finset.range (params.k + 1)).erase c).image fun i => params.omegaSecrets ^ i
  have hcard : secrets.card = params.k := by
    rw [Finset.card_image_of_injOn, Finset.card_erase_of_mem (Finset.mem_range.2 hc),
      Finset.card_range, Nat.add_sub_cancel]
    intro i hi i' hi' heq
    exact hω.pow_inj (Finset.mem_range.1 (Finset.mem_of_mem_erase hi))
      (Finset.mem_range.1 (Finset.mem_of_mem_erase hi')) heq
  have hshare : params.omegaShares ^ (j + 1) ∉ secrets := by
    intro hmem
    obtain ⟨i, -, hi⟩ := Finset.mem_image.1 hmem
    have hone := omegaSecrets_pow_eq_one params hi.symm
    have hn := params.n_add_one
    exact params.isPrimitiveRoot_omegaShares.pow_ne_one_of_pos_of_lt (Nat.succ_ne_zero j) (by omega)
      (hi.symm.trans hone)
  have hall : ∀ x ∈ insert (params.omegaShares ^ (j + 1)) secrets, P.poly.eval x = 0 := by
    intro x hx
    rcases Finset.mem_insert.1 hx with rfl | hx
    · exact hentry
    · obtain ⟨i, hi, rfl⟩ := Finset.mem_image.1 hx
      obtain ⟨hic, hi⟩ := Finset.mem_erase.1 hi
      exact hzero i (Finset.mem_range.1 hi) hic
  have hP : P.poly = 0 := by
    refine Polynomial.eq_zero_of_degree_lt_of_eval_finset_eq_zero _ ?_ hall
    rw [Finset.card_insert_of_notMem hshare, hcard]
    exact P.degree_lt
  rw [hP, eval_zero] at hne
  exact hne rfl

theorem eval_ofRow {wf randomness : List F} (hwf : wf.length = params.l)
    (hrandomness : randomness.length = params.t) {j : ℕ} (hj : j < params.k + 1) :
    (RowPoly.ofRow wf randomness hwf hrandomness).poly.eval (params.omegaSecrets ^ j) =
      (0 :: (wf ++ randomness)).getD j 0 :=
  RowPoly.eval_secrets wf randomness hwf hrandomness hj

theorem dot_left {left : TriMat F} {ra ws : List F}
    (hleft : left.combine (params.m * params.l) ra = ws) (hws : ws.length = params.m * params.l)
    {j : ℕ} (hj : j < params.n) :
    dot (column ((makeRa params ra left).map params.fft3) j)
      (column (params.encodeInterleaved ws (List.ofFn fun _ : Fin params.m =>
        List.ofFn fun _ : Fin params.t => 0)) j) =
      some (∑ i : Fin params.m, (RowPoly.ofRow _ (List.ofFn fun _ : Fin params.t => 0) (length_chunk hws i)
        List.length_ofFn).entry j ^ 2) := by
  have hkn := params.k_lt_n
  have hk := params.l_add_t
  rw [encodeInterleaved_eq params hws, column_codewords _ hj, column, makeRa_eq, hleft,
    List.map_ofFn, List.map_ofFn, dot_ofFn]
  refine congrArg some (Finset.sum_congr rfl fun i _ => ?_)
  have hchunk := length_chunk hws i
  have hpad : padTo (params.k + 1) (0 :: (ws.drop (i * params.l)).take params.l) =
      0 :: ((ws.drop (i * params.l)).take params.l ++ List.ofFn fun _ : Fin params.t => 0) := by
    have ht : params.k + 1 - (params.l + 1) = params.t := by omega
    rw [padTo, List.length_cons, hchunk, ht, List.ofFn_const, List.cons_append]
  rw [Function.comp_apply, Function.comp_apply,
    getD_fft3 (by rw [length_fft2Inverse hchunk]; omega) hj, Params.fft2Inverse, hpad, sq]
  rfl

omit [FieldForLigero F] in
theorem eq_of_getD_eq {xs ys : List F} (hlen : xs.length = ys.length)
    (h : ∀ k < xs.length, xs.getD k 0 = ys.getD k 0) : xs = ys := by
  apply List.ext_getElem hlen
  intro k hk hk'
  rw [← List.getD_eq_getElem _ 0 hk, ← List.getD_eq_getElem _ 0 hk', h k hk]

theorem Uw_of_new [DecidableEq F] {pub : Public F} {c : Circuit F} {inp : List F}
    {coins : Coins pub.params} {s : Secret F} (h : Secret.new pub c inp coins = some s) :
    s.Uw = pub.params.encodeInterleaved (extWitness pub c inp coins.mask)
      (List.ofFn fun i => List.ofFn (coins.w i)) := by
  obtain ⟨-, h⟩ := Option.ite_none_right_eq_some.1 h
  obtain ⟨-, h⟩ := Option.ite_none_right_eq_some.1 h
  rw [← Option.some.inj h]
  rfl

end Twice

theorem sharedRows_copy (radd : Fin (copyPublic.params.m * copyPublic.params.l) → F2e19x3e26) :
    copyPublic.sharedRows (zeroChallenges.round1 radd).rshared = [(3, 3, 1)] := rfl

theorem isPublic_copy : IsPublic copyCircuit none copyPublic := isPublic_new (Option.some_get _).symm

/-- The extended witness for the input zero, with one as the mask. -/
def maskWitness : List F2e19x3e26 := extWitness copyPublic copyCircuit [0] 1

theorem length_maskWitness :
    maskWitness.length = copyPublic.params.m * copyPublic.params.l :=
  length_extWitness isPublic_copy rfl 1

theorem getD_maskWitness (k : ℕ) : maskWitness.getD k 0 = if k = 3 then 1 else 0 := by
  have hwires : copyCircuit.wires [0] = [0, 0] := by decide
  have hstart : copyPublic.sharedMask.start = 3 := rfl
  rw [maskWitness, getD_extWitness isPublic_copy rfl, hstart, hwires]
  rcases k with _ | _ | k <;> rfl

theorem combine_copy : TriMat.combine [(3, 3, 1)] (copyPublic.params.m * copyPublic.params.l)
    (List.ofFn fun _ : Fin (copyPublic.params.m * copyPublic.params.l) => (1 : F2e19x3e26)) =
      maskWitness := by
  refine eq_of_getD_eq ((TriMat.length_combine _ _ _).trans length_maskWitness.symm) fun k hk => ?_
  rw [TriMat.length_combine] at hk
  have hsize : copyPublic.params.m * copyPublic.params.l = 66 := rfl
  rw [getD_maskWitness, TriMat.combine, getD_map_range _ hk]
  by_cases h : k = 3
  · subst h
    rw [if_pos rfl, hsize]
    decide
  · simp [h, Ne.symm h]

theorem sum_maskWitness_ne_zero {j : ℕ} (hj : j < copyPublic.params.n) :
    ∑ i : Fin copyPublic.params.m, (RowPoly.ofRow _ (List.ofFn fun _ : Fin copyPublic.params.t => 0)
      (length_chunk length_maskWitness i) List.length_ofFn).entry j ^ 2 ≠ 0 := by
  let row := (maskWitness.drop (0 * copyPublic.params.l)).take copyPublic.params.l
  have hrow : row.length = copyPublic.params.l := length_chunk length_maskWitness ⟨0, by decide⟩
  let zeros := List.ofFn fun _ : Fin copyPublic.params.t => (0 : F2e19x3e26)
  have hvalue : ∀ i, (0 :: (row ++ zeros)).getD i 0 = if i = 4 then 1 else 0 := by
    intro i
    rcases i with _ | i
    · rfl
    rw [List.getD_cons_succ]
    by_cases hi : i < copyPublic.params.l
    · rw [List.getD_append _ _ _ _ (hrow ▸ hi), getD_chunk maskWitness 0 hi, getD_maskWitness]
      simp
    · have hl : copyPublic.params.l = 66 := rfl
      rw [List.getD_append_right _ _ _ _ (by omega), if_neg (by omega)]
      simp [zeros, List.getD_eq_getElem?_getD]
  have huniv : (Finset.univ : Finset (Fin copyPublic.params.m)) = {⟨0, by decide⟩} := rfl
  rw [huniv, Finset.sum_singleton]
  have heval : ∀ i < copyPublic.params.k + 1, (RowPoly.ofRow row zeros hrow
      List.length_ofFn).poly.eval (copyPublic.params.omegaSecrets ^ i) = if i = 4 then 1 else 0 := by
    intro i hi
    rw [eval_ofRow hrow List.length_ofFn hi, hvalue]
  refine pow_ne_zero 2 (entry_ne_zero (c := 4) (by decide) (fun i hi hne => ?_) ?_ hj)
  · exact (heval i hi).trans (if_neg hne)
  · rw [heval 4 (by decide), if_pos rfl]
    exact one_ne_zero

/-- A proof with one as the mask is accepted once. -/
theorem not_reusable_copy : ¬ ∀ ps : List (Session F2e19x3e26 (Vector UInt8 1)),
    (∀ p ∈ ps, ((Verifier.new copyPublic).check f2e19x3e26Serialize byteHash byteMerkle p).map
      Prod.fst = some true) →
    Reusable (Verifier.check f2e19x3e26Serialize byteHash byteMerkle) (Verifier.new copyPublic)
      ps := by
  intro hall
  have hpub := isPublic_copy
  let coins : Coins copyPublic.params := ⟨1, 0, 0, 0, 0, ⟨0, 0⟩, ⟨0, 0⟩, ⟨0, 0⟩, ⟨0, 0⟩, 0, ⟨0, 0⟩⟩
  let radd : Fin (copyPublic.params.m * copyPublic.params.l) → F2e19x3e26 := fun _ => 1
  have hinp : [(0 : F2e19x3e26)].length = copyCircuit.ninputs := rfl
  obtain ⟨s, R, hnew, hs⟩ := exists_secret hpub hinp coins
  obtain ⟨r2, final, hr2, hparams, hq, -⟩ := exists_round2_eq hpub (fun _ h => by cases h) hinp hs
    zeroChallenges radd
  obtain ⟨queries⟩ := exists_queries copyPublic.params
  obtain ⟨lem, -, hcolumns, hverify⟩ := exists_round4_eq f2e19x3e26Serialize byteHash byteMerkle
    complete_byteMerkle short_byteMerkle (by decide) (s := s) queries
  have haccept := verify_honest f2e19x3e26Serialize byteHash byteMerkle hpub hinp
    (by decide) (fun _ h => by cases h) hs hr2 hparams hq hcolumns hverify
  let p : Session F2e19x3e26 (Vector UInt8 1) :=
    ⟨round0 f2e19x3e26Serialize byteHash byteMerkle copyPublic.params s, zeroChallenges.round1 radd,
      r2, ⟨queries.Q.map Fin.val⟩, ⟨lem, queries.Q.map fun j => s.ux.getD j.val 0,
        queries.Q.map fun j => s.uy.getD j.val 0, queries.Q.map fun j => s.uz.getD j.val 0,
        queries.Q.map fun j => s.uadd.getD j.val 0, queries.Q.map fun j => s.u.getD j.val 0,
        queries.Q.map fun j => s.u0.getD j.val 0⟩⟩
  have hp : ((Verifier.new copyPublic).check f2e19x3e26Serialize byteHash byteMerkle p).map
      Prod.fst = some true := by
    have hrun : copyPublic.verify f2e19x3e26Serialize byteHash byteMerkle p = some (true, final) :=
      Option.bind_eq_some_iff.2 ⟨true, haccept, Option.bind_eq_some_iff.2 ⟨final, hr2.final, rfl⟩⟩
    exact Option.map_eq_some_iff.2 ⟨_, Option.bind_eq_some_iff.2 ⟨_, hrun, rfl⟩, rfl⟩
  have hps : ∀ q ∈ [p, p], ((Verifier.new copyPublic).check f2e19x3e26Serialize byteHash byteMerkle
      q).map Prod.fst = some true := by
    intro q hq
    rcases List.mem_cons.1 hq with rfl | hq
    · exact hp
    · rw [List.mem_singleton.1 hq]
      exact hp
  obtain ⟨-, hcancels, -⟩ := (check_reusable_iff f2e19x3e26Serialize byteHash byteMerkle hpub
    hps).1 (hall _ hps)
  -- at the first column of the second proof
  obtain ⟨j, rest, hQ⟩ : ∃ j rest, queries.Q = j :: rest := by
    apply List.exists_cons_of_ne_nil
    apply List.ne_nil_of_length_pos
    rw [queries.length_eq]
    decide
  have hUw : p.Uw copyPublic.params.m = (queries.Q.map Fin.val).map (column s.Uw) := by
    have hrows : s.U.length = 4 * copyPublic.params.m := by
      rw [hs.U_eq, List.length_map, length_all]
    show (lem.columns.columns.map List.ofFn).map _ = _
    rw [hcolumns, openColumns_toMatrix hrows, hs.U_eq, hs.Uw_eq, List.map_map]
    exact List.map_congr_left fun j _ => (column_part R j).1
  have hmem : (j.val, column s.Uw j, s.uadd.getD j 0) ∈
      p.r3.Q.zip ((p.Uw copyPublic.params.m).zip p.r4.uadd) := by
    rw [hUw]
    show _ ∈ (queries.Q.map Fin.val).zip (((queries.Q.map Fin.val).map _).zip (queries.Q.map _))
    rw [hQ]
    exact List.mem_cons_self
  have hzero : dot (column ((makeRa copyPublic.params (List.ofFn radd)
      (copyPublic.sharedRows (zeroChallenges.round1 radd).rshared)).map copyPublic.params.fft3) j)
      (column s.Uw j) = some 0 := hcancels _ hmem
  rw [sharedRows_copy, Uw_of_new hnew] at hzero
  have hsum := (dot_left combine_copy length_maskWitness j.isLt).symm.trans hzero
  exact sum_maskWitness_ne_zero j.isLt (Option.some.inj hsum)

end EdaBitGen.Ligero
