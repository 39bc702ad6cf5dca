import EdaBitGen.Algebra.Roots
import EdaBitGen.HomCom.Correlation

/-!
# Openings and zero checks bind the prover

Whatever a prover sends, for all but at most one `Δ` the verifier accepts an opening or a zero
check only when the combination of the differences from the committed values with the challenges
is zero.
-/

namespace EdaBitGen

open Interaction Party

variable {M D G PF FE : Type} [Field PF] [Field FE] [Algebra PF FE] [DecidableEq FE]
  [CanonicalSerialize M FE] [Random D FE] (C : Primitives M D)

omit [DecidableEq FE] in
theorem linComb_zipWith_sub (chis : List FE) {xs ys : List FE} (h : xs.length = ys.length) :
    linComb chis (List.zipWith (· - ·) xs ys) = linComb chis xs - linComb chis ys := by
  induction xs generalizing chis ys with
  | nil => cases chis <;> simp [linComb, List.eq_nil_of_length_eq_zero h.symm]
  | cons x xs ih =>
    cases ys with
    | nil => simp at h
    | cons y ys =>
      cases chis with
      | nil => simp [linComb]
      | cons chi chis =>
        have ih' : linComb chis (List.zipWith (· - ·) xs ys) = linComb chis xs - linComb chis ys :=
          ih chis (by simpa using h)
        simp only [linComb, List.zipWith_cons_cons, List.sum_cons] at ih' ⊢
        rw [ih']
        ring

/-! ## Opening -/

section Open

variable [CanonicalSerialize M PF]

/-- The challenges of an opening, which both parties derive from the opened values. -/
def openChis (FE : Type) [Random D FE] (out : List PF) (n : ℕ) : List FE :=
  randoms FE (C.aesRng (C.blake3 (out.map CanonicalSerialize.toMsg))) n

theorem run_openMacs {keys : List (MacVerifier FE)} {s s' : FComVerifier FE} {g g' : G}
    {inbox rest : List M} {out : List PF}
    (h : Proc.run (FComVerifier.openMacs PF C keys s g) inbox = some (((out, s'), g'), rest)) :
    ∃ msg m, readEach PF keys.length inbox = some (out, msg :: rest) ∧
      CanonicalSerialize.ofMsg msg = some m ∧
      linComb (openChis C FE out keys.length) (keys.map MacVerifier.mac) +
        s.delta * linComb (openChis C FE out keys.length) (out.map (algebraMap PF FE)) = m := by
  unfold FComVerifier.openMacs at h
  rw [run_bind_eq_some] at h
  obtain ⟨out', s₁, g₁, mid, hout, h⟩ := h
  rw [run_mapM_readSerializable, Option.map_eq_some_iff] at hout
  obtain ⟨⟨xs, mid'⟩, hread, heq⟩ := hout
  simp only [Prod.mk.injEq] at heq
  obtain ⟨⟨⟨rfl, rfl⟩, rfl⟩, rfl⟩ := heq
  rw [run_bind_eq_some] at h
  obtain ⟨m, s₂, g₂, mid₂, hm, h⟩ := h
  obtain ⟨msg, rfl, hmsg, rfl, rfl⟩ := run_readSerializable_eq_some.1 hm
  rw [bind_apply, get_apply, Proc.pure_bind', run_bind_eq_some] at h
  obtain ⟨_, s₃, g₃, mid₃, hassert, h⟩ := h
  obtain ⟨hcheck, rfl, rfl, rfl⟩ := run_assert_eq_some.1 hassert
  simp only [pure_apply, Proc.run_pure, Option.some.injEq, Prod.mk.injEq] at h
  obtain ⟨⟨⟨rfl, rfl⟩, rfl⟩, rfl⟩ := h
  exact ⟨msg, m, hread, hmsg, hcheck⟩

/-- On a fixed list of messages the verifier accepts values that differ from the committed ones in
their combination for at most one `Δ`. -/
theorem openMacs_binding (batch : List (MacProver PF FE)) (x' : List PF) (inbox : List M)
    (pool : FE → Pool (MacVerifier FE)) (g : G)
    (hne : linComb (openChis C FE x' batch.length)
      (List.zipWith (fun x p => algebraMap PF FE (x - p.value)) x' batch) ≠ 0) :
    {Δ : FE | ∃ t g' rest, Proc.run (FComVerifier.openMacs PF C (batch.map (MacProver.key Δ))
      ⟨Δ, pool Δ⟩ g) inbox = some (((x', t), g'), rest)}.encard ≤ 1 := by
  by_cases hacc : ∃ msg m rest, readEach PF batch.length inbox = some (x', msg :: rest) ∧
      CanonicalSerialize.ofMsg msg = some (m : FE)
  · obtain ⟨msg, m, rest, hread, hmsg⟩ := hacc
    refine le_trans (Set.encard_le_encard ?_) (Roots.encard_affine_le_one
      (a := linComb (openChis C FE x' batch.length) (batch.map MacProver.mac) - m) hne)
    rintro Δ ⟨t, g', rest', hrun⟩
    obtain ⟨msg', m', hread', hmsg', hcheck⟩ := run_openMacs C hrun
    rw [List.length_map, hread] at hread'
    obtain ⟨rfl, rfl⟩ : msg = msg' ∧ rest = rest' := by simpa using hread'
    obtain rfl : m = m' := by simpa [hmsg] using hmsg'
    have hzip : List.zipWith (fun x p => algebraMap PF FE (x - p.value)) x' batch =
        List.zipWith (· - ·) (x'.map (algebraMap PF FE))
          (batch.map fun p => algebraMap PF FE p.value) := by
      rw [List.zipWith_map]
      simp only [map_sub]
    have hlen : x'.length = batch.length := length_readEach hread
    rw [linComb_key, List.length_map] at hcheck
    change _ + _ * Δ = 0
    rw [hzip, linComb_zipWith_sub _ (by simpa using hlen)]
    linear_combination hcheck
  · refine (Set.encard_eq_zero.2 (Set.eq_empty_of_forall_notMem ?_)).trans_le zero_le_one
    rintro Δ ⟨t, g', rest, hrun⟩
    obtain ⟨msg, m, hread, hmsg, -⟩ := run_openMacs C hrun
    exact hacc ⟨msg, m, rest, by rwa [List.length_map] at hread, hmsg⟩

end Open

/-! ## Zero check -/

section CheckZero

variable [CanonicalSerialize M Block] [Random D Block]

/-- The challenges of a zero check, which both parties derive from the verifier's seed. -/
def zeroChis (FE : Type) [Random D FE] (h : Stream' D) (n : ℕ) : List FE :=
  randoms FE (C.aesRng (Random.random h.head)) n

omit [Algebra PF FE] in
theorem joint_checkZero [DecidableEq PF] (batch : List (MacProver PF FE))
    (keys : List (MacVerifier FE)) (s : FComProver PF FE) (t : FComVerifier FE) (g : G)
    (h : Stream' D) :
    Proc.joint (FComProver.checkZero C batch s g) (FComVerifier.checkZero C keys t h) =
      .ended [CanonicalSerialize.toMsg (Random.random h.head : Block)]
        [CanonicalSerialize.toMsg
          (linComb (zeroChis C FE h batch.length) (batch.map MacProver.mac))]
        (if ∀ x ∈ batch, x.value = 0 then .ok (((), s), g) else .error "check_zero failed")
        (if linComb (zeroChis C FE h keys.length) (keys.map MacVerifier.mac) =
            linComb (zeroChis C FE h batch.length) (batch.map MacProver.mac)
          then .ok (((), t), h.tail) else .error "check_zero failed") := by
  unfold FComProver.checkZero FComVerifier.checkZero readSerializable writeSerializable
    EdaBitGen.random zeroChis
  simp only [bind_apply, draw_apply, read_apply, write_apply, flush_apply, pure_apply,
    Proc.pure_bind', Proc.send_bind, Proc.recv_bind, Proc.flush_bind, Proc.joint_flush_right,
    Proc.joint_recv_send, CanonicalSerialize.ofMsg_toMsg, Proc.joint_send_recv,
    Proc.joint_flush_left, joint_assert_assert]
  rfl

theorem run_checkZero {keys : List (MacVerifier FE)} {s s' : FComVerifier FE} {h h' : Stream' D}
    {inbox rest : List M} {u : Unit}
    (hrun : Proc.run (FComVerifier.checkZero C keys s h) inbox = some (((u, s'), h'), rest)) :
    ∃ msg, inbox = msg :: rest ∧ CanonicalSerialize.ofMsg msg =
      some (linComb (zeroChis C FE h keys.length) (keys.map MacVerifier.mac)) ∧
      s' = s ∧ h' = h.tail := by
  unfold FComVerifier.checkZero writeSerializable EdaBitGen.random at hrun
  simp only [bind_apply, draw_apply, write_apply, flush_apply, pure_apply, Proc.pure_bind',
    Proc.send_bind, Proc.flush_bind, Proc.run_send, Proc.run_flush] at hrun
  rw [Proc.run_bind_eq_some] at hrun
  obtain ⟨⟨⟨m, s₁⟩, h₁⟩, mid, hm, hrun⟩ := hrun
  obtain ⟨msg, rfl, hmsg, rfl, rfl⟩ := run_readSerializable_eq_some.1 hm
  obtain ⟨hcheck, rfl, rfl, rfl⟩ := run_assert_eq_some.1 hrun
  exact ⟨msg, rfl, hmsg.trans (congrArg some hcheck.symm), rfl, rfl⟩

/-- On a fixed list of messages the verifier accepts values whose combination is not zero for at
most one `Δ`. -/
theorem checkZero_binding (batch : List (MacProver PF FE)) (inbox : List M)
    (pool : FE → Pool (MacVerifier FE)) (h : Stream' D)
    (hne : linComb (zeroChis C FE h batch.length)
      (batch.map fun p => algebraMap PF FE p.value) ≠ 0) :
    {Δ : FE | ∃ r, Proc.run (FComVerifier.checkZero C (batch.map (MacProver.key Δ))
      ⟨Δ, pool Δ⟩ h) inbox = some r}.encard ≤ 1 := by
  by_cases hacc : ∃ msg rest m, inbox = msg :: rest ∧
      CanonicalSerialize.ofMsg msg = some (m : FE)
  · obtain ⟨msg, rest, m, rfl, hmsg⟩ := hacc
    refine le_trans (Set.encard_le_encard ?_) (Roots.encard_affine_le_one
      (a := m - linComb (zeroChis C FE h batch.length) (batch.map MacProver.mac)) hne)
    rintro Δ ⟨⟨⟨⟨u, t⟩, g'⟩, rest'⟩, hrun⟩
    obtain ⟨msg', hinbox, hmsg', -⟩ := run_checkZero C hrun
    obtain ⟨rfl, rfl⟩ := List.cons.inj hinbox
    rw [hmsg, Option.some.injEq, linComb_key, List.length_map] at hmsg'
    change _ + _ * Δ = 0
    linear_combination hmsg'
  · refine (Set.encard_eq_zero.2 (Set.eq_empty_of_forall_notMem ?_)).trans_le zero_le_one
    rintro Δ ⟨⟨⟨⟨u, t⟩, g'⟩, rest⟩, hrun⟩
    obtain ⟨msg, hinbox, hmsg, -⟩ := run_checkZero C hrun
    exact hacc ⟨msg, rest, _, hinbox, hmsg⟩

/-- The honest opening returns the committed values and the honest prover's zero check ends well
iff they are all zero, in which case the verifier accepts; what a prover sends to the verifier
instead is accepted for at most one `Δ`, unless the challenges make a combination vanish: of the
differences from the committed values in an opening, of the values in a zero check. -/
theorem open_checkZero_binding [DecidableEq PF] [CanonicalSerialize M PF]
    (batch : List (MacProver PF FE)) :
    (∀ (Δ : FE) (s : FComProver PF FE) (g : G) (h : Stream' D),
      Lockstep (FComProver.openMacs C batch s g)
        (FComVerifier.openMacs PF C (batch.map (MacProver.key Δ)) (s.keys Δ) h)
        fun _ y => y.1.1 = batch.map MacProver.value) ∧
    (∀ (Δ : FE) (s : FComProver PF FE) (g : G) (h : Stream' D), ∃ l r a b,
      Proc.joint (FComProver.checkZero C batch s g)
        (FComVerifier.checkZero C (batch.map (MacProver.key Δ)) (s.keys Δ) h) = .ended l r a b ∧
      (a.isOk ↔ ∀ x ∈ batch, x.value = 0) ∧
      (b.isOk ↔ Δ * linComb (zeroChis C FE h batch.length)
        (batch.map fun p => algebraMap PF FE p.value) = 0) ∧
      ((∀ x ∈ batch, x.value = 0) → b.isOk)) ∧
    (∀ (x' : List PF) (inbox : List M) (pool : FE → Pool (MacVerifier FE)) (h : Stream' D),
      linComb (openChis C FE x' batch.length)
        (List.zipWith (fun x p => algebraMap PF FE (x - p.value)) x' batch) = 0 ∨
      {Δ : FE | ∃ t h' rest, Proc.run (FComVerifier.openMacs PF C (batch.map (MacProver.key Δ))
        ⟨Δ, pool Δ⟩ h) inbox = some (((x', t), h'), rest)}.encard ≤ 1) ∧
    (∀ (inbox : List M) (pool : FE → Pool (MacVerifier FE)) (h : Stream' D),
      linComb (zeroChis C FE h batch.length) (batch.map fun p => algebraMap PF FE p.value) = 0 ∨
      {Δ : FE | ∃ r, Proc.run (FComVerifier.checkZero C (batch.map (MacProver.key Δ))
        ⟨Δ, pool Δ⟩ h) inbox = some r}.encard ≤ 1) := by
  refine ⟨fun Δ s g h => ?_, fun Δ s g h => ?_, fun x' inbox pool h => ?_,
    fun inbox pool h => ?_⟩
  · exact (sync_openMacs C batch s _ rfl g h).mono fun _ _ hx => hx.2
  · have hiff : linComb (zeroChis C FE h batch.length)
        ((batch.map (MacProver.key Δ)).map MacVerifier.mac) =
          linComb (zeroChis C FE h batch.length) (batch.map MacProver.mac) ↔
        Δ * linComb (zeroChis C FE h batch.length)
          (batch.map fun p => algebraMap PF FE p.value) = 0 := by
      rw [linComb_key, sub_eq_self]
    refine ⟨_, _, _, _, joint_checkZero C batch _ s _ g h, ?_, ?_, fun hzero => ?_⟩
    · exact isOk_ite _ _ _
    · rw [isOk_ite, List.length_map, hiff]
    · rw [isOk_ite, List.length_map, hiff, linComb_values_eq_zero hzero, mul_zero]
  · exact or_iff_not_imp_left.2 fun hne => openMacs_binding C batch x' inbox pool h hne
  · exact or_iff_not_imp_left.2 fun hne => checkZero_binding C batch inbox pool h hne

end CheckZero

end EdaBitGen
