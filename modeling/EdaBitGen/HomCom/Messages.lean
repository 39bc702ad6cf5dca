import EdaBitGen.HomCom.Calls
import EdaBitGen.HomCom.Multiply
import EdaBitGen.HomCom.Open

/-!
# The messages of a prover and what they commit to

The corrections of an input commit to values whatever `Δ` is.  A prover that knows the committed
values has messages that open them, and messages that pass the multiplication check on products,
again whatever `Δ` is.
-/

namespace EdaBitGen

open Interaction Party

variable {M D G PF FE : Type} [Field PF] [Field FE] [Algebra PF FE]

/-! ## Inputs -/

namespace FComProver

/-- The MACs that corrections commit to, on the next voles. -/
def committed (s : FComProver PF FE) (cs : List PF) : List (MacProver PF FE) :=
  List.zipWith (fun r c => ⟨r.value + c, r.mac⟩) (s.pool.draws cs.length).1 cs

/-- The corrections that commit to the values `x`. -/
def corrections (s : FComProver PF FE) (x : List PF) : List PF :=
  List.zipWith (fun r xi => xi - r.value) (s.pool.draws x.length).1 x

/-- The state after `n` voles. -/
def skip (s : FComProver PF FE) (n : ℕ) : FComProver PF FE := ⟨(s.pool.draws n).2⟩

omit [Field FE] [Algebra PF FE] in
theorem length_corrections (s : FComProver PF FE) (x : List PF) :
    (s.corrections x).length = x.length := by
  simp [corrections, Pool.length_draws]

omit [Field FE] [Algebra PF FE] in
theorem values_committed (s : FComProver PF FE) (x : List PF) :
    (s.committed (s.corrections x)).map MacProver.value = x := by
  have hzip : ∀ (rs : List (MacProver PF FE)) (x : List PF), rs.length = x.length →
      (List.zipWith (fun r c => (⟨r.value + c, r.mac⟩ : MacProver PF FE)) rs
        (List.zipWith (fun r xi => xi - r.value) rs x)).map MacProver.value = x := by
    intro rs
    induction rs with
    | nil => intro x h; simp [List.eq_nil_of_length_eq_zero h.symm]
    | cons r rs ih =>
      intro x h
      cases x with
      | nil => simp at h
      | cons xi x => simpa using ih x (by simpa using h)
  unfold committed
  rw [length_corrections]
  exact hzip _ x (Pool.length_draws _ _)

end FComProver

theorem emits_randoms_keys (s : FComProver PF FE) (Δ : FE) {γ : Type} (ys : List γ) :
    Emits (ys.mapM fun _ => (FComVerifier.random : Party M G (FComVerifier FE) _)) (s.keys Δ)
      ((s.pool.draws ys.length).1.map (MacProver.key Δ)) ((s.skip ys.length).keys Δ) := by
  induction ys generalizing s with
  | nil => exact Emits.pure
  | cons y ys ih =>
    rw [List.mapM_cons]
    exact (emits_random_keys s Δ).bind ((ih ⟨s.pool.draw.2⟩).bind Emits.pure)

theorem run_input_iff [CanonicalSerialize M PF] (s : FComProver PF FE) (Δ : FE) (n : ℕ) (g : G)
    (inbox : List M) (r : _) :
    Proc.run (FComVerifier.input PF n (s.keys Δ) g) inbox = some r ↔
      ∃ m rest, ∃ cs : List PF, inbox = m :: rest ∧ CanonicalSerialize.seqOfMsg m = some cs ∧
        cs.length = n ∧
        r = ((((s.committed cs).map (MacProver.key Δ), (s.skip n).keys Δ), g), rest) := by
  have hrandoms := @emits_randoms_keys M G PF FE _ _ _ s Δ ℕ (List.range n)
  rw [List.length_range] at hrandoms
  unfold FComVerifier.input FComVerifier.inputLowLevel readSerializableSeq
  rw [assert_true rfl, pure_bind, bind_apply, Proc.run_bind, hrandoms, Option.bind_some, bind_assoc]
  cases inbox with
  | nil => simp [bind_apply]
  | cons m rest =>
    rw [bind_apply, read_apply, Proc.recv_bind, Proc.run_recv_cons, Proc.pure_bind']
    cases hm : (CanonicalSerialize.seqOfMsg m : Option (List PF)) with
    | none => simp [hm]
    | some cs =>
      by_cases hn : cs.length = n
      · subst hn
        have hkeys : List.zipWith (fun o c => (⟨o.mac - c • Δ⟩ : MacVerifier FE))
            ((s.pool.draws cs.length).1.map (MacProver.key Δ)) cs =
              (s.committed cs).map (MacProver.key Δ) := by
          rw [FComProver.committed, List.zipWith_map_left, List.map_zipWith]
          simp only [MacProver.key, add_smul, sub_add_eq_sub_sub]
        simp only [assert_true, pure_bind]
        rw [bind_apply, get_apply, Proc.pure_bind', pure_apply, Proc.run_pure, FComProver.keys_delta,
          List.nil_append, hkeys]
        constructor
        · intro hr
          exact ⟨m, rest, cs, rfl, hm, rfl, (Option.some.inj hr).symm⟩
        · rintro ⟨_, _, cs', hinbox, hcs', -, rfl⟩
          obtain ⟨rfl, rfl⟩ := List.cons.inj hinbox
          obtain rfl : cs = cs' := by simpa [hm] using hcs'
          rfl
      · simp only [assert_false hn, abort_bind, abort_apply, Proc.run_fail]
        constructor
        · intro hr
          cases hr
        · rintro ⟨_, _, cs', hinbox, hcs', hn', -⟩
          obtain ⟨rfl, rfl⟩ := List.cons.inj hinbox
          obtain rfl : cs = cs' := by simpa [hm] using hcs'
          exact absurd hn' hn

theorem length_of_run_readSerializableSeq {X σ : Type} [CanonicalSerialize M X] {n : ℕ} {s s' : σ}
    {g g' : G} {inbox rest : List M} {xs : List X}
    (h : Proc.run ((readSerializableSeq n : Party M G σ (List X)) s g) inbox =
      some (((xs, s'), g'), rest)) : xs.length = n := by
  unfold readSerializableSeq at h
  obtain ⟨m, s₁, g₁, mid, -, h⟩ := run_bind_eq_some.1 h
  cases hm : (CanonicalSerialize.seqOfMsg m : Option (List X)) with
  | none => simp [hm] at h
  | some ys =>
    rw [hm] at h
    obtain ⟨_, s₂, g₂, mid₂, hassert, h⟩ := run_bind_eq_some.1 h
    rw [(run_pure_eq_some.1 h).1]
    exact (run_assert_eq_some.1 hassert).1

theorem length_of_run_input [CanonicalSerialize M PF] {n : ℕ} {t t' : FComVerifier FE} {g g' : G}
    {inbox rest : List M} {ks : List (MacVerifier FE)}
    (h : Proc.run (FComVerifier.input PF n t g) inbox = some (((ks, t'), g'), rest)) :
    ks.length = n := by
  unfold FComVerifier.input FComVerifier.inputLowLevel at h
  rw [assert_true rfl, pure_bind] at h
  obtain ⟨rs, t₁, g₁, mid, hrs, h⟩ := run_bind_eq_some.1 h
  obtain ⟨cs, t₂, g₂, mid₂, hcs, h⟩ := run_bind_eq_some.1 h
  rw [run_get_bind, run_pure_eq_some] at h
  rw [h.1]
  simp [length_of_run_mapM hrs, length_of_run_readSerializableSeq hcs]

theorem run_input_corrections [CanonicalSerialize M PF] (s : FComProver PF FE) (Δ : FE) (x : List PF)
    (g : G) (rest : List M) :
    Proc.run (FComVerifier.input PF x.length (s.keys Δ) g)
        (CanonicalSerialize.seqToMsg (s.corrections x) :: rest) =
      some ((((s.committed (s.corrections x)).map (MacProver.key Δ), (s.skip x.length).keys Δ), g),
        rest) :=
  (run_input_iff s Δ x.length g _ _).2 ⟨_, rest, s.corrections x, rfl,
    CanonicalSerialize.seqOfMsg_seqToMsg _, s.length_corrections x, rfl⟩

/-! ## Openings -/

section Open

variable [DecidableEq FE] [CanonicalSerialize M PF] [CanonicalSerialize M FE] [Random D FE]
  (C : Primitives M D)

/-- The messages that open a batch. -/
def openMsgs (batch : List (MacProver PF FE)) : List M :=
  batch.map (fun x => CanonicalSerialize.toMsg x.value) ++
    [CanonicalSerialize.toMsg (linComb (openChis C FE (batch.map MacProver.value) batch.length)
      (batch.map MacProver.mac))]

omit [Field PF] in
theorem readEach_map {X α : Type} [CanonicalSerialize M X] (f : α → X) (xs : List α)
    (rest : List M) :
    readEach X xs.length (xs.map (fun x => CanonicalSerialize.toMsg (f x)) ++ rest) =
      some (xs.map f, rest) := by
  induction xs with
  | nil => rfl
  | cons x xs ih => simp [readEach, CanonicalSerialize.ofMsg_toMsg, ih]

theorem run_openMsgs (batch : List (MacProver PF FE)) (s : FComVerifier FE) (g : G)
    (rest : List M) :
    Proc.run (FComVerifier.openMacs PF C (batch.map (MacProver.key s.delta)) s g)
        (openMsgs C batch ++ rest) =
      some (((batch.map MacProver.value, s), g), rest) := by
  unfold FComVerifier.openMacs openMsgs
  rw [bind_apply, Proc.run_bind, run_mapM_readSerializable, List.length_map, List.append_assoc,
    readEach_map, Option.map_some, Option.bind_some, bind_apply, Proc.run_bind,
    run_readSerializable]
  simp only [List.cons_append, List.nil_append, CanonicalSerialize.ofMsg_toMsg, Option.map_some,
    Option.bind_some]
  rw [bind_apply, get_apply, Proc.pure_bind', assert_true, pure_bind]
  · rfl
  · rw [linComb_key]
    simp only [openChis, List.map_map, Function.comp_def]
    ring

/-- The values `xs` open the batch only where they are the committed ones. -/
def Binding (xs : List PF) (batch : List (MacProver PF FE)) : Prop :=
  linComb (openChis C FE xs batch.length)
    (List.zipWith (fun x p => algebraMap PF FE (x - p.value)) xs batch) = 0 →
  xs = batch.map MacProver.value

omit [DecidableEq FE] [CanonicalSerialize M FE] in
theorem binding_values (batch : List (MacProver PF FE)) :
    Binding C (batch.map MacProver.value) batch := fun _ => rfl

theorem eq_values_of_forall_run {batch : List (MacProver PF FE)} {xs : List PF}
    (hbinding : Binding C xs batch) {inbox : List M} (pool : FE → Pool (MacVerifier FE)) {g : G}
    (h : ∀ Δ, ∃ t g' rest, Proc.run (FComVerifier.openMacs PF C (batch.map (MacProver.key Δ))
      ⟨Δ, pool Δ⟩ g) inbox = some (((xs, t), g'), rest)) :
    xs = batch.map MacProver.value := by
  apply hbinding
  by_contra hne
  have hle := openMacs_binding C batch xs inbox pool g hne
  rw [Set.eq_univ_of_forall h, Set.encard_le_one_iff] at hle
  exact zero_ne_one (hle 0 1 (Set.mem_univ _) (Set.mem_univ _))

end Open

/-! ## The multiplication check -/

section Check

variable [FiniteField PF FE] [DecidableEq FE] [CanonicalSerialize M FE] [Random D FE]

theorem exists_run_quicksilverCheckMultiply (s : FComProver PF FE)
    {triples : List (TripleProver PF FE)}
    (hmul : ∀ t ∈ triples, t.2.2.value = t.1.value * t.2.1.value) (h : Stream' D) :
    ∃ (msgs : List M) (s' : FComProver PF FE), ∀ (Δ : FE) (rest : List M),
      Proc.run (FComVerifier.quicksilverCheckMultiply PF (triples.map (TripleProver.keys Δ))
        (s.keys Δ) h) (msgs ++ rest) = some ((((), s'.keys Δ), h.tail), rest) := by
  obtain ⟨mask, s', -, hv⟩ := @emits_vope M Unit (Stream' D) PF FE _ _ _ _ s
  let chi : FE := Random.random h.head
  let sums := FComProver.multSums chi (0, 0, chi) triples
  refine ⟨[CanonicalSerialize.toMsg (sums.1 + mask.2), CanonicalSerialize.toMsg (sums.2.1 + mask.1)],
    s', fun Δ rest => ?_⟩
  unfold FComVerifier.quicksilverCheckMultiply writeSerializable EdaBitGen.random
  simp only [bind_apply, draw_apply, write_apply, flush_apply, get_apply, pure_apply,
    Proc.pure_bind', Proc.send_bind, Proc.flush_bind, Proc.run_send, Proc.run_flush]
  rw [Proc.run_bind, hv Δ, Option.bind_some, Proc.run_bind, run_readSerializable]
  simp only [List.cons_append, List.nil_append, CanonicalSerialize.ofMsg_toMsg, Option.map_some,
    Option.bind_some]
  rw [Proc.run_bind, run_readSerializable]
  simp only [CanonicalSerialize.ofMsg_toMsg, Option.map_some, Option.bind_some]
  rw [assert_true]
  · rfl
  · rw [FComProver.keys_delta, multSums_keys_init, sum_defects_eq_zero hmul]
    ring

end Check

end EdaBitGen
