import EdaBitGen.Backend.Checks

/-!
# A prover that knows the challenge

The challenge of the multiplication check is sent before the products are committed, and `reset`
keeps it.  A prover that adds to the products of a round values whose sum with the powers of the
challenge vanishes passes the check of the round.
-/

namespace EdaBitGen

open Interaction Party

/-- How many triples the circuit pushes before it checks or drops them. -/
def ahead {PF : Type} : List (Gate PF) → ℕ
  | [] => 0
  | .mul _ _ :: gates => ahead gates + 1
  | .finalize :: _ => 0
  | .reset :: _ => 0
  | _ :: gates => ahead gates

section Shifts

variable (PF FE : Type) [Field PF] [Field FE] [Algebra PF FE] [FiniteField PF FE]

/-- A round of `n` triples in which no prover can cheat. -/
def SafeRound (n : ℕ) : Prop :=
  n = 0 ∨ (n ≤ FiniteField.degree PF FE ∧ 2 < Nat.card FE)

theorem finrank_eq_degree : Module.finrank PF FE = FiniteField.degree PF FE := by
  rw [← (@FiniteField.fromSubfield PF FE _ _ _ _).finrank_eq, Module.finrank_fin_fun]

variable {PF FE}

theorem exists_shifts (chi : FE) (n : ℕ) :
    ∃ cs : List PF, cs.length = n ∧ (¬SafeRound PF FE n → ∃ c ∈ cs, c ≠ 0) ∧
      ∀ Δ : FE, Roots.powerSum chi (cs.map (algebraMap PF FE)) * (Δ ^ 2 - Δ) = 0 := by
  have hfin : Finite FE := @FiniteField.finite PF FE _ _ _ _
  have : FiniteDimensional PF FE := Module.Finite.equiv FiniteField.fromSubfield
  by_cases hdeg : FiniteField.degree PF FE < n
  · rw [← finrank_eq_degree] at hdeg
    obtain ⟨cs, hlen, hne, hsum⟩ := Roots.exists_powerSum_eq_zero chi hdeg
    exact ⟨cs, hlen, fun _ => hne, fun Δ => by rw [hsum, zero_mul]⟩
  by_cases hcard : Nat.card FE ≤ 2
  · refine ⟨List.replicate n 1, List.length_replicate, fun hn => ⟨1, ?_, one_ne_zero⟩, fun Δ => ?_⟩
    · exact List.mem_replicate.2 ⟨fun h0 => hn (Or.inl h0), rfl⟩
    · rw [Roots.sq_sub_self_eq_zero hcard, mul_zero]
  · refine ⟨List.replicate n 0, List.length_replicate, fun hn => ?_, fun Δ => ?_⟩
    · exact absurd (Or.inr ⟨not_lt.1 hdeg, not_le.1 hcard⟩) hn
    · rw [Roots.powerSum_eq_zero_of_forall chi (by simp), zero_mul]

end Shifts

/-! ## The cheating prover -/

section Cheat

variable {M D G PF FE : Type} [Field PF] [Field FE] [Algebra PF FE] [FiniteField PF FE]

noncomputable def shifts (chi : FE) (n : ℕ) : List PF :=
  (exists_shifts chi n).choose

@[simp] theorem length_shifts (chi : FE) (n : ℕ) : (shifts chi n : List PF).length = n :=
  (exists_shifts chi n).choose_spec.1

theorem shifts_ne_zero (chi : FE) {n : ℕ} (hn : ¬SafeRound PF FE n) :
    ∃ c ∈ (shifts chi n : List PF), c ≠ 0 :=
  (exists_shifts chi n).choose_spec.2.1 hn

theorem powerSum_shifts (chi : FE) (n : ℕ) (Δ : FE) :
    Roots.powerSum chi ((shifts chi n : List PF).map (algebraMap PF FE)) * (Δ ^ 2 - Δ) = 0 :=
  (exists_shifts chi n).choose_spec.2.2 Δ

/-- The keys of what a prover's run has produced. -/
def Trace.keys (Δ : FE) (tr : Trace (MacProver PF FE)) : Trace (MacVerifier FE) :=
  ⟨tr.wires.map (MacProver.key Δ), tr.pushed.map (TripleProver.keys Δ),
    tr.checked.map (List.map (TripleProver.keys Δ))⟩

omit [FiniteField PF FE] in
theorem Trace.keys_wire (Δ : FE) (tr : Trace (MacProver PF FE)) (w : MacProver PF FE) :
    Trace.keys Δ { tr with wires := tr.wires ++ [w] } =
      { tr.keys Δ with wires := (tr.keys Δ).wires ++ [w.key Δ] } := by
  simp [Trace.keys]

variable [DecidableEq PF] [CanonicalSerialize M PF] [CanonicalSerialize M FE]
  [CanonicalSerialize M Block] [Random D FE] (C : Primitives M D)

/-- The messages of a finalization, with the sum of the defects taken from the second one. -/
def cheatFinalize (chi : FE) (pushed : List (TripleProver PF FE)) :
    Party M G (FComProver PF FE) Unit := do
  let sums := FComProver.multSums chi (0, 0, chi) pushed
  let mask ← FComProver.vope
  writeSerializable (sums.1 + mask.2)
  writeSerializable (sums.2.1 + mask.1 - Roots.powerSum chi (pushed.map TripleProver.defect))
  flush

/-- The honest prover of a circuit, except that the shifts `es` are taken from its products. -/
noncomputable def cheat (chi : FE) :
    List (Gate PF) → Trace (MacProver PF FE) → List PF →
      Party M G (FComProver PF FE) (Trace (MacProver PF FE))
  | [], tr, _ => pure tr
  | .inputPublic value :: gates, tr, es =>
    cheat chi gates { tr with wires := tr.wires ++ [⟨value, 0⟩] } es
  | .inputPrivate :: gates, tr, es => do
    let tag ← FComProver.input1 0
    cheat chi gates { tr with wires := tr.wires ++ [⟨0, tag⟩] } es
  | .add i j :: gates, tr, es =>
    cheat chi gates { tr with wires := tr.wires ++
      [FComProver.add (tr.wires.getD i default) (tr.wires.getD j default)] } es
  | .addc i c :: gates, tr, es =>
    cheat chi gates { tr with wires := tr.wires ++
      [FComProver.affineAddCst c (tr.wires.getD i default)] } es
  | .mulc i c :: gates, tr, es =>
    cheat chi gates { tr with wires := tr.wires ++
      [FComProver.affineMultCst c (tr.wires.getD i default)] } es
  | .mul i j :: gates, tr, es => do
    let a := tr.wires.getD i default
    let b := tr.wires.getD j default
    let z := a.value * b.value - es.headD 0
    let tag ← FComProver.input1 z
    cheat chi gates { tr with
      wires := tr.wires ++ [⟨z, tag⟩]
      pushed := tr.pushed ++ [(a, b, ⟨z, tag⟩)] } es.tail
  | .finalize :: gates, tr, _ => do
    FComProver.checkZero C []
    cheatFinalize chi tr.pushed
    cheat chi gates { tr with pushed := [], checked := tr.checked ++ [tr.pushed] }
      (shifts chi (ahead gates))
  | .reset :: gates, tr, _ =>
    cheat chi gates { tr with pushed := [] } (shifts chi (ahead gates))

/-- The whole strategy: read the challenge first. -/
noncomputable def cheater (s : FComProver PF FE) (gates : List (Gate PF)) :
    Proc M (((Trace (MacProver PF FE)) × FComProver PF FE) × Unit) := do
  let ((chi, _), _) ← (readSerializable : Party M Unit Unit FE) () ()
  cheat C chi gates ⟨[], [], []⟩ (shifts chi (ahead gates)) s ()

end Cheat

/-! ## The cheating prover against the verifier -/

section Step

variable {M D G PF FE : Type} [Field PF] [Field FE] [Algebra PF FE] [FiniteField PF FE]
  [DecidableEq PF] [DecidableEq FE] [CanonicalSerialize M PF] [CanonicalSerialize M FE]
  [CanonicalSerialize M Block] [Random D FE] [Random D Block] (C : Primitives M D)

open DietMacAndCheeseVerifier

/-- The verifier under the keys of the prover, whose multiplication check is in the state `st`. -/
def Holds (Δ : FE) (st : StateMultCheckVerifier FE) (s : FComProver PF FE)
    (v : DietMacAndCheeseVerifier FE) : Prop :=
  v = ⟨s.keys Δ, [], st⟩

variable {chi Δ : FE} {st : StateMultCheckVerifier FE}

omit [FiniteField PF FE] [DecidableEq PF] [DecidableEq FE] [CanonicalSerialize M PF]
  [CanonicalSerialize M FE] [CanonicalSerialize M Block] [Random D FE] [Random D Block] in
theorem Holds.zoom {α β : Type} {P : Party M G (FComProver PF FE) α}
    {Q : Party M (Stream' D) (FComVerifier FE) β} {post : α → β → Prop}
    (h : Sync (Correlated Δ) P Q post) :
    Sync (Holds Δ st) P (Party.zoom lens Q) post := by
  refine h.zoom_right ?_ ?_
  · rintro s _ rfl
    rfl
  · rintro s _ s' _ rfl rfl
    rfl

omit [DecidableEq PF] [CanonicalSerialize M PF] [CanonicalSerialize M Block] [Random D FE]
  [Random D Block] in
theorem sync_cheatFinalize (s₀ : FComProver PF FE) {pushed : List (TripleProver PF FE)}
    (h : Roots.powerSum chi (pushed.map TripleProver.defect) * (Δ ^ 2 - Δ) = 0) :
    Sync (Correlated Δ) (cheatFinalize chi pushed : Party M G (FComProver PF FE) Unit)
      (FComVerifier.quicksilverFinalize PF ((pushed.map (TripleProver.keys Δ)).foldl
        (s₀.keys Δ).quicksilverPush ⟨0, chi, chi, 0⟩) : Party M (Stream' D) _ _)
      fun _ r => r.2 = ⟨0, chi, chi, 0⟩ := by
  unfold cheatFinalize FComVerifier.quicksilverFinalize
  refine Sync.get_right fun s t hst => sync_vope.bind fun mask k hk => ?_
  refine Sync.write_readSerializable (Sync.write_readSerializable ?_)
  rw [← bind_pure flush]
  refine Sync.flush_left ?_
  rw [show t.delta = Δ by rw [hst, FComProver.keys_delta], hk]
  dsimp only
  rw [assert_true, pure_bind]
  · exact Sync.pure (reset_foldl_quicksilverPush _ _ _)
  · refine check_iff_quadratic.2 ?_
    linear_combination h

omit [DecidableEq PF] [CanonicalSerialize M PF] [CanonicalSerialize M Block] [Random D FE]
  [Random D Block] in
theorem lockstep_doMultCheck (s : FComProver PF FE) (g : G) (h : Stream' D)
    {pushed : List (TripleProver PF FE)}
    (hsum : Roots.powerSum chi (pushed.map TripleProver.defect) * (Δ ^ 2 - Δ) = 0) :
    Lockstep (cheatFinalize chi pushed s g : Proc M _)
      (doMultCheck PF ⟨s.keys Δ, [], (pushed.map (TripleProver.keys Δ)).foldl
        (s.keys Δ).quicksilverPush ⟨0, chi, chi, 0⟩⟩ h)
      fun x y => y.1.2 = ⟨x.1.2.keys Δ, [], ⟨0, chi, chi, 0⟩⟩ := by
  have hsync : Sync (Holds Δ ((pushed.map (TripleProver.keys Δ)).foldl
      (s.keys Δ).quicksilverPush ⟨0, chi, chi, 0⟩))
      (cheatFinalize chi pushed : Party M G (FComProver PF FE) Unit)
      (do
        flush
        let self ← get
        zoom lens (FComVerifier.quicksilverFinalize PF self.stateMultCheck) :
          Party M (Stream' D) _ _) fun _ r => r.2 = ⟨0, chi, chi, 0⟩ := by
    refine Sync.flush_right (Sync.get_right fun s' v hv => ?_)
    rw [show v = _ from hv]
    exact Holds.zoom (sync_cheatFinalize s hsum)
  have hsplit : doMultCheck PF = ((do
        flush
        let self ← get
        zoom lens (FComVerifier.quicksilverFinalize PF self.stateMultCheck) :
          Party M (Stream' D) (DietMacAndCheeseVerifier FE) _) >>= fun r => do
      act fun self => ((), { self with stateMultCheck := r.2 })
      pure r.1) := by
    simp only [doMultCheck, bind_assoc]
  rw [hsplit, bind_apply, ← Proc.bind_pure' (cheatFinalize chi pushed s g)]
  refine (hsync s _ rfl g h).bind fun x y hxy => Lockstep.pure ?_
  obtain ⟨hv, hr⟩ := hxy
  simp only [show y.1.2 = _ from hv, hr]

omit [CanonicalSerialize M PF] in
theorem lockstep_finalize (s : FComProver PF FE) (g : G) (h : Stream' D)
    {tr : Trace (MacProver PF FE)}
    (hsum : Roots.powerSum chi (tr.pushed.map TripleProver.defect) * (Δ ^ 2 - Δ) = 0) :
    Lockstep ((do FComProver.checkZero C []; cheatFinalize chi tr.pushed :
        Party M G (FComProver PF FE) Unit) s g)
      (finalize PF C (after chi (s.keys Δ) (tr.keys Δ)) h)
      fun x y => y.1.2 = ⟨x.1.2.keys Δ, [], ⟨0, chi, chi, 0⟩⟩ := by
  have hzero : ∀ st, Sync (Holds Δ st)
      (FComProver.checkZero C [] : Party M G (FComProver PF FE) Unit)
      (flush >>= fun _ => doCheckZero C) fun _ _ => True := by
    intro st
    refine Sync.flush_right (Sync.flush_right (Sync.get_right fun s' v hv => ?_))
    rw [show v = _ from hv, ← bind_pure (FComProver.checkZero C [])]
    refine (Holds.zoom (sync_checkZero C (by simp))).bind fun _ _ _ s₁ v₁ hv₁ g₁ h₁ => ?_
    rw [show v₁ = _ from hv₁]
    exact Lockstep.pure ⟨rfl, trivial⟩
  have hsplit : (finalize PF C : Party M (Stream' D) (DietMacAndCheeseVerifier FE) Unit) =
      (flush >>= fun _ => doCheckZero C) >>= fun _ => doMultCheck PF >>= fun _ => pure () := by
    rw [bind_assoc]
    rfl
  rw [hsplit, bind_apply, bind_apply]
  refine (hzero _ s _ rfl g h).bind fun x y hxy => ?_
  rw [show y.1.2 = _ from hxy.1, bind_apply,
    ← Proc.bind_pure' (cheatFinalize chi tr.pushed x.1.2 x.2)]
  refine (lockstep_doMultCheck x.1.2 x.2 y.2 hsum).bind fun x' y' hxy' => ?_
  exact Lockstep.pure hxy'

/-! ### The whole circuit -/

/-- Some checked triple is no product. -/
def Wrong (checked : List (List (TripleProver PF FE))) : Prop :=
  ∃ round ∈ checked, ∃ t ∈ round, t.2.2.value ≠ t.1.value * t.2.1.value

/-- The defects of the triples that are pushed and the shifts that are left are the shifts of the
round. -/
def Planned (chi : FE) (gates : List (Gate PF)) (pushed : List (TripleProver PF FE))
    (es : List PF) : Prop :=
  pushed.map TripleProver.defect ++ es.map (algebraMap PF FE) =
    (shifts chi (pushed.length + ahead gates) : List PF).map (algebraMap PF FE)

omit [DecidableEq PF] [DecidableEq FE] in
theorem Planned.start (chi : FE) (gates : List (Gate PF)) :
    Planned chi gates [] (shifts chi (ahead gates) : List PF) := by
  simp [Planned]

omit [DecidableEq PF] [DecidableEq FE] in
theorem Planned.finalize {gates : List (Gate PF)} {pushed : List (TripleProver PF FE)}
    {es : List PF} (h : Planned chi (.finalize :: gates) pushed es) :
    pushed.map TripleProver.defect =
      (shifts chi pushed.length : List PF).map (algebraMap PF FE) := by
  have hlen := congrArg List.length h
  simp only [ahead, List.length_append, List.length_map, length_shifts, add_zero] at hlen
  have hes : es = [] := List.eq_nil_of_length_eq_zero (by omega)
  simpa [Planned, hes, ahead] using h

omit [DecidableEq PF] [DecidableEq FE] in
theorem Planned.mul {i j : ℕ} {gates : List (Gate PF)} {pushed : List (TripleProver PF FE)}
    {es : List PF} (h : Planned chi (.mul i j :: gates) pushed es) (a b : MacProver PF FE) (tag : FE) :
    Planned chi gates (pushed ++ [(a, b, ⟨a.value * b.value - es.headD 0, tag⟩)]) es.tail := by
  have hlen := congrArg List.length h
  simp only [ahead, List.length_append, List.length_map, length_shifts] at hlen
  cases es with
  | nil => simp only [List.length_nil] at hlen; omega
  | cons e es =>
    have hdefect : TripleProver.defect (a, b, (⟨a.value * b.value - e, tag⟩ : MacProver PF FE)) =
        algebraMap PF FE e := by simp [TripleProver.defect]
    have hsize : pushed.length + 1 + ahead gates = pushed.length + (ahead gates + 1) := by omega
    simp only [Planned, ahead, List.map_append, List.map_cons, List.map_nil, List.headD_cons,
      List.tail_cons, List.append_assoc, List.singleton_append, List.length_append,
      List.length_singleton, hdefect, hsize] at h ⊢
    exact h

omit [DecidableEq PF] [DecidableEq FE] in
theorem exists_wrong {pushed : List (TripleProver PF FE)}
    (h : pushed.map TripleProver.defect =
      (shifts chi pushed.length : List PF).map (algebraMap PF FE))
    (hn : ¬SafeRound PF FE pushed.length) :
    ∃ t ∈ pushed, t.2.2.value ≠ t.1.value * t.2.1.value := by
  obtain ⟨c, hc, hne⟩ := shifts_ne_zero chi hn
  obtain ⟨t, ht, htc⟩ := List.mem_map.1 (h ▸ List.mem_map_of_mem hc)
  refine ⟨t, ht, fun heq => hne ?_⟩
  rw [TripleProver.defect, heq, sub_self, map_zero] at htc
  exact (algebraMap PF FE).injective (by rw [← htc, map_zero])

omit [DecidableEq PF] in
theorem lockstep_wire {α : Type} {P : Proc M α} {gt : Gate PF} {gates : List (Gate PF)}
    {tr : Trace (MacProver PF FE)} {v : DietMacAndCheeseVerifier FE} {h : Stream' D}
    {R : α → (Trace (MacVerifier FE) × DietMacAndCheeseVerifier FE) × Stream' D → Prop}
    (w : MacProver PF FE)
    (hgate : gate C (tr.keys Δ) gt v h =
      Proc.pure (({ tr.keys Δ with wires := (tr.keys Δ).wires ++ [w.key Δ] }, v), h))
    (hgates : Lockstep P (gates.foldlM (gate C)
      (Trace.keys Δ { tr with wires := tr.wires ++ [w] }) v h) R) :
    Lockstep P ((gt :: gates).foldlM (gate C) (tr.keys Δ) v h) R := by
  rw [List.foldlM_cons, bind_apply, hgate, Proc.pure_bind', ← Trace.keys_wire]
  exact hgates

theorem lockstep_cheat (gates : List (Gate PF)) (tr : Trace (MacProver PF FE)) (es : List PF)
    (hplan : Planned chi gates tr.pushed es) (s : FComProver PF FE) (g : G) (h : Stream' D) :
    Lockstep (cheat C chi gates tr es s g)
      (gates.foldlM (gate C) (tr.keys Δ) (after chi (s.keys Δ) (tr.keys Δ)) h)
      fun x y => y.1.1 = x.1.1.keys Δ ∧
        (Wrong tr.checked ∨ (∃ n ∈ roundSizes tr.pushed.length gates, ¬SafeRound PF FE n) →
          Wrong x.1.1.checked) := by
  induction gates generalizing tr es s g h with
  | nil =>
    refine Lockstep.pure ⟨rfl, fun hw => hw.resolve_right ?_⟩
    rintro ⟨n, hn, -⟩
    exact List.not_mem_nil hn
  | cons gt gates ih =>
    cases gt with
    | inputPublic value =>
      refine lockstep_wire C ⟨value, 0⟩ ?_
        (ih { tr with wires := tr.wires ++ [⟨value, 0⟩] } es hplan s g h)
      simp only [MacProver.key, zero_sub, ← neg_smul]
      rfl
    | add i j =>
      let w := FComProver.add (tr.wires.getD i default) (tr.wires.getD j default)
      refine lockstep_wire C w ?_ (ih { tr with wires := tr.wires ++ [w] } es hplan s g h)
      simp only [w]
      rw [FComProver.key_add, ← key_getD, ← key_getD]
      rfl
    | addc i c =>
      let w := FComProver.affineAddCst c (tr.wires.getD i default)
      refine lockstep_wire C w ?_ (ih { tr with wires := tr.wires ++ [w] } es hplan s g h)
      simp only [w]
      rw [FComProver.key_affineAddCst Δ s, ← key_getD]
      rfl
    | mulc i c =>
      let w := FComProver.affineMultCst c (tr.wires.getD i default)
      refine lockstep_wire C w ?_ (ih { tr with wires := tr.wires ++ [w] } es hplan s g h)
      simp only [w]
      rw [FComProver.key_affineMultCst, ← key_getD]
      rfl
    | inputPrivate =>
      simp only [cheat, List.foldlM_cons, gate, inputPrivate, bind_assoc, pure_bind]
      rw [bind_apply, bind_apply]
      refine (Holds.zoom (sync_input1 0) s _ rfl g h).bind ?_
      rintro ⟨⟨tag, s'⟩, g'⟩ ⟨⟨_, _⟩, h'⟩ ⟨rfl, rfl⟩
      have hnext := ih { tr with wires := tr.wires ++ [⟨0, tag⟩] } es hplan s' g' h'
      rw [Trace.keys_wire] at hnext
      exact hnext
    | mul i j =>
      let a := tr.wires.getD i default
      let b := tr.wires.getD j default
      let z := a.value * b.value - es.headD 0
      simp only [cheat, List.foldlM_cons, gate, DietMacAndCheeseVerifier.mul, bind_assoc, pure_bind]
      rw [bind_apply, bind_apply]
      refine (Holds.zoom (sync_input1 z) s _ rfl g h).bind ?_
      rintro ⟨⟨tag, s'⟩, g'⟩ ⟨⟨_, _⟩, h'⟩ ⟨rfl, rfl⟩
      have hnext := ih { tr with
        wires := tr.wires ++ [⟨z, tag⟩]
        pushed := tr.pushed ++ [(a, b, ⟨z, tag⟩)] } es.tail (hplan.mul a b tag) s' g' h'
      have hkeys : Trace.keys Δ { tr with
          wires := tr.wires ++ [⟨z, tag⟩], pushed := tr.pushed ++ [(a, b, ⟨z, tag⟩)] } =
          { tr.keys Δ with
            wires := (tr.keys Δ).wires ++ [(⟨z, tag⟩ : MacProver PF FE).key Δ]
            pushed := (tr.keys Δ).pushed ++ [((tr.keys Δ).wires.getD i default,
              (tr.keys Δ).wires.getD j default, (⟨z, tag⟩ : MacProver PF FE).key Δ)] } := by
        simp only [Trace.keys, TripleProver.keys, key_getD, a, b, List.map_append, List.map_cons,
          List.map_nil]
      rw [hkeys] at hnext
      simp only [after, List.foldl_append] at hnext
      rw [List.length_append] at hnext
      exact hnext
    | finalize =>
      have hdefects := hplan.finalize
      have hsum : Roots.powerSum chi (tr.pushed.map TripleProver.defect) * (Δ ^ 2 - Δ) = 0 := by
        rw [hdefects, powerSum_shifts]
      simp only [cheat, List.foldlM_cons, gate, bind_assoc, pure_bind]
      rw [← bind_assoc, bind_apply, bind_apply]
      refine (lockstep_finalize C s g h hsum).bind ?_
      rintro ⟨⟨_, s'⟩, g'⟩ ⟨⟨_, _⟩, h'⟩ rfl
      have hnext := ih { tr with pushed := [], checked := tr.checked ++ [tr.pushed] } _
        (Planned.start chi gates) s' g' h'
      have hkeys : Trace.keys Δ { tr with pushed := [], checked := tr.checked ++ [tr.pushed] } =
          { tr.keys Δ with pushed := [], checked := (tr.keys Δ).checked ++ [(tr.keys Δ).pushed] } := by
        simp [Trace.keys]
      rw [hkeys] at hnext
      refine hnext.mono fun x y hxy => ⟨hxy.1, fun hw => hxy.2 ?_⟩
      rcases hw with ⟨round, hround, ht⟩ | ⟨n, hn, hunsafe⟩
      · exact Or.inl ⟨round, List.mem_append_left _ hround, ht⟩
      · rcases List.mem_cons.1 hn with rfl | hn
        · exact Or.inl ⟨tr.pushed, List.mem_append_right _ (List.mem_singleton_self _),
            exists_wrong hdefects hunsafe⟩
        · exact Or.inr ⟨n, hn, hunsafe⟩
    | reset =>
      have hnext := ih { tr with pushed := [] } _ (Planned.start chi gates) s g h
      simp only [List.foldlM_cons, gate, bind_assoc, pure_bind]
      rw [bind_apply, act_apply, Proc.pure_bind']
      have hreset : DietMacAndCheeseVerifier.reset (after chi (s.keys Δ) (tr.keys Δ)) =
          after chi (s.keys Δ) { tr.keys Δ with pushed := [] } :=
        congrArg (DietMacAndCheeseVerifier.mk (s.keys Δ) [])
          (reset_foldl_quicksilverPush (s.keys Δ) chi (tr.keys Δ).pushed)
      rw [hreset]
      exact hnext

end Step

end EdaBitGen
