import EdaBitGen.Backend.Attack
import EdaBitGen.Fields

/-!
# When the multiplication check of a circuit is sound

A strategy cheats on a circuit when the verifier accepts it for every `Δ` and every generator
although some checked triple is no product.  The challenge is known before the products are
committed, so only rounds with few triples are safe.
-/

namespace EdaBitGen

open Interaction Party DietMacAndCheeseVerifier

variable {M D PF FE : Type} [Field PF] [Field FE] [Algebra PF FE] [FiniteField PF FE]
  [DecidableEq FE] [CanonicalSerialize M PF] [CanonicalSerialize M FE] [CanonicalSerialize M Block]
  [Random D FE] [Random D Block] (C : Primitives M D)

/-- The verifier accepts the strategy `S` whatever it chooses, although a checked triple, whose keys
it holds, is no product. -/
def Cheats (s : FComProver PF FE) (gates : List (Gate PF)) (S : Proc M Unit) : Prop :=
  ∀ h : Stream' D, ∃ checked : List (List (TripleProver PF FE)), Wrong checked ∧
    ∀ Δ : FE, ∃ toLeft toRight end' tr v h',
      Proc.joint S (circuit C (s.keys Δ) gates h) = .ended toLeft toRight end' (.ok ((tr, v), h')) ∧
        tr.checked = checked.map (List.map (TripleProver.keys Δ))

attribute [local instance] atLeastTwo_two in
/-- No strategy cheats, and for every fixed list of triples of which one is no product, all
challenges but as many as there are triples accept a fixed answer for at most two `Δ`. -/
def MultCheckSound (s : FComProver PF FE) (gates : List (Gate PF)) : Prop :=
  (¬∃ S, Cheats C s gates S) ∧
  ∀ triples : List (TripleProver PF FE),
    (∃ t ∈ triples, t.2.2.value ≠ t.1.value * t.2.1.value) →
    ∀ (inbox : FE → List M) (h : Stream' D),
      {chi : FE | ¬{Δ : FE | ∃ r, Proc.run (FComVerifier.quicksilverFinalize PF
        ((triples.map (TripleProver.keys Δ)).foldl (s.keys Δ).quicksilverPush ⟨0, chi, chi, 0⟩)
        (s.keys Δ) h) (inbox chi) = some r}.encard ≤ 2}.encard ≤ triples.length

/-! ## The start of a circuit -/

theorem circuit_eq (fcom : FComVerifier FE) (gates : List (Gate PF)) (h : Stream' D) :
    (circuit C fcom gates h : Proc M _) =
      .send (CanonicalSerialize.toMsg (Random.random h.head : FE)) (.flush
        (gates.foldlM (gate C) ⟨[], [], []⟩ (after (Random.random h.head) fcom ⟨[], [], []⟩) h.tail)) :=
  rfl

variable (FE) in
theorem says_circuit (gates : List (Gate PF)) (h : Stream' D) :
    ∃ msgs : List M, ∀ (fcom : FComVerifier FE) inbox r, Proc.run (circuit C fcom gates h) inbox = some r →
      Proc.sent (circuit C fcom gates h) inbox = msgs := by
  obtain ⟨msgs, h', hmsgs⟩ := says_gates FE C gates h.tail
  refine ⟨CanonicalSerialize.toMsg (Random.random h.head : FE) :: msgs, ?_⟩
  rintro fcom inbox ⟨⟨⟨tr, v⟩, h₁⟩, rest⟩ hrun
  rw [circuit_eq] at hrun ⊢
  exact congrArg _ (hmsgs _ _ _ _ _ _ _ hrun).1

omit [Field FE] [DecidableEq FE] [CanonicalSerialize M Block] in
theorem lockstep_challenge {α β : Type} {chi : FE} {P : Proc M α} {f : (FE × Unit) × Unit → Proc M β}
    {R : α → β → Prop} (h : Lockstep P (f ((chi, ()), ())) R) :
    Lockstep (.send (CanonicalSerialize.toMsg chi) (.flush P))
      ((readSerializable : Party M Unit Unit FE) () () >>= f) R := by
  rw [readSerializable, bind_apply, read_apply, Proc.recv_bind, Proc.recv_bind]
  refine Lockstep.send_recv (Lockstep.flush_left ?_)
  rw [Proc.pure_bind', CanonicalSerialize.ofMsg_toMsg]
  exact h

theorem lockstep_circuit [DecidableEq PF] (s : FComProver PF FE) (gates : List (Gate PF)) (Δ : FE)
    (h : Stream' D) :
    Lockstep (cheater C s gates) (circuit C (s.keys Δ) gates h) fun x y =>
      y.1.1 = x.1.1.keys Δ ∧
        ((∃ n ∈ roundSizes 0 gates, ¬SafeRound PF FE n) → Wrong x.1.1.checked) := by
  have hcheat := lockstep_cheat C gates ⟨[], [], []⟩ _
    (Planned.start (Random.random h.head) gates) s () h.tail (Δ := Δ)
  rw [circuit_eq]
  refine (lockstep_challenge ?_).swap
  exact hcheat.swap.mono fun y x hxy => ⟨hxy.1, fun hn => hxy.2 (Or.inr hn)⟩

theorem exists_cheats (s : FComProver PF FE) {gates : List (Gate PF)}
    (hgates : ∃ n ∈ roundSizes 0 gates, ¬SafeRound PF FE n) : ∃ S, Cheats C s gates S := by
  classical
  refine ⟨cheater C s gates >>= fun _ => .pure (), fun h => ?_⟩
  obtain ⟨msgs, hsays⟩ := says_circuit FE C gates h
  have hrun : ∀ Δ, ∃ r x y, Proc.joint (cheater C s gates) (circuit C (s.keys Δ) gates h) =
      .ended msgs r (.ok x) (.ok y) ∧ y.1.1 = x.1.1.keys Δ ∧ Wrong x.1.1.checked := by
    intro Δ
    obtain ⟨l, r, x, y, hj, hkeys, hwrong⟩ := lockstep_circuit C s gates Δ h
    have hl : l = msgs := by
      rw [← Proc.joint_sent_right hj]
      exact hsays _ _ _ (Proc.joint_run_right hj)
    exact ⟨r, x, y, hl ▸ hj, hkeys, hwrong hgates⟩
  -- the strategy reads the same messages for every `Δ`, so it commits to the same triples
  obtain ⟨r₀, x₀, y₀, hj₀, -, hwrong⟩ := hrun 0
  refine ⟨x₀.1.1.checked, hwrong, fun Δ => ?_⟩
  obtain ⟨r, x, y, hj, hkeys, -⟩ := hrun Δ
  have hx : x = x₀ := by
    have heq := (Proc.joint_run_left hj).symm.trans (Proc.joint_run_left hj₀)
    exact congrArg Prod.fst (Option.some.inj heq)
  subst hx
  have hend := Proc.joint_bind hj (fun _ => (.pure () : Proc M Unit)) .pure
    (Proc.joint_pure_pure () y)
  rw [Proc.bind_pure'] at hend
  exact ⟨_, _, _, _, _, _, hend, by rw [hkeys]; rfl⟩

theorem not_cheats {s : FComProver PF FE} {gates : List (Gate PF)} {S : Proc M Unit}
    (hgates : ∀ n ∈ roundSizes 0 gates, SafeRound PF FE n) : ¬Cheats C s gates S := by
  intro hcheats
  -- a challenge whose powers satisfy no relation as short as a round
  have hfin : Finite FE := @FiniteField.finite PF FE _ _ _ _
  obtain ⟨chi, hchi, hmin⟩ := Roots.exists_ne_zero_minpoly (K := PF) (L := FE)
  obtain ⟨d, rfl⟩ := Random.random_surjective (D := D) chi
  obtain ⟨checked, ⟨round, hround, t, ht, hne⟩, haccept⟩ := hcheats (Stream'.const d)
  obtain ⟨msgs, hsays⟩ := says_circuit FE C gates (Stream'.const d)
  -- so the strategy sends the same messages for every `Δ`
  have hrun : ∀ Δ : FE, ∃ tr, tr.checked = checked.map (List.map (TripleProver.keys Δ)) ∧
      ∃ v h' rest, Proc.run (gates.foldlM (gate C) ⟨[], [], []⟩
        (after (Random.random d) (s.keys Δ) ⟨[], [], []⟩) (Stream'.const d)) (Proc.sent S msgs) =
          some (((tr, v), h'), rest) := by
    intro Δ
    obtain ⟨l, r, end', tr, v, h', hj, hchecked⟩ := haccept Δ
    have hl : l = msgs := by
      rw [← Proc.joint_sent_right hj]
      exact hsays _ _ _ (Proc.joint_run_right hj)
    have hr : r = Proc.sent S msgs := by rw [← hl, Proc.joint_sent_left hj]
    have hverifier := Proc.joint_run_right hj
    rw [circuit_eq, hr] at hverifier
    exact ⟨tr, hchecked, v, h', [], hverifier⟩
  choose tr hchecked hgates' using hrun
  obtain ⟨rounds, hrounds, hsizes, heqs⟩ := run_gates C gates s (Random.random d) (Stream'.const d)
    (Proc.sent S msgs) 0 (fun _ => ⟨[], [], []⟩) tr (fun _ => rfl) hgates'
  obtain ⟨j, hj⟩ := List.mem_iff_getElem?.1 hround
  have hrounds' : ∀ Δ, rounds Δ = checked.map (List.map (TripleProver.keys Δ)) := fun Δ => by
    rw [← hchecked Δ, hrounds Δ, List.nil_append]
  have hsafe : SafeRound PF FE round.length := by
    refine hgates _ ?_
    rw [← hsizes 0, hrounds' 0, List.map_map]
    exact List.mem_map.2 ⟨round, hround, by simp⟩
  have hlen : round.length ≠ 0 := List.length_pos_of_mem ht |>.ne'
  obtain ⟨hdegree, hcard⟩ := hsafe.resolve_left hlen
  have hdefects : Roots.powerSum (Random.random d) (round.map TripleProver.defect) ≠ 0 := by
    have hmap : round.map TripleProver.defect = (round.map fun t =>
        t.1.value * t.2.1.value - t.2.2.value).map (algebraMap PF FE) := by
      rw [List.map_map]
      rfl
    rw [hmap]
    refine Roots.powerSum_ne_zero hchi ⟨_, List.mem_map.2 ⟨t, ht, rfl⟩, ?_⟩ ?_
    · exact sub_ne_zero.2 (Ne.symm hne)
    · rw [List.length_map, hmin, finrank_eq_degree]
      exact hdegree
  obtain ⟨mask, u, w, heq⟩ := heqs j
  -- but then one quadratic equation holds for every `Δ`
  have hall : ∀ Δ : FE, ((FComProver.multSums (Random.random d) (0, 0, Random.random d) round).1 + mask.2 - u) +
      (w - mask.1 - (FComProver.multSums (Random.random d) (0, 0, Random.random d) round).2.1) * Δ +
      Roots.powerSum (Random.random d) (round.map TripleProver.defect) * Δ ^ 2 = 0 := by
    intro Δ
    have hΔ := heq Δ (round.map (TripleProver.keys Δ)) (by rw [hrounds' Δ, List.getElem?_map, hj]; rfl)
    rw [multSums_keys_init] at hΔ
    linear_combination hΔ
  have huniv : (Set.univ : Set FE).encard ≤ 2 := by
    rw [← Set.eq_univ_of_forall hall]
    exact Roots.encard_quadratic_le_two hdefects
  rw [Set.encard_univ, ENat.card_eq_coe_natCard] at huniv
  have htwo : Nat.card FE ≤ 2 := by exact_mod_cast huniv
  omega

omit [CanonicalSerialize M PF] [CanonicalSerialize M Block] [Random D FE] [Random D Block] in
theorem encard_challenges_le (s : FComProver PF FE) {triples : List (TripleProver PF FE)}
    (hne : ∃ t ∈ triples, t.2.2.value ≠ t.1.value * t.2.1.value) (inbox : FE → List M)
    (h : Stream' D) :
    {chi : FE | ¬{Δ : FE | ∃ r, Proc.run (FComVerifier.quicksilverFinalize PF
      ((triples.map (TripleProver.keys Δ)).foldl (s.keys Δ).quicksilverPush ⟨0, chi, chi, 0⟩)
      (s.keys Δ) h) (inbox chi) = some r}.encard ≤ 2}.encard ≤ triples.length := by
  obtain ⟨t, ht, hne⟩ := hne
  have hdefect : ∃ c ∈ triples.map TripleProver.defect, c ≠ (0 : FE) := by
    refine ⟨t.defect, List.mem_map_of_mem ht, fun h0 => hne ?_⟩
    exact (sub_eq_zero.1 ((map_eq_zero (algebraMap PF FE)).1 h0)).symm
  refine le_trans (Set.encard_le_encard fun chi hchi => ?_)
    ((Roots.encard_powerSum_le hdefect).trans (by rw [List.length_map]))
  by_contra hsum
  exact hchi (quicksilverFinalize_binding triples (inbox chi) s chi h hsum)

/-- The check of a circuit is sound exactly when all its rounds are safe. -/
theorem multCheckSound_iff (s : FComProver PF FE) (gates : List (Gate PF)) :
    MultCheckSound C s gates ↔ ∀ n ∈ roundSizes 0 gates,
      n = 0 ∨ (n ≤ FiniteField.degree PF FE ∧ 2 < Nat.card FE) := by
  constructor
  · intro hsound n hn
    by_contra hunsafe
    exact hsound.1 (exists_cheats C s ⟨n, hn, hunsafe⟩)
  · intro hsafe
    refine ⟨fun ⟨S, hS⟩ => not_cheats C hsafe hS, fun triples hne inbox h => ?_⟩
    exact encard_challenges_le s hne inbox h

/-- Over the prime field `F61p` two squares in one round can be wrong: the prover picks the second
defect, and the challenge tells it the first. -/
theorem not_multCheckSound_squares :
    ¬MultCheckSound (⟨fun _ => .const ⟨0, 0, 0, 0, 0⟩, fun _ => 0⟩ :
        Primitives (Msg F40b F61p) (Draw F40b F61p))
      (⟨.const ⟨[⟨0, 0⟩], by simp⟩, [], ⟨0, 0⟩⟩ : FComProver F61p F61p)
      [.inputPrivate, .mul 0 0, .mul 0 0, .finalize] := by
  intro hsound
  refine hsound.1 (exists_cheats _ _ ⟨2, List.mem_singleton_self 2, ?_⟩)
  rintro (h | ⟨h, -⟩)
  · exact absurd h (by decide)
  · exact absurd h (show ¬2 ≤ 1 by decide)

end EdaBitGen
