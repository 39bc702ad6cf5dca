import EdaBitGen.Backend.Model
import EdaBitGen.HomCom.Open

/-!
# What the checks of a circuit say

A run of the verifier on fixed messages, for every `Δ`, goes through the same states up to the
keys.  For every accepted check this gives one polynomial equation that holds for every `Δ`.
-/

namespace EdaBitGen

open Interaction Party

/-- How many triples are pushed and not yet checked after a gate. -/
def Gate.pending {PF : Type} (n : ℕ) : Gate PF → ℕ
  | .mul _ _ => n + 1
  | .finalize => 0
  | .reset => 0
  | _ => n

/-- The numbers of triples of the checks of a circuit, when `n` triples are pushed already. -/
def roundSizes {PF : Type} (n : ℕ) : List (Gate PF) → List ℕ
  | [] => []
  | .finalize :: gates => n :: roundSizes 0 gates
  | gate :: gates => roundSizes (gate.pending n) gates

/-! ## What the verifier says -/

section Says

variable {M D G PF FE σ : Type} {g : G} [CanonicalSerialize M FE]

theorem says_readSerializable {X : Type} [CanonicalSerialize M X] :
    Says (readSerializable : Party M G σ X) g [] g := by
  unfold readSerializable
  refine Says.silent_bind Says.read fun m => ?_
  cases (CanonicalSerialize.ofMsg m : Option X) with
  | none => exact Says.abort _
  | some x => exact Says.pure x

omit [CanonicalSerialize M FE] in
theorem says_random : Says (FComVerifier.random : Party M G (FComVerifier FE) _) g [] g := by
  unfold FComVerifier.random
  rw [popVole_eq]
  exact (Says.act _).zoom

variable [Field PF] [Field FE] [Algebra PF FE] [DecidableEq FE]

omit [CanonicalSerialize M FE] [DecidableEq FE] in
theorem says_input1 [CanonicalSerialize M PF] :
    Says (FComVerifier.input1 PF : Party M G (FComVerifier FE) _) g [] g := by
  unfold FComVerifier.input1
  exact says_random.silent_bind fun _ => says_readSerializable.silent_bind fun _ =>
    Says.get.silent_bind fun _ => Says.pure _

theorem says_quicksilverFinalize [FiniteField PF FE] (state : StateMultCheckVerifier FE) :
    Says (FComVerifier.quicksilverFinalize PF state : Party M G _ _) g [] g := by
  unfold FComVerifier.quicksilverFinalize FComVerifier.vope
  refine Says.get.silent_bind fun self => Says.silent_bind (Says.foldlM (fun _ _ => ?_) _ _) ?_
  · exact says_random.silent_bind fun _ => Says.pure _
  · exact fun _ => says_readSerializable.silent_bind fun _ =>
      says_readSerializable.silent_bind fun _ => (Says.assert _ _).silent_bind fun _ => Says.pure _

omit [Algebra PF FE] in
theorem says_checkZero [CanonicalSerialize M Block] [Random D FE] [Random D Block]
    (C : Primitives M D) (keys : List (MacVerifier FE)) (h : Stream' D) :
    Says (FComVerifier.checkZero C keys) h
      [CanonicalSerialize.toMsg (Random.random h.head : Block)] h.tail := by
  unfold FComVerifier.checkZero EdaBitGen.random writeSerializable
  rw [bind_assoc]
  refine Says.draw_bind ?_
  rw [pure_bind]
  exact Says.write_bind (Says.flush.silent_bind fun _ => says_readSerializable.silent_bind fun _ =>
    Says.assert _ _)

end Says

variable {M D PF FE : Type} [Field PF] [Field FE] [Algebra PF FE] [FiniteField PF FE]
  [DecidableEq FE] [CanonicalSerialize M PF] [CanonicalSerialize M FE] [CanonicalSerialize M Block]
  [Random D FE] [Random D Block] (C : Primitives M D)

namespace DietMacAndCheeseVerifier

omit [CanonicalSerialize M PF] in
theorem says_finalize (h : Stream' D) :
    Says (finalize PF C : Party M (Stream' D) (DietMacAndCheeseVerifier FE) Unit) h
      [CanonicalSerialize.toMsg (Random.random h.head : Block)] h.tail := by
  unfold finalize doCheckZero doMultCheck
  refine Says.flush.silent_bind fun _ => Says.bind_silent ?_ fun _ => ?_
  · exact Says.flush.silent_bind fun _ => Says.get.silent_bind fun self =>
      (says_checkZero C _ h).zoom.bind_silent fun _ => Says.act _
  · refine Says.silent_bind ?_ fun _ => Says.pure _
    exact Says.flush.silent_bind fun _ => Says.get.silent_bind fun self =>
      (says_quicksilverFinalize _).zoom.silent_bind fun _ =>
        (Says.act _).silent_bind fun _ => Says.pure _

/-- What the verifier says in a gate, and the generator it leaves. -/
def announces (M : Type) [CanonicalSerialize M Block] (h : Stream' D) :
    Gate PF → List M × Stream' D
  | .finalize => ([CanonicalSerialize.toMsg (Random.random h.head : Block)], h.tail)
  | _ => ([], h)

theorem says_gate (tr : Trace (MacVerifier FE)) (h : Stream' D) (gt : Gate PF) :
    Says (gate C tr gt) h (announces M h gt).1 (announces M h gt).2 := by
  cases gt with
  | inputPublic value => exact Says.get.silent_bind fun _ => Says.pure _
  | inputPrivate => exact says_input1.zoom.silent_bind fun _ => Says.pure _
  | add i j => exact Says.pure _
  | addc i c => exact Says.get.silent_bind fun _ => Says.pure _
  | mulc i c => exact Says.pure _
  | mul i j =>
    exact Says.silent_bind (says_input1.zoom.silent_bind fun _ =>
      (Says.act _).silent_bind fun _ => Says.pure _) fun _ => Says.pure _
  | finalize => exact (says_finalize C h).bind_silent fun _ => Says.pure _
  | reset => exact (Says.act _).silent_bind fun _ => Says.pure _

variable (FE) in
theorem says_gates (gates : List (Gate PF)) (h : Stream' D) :
    ∃ msgs h', ∀ tr : Trace (MacVerifier FE), Says (gates.foldlM (gate C) tr) h msgs h' := by
  induction gates generalizing h with
  | nil => exact ⟨[], h, fun tr => Says.pure tr⟩
  | cons gt gates ih =>
    obtain ⟨msgs, h', hmsgs⟩ := ih (announces M h gt).2
    refine ⟨(announces M h gt).1 ++ msgs, h', fun tr => ?_⟩
    rw [List.foldlM_cons]
    exact (says_gate C tr h gt).bind hmsgs

/-! ## The states of a run -/

/-- The verifier after it has pushed the triples of the trace. -/
def after (chi : FE) (fcom : FComVerifier FE) (tr : Trace (MacVerifier FE)) :
    DietMacAndCheeseVerifier FE where
  verifier := fcom
  checkZeroList := []
  stateMultCheck := tr.pushed.foldl fcom.quicksilverPush ⟨0, chi, chi, 0⟩

section Run

variable {Δ chi : FE} {s : FComProver PF FE} {tr : Trace (MacVerifier FE)}
  {v : DietMacAndCheeseVerifier FE} {h h' : Stream' D} {inbox rest : List M}

omit [FiniteField PF FE] [DecidableEq FE] in
theorem after_congr {s' : FComProver PF FE} {tr' : Trace (MacVerifier FE)}
    (hp : tr'.pushed = tr.pushed) :
    { after chi (s.keys Δ) tr with verifier := s'.keys Δ } = after chi (s'.keys Δ) tr' := by
  unfold after
  rw [hp, quicksilverPush_congr (show (s.keys Δ).delta = (s'.keys Δ).delta from rfl)]

omit [FiniteField PF FE] [DecidableEq FE] [CanonicalSerialize M FE] [CanonicalSerialize M Block]
  [Random D FE] [Random D Block] in
theorem run_input {k : MacVerifier FE}
    (hrun : Proc.run (input PF (after chi (s.keys Δ) tr) h) inbox = some (((k, v), h'), rest)) :
    v = after chi (FComProver.keys Δ ⟨s.pool.draw.2⟩) tr ∧ h' = h ∧ rest = inbox.tail := by
  obtain ⟨t, hinput, rfl⟩ := run_zoom_eq_some.1 hrun
  change Proc.run (FComVerifier.input1 PF (s.keys Δ) h) inbox = _ at hinput
  unfold FComVerifier.input1 at hinput
  rw [bind_apply, Proc.run_bind, emits_random_keys s Δ h inbox, Option.bind_some,
    run_bind_eq_some] at hinput
  obtain ⟨y, s₁, g₁, mid, hy, hpure⟩ := hinput
  obtain ⟨msg, rfl, -, rfl, rfl⟩ := run_readSerializable_eq_some.1 hy
  rw [run_get_bind] at hpure
  obtain ⟨-, rfl, rfl, rfl⟩ := run_pure_eq_some.1 hpure
  exact ⟨after_congr rfl, rfl, rfl⟩

end Run

omit [CanonicalSerialize M PF] in
theorem run_finalize (s : FComProver PF FE) :
    ∃ (mask : FE × FE) (s' : FComProver PF FE), ∀ (Δ chi : FE) (tr : Trace (MacVerifier FE))
      (h : Stream' D) (inbox : List M) v h' rest,
      Proc.run (finalize PF C (after chi (s.keys Δ) tr) h) inbox = some ((((), v), h'), rest) →
      ∃ m msg msg' u w, inbox = m :: msg :: msg' :: rest ∧
        CanonicalSerialize.ofMsg msg = some u ∧ CanonicalSerialize.ofMsg msg' = some w ∧
        (tr.pushed.foldl (s.keys Δ).quicksilverPush ⟨0, chi, chi, 0⟩).sumB +
          (mask.2 - Δ * mask.1) = u + -Δ * w ∧
        v = after chi (s'.keys Δ) ⟨tr.wires, [], tr.checked ++ [tr.pushed]⟩ ∧ h' = h.tail := by
  obtain ⟨mask, s', hfin⟩ := @run_quicksilverFinalize M (Stream' D) PF FE _ _ _ _ _ _ s
  refine ⟨mask, s', fun Δ chi tr h inbox v h' rest hrun => ?_⟩
  unfold finalize doCheckZero doMultCheck at hrun
  rw [run_flush_bind, run_bind_eq_some] at hrun
  obtain ⟨_, s₁, h₁, mid, hzero, hrun⟩ := hrun
  -- the zero check reads one message and leaves the verifier as it is
  rw [run_flush_bind, run_get_bind, run_bind_eq_some] at hzero
  obtain ⟨_, s₂, h₂, mid₂, hzoom, hact⟩ := hzero
  obtain ⟨t, hcheck, rfl⟩ := run_zoom_eq_some.1 hzoom
  obtain ⟨m, rfl, -, rfl, rfl⟩ := run_checkZero C hcheck
  obtain ⟨-, rfl, rfl, rfl⟩ := run_act_eq_some.1 hact
  rw [run_bind_eq_some] at hrun
  obtain ⟨cnt, s₃, h₃, mid₃, hmult, hrun⟩ := hrun
  obtain ⟨-, rfl, rfl, rfl⟩ := run_pure_eq_some.1 hrun
  rw [run_flush_bind, run_get_bind, run_bind_eq_some] at hmult
  obtain ⟨⟨cnt', state⟩, s₄, h₄, mid₄, hzoom', hact'⟩ := hmult
  obtain ⟨t₄, hquick, rfl⟩ := run_zoom_eq_some.1 hzoom'
  obtain ⟨msg, msg', rest', u, w, rfl, hu, hw, hsum, heq⟩ := hfin Δ _ _ _ _ hquick
  rw [run_act_bind] at hact'
  obtain ⟨-, rfl, rfl, rfl⟩ := run_pure_eq_some.1 hact'
  simp only [Prod.mk.injEq] at heq
  obtain ⟨⟨⟨⟨-, rfl⟩, rfl⟩, rfl⟩, rfl⟩ := heq
  refine ⟨m, msg, msg', u, w, rfl, hu, hw, hsum, ?_, rfl⟩
  exact congrArg (DietMacAndCheeseVerifier.mk (s'.keys Δ) [])
    (reset_foldl_quicksilverPush (s.keys Δ) chi tr.pushed)

/-- A gate that is no check takes the verifier, whatever `Δ` is, to the same voles and the same
rest of the messages, and checks nothing. -/
theorem run_gate (s : FComProver PF FE) (gt : Gate PF) (hgt : gt ≠ .finalize) :
    ∃ (s' : FComProver PF FE) (k : ℕ), ∀ (Δ chi : FE) (tr : Trace (MacVerifier FE)) (h : Stream' D)
      (inbox : List M) tr' v h' rest,
      Proc.run (gate C tr gt (after chi (s.keys Δ) tr) h) inbox =
        some (((tr', v), h'), rest) →
      v = after chi (s'.keys Δ) tr' ∧ h' = h ∧ rest = inbox.drop k ∧
        tr'.checked = tr.checked ∧ tr'.pushed.length = gt.pending tr.pushed.length := by
  cases gt with
  | inputPublic value =>
    refine ⟨s, 0, fun Δ chi tr h inbox tr' v h' rest hrun => ?_⟩
    obtain ⟨rfl, rfl, rfl, rfl⟩ := run_pure_eq_some.1 hrun
    exact ⟨after_congr rfl, rfl, rfl, rfl, rfl⟩
  | addc i c =>
    refine ⟨s, 0, fun Δ chi tr h inbox tr' v h' rest hrun => ?_⟩
    obtain ⟨rfl, rfl, rfl, rfl⟩ := run_pure_eq_some.1 hrun
    exact ⟨after_congr rfl, rfl, rfl, rfl, rfl⟩
  | add i j =>
    refine ⟨s, 0, fun Δ chi tr h inbox tr' v h' rest hrun => ?_⟩
    obtain ⟨rfl, rfl, rfl, rfl⟩ := run_pure_eq_some.1 hrun
    exact ⟨after_congr rfl, rfl, rfl, rfl, rfl⟩
  | mulc i c =>
    refine ⟨s, 0, fun Δ chi tr h inbox tr' v h' rest hrun => ?_⟩
    obtain ⟨rfl, rfl, rfl, rfl⟩ := run_pure_eq_some.1 hrun
    exact ⟨after_congr rfl, rfl, rfl, rfl, rfl⟩
  | inputPrivate =>
    refine ⟨⟨s.pool.draw.2⟩, 1, fun Δ chi tr h inbox tr' v h' rest hrun => ?_⟩
    obtain ⟨k, v₁, h₁, mid, hinput, hpure⟩ := run_bind_eq_some.1 hrun
    obtain ⟨rfl, rfl, rfl⟩ := run_input hinput
    obtain ⟨rfl, rfl, rfl, rfl⟩ := run_pure_eq_some.1 hpure
    exact ⟨after_congr rfl, rfl, List.drop_one.symm, rfl, rfl⟩
  | mul i j =>
    refine ⟨⟨s.pool.draw.2⟩, 1, fun Δ chi tr h inbox tr' v h' rest hrun => ?_⟩
    obtain ⟨k, v₁, h₁, mid, hmul, hpure⟩ := run_bind_eq_some.1 hrun
    obtain ⟨k', v₂, h₂, mid₂, hinput, hact⟩ := run_bind_eq_some.1 hmul
    obtain ⟨rfl, rfl, rfl⟩ := run_input hinput
    rw [run_act_bind] at hact
    obtain ⟨rfl, rfl, rfl, rfl⟩ := run_pure_eq_some.1 hact
    obtain ⟨rfl, rfl, rfl, rfl⟩ := run_pure_eq_some.1 hpure
    refine ⟨?_, rfl, List.drop_one.symm, rfl, List.length_append⟩
    simp [after, List.foldl_append]
  | finalize => exact absurd rfl hgt
  | reset =>
    refine ⟨s, 0, fun Δ chi tr h inbox tr' v h' rest hrun => ?_⟩
    obtain ⟨rfl, rfl, rfl, rfl⟩ := run_pure_eq_some.1 hrun
    exact ⟨congrArg (DietMacAndCheeseVerifier.mk (s.keys Δ) [])
      (reset_foldl_quicksilverPush (s.keys Δ) chi tr.pushed), rfl, rfl, rfl, rfl⟩

theorem roundSizes_cons {PF : Type} {n : ℕ} {gt : Gate PF} {gates : List (Gate PF)}
    (hgt : gt ≠ .finalize) : roundSizes n (gt :: gates) = roundSizes (gt.pending n) gates := by
  cases gt <;> first | rfl | exact absurd rfl hgt

/-- For fixed messages that the verifier accepts for every `Δ`, every check of the circuit is one
equation in `Δ`, the check of as many triples as the circuit says. -/
theorem run_gates (gates : List (Gate PF)) (s : FComProver PF FE) (chi : FE) (h : Stream' D)
    (inbox : List M) (n : ℕ) (tr tr' : FE → Trace (MacVerifier FE))
    (hn : ∀ Δ, (tr Δ).pushed.length = n)
    (hrun : ∀ Δ, ∃ v h' rest, Proc.run (gates.foldlM (gate C) (tr Δ)
      (after chi (s.keys Δ) (tr Δ)) h) inbox = some (((tr' Δ, v), h'), rest)) :
    ∃ rounds : FE → List (List (TripleVerifier FE)),
      (∀ Δ, (tr' Δ).checked = (tr Δ).checked ++ rounds Δ) ∧
      (∀ Δ, (rounds Δ).map List.length = roundSizes n gates) ∧
      ∀ j : ℕ, ∃ (mask : FE × FE) (u w : FE), ∀ Δ (round : List (TripleVerifier FE)),
        (rounds Δ)[j]? = some round →
        (FComVerifier.multSums Δ chi (0, chi) round).1 + (mask.2 - Δ * mask.1) = u + -Δ * w := by
  induction gates generalizing s h inbox n tr with
  | nil =>
    refine ⟨fun _ => [], fun Δ => ?_, fun _ => rfl, fun j => ⟨0, 0, 0, by simp⟩⟩
    obtain ⟨v, h', rest, hpure⟩ := hrun Δ
    obtain ⟨htr, -⟩ := run_pure_eq_some.1 hpure
    rw [htr, List.append_nil]
  | cons gt gates ih =>
    simp only [List.foldlM_cons] at hrun
    by_cases hgt : gt = .finalize
    · -- the check of the pushed triples comes first, then the checks of the rest
      subst hgt
      obtain ⟨mask, s', hfin⟩ := @run_finalize M D PF FE _ _ _ _ _ _ _ _ _ C s
      have hstep : ∀ Δ, ∃ m msg msg' u w rest, inbox = m :: msg :: msg' :: rest ∧
          CanonicalSerialize.ofMsg msg = some u ∧ CanonicalSerialize.ofMsg msg' = some w ∧
          (FComVerifier.multSums Δ chi (0, chi) (tr Δ).pushed).1 + (mask.2 - Δ * mask.1) =
            u + -Δ * w ∧
          ∃ v h' rest', Proc.run (gates.foldlM (gate C) ⟨(tr Δ).wires, [], (tr Δ).checked ++
            [(tr Δ).pushed]⟩ (after chi (s'.keys Δ) ⟨(tr Δ).wires, [], (tr Δ).checked ++
              [(tr Δ).pushed]⟩) h.tail) rest = some (((tr' Δ, v), h'), rest') := by
        intro Δ
        obtain ⟨v, h', rest', hgates⟩ := hrun Δ
        obtain ⟨tr₁, v₁, h₁, mid, hgate, hgates⟩ := run_bind_eq_some.1 hgates
        obtain ⟨x, v₂, h₂, mid₂, hfinalize, hpure⟩ := run_bind_eq_some.1 hgate
        obtain ⟨rfl, rfl, rfl, rfl⟩ := run_pure_eq_some.1 hpure
        obtain ⟨m, msg, msg', u, w, hinbox, hu, hw, hsum, rfl, rfl⟩ := hfin Δ _ _ _ _ _ _ _ hfinalize
        rw [sumB_foldl_quicksilverPush] at hsum
        exact ⟨m, msg, msg', u, w, _, hinbox, hu, hw, hsum, v, h', rest', hgates⟩
      obtain ⟨m, msg, msg', u, w, rest, hinbox, hu, hw, -⟩ := hstep 0
      have hrest : ∀ Δ, ∃ v h' rest', Proc.run (gates.foldlM (gate C) ⟨(tr Δ).wires, [],
          (tr Δ).checked ++ [(tr Δ).pushed]⟩ (after chi (s'.keys Δ) ⟨(tr Δ).wires, [],
            (tr Δ).checked ++ [(tr Δ).pushed]⟩) h.tail) rest = some (((tr' Δ, v), h'), rest') := by
        intro Δ
        obtain ⟨m₁, msg₁, msg₁', u₁, w₁, rest₁, hinbox₁, -, -, -, hgates⟩ := hstep Δ
        rw [hinbox] at hinbox₁
        cases hinbox₁
        exact hgates
      obtain ⟨rounds, hchecked, hsizes, hrounds⟩ := ih s' h.tail rest 0 _ (fun _ => rfl) hrest
      refine ⟨fun Δ => (tr Δ).pushed :: rounds Δ, fun Δ => ?_, fun Δ => ?_, fun j => ?_⟩
      · rw [hchecked Δ, List.append_assoc, List.singleton_append]
      · rw [List.map_cons, hn Δ, hsizes Δ]
        rfl
      · cases j with
        | succ j => exact hrounds j
        | zero =>
          refine ⟨mask, u, w, fun Δ round hround => ?_⟩
          obtain ⟨m₁, msg₁, msg₁', u₁, w₁, rest₁, hinbox₁, hu₁, hw₁, hsum, -⟩ := hstep Δ
          rw [hinbox] at hinbox₁
          cases hinbox₁
          cases hu.symm.trans hu₁
          cases hw.symm.trans hw₁
          cases hround
          exact hsum
    · obtain ⟨s', k, hgate⟩ := @run_gate M D PF FE _ _ _ _ _ _ _ _ _ _ C s gt hgt
      have hstep : ∀ Δ, ∃ tr₁ : Trace (MacVerifier FE), tr₁.checked = (tr Δ).checked ∧
          tr₁.pushed.length = gt.pending n ∧ ∃ v h' rest, Proc.run (gates.foldlM (gate C) tr₁
            (after chi (s'.keys Δ) tr₁) h) (inbox.drop k) = some (((tr' Δ, v), h'), rest) := by
        intro Δ
        obtain ⟨v, h', rest, hgates⟩ := hrun Δ
        obtain ⟨tr₁, v₁, h₁, mid, hone, hgates⟩ := run_bind_eq_some.1 hgates
        obtain ⟨rfl, rfl, rfl, hchecked, hlen⟩ := hgate Δ chi (tr Δ) _ _ _ _ _ _ hone
        exact ⟨tr₁, hchecked, hlen.trans (congrArg gt.pending (hn Δ)), v, h', rest, hgates⟩
      choose tr₁ hchecked₁ hlen hrun₁ using hstep
      obtain ⟨rounds, hchecked, hsizes, hrounds⟩ := ih s' h (inbox.drop k) _ tr₁ hlen hrun₁
      refine ⟨rounds, fun Δ => ?_, fun Δ => ?_, hrounds⟩
      · rw [hchecked Δ, hchecked₁ Δ]
      · rw [hsizes Δ, roundSizes_cons hgt]

end DietMacAndCheeseVerifier

end EdaBitGen
