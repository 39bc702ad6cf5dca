import EdaBitGen.Backend.Attack
import EdaBitGen.Backend.Comparison

/-!
# Sessions of the backend

Between two finalizations a caller adds gates, asserts that wires are zero and drops the products
pushed so far, in any order.  Two honest parties run every such session to its end when the asserted
values are zero, and no honest prover gets past a finalization when one of them is not.
-/

namespace EdaBitGen

open Interaction Party

inductive SessionCall (PF : Type) where
  | gate (g : Gate PF)
  | assertZero (i : ℕ)

/-! ## Plain values -/

section Eval

variable {PF : Type} [Field PF] (witness : ℕ → PF)

/-- The values of the wires after a gate; a private input comes from its place in the witness. -/
def Gate.eval (values : List PF) : Gate PF → List PF
  | .inputPublic value => values ++ [value]
  | .inputPrivate => values ++ [witness values.length]
  | .add i j => values ++ [values.getD i 0 + values.getD j 0]
  | .addc i c => values ++ [c + values.getD i 0]
  | .mulc i c => values ++ [c * values.getD i 0]
  | .mul i j => values ++ [values.getD i 0 * values.getD j 0]
  | .finalize => values
  | .reset => values

def SessionCall.eval (values : List PF) : SessionCall PF → List PF
  | .gate g => g.eval witness values
  | .assertZero _ => values

/-- Every wire is zero when it is asserted to be. -/
def AssertsZeros : List PF → List (SessionCall PF) → Prop
  | _, [] => True
  | values, call :: calls =>
    (∀ i, call = .assertZero i → values.getD i 0 = 0) ∧ AssertsZeros (call.eval witness values) calls

end Eval

variable {M D G H PF FE : Type} [Field PF] [Field FE] [Algebra PF FE]

/-! ## The two sides -/

section Sides

variable [FiniteField PF FE] [CanonicalSerialize M PF] [CanonicalSerialize M FE]
  [CanonicalSerialize M Block] [Random D FE] (C : Primitives M D) (noBatching : Bool)

namespace DietMacAndCheeseProver

variable [DecidableEq PF]

def pushCheckZeroList (e : MacProver PF FE) : Party M G (DietMacAndCheeseProver PF FE) Unit := do
  act fun self => ((), { self with checkZeroList := self.checkZeroList ++ [e] })
  let self ← get
  if self.checkZeroList.length = queueCapacity ∨ noBatching = true then doCheckZero C else pure ()

def gate (witness : ℕ → PF) (tr : Trace (MacProver PF FE)) :
    Gate PF → Party M G (DietMacAndCheeseProver PF FE) (Trace (MacProver PF FE))
  | .inputPublic value =>
    pure { tr with wires := tr.wires ++ [inputPublic value] }
  | .inputPrivate => do
    pure { tr with wires := tr.wires ++ [← inputPrivate (witness tr.wires.length)] }
  | .add i j =>
    pure { tr with wires := tr.wires ++ [add (tr.wires.getD i default) (tr.wires.getD j default)] }
  | .addc i c =>
    pure { tr with wires := tr.wires ++ [addc (tr.wires.getD i default) c] }
  | .mulc i c =>
    pure { tr with wires := tr.wires ++ [mulc (tr.wires.getD i default) c] }
  | .mul i j => do
    let out ← mul (tr.wires.getD i default) (tr.wires.getD j default)
    pure { tr with
      wires := tr.wires ++ [out]
      pushed := tr.pushed ++ [(tr.wires.getD i default, tr.wires.getD j default, out)] }
  | .finalize => do
    finalize C
    pure { tr with pushed := [], checked := tr.checked ++ [tr.pushed] }
  | .reset => do
    act fun self => ((), reset self)
    pure { tr with pushed := [] }

def call (witness : ℕ → PF) (tr : Trace (MacProver PF FE)) :
    SessionCall PF → Party M G (DietMacAndCheeseProver PF FE) (Trace (MacProver PF FE))
  | .gate g => gate C witness tr g
  | .assertZero i => do
    pushCheckZeroList C noBatching (tr.wires.getD i default)
    pure tr

def session (witness : ℕ → PF) (fcom : FComProver PF FE) (calls : List (SessionCall PF)) (g : G) :
    Proc M ((Trace (MacProver PF FE) × DietMacAndCheeseProver PF FE) × G) := do
  let start ← initWithFcom fcom () g
  calls.foldlM (call C noBatching witness) ⟨[], [], []⟩ start.1.1 start.2

end DietMacAndCheeseProver

namespace DietMacAndCheeseVerifier

variable [DecidableEq FE] [Random D Block]

def pushCheckZeroList (e : MacVerifier FE) :
    Party M (Stream' D) (DietMacAndCheeseVerifier FE) Unit := do
  act fun self => ((), { self with checkZeroList := self.checkZeroList ++ [e] })
  let self ← get
  if self.checkZeroList.length = queueCapacity ∨ noBatching = true then doCheckZero C else pure ()

def call (tr : Trace (MacVerifier FE)) :
    SessionCall PF → Party M (Stream' D) (DietMacAndCheeseVerifier FE) (Trace (MacVerifier FE))
  | .gate g => gate C tr g
  | .assertZero i => do
    pushCheckZeroList C noBatching (tr.wires.getD i default)
    pure tr

def session (fcom : FComVerifier FE) (calls : List (SessionCall PF)) (h : Stream' D) :
    Proc M ((Trace (MacVerifier FE) × DietMacAndCheeseVerifier FE) × Stream' D) := do
  let start ← initWithFcom fcom () h
  calls.foldlM (call C noBatching) ⟨[], [], []⟩ start.1.1 start.2

end DietMacAndCheeseVerifier

end Sides

/-! ## What a run of the prover says -/

omit [Algebra PF FE] in
theorem getD_value (wires : List (MacProver PF FE)) (i : ℕ) :
    (wires.getD i default).value = (wires.map MacProver.value).getD i 0 := by
  rw [List.getD_eq_getElem?_getD, List.getD_eq_getElem?_getD, List.getElem?_map]
  cases wires[i]? <;> rfl

section Asserts

variable [FiniteField PF FE] [DecidableEq PF] [CanonicalSerialize M PF] [CanonicalSerialize M FE]
  [CanonicalSerialize M Block] [Random D FE] (C : Primitives M D) (noBatching : Bool)
  {s s' : DietMacAndCheeseProver PF FE} {g g' : G} {inbox rest : List M}

/-- Only zeros are queued. -/
def Clear (s : DietMacAndCheeseProver PF FE) : Prop :=
  ∀ x ∈ s.checkZeroList, x.value = 0

omit [Algebra PF FE] [FiniteField PF FE] [CanonicalSerialize M PF] in
theorem clear_of_doCheckZero {u : Unit}
    (hrun : Proc.run (DietMacAndCheeseProver.doCheckZero C s g) inbox =
      some (((u, s'), g'), rest)) : Clear s := by
  unfold DietMacAndCheeseProver.doCheckZero at hrun
  rw [run_flush_bind, run_get_bind, run_bind_eq_some] at hrun
  obtain ⟨_, s₁, g₁, mid, hzoom, -⟩ := hrun
  obtain ⟨t, hcheck, -⟩ := run_zoom_eq_some.1 hzoom
  obtain ⟨seed, s₂, g₂, mid₂, -, hcheck⟩ := run_bind_eq_some.1 hcheck
  exact (run_assert_eq_some.1 hcheck).1

omit [CanonicalSerialize M PF] in
theorem clear_of_finalize {u : Unit}
    (hrun : Proc.run (DietMacAndCheeseProver.finalize C s g) inbox =
      some (((u, s'), g'), rest)) : Clear s := by
  unfold DietMacAndCheeseProver.finalize at hrun
  rw [run_flush_bind, run_bind_eq_some] at hrun
  obtain ⟨_, s₁, g₁, mid, hzero, -⟩ := hrun
  exact clear_of_doCheckZero C hzero

omit [Field FE] [Algebra PF FE] [FiniteField PF FE] [DecidableEq PF] [CanonicalSerialize M FE]
  [CanonicalSerialize M Block] [Random D FE] in
theorem run_backendInput {v : PF} {x : MacProver PF FE}
    (hrun : Proc.run (DietMacAndCheeseProver.input v s g) inbox = some (((x, s'), g'), rest)) :
    x.value = v ∧ s'.checkZeroList = s.checkZeroList := by
  obtain ⟨tag, s₁, g₁, mid, hzoom, hpure⟩ := run_bind_eq_some.1 hrun
  obtain ⟨t, -, rfl⟩ := run_zoom_eq_some.1 hzoom
  obtain ⟨rfl, rfl, -, -⟩ := run_pure_eq_some.1 hpure
  exact ⟨rfl, rfl⟩

variable (witness : ℕ → PF) {tr tr' : Trace (MacProver PF FE)}

theorem run_gate_values {gt : Gate PF}
    (hrun : Proc.run (DietMacAndCheeseProver.gate C witness tr gt s g) inbox =
      some (((tr', s'), g'), rest)) :
    tr'.wires.map MacProver.value = gt.eval witness (tr.wires.map MacProver.value) ∧
      (Clear s' → Clear s) := by
  cases gt with
  | inputPublic value =>
    obtain ⟨rfl, rfl, -, -⟩ := run_pure_eq_some.1 hrun
    exact ⟨List.map_append, id⟩
  | inputPrivate =>
    obtain ⟨x, s₁, g₁, mid, hinput, hpure⟩ := run_bind_eq_some.1 hrun
    obtain ⟨hvalue, hlist⟩ := run_backendInput hinput
    obtain ⟨rfl, rfl, -, -⟩ := run_pure_eq_some.1 hpure
    refine ⟨?_, fun h => ?_⟩
    · rw [Gate.eval, List.map_append, List.length_map, ← hvalue]
      rfl
    · rw [Clear, ← hlist]
      exact h
  | add i j =>
    obtain ⟨rfl, rfl, -, -⟩ := run_pure_eq_some.1 hrun
    refine ⟨?_, id⟩
    rw [Gate.eval, List.map_append, ← getD_value, ← getD_value]
    rfl
  | addc i c =>
    obtain ⟨rfl, rfl, -, -⟩ := run_pure_eq_some.1 hrun
    refine ⟨?_, id⟩
    rw [Gate.eval, List.map_append, ← getD_value]
    rfl
  | mulc i c =>
    obtain ⟨rfl, rfl, -, -⟩ := run_pure_eq_some.1 hrun
    refine ⟨?_, id⟩
    rw [Gate.eval, List.map_append, ← getD_value]
    rfl
  | mul i j =>
    obtain ⟨x, s₁, g₁, mid, hmul, hpure⟩ := run_bind_eq_some.1 hrun
    obtain ⟨y, s₂, g₂, mid₂, hinput, hact⟩ := run_bind_eq_some.1 hmul
    obtain ⟨hvalue, hlist⟩ := run_backendInput hinput
    rw [run_act_bind] at hact
    obtain ⟨rfl, rfl, -, -⟩ := run_pure_eq_some.1 hact
    obtain ⟨rfl, rfl, -, -⟩ := run_pure_eq_some.1 hpure
    refine ⟨?_, fun h => ?_⟩
    · rw [Gate.eval, List.map_append, ← getD_value, ← getD_value, ← hvalue]
      rfl
    · rw [Clear, ← hlist]
      exact h
  | finalize =>
    obtain ⟨_, s₁, g₁, mid, hfinalize, hpure⟩ := run_bind_eq_some.1 hrun
    obtain ⟨rfl, -, -, -⟩ := run_pure_eq_some.1 hpure
    exact ⟨rfl, fun _ => clear_of_finalize C hfinalize⟩
  | reset =>
    rw [DietMacAndCheeseProver.gate, run_act_bind] at hrun
    obtain ⟨rfl, rfl, -, -⟩ := run_pure_eq_some.1 hrun
    exact ⟨rfl, id⟩

omit [Algebra PF FE] [FiniteField PF FE] [CanonicalSerialize M PF] in
theorem clear_of_push {e : MacProver PF FE} {u : Unit}
    (hrun : Proc.run (DietMacAndCheeseProver.pushCheckZeroList C noBatching e s g) inbox =
      some (((u, s'), g'), rest)) (hs : Clear s') : Clear s ∧ e.value = 0 := by
  have hclear : ∀ s₁, Proc.run ((if s₁.checkZeroList.length = queueCapacity ∨ noBatching = true then
      DietMacAndCheeseProver.doCheckZero C else pure ()) s₁ g) inbox =
        some (((u, s'), g'), rest) → Clear s₁ := by
    intro s₁ h₁
    split_ifs at h₁
    · exact clear_of_doCheckZero C h₁
    · obtain ⟨-, rfl, -, -⟩ := run_pure_eq_some.1 h₁
      exact hs
  obtain ⟨hqueue, he⟩ := List.forall_mem_append.1 (hclear _ hrun)
  exact ⟨hqueue, he e (List.mem_singleton_self e)⟩

theorem run_call {call : SessionCall PF}
    (hrun : Proc.run (DietMacAndCheeseProver.call C noBatching witness tr call s g) inbox =
      some (((tr', s'), g'), rest)) :
    tr'.wires.map MacProver.value = call.eval witness (tr.wires.map MacProver.value) ∧
      (Clear s' → Clear s ∧
        ∀ i, call = .assertZero i → (tr.wires.map MacProver.value).getD i 0 = 0) := by
  cases call with
  | gate gt =>
    obtain ⟨hvalues, hclear⟩ := run_gate_values C witness hrun
    exact ⟨hvalues, fun h => ⟨hclear h, nofun⟩⟩
  | assertZero i =>
    obtain ⟨_, s₁, g₁, mid, hpush, hpure⟩ := run_bind_eq_some.1 hrun
    obtain ⟨rfl, rfl, -, -⟩ := run_pure_eq_some.1 hpure
    refine ⟨rfl, fun h => ?_⟩
    obtain ⟨hclear, hzero⟩ := clear_of_push C noBatching hpush h
    refine ⟨hclear, fun j hj => ?_⟩
    cases hj
    rw [← getD_value]
    exact hzero

theorem clear_of_calls (calls : List (SessionCall PF))
    (hrun : Proc.run (calls.foldlM (DietMacAndCheeseProver.call C noBatching witness) tr s g) inbox =
      some (((tr', s'), g'), rest)) (hs : Clear s') :
    Clear s ∧ AssertsZeros witness (tr.wires.map MacProver.value) calls := by
  induction calls generalizing tr s g inbox with
  | nil =>
    obtain ⟨-, rfl, -, -⟩ := run_pure_eq_some.1 hrun
    exact ⟨hs, trivial⟩
  | cons call calls ih =>
    rw [List.foldlM_cons] at hrun
    obtain ⟨tr₁, s₁, g₁, mid, hcall, hcalls⟩ := run_bind_eq_some.1 hrun
    obtain ⟨hvalues, hclear⟩ := run_call C noBatching witness hcall
    obtain ⟨hs₁, hzeros⟩ := ih hcalls
    rw [hvalues] at hzeros
    exact ⟨(hclear hs₁).1, (hclear hs₁).2, hzeros⟩

end Asserts

/-- Both parties have queued the same zeros and pushed the same products under one challenge. -/
inductive InSession (Δ : FE) : DietMacAndCheeseProver PF FE → DietMacAndCheeseVerifier FE → Prop
  | intro (p : FComProver PF FE) (zeros : List (MacProver PF FE)) (chi : FE)
      (ts : List (TripleProver PF FE)) (hzeros : ∀ x ∈ zeros, x.value = 0)
      (hts : ∀ t ∈ ts, t.2.2.value = t.1.value * t.2.1.value) :
      InSession Δ ⟨p, zeros, ts.foldl FComProver.quicksilverPush ⟨0, 0, chi, chi, 0⟩⟩
        ⟨p.keys Δ, zeros.map (MacProver.key Δ),
          (ts.map (TripleProver.keys Δ)).foldl (p.keys Δ).quicksilverPush ⟨0, chi, chi, 0⟩⟩

section Step

variable {Δ : FE}

theorem InSession.zoom {α β : Type} {P : Party M G (FComProver PF FE) α}
    {Q : Party M H (FComVerifier FE) β} {post : α → β → Prop}
    (h : Sync (Correlated Δ) P Q post) :
    Sync (InSession Δ) (Party.zoom DietMacAndCheeseProver.lens P)
      (Party.zoom DietMacAndCheeseVerifier.lens Q) post := by
  refine h.zoom ?_ ?_
  · rintro _ _ ⟨p, zeros, chi, ts, hzeros, hts⟩
    rfl
  · rintro _ _ p' _ ⟨p, zeros, chi, ts, hzeros, hts⟩ rfl
    exact ⟨p', zeros, chi, ts, hzeros, hts⟩

theorem sync_reset :
    Sync (InSession Δ)
      (act fun self => ((), DietMacAndCheeseProver.reset self) :
        Party M G (DietMacAndCheeseProver PF FE) Unit)
      (act fun self => ((), DietMacAndCheeseVerifier.reset self) : Party M H _ Unit)
      fun _ _ => True := by
  refine Sync.act ?_
  rintro _ _ ⟨p, zeros, chi, ts, hzeros, hts⟩
  unfold DietMacAndCheeseProver.reset DietMacAndCheeseVerifier.reset
  rw [reset_foldl_quicksilverPush, foldl_quicksilverPush_prover]
  exact ⟨⟨p, zeros, chi, [], hzeros, by simp⟩, trivial⟩

section Input

variable [CanonicalSerialize M PF]

theorem sync_backendInput (v : PF) :
    Sync (InSession Δ) (DietMacAndCheeseProver.input v : Party M G _ (MacProver PF FE))
      (DietMacAndCheeseVerifier.input PF : Party M H _ _)
      fun x k => x.value = v ∧ k = x.key Δ := by
  unfold DietMacAndCheeseProver.input DietMacAndCheeseVerifier.input
  rw [← bind_pure (Party.zoom DietMacAndCheeseVerifier.lens (FComVerifier.input1 PF))]
  exact (InSession.zoom (sync_input1 v)).bind fun tag k hk => Sync.pure ⟨rfl, hk⟩

theorem sync_backendMul (a b : MacProver PF FE) :
    Sync (InSession Δ) (DietMacAndCheeseProver.mul a b : Party M G _ _)
      (DietMacAndCheeseVerifier.mul PF (a.key Δ) (b.key Δ) : Party M H _ _)
      fun x k => k = x.key Δ := by
  unfold DietMacAndCheeseProver.mul DietMacAndCheeseVerifier.mul
  refine (sync_backendInput _).bind fun x k hx => ?_
  obtain ⟨hvalue, rfl⟩ := hx
  have hpush : Sync (InSession Δ)
      (act fun self => ((), { self with
        stateMultCheck := FComProver.quicksilverPush self.stateMultCheck (a, b, x) }) :
        Party M G (DietMacAndCheeseProver PF FE) Unit)
      (act fun self => ((), { self with
        stateMultCheck := self.verifier.quicksilverPush self.stateMultCheck
          (a.key Δ, b.key Δ, x.key Δ) }) : Party M H (DietMacAndCheeseVerifier FE) Unit)
      fun _ _ => True := by
    refine Sync.act ?_
    rintro _ _ ⟨p, zeros, chi, ts, hzeros, hts⟩
    have hnext := InSession.intro (Δ := Δ) p zeros chi (ts ++ [(a, b, x)]) hzeros
      (List.forall_mem_append.2 ⟨hts, by simpa using hvalue⟩)
    rw [List.map_append, List.foldl_append, List.foldl_append] at hnext
    exact ⟨hnext, trivial⟩
  exact hpush.bind fun _ _ _ => Sync.pure rfl

end Input

variable [DecidableEq FE] [CanonicalSerialize M FE]

section MultCheck

variable [FiniteField PF FE]

theorem sync_quicksilverFinalize (p : FComProver PF FE) (chi : FE)
    {ts : List (TripleProver PF FE)} (hts : ∀ t ∈ ts, t.2.2.value = t.1.value * t.2.1.value) :
    Sync (Correlated Δ)
      (FComProver.quicksilverFinalize (ts.foldl FComProver.quicksilverPush ⟨0, 0, chi, chi, 0⟩) :
        Party M G (FComProver PF FE) _)
      (FComVerifier.quicksilverFinalize PF ((ts.map (TripleProver.keys Δ)).foldl
        (p.keys Δ).quicksilverPush ⟨0, chi, chi, 0⟩) : Party M H _ _)
      fun x y => x.2 = ⟨0, 0, chi, chi, 0⟩ ∧ y.2 = ⟨0, chi, chi, 0⟩ := by
  rw [foldl_quicksilverPush_prover]
  unfold FComProver.quicksilverFinalize FComVerifier.quicksilverFinalize
  refine Sync.get_right fun s t hst => sync_vope.bind fun mask k hk => ?_
  refine Sync.write_readSerializable (Sync.write_readSerializable (Sync.flush_left ?_))
  refine Sync.assert_right ?_ (Sync.pure ⟨rfl, reset_foldl_quicksilverPush _ _ _⟩)
  rw [show t.delta = Δ by rw [hst, FComProver.keys_delta], hk, check_iff_quadratic,
    sum_defects_eq_zero hts]
  ring

theorem sync_doMultCheck :
    Sync (InSession Δ)
      (DietMacAndCheeseProver.doMultCheck : Party M G (DietMacAndCheeseProver PF FE) ℕ)
      (DietMacAndCheeseVerifier.doMultCheck PF : Party M H _ _) fun _ _ => True := by
  unfold DietMacAndCheeseProver.doMultCheck DietMacAndCheeseVerifier.doMultCheck
  refine Sync.flush_left (Sync.flush_right (Sync.gets fun s t hst => ?_))
  obtain ⟨p, zeros, chi, ts, hzeros, hts⟩ := hst
  refine (InSession.zoom (sync_quicksilverFinalize p chi hts)).bind fun x y hxy => ?_
  obtain ⟨hx, hy⟩ := hxy
  have hstate : Sync (InSession Δ)
      (act fun self => ((), { self with stateMultCheck := x.2 }) :
        Party M G (DietMacAndCheeseProver PF FE) Unit)
      (act fun self => ((), { self with stateMultCheck := y.2 }) :
        Party M H (DietMacAndCheeseVerifier FE) Unit) fun _ _ => True := by
    refine Sync.act ?_
    rintro _ _ ⟨p, zeros, _, _, hzeros, _⟩
    rw [hx, hy]
    exact ⟨⟨p, zeros, chi, [], hzeros, by simp⟩, trivial⟩
  exact hstate.bind fun _ _ _ => Sync.pure trivial

end MultCheck

variable [DecidableEq PF] [CanonicalSerialize M Block] [Random D FE] [Random D Block]
  (C : Primitives M D) (noBatching : Bool)

theorem sync_doCheckZero :
    Sync (InSession Δ)
      (DietMacAndCheeseProver.doCheckZero C : Party M G (DietMacAndCheeseProver PF FE) Unit)
      (DietMacAndCheeseVerifier.doCheckZero C) fun _ _ => True := by
  unfold DietMacAndCheeseProver.doCheckZero DietMacAndCheeseVerifier.doCheckZero
  refine Sync.flush_left (Sync.flush_right (Sync.gets fun s t hst => ?_))
  obtain ⟨p, zeros, chi, ts, hzeros, hts⟩ := hst
  refine (InSession.zoom (sync_checkZero C hzeros)).bind fun _ _ _ => Sync.act ?_
  rintro _ _ ⟨p, zeros, chi, ts, hzeros, hts⟩
  exact ⟨⟨p, [], chi, ts, by simp, hts⟩, trivial⟩

theorem sync_pushCheckZeroList {e : MacProver PF FE} (he : e.value = 0) :
    Sync (InSession Δ) (DietMacAndCheeseProver.pushCheckZeroList C noBatching e : Party M G _ _)
      (DietMacAndCheeseVerifier.pushCheckZeroList C noBatching (e.key Δ)) fun _ _ => True := by
  unfold DietMacAndCheeseProver.pushCheckZeroList DietMacAndCheeseVerifier.pushCheckZeroList
  have hpush : Sync (InSession Δ)
      (act fun self => ((), { self with checkZeroList := self.checkZeroList ++ [e] }) :
        Party M G (DietMacAndCheeseProver PF FE) Unit)
      (act fun self => ((), { self with checkZeroList := self.checkZeroList ++ [e.key Δ] }) :
        Party M (Stream' D) (DietMacAndCheeseVerifier FE) Unit) fun _ _ => True := by
    refine Sync.act ?_
    rintro _ _ ⟨p, zeros, chi, ts, hzeros, hts⟩
    have hnext := InSession.intro (Δ := Δ) p (zeros ++ [e]) chi ts
      (List.forall_mem_append.2 ⟨hzeros, by simpa using he⟩) hts
    rw [List.map_append] at hnext
    exact ⟨hnext, trivial⟩
  refine hpush.bind fun _ _ _ => Sync.gets fun s t hst => ?_
  obtain ⟨p, zeros, chi, ts, hzeros, hts⟩ := hst
  simp only [List.length_map]
  split_ifs
  · exact sync_doCheckZero C
  · exact Sync.pure trivial

end Step

/-! ## Whole sessions -/

section Session

variable [FiniteField PF FE] [DecidableEq PF] [DecidableEq FE] [CanonicalSerialize M PF]
  [CanonicalSerialize M FE] [CanonicalSerialize M Block] [Random D FE] [Random D Block]
  (C : Primitives M D) (noBatching : Bool) {Δ : FE}

omit [CanonicalSerialize M PF] in
theorem sync_backendFinalize :
    Sync (InSession Δ)
      (DietMacAndCheeseProver.finalize C : Party M G (DietMacAndCheeseProver PF FE) Unit)
      (DietMacAndCheeseVerifier.finalize PF C) fun _ _ => True :=
  Sync.flush_left (Sync.flush_right ((sync_doCheckZero C).bind fun _ _ _ =>
    sync_doMultCheck.bind fun _ _ _ => Sync.pure trivial))

variable (witness : ℕ → PF)

theorem sync_gate (tr : Trace (MacProver PF FE)) (gt : Gate PF) :
    Sync (InSession Δ) (DietMacAndCheeseProver.gate C witness tr gt : Party M G _ _)
      (DietMacAndCheeseVerifier.gate C (tr.keys Δ) gt) fun x y => y = x.keys Δ := by
  have hkey : ∀ i, (tr.keys Δ).wires.getD i default = (tr.wires.getD i default).key Δ :=
    key_getD Δ tr.wires
  have hdelta : ∀ {s : DietMacAndCheeseProver PF FE} {t}, InSession Δ s t →
      t.verifier = s.prover.keys Δ := by
    rintro _ _ ⟨p, zeros, chi, ts, hzeros, hts⟩
    rfl
  cases gt with
  | inputPublic value =>
    refine Sync.get_right fun s t hst => Sync.pure ?_
    rw [Trace.keys_wire]
    simp [DietMacAndCheeseVerifier.inputPublic, DietMacAndCheeseProver.inputPublic, hdelta hst,
      MacProver.key]
  | inputPrivate =>
    refine (sync_backendInput _).bind fun x k hx => Sync.pure ?_
    rw [Trace.keys_wire, hx.2]
  | add i j =>
    refine Sync.pure ?_
    rw [Trace.keys_wire, hkey, hkey, DietMacAndCheeseVerifier.add, ← FComProver.key_add]
    rfl
  | addc i c =>
    refine Sync.get_right fun s t hst => Sync.pure ?_
    rw [Trace.keys_wire, hkey, DietMacAndCheeseVerifier.addc, hdelta hst,
      ← FComProver.key_affineAddCst]
    rfl
  | mulc i c =>
    refine Sync.pure ?_
    rw [Trace.keys_wire, hkey, DietMacAndCheeseVerifier.mulc, ← FComProver.key_affineMultCst]
    rfl
  | mul i j =>
    rw [DietMacAndCheeseVerifier.gate, hkey, hkey]
    refine (sync_backendMul _ _).bind fun x k hx => Sync.pure ?_
    rw [hx]
    simp [Trace.keys, TripleProver.keys]
  | finalize =>
    refine (sync_backendFinalize C).bind fun _ _ _ => Sync.pure ?_
    simp [Trace.keys]
  | reset => exact sync_reset.bind fun _ _ _ => Sync.pure rfl

theorem sync_sessionCall (tr : Trace (MacProver PF FE)) (call : SessionCall PF)
    (hzero : ∀ i, call = .assertZero i → (tr.wires.map MacProver.value).getD i 0 = 0) :
    Sync (InSession Δ) (DietMacAndCheeseProver.call C noBatching witness tr call : Party M G _ _)
      (DietMacAndCheeseVerifier.call C noBatching (tr.keys Δ) call) fun x y => y = x.keys Δ := by
  cases call with
  | gate gt => exact sync_gate C witness tr gt
  | assertZero i =>
    have hvalue := hzero i rfl
    rw [← getD_value] at hvalue
    have hpush := sync_pushCheckZeroList (G := G) C noBatching (Δ := Δ) hvalue
    rw [← key_getD] at hpush
    exact hpush.bind fun _ _ _ => Sync.pure rfl

theorem sync_sessionCalls (calls : List (SessionCall PF)) (tr : Trace (MacProver PF FE))
    (hzeros : AssertsZeros witness (tr.wires.map MacProver.value) calls) :
    Sync (InSession Δ)
      (calls.foldlM (DietMacAndCheeseProver.call C noBatching witness) tr : Party M G _ _)
      (calls.foldlM (DietMacAndCheeseVerifier.call C noBatching) (tr.keys Δ)) fun x y =>
        y = x.keys Δ ∧ x.wires.map MacProver.value =
          calls.foldl (SessionCall.eval witness) (tr.wires.map MacProver.value) := by
  induction calls generalizing tr with
  | nil => exact Sync.pure ⟨rfl, rfl⟩
  | cons call calls ih =>
    have hcall := (sync_sessionCall (G := G) (Δ := Δ) C noBatching witness tr call hzeros.1).and_run
      (S := fun x => x.wires.map MacProver.value =
        call.eval witness (tr.wires.map MacProver.value))
      fun _ _ _ _ _ hrun => (run_call C noBatching witness hrun).1
    rw [List.foldlM_cons, List.foldlM_cons]
    refine hcall.bind fun x y hxy => ?_
    obtain ⟨rfl, hvalues⟩ := hxy
    rw [List.foldl_cons, ← hvalues]
    exact ih x (hvalues ▸ hzeros.2)

/-- Whatever the gates of a session are, and wherever it asserts, finalizes and resets, two honest
parties run it to the end when the asserted values are zero: the prover's wires carry the plain
values, the verifier holds their keys, and the next session can start from the states they reach. -/
theorem session_complete (calls : List (SessionCall PF)) (hzeros : AssertsZeros witness [] calls)
    (fcom : FComProver PF FE) (g : G) (h : Stream' D) :
    Lockstep
      (DietMacAndCheeseProver.session C noBatching witness fcom calls g : Proc M _)
      (DietMacAndCheeseVerifier.session C noBatching (fcom.keys Δ) calls h) fun x y =>
        x.1.1.wires.map MacProver.value = calls.foldl (SessionCall.eval witness) [] ∧
          y.1.1 = x.1.1.keys Δ ∧ InSession Δ x.1.2 y.1.2 := by
  have hinit : Sync (fun _ _ => True)
      (DietMacAndCheeseProver.initWithFcom fcom : Party M G Unit _)
      (DietMacAndCheeseVerifier.initWithFcom (fcom.keys Δ) : Party M (Stream' D) Unit _)
      (InSession Δ) := by
    unfold DietMacAndCheeseProver.initWithFcom DietMacAndCheeseVerifier.initWithFcom
      StateMultCheckProver.init StateMultCheckVerifier.init
    simp only [bind_assoc, pure_bind]
    refine Sync.flush_left (Sync.random_right fun chi => Sync.read_writeSerializable ?_)
    exact Sync.flush_right (Sync.pure ⟨fcom, [], chi, [], by simp, by simp⟩)
  refine (hinit () () trivial g h).bind fun x y hxy => ?_
  refine (sync_sessionCalls C noBatching witness calls ⟨[], [], []⟩ hzeros _ _ hxy.2 _ _).mono ?_
  exact fun x y hxy => ⟨hxy.2.2, hxy.2.1, hxy.1⟩

end Session

/-- The square of a private input, compared with a constant. -/
theorem session_complete_square :
    let C : Primitives (Msg F40b F61p) (Draw F40b F61p) :=
      ⟨fun _ => .const ⟨0, 0, 0, 0, 0⟩, fun _ => 0⟩
    let fcom : FComProver F61p F61p := ⟨.const ⟨[⟨0, 0⟩], by simp⟩, [], ⟨0, 0⟩⟩
    let rng : Stream' (Draw F40b F61p) := .const ⟨1, 0, 0, 0, 0⟩
    let calls : List (SessionCall F61p) := [.gate .inputPrivate, .gate (.mul 0 0),
      .gate (.addc 1 (-9)), .assertZero 2, .gate .finalize]
    Lockstep (DietMacAndCheeseProver.session C false (fun _ => 3) fcom calls rng : Proc _ _)
      (DietMacAndCheeseVerifier.session C false (fcom.keys 1) calls rng) fun x y =>
        x.1.1.wires.map MacProver.value = calls.foldl (SessionCall.eval fun _ => 3) [] ∧
          y.1.1 = x.1.1.keys 1 ∧ InSession 1 x.1.2 y.1.2 := by
  intro C fcom rng calls
  refine session_complete C false (fun _ => 3) calls ?_ fcom rng rng
  simp [calls, AssertsZeros, SessionCall.eval, Gate.eval]
  norm_num

end EdaBitGen
