import Mathlib

/-!
# Communication rounds

The messages of a prototype are folded into rounds of two sizes, the first one for the party that sends
first. The runners of the parties read the sizes of each step of a task back from the rounds.
-/

namespace EdaBitGen.MacNCheese

namespace Communication

inductive TaskCommuniqueSender
  | prover
  | verifier
  deriving DecidableEq

def TaskCommuniqueSender.other : TaskCommuniqueSender → TaskCommuniqueSender
  | prover => verifier
  | verifier => prover

structure TaskCommunicationRound where
  sizeA : ℕ
  sizeB : ℕ

/-! ## Building a prototype -/

structure PrototypeBuilder where
  firstSender : Option TaskCommuniqueSender
  communicationRounds : List TaskCommunicationRound
  lastSendWasProver : Option Bool

namespace PrototypeBuilder

def new : PrototypeBuilder := ⟨none, [], none⟩

def send (pb : PrototypeBuilder) (who : TaskCommuniqueSender) (size : ℕ) : Option PrototypeBuilder :=
  if size = 0 then none
  else
    let firstSender := pb.firstSender.getD who
    if firstSender = who then
      some { pb with
        firstSender := some firstSender
        communicationRounds := pb.communicationRounds ++ [⟨size, 0⟩] }
    else
      match pb.communicationRounds.getLast? with
      | none => none
      | some last => some { pb with
          firstSender := some firstSender
          communicationRounds := pb.communicationRounds.dropLast ++ [{ last with sizeB := size }] }

def proverSends (pb : PrototypeBuilder) (size : ℕ) : Option PrototypeBuilder :=
  if pb.lastSendWasProver = some true then none
  else { pb with lastSendWasProver := some true }.send .prover size

def verifierSends (pb : PrototypeBuilder) (size : ℕ) : Option PrototypeBuilder :=
  if pb.lastSendWasProver = some false then none
  else { pb with lastSendWasProver := some false }.send .verifier size

def register (pb : PrototypeBuilder) : TaskCommuniqueSender × ℕ → Option PrototypeBuilder
  | (.prover, size) => pb.proverSends size
  | (.verifier, size) => pb.verifierSends size

end PrototypeBuilder

structure TaskPrototype where
  partyA : TaskCommuniqueSender
  rounds : List TaskCommunicationRound

/-- The prototype of the messages, unless a message is empty or a party sends twice. -/
def registerPrototype (messages : List (TaskCommuniqueSender × ℕ)) : Option TaskPrototype := do
  let pb ← messages.foldlM PrototypeBuilder.register PrototypeBuilder.new
  pure ⟨pb.firstSender.getD .prover, pb.communicationRounds⟩

/-! ## Running a task -/

structure CommunicationSizes where
  incoming : ℕ
  outgoing : ℕ

namespace TaskPrototype

variable (prototype : TaskPrototype) (party : TaskCommuniqueSender)

def sizesOf (step : ℕ) : CommunicationSizes :=
  if party = prototype.partyA then
    ⟨if step = 0 then 0 else (prototype.rounds[step - 1]?.map (·.sizeB)).getD 0,
      (prototype.rounds[step]?.map (·.sizeA)).getD 0⟩
  else
    (prototype.rounds[step]?.map fun round => ⟨round.sizeA, round.sizeB⟩).getD ⟨0, 0⟩

/-- What a launch asks the reactor for. -/
def wantIncomingNetwork : Bool := prototype.rounds[0]?.isSome && decide (party ≠ prototype.partyA)

def expectedToFinishInSteps : ℕ :=
  if party = prototype.partyA then
    match prototype.rounds.getLast? with
    | none => 1
    | some last => prototype.rounds.length + (if last.sizeB > 0 then 1 else 0)
  else max prototype.rounds.length 1

end TaskPrototype

/-- Where a task of a party is: before a step, with or without a message to wait for, or after a number
of steps. -/
inductive TaskState
  | requested (stepNumber : ℕ) (wantIncomingNetwork : Bool)
  | finished (steps : ℕ)
  | failed
  deriving DecidableEq

/-- A task of both parties, with the sizes of the messages that have not been read and all messages that
have been sent. -/
structure System where
  tasks : TaskCommuniqueSender → TaskState
  inbox : TaskCommuniqueSender → List ℕ
  sent : List (TaskCommuniqueSender × ℕ)

namespace System

variable (prototype : TaskPrototype)

def launch : System where
  tasks party := .requested 0 (prototype.wantIncomingNetwork party)
  inbox _ := []
  sent := []

/-- A step of a task with the size of its incoming data. The runner asserts that the task asks for
communication before its last step and that it finishes in this one. -/
def stepTask (s : System) (party : TaskCommuniqueSender) (stepNumber incoming : ℕ) : System :=
  let sizes := prototype.sizesOf party stepNumber
  if incoming ≠ sizes.incoming then { s with tasks := Function.update s.tasks party .failed }
  else
    let next := if stepNumber < prototype.expectedToFinishInSteps party - 1 then
        TaskState.requested (stepNumber + 1) true
      else .finished (stepNumber + 1)
    { tasks := Function.update s.tasks party next
      inbox := if sizes.outgoing = 0 then s.inbox
        else Function.update s.inbox party.other (s.inbox party.other ++ [sizes.outgoing])
      sent := if sizes.outgoing = 0 then s.sent else s.sent ++ [(party, sizes.outgoing)] }

/-- The next step of a party, if its task has not finished and does not wait. -/
def step (s : System) (party : TaskCommuniqueSender) : Option System :=
  match s.tasks party with
  | .requested stepNumber false => some (s.stepTask prototype party stepNumber 0)
  | .requested stepNumber true =>
    match s.inbox party with
    | [] => none
    | size :: rest => some ({ s with inbox := Function.update s.inbox party rest }.stepTask prototype
        party stepNumber size)
  | .finished _ => none
  | .failed => none

/-- The systems after a number of steps, in any order of the parties. -/
inductive Reachable : ℕ → System → Prop
  | launch : Reachable 0 (launch prototype)
  | step {n : ℕ} {s s' : System} {party : TaskCommuniqueSender} (h : Reachable n s)
      (hstep : s.step prototype party = some s') : Reachable (n + 1) s'

end System

/-- The messages of the parties in turns. -/
def alternating (who : TaskCommuniqueSender) : List ℕ → List (TaskCommuniqueSender × ℕ)
  | [] => []
  | size :: sizes => (who, size) :: alternating who.other sizes

/-! ## The rounds of alternating messages -/

/-- Two sizes for each round. -/
def pairs : List ℕ → List TaskCommunicationRound
  | [] => []
  | [a] => [⟨a, 0⟩]
  | a :: b :: sizes => ⟨a, b⟩ :: pairs sizes

theorem length_pairs (sizes : List ℕ) : (pairs sizes).length = (sizes.length + 1) / 2 := by
  fun_induction pairs sizes with
  | case1 => rfl
  | case2 a => rw [List.length_singleton, List.length_singleton]
  | case3 a b sizes ih =>
    rw [List.length_cons, ih, List.length_cons, List.length_cons]
    omega

theorem getElem?_pairs (sizes : List ℕ) (i : ℕ) : (pairs sizes)[i]? =
    if 2 * i < sizes.length then some ⟨sizes.getD (2 * i) 0, sizes.getD (2 * i + 1) 0⟩ else none := by
  fun_induction pairs sizes generalizing i with
  | case1 => rfl
  | case2 a =>
    cases i with
    | zero => rfl
    | succ i => exact (if_neg (by rw [List.length_singleton]; omega)).symm
  | case3 a b sizes ih =>
    cases i with
    | zero => exact (if_pos (by rw [List.length_cons]; omega)).symm
    | succ i =>
      rw [List.getElem?_cons_succ, ih, List.length_cons, List.length_cons]
      have hiff : 2 * (i + 1) < sizes.length + 1 + 1 ↔ 2 * i < sizes.length := by omega
      rw [(by omega : 2 * (i + 1) = 2 * i + 1 + 1)] at hiff ⊢
      simp only [hiff, List.getD_cons_succ]

theorem register_eq (pb : PrototypeBuilder) (who : TaskCommuniqueSender) (size : ℕ) :
    pb.register (who, size) = if pb.lastSendWasProver = some (decide (who = TaskCommuniqueSender.prover)) then none
      else { pb with lastSendWasProver := some (decide (who = TaskCommuniqueSender.prover)) }.send who size := by
  cases who with
  | prover => rfl
  | verifier => rfl

theorem other_ne (who : TaskCommuniqueSender) : who.other ≠ who := by
  cases who with
  | prover => exact nofun
  | verifier => exact nofun

theorem decide_other (who : TaskCommuniqueSender) :
    decide (who.other = TaskCommuniqueSender.prover) = !decide (who = TaskCommuniqueSender.prover) := by
  cases who with
  | prover => rfl
  | verifier => rfl

/-- It is the turn of a party, which sends first in each round. -/
structure Turn (who : TaskCommuniqueSender) (pb : PrototypeBuilder) : Prop where
  firstSender_eq : pb.firstSender.getD who = who
  last_ne : pb.lastSendWasProver ≠ some (decide (who = TaskCommuniqueSender.prover))

theorem Turn.register_first {who : TaskCommuniqueSender} {pb : PrototypeBuilder} (h : Turn who pb)
    {size : ℕ} (hsize : size ≠ 0) : pb.register (who, size) =
      some ⟨some who, pb.communicationRounds ++ [⟨size, 0⟩], some (decide (who = TaskCommuniqueSender.prover))⟩ := by
  rw [register_eq, if_neg h.last_ne, PrototypeBuilder.send, if_neg hsize]
  show (if pb.firstSender.getD who = who then _ else _) = _
  rw [if_pos h.firstSender_eq, h.firstSender_eq]

theorem register_second (who : TaskCommuniqueSender) (rounds : List TaskCommunicationRound) (a : ℕ)
    {b : ℕ} (hb : b ≠ 0) :
    PrototypeBuilder.register ⟨some who, rounds ++ [⟨a, 0⟩], some (decide (who = TaskCommuniqueSender.prover))⟩
      (who.other, b) = some ⟨some who, rounds ++ [⟨a, b⟩], some (decide (who.other = TaskCommuniqueSender.prover))⟩ := by
  have hlast : ¬some (decide (who = TaskCommuniqueSender.prover)) = some (decide (who.other = TaskCommuniqueSender.prover)) := by
    rw [decide_other]
    simp
  rw [register_eq, if_neg hlast, PrototypeBuilder.send, if_neg hb]
  show (if who = who.other then _ else _) = _
  rw [if_neg (other_ne who).symm]
  show (match (rounds ++ [_]).getLast? with | none => _ | some last => _) = _
  rw [List.getLast?_concat]
  show some (PrototypeBuilder.mk _ ((rounds ++ [_]).dropLast ++ [_]) _) = _
  rw [List.dropLast_concat]
  rfl

theorem other_other (who : TaskCommuniqueSender) : who.other.other = who := by
  cases who with
  | prover => rfl
  | verifier => rfl

theorem foldlM_alternating {who : TaskCommuniqueSender} (sizes : List ℕ) {pb : PrototypeBuilder}
    (h : Turn who pb) (hsizes : ∀ size ∈ sizes, size ≠ 0) :
    ∃ pb', (alternating who sizes).foldlM PrototypeBuilder.register pb = some pb' ∧
      pb'.communicationRounds = pb.communicationRounds ++ pairs sizes ∧
      pb'.firstSender = if sizes = [] then pb.firstSender else some who := by
  fun_induction pairs sizes generalizing pb with
  | case1 => exact ⟨pb, rfl, (List.append_nil _).symm, rfl⟩
  | case2 a =>
    have ha := hsizes a (List.mem_singleton_self a)
    exact ⟨_, by rw [alternating, List.foldlM_cons, h.register_first ha]; rfl, rfl, rfl⟩
  | case3 a b sizes ih =>
    have ⟨ha, hrest⟩ := List.forall_mem_cons.1 hsizes
    have ⟨hb, hsizes⟩ := List.forall_mem_cons.1 hrest
    have hturn : Turn who ⟨some who, pb.communicationRounds ++ [⟨a, b⟩],
        some (decide (who.other = TaskCommuniqueSender.prover))⟩ := by
      refine ⟨rfl, ?_⟩
      rw [decide_other]
      simp
    obtain ⟨pb', hpb', hrounds, hfirst⟩ := ih hturn hsizes
    refine ⟨pb', ?_, ?_, ?_⟩
    · rw [alternating, List.foldlM_cons, h.register_first ha]
      show ((alternating who.other (b :: sizes)).foldlM PrototypeBuilder.register _) = _
      rw [alternating, List.foldlM_cons, register_second who _ a hb, other_other]
      exact hpb'
    · rw [hrounds, List.append_assoc]
      rfl
    · rw [hfirst, if_neg (List.cons_ne_nil a _)]
      split
      · rfl
      · rfl

theorem registerPrototype_alternating (who : TaskCommuniqueSender) {sizes : List ℕ}
    (hsizes : ∀ size ∈ sizes, size ≠ 0) : registerPrototype (alternating who sizes) =
      some ⟨if sizes = [] then .prover else who, pairs sizes⟩ := by
  have hturn : Turn who .new := ⟨rfl, nofun⟩
  obtain ⟨pb, hpb, hrounds, hfirst⟩ := foldlM_alternating sizes hturn hsizes
  unfold registerPrototype
  rw [hpb]
  show some (TaskPrototype.mk (pb.firstSender.getD .prover) pb.communicationRounds) = _
  rw [hrounds, hfirst]
  split
  · rfl
  · rfl

/-! ## Sizes and step counts -/

section Sizes

variable (who : TaskCommuniqueSender) (sizes : List ℕ)

theorem sizesOf_first (step : ℕ) : (TaskPrototype.mk who (pairs sizes)).sizesOf who step =
    ⟨if step = 0 then 0 else sizes.getD (2 * step - 1) 0, sizes.getD (2 * step) 0⟩ := by
  have hmap : ∀ (f : TaskCommunicationRound → ℕ) (i k : ℕ), 2 * i ≤ k →
      f ⟨sizes.getD (2 * i) 0, sizes.getD (2 * i + 1) 0⟩ = sizes.getD k 0 →
      (((pairs sizes)[i]?).map f).getD 0 = sizes.getD k 0 := by
    intro f i k hk hf
    rw [getElem?_pairs]
    split
    · exact hf
    · exact (List.getD_eq_default _ _ (by omega)).symm
  unfold TaskPrototype.sizesOf
  rw [if_pos rfl]
  congr 1
  · split
    · rfl
    · exact hmap (·.sizeB) (step - 1) _ (by omega) (by rw [(by omega : 2 * (step - 1) + 1 = 2 * step - 1)])
  · exact hmap (·.sizeA) step _ (Nat.le_refl _) rfl

theorem sizesOf_second (step : ℕ) : (TaskPrototype.mk who (pairs sizes)).sizesOf who.other step =
    ⟨sizes.getD (2 * step) 0, sizes.getD (2 * step + 1) 0⟩ := by
  unfold TaskPrototype.sizesOf
  rw [if_neg (other_ne who)]
  show (((pairs sizes)[step]?).map _).getD _ = _
  rw [getElem?_pairs]
  split
  · rfl
  · rw [List.getD_eq_default _ _ (by omega), List.getD_eq_default _ _ (by omega)]
    rfl

variable {sizes}

theorem getD_eq_zero_iff (hsizes : ∀ size ∈ sizes, size ≠ 0) (k : ℕ) :
    sizes.getD k 0 = 0 ↔ sizes.length ≤ k := by
  by_cases h : k < sizes.length
  · rw [List.getD_eq_getElem _ _ h]
    exact ⟨fun hzero => absurd hzero (hsizes _ (List.getElem_mem h)), fun hle => by omega⟩
  · rw [List.getD_eq_default _ _ (by omega)]
    exact ⟨fun _ => by omega, fun _ => rfl⟩

theorem expected_first (hsizes : ∀ size ∈ sizes, size ≠ 0) :
    (TaskPrototype.mk who (pairs sizes)).expectedToFinishInSteps who = sizes.length / 2 + 1 := by
  unfold TaskPrototype.expectedToFinishInSteps
  rw [if_pos rfl]
  show (match (pairs sizes).getLast? with | none => _ | some last => _) = _
  rw [List.getLast?_eq_getElem?, getElem?_pairs, length_pairs]
  by_cases h : 2 * ((sizes.length + 1) / 2 - 1) < sizes.length
  · rw [if_pos h]
    have hiff := getD_eq_zero_iff hsizes (2 * ((sizes.length + 1) / 2 - 1) + 1)
    show (sizes.length + 1) / 2 + (if sizes.getD _ 0 > 0 then 1 else 0) = _
    split <;> omega
  · rw [if_neg h]
    show 1 = _
    omega

theorem expected_second :
    (TaskPrototype.mk who (pairs sizes)).expectedToFinishInSteps who.other =
      max ((sizes.length + 1) / 2) 1 := by
  unfold TaskPrototype.expectedToFinishInSteps
  rw [if_neg (other_ne who), length_pairs]

theorem getElem?_alternating (k : ℕ) : (alternating who sizes)[k]? =
    sizes[k]?.map fun size => (if k % 2 = 0 then who else who.other, size) := by
  induction sizes generalizing who k with
  | nil => rfl
  | cons size sizes ih =>
    cases k with
    | zero => rfl
    | succ k =>
      rw [alternating, List.getElem?_cons_succ, List.getElem?_cons_succ, ih, other_other]
      congr 1
      funext size
      congr 1
      split <;> split <;> first | rfl | omega

theorem length_alternating : (alternating who sizes).length = sizes.length := by
  induction sizes generalizing who with
  | nil => rfl
  | cons size sizes ih => exact congrArg (· + 1) (ih who.other)

theorem take_alternating (k : ℕ) : (alternating who sizes).take (k + 1) =
    if sizes.length ≤ k then (alternating who sizes).take k
    else (alternating who sizes).take k ++
      [(if k % 2 = 0 then who else who.other, sizes.getD k 0)] := by
  rw [List.take_add_one, getElem?_alternating]
  by_cases h : sizes.length ≤ k
  · rw [if_pos h, List.getElem?_eq_none h]
    exact List.append_nil _
  · have hlt : k < sizes.length := by omega
    rw [if_neg h, List.getElem?_eq_getElem hlt, List.getD_eq_getElem _ _ hlt]
    rfl

end Sizes

/-! ## Runs -/

/-- The messages of a prototype, from a first sender in turns. -/
structure Messages where
  firstSender : TaskCommuniqueSender
  sizes : List ℕ
  sizes_ne_zero : ∀ size ∈ sizes, size ≠ 0

namespace Messages

variable (m : Messages)

def list : List (TaskCommuniqueSender × ℕ) := alternating m.firstSender m.sizes

def prototype : TaskPrototype where
  partyA := if m.sizes = [] then .prover else m.firstSender
  rounds := pairs m.sizes

theorem registerPrototype_eq : registerPrototype m.list = some m.prototype :=
  registerPrototype_alternating m.firstSender m.sizes_ne_zero

/-- What a task with a number of steps does after some of them. -/
def taskAfter (steps expected : ℕ) (want : Bool) : TaskState :=
  if steps < expected then .requested steps want else .finished steps

/-- After `a` steps of the first party and `b` steps of the other one, the message after the last step
is on its way. -/
structure Exchange (a b : ℕ) (s : System) : Prop where
  turn : a = b ∨ a = b + 1
  first_le : a ≤ m.sizes.length / 2 + 1
  second_le : b ≤ (m.sizes.length + 1) / 2
  first_eq : s.tasks m.firstSender = taskAfter a (m.sizes.length / 2 + 1) (decide (0 < a))
  second_eq : s.tasks m.firstSender.other = taskAfter b ((m.sizes.length + 1) / 2) true
  toSecond : s.inbox m.firstSender.other =
    if a = b + 1 ∧ 2 * b < m.sizes.length then [m.sizes.getD (2 * b) 0] else []
  toFirst : s.inbox m.firstSender =
    if a = b ∧ 0 < b ∧ 2 * b - 1 < m.sizes.length then [m.sizes.getD (2 * b - 1) 0] else []
  sent_eq : s.sent = m.list.take (a + b)

variable {m} {a b : ℕ} {s : System}

theorem exchange_launch (hne : m.sizes ≠ []) : m.Exchange 0 0 (System.launch m.prototype) := by
  have hpos := List.length_pos_iff.2 hne
  have hround : (pairs m.sizes)[0]?.isSome = true := by
    rw [getElem?_pairs, if_pos (by omega)]
    rfl
  have hwant : ∀ party, m.prototype.wantIncomingNetwork party = decide (party ≠ m.firstSender) := by
    intro party
    show ((pairs m.sizes)[0]?.isSome && decide (party ≠ if m.sizes = [] then _ else _)) = _
    rw [hround, if_neg hne, Bool.true_and]
  refine ⟨.inl rfl, by omega, by omega, ?_, ?_, (if_neg (by omega)).symm, (if_neg (by omega)).symm, rfl⟩
  · rw [taskAfter, if_pos (by omega)]
    exact congrArg (TaskState.requested 0) ((hwant _).trans (decide_eq_false (by simp)))
  · rw [taskAfter, if_pos (by omega)]
    exact congrArg (TaskState.requested 0) ((hwant _).trans (decide_eq_true (other_ne _)))

theorem prototype_eq (hne : m.sizes ≠ []) : m.prototype = ⟨m.firstSender, pairs m.sizes⟩ := by
  rw [prototype, if_neg hne]

theorem next_eq {stepNumber expected : ℕ} (h : stepNumber < expected) :
    (if stepNumber < expected - 1 then TaskState.requested (stepNumber + 1) true
      else .finished (stepNumber + 1)) = taskAfter (stepNumber + 1) expected true := by
  unfold taskAfter
  by_cases hlast : stepNumber < expected - 1
  · rw [if_pos hlast, if_pos (by omega)]
  · rw [if_neg hlast, if_neg (by omega)]

theorem stepTask_eq {prototype : TaskPrototype} {party : TaskCommuniqueSender}
    {stepNumber incoming outgoing : ℕ} (s : System)
    (h : prototype.sizesOf party stepNumber = ⟨incoming, outgoing⟩)
    (hstep : stepNumber < prototype.expectedToFinishInSteps party) :
    s.stepTask prototype party stepNumber incoming =
      { tasks := Function.update s.tasks party
          (taskAfter (stepNumber + 1) (prototype.expectedToFinishInSteps party) true)
        inbox := if outgoing = 0 then s.inbox
          else Function.update s.inbox party.other (s.inbox party.other ++ [outgoing])
        sent := if outgoing = 0 then s.sent else s.sent ++ [(party, outgoing)] } := by
  unfold System.stepTask
  dsimp only
  rw [h, if_neg (fun hne => hne rfl), next_eq hstep]

theorem exists_read {s' : System} {party : TaskCommuniqueSender} {steps expected incoming : ℕ}
    {want waiting : Bool} (hstep : s.step m.prototype party = some s')
    (htask : s.tasks party = taskAfter steps expected want)
    (hwant : want = false → s.inbox party = [] ∧ incoming = 0)
    (hinbox : s.inbox party = if waiting then [incoming] else []) :
    steps < expected ∧ (want = true → waiting = true) ∧
      s' = System.stepTask m.prototype { s with inbox := Function.update s.inbox party [] } party steps
        incoming := by
  unfold System.step at hstep
  rw [htask, taskAfter] at hstep
  by_cases hlt : steps < expected
  · rw [if_pos hlt] at hstep
    cases want with
    | false =>
      have ⟨hempty, hzero⟩ := hwant rfl
      refine ⟨hlt, nofun, ?_⟩
      rw [← hempty, Function.update_eq_self, hzero]
      exact (Option.some.inj hstep).symm
    | true =>
      dsimp only at hstep
      cases waiting with
      | false =>
        rw [hinbox] at hstep
        cases hstep
      | true =>
        rw [hinbox] at hstep
        exact ⟨hlt, fun _ => rfl, (Option.some.inj hstep).symm⟩
  · rw [if_neg hlt] at hstep
    cases hstep

theorem Exchange.step_first (hne : m.sizes ≠ []) (h : m.Exchange a b s) {s' : System}
    (hstep : s.step m.prototype m.firstSender = some s') : m.Exchange (a + 1) b s' := by
  have hother := other_ne m.firstSender
  have hinbox : s.inbox m.firstSender =
      if decide (a = b ∧ 0 < b ∧ 2 * b - 1 < m.sizes.length) = true then
        [if a = 0 then 0 else m.sizes.getD (2 * a - 1) 0] else [] := by
    rw [h.toFirst]
    simp only [decide_eq_true_eq]
    split
    · rename_i hwait
      rw [if_neg (by omega), hwait.1]
    · rfl
  obtain ⟨hlt, hwait, rfl⟩ := exists_read hstep h.first_eq (fun hwant => by
    have hzero : a = 0 := by simpa using hwant
    refine ⟨?_, if_pos hzero⟩
    rw [hinbox, if_neg (by simp; omega)]) hinbox
  have hturn : a = b := by
    rcases Nat.eq_zero_or_pos a with hzero | hpos
    · have := h.turn
      omega
    · have hwait := hwait (decide_eq_true hpos)
      exact (of_decide_eq_true hwait).1
  have hexpected := expected_first m.firstSender m.sizes_ne_zero
  have hzero := getD_eq_zero_iff m.sizes_ne_zero (2 * a)
  have hempty : s.inbox m.firstSender.other = [] := h.toSecond.trans (if_neg (by omega))
  rw [prototype_eq hne, stepTask_eq _ (sizesOf_first _ _ a) (hexpected ▸ hlt), hexpected]
  refine ⟨.inr (by omega), hlt, h.second_le, ?_, ?_, ?_, ?_, ?_⟩
  · dsimp only
    rw [Function.update_self, decide_eq_true (by omega)]
  · dsimp only
    rw [Function.update_of_ne hother, h.second_eq]
  · dsimp only
    by_cases hsend : m.sizes.length ≤ 2 * a
    · rw [if_pos (hzero.2 hsend), Function.update_of_ne hother, hempty, if_neg (by omega)]
    · rw [if_neg (fun hz => hsend (hzero.1 hz)), Function.update_self, Function.update_of_ne hother,
        hempty, if_pos (by omega), hturn]
      rfl
  · have hidle : ¬(a + 1 = b ∧ 0 < b ∧ 2 * b - 1 < m.sizes.length) := by omega
    dsimp only
    rw [if_neg hidle]
    split
    · rw [Function.update_self]
    · rw [Function.update_of_ne hother.symm, Function.update_self]
  · show (if m.sizes.getD (2 * a) 0 = 0 then s.sent else s.sent ++ [_]) = _
    rw [(by omega : a + 1 + b = 2 * a + 1), list, take_alternating, h.sent_eq, list,
      (by omega : a + b = 2 * a), if_pos (by omega : 2 * a % 2 = 0)]
    simp only [hzero]

theorem Exchange.step_second (hne : m.sizes ≠ []) (h : m.Exchange a b s) {s' : System}
    (hstep : s.step m.prototype m.firstSender.other = some s') : m.Exchange a (b + 1) s' := by
  have hother := other_ne m.firstSender
  have hinbox : s.inbox m.firstSender.other =
      if decide (a = b + 1 ∧ 2 * b < m.sizes.length) = true then [m.sizes.getD (2 * b) 0] else [] := by
    rw [h.toSecond]
    simp only [decide_eq_true_eq]
  obtain ⟨hlt, hwait, rfl⟩ := exists_read hstep h.second_eq nofun hinbox
  have hturn := (of_decide_eq_true (hwait rfl)).1
  have hpos := List.length_pos_iff.2 hne
  have hexpected : (TaskPrototype.mk m.firstSender (pairs m.sizes)).expectedToFinishInSteps
      m.firstSender.other = (m.sizes.length + 1) / 2 := by
    rw [expected_second]
    omega
  have hzero := getD_eq_zero_iff m.sizes_ne_zero (2 * b + 1)
  have hempty : s.inbox m.firstSender = [] := h.toFirst.trans (if_neg (by omega))
  rw [prototype_eq hne, stepTask_eq _ (sizesOf_second _ _ b) (hexpected ▸ hlt), hexpected, other_other]
  refine ⟨.inl hturn, h.first_le, hlt, ?_, ?_, ?_, ?_, ?_⟩
  · dsimp only
    rw [Function.update_of_ne hother.symm, h.first_eq]
  · dsimp only
    rw [Function.update_self]
  · have hidle : ¬(a = b + 1 + 1 ∧ 2 * (b + 1) < m.sizes.length) := by omega
    dsimp only
    rw [if_neg hidle]
    split
    · rw [Function.update_self]
    · rw [Function.update_of_ne hother, Function.update_self]
  · dsimp only
    by_cases hsend : m.sizes.length ≤ 2 * b + 1
    · rw [if_pos (hzero.2 hsend), Function.update_of_ne hother.symm, hempty, if_neg (by omega)]
    · rw [if_neg (fun hz => hsend (hzero.1 hz)), Function.update_self,
        Function.update_of_ne hother.symm, hempty, if_pos (by omega),
        (by omega : 2 * (b + 1) - 1 = 2 * b + 1)]
      rfl
  · show (if m.sizes.getD (2 * b + 1) 0 = 0 then s.sent else s.sent ++ [_]) = _
    rw [(by omega : a + (b + 1) = 2 * b + 1 + 1), list, take_alternating, h.sent_eq, list,
      (by omega : a + b = 2 * b + 1), if_neg (by omega : ¬(2 * b + 1) % 2 = 0)]
    simp only [hzero]

/-- What is true of a task of both parties after some steps. -/
structure Agreement (m : Messages) (n : ℕ) (s : System) : Prop where
  steps_le : n ≤ m.prototype.expectedToFinishInSteps .prover +
    m.prototype.expectedToFinishInSteps .verifier
  not_failed : ∀ party, s.tasks party ≠ .failed
  sent_prefix : s.sent <+: m.list
  inbox_le : ∀ party, (s.inbox party).length ≤ 1
  /-- A task of a party goes on, or all messages have been sent and read. -/
  progress : (∃ party s', s.step m.prototype party = some s') ∨ s.sent = m.list ∧
    ∀ party, s.tasks party = .finished (m.prototype.expectedToFinishInSteps party) ∧ s.inbox party = []

theorem eq_or_other (who party : TaskCommuniqueSender) : party = who ∨ party = who.other := by
  cases who <;> cases party <;> simp [TaskCommuniqueSender.other]

theorem expected_add (p : TaskPrototype) (who : TaskCommuniqueSender) :
    p.expectedToFinishInSteps .prover + p.expectedToFinishInSteps .verifier =
      p.expectedToFinishInSteps who + p.expectedToFinishInSteps who.other := by
  cases who with
  | prover => rfl
  | verifier => exact Nat.add_comm _ _

theorem taskAfter_ne_failed (steps expected : ℕ) (want : Bool) :
    taskAfter steps expected want ≠ .failed := by
  unfold taskAfter
  split <;> exact nofun

theorem Exchange.can_step_first (h : m.Exchange a b s) (hlt : a < m.sizes.length / 2 + 1) (hturn : a = b) :
    ∃ s', s.step m.prototype m.firstSender = some s' := by
  unfold System.step
  rw [h.first_eq, taskAfter, if_pos hlt]
  by_cases hpos : 0 < a
  · rw [decide_eq_true hpos, h.toFirst, if_pos (by omega)]
    exact ⟨_, rfl⟩
  · rw [decide_eq_false hpos]
    exact ⟨_, rfl⟩

theorem Exchange.can_step_second (h : m.Exchange a b s) (hlt : b < (m.sizes.length + 1) / 2)
    (hturn : a = b + 1) : ∃ s', s.step m.prototype m.firstSender.other = some s' := by
  unfold System.step
  rw [h.second_eq, taskAfter, if_pos hlt]
  dsimp only
  rw [h.toSecond, if_pos (by omega)]
  exact ⟨_, rfl⟩

theorem Exchange.agreement (hne : m.sizes ≠ []) (h : m.Exchange a b s) : Agreement m (a + b) s := by
  have hpos := List.length_pos_iff.2 hne
  have hfirst : m.prototype.expectedToFinishInSteps m.firstSender = m.sizes.length / 2 + 1 := by
    rw [prototype_eq hne, expected_first _ m.sizes_ne_zero]
  have hsecond : m.prototype.expectedToFinishInSteps m.firstSender.other =
      (m.sizes.length + 1) / 2 := by
    rw [prototype_eq hne, expected_second]
    omega
  refine ⟨?_, ?_, ?_, ?_, ?_⟩
  · have hle := h.first_le
    have hle' := h.second_le
    rw [expected_add _ m.firstSender, hfirst, hsecond]
    omega
  · intro party
    rcases eq_or_other m.firstSender party with rfl | rfl
    · rw [h.first_eq]
      exact taskAfter_ne_failed _ _ _
    · rw [h.second_eq]
      exact taskAfter_ne_failed _ _ _
  · rw [h.sent_eq]
    exact List.take_prefix _ _
  · intro party
    rcases eq_or_other m.firstSender party with rfl | rfl
    · rw [h.toFirst]
      split <;> simp
    · rw [h.toSecond]
      split <;> simp
  · have hle := h.first_le
    have hle' := h.second_le
    by_cases hmove : a = b ∧ a < m.sizes.length / 2 + 1
    · exact .inl ⟨_, h.can_step_first hmove.2 hmove.1⟩
    · by_cases hmove' : a = b + 1 ∧ b < (m.sizes.length + 1) / 2
      · exact .inl ⟨_, h.can_step_second hmove'.2 hmove'.1⟩
      · -- Neither party has a step left.
        have hturn := h.turn
        refine .inr ⟨?_, ?_⟩
        · rw [h.sent_eq, List.take_of_length_le]
          rw [list, length_alternating]
          omega
        · intro party
          rcases eq_or_other m.firstSender party with rfl | rfl
          · rw [h.first_eq, taskAfter, if_neg (by omega), h.toFirst, if_neg (by omega), hfirst]
            exact ⟨congrArg TaskState.finished (by omega), rfl⟩
          · rw [h.second_eq, taskAfter, if_neg (by omega), h.toSecond, if_neg (by omega), hsecond]
            exact ⟨congrArg TaskState.finished (by omega), rfl⟩

theorem exists_exchange (hne : m.sizes ≠ []) {n : ℕ} (h : System.Reachable m.prototype n s) :
    ∃ a b, n = a + b ∧ m.Exchange a b s := by
  induction h with
  | launch => exact ⟨0, 0, rfl, exchange_launch hne⟩
  | @step n s s' party _ hstep ih =>
    obtain ⟨a, b, rfl, hexchange⟩ := ih
    rcases eq_or_other m.firstSender party with rfl | rfl
    · exact ⟨a + 1, b, by omega, hexchange.step_first hne hstep⟩
    · exact ⟨a, b + 1, by omega, hexchange.step_second hne hstep⟩

/-! ## Without messages -/

/-- Without messages each party takes one step. -/
structure Silent (n : ℕ) (s : System) : Prop where
  sent_eq : s.sent = []
  inbox_eq : ∀ party, s.inbox party = []
  tasks_eq : ∀ party, s.tasks party = .requested 0 false ∨ s.tasks party = .finished 1
  steps_eq : n = (if s.tasks .prover = .finished 1 then 1 else 0) +
    if s.tasks .verifier = .finished 1 then 1 else 0

section Silence

variable (hempty : m.sizes = [])

theorem silent_sizes (step : ℕ) (party : TaskCommuniqueSender) :
    (TaskPrototype.mk .prover []).sizesOf party step = ⟨0, 0⟩ := by
  unfold TaskPrototype.sizesOf
  split
  · simp
  · rfl

include hempty in
theorem silent_prototype : m.prototype = ⟨.prover, []⟩ := by
  unfold prototype
  rw [if_pos hempty, hempty]
  rfl

theorem silent_expected (party : TaskCommuniqueSender) :
    (TaskPrototype.mk .prover []).expectedToFinishInSteps party = 1 := by
  cases party with
  | prover => rfl
  | verifier => rfl

include hempty in
theorem silent_reachable {n : ℕ} (h : System.Reachable m.prototype n s) : Silent n s := by
  rw [silent_prototype hempty] at h
  induction h with
  | launch => exact ⟨rfl, fun _ => rfl, fun party => .inl (by cases party <;> rfl), rfl⟩
  | @step n s s' party _ hstep ih =>
    have htask : s.tasks party = .requested 0 false := by
      rcases ih.tasks_eq party with htask | htask
      · exact htask
      · unfold System.step at hstep
        rw [htask] at hstep
        cases hstep
    have hs' : s' = ⟨Function.update s.tasks party (.finished 1), s.inbox, s.sent⟩ := by
      unfold System.step at hstep
      rw [htask] at hstep
      rw [← Option.some.inj hstep, stepTask_eq s (silent_sizes 0 party) (by
        rw [silent_expected]
        omega), silent_expected]
      rfl
    subst hs'
    refine ⟨ih.sent_eq, ih.inbox_eq, fun other => ?_, ?_⟩
    · by_cases hother : other = party
      · subst hother
        exact .inr (Function.update_self ..)
      · dsimp only
        rw [Function.update_of_ne hother]
        exact ih.tasks_eq other
    · rw [ih.steps_eq]
      cases party with
      | prover => simp [htask, Nat.add_comm]
      | verifier => simp [htask]

include hempty in
theorem Silent.agreement {n : ℕ} (h : Silent n s) : Agreement m n s := by
  have hlist : m.list = [] := by rw [list, hempty]; rfl
  refine ⟨?_, ?_, ?_, ?_, ?_⟩
  · rw [h.steps_eq, silent_prototype hempty, silent_expected, silent_expected]
    split <;> split <;> omega
  · intro party hfailed
    rcases h.tasks_eq party with htask | htask <;> rw [htask] at hfailed <;> cases hfailed
  · rw [h.sent_eq]
    exact List.nil_prefix
  · intro party
    rw [h.inbox_eq]
    exact Nat.zero_le 1
  · by_cases hdone : ∀ party, s.tasks party = .finished 1
    · refine .inr ⟨h.sent_eq.trans hlist.symm, fun party => ⟨?_, h.inbox_eq party⟩⟩
      rw [hdone, silent_prototype hempty, silent_expected]
    · obtain ⟨party, hparty⟩ := not_forall.1 hdone
      have htask := (h.tasks_eq party).resolve_right hparty
      refine .inl ⟨party, ?_⟩
      unfold System.step
      rw [htask]
      exact ⟨_, rfl⟩

end Silence

end Messages

end Communication

end EdaBitGen.MacNCheese
