import EdaBitGen.Fields
import EdaBitGen.Inferno.Model

/-!
# Equality checks on circuits

The builders extend a circuit, so that its only output is zero if the outputs were the expected
values.  A circuit keeps the number of its multiplications.
-/

namespace EdaBitGen.SimpleArithCircuit

open Inferno (Op)

/-- A circuit with a count of its multiplications. -/
structure Circuit (F : Type) where
  ops : List (Op F)
  ninputs : ℕ
  noutputs : ℕ
  nmuls : ℕ
  noutputs_le : noutputs ≤ ops.length
  nmuls_eq : nmuls = ops.countP Op.isMul

namespace Circuit

variable {F : Type}

def new (ninputs noutputs : ℕ) (ops : List (Op F)) : Option (Circuit F) :=
  if h : noutputs ≤ ops.length then
    some ⟨ops, ninputs, noutputs, (ops.filter Op.isMul).length, h, List.countP_eq_length_filter.symm⟩
  else none

def nwires (c : Circuit F) : ℕ := c.ops.length + c.ninputs

/-- Add an operation and return its index. -/
def push (c : Circuit F) (op : Op F) : ℕ × Circuit F :=
  (c.ops.length, { c with
    ops := c.ops ++ [op]
    nmuls := if op.isMul then c.nmuls + 1 else c.nmuls
    noutputs_le := by
      rw [List.length_append]
      exact Nat.le_add_right_of_le c.noutputs_le
    nmuls_eq := by
      rw [List.countP_append, List.countP_singleton, c.nmuls_eq]
      split <;> simp_all })

/-- Add an operation whose wire is the only output. -/
def pushOutput (c : Circuit F) (op : Op F) : Circuit F :=
  { (c.push op).2 with
    noutputs := 1
    noutputs_le := by
      show 1 ≤ (c.ops ++ [op]).length
      rw [List.length_append]
      exact Nat.le_add_left 1 _ }

variable [Field F]

/-- What an operation computes; to read a wire that is not there panics. -/
def evalOp (wires : List F) : Op F → Option F
  | .add n m => do some ((← wires[n]?) + (← wires[m]?))
  | .mul n m => do some ((← wires[n]?) * (← wires[m]?))
  | .sub n m => do some ((← wires[n]?) - (← wires[m]?))
  | .constant f => some f
  | .copy n => wires[n]?

def evalOps (ops : List (Op F)) (wires : List F) : Option (List F) :=
  ops.foldlM (fun wires op => (evalOp wires op).map fun res => wires ++ [res]) wires

def eval (c : Circuit F) (inputs : List F) : Option (List F) :=
  if inputs.length = c.ninputs then
    (evalOps c.ops inputs).map fun wires => wires.drop (wires.length - c.noutputs)
  else none

end Circuit

/-! ## The builders -/

def addEqualityCheck {F : Type} (circuit : Circuit F) (value : F) : Option (Circuit F) :=
  if circuit.noutputs = 1 then
    let circuit := (circuit.push (.constant value)).2
    some (circuit.push (.sub (circuit.nwires - 2) (circuit.nwires - 1))).2
  else none

def pushConstant {F : Type} (circuit : Circuit F) (value : F) : Circuit F :=
  (circuit.push (.constant value)).2

/-- Subtract a value from an output, negate the difference and keep where the result is. -/
def pushNegatedDifference (one : ℕ) (s : Circuit F2 × List ℕ) (p : ℕ × ℕ) : Circuit F2 × List ℕ :=
  let sub := s.1.push (.sub (s.1.ninputs + p.1) (s.1.ninputs + p.2))
  let add := sub.2.push (.add (sub.2.ninputs + sub.1) (sub.2.ninputs + one))
  (add.2, s.2 ++ [add.1])

def pushConjunction (s : ℕ × Circuit F2) (result : ℕ) : ℕ × Circuit F2 :=
  s.2.push (.mul (s.2.ninputs + s.1) (s.2.ninputs + result))

def addBinaryEqualityCheck (circuit : Circuit F2) (values : List F2) : Option (Circuit F2) :=
  if values.length = circuit.noutputs then
    let outputRange := List.range' (circuit.ops.length - circuit.noutputs) circuit.noutputs
    let constants := values.foldl pushConstant circuit
    let valueRange := List.range' (constants.ops.length - values.length) values.length
    let one := constants.push (.constant 1)
    let results := (outputRange.zip valueRange).foldl (pushNegatedDifference one.1) (one.2, [])
    let wire := results.2.foldl pushConjunction (results.1.ops.length - 1, results.1)
    -- zero means equal
    some (wire.2.pushOutput (.add (wire.2.ninputs + wire.1) (wire.2.ninputs + one.1)))
  else none

/-! ## Runs -/

namespace Circuit

variable {F : Type} [Field F] {c : Circuit F} {inputs ws : List F}

theorem evalOps_append (ops more : List (Op F)) (ws : List F) :
    evalOps (ops ++ more) ws = (evalOps ops ws).bind (evalOps more) :=
  List.foldlM_append

theorem evalOps_singleton (op : Op F) (ws : List F) :
    evalOps [op] ws = (evalOp ws op).map fun res => ws ++ [res] := by
  rw [evalOps, List.foldlM_cons]
  cases evalOp ws op <;> rfl

theorem length_evalOps {ops : List (Op F)} {ws ws' : List F} (h : evalOps ops ws = some ws') :
    ws'.length = ws.length + ops.length := by
  induction ops generalizing ws with
  | nil =>
    obtain rfl := Option.some.inj h
    rfl
  | cons op ops ih =>
    rw [← List.singleton_append, evalOps_append, evalOps_singleton] at h
    obtain ⟨ws₁, hop, hops⟩ := Option.bind_eq_some_iff.1 h
    obtain ⟨res, -, rfl⟩ := Option.map_eq_some_iff.1 hop
    rw [ih hops, List.length_append, List.length_singleton, List.length_cons]
    omega

/-- The operations return all wires. -/
structure Runs (c : Circuit F) (inputs ws : List F) : Prop where
  length_inputs : inputs.length = c.ninputs
  evalOps_eq : evalOps c.ops inputs = some ws

/-- The wire of an operation has a value. -/
def HasValue (ninputs : ℕ) (ws : List F) (idx : ℕ) (x : F) : Prop := ws[ninputs + idx]? = some x

omit [Field F] in
theorem HasValue.append {n idx : ℕ} {x : F} (h : HasValue n ws idx x) (ys : List F) :
    HasValue n (ws ++ ys) idx x := by
  have hlt : n + idx < ws.length := (List.getElem?_eq_some_iff.1 h).1
  rw [HasValue, List.getElem?_append_left hlt, h]

theorem Runs.length_eq (h : c.Runs inputs ws) : ws.length = c.ninputs + c.ops.length := by
  rw [length_evalOps h.evalOps_eq, h.length_inputs]

theorem Runs.eval_eq (h : c.Runs inputs ws) :
    c.eval inputs = some (ws.drop (ws.length - c.noutputs)) := by
  rw [eval, if_pos h.length_inputs, h.evalOps_eq]
  rfl

theorem exists_runs_of_eval {outs : List F} (h : c.eval inputs = some outs) :
    ∃ ws, c.Runs inputs ws ∧ outs = ws.drop (ws.length - c.noutputs) := by
  rw [eval] at h
  obtain ⟨hlen, h⟩ := Option.ite_none_right_eq_some.1 h
  obtain ⟨ws, hws, rfl⟩ := Option.map_eq_some_iff.1 h
  exact ⟨ws, ⟨hlen, hws⟩, rfl⟩

theorem Runs.push (h : c.Runs inputs ws) {op : Op F} {x : F} (hop : evalOp ws op = some x) :
    (c.push op).2.Runs inputs (ws ++ [x]) ∧ HasValue c.ninputs (ws ++ [x]) (c.push op).1 x := by
  refine ⟨⟨h.length_inputs, ?_⟩, ?_⟩
  · show evalOps (c.ops ++ [op]) inputs = _
    rw [evalOps_append, h.evalOps_eq, Option.bind_some, evalOps_singleton, hop]
    rfl
  · show (ws ++ [x])[c.ninputs + c.ops.length]? = some x
    rw [← h.length_eq, List.getElem?_concat_length]

omit [Field F] in
theorem holds_range' (n : ℕ) (pre ys post : List F) {i : ℕ} (hpre : pre.length = n + i) :
    List.Forall₂ (HasValue n (pre ++ ys ++ post)) (List.range' i ys.length) ys := by
  induction ys generalizing pre i with
  | nil => exact .nil
  | cons y ys ih =>
    rw [List.length_cons, List.range'_succ]
    have hrest := ih (pre ++ [y]) (i := i + 1) (by rw [List.length_append, hpre]; rfl)
    rw [List.append_assoc pre, List.singleton_append] at hrest
    refine .cons ?_ hrest
    rw [HasValue, ← hpre, List.append_assoc, List.getElem?_append_right le_rfl, Nat.sub_self]
    rfl

theorem Runs.constants (values : List F) (h : c.Runs inputs ws) :
    (values.foldl pushConstant c).Runs inputs (ws ++ values) ∧
      (values.foldl pushConstant c).ninputs = c.ninputs := by
  induction values generalizing c ws with
  | nil => exact ⟨by rwa [List.append_nil], rfl⟩
  | cons value values ih =>
    have hvalue : evalOp ws (.constant value) = some value := rfl
    obtain ⟨hruns, hn⟩ := ih (h.push hvalue).1
    rw [List.append_assoc, List.singleton_append] at hruns
    exact ⟨hruns, hn⟩

/-- A circuit with more operations. -/
def Extends (c c' : Circuit F) : Prop :=
  c'.ninputs = c.ninputs ∧ ∃ more, c'.ops = c.ops ++ more

omit [Field F] in
theorem extends_push (c : Circuit F) (op : Op F) : c.Extends (c.push op).2 := ⟨rfl, [op], rfl⟩

omit [Field F] in
theorem extends_pushOutput (c : Circuit F) (op : Op F) : c.Extends (c.pushOutput op) :=
  ⟨rfl, [op], rfl⟩

omit [Field F] in
theorem Extends.trans {c c' c'' : Circuit F} (h : c.Extends c') (h' : c'.Extends c'') :
    c.Extends c'' := by
  obtain ⟨hn, more, hops⟩ := h
  obtain ⟨hn', more', hops'⟩ := h'
  exact ⟨hn'.trans hn, more ++ more', by rw [hops', hops, List.append_assoc]⟩

omit [Field F] in
theorem extends_foldl {σ β : Type} (circuit : σ → Circuit F) {step : σ → β → σ}
    (hstep : ∀ s b, (circuit s).Extends (circuit (step s b))) (bs : List β) (s : σ) :
    (circuit s).Extends (circuit (bs.foldl step s)) := by
  induction bs generalizing s with
  | nil => exact ⟨rfl, [], (List.append_nil _).symm⟩
  | cons b bs ih => exact (hstep s b).trans (ih (step s b))

theorem Extends.eval_eq_none {c' : Circuit F} (h : c.Extends c') (hnone : c.eval inputs = none) :
    c'.eval inputs = none := by
  obtain ⟨hn, more, hops⟩ := h
  rw [eval, hn, hops, evalOps_append]
  split
  · rename_i hlen
    rw [eval, if_pos hlen, Option.map_eq_none_iff] at hnone
    rw [hnone]
    rfl
  · rfl

theorem Runs.pushOutput (h : c.Runs inputs ws) {op : Op F} {x : F} (hop : evalOp ws op = some x) :
    (c.pushOutput op).eval inputs = some [x] := by
  have hruns : (c.pushOutput op).Runs inputs (ws ++ [x]) := ⟨h.length_inputs, (h.push hop).1.2⟩
  rw [hruns.eval_eq, List.length_append, List.length_singleton]
  exact congrArg some (List.drop_left' rfl)

theorem evalOp_sub {n i j : ℕ} {x y : F} (hx : HasValue n ws i x) (hy : HasValue n ws j y) :
    evalOp ws (.sub (n + i) (n + j)) = some (x - y) := by
  rw [evalOp, hx, hy]
  rfl

theorem evalOp_add {n i j : ℕ} {x y : F} (hx : HasValue n ws i x) (hy : HasValue n ws j y) :
    evalOp ws (.add (n + i) (n + j)) = some (x + y) := by
  rw [evalOp, hx, hy]
  rfl

theorem evalOp_mul {n i j : ℕ} {x y : F} (hx : HasValue n ws i x) (hy : HasValue n ws j y) :
    evalOp ws (.mul (n + i) (n + j)) = some (x * y) := by
  rw [evalOp, hx, hy]
  rfl

end Circuit

open Circuit

theorem addEqualityCheck_spec {F : Type} [Field F] {c c' : Circuit F} {value : F}
    (h : addEqualityCheck c value = some c') (inputs : List F) :
    c.eval inputs = none ∧ c'.eval inputs = none ∨
      ∃ y, c.eval inputs = some [y] ∧ c'.eval inputs = some [y - value] := by
  obtain ⟨hone, h⟩ := Option.ite_none_right_eq_some.1 h
  obtain rfl := Option.some.inj h
  cases heval : c.eval inputs with
  | none =>
    have hpush := c.extends_push (.constant value)
    exact .inl ⟨rfl, (hpush.trans (extends_push _ _)).eval_eq_none heval⟩
  | some outs =>
    obtain ⟨ws, hruns, rfl⟩ := exists_runs_of_eval heval
    have hops : 1 ≤ c.ops.length := hone ▸ c.noutputs_le
    have hlen := hruns.length_eq
    rcases ws.eq_nil_or_concat' with rfl | ⟨ws, y, rfl⟩
    · rw [List.length_nil] at hlen
      omega
    rw [List.length_append, List.length_singleton] at hlen
    have hlast : HasValue c.ninputs (ws ++ [y]) (c.ops.length - 1) y := by
      have hidx : c.ninputs + (c.ops.length - 1) = ws.length := by omega
      rw [HasValue, hidx, List.getElem?_concat_length]
    have hconst : evalOp (ws ++ [y]) (.constant value) = some value := rfl
    obtain ⟨hruns₁, hvalue⟩ := hruns.push hconst
    have hwires : (c.push (.constant value)).2.nwires = c.ninputs + (c.ops.length + 1) := by
      show (c.ops ++ [_]).length + c.ninputs = _
      rw [List.length_append, List.length_singleton, Nat.add_comm]
    have hsub : (c.push (.constant value)).2.nwires - 2 = c.ninputs + (c.ops.length - 1) ∧
        (c.push (.constant value)).2.nwires - 1 = c.ninputs + c.ops.length := by
      omega
    obtain ⟨hruns₂, -⟩ := hruns₁.push (evalOp_sub (hlast.append [value]) hvalue)
    refine .inr ⟨y, ?_, ?_⟩
    · rw [hone, List.length_append, List.length_singleton, Nat.add_sub_cancel, List.drop_left' rfl]
    · rw [hsub.1, hsub.2]
      refine hruns₂.eval_eq.trans ?_
      show some (List.drop (_ - c.noutputs) _) = _
      rw [hone]
      exact congrArg some (List.drop_left' (by simp))

/-! ## Equality with all values -/

section Binary

variable {c : Circuit F2} {inputs ws : List F2} {one : ℕ}

theorem Circuit.Runs.differences {outputs values results : List ℕ} {os vs bits : List F2}
    (h : c.Runs inputs ws) (hone : HasValue c.ninputs ws one 1)
    (hos : List.Forall₂ (HasValue c.ninputs ws) outputs os)
    (hvs : List.Forall₂ (HasValue c.ninputs ws) values vs)
    (hbits : List.Forall₂ (HasValue c.ninputs ws) results bits)
    (hlast : HasValue c.ninputs ws (c.ops.length - 1) (bits.getLast?.getD 1)) :
    let s := (outputs.zip values).foldl (pushNegatedDifference one) (c, results)
    let bits' := bits ++ List.zipWith (fun o v => o - v + 1) os vs
    ∃ ys, s.1.Runs inputs (ws ++ ys) ∧ s.1.ninputs = c.ninputs ∧
      List.Forall₂ (HasValue c.ninputs (ws ++ ys)) s.2 bits' ∧
      HasValue c.ninputs (ws ++ ys) (s.1.ops.length - 1) (bits'.getLast?.getD 1) := by
  induction outputs generalizing c ws values os vs results bits with
  | nil =>
    cases hos
    exact ⟨[], by simpa using ⟨h, hbits, hlast⟩⟩
  | cons output outputs ih =>
    cases hos with
    | @cons _ o _ os ho hos =>
      cases hvs with
      | nil => exact ⟨[], by simpa using ⟨h, hbits, hlast⟩⟩
      | @cons value v values vs hv hvs =>
        obtain ⟨h₁, hsub⟩ := h.push (evalOp_sub ho hv)
        obtain ⟨h₂, hadd⟩ := h₁.push (evalOp_add hsub (hone.append [o - v]))
        have hframe : ∀ i x, HasValue c.ninputs ws i x →
            HasValue c.ninputs (ws ++ [o - v] ++ [o - v + 1]) i x :=
          fun i x hi => (hi.append _).append _
        have hbits' : List.Forall₂ (HasValue c.ninputs (ws ++ [o - v] ++ [o - v + 1]))
            (results ++ [_]) (bits ++ [o - v + 1]) :=
          List.rel_append (hbits.imp hframe) (.cons hadd .nil)
        have hlast' : (bits ++ [o - v + 1]).getLast?.getD 1 = o - v + 1 := by
          rw [List.getLast?_concat, Option.getD_some]
        obtain ⟨ys, hys⟩ := ih h₂ (hframe one 1 hone) (hos.imp hframe) (hvs.imp hframe) hbits' (by
          rw [hlast']
          show HasValue _ _ ((_ ++ [_]).length - 1) _
          rw [List.length_append, List.length_singleton, Nat.add_sub_cancel]
          exact hadd)
        refine ⟨[o - v] ++ [o - v + 1] ++ ys, ?_⟩
        simp only [List.append_assoc] at hys ⊢
        exact hys

theorem Circuit.Runs.conjunctions {wire : ℕ} {b : F2} {results : List ℕ} {bits : List F2}
    (h : c.Runs inputs ws) (hwire : HasValue c.ninputs ws wire b)
    (hbits : List.Forall₂ (HasValue c.ninputs ws) results bits) :
    let s := results.foldl pushConjunction (wire, c)
    ∃ ys, s.2.Runs inputs (ws ++ ys) ∧ s.2.ninputs = c.ninputs ∧
      HasValue c.ninputs (ws ++ ys) s.1 (b * bits.prod) := by
  induction results generalizing c ws wire b bits with
  | nil =>
    cases hbits
    exact ⟨[], by simpa using ⟨h, hwire⟩⟩
  | cons result results ih =>
    cases hbits with
    | @cons _ bit _ bits hbit hbits =>
      obtain ⟨h₁, hmul⟩ := h.push (evalOp_mul hwire hbit)
      have hframe : ∀ i x, HasValue c.ninputs ws i x → HasValue c.ninputs (ws ++ [b * bit]) i x :=
        fun i x hi => hi.append _
      obtain ⟨ys, hys⟩ := ih h₁ hmul (hbits.imp hframe)
      refine ⟨[b * bit] ++ ys, ?_⟩
      rw [List.prod_cons, ← mul_assoc, ← List.append_assoc]
      exact hys

end Binary

theorem mul_eq_one_iff : ∀ x y : F2, x * y = 1 ↔ x = 1 ∧ y = 1 := by decide

theorem prod_eq_one_iff (bits : List F2) : bits.prod = 1 ↔ ∀ b ∈ bits, b = 1 := by
  induction bits with
  | nil => simp
  | cons b bits ih => rw [List.prod_cons, mul_eq_one_iff, ih, List.forall_mem_cons]

theorem forall_negatedDifference_iff {outs values : List F2} (h : outs.length = values.length) :
    (∀ b ∈ List.zipWith (fun o v => o - v + 1) outs values, b = 1) ↔ outs = values := by
  induction outs generalizing values with
  | nil =>
    cases values with
    | nil => simp
    | cons v values => cases h
  | cons o outs ih =>
    cases values with
    | nil => cases h
    | cons v values =>
      have hbit : o - v + 1 = 1 ↔ o = v := by rw [add_eq_right, sub_eq_zero]
      rw [List.zipWith_cons_cons, List.forall_mem_cons, hbit, ih (Nat.succ.inj h), List.cons.injEq]

theorem conjunction_eq_one_iff (bits : List F2) :
    bits.getLast?.getD 1 * bits.prod = 1 ↔ ∀ b ∈ bits, b = 1 := by
  rw [mul_eq_one_iff, prod_eq_one_iff, and_iff_right_iff_imp]
  intro h
  cases hlast : bits.getLast? with
  | none => rfl
  | some b => exact h b (List.mem_of_getLast? hlast)

theorem extends_pushNegatedDifference (one : ℕ) (s : Circuit F2 × List ℕ) (p : ℕ × ℕ) :
    s.1.Extends (pushNegatedDifference one s p).1 :=
  (extends_push s.1 _).trans (extends_push _ _)

theorem extends_addBinaryEqualityCheck {c c' : Circuit F2} {values : List F2}
    (h : addBinaryEqualityCheck c values = some c') : c.Extends c' := by
  obtain ⟨hlen, h⟩ := Option.ite_none_right_eq_some.1 h
  obtain rfl := Option.some.inj h
  refine .trans ?_ (extends_pushOutput _ _)
  refine .trans ?_ (extends_foldl Prod.snd (fun s _ => extends_push s.2 _) _ (_, _))
  refine .trans ?_ (extends_foldl Prod.fst (extends_pushNegatedDifference _) _ (_, []))
  refine .trans ?_ (extends_push _ _)
  exact extends_foldl id (fun c v => c.extends_push (.constant v)) values c

theorem addBinaryEqualityCheck_spec {c c' : Circuit F2} {values : List F2}
    (h : addBinaryEqualityCheck c values = some c') {inputs outs : List F2}
    (heval : c.eval inputs = some outs) :
    ∃ z, c'.eval inputs = some [z] ∧ (z = 0 ↔ outs = values) := by
  obtain ⟨hlen, h⟩ := Option.ite_none_right_eq_some.1 h
  obtain rfl := Option.some.inj h
  obtain ⟨ws, hruns, rfl⟩ := exists_runs_of_eval heval
  have hle := c.noutputs_le
  have hws := hruns.length_eq
  have houts : (ws.drop (ws.length - c.noutputs)).length = c.noutputs := by
    rw [List.length_drop]
    omega
  obtain ⟨hruns₁, hn₁⟩ := hruns.constants values
  have hos : List.Forall₂ (HasValue c.ninputs (ws ++ values))
      (List.range' (c.ops.length - c.noutputs) c.noutputs)
      (ws.drop (ws.length - c.noutputs)) := by
    have hsplit := holds_range' c.ninputs (ws.take (ws.length - c.noutputs))
      (ws.drop (ws.length - c.noutputs)) values (i := c.ops.length - c.noutputs)
      (by rw [List.length_take]; omega)
    rwa [houts, List.take_append_drop] at hsplit
  rw [← hn₁] at hos
  have hvs : List.Forall₂ (HasValue (values.foldl pushConstant c).ninputs (ws ++ values))
      (List.range' ((values.foldl pushConstant c).ops.length - values.length) values.length)
      values := by
    have hlen₁ := hruns₁.length_eq
    rw [List.length_append] at hlen₁
    have hsplit := holds_range' (values.foldl pushConstant c).ninputs ws values []
      (i := (values.foldl pushConstant c).ops.length - values.length) (by omega)
    rwa [List.append_nil] at hsplit
  have hconst : evalOp (ws ++ values) (.constant 1) = some (1 : F2) := rfl
  obtain ⟨hruns₂, hone⟩ := hruns₁.push hconst
  have hlast : HasValue (values.foldl pushConstant c).ninputs (ws ++ values ++ [1])
      (((values.foldl pushConstant c).push (.constant 1)).2.ops.length - 1)
      (([] : List F2).getLast?.getD 1) := by
    show HasValue _ _ ((_ ++ [_]).length - 1) _
    rw [List.length_append, List.length_singleton, Nat.add_sub_cancel]
    exact hone
  obtain ⟨ys, hruns₃, hn₃, hbits, hlast₃⟩ := hruns₂.differences hone
    (hos.imp fun _ _ h => h.append [1]) (hvs.imp fun _ _ h => h.append [1]) .nil hlast
  obtain ⟨zs, hruns₄, hn₄, hwire⟩ := hruns₃.conjunctions (hn₃ ▸ hlast₃) (hn₃ ▸ hbits)
  have hone₄ := (hone.append ys).append zs
  have hn : (values.foldl pushConstant c).ninputs = _ := (hn₄.trans hn₃).symm
  rw [hn] at hone₄
  rw [← hn₄, List.nil_append] at hwire
  refine ⟨_, hruns₄.pushOutput (evalOp_add hwire hone₄), ?_⟩
  have hbit : ∀ b : F2, b + 1 = 0 ↔ b = 1 := by decide
  rw [hbit, conjunction_eq_one_iff, forall_negatedDifference_iff (houts.trans hlen.symm)]

/-- A circuit that returns zero if another one returns the expected values, and fails if that one
fails. -/
structure Circuit.ChecksEquality {F : Type} [Field F] (c c' : Circuit F) (expected : List F) :
    Prop where
  noutputs_eq : c'.noutputs = 1
  nmuls_eq : c'.nmuls = (c'.ops.filter Op.isMul).length
  eval_eq : ∀ inputs, c.eval inputs = none ∧ c'.eval inputs = none ∨
    ∃ outs z, c.eval inputs = some outs ∧ c'.eval inputs = some [z] ∧ (z = 0 ↔ outs = expected)

theorem equalityChecks_correct {F : Type} [Field F] (c : Circuit F) (value : F)
    (hc : c.noutputs = 1) (b : Circuit F2) (values : List F2)
    (hb : values.length = b.noutputs) :
    ∃ c' b', addEqualityCheck c value = some c' ∧ c.ChecksEquality c' [value] ∧
      addBinaryEqualityCheck b values = some b' ∧ b.ChecksEquality b' values := by
  obtain ⟨c', hc'⟩ : ∃ c', addEqualityCheck c value = some c' := ⟨_, if_pos hc⟩
  obtain ⟨b', hb'⟩ : ∃ b', addBinaryEqualityCheck b values = some b' := ⟨_, if_pos hb⟩
  refine ⟨c', b', hc', ⟨?_, ?_, fun inputs => ?_⟩, hb', ⟨?_, ?_, fun inputs => ?_⟩⟩
  · obtain rfl := Option.some.inj ((if_pos hc).symm.trans hc')
    exact hc
  · rw [c'.nmuls_eq, List.countP_eq_length_filter]
  · rcases addEqualityCheck_spec hc' inputs with h | ⟨y, hy, hy'⟩
    · exact .inl h
    · exact .inr ⟨[y], y - value, hy, hy', by rw [sub_eq_zero, List.singleton_inj]⟩
  · obtain rfl := Option.some.inj ((if_pos hb).symm.trans hb')
    rfl
  · rw [b'.nmuls_eq, List.countP_eq_length_filter]
  · cases heval : b.eval inputs with
    | none => exact .inl ⟨rfl, (extends_addBinaryEqualityCheck hb').eval_eq_none heval⟩
    | some outs =>
      obtain ⟨z, hz, hiff⟩ := addBinaryEqualityCheck_spec hb' heval
      exact .inr ⟨outs, z, rfl, hz, hiff⟩

/-- The product of two bits. -/
def product : Circuit F2 := (Circuit.new 2 1 [.mul 0 1]).get rfl

theorem equalityChecks_product :
    product.noutputs = 1 ∧ [(1 : F2)].length = product.noutputs ∧
      ∃ c' b', addEqualityCheck product 1 = some c' ∧ product.ChecksEquality c' [1] ∧
        addBinaryEqualityCheck product [1] = some b' ∧ product.ChecksEquality b' [1] :=
  ⟨rfl, rfl, equalityChecks_correct product 1 rfl product [1] rfl⟩

end EdaBitGen.SimpleArithCircuit
