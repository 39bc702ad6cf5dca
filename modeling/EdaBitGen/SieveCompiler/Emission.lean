import Mathlib

/-!
# Muxes

A mux picks one of its branches by a condition. The evaluator reads the condition as a number, the
compiler multiplies the branches by a vector of selectors.
-/

namespace EdaBitGen.SieveCompiler

/-! ## Emission -/

/-- The values of the fix wires. -/
abbrev Assignment (F : Type) : Type := ℕ → F

/-- A wire, as its value under an assignment. -/
abbrev WireRef (F : Type) : Type := Assignment F → F

/-- A wire with the value that the compiler tracks. -/
abbrev ValuedWire (F : Type) : Type := WireRef F × F

inductive Assertion (F : Type)
  | zero (x : WireRef F)
  | multiply (x y z : WireRef F)

/-- What has been emitted, with the prover's values of the fix wires. -/
structure Circuit (F : Type) where
  fixes : List F
  assertions : List (Assertion F)

abbrev Emit (F : Type) : Type → Type := StateT (Circuit F) Option

section Emission

variable {F : Type} [Field F]

def Assertion.Holds (A : Assignment F) : Assertion F → Prop
  | zero x => x A = 0
  | multiply x y z => x A * y A = z A

def constant (x : F) : WireRef F := fun _ => x

def linear (a : WireRef F) (aC : F) (b : WireRef F) (bC : F) : WireRef F :=
  fun A => aC * a A + bC * b A

def fix (x : F) : Emit F (WireRef F) := fun c =>
  some (fun A => A c.fixes.length, { c with fixes := c.fixes ++ [x] })

def assertZero (x : WireRef F) : Emit F Unit := fun c =>
  some ((), { c with assertions := c.assertions ++ [.zero x] })

def assertMultiply (x y z : WireRef F) : Emit F Unit := fun c =>
  some ((), { c with assertions := c.assertions ++ [.multiply x y z] })

def mul (left right : ValuedWire F) : Emit F (ValuedWire F) := do
  let product ← fix (left.2 * right.2)
  assertMultiply left.1 right.1 product
  pure (product, left.2 * right.2)

end Emission

/-- The value of bits, the highest one first, when it fits in a `usize`. -/
def bitsToUsize (bits : List Bool) : Option ℕ :=
  bits.foldlM (fun acc b =>
    if 2 * acc < 2 ^ 64 ∧ 2 * acc + b.toNat < 2 ^ 64 then some (2 * acc + b.toNat) else none) 0

section Numbers

variable {p : ℕ}

def bitDecomposition (x : ZMod p) : List Bool :=
  (List.range (p - 1).size).map x.val.testBit

def flippedBits (p quot : ℕ) : List (ZMod p) :=
  if quot = 0 then [] else (if quot % 2 = 0 then 1 else 0) :: flippedBits p (quot / 2)
termination_by quot
decreasing_by omega

/-- The `k` bits of a number, the lowest one first, all of them inverted. -/
def toKFlippedBits (p x k : ℕ) : Option (List (ZMod p)) :=
  let bits := flippedBits p x
  if bits.length > k then none else some (bits ++ List.replicate (k - bits.length) 1)

end Numbers

inductive Permissiveness
  | strict
  | permissive
deriving DecidableEq

/-- What the reader has checked of a mux over the field with `p` elements, whose branches have
different numbers as conditions. -/
structure Mux (p : ℕ) where
  permissiveness : Permissiveness
  condCount : ℕ
  numBranches : ℕ
  branchSizes : List ℕ
  cond_single : p ≠ 2 → condCount = 1
  branchSizes_ne : branchSizes ≠ []
  addressable : numBranches ≤ if p = 2 then 2 ^ condCount else p
  numBranches_lt : numBranches < 2 ^ 64

/-- The values of the wires in a mux's input ranges. -/
structure Mux.Values {p : ℕ} (m : Mux p) where
  cond : List (ZMod p)
  branchInputs : List (List (List (ZMod p)))
  length_cond : cond.length = m.condCount
  length_branchInputs : branchInputs.length = m.numBranches
  sizes : ∀ ranges ∈ branchInputs, ranges.map List.length = m.branchSizes

namespace Mux

variable {p : ℕ} (m : Mux p) (v : m.Values)

def plaintextCond : Option ℕ :=
  if p = 2 then bitsToUsize (v.cond.reverse.flatMap bitDecomposition)
  else v.cond.head?.bind fun c => bitsToUsize (bitDecomposition c).reverse

/-- The values of the output wires, by output range. -/
def plaintext : Option (List (List (ZMod p))) := do
  let cond ← m.plaintextCond v
  match v.branchInputs[cond]? with
  | none =>
    match m.permissiveness with
    | .permissive => pure (m.branchSizes.map fun size => List.replicate size 0)
    | .strict => none
  | some ranges => pure ((ranges.zip m.branchSizes).map fun r => r.1.take r.2)

/-! ## The compiler -/

def toFe (p x : ℕ) : Option (ZMod p) := if x < p then some x else none

section Compiler

variable [Fact p.Prime]

/-- The selector of a branch for a condition in bits. -/
def bitSelector (cond : List (ValuedWire (ZMod p))) (i : ℕ) : Emit (ZMod p) (ValuedWire (ZMod p)) := do
  let bits ← StateT.lift (toKFlippedBits p i cond.length)
  let xors := (bits.reverse.zip cond).map fun b =>
    (linear b.2.1 1 (constant 1) b.1, b.2.2 + b.1)
  match xors with
  | [] => StateT.lift none
  | x :: xors => xors.foldlM mul x

def bitSelectors (cond : List (ValuedWire (ZMod p))) : Emit (ZMod p) (List (ValuedWire (ZMod p))) :=
  (List.range m.numBranches).mapM (bitSelector cond)

/-- Assert that a selector is one if the condition is `i` and zero otherwise. -/
def assertSelector (cond : ValuedWire (ZMod p)) (g : ValuedWire (ZMod p) × ℕ) :
    Emit (ZMod p) Unit := do
  let i ← StateT.lift (toFe p g.2)
  let xV := cond.2 - i
  let x := linear cond.1 1 (constant 1) (-i)
  let x' ← fix (if xV ≠ 0 then xV⁻¹ else 0)
  let b := linear (constant 1) 1 g.1.1 (-1)
  assertMultiply x x' b
  assertMultiply x b x

def addSelector (cond : ValuedWire (ZMod p)) (g : List (ValuedWire (ZMod p))) (i : ℕ) :
    Emit (ZMod p) (List (ValuedWire (ZMod p))) := do
  let i ← StateT.lift (toFe p i)
  let gV := if cond.2 = i then 1 else 0
  let gI ← fix gV
  -- The assertions of the earlier selectors are made again.
  (g ++ [(gI, gV)]).zipIdx.forM (assertSelector cond)
  pure (g ++ [(gI, gV)])

def valueSelectors (cond : List (ValuedWire (ZMod p))) :
    Emit (ZMod p) (List (ValuedWire (ZMod p))) :=
  match cond with
  | [] => StateT.lift none
  | c :: _ => (List.range m.numBranches).foldlM (addSelector c) []

def selectors (cond : List (ValuedWire (ZMod p))) : Emit (ZMod p) (List (ValuedWire (ZMod p))) :=
  if p = 2 then m.bitSelectors cond else m.valueSelectors cond

def assertStrict (g : List (ValuedWire (ZMod p))) : Emit (ZMod p) Unit :=
  match g with
  | [] => StateT.lift none
  | (g0, _) :: gs => do
    let sum := gs.foldl (fun sum gI => linear sum 1 gI.1 1) g0
    assertZero (linear sum 1 (constant 1) (-1))

/-- One output wire: the product of the selectors with a wire of each branch. -/
def outputWire (g branchWires : List (ValuedWire (ZMod p))) :
    Emit (ZMod p) (ValuedWire (ZMod p)) :=
  match g, branchWires with
  | g0 :: gs, b0 :: bs => do
    let sum ← mul g0 b0
    (bs.zip gs).foldlM (fun sum b => do
      let prod ← mul b.2 b.1
      pure (linear sum.1 1 prod.1 1, sum.2 + prod.2)) sum
  | _, _ => StateT.lift none

/-- The output ranges. The index into a branch's wires starts again for each of them. -/
def outputs (g : List (ValuedWire (ZMod p))) (branchInputWires : List (List (ValuedWire (ZMod p)))) :
    Emit (ZMod p) (List (List (ValuedWire (ZMod p)))) :=
  m.branchSizes.mapM fun size => (List.range size).mapM fun j => do
    let jthBranchWires ← StateT.lift (branchInputWires.mapM (·[j]?))
    outputWire g jthBranchWires

def compile : Emit (ZMod p) (List (List (ValuedWire (ZMod p)))) := do
  let input := fun x : ZMod p => (constant x, x)
  let g ← m.selectors (v.cond.map input)
  if m.permissiveness = .strict then assertStrict g
  m.outputs g (v.branchInputs.map fun ranges => ranges.flatten.map input)

end Compiler

end Mux

end EdaBitGen.SieveCompiler

/-!
# What an emission adds

An emission keeps the assertions so far. A wire is tracked when every assignment that satisfies the
assertions gives it the compiler's value.
-/

namespace EdaBitGen.SieveCompiler

variable {F : Type} [Field F]

namespace Circuit

def Sat (c : Circuit F) (A : Assignment F) : Prop := ∀ a ∈ c.assertions, a.Holds A

omit [Field F] in
/-- The assignment has the prover's values. -/
def Follows (c : Circuit F) (A : Assignment F) : Prop := ∀ i x, c.fixes[i]? = some x → A i = x

/-- The prover's values satisfy the assertions. -/
def Valid (c : Circuit F) : Prop := ∀ A, c.Follows A → c.Sat A

structure Le (c c' : Circuit F) : Prop where
  sat : ∀ A, c'.Sat A → c.Sat A
  follows : ∀ A, c'.Follows A → c.Follows A

theorem Le.refl (c : Circuit F) : c.Le c := ⟨fun _ h => h, fun _ h => h⟩

theorem Le.trans {c c' c'' : Circuit F} (h : c.Le c') (h' : c'.Le c'') : c.Le c'' :=
  ⟨fun A hA => h.sat A (h'.sat A hA), fun A hA => h.follows A (h'.follows A hA)⟩

omit [Field F] in
theorem follows_append {c : Circuit F} {x : F} {assertions : List (Assertion F)}
    {A : Assignment F} (h : Follows ⟨c.fixes ++ [x], assertions⟩ A) :
    c.Follows A ∧ A c.fixes.length = x := by
  constructor
  · intro i y hi
    apply h i y
    rw [List.getElem?_append_left (List.getElem?_eq_some_iff.1 hi).1, hi]
  · apply h
    rw [List.getElem?_append_right le_rfl, Nat.sub_self]
    rfl

theorem sat_append {c : Circuit F} {fixes : List F} {new : List (Assertion F)} {A : Assignment F} :
    Sat ⟨fixes, c.assertions ++ new⟩ A ↔ c.Sat A ∧ ∀ a ∈ new, a.Holds A :=
  List.forall_mem_append

/-- The prover's values, as an assignment. -/
def honest (c : Circuit F) : Assignment F := fun i => c.fixes.getD i 0

theorem follows_honest (c : Circuit F) : c.Follows c.honest := by
  intro i x hi
  rw [honest, List.getD_eq_getElem?_getD, hi]
  rfl

end Circuit

namespace ValuedWire

def Tracked (c : Circuit F) (w : ValuedWire F) : Prop := ∀ A, c.Sat A → w.1 A = w.2

theorem Tracked.mono {c c' : Circuit F} {w : ValuedWire F} (h : Tracked c w) (hle : c.Le c') :
    Tracked c' w := fun A hA => h A (hle.sat A hA)

/-- The prover's values give the wire the compiler's value. -/
def Honest (c : Circuit F) (w : ValuedWire F) : Prop :=
  ∀ A, c.Sat A → c.Follows A → w.1 A = w.2

theorem Honest.mono {c c' : Circuit F} {w : ValuedWire F} (h : Honest c w) (hle : c.Le c') :
    Honest c' w := fun A hA hA' => h A (hle.sat A hA) (hle.follows A hA')

theorem Tracked.honest {c : Circuit F} {w : ValuedWire F} (h : Tracked c w) : Honest c w :=
  fun A hA _ => h A hA

end ValuedWire

open ValuedWire

/-- The emission succeeds and adds to the circuit, with the prover's values for what it adds. -/
def Emits {α : Type} (m : Emit F α) (c : Circuit F) (Q : α → Circuit F → Prop) : Prop :=
  ∃ a c', m c = some (a, c') ∧ c.Le c' ∧ (c.Valid → c'.Valid) ∧ Q a c'

omit [Field F] in
theorem bind_eq {α β : Type} {m : Emit F α} {f : α → Emit F β} {c c' : Circuit F} {a : α}
    (h : m c = some (a, c')) : (m >>= f) c = f a c' := by
  show (m c).bind _ = _
  rw [h]
  rfl

omit [Field F] in
theorem bind_eq_none {α β : Type} {m : Emit F α} {f : α → Emit F β} {c : Circuit F}
    (h : m c = none) : (m >>= f) c = none := by
  show (m c).bind _ = _
  rw [h]
  rfl

namespace Emits

variable {α β γ : Type} {c : Circuit F}

theorem pure {a : α} {Q : α → Circuit F → Prop} (h : Q a c) : Emits (Pure.pure a) c Q :=
  ⟨a, c, rfl, .refl c, fun hc => hc, h⟩

theorem lift_bind {x : Option α} {a : α} (hx : x = some a) {f : α → Emit F β}
    {R : β → Circuit F → Prop} (h : Emits (f a) c R) : Emits (StateT.lift x >>= f) c R := by
  subst hx
  exact h

theorem mono {m : Emit F α} {Q R : α → Circuit F → Prop} (h : Emits m c Q)
    (himp : ∀ a c', c.Le c' → Q a c' → R a c') : Emits m c R := by
  obtain ⟨a, c', hm, hle, hvalid, hQ⟩ := h
  exact ⟨a, c', hm, hle, hvalid, himp a c' hle hQ⟩

theorem bind {m : Emit F α} {f : α → Emit F β} {Q : α → Circuit F → Prop}
    {R : β → Circuit F → Prop} (h : Emits m c Q)
    (hf : ∀ a c', c.Le c' → Q a c' → Emits (f a) c' R) : Emits (m >>= f) c R := by
  obtain ⟨a, c', hm, hle, hvalid, hQ⟩ := h
  obtain ⟨b, c'', hb, hle', hvalid', hR⟩ := hf a c' hle hQ
  exact ⟨b, c'', (bind_eq hm).trans hb, hle.trans hle', fun hc => hvalid' (hvalid hc), hR⟩

theorem mapM {f : β → Emit F γ} {Q : β → γ → Circuit F → Prop}
    (hmono : ∀ b g c c', Circuit.Le c c' → Q b g c → Q b g c') (l : List β)
    (h : ∀ b ∈ l, ∀ c', c.Le c' → Emits (f b) c' (Q b)) :
    Emits (l.mapM f) c fun out c' => List.Forall₂ (fun b g => Q b g c') l out := by
  induction l generalizing c with
  | nil => exact .pure .nil
  | cons b l ih =>
    rw [List.mapM_cons]
    refine (h b (List.mem_cons_self ..) c (.refl c)).bind fun g c' hle hg => ?_
    have hrest := ih fun b' hb' c'' hle' => h b' (List.mem_cons_of_mem _ hb') c'' (hle.trans hle')
    refine hrest.bind fun out c'' hle' hout => .pure (.cons (hmono _ _ _ _ hle' hg) hout)

theorem forM {f : β → Emit F Unit} {Q : β → Circuit F → Prop}
    (hmono : ∀ b c c', Circuit.Le c c' → Q b c → Q b c') (l : List β)
    (h : ∀ b ∈ l, ∀ c', c.Le c' → Emits (f b) c' fun _ => Q b) :
    Emits (l.forM f) c fun _ c' => ∀ b ∈ l, Q b c' := by
  induction l generalizing c with
  | nil => exact .pure fun b hb => absurd hb List.not_mem_nil
  | cons b l ih =>
    refine (h b (List.mem_cons_self ..) c (.refl c)).bind fun _ c' hle hb => ?_
    have hrest := ih fun b' hb' c'' hle' => h b' (List.mem_cons_of_mem _ hb') c'' (hle.trans hle')
    refine hrest.mono fun _ c'' hle' hall => ?_
    exact List.forall_mem_cons.2 ⟨hmono _ _ _ hle' hb, hall⟩

end Emits

omit [Field F] in
theorem forall₂_right {β γ : Type} {R : β → γ → Prop} {P : γ → Prop} {l : List β} {out : List γ}
    (h : List.Forall₂ R l out) (hR : ∀ b g, R b g → P g) : ∀ g ∈ out, P g := by
  induction h with
  | nil => exact fun g hg => absurd hg List.not_mem_nil
  | cons h _ ih => exact List.forall_mem_cons.2 ⟨hR _ _ h, ih⟩

omit [Field F] in
theorem forall₂_map {β γ δ : Type} {f : β → δ} {f' : γ → δ} {l : List β} {out : List γ}
    (h : List.Forall₂ (fun b g => f' g = f b) l out) : out.map f' = l.map f := by
  induction h with
  | nil => rfl
  | cons h _ ih => rw [List.map_cons, List.map_cons, h, ih]

variable {c : Circuit F}

theorem tracked_constant (x : F) : Tracked c (constant x, x) := fun _ _ => rfl

theorem emits_fix (x : F) : Emits (fix x) c fun w c' => Honest c' (w, x) := by
  refine ⟨_, _, rfl, ⟨fun A hA => hA, fun A hA => (Circuit.follows_append hA).1⟩, ?_, ?_⟩
  · exact fun hc A hA => hc A (Circuit.follows_append hA).1
  · exact fun A _ hA => (Circuit.follows_append hA).2

theorem emits_assertMultiply {x y z : WireRef F}
    (h : c.Valid → ∀ A, c.Follows A → x A * y A = z A) :
    Emits (assertMultiply x y z) c fun _ c' => ∀ A, c'.Sat A → x A * y A = z A := by
  refine ⟨(), ⟨c.fixes, c.assertions ++ [.multiply x y z]⟩, rfl,
    ⟨fun A hA => (Circuit.sat_append.1 hA).1, fun A hA => hA⟩, ?_, ?_⟩
  · intro hc A hA
    exact Circuit.sat_append.2 ⟨hc A hA, List.forall_mem_singleton.2 (h hc A hA)⟩
  · intro A hA
    have hholds := List.forall_mem_singleton.1 (Circuit.sat_append.1 hA).2
    exact hholds

theorem emits_mul {left right : ValuedWire F} (hleft : left.Tracked c) (hright : right.Tracked c) :
    Emits (mul left right) c fun w c' => w.Tracked c' ∧ w.2 = left.2 * right.2 := by
  refine (emits_fix (left.2 * right.2)).bind fun product c₁ hle hproduct => ?_
  have hassert := emits_assertMultiply (c := c₁) (x := left.1) (y := right.1) (z := product)
    fun hc A hA => by
      have hsat := hle.sat A (hc A hA)
      rw [hleft A hsat, hright A hsat]
      exact (hproduct A (hc A hA) hA).symm
  refine hassert.bind fun _ c₂ hle' hholds => .pure ⟨fun A hA => ?_, rfl⟩
  have hsat := hle.sat A (hle'.sat A hA)
  show product A = left.2 * right.2
  rw [← hholds A hA, hleft A hsat, hright A hsat]

theorem emits_prod {xs : List (ValuedWire F)} {x : ValuedWire F} (hx : x.Tracked c)
    (hxs : ∀ y ∈ xs, y.Tracked c) : Emits (xs.foldlM mul x) c fun w c' =>
      w.Tracked c' ∧ w.2 = x.2 * (xs.map (·.2)).prod := by
  induction xs generalizing x c with
  | nil => exact .pure ⟨hx, (mul_one _).symm⟩
  | cons y xs ih =>
    have ⟨hy, hxs⟩ := List.forall_mem_cons.1 hxs
    rw [List.foldlM_cons]
    refine (emits_mul hx hy).bind fun w c' hle hw => ?_
    refine (ih hw.1 fun z hz => (hxs z hz).mono hle).mono fun w' c'' _ hw' => ⟨hw'.1, ?_⟩
    rw [hw'.2, hw.2, List.map_cons, List.prod_cons, mul_assoc]

end EdaBitGen.SieveCompiler

/-!
## Selectors

The selectors of a condition are one for the branch whose number it is, and zero for the others. The
two sides read the bits of a condition from opposite ends.
-/

namespace EdaBitGen.SieveCompiler

open ValuedWire

variable {p : ℕ}

/-! ## Reading numbers -/

/-- The value of bits, the highest one first. -/
def bitsValue (bits : List Bool) : ℕ := bits.foldl (fun acc b => 2 * acc + b.toNat) 0

theorem bitsValue_append (bits : List Bool) (b : Bool) :
    bitsValue (bits ++ [b]) = 2 * bitsValue bits + b.toNat := List.foldl_concat ..

theorem bitsValue_lt (bits : List Bool) : bitsValue bits < 2 ^ bits.length := by
  induction bits using List.reverseRecOn with
  | nil => exact Nat.one_pos
  | append_singleton bits b ih =>
    have hb := b.toNat_le
    rw [bitsValue_append, List.length_append, List.length_singleton, Nat.pow_succ]
    omega

theorem bitsToUsize_eq (bits : List Bool) : bitsToUsize bits =
    if bitsValue bits < 2 ^ 64 then some (bitsValue bits) else none := by
  induction bits using List.reverseRecOn with
  | nil => rfl
  | append_singleton bits b ih =>
    have hb := b.toNat_le
    unfold bitsToUsize at ih ⊢
    rw [List.foldlM_append, ih, bitsValue_append]
    by_cases hlt : bitsValue bits < 2 ^ 64
    · rw [if_pos hlt]
      show Option.bind (if _ then _ else _) some = _
      by_cases hfits : 2 * bitsValue bits + b.toNat < 2 ^ 64
      · rw [if_pos ⟨by omega, hfits⟩, if_pos hfits]
        rfl
      · rw [if_neg (fun h => hfits h.2), if_neg hfits]
        rfl
    · rw [if_neg hlt, if_neg (by omega)]
      rfl

theorem bitsValue_testBit (x n : ℕ) (h : x < 2 ^ n) :
    bitsValue ((List.range n).map x.testBit).reverse = x := by
  induction n generalizing x with
  | zero =>
    have hx : x = 0 := by omega
    subst hx
    rfl
  | succ n ih =>
    have hshift : (x.testBit ∘ Nat.succ) = (x / 2).testBit := by
      funext i
      exact Nat.testBit_succ x i
    rw [List.range_succ_eq_map, List.map_cons, List.map_map, hshift, List.reverse_cons,
      bitsValue_append, ih (x / 2) (by omega), Nat.testBit_zero]
    rcases Nat.mod_two_eq_zero_or_one x with hmod | hmod
    · rw [hmod]
      show 2 * (x / 2) + 0 = x
      omega
    · rw [hmod]
      show 2 * (x / 2) + 1 = x
      omega

theorem bitsToUsize_bitDecomposition [NeZero p] (x : ZMod p) :
    bitsToUsize (bitDecomposition x).reverse = if x.val < 2 ^ 64 then some x.val else none := by
  have hval := ZMod.val_lt x
  have hsize : x.val < 2 ^ (p - 1).size := lt_of_le_of_lt (by omega) (Nat.lt_size_self (p - 1))
  rw [bitsToUsize_eq, bitDecomposition, bitsValue_testBit _ _ hsize]

/-- The number that the evaluator reads from wires of bits. -/
def lowFirst (cond : List (ZMod p)) : ℕ := bitsValue (cond.reverse.map fun x => x.val.testBit 0)

/-- The number that the selectors compare with. -/
def highFirst (cond : List (ZMod p)) : ℕ := bitsValue (cond.map fun x => x.val.testBit 0)

theorem bitsToUsize_f2 (cond : List (ZMod 2)) :
    bitsToUsize (cond.reverse.flatMap bitDecomposition) =
      if lowFirst cond < 2 ^ 64 then some (lowFirst cond) else none := by
  rw [bitsToUsize_eq]
  have hmap : cond.reverse.flatMap bitDecomposition =
      cond.reverse.map fun x => x.val.testBit 0 := by
    rw [List.map_eq_flatMap]
    rfl
  rw [hmap]
  rfl

/-! ## The selectors of bits -/

theorem flippedBits_zero : flippedBits p 0 = [] := by rw [flippedBits, if_pos rfl]

theorem flippedBits_of_ne {x : ℕ} (hx : x ≠ 0) :
    flippedBits p x = (if x % 2 = 0 then 1 else 0) :: flippedBits p (x / 2) := by
  rw [flippedBits, if_neg hx]

theorem toKFlippedBits_zero (x : ℕ) :
    toKFlippedBits p x 0 = if x < 2 ^ 0 then some [] else none := by
  unfold toKFlippedBits
  by_cases hx : x = 0
  · subst hx
    rw [flippedBits_zero]
    rfl
  · rw [if_neg (show ¬x < 2 ^ 0 by omega), flippedBits_of_ne hx]
    rfl

theorem toKFlippedBits_succ (x k : ℕ) : toKFlippedBits p x (k + 1) =
    (toKFlippedBits p (x / 2) k).map ((if x % 2 = 0 then 1 else 0) :: ·) := by
  unfold toKFlippedBits
  by_cases hx : x = 0
  · subst hx
    rw [Nat.zero_div, flippedBits_zero]
    rfl
  · rw [flippedBits_of_ne hx]
    by_cases hlen : (flippedBits p (x / 2)).length > k
    · rw [if_pos hlen]
      exact if_pos (Nat.succ_lt_succ hlen)
    · dsimp only
      rw [if_neg hlen, List.length_cons, Nat.add_sub_add_right]
      exact if_neg fun h => hlen (Nat.lt_of_succ_lt_succ h)

/-- Bits of a number, the lowest one first, all of them inverted. -/
def inverted (p x : ℕ) : ℕ → List (ZMod p)
  | 0 => []
  | k + 1 => (if x % 2 = 0 then 1 else 0) :: inverted p (x / 2) k

theorem toKFlippedBits_eq (x k : ℕ) : toKFlippedBits p x k =
    if x < 2 ^ k then some (inverted p x k) else none := by
  induction k generalizing x with
  | zero => exact toKFlippedBits_zero x
  | succ k ih =>
    rw [toKFlippedBits_succ, ih]
    by_cases hx : x / 2 < 2 ^ k
    · rw [if_pos hx, if_pos (show x < 2 ^ (k + 1) by omega)]
      rfl
    · rw [if_neg hx, if_neg (show ¬x < 2 ^ (k + 1) by omega)]
      rfl

theorem length_inverted (x k : ℕ) : (inverted p x k).length = k := by
  induction k generalizing x with
  | zero => rfl
  | succ k ih => rw [inverted, List.length_cons, ih]

/-- The product of the wires' differences from the inverted bits is one for its own number only. -/
theorem prod_inverted (cond : List (ZMod 2)) {i : ℕ} (hi : i < 2 ^ cond.length) :
    (((inverted 2 i cond.length).reverse.zip cond).map fun b => b.2 + b.1).prod =
      if highFirst cond = i then 1 else 0 := by
  induction cond using List.reverseRecOn generalizing i with
  | nil =>
    have hi : i = 0 := by simpa using hi
    subst hi
    rfl
  | append_singleton cond x ih =>
    rw [List.length_append, List.length_singleton] at hi ⊢
    have hlen : (inverted 2 (i / 2) cond.length).reverse.length = cond.length := by
      rw [List.length_reverse, length_inverted]
    rw [inverted, List.reverse_cons, List.zip_append hlen, List.map_append, List.prod_append,
      ih (by omega)]
    have hvalue : highFirst (cond ++ [x]) = 2 * highFirst cond + (x.val.testBit 0).toNat := by
      rw [highFirst, List.map_append]
      exact bitsValue_append ..
    rw [hvalue]
    have hx : ∀ x : ZMod 2, x = 0 ∨ x = 1 := by decide
    rcases hx x with rfl | rfl
    · show _ * ((0 + if i % 2 = 0 then 1 else 0) * 1) = if 2 * highFirst cond + 0 = i then 1 else 0
      rcases Nat.mod_two_eq_zero_or_one i with hmod | hmod
      · rw [hmod, if_pos rfl, zero_add, mul_one, mul_one]
        exact if_congr (by omega) rfl rfl
      · rw [hmod, if_neg (show 1 ≠ 0 by omega), if_neg (show ¬2 * highFirst cond + 0 = i by omega)]
        simp
    · show _ * ((1 + if i % 2 = 0 then 1 else 0) * 1) = if 2 * highFirst cond + 1 = i then 1 else 0
      rcases Nat.mod_two_eq_zero_or_one i with hmod | hmod
      · have htwo : (1 : ZMod 2) + 1 = 0 := by decide
        rw [hmod, if_pos rfl, if_neg (show ¬2 * highFirst cond + 1 = i by omega), htwo, zero_mul,
          mul_zero]
      · rw [hmod, if_neg (show 1 ≠ 0 by omega), add_zero, mul_one, mul_one]
        exact if_congr (by omega) rfl rfl

end EdaBitGen.SieveCompiler
