import EdaBitGen.HomCom.Correlation
import EdaBitGen.Scuttlebutt.F61p

/-!
# MACs of higher degree

The prover holds a MAC of degree `d` as a polynomial, whose coefficient at `d` is the value, and the
verifier holds the value of the polynomial at `Δ`.  Both sides and the values themselves are three
interpretations of the same operations; each is related to the polynomials with declared degrees.
-/

namespace EdaBitGen

open Coefficients Polynomial

structure HDMacProver (F : Type) where
  poly : GeneralPolynomial F
  qsDegree : ℕ
deriving DecidableEq

structure HDMacVerifier (F : Type) where
  mac : F
  qsDegree : ℕ
deriving DecidableEq

namespace HDMacProver

variable {PF F : Type} [Field PF] [Field F] [Algebra PF F]

/-- The value in the leading coefficient. -/
def value [DecidableEq F] (p : HDMacProver F) : F :=
  if p.qsDegree > p.poly.degree then 0 else p.poly.coeff p.qsDegree

def newConstant (x : F) : HDMacProver F := ⟨⟨0, [x]⟩, 1⟩

/-- Add or subtract `other`; an index past the coefficients panics. -/
def addSubAssignImpl [DecidableEq F] (ADD : Bool) (self other : HDMacProver F) :
    Option (HDMacProver F) :=
  let self :=
    if other.qsDegree > self.qsDegree then
      ⟨self.poly.shiftMut (other.qsDegree - self.qsDegree), other.qsDegree⟩
    else self
  let coefficients := resize self.poly.coefficients self.qsDegree
  let offset := self.qsDegree - other.qsDegree
  if offset + other.poly.degree ≤ self.qsDegree then
    let terms := (other.poly.constant :: other.poly.coefficients.take other.poly.degree).map
      fun b => if ADD then b else -b
    some ⟨GeneralPolynomial.addAt ⟨self.poly.constant, coefficients⟩ offset terms, self.qsDegree⟩
  else none

def addAssign [DecidableEq F] (self other : HDMacProver F) : Option (HDMacProver F) :=
  addSubAssignImpl true self other

def subAssign [DecidableEq F] (self other : HDMacProver F) : Option (HDMacProver F) :=
  addSubAssignImpl false self other

def addAssignConstant (self : HDMacProver F) (other : F) : HDMacProver F :=
  ⟨GeneralPolynomial.addAt ⟨self.poly.constant, resize self.poly.coefficients self.qsDegree⟩
    self.qsDegree [other], self.qsDegree⟩

def subAssignConstant (self : HDMacProver F) (other : F) : HDMacProver F :=
  ⟨GeneralPolynomial.addAt ⟨self.poly.constant, resize self.poly.coefficients self.qsDegree⟩
    self.qsDegree [-other], self.qsDegree⟩

def mulAssign [DecidableEq F] (cv : Convolve F) (self other : HDMacProver F) : HDMacProver F :=
  ⟨GeneralPolynomial.mulAssign cv self.poly other.poly, self.qsDegree + other.qsDegree⟩

def mulAssignConstant (self : HDMacProver F) (other : F) : HDMacProver F :=
  ⟨self.poly.mulConstant other, self.qsDegree⟩

def xorAssign [DecidableEq F] (cv : Convolve F) (self other : HDMacProver F) :
    Option (HDMacProver F) := do
  let t := mulAssignConstant (mulAssign cv self other) (-1 + -1)
  let self ← addAssign self other
  addAssign self t

def default : HDMacProver F := ⟨GeneralPolynomial.zero, 1⟩

def ofMac (mp : MacProver PF F) : HDMacProver F := ⟨⟨-mp.mac, [algebraMap PF F mp.value]⟩, 1⟩

end HDMacProver

namespace HDMacVerifier

variable {F : Type} [Field F]

def newConstant (delta x : F) : HDMacVerifier F := ⟨delta * x, 1⟩

def addSubAssignImpl (ADD : Bool) (delta : F) (self other : HDMacVerifier F) : HDMacVerifier F :=
  if other.qsDegree ≥ self.qsDegree then
    let mac := (· * delta)^[other.qsDegree - self.qsDegree] self.mac
    ⟨if ADD then mac + other.mac else mac - other.mac, other.qsDegree⟩
  else
    let tmp := (· * delta)^[self.qsDegree - other.qsDegree] other.mac
    ⟨if ADD then self.mac + tmp else self.mac - tmp, self.qsDegree⟩

def addAssign (delta : F) (self other : HDMacVerifier F) : HDMacVerifier F :=
  addSubAssignImpl true delta self other

def subAssign (delta : F) (self other : HDMacVerifier F) : HDMacVerifier F :=
  addSubAssignImpl false delta self other

def addAssignConstant (delta : F) (self : HDMacVerifier F) (other : F) : HDMacVerifier F :=
  ⟨self.mac + (· * delta)^[self.qsDegree] other, self.qsDegree⟩

def subAssignConstant (delta : F) (self : HDMacVerifier F) (other : F) : HDMacVerifier F :=
  ⟨self.mac - (· * delta)^[self.qsDegree] other, self.qsDegree⟩

def mulAssign (self other : HDMacVerifier F) : HDMacVerifier F :=
  ⟨self.mac * other.mac, self.qsDegree + other.qsDegree⟩

def mulAssignConstant (self : HDMacVerifier F) (other : F) : HDMacVerifier F :=
  ⟨self.mac * other, self.qsDegree⟩

def xorAssign (delta : F) (self other : HDMacVerifier F) : HDMacVerifier F :=
  let t := mulAssignConstant (mulAssign self other) (-1 + -1)
  addAssign delta (addAssign delta self other) t

def default : HDMacVerifier F := ⟨0, 1⟩

def ofMac (mv : MacVerifier F) : HDMacVerifier F := ⟨-mv.mac, 1⟩

end HDMacVerifier

/-! ## Programs over MACs -/

/-- Where a new MAC comes from. -/
inductive HDSource (PF F : Type)
  | ofMac (x : MacProver PF F)
  | newConstant (x : F)
  | default

inductive HDUnary (F : Type)
  | addAssignConstant (x : F)
  | subAssignConstant (x : F)
  | mulAssignConstant (x : F)

inductive HDBinary
  | addAssign
  | subAssign
  | mulAssign
  | xorAssign

/-- One operation on a vector of MACs, which are named by their positions. -/
inductive HDOp (PF F : Type)
  | push (s : HDSource PF F)
  | clone (i : ℕ)
  | unary (op : HDUnary F) (i : ℕ)
  | binary (op : HDBinary) (i j : ℕ)

/-- What the operations do to one kind of MACs. -/
structure HDInterp (PF F α : Type) where
  source : HDSource PF F → α
  unary : HDUnary F → α → α
  binary : HDBinary → α → α → Option α

namespace HDInterp

variable {PF F α β : Type}

def step (I : HDInterp PF F α) : HDOp PF F → List α → Option (List α)
  | .push s, macs => some (macs ++ [I.source s])
  | .clone i, macs => do
    let a ← macs[i]?
    pure (macs ++ [a])
  | .unary op i, macs => do
    let a ← macs[i]?
    pure (macs.set i (I.unary op a))
  | .binary op i j, macs => do
    let a ← macs[i]?
    let b ← macs[j]?
    let c ← I.binary op a b
    pure (macs.set i c)

def run (I : HDInterp PF F α) (ops : List (HDOp PF F)) (macs : List α) : Option (List α) :=
  ops.foldlM (fun macs op => I.step op macs) macs

/-- The operands of a binary operation satisfy `ok`. -/
def StepMeets (ok : HDBinary → α → α → Prop) : HDOp PF F → List α → Prop
  | .binary op i j, macs => ∀ a ∈ macs[i]?, ∀ b ∈ macs[j]?, ok op a b
  | _, _ => True

/-- The operands of every binary operation of a run satisfy `ok`. -/
def RunMeets (I : HDInterp PF F α) (ok : HDBinary → α → α → Prop) :
    List (HDOp PF F) → List α → Prop
  | [], _ => True
  | op :: ops, macs => StepMeets ok op macs ∧ ∀ macs' ∈ I.step op macs, I.RunMeets ok ops macs'

/-- Two interpretations keep a relation between MACs, where the operands satisfy `ok`. -/
structure Simulates (I : HDInterp PF F α) (J : HDInterp PF F β) (ok : HDBinary → α → α → Prop)
    (R : α → β → Prop) : Prop where
  source : ∀ s, R (I.source s) (J.source s)
  unary : ∀ op a b, R a b → R (I.unary op a) (J.unary op b)
  binary : ∀ op a b a' b', ok op a a' → R a b → R a' b' →
    Option.Rel R (I.binary op a a') (J.binary op b b')

theorem rel_getElem? {R : α → β → Prop} {as : List α} {bs : List β} (h : List.Forall₂ R as bs)
    (i : ℕ) : Option.Rel R as[i]? bs[i]? := by
  induction h generalizing i with
  | nil => exact .none
  | cons hab _ ih =>
    cases i with
    | zero => exact .some hab
    | succ i => exact ih i

theorem forall₂_set {R : α → β → Prop} {as : List α} {bs : List β} (h : List.Forall₂ R as bs)
    (i : ℕ) {a : α} {b : β} (hab : R a b) : List.Forall₂ R (as.set i a) (bs.set i b) := by
  induction h generalizing i with
  | nil => exact .nil
  | cons h' hs ih =>
    cases i with
    | zero => exact .cons hab hs
    | succ i => exact .cons h' (ih i)

theorem rel_bind {γ δ : Type} {R : α → β → Prop} {S : γ → δ → Prop} {x : Option α} {y : Option β}
    {f : α → Option γ} {g : β → Option δ} (h : Option.Rel R x y)
    (hfg : ∀ a ∈ x, ∀ b, R a b → Option.Rel S (f a) (g b)) :
    Option.Rel S (x >>= f) (y >>= g) := by
  cases h with
  | none => exact .none
  | some hab => exact hfg _ rfl _ hab

theorem Simulates.step {I : HDInterp PF F α} {J : HDInterp PF F β}
    {ok : HDBinary → α → α → Prop} {R : α → β → Prop} (h : Simulates I J ok R) (op : HDOp PF F)
    {as : List α} {bs : List β} (hok : StepMeets ok op as) (hR : List.Forall₂ R as bs) :
    Option.Rel (List.Forall₂ R) (I.step op as) (J.step op bs) := by
  cases op with
  | push s => exact .some (List.rel_append hR (.cons (h.source s) .nil))
  | clone i =>
    refine rel_bind (rel_getElem? hR i) fun a _ b hab => ?_
    exact .some (List.rel_append hR (.cons hab .nil))
  | unary op i =>
    refine rel_bind (rel_getElem? hR i) fun a _ b hab => ?_
    exact .some (forall₂_set hR i (h.unary op a b hab))
  | binary op i j =>
    refine rel_bind (rel_getElem? hR i) fun a ha b hab => ?_
    refine rel_bind (rel_getElem? hR j) fun a' ha' b' hab' => ?_
    refine rel_bind (h.binary op a b a' b' (hok a ha a' ha') hab hab') fun c _ d hcd => ?_
    exact .some (forall₂_set hR i hcd)

theorem Simulates.run {I : HDInterp PF F α} {J : HDInterp PF F β}
    {ok : HDBinary → α → α → Prop} {R : α → β → Prop} (h : Simulates I J ok R)
    (ops : List (HDOp PF F)) {as : List α} {bs : List β} (hok : I.RunMeets ok ops as)
    (hR : List.Forall₂ R as bs) :
    Option.Rel (List.Forall₂ R) (I.run ops as) (J.run ops bs) := by
  induction ops generalizing as bs with
  | nil => exact .some hR
  | cons op ops ih =>
    have hstep := h.step op hok.1 hR
    have hrest := hok.2
    simp only [HDInterp.run, List.foldlM_cons]
    cases hI : I.step op as with
    | none =>
      rw [hI] at hstep
      cases hJ : J.step op bs with
      | none => exact .none
      | some bs' => rw [hJ] at hstep; cases hstep
    | some as' =>
      rw [hI] at hstep
      cases hJ : J.step op bs with
      | none => rw [hJ] at hstep; cases hstep
      | some bs' =>
        rw [hJ] at hstep
        cases hstep with
        | some hR' => exact ih (hrest as' hI) hR'

theorem runMeets_true (I : HDInterp PF F α) (ops : List (HDOp PF F)) (macs : List α) :
    I.RunMeets (fun _ _ _ => True) ops macs := by
  induction ops generalizing macs with
  | nil => trivial
  | cons op ops ih =>
    refine ⟨?_, fun macs' _ => ih macs'⟩
    cases op <;> simp [StepMeets]

theorem RunMeets.mono {I : HDInterp PF F α} {ok ok' : HDBinary → α → α → Prop}
    {ops : List (HDOp PF F)} {macs : List α} (h : I.RunMeets ok ops macs)
    (himp : ∀ op a b, ok op a b → ok' op a b) : I.RunMeets ok' ops macs := by
  induction ops generalizing macs with
  | nil => trivial
  | cons op ops ih =>
    refine ⟨?_, fun macs' hmem => ih (h.2 macs' hmem)⟩
    cases op with
    | push s => trivial
    | clone i => trivial
    | unary op i => trivial
    | binary op i j => exact fun a ha b hb => himp op a b (h.1 a ha b hb)

theorem forall₂_eq_map {f : α → β} {as : List α} {bs : List β}
    (h : List.Forall₂ (fun a b => b = f a) as bs) : bs = as.map f := by
  induction h with
  | nil => rfl
  | cons hab _ ih => rw [List.map_cons, hab, ih]

theorem forall₂_map_self (f : α → β) (as : List α) :
    List.Forall₂ (fun a b => b = f a) as (as.map f) := by
  induction as with
  | nil => exact .nil
  | cons a as ih => exact .cons rfl ih

theorem exists_of_mem {R : α → β → Prop} {as : List α} {bs : List β}
    (h : List.Forall₂ R as bs) {a : α} (ha : a ∈ as) : ∃ b ∈ bs, R a b := by
  induction h with
  | nil => simp at ha
  | cons hab _ ih =>
    rcases List.mem_cons.1 ha with rfl | ha
    · exact ⟨_, List.mem_cons_self, hab⟩
    · obtain ⟨b, hb, hr⟩ := ih ha
      exact ⟨b, List.mem_cons_of_mem _ hb, hr⟩

theorem run_map {I : HDInterp PF F α} {J : HDInterp PF F β} {f : α → β}
    (h : Simulates I J (fun _ _ _ => True) fun a b => b = f a) (ops : List (HDOp PF F))
    (as : List α) : J.run ops (as.map f) = (I.run ops as).map (List.map f) := by
  have hrun := h.run ops (runMeets_true I ops as) (forall₂_map_self f as)
  revert hrun
  generalize I.run ops as = x, J.run ops (as.map f) = y
  intro hrun
  cases hrun with
  | none => rfl
  | some hxy => rw [forall₂_eq_map hxy]; rfl

end HDInterp

end EdaBitGen
