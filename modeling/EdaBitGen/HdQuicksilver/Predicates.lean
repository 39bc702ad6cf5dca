import EdaBitGen.HdQuicksilver.Homomorphism
import EdaBitGen.Edabits.Basic

/-!
# Predicates of the local generator

A predicate is a program over MACs of higher degree, one over the binary and one over the prime
field.  Run on the degrees it stays below what the convolution of the field multiplies, so that the
prover follows it, and run on bits both programs compute the same bit.
-/

namespace EdaBitGen

open Coefficients

namespace HDInterp

variable {PF F α β γ δ : Type}

/-! ## Following a program -/

/-- What `y` yields, `x` yields too. -/
def Covers (R : α → β → Prop) (x : Option α) (y : Option β) : Prop :=
  ∀ b ∈ y, ∃ a ∈ x, R a b

theorem covers_some {R : α → β → Prop} {a : α} {b : β} (h : R a b) : Covers R (some a) (some b) :=
  fun _ hb => ⟨a, rfl, Option.mem_some.1 hb ▸ h⟩

theorem covers_none {R : α → β → Prop} {x : Option α} : Covers R x (none : Option β) :=
  fun _ hb => nomatch hb

theorem covers_of_rel {R : α → β → Prop} {x : Option α} {y : Option β} (h : Option.Rel R x y) :
    Covers R x y := by
  cases h with
  | none => exact covers_none
  | some h => exact covers_some h

theorem covers_of_rel_swap {R : α → β → Prop} {x : Option α} {y : Option β}
    (h : Option.Rel R x y) : Covers (fun b a => R a b) y x := by
  cases h with
  | none => exact covers_none
  | some h => exact covers_some h

theorem Covers.bind {R : α → β → Prop} {S : γ → δ → Prop} {x : Option α} {y : Option β}
    {f : α → Option γ} {g : β → Option δ} (h : Covers R x y)
    (hfg : ∀ a b, R a b → Covers S (f a) (g b)) : Covers S (x >>= f) (y >>= g) := by
  intro d hd
  obtain ⟨b, hb, hg⟩ := Option.bind_eq_some_iff.1 hd
  obtain ⟨a, ha, hab⟩ := h b hb
  obtain ⟨c, hc, hcd⟩ := hfg a b hab d hg
  exact ⟨c, Option.bind_eq_some_iff.2 ⟨a, ha, hc⟩, hcd⟩

theorem covers_foldlM {ι : Type} {R : α → β → Prop} {f : α → ι → Option α} {g : β → ι → Option β}
    (h : ∀ i a b, R a b → Covers R (f a i) (g b i)) (l : List ι) {a : α} {b : β} (hab : R a b) :
    Covers R (l.foldlM f a) (l.foldlM g b) := by
  induction l generalizing a b with
  | nil => exact covers_some hab
  | cons i l ih => exact (h i a b hab).bind fun _ _ => ih

theorem covers_getElem? {R : α → β → Prop} {as : List α} {bs : List β}
    (h : List.Forall₂ R as bs) (i : ℕ) : Covers R as[i]? bs[i]? :=
  covers_of_rel (rel_getElem? h i)

/-- `I` does what `J` does, where `J` does anything. -/
structure Follows (I : HDInterp PF F α) (J : HDInterp PF F β) (R : α → β → Prop) : Prop where
  source : ∀ s, R (I.source s) (J.source s)
  unary : ∀ op a b, R a b → R (I.unary op a) (J.unary op b)
  binary : ∀ op a b a' b', R a b → R a' b' → Covers R (I.binary op a a') (J.binary op b b')

/-- The degree of a result, as long as that of the first operand stays within `n`. -/
def degrees (n : ℕ) (op : HDBinary) (a b : ℕ) : Option ℕ :=
  if a ≤ n then
    match op with
    | .addAssign | .subAssign => some (max a b)
    | .mulAssign => some (a + b)
    | .xorAssign => some (max (max a b) (a + b))
  else none

def degree (PF F : Type) (n : ℕ) : HDInterp PF F ℕ := ⟨fun _ => 1, fun _ d => d, degrees n⟩

section Field

variable [Field PF] [Field F] [Algebra PF F]

/-- The polynomials, as long as the degrees of the first operands stay within `n`. -/
noncomputable def polyBelow (PF F : Type) [Field PF] [Field F] [Algebra PF F] (n : ℕ) :
    HDInterp PF F (DegPoly F) where
  source := (poly PF F).source
  unary := (poly PF F).unary
  binary op a b := if a.degree ≤ n then (poly PF F).binary op a b else none

theorem covers_polyBelow {n : ℕ} {R : α → DegPoly F → Prop} {x : Option α} {op : HDBinary}
    {a b : DegPoly F} (h : a.degree ≤ n → Covers R x ((poly PF F).binary op a b)) :
    Covers R x ((polyBelow PF F n).binary op a b) := by
  simp only [polyBelow]
  split_ifs with hle
  · exact h hle
  · exact covers_none

theorem follows_degree (n : ℕ) :
    Follows (polyBelow PF F n) (degree PF F n) fun a d => a.degree = d where
  source s := by cases s <;> rfl
  unary op a d h := by
    subst h
    cases op <;> rfl
  binary op a d a' d' h h' := by
    subst h h'
    simp only [degree, degrees, polyBelow]
    split_ifs
    · cases op <;> exact covers_some rfl
    · exact covers_none

/-- The convolution multiplies where the first operand has at most `n` coefficients besides the
constant. -/
def MultipliesBelow (cv : Convolve F) (n : ℕ) : Prop :=
  ∀ x0 xs y0 ys, xs.length ≤ n → cv.Multiplies x0 xs y0 ys

theorem follows_prover [DecidableEq F] {cv : Convolve F} {n : ℕ} (hcv : MultipliesBelow cv n) :
    Follows (prover PF cv) (polyBelow PF F n) HDMacProver.Represents where
  source := (simulates_prover PF cv).source
  unary := (simulates_prover PF cv).unary
  binary op p a q b h h' := covers_polyBelow fun hle => by
    refine covers_of_rel ((simulates_prover PF cv).binary op p a q b ?_ h h')
    have hlength : (p.poly.coefficients.take p.poly.degree).length ≤ n := by
      rw [List.length_take]
      exact (min_le_left _ _).trans (h.degree_le.trans (h.qsDegree_eq ▸ hle))
    cases op with
    | addAssign | subAssign => trivial
    | mulAssign | xorAssign => exact hcv _ _ _ _ hlength

theorem follows_verifier (Δ : F) (n : ℕ) :
    Follows (verifier PF Δ) (polyBelow PF F n) fun v a => v = polyKey Δ a where
  source := (simulates_verifier PF Δ).source
  unary op v a h := (simulates_verifier PF Δ).unary op a v h
  binary op v a w b h h' := covers_polyBelow fun _ =>
    covers_of_rel_swap ((simulates_verifier PF Δ).binary op a v b w trivial h h')

theorem follows_plain (n : ℕ) :
    Follows (plain PF F) (polyBelow PF F n) fun x a => x = a.lead where
  source := (simulates_plain PF F).source
  unary op x a h := (simulates_plain PF F).unary op a x h
  binary op x a y b h h' := covers_polyBelow fun _ =>
    covers_of_rel_swap ((simulates_plain PF F).binary op a x b y trivial h h')

end Field

variable (PF F) in
/-- A program does with every interpretation what it does with one that is followed. -/
def Parametric (e : ∀ {α : Type}, HDInterp PF F α → List α → Option α) : Prop :=
  ∀ {α β : Type} {I : HDInterp PF F α} {J : HDInterp PF F β} {R : α → β → Prop}, Follows I J R →
    ∀ {as : List α} {bs : List β}, List.Forall₂ R as bs → Covers R (e I as) (e J bs)

theorem forall₂_map {R : α → β → Prop} {f : γ → α} {g : γ → β} (h : ∀ c, R (f c) (g c))
    (cs : List γ) : List.Forall₂ R (cs.map f) (cs.map g) := by
  induction cs with
  | nil => exact .nil
  | cons c cs ih => exact .cons (h c) ih

section Run

variable [Field PF] [Field F] [DecidableEq F] [Algebra PF F]

/-- A program whose degrees stay below what the convolution multiplies ends for both parties, on
MACs of the declared degree, and computes on the values. -/
theorem Parametric.authenticates {e : ∀ {α : Type}, HDInterp PF F α → List α → Option α}
    (he : Parametric PF F e) {cv : Convolve F} {n d : ℕ} (hcv : MultipliesBelow cv n)
    {ms : List (MacProver PF F)} (hd : e (degree PF F n) (ms.map fun _ => 1) = some d) (Δ : F) :
    ∃ (p : HDMacProver F) (a : DegPoly F), e (prover PF cv) (ms.map .ofMac) = some p ∧
      p.Represents a ∧ a.degree = d ∧
      e (verifier PF Δ) (ms.map fun m => .ofMac (m.key Δ)) = some (p.key Δ) ∧
      e (plain PF F) (ms.map fun m => algebraMap PF F m.value) = some a.lead := by
  obtain ⟨a, ha, hdeg⟩ := he (follows_degree n) (forall₂_map (R := fun (a : DegPoly F) d => a.degree = d)
    (f := fun m => (poly PF F).source (.ofMac m)) (fun _ => rfl) ms) d hd
  obtain ⟨p, hp, hrep⟩ := he (follows_prover hcv) (forall₂_map
    (fun m => (simulates_prover PF cv).source (.ofMac m)) ms) a ha
  obtain ⟨v, hv, rfl⟩ := he (follows_verifier Δ n) (forall₂_map
    (R := fun v a => v = polyKey Δ a)
    (fun m => (simulates_verifier PF Δ).source (.ofMac m)) ms) a ha
  obtain ⟨x, hx, rfl⟩ := he (follows_plain n) (forall₂_map (R := fun x (a : DegPoly F) => x = a.lead)
    (fun m => (simulates_plain PF F).source (.ofMac m)) ms) a ha
  have hkey : p.key Δ = polyKey Δ a := by
    rw [HDMacProver.key, polyKey, hrep.eval_eq, hrep.qsDegree_eq]
  exact ⟨p, a, hp, hrep, hdeg, hkey ▸ hv, hx⟩

end Run

end HDInterp

/-! ## The predicates -/

open HDInterp

/-- `LOC`, the degrees, and what is computed from the MACs at the positions of `sigma`. -/
structure Predicate (K PF F : Type) where
  loc : ℕ
  d2 : ℕ
  dp : ℕ
  expand2 : ∀ {α : Type}, HDInterp F2 K α → List α → Option α
  expandP : ∀ {α : Type}, HDInterp PF F α → List α → Option α

namespace TSPAPredicate

variable {α : Type}

/-- `x1 ⊕ x2 ⊕ x3 ⊕ (x2 ⊕ x4)(x3 ⊕ x5)`. -/
def expand2 (binary : HDBinary → α → α → Option α) (xs : List α) : Option α := do
  let x1 ← xs[0]?
  let x2 ← xs[1]?
  let x3 ← xs[2]?
  let x4 ← xs[3]?
  let x5 ← xs[4]?
  let out ← binary .addAssign x1 x2
  let out ← binary .addAssign out x3
  let t ← binary .addAssign x2 x4
  let s ← binary .addAssign x3 x5
  let t ← binary .mulAssign t s
  binary .addAssign out t

/-- `x1 ⊕ (x2 + x3 + x4 x5 - x2 x3 - x3 x4 - x2 x5)`. -/
def expandP (binary : HDBinary → α → α → Option α) (xs : List α) : Option α := do
  let x1 ← xs[0]?
  let x2 ← xs[1]?
  let x3 ← xs[2]?
  let x4 ← xs[3]?
  let x5 ← xs[4]?
  let out ← binary .addAssign x2 x3
  let s23 ← binary .mulAssign x2 x3
  let s34 ← binary .mulAssign x3 x4
  let s25 ← binary .mulAssign x2 x5
  let s45 ← binary .mulAssign x4 x5
  let out ← binary .addAssign out s45
  let out ← binary .subAssign out s23
  let out ← binary .subAssign out s34
  let out ← binary .subAssign out s25
  binary .xorAssign out x1

end TSPAPredicate

def tspaPredicate (K PF F : Type) : Predicate K PF F :=
  ⟨5, 2, 3, fun I => TSPAPredicate.expand2 I.binary, fun I => TSPAPredicate.expandP I.binary⟩

namespace Maj7

variable {α : Type}

/-- The sum of the products of four of the seven. -/
def maj2 (default : α) (binary : HDBinary → α → α → Option α) (xs : List α) : Option α :=
  (List.range' 0 4).foldlM (fun out i0 => do
    let t0 ← xs[i0]?
    (List.range' (i0 + 1) (4 - i0)).foldlM (fun out i1 => do
      let t1 ← binary .mulAssign t0 (← xs[i1]?)
      (List.range' (i1 + 1) (5 - i1)).foldlM (fun out i2 => do
        let t2 ← binary .mulAssign t1 (← xs[i2]?)
        (List.range' (i2 + 1) (6 - i2)).foldlM (fun out i3 => do
          let t3 ← binary .mulAssign t2 (← xs[i3]?)
          binary .addAssign out t3) out) out) out) default

/-- A polynomial in the sum of the seven that is one from four on, and zero below. -/
def majP (I : HDInterp F61p F61p α) (xs : List α) : Option α := do
  let x ← (List.range' 1 6).foldlM (fun x i => do I.binary .addAssign x (← xs[i]?)) (← xs[0]?)
  let out := I.source (.newConstant 1162071675278329888)
  let out ← I.binary .mulAssign out x
  let out := I.unary (.addAssignConstant 1505203075458939107) out
  let out ← I.binary .mulAssign out x
  let out := I.unary (.addAssignConstant 1582064509099395571) out
  let out ← I.binary .mulAssign out x
  let out := I.unary (.addAssignConstant 64051194700380392) out
  let out ← I.binary .mulAssign out x
  let out := I.unary (.addAssignConstant 544435154953233283) out
  let out ← I.binary .mulAssign out x
  let out := I.unary (.addAssignConstant 1889510243661221445) out
  let out ← I.binary .mulAssign out x
  let out := I.unary (.addAssignConstant 170193174489582167) out
  I.binary .mulAssign out x

end Maj7

namespace Xor4Maj7Predicate

variable {α : Type}

def expand2 (default : α) (binary : HDBinary → α → α → Option α) (xs : List α) : Option α := do
  let out ← xs[0]?
  let out ← binary .addAssign out (← xs[1]?)
  let out ← binary .addAssign out (← xs[2]?)
  let out ← binary .addAssign out (← xs[3]?)
  binary .addAssign out (← Maj7.maj2 default binary (xs.drop 4))

def expandP (I : HDInterp F61p F61p α) (xs : List α) : Option α := do
  let out ← xs[0]?
  let out ← I.binary .xorAssign out (← xs[1]?)
  let out ← I.binary .xorAssign out (← xs[2]?)
  let out ← I.binary .xorAssign out (← xs[3]?)
  I.binary .xorAssign out (← Maj7.majP I (xs.drop 4))

end Xor4Maj7Predicate

def xor4Maj7Predicate (K : Type) : Predicate K F61p F61p :=
  ⟨11, 4, 12, fun I => Xor4Maj7Predicate.expand2 (I.source .default) I.binary,
    Xor4Maj7Predicate.expandP⟩

theorem degrees_tspa : TSPAPredicate.expand2 (degrees 63) (List.replicate 5 1) = some 2 ∧
    TSPAPredicate.expandP (degrees 63) (List.replicate 5 1) = some 3 := by
  decide +kernel

theorem degrees_xor4Maj7 :
    Xor4Maj7Predicate.expand2 1 (degrees 63) (List.replicate 11 1) = some 4 ∧
      Xor4Maj7Predicate.expandP (degree F61p F61p 63) (List.replicate 11 1) = some 12 := by
  decide +kernel

/-! ## The predicates follow -/

section Covers

variable {α β : Type} {R : α → β → Prop} {as : List α} {bs : List β}

section Binary

variable {binary : HDBinary → α → α → Option α} {binary' : HDBinary → β → β → Option β}

theorem TSPAPredicate.covers_expand2
    (h : ∀ op a b a' b', R a b → R a' b' → Covers R (binary op a a') (binary' op b b'))
    (hs : List.Forall₂ R as bs) : Covers R (expand2 binary as) (expand2 binary' bs) := by
  unfold expand2
  refine (covers_getElem? hs 0).bind fun _ _ h1 => (covers_getElem? hs 1).bind fun _ _ h2 => ?_
  refine (covers_getElem? hs 2).bind fun _ _ h3 => (covers_getElem? hs 3).bind fun _ _ h4 => ?_
  refine (covers_getElem? hs 4).bind fun _ _ h5 => ?_
  refine (h _ _ _ _ _ h1 h2).bind fun _ _ hout => (h _ _ _ _ _ hout h3).bind fun _ _ hout => ?_
  refine (h _ _ _ _ _ h2 h4).bind fun _ _ ht => (h _ _ _ _ _ h3 h5).bind fun _ _ hs => ?_
  exact (h _ _ _ _ _ ht hs).bind fun _ _ ht => h _ _ _ _ _ hout ht

theorem TSPAPredicate.covers_expandP
    (h : ∀ op a b a' b', R a b → R a' b' → Covers R (binary op a a') (binary' op b b'))
    (hs : List.Forall₂ R as bs) : Covers R (expandP binary as) (expandP binary' bs) := by
  unfold expandP
  refine (covers_getElem? hs 0).bind fun _ _ h1 => (covers_getElem? hs 1).bind fun _ _ h2 => ?_
  refine (covers_getElem? hs 2).bind fun _ _ h3 => (covers_getElem? hs 3).bind fun _ _ h4 => ?_
  refine (covers_getElem? hs 4).bind fun _ _ h5 => (h _ _ _ _ _ h2 h3).bind fun _ _ hout => ?_
  refine (h _ _ _ _ _ h2 h3).bind fun _ _ h23 => (h _ _ _ _ _ h3 h4).bind fun _ _ h34 => ?_
  refine (h _ _ _ _ _ h2 h5).bind fun _ _ h25 => (h _ _ _ _ _ h4 h5).bind fun _ _ h45 => ?_
  refine (h _ _ _ _ _ hout h45).bind fun _ _ hout => (h _ _ _ _ _ hout h23).bind fun _ _ hout => ?_
  refine (h _ _ _ _ _ hout h34).bind fun _ _ hout => (h _ _ _ _ _ hout h25).bind fun _ _ hout => ?_
  exact h _ _ _ _ _ hout h1

theorem Maj7.covers_maj2 {default : α} {default' : β} (hdefault : R default default')
    (h : ∀ op a b a' b', R a b → R a' b' → Covers R (binary op a a') (binary' op b b'))
    (hs : List.Forall₂ R as bs) : Covers R (maj2 default binary as) (maj2 default' binary' bs) := by
  unfold maj2
  refine covers_foldlM (fun i0 _ _ hout => ?_) _ hdefault
  refine (covers_getElem? hs i0).bind fun _ _ h0 => covers_foldlM (fun i1 _ _ hout => ?_) _ hout
  refine (covers_getElem? hs i1).bind fun _ _ h1 => (h _ _ _ _ _ h0 h1).bind fun _ _ h1 => ?_
  refine covers_foldlM (fun i2 _ _ hout => ?_) _ hout
  refine (covers_getElem? hs i2).bind fun _ _ h2 => (h _ _ _ _ _ h1 h2).bind fun _ _ h2 => ?_
  refine covers_foldlM (fun i3 _ _ hout => ?_) _ hout
  refine (covers_getElem? hs i3).bind fun _ _ h3 => (h _ _ _ _ _ h2 h3).bind fun _ _ h3 => ?_
  exact h _ _ _ _ _ hout h3

theorem Xor4Maj7Predicate.covers_expand2 {default : α} {default' : β} (hdefault : R default default')
    (h : ∀ op a b a' b', R a b → R a' b' → Covers R (binary op a a') (binary' op b b'))
    (hs : List.Forall₂ R as bs) :
    Covers R (expand2 default binary as) (expand2 default' binary' bs) := by
  unfold expand2
  refine (covers_getElem? hs 0).bind fun _ _ hout => ?_
  refine (covers_getElem? hs 1).bind fun _ _ h1 => (h _ _ _ _ _ hout h1).bind fun _ _ hout => ?_
  refine (covers_getElem? hs 2).bind fun _ _ h2 => (h _ _ _ _ _ hout h2).bind fun _ _ hout => ?_
  refine (covers_getElem? hs 3).bind fun _ _ h3 => (h _ _ _ _ _ hout h3).bind fun _ _ hout => ?_
  exact (Maj7.covers_maj2 hdefault h (List.forall₂_drop 4 hs)).bind fun _ _ hmaj =>
    h _ _ _ _ _ hout hmaj

end Binary

variable {I : HDInterp F61p F61p α} {J : HDInterp F61p F61p β}

theorem Maj7.covers_majP (h : Follows I J R) (hs : List.Forall₂ R as bs) :
    Covers R (majP I as) (majP J bs) := by
  have hmul : ∀ {a b a' b'}, R a b → R a' b' →
      Covers R (I.binary .mulAssign a a') (J.binary .mulAssign b b') := h.binary _ _ _ _ _
  have hadd : ∀ {c a b}, R a b →
      R (I.unary (.addAssignConstant c) a) (J.unary (.addAssignConstant c) b) := h.unary _ _ _
  unfold majP
  refine (covers_getElem? hs 0).bind fun _ _ h0 => ?_
  refine (covers_foldlM (fun i _ _ hx => (covers_getElem? hs i).bind fun _ _ hi =>
    h.binary _ _ _ _ _ hx hi) _ h0).bind fun _ _ hx => ?_
  refine (hmul (h.source _) hx).bind fun _ _ hout => (hmul (hadd hout) hx).bind fun _ _ hout => ?_
  refine (hmul (hadd hout) hx).bind fun _ _ hout => (hmul (hadd hout) hx).bind fun _ _ hout => ?_
  refine (hmul (hadd hout) hx).bind fun _ _ hout => (hmul (hadd hout) hx).bind fun _ _ hout => ?_
  exact hmul (hadd hout) hx

theorem Xor4Maj7Predicate.covers_expandP (h : Follows I J R) (hs : List.Forall₂ R as bs) :
    Covers R (expandP I as) (expandP J bs) := by
  have hxor : ∀ {a b a' b'}, R a b → R a' b' →
      Covers R (I.binary .xorAssign a a') (J.binary .xorAssign b b') := h.binary _ _ _ _ _
  unfold expandP
  refine (covers_getElem? hs 0).bind fun _ _ hout => ?_
  refine (covers_getElem? hs 1).bind fun _ _ h1 => (hxor hout h1).bind fun _ _ hout => ?_
  refine (covers_getElem? hs 2).bind fun _ _ h2 => (hxor hout h2).bind fun _ _ hout => ?_
  refine (covers_getElem? hs 3).bind fun _ _ h3 => (hxor hout h3).bind fun _ _ hout => ?_
  exact (Maj7.covers_majP h (List.forall₂_drop 4 hs)).bind fun _ _ hmaj => hxor hout hmaj

end Covers

/-! ## The values -/

def ofBool {R : Type} [Zero R] [One R] (b : Bool) : R := if b then 1 else 0

def bitBinary (op : HDBinary) (a b : Bool) : Option Bool :=
  match op with
  | .addAssign | .subAssign | .xorAssign => some (a ^^ b)
  | .mulAssign => some (a && b)

def intBinary (op : HDBinary) (a b : ℤ) : Option ℤ :=
  match op with
  | .addAssign => some (a + b)
  | .subAssign => some (a - b)
  | .mulAssign => some (a * b)
  | .xorAssign => some (a + b - 2 * (a * b))

def TSPAPredicate.bit : List Bool → Bool
  | [x1, x2, x3, x4, x5] => x1 ^^ x2 ^^ x3 ^^ ((x2 ^^ x4) && (x3 ^^ x5))
  | _ => false

def Xor4Maj7Predicate.bit : List Bool → Bool
  | x1 :: x2 :: x3 :: x4 :: xs => x1 ^^ x2 ^^ x3 ^^ x4 ^^ decide (4 ≤ xs.count true)
  | _ => false

theorem bits_tspa : ∀ x1 x2 x3 x4 x5,
    TSPAPredicate.expand2 bitBinary [x1, x2, x3, x4, x5] =
        some (TSPAPredicate.bit [x1, x2, x3, x4, x5]) ∧
      TSPAPredicate.expandP intBinary ([x1, x2, x3, x4, x5].map ofBool) =
        some (ofBool (TSPAPredicate.bit [x1, x2, x3, x4, x5])) := by
  decide +kernel

theorem bits_maj : ∀ x1 x2 x3 x4 x5 x6 x7,
    Maj7.maj2 false bitBinary [x1, x2, x3, x4, x5, x6, x7] =
        some (decide (4 ≤ [x1, x2, x3, x4, x5, x6, x7].count true)) ∧
      Maj7.majP (plain F61p F61p) ([x1, x2, x3, x4, x5, x6, x7].map ofBool) =
        some (ofBool (decide (4 ≤ [x1, x2, x3, x4, x5, x6, x7].count true))) := by
  decide +kernel

theorem eq_some_of_covers {α β : Type} {f : β → α} {x : Option α} {b : β}
    (h : Covers (fun a b => a = f b) x (some b)) : x = some (f b) := by
  obtain ⟨a, ha, rfl⟩ := h b rfl
  exact ha

section Values

variable {PF K F : Type} [Field PF] [Field K] [Algebra F2 K] [Field F] [Algebra PF F]

theorem two_eq_zero (K : Type) [Field K] [Algebra F2 K] : (2 : K) = 0 := by
  rw [← map_ofNat (algebraMap F2 K) 2, show (OfNat.ofNat 2 : F2) = 0 from rfl, map_zero]

theorem covers_bitBinary (op : HDBinary) (x : K) (b : Bool) (x' : K) (b' : Bool) (h : x = ofBool b)
    (h' : x' = ofBool b') : Covers (fun x b => x = ofBool b) ((plain F2 K).binary op x x')
      (bitBinary op b b') := by
  subst h h'
  have htwo : (1 : K) + 1 = 0 := by rw [one_add_one_eq_two, two_eq_zero]
  cases op <;> refine covers_some ?_ <;> cases b <;> cases b' <;>
    simp [ofBool, htwo, two_eq_zero, neg_eq_of_add_eq_zero_left htwo]

variable (PF F) in
theorem covers_intBinary (op : HDBinary) (x : F) (z : ℤ) (x' : F) (z' : ℤ) (h : x = z)
    (h' : x' = z') : Covers (fun x (z : ℤ) => x = (z : F)) ((plain PF F).binary op x x')
      (intBinary op z z') := by
  subst h h'
  cases op <;> refine covers_some ?_ <;> push_cast <;> rfl

/-- Whatever the program returns comes from a sum, a difference or an exclusive or. -/
def EndsInSum (PF F : Type) (e : ∀ {α : Type}, HDInterp PF F α → List α → Option α) : Prop :=
  ∀ {α : Type} {I : HDInterp PF F α} {xs : List α}, ∀ y ∈ e I xs,
    ∃ op a b, op ≠ .mulAssign ∧ I.binary op a b = some y

omit [Field PF] [Field F] [Algebra PF F] in
theorem sum_of_bind {α β : Type} {I : HDInterp PF F α} {x : Option β} {f : β → Option α}
    (h : ∀ b, ∀ y ∈ f b, ∃ op a b, op ≠ .mulAssign ∧ I.binary op a b = some y) :
    ∀ y ∈ x >>= f, ∃ op a b, op ≠ .mulAssign ∧ I.binary op a b = some y := by
  intro y hy
  obtain ⟨b, -, hb⟩ := Option.bind_eq_some_iff.1 hy
  exact h b y hb

omit [Field PF] [Field F] [Algebra PF F] in
theorem sum_of_binary {α : Type} {I : HDInterp PF F α} {op : HDBinary} {a b : α}
    (h : op ≠ .mulAssign) :
    ∀ y ∈ I.binary op a b, ∃ op a b, op ≠ .mulAssign ∧ I.binary op a b = some y :=
  fun _ hy => ⟨op, a, b, h, hy⟩

/-- What a predicate promises: its degrees, a result with all its coefficients, and one bit that is
computed on both sides. -/
structure Predicate.Lawful (P : Predicate K PF F) (bit : List Bool → Bool) : Prop where
  parametric2 : Parametric F2 K P.expand2
  parametricP : Parametric PF F P.expandP
  endsInSum2 : EndsInSum F2 K P.expand2
  endsInSumP : EndsInSum PF F P.expandP
  degree2 : P.expand2 (degree F2 K 63) (List.replicate P.loc 1) = some P.d2
  degreeP : P.expandP (degree PF F 63) (List.replicate P.loc 1) = some P.dp
  value2 : ∀ bs : List Bool, bs.length = P.loc →
    P.expand2 (plain F2 K) (bs.map ofBool) = some (ofBool (bit bs))
  valueP : ∀ bs : List Bool, bs.length = P.loc →
    P.expandP (plain PF F) (bs.map ofBool) = some (ofBool (bit bs))

theorem exists_five {α : Type} {xs : List α} (h : xs.length = 5) :
    ∃ x1 x2 x3 x4 x5, xs = [x1, x2, x3, x4, x5] :=
  match xs, h with
  | [x1, x2, x3, x4, x5], _ => ⟨x1, x2, x3, x4, x5, rfl⟩

theorem lawful_tspa : (tspaPredicate K PF F).Lawful TSPAPredicate.bit where
  parametric2 h _ _ hs := TSPAPredicate.covers_expand2 h.binary hs
  parametricP h _ _ hs := TSPAPredicate.covers_expandP h.binary hs
  endsInSum2 := by
    unfold tspaPredicate TSPAPredicate.expand2
    repeat refine sum_of_bind fun _ => ?_
    exact sum_of_binary (by simp)
  endsInSumP := by
    unfold tspaPredicate TSPAPredicate.expandP
    repeat refine sum_of_bind fun _ => ?_
    exact sum_of_binary (by simp)
  degree2 := degrees_tspa.1
  degreeP := degrees_tspa.2
  value2 bs hbs := by
    obtain ⟨x1, x2, x3, x4, x5, rfl⟩ := exists_five hbs
    have hcover := TSPAPredicate.covers_expand2 (covers_bitBinary (K := K))
      (forall₂_map (f := ofBool) (g := id) (fun _ => rfl) [x1, x2, x3, x4, x5])
    rw [List.map_id, (bits_tspa x1 x2 x3 x4 x5).1] at hcover
    exact eq_some_of_covers hcover
  valueP bs hbs := by
    obtain ⟨x1, x2, x3, x4, x5, rfl⟩ := exists_five hbs
    have hcover := TSPAPredicate.covers_expandP (covers_intBinary PF F)
      (forall₂_map (f := ofBool) (g := ofBool) (fun b => by cases b <;> simp [ofBool])
        [x1, x2, x3, x4, x5])
    rw [(bits_tspa x1 x2 x3 x4 x5).2] at hcover
    rw [show (tspaPredicate K PF F).expandP (plain PF F) = TSPAPredicate.expandP (plain PF F).binary
      from rfl, eq_some_of_covers hcover]
    cases TSPAPredicate.bit [x1, x2, x3, x4, x5] <;> simp [ofBool]

theorem exists_eleven {α : Type} {xs : List α} (h : xs.length = 11) :
    ∃ x1 x2 x3 x4 y1 y2 y3 y4 y5 y6 y7, xs = [x1, x2, x3, x4, y1, y2, y3, y4, y5, y6, y7] :=
  match xs, h with
  | [x1, x2, x3, x4, y1, y2, y3, y4, y5, y6, y7], _ =>
    ⟨x1, x2, x3, x4, y1, y2, y3, y4, y5, y6, y7, rfl⟩

theorem xorAssign_ofBool (a b : Bool) :
    (plain PF F).binary .xorAssign (ofBool a) (ofBool b) = some (ofBool (a ^^ b)) := by
  cases a <;> cases b <;> simp [plain, ofBool]
  norm_num

theorem lawful_xor4Maj7 : (xor4Maj7Predicate K).Lawful Xor4Maj7Predicate.bit where
  parametric2 h _ _ hs := Xor4Maj7Predicate.covers_expand2 (h.source .default) h.binary hs
  parametricP h _ _ hs := Xor4Maj7Predicate.covers_expandP h hs
  endsInSum2 := by
    unfold xor4Maj7Predicate Xor4Maj7Predicate.expand2
    repeat refine sum_of_bind fun _ => ?_
    exact sum_of_binary (by simp)
  endsInSumP := by
    unfold xor4Maj7Predicate Xor4Maj7Predicate.expandP
    repeat refine sum_of_bind fun _ => ?_
    exact sum_of_binary (by simp)
  degree2 := degrees_xor4Maj7.1
  degreeP := degrees_xor4Maj7.2
  value2 bs hbs := by
    obtain ⟨x1, x2, x3, x4, y1, y2, y3, y4, y5, y6, y7, rfl⟩ := exists_eleven hbs
    have hdefault : (0 : K) = ofBool false := rfl
    have hcover := Xor4Maj7Predicate.covers_expand2 (R := fun (x : K) b => x = ofBool b) hdefault
      covers_bitBinary
      (forall₂_map (f := ofBool) (g := id) (fun _ => rfl)
        [x1, x2, x3, x4, y1, y2, y3, y4, y5, y6, y7])
    have hbits : Xor4Maj7Predicate.expand2 false bitBinary
        [x1, x2, x3, x4, y1, y2, y3, y4, y5, y6, y7] =
        some (Xor4Maj7Predicate.bit [x1, x2, x3, x4, y1, y2, y3, y4, y5, y6, y7]) := by
      simp only [Xor4Maj7Predicate.expand2, List.drop_succ_cons, List.drop_zero,
        (bits_maj y1 y2 y3 y4 y5 y6 y7).1]
      rfl
    rw [List.map_id, hbits] at hcover
    exact eq_some_of_covers hcover
  valueP bs hbs := by
    obtain ⟨x1, x2, x3, x4, y1, y2, y3, y4, y5, y6, y7, rfl⟩ := exists_eleven hbs
    simp only [xor4Maj7Predicate, Xor4Maj7Predicate.expandP, ← List.map_drop, List.drop_succ_cons,
      List.drop_zero, (bits_maj y1 y2 y3 y4 y5 y6 y7).2]
    simp only [List.map_cons, List.getElem?_cons_zero, List.getElem?_cons_succ,
      Option.bind_eq_bind, Option.bind_some, xorAssign_ofBool]
    rfl

end Values

end EdaBitGen
