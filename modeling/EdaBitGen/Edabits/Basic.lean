import EdaBitGen.Algebra.Bits
import EdaBitGen.Fields
import EdaBitGen.HomCom.Multiply

/-!
# Edabits, dabits and their conversions

An edabit is a list of committed bits and the commitment of the same number in a prime field, a
dabit a committed bit and the same bit in the field.  Here are also the permutation of the
cut-and-choose and the check of its parameters.
-/

namespace EdaBitGen

open Interaction Party

structure EdabitsProver (K F : Type) where
  bits : List (MacProver F2 K)
  value : MacProver F F

structure EdabitsVerifier (K F : Type) where
  bits : List (MacVerifier K)
  value : MacVerifier F

structure DabitProver (K F : Type) where
  bit : MacProver F2 K
  value : MacProver F F

structure DabitVerifier (K F : Type) where
  bit : MacVerifier K
  value : MacVerifier F

def fdabitSecurityParameter : ℕ := 38

/-! ## Conversions of bits -/

section Convert

variable {K F : Type} [Field F]

def f2ToFe (b : F2) : F := if b = 0 then 0 else 1

def convertBitsToField (v : List F2) : F :=
  v.reverse.foldl (fun res b => res + res + f2ToFe b) 0

def convertBitsToFieldMac (v : List (MacProver F2 K)) : F :=
  v.reverse.foldl (fun res b => res + res + f2ToFe b.value) 0

def powerTwo (m : ℕ) : F := (fun res => res + res)^[m] 1

theorem f2ToFe_eq (b : F2) : (f2ToFe b : F) = (b.val : F) := by
  have h : b = 0 ∨ b = 1 := by revert b; decide
  rcases h with rfl | rfl <;> simp [f2ToFe, ZMod.val_one]

theorem convertBitsToField_eq (v : List F2) :
    (convertBitsToField v : F) = (Bits.toNat v : F) := by
  induction v with
  | nil => simp [convertBitsToField]
  | cons b v ih =>
    rw [convertBitsToField] at ih ⊢
    rw [List.reverse_cons, List.foldl_append, ih]
    simp only [List.foldl_cons, List.foldl_nil, f2ToFe_eq, Bits.toNat_cons]
    push_cast
    ring

theorem convertBitsToFieldMac_eq (v : List (MacProver F2 K)) :
    (convertBitsToFieldMac v : F) = (Bits.toNat (v.map MacProver.value) : F) := by
  rw [← convertBitsToField_eq, convertBitsToField, ← List.map_reverse, List.foldl_map]
  rfl

theorem powerTwo_eq (m : ℕ) : (powerTwo m : F) = ((2 ^ m : ℕ) : F) := by
  induction m with
  | zero => simp [powerTwo]
  | succ m ih =>
    rw [powerTwo, Function.iterate_succ_apply', ← powerTwo, ih, pow_succ]
    push_cast
    ring

end Convert

/-! ## The permutation -/

/-- A draw read as an index below `i`. -/
class GenRange (D : Type) where
  genRange : ℕ → D → ℕ
  genRange_lt : ∀ {i} d, 0 < i → genRange i d < i

instance {K F : Type} : GenRange (Draw K F) where
  genRange i d := d.index % i
  genRange_lt d hi := Nat.mod_lt d.index hi

section Permutation

variable {α β D : Type} [GenRange D]

/-- Exchange the elements at `a` and `b`, which must be there. -/
def swap (v : List α) (a b : ℕ) : Option (List α) := do
  let x ← v[a]?
  let y ← v[b]?
  pure ((v.set a y).set b x)

/-- The loop of the shuffle: exchange position `i` with an earlier one, then go on below. -/
def permutationLoop : ℕ → Stream' D → List α → Option (List α × Stream' D)
  | 0, rng, v => some (v, rng)
  | i + 1, rng, v => do
    let v ← swap v (GenRange.genRange (i + 1) rng.head) (i + 1)
    permutationLoop i rng.tail v

def generatePermutation (rng : Stream' D) (v : List α) : Option (List α × Stream' D) :=
  permutationLoop (v.length - 1) rng v

omit [GenRange D] in
theorem swap_map (f : α → β) (v : List α) (a b : ℕ) :
    swap (v.map f) a b = (swap v a b).map (List.map f) := by
  unfold swap
  rw [List.getElem?_map, List.getElem?_map]
  cases v[a]? <;> cases v[b]? <;> simp [List.map_set]

theorem permutationLoop_map (f : α → β) (i : ℕ) (rng : Stream' D) (v : List α) :
    permutationLoop i rng (v.map f) =
      (permutationLoop i rng v).map fun r => (r.1.map f, r.2) := by
  induction i generalizing rng v with
  | zero => rfl
  | succ i ih =>
    simp only [permutationLoop, swap_map]
    cases swap v (GenRange.genRange (i + 1) rng.head) (i + 1) with
    | none => rfl
    | some v' => exact ih rng.tail v'

theorem generatePermutation_map (f : α → β) (rng : Stream' D) (v : List α) :
    generatePermutation rng (v.map f) =
      (generatePermutation rng v).map fun r => (r.1.map f, r.2) := by
  unfold generatePermutation
  rw [List.length_map, permutationLoop_map]

omit [GenRange D] in
theorem swap_perm {v : List α} {a b : ℕ} (ha : a < v.length) (hb : b < v.length) :
    ∃ v', swap v a b = some v' ∧ v'.Perm v :=
  ⟨(v.set a v[b]).set b v[a], by simp [swap, ha, hb], List.set_set_perm ha hb⟩

theorem permutationLoop_perm (i : ℕ) (rng : Stream' D) (v : List α) (hi : i < v.length) :
    ∃ v' rng', permutationLoop i rng v = some (v', rng') ∧ v'.Perm v := by
  induction i generalizing rng v with
  | zero => exact ⟨v, rng, rfl, List.Perm.refl v⟩
  | succ i ih =>
    have hlt := GenRange.genRange_lt rng.head (Nat.succ_pos i)
    obtain ⟨v₁, hswap, hperm₁⟩ := swap_perm (hlt.trans hi) hi
    have hi₁ : i < v₁.length := by rw [hperm₁.length_eq]; omega
    obtain ⟨v₂, rng₂, hloop, hperm₂⟩ := ih rng.tail v₁ hi₁
    refine ⟨v₂, rng₂, ?_, hperm₂.trans hperm₁⟩
    simp only [permutationLoop, hswap, Option.bind_eq_bind, Option.bind_some, hloop]

theorem generatePermutation_perm (rng : Stream' D) (v : List α) :
    ∃ v' rng', generatePermutation rng v = some (v', rng') ∧ v'.Perm v := by
  unfold generatePermutation
  rcases v with _ | ⟨x, v⟩
  · exact ⟨[], rng, rfl, List.Perm.refl _⟩
  · exact permutationLoop_perm _ rng _ (by simp)

end Permutation

/-! ## The parameters -/

/-- `⌊log₂ x⌋`, the width of `usize` less the leading zeros of `x` less one. -/
def log2Floor (x : ℕ) : ℕ := Nat.log 2 x

/-- How many bits the field elements of `ZMod p` decompose into. -/
def numberOfBits (p : ℕ) : ℕ := Nat.clog 2 p

/-- The check of `check_parameters`. -/
def checkParameters (p n gamma : ℕ) : Prop :=
  ¬numberOfBits p - 1 ≤ log2Floor (n + 1) + gamma

instance (p n gamma : ℕ) : Decidable (checkParameters p n gamma) := by
  unfold checkParameters
  infer_instance

/-- The number of bits of `n + 1`. -/
def fdabitGamma (n : ℕ) : ℕ := log2Floor (n + 1) + 1

end EdaBitGen

/-!
## The permutations of the cut-and-choose

A run of the shuffle takes each draw from its own range.  Whatever stands in the vector, the draws
decide how its positions move.
-/

namespace EdaBitGen

/-- A draw that is in its range already. -/
instance : GenRange ℕ where
  genRange i d := d % i
  genRange_lt d hi := Nat.mod_lt d hi

namespace MpcOriginalEdabits

def generatePermutation {α D : Type} [GenRange D] (rng : Stream' D) (v : List α) :
    Option (List α × Stream' D) :=
  if v.isEmpty then some (v, rng) else permutationLoop (v.length - 1) rng v

theorem generatePermutation_eq {α D : Type} [GenRange D] (rng : Stream' D) (v : List α) :
    generatePermutation rng v = EdaBitGen.generatePermutation rng v := by
  cases v with
  | nil => rfl
  | cons x v => rfl

end MpcOriginalEdabits

/-- A shuffle of vectors of whatever type. -/
abbrev Shuffle : Type 1 := (α : Type) → Stream' ℕ → List α → Option (List α × Stream' ℕ)

namespace Shuffle

/-- The draws of a run on `n` elements: the one for position `i + 1` is from `0..i + 1`. -/
abbrev Draws (n : ℕ) : Type := (i : Fin (n - 1)) → Fin (i + 1)

/-- The draws in the order of the loop, which goes down. -/
def Draws.stream {n : ℕ} (draws : Draws n) : Stream' ℕ := fun j =>
  if h : n - 1 - 1 - j < n - 1 then draws ⟨n - 1 - 1 - j, h⟩ else 0

/-- With the draws, the shuffle permutes all vectors in one way. -/
def Permutes (shuffle : Shuffle) {n : ℕ} (draws : Draws n) (σ : Equiv.Perm (Fin n)) : Prop :=
  ∀ {α : Type} (v : Fin n → α),
    (shuffle α draws.stream (List.ofFn v)).map Prod.fst = some (List.ofFn (v ∘ σ))

/-- All draws permute vectors, and each permutation comes from one sequence of draws. -/
structure IsUniform (shuffle : Shuffle) (n : ℕ) : Prop where
  permutes : ∀ draws : Draws n, ∃ σ, shuffle.Permutes draws σ
  bijective : ∀ σ : Equiv.Perm (Fin n), ∃! draws : Draws n, shuffle.Permutes draws σ

variable {n : ℕ}

theorem Permutes.unique {shuffle : Shuffle} {draws : Draws n} {σ τ : Equiv.Perm (Fin n)}
    (hσ : shuffle.Permutes draws σ) (hτ : shuffle.Permutes draws τ) : σ = τ := by
  have h := (hσ (fun i => i)).symm.trans (hτ fun i => i)
  exact Equiv.ext (congrFun (List.ofFn_injective (Option.some.inj h)))

theorem exists_permutes (draws : Draws n) :
    ∃ σ, Permutes (fun _ => generatePermutation) draws σ := by
  obtain ⟨l, rng, hl, hperm⟩ := generatePermutation_perm draws.stream (List.finRange n)
  have hlen : l.length = n := by rw [hperm.length_eq, List.length_finRange]
  have hnodup : l.Nodup := hperm.nodup_iff.2 (List.nodup_finRange n)
  have hinj : Function.Injective fun i : Fin n => l.get (i.cast hlen.symm) := by
    intro i j hij
    exact Fin.cast_injective _ (hnodup.injective_get hij)
  refine ⟨Equiv.ofBijective _ (Finite.injective_iff_bijective.1 hinj), fun v => ?_⟩
  have hv : List.ofFn v = (List.finRange n).map v := List.ofFn_eq_map
  have hresult : l.map v = List.ofFn fun i : Fin n => v (l.get (i.cast hlen.symm)) := by
    apply List.ext_get
    · rw [List.length_map, List.length_ofFn, hlen]
    · intro i h1 h2
      simp
  show (generatePermutation _ _).map Prod.fst = _
  rw [hv, generatePermutation_map, hl]
  exact congrArg some hresult

theorem card_draws (n : ℕ) : Fintype.card (Draws n) = (n - 1).factorial := by
  rw [Fintype.card_pi]
  simp only [Fintype.card_fin]
  rw [← Finset.prod_range_add_one_eq_factorial, Fin.prod_univ_eq_prod_range fun i => i + 1]

theorem IsUniform.card_eq {shuffle : Shuffle} (h : shuffle.IsUniform n) :
    (n - 1).factorial = n.factorial := by
  choose f hf using h.permutes
  have hbij : Function.Bijective f := by
    constructor
    · intro d d' heq
      exact (h.bijective (f d)).unique (hf d) (heq ▸ hf d')
    · intro σ
      obtain ⟨d, hd, -⟩ := h.bijective σ
      exact ⟨d, Permutes.unique (hf d) hd⟩
  rw [← card_draws, Fintype.card_of_bijective hbij, Fintype.card_perm, Fintype.card_fin]

theorem isUniform_of_le_one (hn : n ≤ 1) : IsUniform (fun _ => generatePermutation) n := by
  have hdraws : Subsingleton (Draws n) :=
    ⟨fun d d' => funext fun i => absurd i.isLt (by omega)⟩
  have hfin : Subsingleton (Fin n) := Fin.subsingleton_iff_le_one.2 hn
  refine ⟨exists_permutes, fun σ => ?_⟩
  obtain ⟨τ, hτ⟩ := exists_permutes fun i : Fin (n - 1) => absurd i.isLt (by omega)
  have hστ : τ = σ := Equiv.ext fun i => Subsingleton.elim _ _
  exact ⟨_, hστ ▸ hτ, fun d _ => Subsingleton.elim _ _⟩

/-- The two copies of the shuffle reach all permutations if there is only one. -/
theorem generatePermutation_isUniform_iff (n : ℕ) :
    IsUniform (fun _ => generatePermutation) n ∧
      IsUniform (fun _ => MpcOriginalEdabits.generatePermutation) n ↔ n ≤ 1 := by
  have hcopy : (fun _ => MpcOriginalEdabits.generatePermutation : Shuffle) =
      fun _ => generatePermutation := by
    funext α rng v
    exact MpcOriginalEdabits.generatePermutation_eq rng v
  rw [hcopy, and_self_iff]
  constructor
  · intro h
    by_contra hlt
    have hcard := h.card_eq
    have hn : n = n - 1 + 1 := by omega
    have hfact : n.factorial = n * (n - 1).factorial := by
      conv_lhs => rw [hn, Nat.factorial_succ, ← hn]
    have hpos := (n - 1).factorial_pos
    nlinarith
  · exact isUniform_of_le_one

/-- Of two elements the order never stays. -/
theorem generatePermutation_two :
    ¬ ∀ n, IsUniform (fun _ => generatePermutation) n ∧
      IsUniform (fun _ => MpcOriginalEdabits.generatePermutation) n := by
  intro h
  obtain ⟨d, hd, -⟩ := (h 2).1.bijective 1
  have hswapped : generatePermutation d.stream [0, 1] = some ([1, 0], d.stream.tail) := by
    have hzero : GenRange.genRange (0 + 1) d.stream.head = 0 := Nat.mod_one _
    show permutationLoop 1 _ _ = _
    rw [permutationLoop, hzero]
    rfl
  have hkept : (generatePermutation d.stream [0, 1]).map Prod.fst = some [0, 1] := hd ![0, 1]
  rw [hswapped] at hkept
  have hlist : ([1, 0] : List ℕ) = [0, 1] := Option.some.inj hkept
  exact absurd hlist (by decide)

end Shuffle

end EdaBitGen
