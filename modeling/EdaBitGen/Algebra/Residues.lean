import Mathlib

/-!
# Reconstruction from residues

A number below the product of pairwise coprime moduli from its residues, as a sum of one term for
each modulus.
-/

namespace Residues

/-- The product of the other moduli. -/
def cofactor (ps : List ℕ) (p : ℕ) : ℕ := ps.prod / p

/-- The inverse of a number modulo `p`, below `p`. -/
def inverse (a p : ℕ) : ℕ := ((a : ZMod p)⁻¹).val

/-- What a residue contributes. -/
def term (ps : List ℕ) (x p : ℕ) : ℕ := x % p * inverse (cofactor ps p) p * cofactor ps p

theorem inverse_mul {a p : ℕ} (hp : 0 < p) (h : a.Coprime p) : inverse a p * a ≡ 1 [MOD p] := by
  have : NeZero p := ⟨hp.ne'⟩
  rw [← ZMod.natCast_eq_natCast_iff, Nat.cast_mul, inverse, ZMod.natCast_val, ZMod.cast_id', id_eq,
    mul_comm, ZMod.coe_mul_inv_eq_one a h, Nat.cast_one]

theorem inverse_lt (a : ℕ) {p : ℕ} (hp : 0 < p) : inverse a p < p := by
  have : NeZero p := ⟨hp.ne'⟩
  exact ZMod.val_lt _

theorem eq_inverse {a p i : ℕ} (h : a.Coprime p) (hi : i < p) (hmul : i * a ≡ 1 [MOD p]) :
    i = inverse a p := by
  have : NeZero p := ⟨by omega⟩
  have hunit : (i : ZMod p) * a = 1 := by
    rw [← Nat.cast_mul, (ZMod.natCast_eq_natCast_iff _ _ _).2 hmul, Nat.cast_one]
  have heq : (i : ZMod p) = (a : ZMod p)⁻¹ := by
    calc (i : ZMod p) = i * (a * (a : ZMod p)⁻¹) := by rw [ZMod.coe_mul_inv_eq_one a h, mul_one]
      _ = (a : ZMod p)⁻¹ := by rw [← mul_assoc, hunit, one_mul]
  rw [inverse, ← heq, ZMod.val_natCast, Nat.mod_eq_of_lt hi]

theorem modEq_prod_iff {ps : List ℕ} (h : ps.Pairwise Nat.Coprime) {a b : ℕ} :
    a ≡ b [MOD ps.prod] ↔ ∀ p ∈ ps, a ≡ b [MOD p] := by
  have hmap := Nat.modEq_list_map_prod_iff (a := a) (b := b) (s := id) (l := ps) h
  rwa [List.map_id] at hmap

theorem dvd_term {ps : List ℕ} {p r : ℕ} (hp : p ∈ ps) (hr : r ∈ ps) (h : p.Coprime r) (x : ℕ) :
    r ∣ term ps x p := by
  have hprod : p * r ∣ ps.prod :=
    h.mul_dvd_of_dvd_of_dvd (List.dvd_prod hp) (List.dvd_prod hr)
  exact (Nat.dvd_div_of_mul_dvd hprod).mul_left _

section Term

variable {ps : List ℕ} (hpos : ∀ p ∈ ps, 0 < p) (hps : ps.Pairwise Nat.Coprime)

include hpos hps

theorem cofactor_coprime {p : ℕ} (hp : p ∈ ps) : (cofactor ps p).Coprime p := by
  obtain ⟨pre, post, rfl⟩ := List.append_of_mem hp
  have hsplit := List.pairwise_append.1 hps
  have hpost := List.pairwise_cons.1 hsplit.2.1
  have hprod : (pre ++ p :: post).prod = p * (pre.prod * post.prod) := by
    rw [List.prod_append, List.prod_cons]
    ring
  rw [cofactor, hprod, Nat.mul_div_cancel_left _ (hpos p hp)]
  refine Nat.Coprime.mul_left ?_ ?_
  · exact Nat.coprime_list_prod_left_iff.2 fun q hq => hsplit.2.2 q hq p List.mem_cons_self
  · exact Nat.coprime_list_prod_left_iff.2 fun q hq => (hpost.1 q hq).symm

theorem term_modEq {p : ℕ} (hp : p ∈ ps) (x : ℕ) : term ps x p ≡ x [MOD p] := by
  have hinverse := inverse_mul (hpos p hp) (cofactor_coprime hpos hps hp)
  calc x % p * inverse (cofactor ps p) p * cofactor ps p
      = x % p * (inverse (cofactor ps p) p * cofactor ps p) := by rw [mul_assoc]
    _ ≡ x % p * 1 [MOD p] := hinverse.mul_left _
    _ ≡ x [MOD p] := by rw [mul_one]; exact Nat.mod_modEq x p

theorem sum_term_modEq (x : ℕ) : (ps.map (term ps x)).sum ≡ x [MOD ps.prod] := by
  refine (modEq_prod_iff hps).2 fun p hp => ?_
  have hterm := term_modEq hpos hps hp x
  have hdvd : ∀ r ∈ ps, r.Coprime p → term ps x r ≡ 0 [MOD p] := fun r hr hrp =>
    (Nat.modEq_zero_iff_dvd).2 (dvd_term hr hp hrp x)
  have hzero : ∀ l : List ℕ, (∀ r ∈ l, term ps x r ≡ 0 [MOD p]) →
      (l.map (term ps x)).sum ≡ 0 [MOD p] := by
    intro l hl
    refine (Nat.modEq_zero_iff_dvd).2 (List.dvd_sum fun v hv => ?_)
    obtain ⟨r, hr, rfl⟩ := List.mem_map.1 hv
    exact (Nat.modEq_zero_iff_dvd).1 (hl r hr)
  obtain ⟨pre, post, hsplit⟩ := List.append_of_mem hp
  have hpair := List.pairwise_append.1 (hsplit ▸ hps)
  have hpost := List.pairwise_cons.1 hpair.2.1
  have hpre := hzero pre fun r hr => hdvd r (by rw [hsplit]; simp [hr])
    (hpair.2.2 r hr p List.mem_cons_self)
  have hrest := hzero post fun r hr => hdvd r (by rw [hsplit]; simp [hr]) (hpost.1 r hr).symm
  conv_lhs => rw [hsplit]
  rw [List.map_append, List.sum_append, List.map_cons, List.sum_cons, ← hsplit]
  simpa using hpre.add (hterm.add hrest)

end Term

theorem eq_of_mod_eq {ps : List ℕ} (hps : ps.Pairwise Nat.Coprime) {x y : ℕ} (hx : x < ps.prod)
    (hy : y < ps.prod) (h : ∀ p ∈ ps, x % p = y % p) : x = y :=
  ((modEq_prod_iff hps).2 h).eq_of_lt_of_lt hx hy

theorem exists_residues {ps : List ℕ} (hpos : ∀ p ∈ ps, 0 < p) (hps : ps.Pairwise Nat.Coprime)
    (f : ℕ → ℕ) (hf : ∀ p ∈ ps, f p < p) : ∃ x < ps.prod, ∀ p ∈ ps, x % p = f p := by
  have hx := Nat.chineseRemainderOfList_lt_prod f id ps hps fun p hp => (hpos p hp).ne'
  rw [List.map_id] at hx
  refine ⟨_, hx, fun p hp => ?_⟩
  have hmod := (Nat.chineseRemainderOfList f id ps hps).2 p hp
  rw [Nat.ModEq, id_eq, Nat.mod_eq_of_lt (hf p hp)] at hmod
  exact hmod

end Residues
