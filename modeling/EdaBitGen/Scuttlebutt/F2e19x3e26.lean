import Mathlib

/-!
# The field for Fourier transforms

The prime `2 ^ 19 * 3 ^ 26 + 1` and the tables of its roots of unity of orders `2 ^ i` and `3 ^ i`.
-/

namespace EdaBitGen

/-- A field with roots of unity of the orders `N ^ p`, for `p` up to `phiExp`. -/
class FieldForFFT (N : ℕ) (F : Type) [Field F] where
  phiExp : ℕ
  roots : ℕ → F
  isPrimitiveRoot_roots : ∀ p ≤ phiExp, IsPrimitiveRoot (roots p) (N ^ p)

namespace F2e19x3e26

def modulus : ℕ := 1332669751402954753

theorem prime_modulus : modulus.Prime := by
  change Nat.Prime 1332669751402954753
  have hfac : 1332669751402954753 - 1 = 2 ^ 19 * 3 ^ 26 := by norm_num
  apply lucas_primality _ 7
  · norm_num
    reduce_mod_char
  · intro q hq hdvd
    rw [hfac] at hdvd
    rcases hq.dvd_mul.1 hdvd with h | h
    · obtain rfl := (Nat.prime_dvd_prime_iff_eq hq Nat.prime_two).1 (hq.dvd_of_dvd_pow h)
      norm_num
      reduce_mod_char
      decide
    · obtain rfl := (Nat.prime_dvd_prime_iff_eq hq Nat.prime_three).1 (hq.dvd_of_dvd_pow h)
      norm_num
      reduce_mod_char
      decide

/-- The roots of the orders `2 ^ i`. -/
def roots2 : List ℕ := [
  1,
  1332669751402954752,
  973258067192839568,
  1042021548001376395,
  402574676512991381,
  278717750013534980,
  74087475420063438,
  566374465489511427,
  1266925147139716861,
  855420670760076263,
  644012728790649397,
  1024672769443274150,
  969915203910377054,
  938399742097549903,
  677395270312196759,
  638309941020567122,
  941411658640200634,
  214614403681673597,
  1142590720645869203,
  1081812970925941425]

/-- The roots of the orders `3 ^ i`. -/
def roots3 : List ℕ := [
  1,
  460004726804964255,
  669043805643439512,
  296722197659361911,
  374719411438346623,
  903621615088971058,
  528204403879753449,
  404018507378766984,
  569267202400654075,
  951499245552476893,
  869386426445016020,
  231629203731078009,
  911561347291773360,
  985928605492343887,
  116593309072767134,
  200952336485094508,
  455485850035128309,
  567008847283293789,
  137993045254182336,
  158980184853827215,
  1203426293655283518,
  1214402346646813410,
  648772824772841070,
  1312084489284135569,
  59416712983923841,
  523602121810241645,
  920749240289894275]

end F2e19x3e26

abbrev F2e19x3e26 := ZMod F2e19x3e26.modulus

namespace F2e19x3e26

instance : Fact modulus.Prime := ⟨prime_modulus⟩

theorem isPrimitiveRoot_of_chain {r n : ℕ} (hr : r.Prime) {roots : List ℕ}
    (hzero : roots.getD 0 0 = 1) (hone : roots.getD 1 0 % modulus ≠ 1)
    (hchain : ∀ i < n, roots.getD (i + 1) 0 ^ r % modulus = roots.getD i 0) {i : ℕ} (hi : i ≤ n) :
    IsPrimitiveRoot (roots.getD i 0 : F2e19x3e26) (r ^ i) := by
  have hpow : ∀ k j, k + j ≤ n →
      (roots.getD (k + j) 0 : F2e19x3e26) ^ r ^ j = (roots.getD k 0 : F2e19x3e26) := by
    intro k j
    induction j with
    | zero => simp
    | succ j ih =>
      intro hle
      have hstep : (roots.getD (k + j + 1) 0 : F2e19x3e26) ^ r = (roots.getD (k + j) 0 : F2e19x3e26) := by
        rw [← hchain (k + j) (by omega), ZMod.natCast_mod, Nat.cast_pow]
      rw [pow_succ', pow_mul, ← Nat.add_assoc, hstep, ih (by omega)]
  have hend : (roots.getD i 0 : F2e19x3e26) ^ r ^ i = 1 := by
    have h := hpow 0 i (by omega)
    rw [Nat.zero_add, hzero, Nat.cast_one] at h
    exact h
  cases i with
  | zero =>
    rw [hzero, Nat.cast_one, pow_zero]
    exact IsPrimitiveRoot.one
  | succ i =>
    have : Fact r.Prime := ⟨hr⟩
    apply IsPrimitiveRoot.iff_orderOf.2
    apply orderOf_eq_prime_pow _ hend
    intro h
    have hfirst := hpow 1 i (by omega)
    rw [Nat.add_comm 1 i, h] at hfirst
    apply hone
    apply (ZMod.natCast_eq_natCast_iff' (roots.getD 1 0) 1 modulus).1
    rw [Nat.cast_one]
    exact hfirst.symm

instance : FieldForFFT 2 F2e19x3e26 where
  phiExp := 19
  roots ix := (roots2.getD ix 0 : ℕ)
  isPrimitiveRoot_roots _ h :=
    isPrimitiveRoot_of_chain Nat.prime_two rfl (by decide) (by decide) h

instance : FieldForFFT 3 F2e19x3e26 where
  phiExp := 26
  roots ix := (roots3.getD ix 0 : ℕ)
  isPrimitiveRoot_roots _ h :=
    isPrimitiveRoot_of_chain Nat.prime_three rfl (by decide) (by decide) h

end F2e19x3e26

end EdaBitGen
