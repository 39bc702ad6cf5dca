import EdaBitGen.FancyGarbling.Crt
import EdaBitGen.FancyGarbling.CrtResidues
import EdaBitGen.FancyGarbling.Dummy

/-!
# Arithmetic on residues

The gadgets compute with the residues of their arguments. What is read from the output is the number
itself when its reconstruction fits.
-/

namespace EdaBitGen.FancyGarbling

open Residues

instance : FancyCrt Dummy DummyVal where
  __ := (inferInstance : FancyArithmetic Dummy DummyVal)
  __ := (inferInstance : FancyBinary Dummy DummyVal)

/-- The bundle of a number's residues. -/
def residues (ps : List ℕ) (x : ℕ) : Bundle DummyVal := ps.map fun p => ⟨x % p, p⟩

section Bundles

variable {ps : List ℕ} (h : Supported ps)

@[simp] theorem moduli_residues (ps : List ℕ) (x : ℕ) : moduli (residues ps x) = ps := by
  rw [moduli, residues, List.map_map]
  exact List.map_id ps

@[simp] theorem length_residues (ps : List ℕ) (x : ℕ) : (residues ps x).length = ps.length :=
  List.length_map ..

theorem residues_congr {x y : ℕ} (hxy : ∀ p ∈ ps, x % p = y % p) : residues ps x = residues ps y :=
  List.map_congr_left fun p hp => by rw [hxy p hp]

theorem residues_mod (ps : List ℕ) (x : ℕ) : residues ps (x % ps.prod) = residues ps x :=
  residues_congr fun _ hp => Nat.mod_mod_of_dvd x (List.dvd_prod hp)

theorem unwrap_some {α : Type} (a : α) : (unwrap (some a) : Dummy α) = .ok a := rfl

theorem unwrap_none {α : Type} : (unwrap (none : Option α) : Dummy α) = .error .panic := rfl

theorem zip_residues (ps : List ℕ) (x y : ℕ) :
    (residues ps x).zip (residues ps y) = ps.map fun p => (⟨x % p, p⟩, ⟨y % p, p⟩) :=
  List.zip_map' ..

theorem outputs_eq (xs : Bundle DummyVal) :
    (outputs xs : Dummy _) = .ok (some (xs.map DummyVal.val)) := by
  rw [outputs, mapM_eq (r := fun x => some x.val) xs fun x _ => output_eq x, ok_bind]
  congr 1
  induction xs with
  | nil => rfl
  | cons x xs ih =>
    rw [List.map_cons, List.mapM_cons, ih]
    rfl

theorem zipWires_residues {op : DummyVal → DummyVal → Dummy DummyVal} {x y z : ℕ}
    (hop : ∀ p ∈ ps, op ⟨x % p, p⟩ ⟨y % p, p⟩ = .ok ⟨z % p, p⟩) :
    zipWires op (residues ps x) (residues ps y) = .ok (residues ps z) := by
  rw [zipWires, zip_residues]
  exact mapM_ok (f := fun p : DummyVal × DummyVal => op p.1 p.2) ps hop

include h

theorem crtAdd_residues (x y : ℕ) :
    (crtAdd (residues ps x) (residues ps y) : Dummy _) = .ok (residues ps (x + y)) := by
  rw [crtAdd, addBundles, if_neg (by simp)]
  refine zipWires_residues fun p hp => ?_
  have hx := Nat.mod_lt x (h.pos hp)
  have hy := Nat.mod_lt y (h.pos hp)
  have hp' := h.lt hp
  rw [add_eq (h.pos hp) (by omega), ← Nat.add_mod]

theorem crtSub_residues (x : ℕ) {y : ℕ} (hy : y ≤ ps.prod) :
    (crtSub (residues ps x) (residues ps y) : Dummy _) = .ok (residues ps (x + ps.prod - y)) := by
  rw [crtSub, subBundles, if_neg (by simp)]
  refine zipWires_residues fun p hp => ?_
  have hpos := h.pos hp
  have hx := Nat.mod_lt x hpos
  have hy' := Nat.mod_lt y hpos
  have hp' := h.lt hp
  rw [sub_eq hpos (by omega) (by omega)]
  congr 2
  -- both sides plus `y` are `x`
  have hleft : p + x % p - y % p + y ≡ x [MOD p] := by
    have hsum : p + x % p - y % p + y % p = p + x % p := by omega
    calc p + x % p - y % p + y ≡ p + x % p - y % p + y % p [MOD p] :=
          (Nat.mod_modEq y p).symm.add_left _
      _ = p + x % p := hsum
      _ ≡ 0 + x [MOD p] := (Nat.modEq_zero_iff_dvd.2 dvd_rfl).add (Nat.mod_modEq x p)
      _ = x := Nat.zero_add x
  have hright : x + ps.prod - y + y ≡ x [MOD p] := by
    rw [Nat.sub_add_cancel (by omega)]
    have hzero : ps.prod ≡ 0 [MOD p] := Nat.modEq_zero_iff_dvd.2 (List.dvd_prod hp)
    simpa using hzero.add_left x
  exact Nat.ModEq.add_right_cancel' y (hleft.trans hright.symm)

theorem crtMul_residues (x y : ℕ) :
    (crtMul (residues ps x) (residues ps y) : Dummy _) = .ok (residues ps (x * y)) := by
  refine zipWires_residues fun p hp => ?_
  have hx := Nat.mod_lt x (h.pos hp)
  have hy := Nat.mod_lt y (h.pos hp)
  have hp' := h.lt hp
  have hmul : x % p * (y % p) ≤ 110 * 110 := Nat.mul_le_mul (by omega) (by omega)
  rw [mul_eq (h.pos hp) (by omega), ← Nat.mul_mod]

theorem crtCmul_residues (x c : ℕ) :
    (crtCmul (residues ps x) c : Dummy _) = .ok (residues ps (c * x)) := by
  have hzip : (residues ps x).zip (ps.map (c % ·)) = ps.map fun p => (⟨x % p, p⟩, c % p) :=
    List.zip_map' ..
  rw [crtCmul, moduli_residues, crt_eq (fun _ => h.pos), unwrap_some, ok_bind, hzip]
  refine mapM_ok (f := fun p : DummyVal × ℕ => (cmul p.1 p.2 : Dummy DummyVal)) ps fun p hp => ?_
  have hx := Nat.mod_lt x (h.pos hp)
  have hc := Nat.mod_lt c (h.pos hp)
  have hp' := h.lt hp
  have hmul : x % p * (c % p) ≤ 110 * 110 := Nat.mul_le_mul (by omega) (by omega)
  have hcmul := cmul_eq (a := x % p) (c := c % p) (h.pos hp) (by omega)
  rw [hcmul, ← Nat.mul_mod, mul_comm]

/-! ## Outputs -/

theorem compositeModulus_residues (hQ : ps.prod < 2 ^ 128) (x : ℕ) :
    (compositeModulus (residues ps x) : Dummy ℕ) = .ok ps.prod := by
  rw [compositeModulus, moduli_residues, product_eq (fun _ => h.pos) hQ, unwrap_some]

theorem crtConstantBundle_residues (x : ℕ) :
    (crtConstantBundle x ps.prod : Dummy _) = .ok (residues ps x) := by
  have hzip : (ps.map (x % ·)).zip ps = ps.map fun p => (x % p, p) := by
    have hmap := List.zip_map' (f := (x % ·)) (g := fun p : ℕ => p) (l := ps)
    rwa [List.map_id'] at hmap
  rw [crtConstantBundle, h.factor_eq, unwrap_some, ok_bind, crt_eq (fun _ => h.pos), unwrap_some,
    ok_bind, constantBundle, hzip]
  exact mapM_ok (f := fun p : ℕ × ℕ => (constant p.1 p.2 : Dummy DummyVal)) ps
    fun p _ => constant_eq _ _

/-- The output of a number's residues is the number modulo the product, where it can be found. -/
theorem crtOutput_iff (hQ : ps.prod < 2 ^ 128) (x : ℕ) :
    (crtOutput (residues ps x) : Dummy _) = .ok (some (x % ps.prod)) ↔
      Reconstructs ps (x % ps.prod) := by
  have hvals : (residues ps (x % ps.prod)).map DummyVal.val = ps.map (x % ps.prod % ·) := by
    rw [residues, List.map_map]
    rfl
  rw [← residues_mod, crtOutput, compositeModulus_residues h hQ, ok_bind, outputBundle, outputs_eq,
    ok_bind, hvals, ← crtInv_iff h (Nat.mod_lt x h.prod_pos)]
  have hfactor : crtInvFactor (ps.map (x % ps.prod % ·)) ps.prod =
      crtInv (ps.map (x % ps.prod % ·)) ps := by
    rw [crtInvFactor, h.factor_eq]
    rfl
  dsimp only
  rw [hfactor]
  cases crtInv (ps.map (x % ps.prod % ·)) ps with
  | none => simp [unwrap_none, bind, Except.bind]
  | some v => simp [unwrap_some]

end Bundles

/-! ## Powers and remainders -/

section Powers

variable {ps : List ℕ} (h : Supported ps)

theorem ok_of_mapM {α β : Type} {f : α → Dummy β} {l : List α} {r : List β} (hl : l.mapM f = .ok r)
    {a : α} (ha : a ∈ l) : ∃ b, f a = .ok b := by
  induction l generalizing r with
  | nil => cases ha
  | cons c l ih =>
    rw [List.mapM_cons] at hl
    obtain ⟨b, hb, hl⟩ := exists_of_bind hl
    obtain ⟨bs, hbs, -⟩ := exists_of_bind hl
    obtain rfl | ha := List.mem_cons.1 ha
    · exact ⟨b, hb⟩
    · exact ih hbs ha

theorem powMod_eq {c p v : ℕ} (hp : 0 < p) (hv : v ^ c < 2 ^ 64) :
    (powMod c p v : Dummy ℕ) = .ok (v ^ c % p) := by
  rw [powMod, if_pos hv, remainder_eq _ hp]

theorem cexpWire_eq {c p x : ℕ} (hp : 0 < p) (hfits : (p - 1) ^ c < 2 ^ 64) :
    (cexpWire c ⟨x % p, p⟩ : Dummy DummyVal) = .ok ⟨x ^ c % p, p⟩ := by
  have htab : ((List.range p).mapM fun v => (powMod c p v : Dummy ℕ)) =
      .ok ((List.range p).map fun v => v ^ c % p) := by
    refine mapM_eq _ fun v hv => powMod_eq hp (lt_of_le_of_lt (Nat.pow_le_pow_left ?_ c) hfits)
    have hlt := List.mem_range.1 hv
    omega
  rw [cexpWire, modulus_mk, htab, ok_bind, Nat.pow_mod]
  exact proj_range le_rfl (Nat.mod_lt x hp) fun v _ => Nat.mod_lt _ hp

include h

theorem crtCexp_residues {c : ℕ} (hfits : ∀ p ∈ ps, (p - 1) ^ c < 2 ^ 64) (x : ℕ) :
    (crtCexp (residues ps x) c : Dummy _) = .ok (residues ps (x ^ c)) :=
  mapM_ok ps fun p hp => cexpWire_eq (h.pos hp) (hfits p hp)

theorem fits_of_crtCexp {c x : ℕ} {z : Bundle DummyVal}
    (hrun : (crtCexp (residues ps x) c : Dummy _) = .ok z) {p : ℕ} (hp : p ∈ ps) :
    (p - 1) ^ c < 2 ^ 64 := by
  obtain ⟨w, hw⟩ := ok_of_mapM hrun (List.mem_map_of_mem hp)
  rw [cexpWire] at hw
  obtain ⟨tab, htab, -⟩ := exists_of_bind hw
  have hpos := h.pos hp
  obtain ⟨v, hv⟩ := ok_of_mapM htab (List.mem_range.2 (by rw [modulus_mk]; omega : p - 1 < _))
  rw [powMod] at hv
  split at hv
  · assumption
  · cases hv

theorem crtRem_residues {p : ℕ} (hp : p ∈ ps) (x : ℕ) :
    (crtRem (residues ps x) p : Dummy _) = .ok (residues ps (x % p)) := by
  rw [crtRem, moduli_residues]
  cases hfind : ps.findIdx? (p = ·) with
  | none => simpa using List.findIdx?_eq_none_iff.1 hfind p hp
  | some i =>
    obtain ⟨hi, hpi, -⟩ := List.findIdx?_eq_some_iff_getElem.1 hfind
    have hpi' : p = ps[i] := by simpa using hpi
    have hindex : (index (residues ps x) i : Dummy DummyVal) = .ok ⟨x % p, p⟩ := by
      refine index_eq ?_
      rw [residues, List.getElem?_map, List.getElem?_eq_getElem hi, ← hpi']
      rfl
    dsimp only
    rw [hindex, ok_bind]
    exact mapM_eq ps fun q hq => modChange_eq (Nat.mod_lt x (h.pos hp)) (h.pos hq)

end Powers

/-! ## Equality -/

section Equality

variable {ps : List ℕ} (h : Supported ps)

include h

theorem Supported.length_le : ps.length ≤ 29 := List.Sublist.length_le h

theorem eqWires_residues {p k : ℕ} (hp : p ∈ ps) (hk : 0 < k) (hword : k + 1 < 2 ^ 16) (x y : ℕ) :
    (eqWires k ⟨x % p, p⟩ ⟨y % p, p⟩ : Dummy DummyVal) =
      .ok ⟨if x % p = y % p then 1 else 0, k + 1⟩ := by
  have hpos := h.pos hp
  have hx := Nat.mod_lt x hpos
  have hy := Nat.mod_lt y hpos
  have hp' := h.lt hp
  have htable : ∀ e ∈ 1 :: List.replicate (p - 1) 0, e < k + 1 := by
    intro e he
    obtain rfl | he := List.mem_cons.1 he
    · omega
    · rw [List.eq_of_mem_replicate he]
      omega
  have hlength : p ≤ (1 :: List.replicate (p - 1) 0).length := by
    rw [List.length_cons, List.length_replicate]
    omega
  have hentry : (1 :: List.replicate (p - 1) 0)[(p + x % p - y % p) % p]? =
      some (if x % p = y % p then 1 else 0) := by
    have hdiff : (p + x % p - y % p) % p = 0 ↔ x % p = y % p := by
      obtain hle | hlt := Nat.lt_or_ge (x % p) (y % p)
      · rw [Nat.mod_eq_of_lt (by omega)]
        omega
      · rw [show p + x % p - y % p = p + (x % p - y % p) by omega, Nat.add_mod_left,
          Nat.mod_eq_of_lt (by omega)]
        omega
    have hlt := Nat.mod_lt (p + x % p - y % p) hpos
    split
    · next heq => rw [hdiff.2 heq, List.getElem?_cons_zero]
    · next hne =>
      have hne' := fun h0 => hne (hdiff.1 h0)
      obtain ⟨j, hj⟩ := Nat.exists_eq_succ_of_ne_zero hne'
      rw [hj, List.getElem?_cons_succ, List.getElem?_replicate, if_pos (by omega)]
  rw [eqWires, sub_eq hpos (by omega) (by omega), ok_bind, modulus_mk, if_neg hpos.ne',
    word_eq hword, ok_bind]
  exact proj_eq hlength htable hentry

omit h in
theorem sum_indicators (ps : List ℕ) (x y : ℕ) :
    ((ps.map fun p => if x % p = y % p then 1 else 0).sum = ps.length ↔
      ∀ p ∈ ps, x % p = y % p) ∧
    (ps.map fun p => if x % p = y % p then 1 else 0).sum ≤ ps.length := by
  induction ps with
  | nil => simp
  | cons p ps ih =>
    rw [List.map_cons, List.sum_cons, List.length_cons, List.forall_mem_cons, ← ih.1]
    have hle := ih.2
    split
    · next heq =>
      simp only [heq, true_and]
      omega
    · next hne =>
      simp only [hne, false_and, iff_false]
      omega

theorem eqBundles_residues (htwo : 2 ≤ ps.length) {x y : ℕ} (hx : x < ps.prod) (hy : y < ps.prod) :
    (eqBundles (residues ps x) (residues ps y) : Dummy DummyVal) =
      .ok ⟨if x = y then 1 else 0, 2⟩ := by
  have hlength := h.length_le
  obtain ⟨hsum, hle⟩ := sum_indicators ps x y
  have hwires : (zipWires (eqWires ps.length) (residues ps x) (residues ps y) : Dummy _) =
      .ok ((ps.map fun p => if x % p = y % p then 1 else 0).map fun v => ⟨v, ps.length + 1⟩) := by
    rw [zipWires, zip_residues, List.map_map]
    exact mapM_ok (f := fun p : DummyVal × DummyVal => (eqWires ps.length p.1 p.2 : Dummy _)) ps
      fun p hp => eqWires_residues h hp (by omega) (by omega) x y
  have hadd := @addMany_eq (ps.length + 1) (ps.map fun p => if x % p = y % p then 1 else 0)
    (by rwa [List.length_map]) ?_ (by omega)
  · rw [eqBundles, moduli_residues, moduli_residues, if_neg (not_not.2 rfl), length_residues,
      Nat.mod_eq_of_lt (by omega), hwires, ok_bind, hadd, ok_bind, Nat.mod_eq_of_lt (by omega)]
    have hiff : (ps.map fun p => if x % p = y % p then 1 else 0).sum = ps.length ↔ x = y := by
      rw [hsum]
      exact ⟨eq_of_mod_eq h.coprime hx hy, fun heq p _ => by rw [heq]⟩
    refine proj_eq ?_ ?_ ?_
    · simp
    · intro e he
      obtain he | he := List.mem_append.1 he
      · rw [List.eq_of_mem_replicate he]
        decide
      · rw [List.mem_singleton.1 he]
        decide
    · rw [List.length_map, List.length_map]
      split
      · next heq =>
        rw [hiff.2 heq]
        simp
      · next hne =>
        have hlt := lt_of_le_of_ne hle fun heq => hne (hiff.1 heq)
        rw [List.getElem?_append_left (by simpa using hlt), List.getElem?_replicate, if_pos hlt]
  · intro v hv
    obtain ⟨p, -, rfl⟩ := List.mem_map.1 hv
    split <;> omega

omit h in
theorem two_le_of_eqBundles {x y : ℕ} {z : DummyVal}
    (hrun : (eqBundles (residues ps x) (residues ps y) : Dummy DummyVal) = .ok z) :
    2 ≤ ps.length := by
  rw [eqBundles, moduli_residues, moduli_residues, if_neg (not_not.2 rfl)] at hrun
  obtain ⟨zs, hzs, hrun⟩ := exists_of_bind hrun
  obtain ⟨w, hw, -⟩ := exists_of_bind hrun
  have htwo := addMany_ok hw
  rw [length_of_mapM hzs, zip_residues, List.length_map] at htwo
  exact htwo

end Equality

/-- The number that is read from the output of a run. -/
def outputOf (run : Dummy (Bundle DummyVal)) : Dummy (Option ℕ) := do
  let z ← run
  crtOutput z

/-- For a modulus that is a product of supported primes below `2 ^ 128`: reconstruction, and with it
the output of each gadget, finds the number exactly where its sums fit; powers need tables of words,
and equality needs two wires. -/
theorem crt_gadgets_iff {ps : List ℕ} (h : Supported ps) (hQ : ps.prod < 2 ^ 128) {x y : ℕ}
    (hx : x < ps.prod) (hy : y < ps.prod) (c : ℕ) :
    ((∃ rs, crt x ps = some rs ∧ crtInv rs ps = some x) ↔ Reconstructs ps x) ∧
    (∀ f : ℕ → ℕ, (∀ p ∈ ps, f p < p) → ∃ v < ps.prod, crt v ps = some (ps.map f)) ∧
    (outputOf (crtAdd (residues ps x) (residues ps y)) = .ok (some ((x + y) % ps.prod)) ↔
      Reconstructs ps ((x + y) % ps.prod)) ∧
    (outputOf (crtSub (residues ps x) (residues ps y)) = .ok (some ((x + ps.prod - y) % ps.prod)) ↔
      Reconstructs ps ((x + ps.prod - y) % ps.prod)) ∧
    (outputOf (crtMul (residues ps x) (residues ps y)) = .ok (some (x * y % ps.prod)) ↔
      Reconstructs ps (x * y % ps.prod)) ∧
    (outputOf (crtCmul (residues ps x) c) = .ok (some (c * x % ps.prod)) ↔
      Reconstructs ps (c * x % ps.prod)) ∧
    (outputOf (crtCexp (residues ps x) c) = .ok (some (x ^ c % ps.prod)) ↔
      (∀ p ∈ ps, (p - 1) ^ c < 2 ^ 64) ∧ Reconstructs ps (x ^ c % ps.prod)) ∧
    (∀ p ∈ ps, (crtRem (residues ps x) p : Dummy _) = .ok (residues ps (x % p)) ∧
      (outputOf (crtRem (residues ps x) p) = .ok (some (x % p % ps.prod)) ↔
        Reconstructs ps (x % p % ps.prod))) ∧
    ((eqBundles (residues ps x) (residues ps y) : Dummy DummyVal) =
      .ok ⟨if x = y then 1 else 0, 2⟩ ↔ 2 ≤ ps.length) := by
  have hout : ∀ {run : Dummy (Bundle DummyVal)} {v : ℕ}, run = .ok (residues ps v) →
      (outputOf run = .ok (some (v % ps.prod)) ↔ Reconstructs ps (v % ps.prod)) := by
    rintro run v rfl
    exact crtOutput_iff h hQ v
  refine ⟨?_, fun f hf => ?_, hout (crtAdd_residues h x y), hout (crtSub_residues h x hy.le),
    hout (crtMul_residues h x y), hout (crtCmul_residues h x c), ⟨fun hrun => ?_, fun hfits => ?_⟩,
    fun p hp => ⟨crtRem_residues h hp x, hout (crtRem_residues h hp x)⟩,
    two_le_of_eqBundles, fun htwo => eqBundles_residues h htwo hx hy⟩
  · rw [← crtInv_iff h hx]
    constructor
    · rintro ⟨rs, hrs, hinv⟩
      rw [crt_eq (fun _ => h.pos)] at hrs
      cases hrs
      exact hinv
    · intro hinv
      exact ⟨_, crt_eq (fun _ => h.pos) x, hinv⟩
  · obtain ⟨v, hv, hres⟩ := exists_residues (fun _ => h.pos) h.coprime f hf
    refine ⟨v, hv, ?_⟩
    rw [crt_eq (fun _ => h.pos), List.map_congr_left hres]
  · obtain ⟨z, hz, -⟩ := exists_of_bind hrun
    have hfits := fun p hp => fits_of_crtCexp h hz (p := p) hp
    exact ⟨hfits, (hout (crtCexp_residues h hfits x)).1 hrun⟩
  · exact (hout (crtCexp_residues h hfits.1 x)).2 hfits.2

/-- 5 and 4 modulo 6. -/
theorem crt_gadgets_iff_six :
    (eqBundles [⟨1, 2⟩, ⟨2, 3⟩] [⟨0, 2⟩, ⟨1, 3⟩] : Dummy DummyVal) = .ok ⟨0, 2⟩ := by
  have hall := @crt_gadgets_iff [2, 3] (by decide : List.Sublist _ _) (by decide) 5 4
    (by decide) (by decide) 0
  exact hall.2.2.2.2.2.2.2.2.2 (by decide)

/-- Two bundles of one wire are not compared, and a table for the tenth power has entries past 64
bits. -/
theorem crt_gadgets_one_wire :
    (eqBundles (residues [2] 1) (residues [2] 1) : Dummy DummyVal) =
      .error (.fancy (.invalidArgNum 1 2)) ∧
    (crtCexp (residues [109] 2) 10 : Dummy _) = .error .panic := by
  decide +kernel

end EdaBitGen.FancyGarbling
