import EdaBitGen.FancyGarbling.CrtArithmetic
import EdaBitGen.FancyGarbling.MixedRadixAddition

/-!
# Mixed-radix digits from residues

The table of two-prime gadgets turns residues into the digits whose radices are the primes. With a
prime to spare the last digit tells which of two numbers is smaller.
-/

namespace EdaBitGen.FancyGarbling

open Residues MixedRadix

/-! ## The gadget of two primes -/

section Gadget

variable {p q : ℕ}

/-- Both numbers have the residues `i` and `j`, up to a common difference; so their quotients by the
first prime agree modulo the second one. -/
theorem quotient_modEq (hco : p.Coprime q) {s x i j : ℕ} (hi : i < p)
    (hsp : s ≡ i [MOD p]) (hsq : s ≡ j [MOD q]) (hij : i + x % q = x % p + j) :
    s / p ≡ x / p [MOD q] := by
  have hs : p * (s / p) + i = s := by
    have hmod : s % p = i := by rw [hsp, Nat.mod_eq_of_lt hi]
    rw [← hmod]
    exact Nat.div_add_mod s p
  have hx := Nat.div_add_mod x p
  have hleft : p * (s / p) + (i + x % q) ≡ x + j [MOD q] := by
    calc p * (s / p) + (i + x % q) = s + x % q := by rw [← Nat.add_assoc, hs]
      _ ≡ j + x [MOD q] := hsq.add (Nat.mod_modEq x q)
      _ = x + j := Nat.add_comm ..
  have hright : p * (x / p) + (i + x % q) = x + j := by
    rw [hij, ← Nat.add_assoc, hx]
  rw [← hright] at hleft
  exact Nat.ModEq.cancel_left_of_coprime (by rwa [Nat.coprime_comm] at hco)
    (Nat.ModEq.add_right_cancel' _ hleft)

theorem exists_pair (hp : 0 < p) (hq : 0 < q) {z : ℕ} (hz : z < p + q - 1) :
    ∃ i j, (((List.range p).flatMap fun i => (List.range q).map fun j => (i, j)).find?
        fun (i, j) => (i + (p + q - 1) - j) % (p + q - 1) = z) = some (i, j) ∧
      i < p ∧ j < q ∧ (i + (p + q - 1) - j) % (p + q - 1) = z := by
  have hsome : (((List.range p).flatMap fun i => (List.range q).map fun j => (i, j)).find?
      fun (i, j) => (i + (p + q - 1) - j) % (p + q - 1) = z).isSome := by
    rw [List.find?_isSome]
    by_cases hzp : z < p
    · refine ⟨(z, 0), ?_, ?_⟩
      · simp [hzp, hq]
      · simp [Nat.mod_eq_of_lt hz]
    · refine ⟨(0, p + q - 1 - z), ?_, ?_⟩
      · simp only [List.mem_flatMap, List.mem_range, List.mem_map]
        exact ⟨0, hp, p + q - 1 - z, by omega, rfl⟩
      · have hdiff : p + q - 1 - (p + q - 1 - z) = z := by omega
        simp [hdiff, Nat.mod_eq_of_lt hz]
  obtain ⟨⟨i, j⟩, hij⟩ := Option.isSome_iff_exists.1 hsome
  have hmem := List.mem_of_find?_eq_some hij
  have hfound := List.find?_some hij
  simp only [List.mem_flatMap, List.mem_range, List.mem_map] at hmem
  obtain ⟨i', hi, j', hj, hpair⟩ := hmem
  obtain ⟨rfl, rfl⟩ := Prod.mk.inj hpair
  exact ⟨i', j', hij, hi, hj, by simpa using hfound⟩

theorem add_eq_of_sub_mod {i j a b : ℕ} (hi : i < p) (hj : j < q) (ha : a < p) (hb : b < q)
    (h : (i + (p + q - 1) - j) % (p + q - 1) = (p + q - 1 + a - b) % (p + q - 1)) :
    i + b = a + j := by
  have hmod : ∀ c d : ℕ, c < p → d < q →
      (c + (p + q - 1) - d) % (p + q - 1) = if d ≤ c then c - d else c + (p + q - 1) - d := by
    intro c d hc hd
    split
    · next hle =>
      rw [show c + (p + q - 1) - d = c - d + (p + q - 1) by omega, Nat.add_mod_right,
        Nat.mod_eq_of_lt (by omega)]
    · exact Nat.mod_eq_of_lt (by omega)
  rw [Nat.add_comm (p + q - 1) a, hmod i j hi hj, hmod a b ha hb] at h
  split at h <;> split at h <;> omega

/-- The table's entry for a difference; what a number's quotient by the first prime is modulo the
second one. -/
theorem projectionEntry_eq (hp : p.Prime) (hq : q.Prime) (hpq : p ≠ q) (hp' : p < 110)
    (hq' : q < 110) {z : ℕ} (hz : z < p + q - 1) :
    ∃ e, projectionEntry p q z = some e ∧ e < q ∧
      ∀ x, (p + q - 1 + x % p - x % q) % (p + q - 1) = z → e = x / p % q := by
  obtain ⟨i, j, hfind, hi, hj, hij⟩ := exists_pair hp.pos hq.pos hz
  have hco : p.Coprime q := (Nat.coprime_primes hp hq).2 hpq
  have hqInv := inv_eq hq.pos hp.one_lt (by omega) hco.symm
  have hpInv := inv_eq hp.pos hq.one_lt (by omega) hco
  have hu := inverse_lt q hp.pos
  have hv := inverse_lt p hq.pos
  have hfits : i * q * inverse q p + j * p * inverse p q < 2 ^ 32 := by
    have h1 : i * q * inverse q p ≤ 110 * 110 * 110 :=
      Nat.mul_le_mul (Nat.mul_le_mul (by omega) (by omega)) (by omega)
    have h2 : j * p * inverse p q ≤ 110 * 110 * 110 :=
      Nat.mul_le_mul (Nat.mul_le_mul (by omega) (by omega)) (by omega)
    omega
  refine ⟨(i * q * inverse q p + j * p * inverse p q) / p % q, ?_, Nat.mod_lt _ hq.pos, ?_⟩
  · rw [projectionEntry]
    dsimp only
    rw [hfind]
    simp [hij, hqInv, hpInv]
    omega
  · intro x hx
    have hsp : i * q * inverse q p + j * p * inverse p q ≡ i [MOD p] := by
      have hone := (inverse_mul hp.pos hco.symm).mul_left i
      have hzero : j * p * inverse p q ≡ 0 [MOD p] :=
        Nat.modEq_zero_iff_dvd.2 ⟨j * inverse p q, by ring⟩
      calc i * q * inverse q p + j * p * inverse p q
          ≡ i * (inverse q p * q) + 0 [MOD p] := by
            rw [show i * q * inverse q p = i * (inverse q p * q) by ring]
            exact hzero.add_left _
        _ ≡ i * 1 [MOD p] := hone
        _ = i := Nat.mul_one i
    have hsq : i * q * inverse q p + j * p * inverse p q ≡ j [MOD q] := by
      have hone := (inverse_mul hq.pos hco).mul_left j
      have hzero : i * q * inverse q p ≡ 0 [MOD q] :=
        Nat.modEq_zero_iff_dvd.2 ⟨i * inverse q p, by ring⟩
      calc i * q * inverse q p + j * p * inverse p q
          ≡ 0 + j * (inverse p q * p) [MOD q] := by
            rw [show j * p * inverse p q = j * (inverse p q * p) by ring]
            exact hzero.add_right _
        _ = j * (inverse p q * p) := Nat.zero_add _
        _ ≡ j * 1 [MOD q] := hone
        _ = j := Nat.mul_one j
    have hdiff := add_eq_of_sub_mod hi hj (Nat.mod_lt x hp.pos) (Nat.mod_lt x hq.pos)
      (hij.trans hx.symm)
    exact quotient_modEq hco hi hsp hsq hdiff

theorem pmrGadget_eq (hp : p.Prime) (hq : q.Prime) (hpq : p ≠ q) (hp' : p < 110) (hq' : q < 110)
    (x : ℕ) :
    (pmrGadget ⟨x % p, p⟩ ⟨x % q, q⟩ : Dummy DummyVal) = .ok ⟨x / p % q, q⟩ := by
  have hppos := hp.one_lt
  have hqpos := hq.one_lt
  have hx := Nat.mod_lt x hp.pos
  have hy := Nat.mod_lt x hq.pos
  have hentry := fun z (hz : z < p + q - 1) => projectionEntry_eq hp hq hpq hp' hq' hz
  choose! entry hsome hlt hvalue using hentry
  have htab : (List.range (p + q - 1)).mapM (projectionEntry p q) =
      some ((List.range (p + q - 1)).map entry) :=
    Traversal.mapM_some _ fun z hz => hsome z (List.mem_range.1 hz)
  have hz := Nat.mod_lt (p + q - 1 + x % p - x % q) (by omega : 0 < p + q - 1)
  rw [pmrGadget]
  dsimp only [modulus_mk]
  rw [word_eq (by omega), ok_bind, modChange_eq hx (by omega), ok_bind, modChange_eq hy (by omega),
    ok_bind, Nat.mod_eq_of_lt (by omega : x % p < p + q - 1),
    Nat.mod_eq_of_lt (by omega : x % q < p + q - 1), sub_eq (by omega) (by omega) (by omega), ok_bind,
    htab, unwrap_some, ok_bind, proj_range le_rfl hz fun e he => hlt e he]
  rw [hvalue _ hz x rfl]

end Gadget

/-- The primes as radices. -/
def radices (ps : List ℕ) (i : ℕ) : ℕ := ps.getD i 1

/-- The wires of the mixed-radix digits of a number. -/
def digitWires : List ℕ → ℕ → Bundle DummyVal
  | [], _ => []
  | p :: ps, x => ⟨x % p, p⟩ :: digitWires ps (x / p)

theorem digitWires_eq (ps : List ℕ) (x : ℕ) :
    digitWires ps x = numeral (radices ps) ps.length (digit (radices ps) x) := by
  induction ps generalizing x with
  | nil => rfl
  | cons p ps ih =>
    rw [digitWires, ih, numeral, numeral, List.length_cons, List.range_succ_eq_map, List.map_cons,
      List.map_map]
    congr 1
    · simp [digit, radices]
    · refine List.map_congr_left fun i _ => ?_
      rw [Function.comp_apply, Nat.succ_eq_add_one, digit_succ]
      rfl

theorem pmrRows_eq {ps : List ℕ} (hprime : ∀ p ∈ ps, p.Prime) (hlt : ∀ p ∈ ps, p < 110)
    (hnodup : ps.Nodup) (x : ℕ) :
    (pmrRows ps.length (residues ps x) : Dummy _) = .ok (digitWires ps x) := by
  induction ps generalizing x with
  | nil => rfl
  | cons p ps ih =>
    obtain ⟨hp, hprime⟩ := List.forall_mem_cons.1 hprime
    obtain ⟨hp', hlt⟩ := List.forall_mem_cons.1 hlt
    obtain ⟨hmem, hnodup⟩ := List.nodup_cons.1 hnodup
    have hrow : ((residues ps x).mapM fun y => (pmrGadget ⟨x % p, p⟩ y : Dummy DummyVal)) =
        .ok (residues ps (x / p)) := by
      refine mapM_ok ps fun q hq => pmrGadget_eq hp (hprime q hq) ?_ hp' (hlt q hq) x
      rintro rfl
      exact hmem hq
    rw [List.length_cons, residues, List.map_cons, pmrRows, ← residues, hrow, ok_bind,
      ih hprime hlt hnodup]
    rfl

theorem crtToPmr_residues {ps : List ℕ} (h : Supported ps) (x : ℕ) :
    (crtToPmr (residues ps x) : Dummy _) =
      .ok (numeral (radices ps) ps.length (digit (radices ps) x)) := by
  rw [crtToPmr, length_residues, pmrRows_eq (fun _ => h.prime) (fun _ => h.lt)
    (primes_nodup.sublist h), digitWires_eq]

/-! ## Comparison -/

section Comparison

variable {ps : List ℕ} {r : ℕ} (h : Supported (ps ++ [r]))

theorem weight_radices {ps : List ℕ} {n : ℕ} (hn : n ≤ ps.length) :
    weight (radices ps) n = (ps.take n).prod := by
  induction n with
  | zero => rfl
  | succ n ih =>
    have hradix : radices ps n = ps[n] := by
      rw [radices, List.getD_eq_getElem?_getD, List.getElem?_eq_getElem hn]
      rfl
    rw [weight_succ, ih (by omega), hradix, List.prod_take_succ _ _ hn]

theorem weight_last (ps : List ℕ) (r : ℕ) : weight (radices (ps ++ [r])) ps.length = ps.prod := by
  rw [weight_radices (by simp), List.take_left]

theorem radices_last (ps : List ℕ) (r : ℕ) : radices (ps ++ [r]) ps.length = r := by
  simp [radices]

theorem prod_concat (ps : List ℕ) (r : ℕ) : (ps ++ [r]).prod = ps.prod * r := by
  rw [List.prod_append, List.prod_singleton]

include h

theorem last_digit_sub {x y : ℕ} (hx : x < ps.prod) (hy : y < ps.prod) :
    digit (radices (ps ++ [r])) (x + (ps ++ [r]).prod - y) ps.length =
      if x < y then r - 1 else 0 := by
  have hr := (h.prime (List.mem_append_right ps (List.mem_singleton_self r))).one_lt
  have hmul : ps.prod ≤ ps.prod * r := Nat.le_mul_of_pos_right _ (by omega)
  rw [digit, weight_last, radices_last, prod_concat]
  split
  · next hlt =>
    have hborrow : x + ps.prod * r - y = ps.prod * (r - 1) + (ps.prod + x - y) := by
      have hsub : ps.prod * r = ps.prod * (r - 1) + ps.prod := by
        rw [← Nat.mul_succ, Nat.succ_eq_add_one, Nat.sub_add_cancel hr.le]
      omega
    rw [hborrow, Nat.mul_add_div (by omega), Nat.div_eq_of_lt (by omega), Nat.add_zero,
      Nat.mod_eq_of_lt (by omega)]
  · next hge =>
    have hsum : x + ps.prod * r - y = ps.prod * r + (x - y) := by omega
    rw [hsum, Nat.mul_add_div (by omega), Nat.div_eq_of_lt (by omega), Nat.add_zero, Nat.mod_self]

theorem pmrLt_eq (x : ℕ) {y : ℕ} (hy : y ≤ (ps ++ [r]).prod) :
    (pmrLt (residues (ps ++ [r]) x) (residues (ps ++ [r]) y) : Dummy DummyVal) =
      .ok ⟨if digit (radices (ps ++ [r])) (x + (ps ++ [r]).prod - y) ps.length ≠ 0 then 1 else 0,
        2⟩ := by
  have hr := (h.prime (List.mem_append_right ps (List.mem_singleton_self r))).one_lt
  generalize hdigit : digit (radices (ps ++ [r])) (x + (ps ++ [r]).prod - y) ps.length = d
  have hd : d < r := by
    rw [← hdigit, digit, radices_last]
    exact Nat.mod_lt _ (by omega)
  have hlast : (unwrap (numeral (radices (ps ++ [r])) (ps ++ [r]).length
      (digit (radices (ps ++ [r])) (x + (ps ++ [r]).prod - y))).getLast? : Dummy DummyVal) =
      .ok ⟨d, r⟩ := by
    rw [numeral, List.length_append, List.length_singleton, List.range_succ, List.map_append,
      List.map_singleton, List.getLast?_concat, radices_last, hdigit]
    rfl
  rw [pmrLt, crtSub_residues h x hy, ok_bind, crtToPmr_residues h, ok_bind, hlast, ok_bind,
    modulus_mk, if_neg (by omega)]
  refine proj_eq ?_ ?_ ?_
  · rw [List.length_cons, List.length_replicate]
    omega
  · intro e he
    obtain rfl | he := List.mem_cons.1 he
    · decide
    · rw [List.eq_of_mem_replicate he]
      decide
  · cases d with
    | zero => rfl
    | succ d =>
      rw [List.getElem?_cons_succ, List.getElem?_replicate, if_pos (by omega),
        if_pos (Nat.succ_ne_zero d)]

theorem le_prod {y : ℕ} (hy : y < ps.prod) : y ≤ (ps ++ [r]).prod := by
  rw [prod_concat]
  exact hy.le.trans (Nat.le_mul_of_pos_right _
    (h.pos (List.mem_append_right ps (List.mem_singleton_self r))))

theorem pmrLt_residues {x y : ℕ} (hx : x < ps.prod) (hy : y < ps.prod) :
    (pmrLt (residues (ps ++ [r]) x) (residues (ps ++ [r]) y) : Dummy DummyVal) =
      .ok ⟨if x < y then 1 else 0, 2⟩ := by
  have hr := (h.prime (List.mem_append_right ps (List.mem_singleton_self r))).one_lt
  rw [pmrLt_eq h x (le_prod h hy), last_digit_sub h hx hy]
  congr 2
  split <;> split <;> omega

theorem pmrGeq_eq (x y : ℕ) :
    ∃ p : Prop, ∃ _ : Decidable p,
      (pmrGeq (residues (ps ++ [r]) x) (residues (ps ++ [r]) y) : Dummy DummyVal) =
        .ok ⟨if p then 1 else 0, 2⟩ := by
  have hy := (Nat.mod_lt y h.prod_pos).le
  rw [← residues_mod _ y]
  refine ⟨¬ digit (radices (ps ++ [r])) (x + (ps ++ [r]).prod - y % (ps ++ [r]).prod) ps.length ≠ 0,
    inferInstance, ?_⟩
  rw [pmrGeq, pmrLt_eq h x hy, ok_bind, negate_truth]
  rw [← ite_not]

theorem pmrGeq_residues {x y : ℕ} (hx : x < ps.prod) (hy : y < ps.prod) :
    (pmrGeq (residues (ps ++ [r]) x) (residues (ps ++ [r]) y) : Dummy DummyVal) =
      .ok ⟨if y ≤ x then 1 else 0, 2⟩ := by
  rw [pmrGeq, pmrLt_residues h hx hy, ok_bind, negate_truth]
  congr 2
  split <;> split <;> omega

end Comparison

/-! ## Division -/

/-- The largest divisor for which a bit of the quotient is tried. -/
def guardBound (n b : ℕ) : ℕ := if n % b = 0 then n / b - 1 else n / b

theorem guardBound_lt {n b : ℕ} (hb : 0 < b) (hn : 0 < n) : guardBound n b < n := by
  have hle := Nat.div_le_self n b
  unfold guardBound
  split
  · omega
  · next hne =>
    have hb2 : b ≠ 1 := by
      rintro rfl
      exact hne (Nat.mod_one n)
    exact Nat.div_lt_self hn (by omega)

theorem le_guardBound_iff {n b y : ℕ} (hb : 0 < b) (hn : 0 < n) :
    y ≤ guardBound n b ↔ y * b < n := by
  have hdiv : n / b * b + n % b = n := Nat.div_add_mod' n b
  have hmod := Nat.mod_lt n hb
  unfold guardBound
  split
  · next hzero =>
    have hq : 0 < n / b := by
      by_contra hnot
      rw [Nat.eq_zero_of_not_pos hnot] at hdiv
      omega
    rw [Nat.le_sub_iff_add_le hq]
    constructor
    · intro hle
      have hmul := Nat.mul_le_mul_right b hle
      rw [Nat.add_mul] at hmul
      omega
    · intro hlt
      have hlt' : y * b < n / b * b := by omega
      exact Nat.lt_of_mul_lt_mul_right hlt'
  · next hne =>
    constructor
    · intro hle
      have hmul := Nat.mul_le_mul_right b hle
      omega
    · intro hlt
      exact (Nat.le_div_iff_mul_le hb).2 hlt.le

theorem quotient_step (v : ℕ) {b : ℕ} (hb : 0 < b) :
    (v / (2 * b) * (2 * b) + if v / (2 * b) * (2 * b) + b ≤ v then b else 0) = v / b * b := by
  have hhalf : v / (2 * b) = v / b / 2 := by rw [Nat.mul_comm 2 b, Nat.div_div_eq_div_mul]
  have hbits := Nat.div_add_mod (v / b) 2
  have hlt := Nat.mod_lt (v / b) two_pos
  have hiff : v / (2 * b) * (2 * b) + b ≤ v ↔ v / b / 2 * 2 + 1 ≤ v / b := by
    rw [Nat.le_div_iff_mul_le hb, hhalf]
    constructor <;> intro hle <;> linarith
  obtain hone | hzero : v / b % 2 = 1 ∨ v / b % 2 = 0 := by omega
  · rw [if_pos (hiff.2 (by omega)), hhalf]
    calc v / b / 2 * (2 * b) + b = (2 * (v / b / 2) + 1) * b := by ring
      _ = v / b * b := by rw [← hone, hbits]
  · rw [if_neg (fun hle => by have := hiff.1 hle; omega), hhalf]
    calc v / b / 2 * (2 * b) + 0 = (2 * (v / b / 2) + 0) * b := by ring
      _ = v / b * b := by rw [← hzero, hbits]

section Division

variable {ps : List ℕ} {r : ℕ} (h : Supported (ps ++ [r]))

theorem mapM_mul_truth {qs : List ℕ} (hqs : Supported qs) (p : Prop) [Decidable p] :
    ((residues qs 1).mapM fun w => (mul w ⟨if p then 1 else 0, 2⟩ : Dummy DummyVal)) =
      .ok (residues qs (if p then 1 else 0)) := by
  refine mapM_ok qs fun q hq => ?_
  have hone := Nat.mod_eq_of_lt (hqs.prime hq).one_lt
  have hpos := hqs.pos hq
  rw [hone]
  split
  · rw [mul_eq hpos (by decide)]
  · rw [mul_eq hpos (by decide)]

include h

theorem crtDivRound_eq {x y b : ℕ} (quotient : ℕ) (hx : x < ps.prod) (hy : y < ps.prod)
    (hb : 0 < b) :
    (crtDivRound (ps ++ [r]).prod ps.prod (residues (ps ++ [r]) 1) (residues (ps ++ [r]) y)
        (residues (ps ++ [r]) quotient, residues (ps ++ [r]) x) b : Dummy _) =
      .ok (residues (ps ++ [r]) (quotient + if y * b ≤ x then b else 0),
        residues (ps ++ [r]) (x - if y * b ≤ x then y * b else 0)) := by
  have hn : 0 < ps.prod := by omega
  have hguard := le_guardBound_iff (y := y) hb hn
  have hc2 := pmrGeq_residues h (guardBound_lt hb hn) hy
  -- where the guard fails the other comparison does not matter
  obtain ⟨p, hp, hc1, hiff⟩ : ∃ p : Prop, ∃ _ : Decidable p,
      (pmrGeq (residues (ps ++ [r]) x) (residues (ps ++ [r]) (b * y)) : Dummy DummyVal) =
        .ok ⟨if p then 1 else 0, 2⟩ ∧ (p ∧ y ≤ guardBound ps.prod b ↔ y * b ≤ x) := by
    by_cases hfits : y * b < ps.prod
    · refine ⟨y * b ≤ x, inferInstance, ?_, ?_⟩
      · rw [Nat.mul_comm b y]
        exact pmrGeq_residues h hx hfits
      · rw [hguard]
        exact and_iff_left hfits
    · obtain ⟨p, hp, hrun⟩ := pmrGeq_eq h x (b * y)
      refine ⟨p, hp, hrun, ?_⟩
      rw [hguard]
      constructor
      · rintro ⟨-, hlt⟩
        exact absurd hlt hfits
      · intro hle
        omega
  have hc : (⟨if p ∧ y ≤ guardBound ps.prod b then 1 else 0, 2⟩ : DummyVal) =
      ⟨if y * b ≤ x then 1 else 0, 2⟩ := by
    congr 1
    exact if_congr hiff rfl rfl
  have hsub : (if y * b ≤ x then 1 else 0) * (b * y) ≤ (ps ++ [r]).prod := by
    have hle := le_prod h hx
    split
    · next hyb =>
      rw [one_mul, Nat.mul_comm b y]
      omega
    · rw [zero_mul]
      exact Nat.zero_le _
  rw [crtDivRound, crtCmul_residues h, ok_bind, hc1, ok_bind, ← guardBound, crtConstantBundle_residues h, ok_bind,
    hc2, ok_bind, and_truth, hc, ok_bind, mapM_mul_truth h, ok_bind, crtCmul_residues h, ok_bind,
    crtAdd_residues h, ok_bind, crtMul_residues h, ok_bind, crtSub_residues h x hsub, ok_bind]
  congr 2
  · split <;> simp
  · have hproduct : (if y * b ≤ x then 1 else 0) * (b * y) = if y * b ≤ x then y * b else 0 := by
      split
      · rw [one_mul, Nat.mul_comm]
      · rw [zero_mul]
    have hle : (if y * b ≤ x then y * b else 0) ≤ x := by
      split
      · assumption
      · exact Nat.zero_le x
    rw [hproduct, Nat.add_comm x, Nat.add_sub_assoc hle, ← residues_mod, Nat.add_mod_left,
      residues_mod]

theorem crtDiv_rounds {x y : ℕ} (hx : x < ps.prod) (hy : y < ps.prod) (hpos : 0 < y) :
    ((List.range (Nat.size ps.prod)).map fun i => 2 ^ (Nat.size ps.prod - i - 1)).foldlM
        (crtDivRound (ps ++ [r]).prod ps.prod (residues (ps ++ [r]) 1) (residues (ps ++ [r]) y))
        (residues (ps ++ [r]) 0, residues (ps ++ [r]) x) =
      (.ok (residues (ps ++ [r]) (x / y), residues (ps ++ [r]) (x - y * (x / y))) : Dummy _) := by
  have hsize : x / y < 2 ^ Nat.size ps.prod :=
    (Nat.div_le_self x y).trans_lt (hx.trans (Nat.lt_size_self _))
  generalize Nat.size ps.prod = l at hsize ⊢
  let found := fun i : ℕ => x / y / 2 ^ (l - i) * 2 ^ (l - i)
  have hrun := foldlM_range
    (fun i => (residues (ps ++ [r]) (found i), residues (ps ++ [r]) (x - y * found i)))
    (f := fun s i => (crtDivRound (ps ++ [r]).prod ps.prod (residues (ps ++ [r]) 1)
      (residues (ps ++ [r]) y) s (2 ^ (l - i - 1)) : Dummy _)) (n := l) ?_
  · have hstart : found 0 = 0 := by
      simp only [found, Nat.sub_zero]
      rw [Nat.div_eq_of_lt hsize, zero_mul]
    have hend : found l = x / y := by
      simp only [found, Nat.sub_self]
      rw [pow_zero, Nat.div_one, mul_one]
    rw [hstart, hend, mul_zero, Nat.sub_zero] at hrun
    rw [List.foldlM_map]
    exact hrun
  · intro i hi
    have hb : 0 < 2 ^ (l - i - 1) := Nat.two_pow_pos _
    have hdouble : 2 ^ (l - i) = 2 * 2 ^ (l - i - 1) := by
      rw [← pow_succ']
      congr 1
      omega
    have hfound : found i ≤ x / y := Nat.div_mul_le_self _ _
    have hmul : y * found i ≤ x := by
      have hle := Nat.mul_le_mul_left y hfound
      exact hle.trans (Nat.mul_div_le x y)
    have hiff : y * 2 ^ (l - i - 1) ≤ x - y * found i ↔ found i + 2 ^ (l - i - 1) ≤ x / y := by
      rw [Nat.le_div_iff_mul_le hpos, Nat.add_mul, Nat.mul_comm (found i), Nat.mul_comm (2 ^ _) y]
      omega
    have hnext : (found i + if y * 2 ^ (l - i - 1) ≤ x - y * found i then 2 ^ (l - i - 1) else 0) =
        found (i + 1) := by
      have hstep := quotient_step (x / y) hb
      rw [← hdouble] at hstep
      rw [if_congr hiff rfl rfl]
      simp only [found]
      rw [hstep]
      rfl
    have hround := crtDivRound_eq h (found i) (by omega : x - y * found i < ps.prod) hy hb
    rw [hround, ← hnext, Nat.mul_add, ← Nat.sub_sub]
    congr 4
    split
    · rfl
    · rw [mul_zero]

theorem crtDiv_residues (hQ : (ps ++ [r]).prod < 2 ^ 128) {x y : ℕ} (hx : x < ps.prod)
    (hy : y < ps.prod) (hpos : 0 < y) :
    (crtDiv (residues (ps ++ [r]) x) (residues (ps ++ [r]) y) : Dummy _) =
      .ok (residues (ps ++ [r]) (x / y)) := by
  have hle : ps.prod ≤ (ps ++ [r]).prod := by
    rw [prod_concat]
    exact Nat.le_mul_of_pos_right _ (h.pos (List.mem_append_right ps (List.mem_singleton_self r)))
  have hproduct : product ps = some ps.prod :=
    product_eq (fun p hp => h.pos (List.mem_append_left _ hp)) (hle.trans_lt hQ)
  rw [crtDiv, moduli_residues, moduli_residues, if_neg (not_not.2 rfl),
    compositeModulus_residues h hQ, ok_bind, if_neg (by simp), List.dropLast_concat, hproduct,
    unwrap_some, ok_bind, crtConstantBundle_residues h, ok_bind, crtConstantBundle_residues h, ok_bind]
  dsimp only
  rw [crtDiv_rounds h hx hy hpos]
  rfl

omit h in
theorem foldlM_u128_none (xs : List ℕ) (acc : ℕ) (hxs : ∀ x ∈ xs, 0 < x) (hacc : acc < 2 ^ 128)
    (hbig : 2 ^ 128 ≤ acc * xs.prod) : xs.foldlM (fun acc x => u128 (acc * x)) acc = none := by
  induction xs generalizing acc with
  | nil =>
    rw [List.prod_nil, mul_one] at hbig
    omega
  | cons x xs ih =>
    obtain ⟨-, hxs⟩ := List.forall_mem_cons.1 hxs
    rw [List.prod_cons, ← mul_assoc] at hbig
    rw [List.foldlM_cons]
    by_cases hfits : acc * x < 2 ^ 128
    · rw [u128_eq hfits]
      exact ih _ hxs hfits hbig
    · rw [u128, if_neg hfits]
      rfl

theorem lt_of_crtDiv {x y : ℕ} {z : Bundle DummyVal}
    (hrun : (crtDiv (residues (ps ++ [r]) x) (residues (ps ++ [r]) y) : Dummy _) = .ok z) :
    (ps ++ [r]).prod < 2 ^ 128 := by
  by_contra hbig
  have hnone : product (ps ++ [r]) = none :=
    foldlM_u128_none _ 1 (fun _ hp => h.pos hp) (by decide) (by rw [one_mul]; omega)
  rw [crtDiv, moduli_residues, moduli_residues, if_neg (not_not.2 rfl), compositeModulus,
    moduli_residues, hnone, unwrap_none] at hrun
  cases hrun

end Division

/-- For the primes `ps ++ [r]`, of which the last is to spare: conversion finds the mixed-radix
digits, comparisons are right for the numbers below the product of the others, and so is division
exactly where the composite modulus is a word of 128 bits. -/
theorem pmr_gadgets {ps : List ℕ} {r : ℕ} (h : Supported (ps ++ [r])) {x y : ℕ} (hx : x < ps.prod)
    (hy : y < ps.prod) :
    (crtToPmr (residues (ps ++ [r]) x) : Dummy _) =
      .ok (numeral (radices (ps ++ [r])) (ps.length + 1) (digit (radices (ps ++ [r])) x)) ∧
    value (radices (ps ++ [r])) (digit (radices (ps ++ [r])) x) (ps.length + 1) = x ∧
    (pmrLt (residues (ps ++ [r]) x) (residues (ps ++ [r]) y) : Dummy DummyVal) =
      .ok ⟨if x < y then 1 else 0, 2⟩ ∧
    (pmrGeq (residues (ps ++ [r]) x) (residues (ps ++ [r]) y) : Dummy DummyVal) =
      .ok ⟨if x < y then 0 else 1, 2⟩ ∧
    (0 < y → ((crtDiv (residues (ps ++ [r]) x) (residues (ps ++ [r]) y) : Dummy _) =
      .ok (residues (ps ++ [r]) (x / y)) ↔ (ps ++ [r]).prod < 2 ^ 128)) := by
  have hpmr := crtToPmr_residues h x
  rw [List.length_append, List.length_singleton] at hpmr
  refine ⟨hpmr, ?_, pmrLt_residues h hx hy, ?_, fun hpos => ⟨lt_of_crtDiv h, fun hQ =>
    crtDiv_residues h hQ hx hy hpos⟩⟩
  · have hlt : x < (ps ++ [r]).prod := by
      rw [prod_concat]
      exact hx.trans_le (Nat.le_mul_of_pos_right _
        (h.pos (List.mem_append_right ps (List.mem_singleton_self r))))
    rw [value_digit, weight_succ, weight_last, radices_last, ← prod_concat, Nat.mod_eq_of_lt hlt]
  · rw [pmrGeq, pmrLt_residues h hx hy, ok_bind, negate_truth]

/-- 5 and 2 with the primes 2, 3 and 5. -/
theorem pmr_gadgets_five :
    (crtDiv (residues [2, 3, 5] 5) (residues [2, 3, 5] 2) : Dummy _) = .ok (residues [2, 3, 5] 2) :=
  ((@pmr_gadgets [2, 3] 5 (by decide : List.Sublist _ _) 5 2 (by decide) (by decide)).2.2.2.2
    (by decide)).2 (by decide)

/-- The product of all supported primes is no word of 128 bits. -/
theorem crtDiv_all_primes :
    (crtDiv (residues PRIMES 1) (residues PRIMES 1) : Dummy _) = .error .panic := by
  decide +kernel

end EdaBitGen.FancyGarbling
