import EdaBitGen.Data.Returns
import EdaBitGen.FancyGarbling.Fancy

/-!
# Wire labels

Labels of modulus `q` as lists of digits, with their arithmetic. Sums of digits are words of 16 bits;
products are taken in 32 bits, which they never leave.
-/

namespace EdaBitGen.FancyGarbling

/-- A `mod-q` wire label. -/
structure WireModQ where
  q : ℕ
  ds : List ℕ
  deriving DecidableEq

namespace WireModQ

/-- One round of `plus_eq`. -/
def plusDigit (q x y : ℕ) : Option ℕ :=
  if x + y < 2 ^ 16 then some (if x + y < q then x + y else x + y - q) else none

def plus (x y : WireModQ) : Option WireModQ :=
  if x.ds.length ≠ y.ds.length then none
  else do
    let ds ← (x.ds.zip y.ds).mapM fun p => plusDigit x.q p.1 p.2
    return ⟨x.q, ds⟩

/-- One round of `cmul_eq`. -/
def cmulDigit (q c d : ℕ) : Option ℕ := if q = 0 then none else some (d * c % q)

def cmul (x : WireModQ) (c : ℕ) : Option WireModQ := do
  let ds ← x.ds.mapM (cmulDigit x.q c)
  return ⟨x.q, ds⟩

/-- One round of `negate_eq`. -/
def negateDigit (q d : ℕ) : Option ℕ :=
  if 0 < d then if d ≤ q then some (q - d) else none else some 0

def negate (x : WireModQ) : Option WireModQ := do
  let ds ← x.ds.mapM (negateDigit x.q)
  return ⟨x.q, ds⟩

def minus (x y : WireModQ) : Option WireModQ := do
  let z ← y.negate
  x.plus z

/-- A label of modulus `q` with `n` reduced digits. -/
structure Valid (q n : ℕ) (x : WireModQ) : Prop where
  modulus : x.q = q
  length : x.ds.length = n
  digits : ∀ d ∈ x.ds, d < q

/-! ## Digit-wise arithmetic -/

theorem plusDigit_eq {q x y : ℕ} (hx : x < q) (hy : y < q) (h : x + y < 2 ^ 16) :
    plusDigit q x y = some ((x + y) % q) := by
  rw [plusDigit, if_pos h]
  split
  · next hlt => rw [Nat.mod_eq_of_lt hlt]
  · next hge => rw [Nat.mod_eq_sub_mod (by omega), Nat.mod_eq_of_lt (by omega)]

theorem negateDigit_eq {q d : ℕ} (hd : d < q) : negateDigit q d = some ((q - d) % q) := by
  rw [negateDigit]
  split
  · rw [if_pos hd.le, Nat.mod_eq_of_lt (by omega)]
  · next h => rw [show d = 0 by omega, Nat.sub_zero, Nat.mod_self]

variable {q n : ℕ} {x y : WireModQ}

/-- The digit-wise combination of two labels. -/
def digitwise (f : ℕ → ℕ → ℕ) (x y : WireModQ) : WireModQ :=
  ⟨x.q, (x.ds.zip y.ds).map fun p => f p.1 p.2⟩

theorem plus_eq (hx : x.Valid q n) (hy : y.Valid q n)
    (h : ∀ p ∈ x.ds.zip y.ds, p.1 + p.2 < 2 ^ 16) :
    x.plus y = some (digitwise (fun a b => (a + b) % q) x y) := by
  rw [plus, if_neg (by rw [hx.length, hy.length]; exact not_not.2 rfl), hx.modulus,
    Traversal.mapM_some (r := fun p => (p.1 + p.2) % q) _ fun p hp => plusDigit_eq
      (hx.digits _ (List.of_mem_zip hp).1) (hy.digits _ (List.of_mem_zip hp).2) (h p hp)]
  rw [digitwise, hx.modulus]
  rfl

theorem forall_of_mapM {α : Type} {f : α → Option ℕ} {l : List α} {ds : List ℕ}
    (h : l.mapM f = some ds) : ∀ a ∈ l, (f a).isSome := by
  induction l generalizing ds with
  | nil => simp
  | cons a l ih =>
    rw [List.mapM_cons] at h
    obtain ⟨d, hd, h⟩ := Option.bind_eq_some_iff.1 h
    obtain ⟨ds', hds', -⟩ := Option.bind_eq_some_iff.1 h
    intro b hb
    obtain rfl | hb := List.mem_cons.1 hb
    · rw [hd]
      rfl
    · exact ih hds' b hb

theorem words_of_plus {z : WireModQ} (h : x.plus y = some z) :
    ∀ p ∈ x.ds.zip y.ds, p.1 + p.2 < 2 ^ 16 := by
  rw [plus] at h
  split at h
  · cases h
  · obtain ⟨ds, hds, -⟩ := Option.bind_eq_some_iff.1 h
    intro p hp
    have hsome := forall_of_mapM hds p hp
    rw [plusDigit] at hsome
    split at hsome
    · next hlt => exact hlt
    · cases hsome

theorem cmul_eq (hq : 0 < q) (hx : x.Valid q n) (c : ℕ) :
    x.cmul c = some ⟨q, x.ds.map fun d => d * c % q⟩ := by
  rw [cmul, hx.modulus, Traversal.mapM_some (f := cmulDigit q c) (r := fun d => d * c % q) _ fun d _ => if_neg hq.ne']
  rfl

theorem negate_eq (hx : x.Valid q n) : x.negate = some ⟨q, x.ds.map fun d => (q - d) % q⟩ := by
  rw [negate, hx.modulus,
    Traversal.mapM_some (r := fun d => (q - d) % q) _ fun d hd => negateDigit_eq (hx.digits d hd)]
  rfl

theorem Valid.map (hx : x.Valid q n) (hq : 0 < q) (f : ℕ → ℕ) :
    Valid q n ⟨q, x.ds.map fun d => f d % q⟩ where
  modulus := rfl
  length := by simpa using hx.length
  digits := by
    intro d hd
    obtain ⟨e, -, rfl⟩ := List.mem_map.1 hd
    exact Nat.mod_lt _ hq

theorem Valid.digitwise (hx : x.Valid q n) (hy : y.Valid q n) (hq : 0 < q) (f : ℕ → ℕ → ℕ) :
    Valid q n (digitwise (fun a b => f a b % q) x y) where
  modulus := hx.modulus
  length := by simp [WireModQ.digitwise, hx.length, hy.length]
  digits := by
    intro d hd
    obtain ⟨e, -, rfl⟩ := List.mem_map.1 hd
    exact Nat.mod_lt _ hq

theorem Valid.words (hx : x.Valid q n) (hy : y.Valid q n) (hword : 2 * q ≤ 2 ^ 16) :
    ∀ p ∈ x.ds.zip y.ds, p.1 + p.2 < 2 ^ 16 := by
  intro p hp
  have h1 := hx.digits _ (List.of_mem_zip hp).1
  have h2 := hy.digits _ (List.of_mem_zip hp).2
  omega

/-! ## The values that labels carry -/

/-- The label of the value `a` on the wire whose labels of `0` and of the difference are `zero` and
`delta`. -/
def encode (zero delta : WireModQ) (a : ℕ) : Option WireModQ := do
  let scaled ← delta.cmul a
  zero.plus scaled

variable {zero zero' delta : WireModQ}

theorem encode_eq (hz : zero.Valid q n) (hd : delta.Valid q n) (hq : 0 < q)
    (hword : 2 * q ≤ 2 ^ 16) (a : ℕ) :
    encode zero delta a = some (digitwise (fun z d => (z + d * a % q) % q) zero delta) := by
  have hscaled := hd.map hq fun d => d * a
  have hplus := plus_eq hz hscaled (hz.words hscaled hword)
  rw [encode, cmul_eq hq hd]
  change zero.plus _ = _
  rw [hplus, digitwise, digitwise, List.zip_map_right, List.map_map]
  rfl

theorem digitwise_inj {f g : ℕ → ℕ → ℕ} {x' y' : WireModQ} (hq : x.q = x'.q)
    (hx : x.ds.length = x'.ds.length) (hy : y.ds.length = y'.ds.length)
    (h : ∀ (i : ℕ) (a b a' b' : ℕ), x.ds[i]? = some a → y.ds[i]? = some b → x'.ds[i]? = some a' →
      y'.ds[i]? = some b' → f a b = g a' b') : digitwise f x y = digitwise g x' y' := by
  rw [digitwise, digitwise, hq]
  congr 1
  apply List.ext_getElem (by simp [hx, hy])
  intro i h₁ h₂
  simp only [List.length_map, List.length_zip, Nat.lt_min] at h₁ h₂
  simp only [List.getElem_map, List.getElem_zip]
  exact h i _ _ _ _ (List.getElem?_eq_getElem h₁.1) (List.getElem?_eq_getElem h₁.2)
    (List.getElem?_eq_getElem h₂.1) (List.getElem?_eq_getElem h₂.2)

theorem getElem?_digitwise {f : ℕ → ℕ → ℕ} {i c : ℕ} (h : (digitwise f x y).ds[i]? = some c) :
    ∃ a b, x.ds[i]? = some a ∧ y.ds[i]? = some b ∧ c = f a b := by
  rw [digitwise, List.getElem?_map, Option.map_eq_some_iff] at h
  obtain ⟨⟨a, b⟩, hab, rfl⟩ := h
  obtain ⟨ha, hb⟩ := List.getElem?_zip_eq_some.1 hab
  exact ⟨a, b, ha, hb, rfl⟩

theorem encode_plus (hz : zero.Valid q n) (hz' : zero'.Valid q n) (hd : delta.Valid q n)
    (hq : 0 < q) (hword : 2 * q ≤ 2 ^ 16) {a b : ℕ} (hx : encode zero delta a = some x)
    (hy : encode zero' delta b = some y) :
    ∃ z l, zero.plus zero' = some z ∧ x.plus y = some l ∧ encode z delta ((a + b) % q) = some l := by
  rw [encode_eq hz hd hq hword] at hx
  rw [encode_eq hz' hd hq hword] at hy
  cases hx
  cases hy
  have hsum := hz.digitwise hz' hq fun a b => a + b
  have hx := hz.digitwise hd hq fun z d => z + d * a % q
  have hy := hz'.digitwise hd hq fun z d => z + d * b % q
  refine ⟨_, _, plus_eq hz hz' (hz.words hz' hword), plus_eq hx hy (hx.words hy hword), ?_⟩
  rw [encode_eq hsum hd hq hword]
  refine congrArg some (digitwise_inj (by rw [hsum.modulus, hx.modulus])
    (by rw [hsum.length, hx.length]) (by rw [hd.length, hy.length]) ?_)
  intro i u d v w hu hdi hv hw
  obtain ⟨z, z', hzi, hzi', rfl⟩ := getElem?_digitwise hu
  obtain ⟨z₁, d₁, hz₁, hd₁, rfl⟩ := getElem?_digitwise hv
  obtain ⟨z₂, d₂, hz₂, hd₂, rfl⟩ := getElem?_digitwise hw
  obtain rfl := Option.some.inj (hzi.symm.trans hz₁)
  obtain rfl := Option.some.inj (hzi'.symm.trans hz₂)
  obtain rfl := Option.some.inj (hdi.symm.trans hd₁)
  obtain rfl := Option.some.inj (hdi.symm.trans hd₂)
  rw [← ZMod.natCast_eq_natCast_iff']
  simp only [Nat.cast_add, Nat.cast_mul, ZMod.natCast_mod]
  ring

theorem encode_map (hz : zero.Valid q n) (hd : delta.Valid q n) (hq : 0 < q)
    (hword : 2 * q ≤ 2 ^ 16) {a b : ℕ} (hx : encode zero delta a = some x) (f : ℕ → ℕ)
    (h : ∀ z < q, ∀ d, f ((z + d * a % q) % q) % q = (f z % q + d * b % q) % q) :
    x.Valid q n ∧
      encode ⟨q, zero.ds.map fun d => f d % q⟩ delta b = some ⟨q, x.ds.map fun d => f d % q⟩ := by
  rw [encode_eq hz hd hq hword] at hx
  cases hx
  refine ⟨hz.digitwise hd hq _, ?_⟩
  rw [encode_eq (hz.map hq f) hd hq hword, digitwise, digitwise, List.zip_map_left, List.map_map,
    List.map_map]
  refine congrArg (fun ds => some (WireModQ.mk q ds)) (List.map_congr_left fun p hp => ?_)
  exact (h p.1 (hz.digits _ (List.of_mem_zip hp).1) p.2).symm

theorem encode_cmul (hz : zero.Valid q n) (hd : delta.Valid q n) (hq : 0 < q)
    (hword : 2 * q ≤ 2 ^ 16) {a : ℕ} (hx : encode zero delta a = some x) (c : ℕ) :
    ∃ z l, zero.cmul c = some z ∧ x.cmul c = some l ∧ encode z delta (a * c % q) = some l := by
  obtain ⟨hxv, hl⟩ := encode_map (b := a * c % q) hz hd hq hword hx (fun d => d * c) fun z _ d => by
    rw [← ZMod.natCast_eq_natCast_iff']
    simp only [Nat.cast_add, Nat.cast_mul, ZMod.natCast_mod]
    ring
  exact ⟨_, _, cmul_eq hq hz c, cmul_eq hq hxv c, hl⟩

theorem encode_negate (hz : zero.Valid q n) (hd : delta.Valid q n) (hq : 0 < q)
    (hword : 2 * q ≤ 2 ^ 16) {a : ℕ} (ha : a ≤ q) (hx : encode zero delta a = some x) :
    ∃ z l, zero.negate = some z ∧ x.negate = some l ∧ z.Valid q n ∧
      encode z delta (q - a) = some l := by
  obtain ⟨hxv, hl⟩ := encode_map (b := q - a) hz hd hq hword hx (fun d => q - d) fun z hz d => by
    rw [← ZMod.natCast_eq_natCast_iff']
    have hle : (z + d * a % q) % q ≤ q := (Nat.mod_lt _ hq).le
    simp only [Nat.cast_add, Nat.cast_mul, ZMod.natCast_mod, Nat.cast_sub hle, Nat.cast_sub hz.le,
      Nat.cast_sub ha, ZMod.natCast_self]
    ring
  exact ⟨_, _, negate_eq hz, negate_eq hxv, hz.map hq _, hl⟩

theorem encode_minus (hz : zero.Valid q n) (hz' : zero'.Valid q n) (hd : delta.Valid q n)
    (hq : 0 < q) (hword : 2 * q ≤ 2 ^ 16) {a b : ℕ} (hb : b ≤ q) (hx : encode zero delta a = some x)
    (hy : encode zero' delta b = some y) :
    ∃ z l, zero.minus zero' = some z ∧ x.minus y = some l ∧
      encode z delta ((a + (q - b)) % q) = some l := by
  obtain ⟨z, l, hzneg, hlneg, hzv, hl⟩ := encode_negate hz' hd hq hword hb hy
  obtain ⟨z', l', hz₁, hl₁, hsum⟩ := encode_plus hz hzv hd hq hword hx hl
  refine ⟨z', l', ?_, ?_, hsum⟩
  · rw [minus, hzneg]
    exact hz₁
  · rw [minus, hlneg]
    exact hl₁

end WireModQ

end EdaBitGen.FancyGarbling
