import EdaBitGen.Scuttlebutt.F128b

/-!
# Multiplication in the binary fields

The product of two elements is the remainder of the product of their polynomials. The components over
the field with two elements are the coefficients.
-/

open Polynomial Coefficients

namespace EdaBitGen.Scuttlebutt

open MacNCheese (U64x2)
open BinaryPolynomials

/-! ## Components -/

variable {w : ℕ}

/-- The bits of a word as components. -/
def decompose (numBits : ℕ) (x : BitVec w) : List.Vector (ZMod 2) numBits :=
  ⟨(List.range numBits).map fun shift => (((x >>> shift) &&& 1#w).toNat : ZMod 2), by simp⟩

def form {numBits : ℕ} (components : List.Vector (ZMod 2) numBits) : BitVec w :=
  components.toList.reverse.foldl (fun out x => (out <<< 1) ||| BitVec.ofNat w x.val) 0

/-- The operations of a field of words of `w` bits, with components over the field of two elements. -/
structure BinaryField (w numBits : ℕ) where
  Element : Type
  word : Element → BitVec w
  addAssign : Element → Element → Element
  mulAssign : Element → Element → Element
  /-- The product with an element of the field of two elements. -/
  scale : ZMod 2 → Element → Element
  decomposeSuperfield : Element → List.Vector (ZMod 2) numBits
  formSuperfield : List.Vector (ZMod 2) numBits → Element
  polynomialModulus : GeneralPolynomial (ZMod 2)

theorem coefficient_bit (x : BitVec w) (i : ℕ) :
    (((x >>> i) &&& 1#w).toNat : ZMod 2) = coefficient (x.getLsbD i) := by
  have hbit : ((x >>> i) &&& 1#w).toNat = (x.getLsbD i).toNat := by
    by_cases hw : w = 0
    · subst hw
      simp [BitVec.of_length_zero]
    · rw [BitVec.toNat_and, BitVec.toNat_ushiftRight, BitVec.toNat_ofNat,
        Nat.mod_eq_of_lt (Nat.one_lt_two_pow hw), Nat.and_one_is_mod, BitVec.getLsbD,
        Nat.toNat_testBit, Nat.shiftRight_eq_div_pow]
  rw [hbit]
  cases x.getLsbD i <;> rfl

theorem getLsbD_form (l : List (ZMod 2)) (hl : l.length ≤ w) (i : ℕ) :
    (l.reverse.foldl (fun (out : BitVec w) x => (out <<< 1) ||| BitVec.ofNat w x.val) 0).getLsbD i =
      decide (l.getD i 0 = 1) := by
  rw [List.foldl_reverse]
  induction l generalizing i with
  | nil => simp
  | cons x l ih =>
    rw [List.length_cons] at hl
    have hx : ∀ i, (BitVec.ofNat w x.val).getLsbD i = (decide (i = 0) && decide (x = 1)) := by
      intro i
      rw [BitVec.getLsbD_ofNat]
      have hval : x.val = if x = 1 then 1 else 0 := by
        revert x
        decide
      rw [hval]
      by_cases hi : i = 0
      · subst hi
        by_cases hone : x = 1
        · simp [hone, (by omega : 0 < w)]
        · simp [hone]
      · by_cases hone : x = 1
        · have htest : Nat.testBit 1 i = false := Nat.testBit_lt_two_pow (Nat.one_lt_two_pow hi)
          simp [hone, hi, htest]
        · simp [hone]
    rw [List.foldr_cons, BitVec.getLsbD_or, BitVec.getLsbD_shiftLeft, hx]
    cases i with
    | zero => simp
    | succ i =>
      rw [Nat.add_sub_cancel, ih (by omega) i, List.getD_cons_succ]
      by_cases hi : i + 1 < w
      · simp [hi]
      · rw [List.getD_eq_default _ _ (by omega)]
        simp

theorem toList_decompose (numBits : ℕ) (x : BitVec w) :
    (decompose numBits x).toList = (List.range numBits).map fun i => coefficient (x.getLsbD i) :=
  List.map_congr_left fun i _ => coefficient_bit x i

theorem getD_decompose {numBits : ℕ} (x : BitVec w) {i : ℕ} (hi : i < numBits) :
    (decompose numBits x).toList.getD i 0 = coefficient (x.getLsbD i) := by
  rw [toList_decompose, List.getD_eq_getElem?_getD, List.getElem?_map, List.getElem?_range hi]
  rfl

theorem coefficient_decide (a : ZMod 2) : coefficient (decide (a = 1)) = a := by
  revert a
  decide

theorem decide_coefficient (b : Bool) : decide (coefficient b = 1) = b := by
  revert b
  decide

theorem below_form {numBits : ℕ} (h : numBits ≤ w) (components : List.Vector (ZMod 2) numBits) :
    Below numBits (form components : BitVec w) := by
  intro i hi
  rw [form, getLsbD_form _ (by rw [components.toList_length]; exact h),
    List.getD_eq_default _ _ (by rw [components.toList_length]; exact hi)]
  decide

theorem decompose_form {numBits : ℕ} (h : numBits ≤ w) (components : List.Vector (ZMod 2) numBits) :
    decompose numBits (form components : BitVec w) = components := by
  apply List.Vector.eq
  apply List.ext_getElem
  · rw [List.Vector.toList_length, List.Vector.toList_length]
  · intro i hi hi'
    have hnum : i < numBits := by rwa [components.toList_length] at hi'
    rw [← List.getD_eq_getElem _ 0 hi, getD_decompose _ hnum, form,
      getLsbD_form _ (by rw [components.toList_length]; exact h), coefficient_decide,
      List.getD_eq_getElem _ _ hi']

theorem form_decompose {numBits : ℕ} (h : numBits ≤ w) {x : BitVec w} (hx : Below numBits x) :
    form (decompose numBits x) = x := by
  apply BitVec.eq_of_getLsbD_eq
  intro i _
  rw [form, getLsbD_form _ (by rw [List.Vector.toList_length]; exact h)]
  by_cases hi : i < numBits
  · rw [getD_decompose x hi, decide_coefficient]
  · rw [hx i (by omega), List.getD_eq_default _ _ (by rw [List.Vector.toList_length]; omega)]
    decide

theorem ofCoeffs_decompose {numBits : ℕ} {x : BitVec w} (hx : Below numBits x) :
    ofCoeffs (decompose numBits x).toList = toPoly x := by
  ext i
  rw [coeff_ofCoeffs, coeff_toPoly]
  by_cases hi : i < numBits
  · exact getD_decompose x hi
  · rw [hx i (by omega), List.getD_eq_default _ _ (by rw [List.Vector.toList_length]; omega)]
    rfl

theorem decompose_xor (numBits : ℕ) (x y : BitVec w) : (decompose numBits (x ^^^ y)).toList =
    List.zipWith (· + ·) (decompose numBits x).toList (decompose numBits y).toList := by
  rw [toList_decompose, toList_decompose, toList_decompose, List.zipWith_map, List.zipWith_self]
  refine List.map_congr_left fun i _ => ?_
  rw [BitVec.getLsbD_xor, coefficient_xor]

theorem decompose_scale {numBits : ℕ} (c : ZMod 2) (x : BitVec w) :
    (decompose numBits (if c = 1 then x else 0)).toList = (decompose numBits x).toList.map (c * ·) := by
  rw [toList_decompose, toList_decompose, List.map_map]
  refine List.map_congr_left fun i _ => ?_
  show _ = c * coefficient (x.getLsbD i)
  have hc : c = 0 ∨ c = 1 := by
    revert c
    decide
  rcases hc with rfl | rfl
  · rw [if_neg (by decide), zero_mul]
    exact congrArg coefficient BitVec.getLsbD_zero
  · rw [if_pos rfl, one_mul]

/-- The multiplication of a field is that of polynomials modulo its modulus, in words and in
components. -/
structure BinaryField.Correct {w numBits : ℕ} (F : BinaryField w numBits) : Prop where
  monic : F.polynomialModulus.toPoly.Monic
  degree_eq : F.polynomialModulus.toPoly.degree = numBits
  degree_lt : ∀ x y, (toPoly (F.word (F.mulAssign x y))).degree < numBits
  /-- The product is the remainder of the product without carries. -/
  mulAssign_eq : ∀ x y, toPoly (F.word (F.mulAssign x y)) =
    toPoly (F.word x) * toPoly (F.word y) %ₘ F.polynomialModulus.toPoly
  /-- There is no other one below the degree. -/
  unique : ∀ x y (r : (ZMod 2)[X]), r.degree < numBits →
    F.polynomialModulus.toPoly ∣ toPoly (F.word x) * toPoly (F.word y) - r →
    r = toPoly (F.word (F.mulAssign x y))
  form_decompose : ∀ x, F.formSuperfield (F.decomposeSuperfield x) = x
  decompose_form : ∀ components, F.decomposeSuperfield (F.formSuperfield components) = components
  decompose_add : ∀ x y, (F.decomposeSuperfield (F.addAssign x y)).toList =
    List.zipWith (· + ·) (F.decomposeSuperfield x).toList (F.decomposeSuperfield y).toList
  decompose_scale : ∀ c x, (F.decomposeSuperfield (F.scale c x)).toList =
    (F.decomposeSuperfield x).toList.map (c * ·)
  form_add : ∀ a b, F.formSuperfield (List.Vector.zipWith (· + ·) a b) =
    F.addAssign (F.formSuperfield a) (F.formSuperfield b)
  form_scale : ∀ c a, F.formSuperfield (a.map (c * ·)) = F.scale c (F.formSuperfield a)
  /-- The components of a product are those of the convolution of the components, modulo the modulus. -/
  decompose_mul : ∀ x y x0 xs y0 ys, (F.decomposeSuperfield x).toList = x0 :: xs →
    (F.decomposeSuperfield y).toList = y0 :: ys →
    ofCoeffs (F.decomposeSuperfield (F.mulAssign x y)).toList =
      ofCoeffs ((Convolve.default x0 xs y0 ys).1 :: (Convolve.default x0 xs y0 ys).2) %ₘ
        F.polynomialModulus.toPoly

/-- What a field's words and modulus have to satisfy. -/
structure BinaryField.Words {w numBits n : ℕ} (F : BinaryField w numBits) (p : BitVec n) : Prop where
  le : numBits ≤ w
  modulus : Modulus numBits p
  toPoly_eq : toPoly p = F.polynomialModulus.toPoly
  below : ∀ x, Below numBits (F.word x)
  word_injective : Function.Injective F.word
  mulAssign_eq : ∀ x y, toPoly (F.word (F.mulAssign x y)) =
    toPoly (F.word x) * toPoly (F.word y) %ₘ toPoly p
  word_addAssign : ∀ x y, F.word (F.addAssign x y) = F.word x ^^^ F.word y
  word_scale : ∀ c x, F.word (F.scale c x) = if c = 1 then F.word x else 0
  decomposeSuperfield_eq : ∀ x, F.decomposeSuperfield x = decompose numBits (F.word x)
  word_formSuperfield : ∀ components, F.word (F.formSuperfield components) = form components

theorem BinaryField.Words.correct {w numBits n : ℕ} {F : BinaryField w numBits} {p : BitVec n}
    (h : F.Words p) : F.Correct := by
  have hmonic : F.polynomialModulus.toPoly.Monic := h.toPoly_eq ▸ h.modulus.monic
  have hdegree : F.polynomialModulus.toPoly.degree = numBits := h.toPoly_eq ▸ h.modulus.degree_eq
  have hmul : ∀ x y, toPoly (F.word (F.mulAssign x y)) =
      toPoly (F.word x) * toPoly (F.word y) %ₘ F.polynomialModulus.toPoly := h.toPoly_eq ▸ h.mulAssign_eq
  have hform : ∀ x, F.formSuperfield (F.decomposeSuperfield x) = x := by
    intro x
    apply h.word_injective
    rw [h.word_formSuperfield, h.decomposeSuperfield_eq, form_decompose h.le (h.below x)]
  have hdecompose : ∀ components, F.decomposeSuperfield (F.formSuperfield components) = components := by
    intro components
    rw [h.decomposeSuperfield_eq, h.word_formSuperfield, decompose_form h.le]
  have hadd : ∀ x y, (F.decomposeSuperfield (F.addAssign x y)).toList =
      List.zipWith (· + ·) (F.decomposeSuperfield x).toList (F.decomposeSuperfield y).toList := by
    intro x y
    rw [h.decomposeSuperfield_eq, h.decomposeSuperfield_eq, h.decomposeSuperfield_eq, h.word_addAssign,
      decompose_xor]
  have hscale : ∀ c x, (F.decomposeSuperfield (F.scale c x)).toList =
      (F.decomposeSuperfield x).toList.map (c * ·) := by
    intro c x
    rw [h.decomposeSuperfield_eq, h.decomposeSuperfield_eq, h.word_scale, Scuttlebutt.decompose_scale]
  refine ⟨hmonic, hdegree, fun x y => (h.below _).degree_lt, hmul, ?_, hform, hdecompose, hadd, hscale,
    ?_, ?_, ?_⟩
  · intro x y r hr hdvd
    have hself : r %ₘ F.polynomialModulus.toPoly = r :=
      (modByMonic_eq_self_iff hmonic).2 (lt_of_lt_of_eq hr hdegree.symm)
    rw [← modByMonic_eq_zero_iff_dvd hmonic, sub_modByMonic, hself, sub_eq_zero] at hdvd
    rw [hmul, hdvd]
  · intro a b
    rw [← hform (F.addAssign (F.formSuperfield a) (F.formSuperfield b))]
    congr 1
    apply List.Vector.eq
    rw [hadd, hdecompose, hdecompose]
    rfl
  · intro c a
    rw [← hform (F.scale c (F.formSuperfield a))]
    congr 1
    apply List.Vector.eq
    rw [hscale, hdecompose, List.Vector.toList_map]
  · intro x y x0 xs y0 ys hx hy
    rw [(Convolve.multiplies_default x0 xs y0 ys).ofCoeffs_eq, ← hx, ← hy, h.decomposeSuperfield_eq,
      h.decomposeSuperfield_eq, h.decomposeSuperfield_eq, ofCoeffs_decompose (h.below _),
      ofCoeffs_decompose (h.below _), ofCoeffs_decompose (h.below _), hmul]

theorem toPoly_eq_of_coeff {w : ℕ} {x : BitVec w} {p : GeneralPolynomial (ZMod 2)}
    (hx : ∀ i, 130 ≤ i → x.getLsbD i = false) (hp : p.coefficients.length ≤ 128)
    (h : ∀ i < 130, coefficient (x.getLsbD i) = p.coeff i) : toPoly x = p.toPoly := by
  ext i
  rw [coeff_toPoly, GeneralPolynomial.coeff_toPoly]
  by_cases hi : i < 130
  · exact h i hi
  · rw [hx i (by omega), GeneralPolynomial.coeff,
      List.getD_eq_default _ _ (by rw [List.length_cons]; omega)]
    rfl

/-! ## The fields -/

namespace SmallBinaryField

variable (f : SmallBinaryField)

/-- An element, with its upper bits zero. -/
@[ext] structure Element where
  val : BitVec 64
  below : Below f.numBits val

theorem below_xor {d : ℕ} {x y : BitVec w} (hx : Below d x) (hy : Below d y) : Below d (x ^^^ y) := by
  intro i hi
  rw [BitVec.getLsbD_xor, hx i hi, hy i hi]
  rfl

theorem below_and {d : ℕ} (x : BitVec w) {y : BitVec w} (hy : Below d y) : Below d (x &&& y) := by
  intro i hi
  rw [BitVec.getLsbD_and, hy i hi, Bool.and_false]

theorem numBits_le : f.numBits ≤ 64 := by
  cases f <;> decide

theorem numBits_pos : 0 < f.numBits := by
  cases f <;> decide

variable {f}

theorem below_product (x y : Element f) : Below (2 * f.numBits - 1) (clmulWord x.val y.val) :=
  Below.of_toPoly_mul f.numBits_pos x.below y.below (toPoly_clmulWord x.val y.val)

theorem reduce_product (x y : Element f) :
    Below f.numBits (f.reduce (U64x2.carrylessMul false false (x.val, 0) (y.val, 0))) ∧
      toPoly (f.reduce (U64x2.carrylessMul false false (x.val, 0) (y.val, 0))) =
        toPoly x.val * toPoly y.val %ₘ toPoly f.modulusWord := by
  have hle := f.numBits_le
  have hlt := f.modulus.lt
  have hspec := f.reduction.spec f.modulus (by
    cases f <;> decide) (below_product x y)
  rwa [toPoly_clmulWord] at hspec

def Element.addAssign (x y : Element f) : Element f := ⟨x.val ^^^ y.val, below_xor x.below y.below⟩

def Element.mulAssign (x y : Element f) : Element f :=
  ⟨f.reduce (U64x2.carrylessMul false false (x.val, 0) (y.val, 0)), (reduce_product x y).1⟩

def Element.scale (c : ZMod 2) (x : Element f) : Element f :=
  ⟨~~~(BitVec.ofNat 64 c.val - 1#64) &&& x.val, below_and _ x.below⟩

variable (f)

def field : BinaryField 64 f.numBits where
  Element := Element f
  word := Element.val
  addAssign := Element.addAssign
  mulAssign := Element.mulAssign
  scale := Element.scale
  decomposeSuperfield x := decompose f.numBits x.val
  formSuperfield components := ⟨form components, below_form f.numBits_le components⟩
  polynomialModulus := f.polynomialModulus

theorem toPoly_modulusWord : toPoly f.modulusWord = f.polynomialModulus.toPoly := by
  refine toPoly_eq_of_coeff (fun i hi => f.modulusWord.getLsbD_of_ge i (by omega)) ?_ ?_
  · cases f <;> decide +kernel
  · cases f <;> decide +kernel

theorem words : f.field.Words f.modulusWord where
  le := f.numBits_le
  modulus := f.modulus
  toPoly_eq := f.toPoly_modulusWord
  below := Element.below
  word_injective _ _ := Element.ext
  mulAssign_eq x y := by
    have hx : f.field.word x = Element.val x := rfl
    have hy : f.field.word y = Element.val y := rfl
    rw [hx, hy, ← (reduce_product x y).2]
    rfl
  word_addAssign _ _ := rfl
  word_scale c x := by
    show ~~~(BitVec.ofNat 64 c.val - 1#64) &&& x.val = if c = 1 then x.val else 0
    have hc : c = 0 ∨ c = 1 := by
      revert c
      decide
    rcases hc with rfl | rfl
    · have hmask : ~~~(BitVec.ofNat 64 (0 : ZMod 2).val - 1#64) = 0#64 := by decide
      rw [hmask, if_neg (by decide), BitVec.zero_and]
      rfl
    · have hmask : ~~~(BitVec.ofNat 64 (1 : ZMod 2).val - 1#64) = BitVec.allOnes 64 := by decide
      rw [hmask, if_pos rfl, BitVec.allOnes_and]
  decomposeSuperfield_eq _ := rfl
  word_formSuperfield _ := rfl

end SmallBinaryField

namespace F128b

def field : BinaryField 128 128 where
  Element := BitVec 128
  word := id
  addAssign x y := x ^^^ y
  mulAssign := mulAssign
  scale c x := if c = 1 then x else 0
  decomposeSuperfield := decompose 128
  formSuperfield := form
  polynomialModulus := polynomialModulus

theorem toPoly_modulusWord : toPoly modulusWord = polynomialModulus.toPoly := by
  refine toPoly_eq_of_coeff (fun i hi => modulus.below i (by omega)) ?_ ?_
  · decide +kernel
  · decide +kernel

theorem below_mulWide (a b : BitVec 128) : Below 255 ((mulWide a b).1 ++ (mulWide a b).2) := by
  apply Below.of_toPoly_mul (by norm_num) (below_width a) (below_width b)
  rw [toPoly_append (mulWide a b).1 (mulWide a b).2, toPoly_mulWide]

theorem toPoly_mulAssign (x y : BitVec 128) :
    toPoly (mulAssign x y) = toPoly x * toPoly y %ₘ toPoly modulusWord := by
  have hspec := (reduction.spec modulus (by omega) (below_mulWide x y)).2
  have hupper : ((mulWide x y).1 ++ (mulWide x y).2).extractLsb' 128 128 = (mulWide x y).1 :=
    BitVec.extractLsb'_append_eq_left
  have hlower : ((mulWide x y).1 ++ (mulWide x y).2).extractLsb' 0 128 = (mulWide x y).2 :=
    BitVec.extractLsb'_append_eq_right
  rw [hupper, hlower, toPoly_setWidth (below_width _) (by omega),
    toPoly_append (mulWide x y).1 (mulWide x y).2, toPoly_mulWide] at hspec
  exact hspec

theorem words : field.Words modulusWord where
  le := le_refl 128
  modulus := modulus
  toPoly_eq := toPoly_modulusWord
  below := below_width
  word_injective _ _ h := h
  mulAssign_eq x y := by
    have hword : ∀ x, field.word x = x := fun _ => rfl
    rw [hword, hword, hword]
    exact toPoly_mulAssign x y
  word_addAssign _ _ := rfl
  word_scale _ _ := rfl
  decomposeSuperfield_eq _ := rfl
  word_formSuperfield _ := rfl

end F128b

theorem shift_mask (x : BitVec 64) : x <<< 1 >>> 1 = x &&& (1#64 <<< 63 - 1#64) := by
  apply BitVec.eq_of_toNat_eq
  have hmask : (1#64 <<< 63 - 1#64).toNat = 2 ^ 63 - 1 := by decide
  rw [BitVec.toNat_and, hmask, Nat.and_two_pow_sub_one_eq_mod, BitVec.toNat_ushiftRight,
    BitVec.toNat_shiftLeft, Nat.shiftRight_eq_div_pow, Nat.shiftLeft_eq]
  omega

theorem top_bit (x : BitVec 64) : (x >>> 62) &&& 0b10 = x >>> 63 <<< 1 := by
  apply BitVec.eq_of_toNat_eq
  have hx := x.isLt
  have htop : x.toNat >>> 62 < 4 := by
    rw [Nat.shiftRight_eq_div_pow]
    omega
  rw [BitVec.toNat_and, BitVec.toNat_shiftLeft, BitVec.toNat_ushiftRight, BitVec.toNat_ushiftRight,
    Nat.shiftLeft_eq, (by omega : 63 = 62 + 1), Nat.shiftRight_add]
  generalize x.toNat >>> 62 = top at htop
  interval_cases top <;> decide

theorem reduceVectoredF63b_eq (uppers lowers : U64x2) : reduceVectoredF63b uppers lowers =
    (reduceF63b (lowers.1, uppers.1), reduceF63b (lowers.2, uppers.2)) := by
  have hlane : ∀ lower upper : BitVec 64,
      (lower ^^^ lower >>> 63 ^^^ upper <<< 1 ^^^ lower >>> 63 <<< 1 ^^^ upper <<< 2) <<< 1 >>> 1 =
        reduceF63b (lower, upper) := by
    intro lower upper
    rw [shift_mask]
    unfold reduceF63b
    dsimp only
    rw [top_bit]
  exact Prod.ext (hlane lowers.1 uppers.1) (hlane lowers.2 uppers.2)

/-- The multiplications of all fields are right, and so is the vectorised reduction. -/
theorem binaryFields_correct : (∀ f : SmallBinaryField, f.field.Correct) ∧ F128b.field.Correct ∧
    ∀ uppers lowers, reduceVectoredF63b uppers lowers =
      (SmallBinaryField.f63b.reduce (lowers.1, uppers.1),
        SmallBinaryField.f63b.reduce (lowers.2, uppers.2)) :=
  ⟨fun f => f.words.correct, F128b.words.correct, reduceVectoredF63b_eq⟩

end EdaBitGen.Scuttlebutt
