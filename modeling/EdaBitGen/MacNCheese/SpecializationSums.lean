import EdaBitGen.MacNCheese.Specialization

/-!
# The specialization computes the sums

Pairs are added by adding their words, and unreduced products are added before they are reduced. Both
sides of the consistency check draw the same challenges.
-/

namespace EdaBitGen.MacNCheese.Specialization

open Scuttlebutt.SmallBinaryField (Element)
open Vectoreyes (U16x16 U16x8 U32x4 U64x4 U32x8 extendingCast gather select selectHalves double Lanes)

variable {f : Scuttlebutt.SmallBinaryField}

/-! ## Pairs -/

theorem numBits_le (f : Scuttlebutt.SmallBinaryField) : f.numBits ≤ 63 := by
  cases f <;> decide

theorem getLsbD_mask (f : Scuttlebutt.SmallBinaryField) {i : ℕ} (hi : i < 64) :
    (mask f).getLsbD i = decide (i < f.numBits) := by
  have hall : ∀ i < 64, (mask f).getLsbD i = decide (i < f.numBits) := by
    cases f <;> decide
  exact hall i hi

theorem and_mask {x : BitVec 64} (hx : BinaryPolynomials.Below f.numBits x) : x &&& mask f = x := by
  refine BitVec.eq_of_getLsbD_eq fun i hi => ?_
  rw [BitVec.getLsbD_and, getLsbD_mask f hi]
  by_cases hlt : i < f.numBits
  · rw [decide_eq_true hlt, Bool.and_true]
  · rw [hx i (by omega), Bool.false_and]

theorem fromLowerBits_val (x : Element f) : fromLowerBits f x.val = x :=
  Scuttlebutt.SmallBinaryField.Element.ext (and_mask x.below)

/-- The word of a value alone. -/
def valueWord (u : ZMod 2) : BitVec 64 := BitVec.ofNat 64 u.val <<< 63

theorem valueWord_add (u u' : ZMod 2) : valueWord (u + u') = valueWord u ^^^ valueWord u' := by
  revert u u'
  decide

theorem shiftRight_valueWord (u : ZMod 2) : valueWord u >>> 63 = BitVec.ofNat 64 u.val := by
  revert u
  decide

theorem getLsbD_valueWord (u : ZMod 2) {i : ℕ} (hi : i < 63) : (valueWord u).getLsbD i = false := by
  have hall : ∀ u : ZMod 2, ∀ i < 63, (valueWord u).getLsbD i = false := by decide
  exact hall u i hi

theorem getLsbD_val (w : Element f) {i : ℕ} (hi : 63 ≤ i) : w.val.getLsbD i = false :=
  w.below i (Nat.le_trans (numBits_le f) hi)

theorem newSenderPair_eq (u : ZMod 2) (w : Element f) : newSenderPair u w = valueWord u ^^^ w.val := by
  refine BitVec.eq_of_getLsbD_eq fun i _ => ?_
  show (valueWord u ||| w.val).getLsbD i = _
  rw [BitVec.getLsbD_or, BitVec.getLsbD_xor]
  by_cases h : i < 63
  · rw [getLsbD_valueWord u h, Bool.false_or, Bool.false_xor]
  · rw [getLsbD_val w (Nat.le_of_not_lt h), Bool.or_false, Bool.xor_false]

theorem newSenderPair_add (p q : ZMod 2 × Element f) :
    newSenderPair (p + q).1 (p + q).2 = newSenderPair p.1 p.2 ^^^ newSenderPair q.1 q.2 := by
  rw [newSenderPair_eq, newSenderPair_eq, newSenderPair_eq, Prod.fst_add, Prod.snd_add, valueWord_add,
    val_add]
  generalize valueWord p.1 = a, valueWord q.1 = b, p.2.val = c, q.2.val = d
  ac_rfl

theorem shiftRight_newSenderPair (u : ZMod 2) (w : Element f) :
    newSenderPair u w >>> 63 = BitVec.ofNat 64 u.val := by
  have hzero : w.val >>> 63 = 0 := by
    refine BitVec.eq_of_getLsbD_eq fun i _ => ?_
    rw [BitVec.getLsbD_ushiftRight, getLsbD_val w (Nat.le_add_right 63 i)]
    exact BitVec.getLsbD_zero.symm
  rw [newSenderPair_eq, BitVec.ushiftRight_xor_distrib, shiftRight_valueWord, hzero]
  exact BitVec.xor_zero

theorem newSenderPair_and_mask (u : ZMod 2) (w : Element f) : newSenderPair u w &&& mask f = w.val := by
  refine BitVec.eq_of_getLsbD_eq fun i hi => ?_
  have hle := numBits_le f
  rw [newSenderPair_eq, BitVec.getLsbD_and, BitVec.getLsbD_xor, getLsbD_mask f hi]
  by_cases hlt : i < f.numBits
  · rw [getLsbD_valueWord u (by omega), Bool.false_xor, decide_eq_true hlt, Bool.and_true]
  · rw [w.below i (by omega), decide_eq_false hlt, Bool.and_false]

theorem extractSenderPair_newSenderPair (u : ZMod 2) (w : Element f) :
    extractSenderPair f (newSenderPair u w) = (u, w) := by
  have hmask : fromLowerBits f (newSenderPair u w) = w :=
    Scuttlebutt.SmallBinaryField.Element.ext (newSenderPair_and_mask u w)
  rw [extractSenderPair, shiftRight_newSenderPair, hmask]
  refine Prod.ext ?_ rfl
  show (if BitVec.ofNat 64 u.val ≠ 0 then (1 : ZMod 2) else 0) = u
  clear hmask
  revert u
  decide

/-! ## Rows -/

namespace LpnRng

variable {σ : Type} (rng : LpnRng σ)

/-- The generator after some calls. -/
def after : σ → ℕ → σ
  | lpnRng, 0 => lpnRng
  | lpnRng, calls + 1 => after (rng.matrixEntriesVectorized lpnRng).2 calls

/-- The ten indices for an output: every call serves four of them. -/
def rows (lpnRng : σ) (i : ℕ) : Fin 10 → BitVec 16 :=
  LpnIndices.rows (rng.matrixEntriesVectorized (rng.after lpnRng (i / 4))).1 ⟨i % 4, by omega⟩

theorem rows_add_four (lpnRng : σ) (i : ℕ) :
    rng.rows lpnRng (i + 4) = rng.rows (rng.matrixEntriesVectorized lpnRng).2 i := by
  simp only [rows, Nat.add_div_right i (by decide : 0 < 4), Nat.add_mod_right]
  rfl

end LpnRng

theorem widen_narrow_comp {n m w : ℕ} (x : Lanes m (w + w)) (σ : Fin n → Fin m) :
    Vectoreyes.widen (Vectoreyes.narrow x ∘ double σ) = x ∘ σ := by
  have hmoved := Vectoreyes.narrow_comp_widen (Vectoreyes.narrow x) σ
  rw [Vectoreyes.widen_narrow] at hmoved
  rw [← hmoved, Vectoreyes.widen_narrow]

theorem gather_extendingCast {n m v : ℕ} (base : BitVec 16 → BitVec 64) (h : m ≤ n) (hv : 16 ≤ v)
    (x : Lanes n 16) : gather base (extendingCast m v h x) = some fun i => base (x (i.castLE h)) := by
  have hnat : ∀ i, (extendingCast m v h x i).toNat = (x (i.castLE h)).toNat := fun i =>
    BitVec.toNat_setWidth_of_le hv
  rw [gather, if_pos fun i => (hnat i).symm ▸ (x (i.castLE h)).isLt]
  refine congrArg some (funext fun i => congrArg base ?_)
  exact BitVec.eq_of_toNat_eq (by
    rw [BitVec.toNat_setWidth, hnat, Nat.mod_eq_of_lt (x (i.castLE h)).isLt])

theorem combination_eq (src : BitVec 16 → BitVec 64) (indices : Fin 4 → U16x16) (r : Fin 4) :
    ∃ sum, combination src (indices r) = some sum ∧ ∀ dst, dst ^^^ sum = (List.finRange 10).foldl
      (fun dst j => dst ^^^ src (LpnIndices.rows indices r j)) dst := by
  set x := indices r with hx
  have hlo1 : U16x8.ofU32x4 ((U32x4.ofU16x8 (U16x16.halves x).1).shuffle 3 2 3 2) =
      (U16x16.halves x).1 ∘ (double (select 3 2 3 2) : Fin 8 → Fin 8) :=
    Vectoreyes.narrow_comp_widen (n := 4) (m := 4) (w := 16) _ (select 3 2 3 2)
  have hswap (y : U64x4) : U64x4.ofU32x8 ((U32x8.ofU64x4 y).shuffle 1 0 3 2) = y ∘ select 2 3 0 1 := by
    have hlanes : selectHalves 1 0 3 2 = (double (select 2 3 0 1) : Fin 8 → Fin 8) := by decide
    rw [U32x8.shuffle, hlanes]
    exact widen_narrow_comp (n := 4) (m := 4) (w := 32) y (select 2 3 0 1)
  refine ⟨(src (x 0) ^^^ src (x 4) ^^^ (src (x 1) ^^^ src (x 5))) ^^^
    (src (x 2) ^^^ src (x 6) ^^^ (src (x 3) ^^^ src (x 7))) ^^^ src (x 8) ^^^ src (x 9),
    ?_, fun dst => ?_⟩
  · rw [combination]
    dsimp only
    rw [hlo1, gather_extendingCast src _ (by decide), gather_extendingCast src _ (by decide),
      gather_extendingCast src _ (by decide)]
    dsimp only [Option.bind_eq_bind, Option.bind_some]
    rw [hswap]
    refine congrArg some ?_
    show (src (x 1) ^^^ src (x 5)) ^^^ (src (x 0) ^^^ src (x 4)) ^^^
      ((src (x 3) ^^^ src (x 7)) ^^^ (src (x 2) ^^^ src (x 6))) ^^^ src (x 8) ^^^ src (x 9) = _
    rw [BitVec.xor_comm (src (x 1) ^^^ _), BitVec.xor_comm (src (x 3) ^^^ _)]
  · have hten : List.finRange 10 = [0, 1, 2, 3, 4, 5, 6, 7, 8, 9] := by decide
    rw [hten]
    simp only [List.foldl_cons, List.foldl_nil, LpnIndices.rows, ← hx]
    show _ = dst ^^^ src (x 0) ^^^ src (x 1) ^^^ src (x 2) ^^^ src (x 3) ^^^ src (x 4) ^^^ src (x 5) ^^^
      src (x 6) ^^^ src (x 7) ^^^ src (x 8) ^^^ src (x 9)
    ac_rfl

section

variable {σ : Type} (rng : LpnRng σ)

/-- The words that are selected for the output `i`, added to a word. -/
def addRow (lpnRng : σ) (src : BitVec 16 → BitVec 64) (i : ℕ) (dst : BitVec 64) : BitVec 64 :=
  (List.finRange 10).foldl (fun dst j => dst ^^^ src (rng.rows lpnRng i j)) dst

theorem lpnSender_words (lpnRng : σ) (src : BitVec 16 → BitVec 64) (dst : List (BitVec 64)) :
    lpnSender rng lpnRng src dst = some (dst.mapIdx (addRow rng lpnRng src)) := by
  match dst with
  | a :: b :: c :: d :: dst =>
    have hrest := lpnSender_words (rng.matrixEntriesVectorized lpnRng).2 src dst
    have hcombination := combination_eq src (rng.matrixEntriesVectorized lpnRng).1
    obtain ⟨x, hx, hxs⟩ := hcombination 0
    obtain ⟨y, hy, hys⟩ := hcombination 1
    obtain ⟨z, hz, hzs⟩ := hcombination 2
    obtain ⟨t, ht, hts⟩ := hcombination 3
    have hshift : (fun i => addRow rng lpnRng src (i + 1 + 1 + 1 + 1)) =
        addRow rng (rng.matrixEntriesVectorized lpnRng).2 src := by
      funext i dst
      rw [addRow, addRow, ← rng.rows_add_four]
    rw [lpnSender]
    dsimp only
    rw [hx, hy, hz, ht, hrest]
    dsimp only [Option.bind_eq_bind, Option.bind_some]
    rw [List.mapIdx_cons, List.mapIdx_cons, List.mapIdx_cons, List.mapIdx_cons, hxs, hys, hzs, hts]
    refine congrArg some ?_
    refine congrArg₂ _ rfl (congrArg₂ _ rfl (congrArg₂ _ rfl (congrArg₂ _ rfl ?_)))
    exact congrArg (fun g => List.mapIdx g dst) hshift.symm
  | [] => rfl
  | [a] | [a, b] | [a, b, c] =>
    have hrow (r : Fin 4) : rng.rows lpnRng r =
        LpnIndices.rows (rng.matrixEntriesVectorized lpnRng).1 r := by
      rw [LpnRng.rows, Nat.div_eq_of_lt r.isLt]
      exact congrArg (LpnIndices.rows _) (Fin.ext (Nat.mod_eq_of_lt r.isLt))
    have hremainder (remainder : List (BitVec 64)) :
        lpnRemainder src (rng.matrixEntriesVectorized lpnRng).1 remainder =
          List.zipWith (fun dst r => addRow rng lpnRng src (r : Fin 4) dst) remainder
            (List.finRange 4) := by
      simp only [lpnRemainder, addRow, hrow]
    have hfour : List.finRange 4 = [0, 1, 2, 3] := by decide
    rw [lpnSender, hremainder, hfour]
    · rfl
    · simp

theorem map_mapIdx_map {α β : Type} (word : α → β) {g : ℕ → β → β} {h : ℕ → α → α}
    (hword : ∀ i a, g i (word a) = word (h i a)) (xs : List α) :
    (xs.map word).mapIdx g = (xs.mapIdx h).map word := by
  refine List.ext_getElem? fun i => ?_
  rw [List.getElem?_mapIdx, List.getElem?_map, List.getElem?_map, List.getElem?_mapIdx]
  cases xs[i]? with
  | none => rfl
  | some a => exact congrArg some (hword i a)

theorem foldl_newSenderPair (src : BitVec 16 → ZMod 2 × Element f) (row : Fin 10 → BitVec 16)
    (js : List (Fin 10)) (p : ZMod 2 × Element f) :
    js.foldl (fun dst j => dst ^^^ newSenderPair (src (row j)).1 (src (row j)).2)
      (newSenderPair p.1 p.2) =
    newSenderPair (p + (js.map fun j => src (row j)).sum).1
      (p + (js.map fun j => src (row j)).sum).2 := by
  induction js generalizing p with
  | nil => rw [List.foldl_nil, List.map_nil, List.sum_nil, add_zero]
  | cons j js ih =>
    rw [List.foldl_cons, ← newSenderPair_add, ih, List.map_cons, List.sum_cons, add_assoc]

theorem foldl_val (src : BitVec 16 → Element f) (row : Fin 10 → BitVec 16) (js : List (Fin 10))
    (v : Element f) : js.foldl (fun dst j => dst ^^^ (src (row j)).val) v.val =
      (v + (js.map fun j => src (row j)).sum).val := by
  induction js generalizing v with
  | nil => rw [List.foldl_nil, List.map_nil, List.sum_nil, add_zero]
  | cons j js ih =>
    rw [List.foldl_cons, ← val_add, ih, List.map_cons, List.sum_cons, add_assoc]

/-- Every output with the ten elements of its row added to it. -/
def addRows {α : Type} [AddCommMonoid α] (lpnRng : σ) (src : BitVec 16 → α) (dst : List α) : List α :=
  dst.mapIdx fun i x => x + ((List.finRange 10).map fun j => src (rng.rows lpnRng i j)).sum

theorem lpnSender_eq (lpnRng : σ) (src : BitVec 16 → ZMod 2 × Element f)
    (pairs : List (ZMod 2 × Element f)) :
    lpnSender rng lpnRng (fun j => newSenderPair (src j).1 (src j).2)
        (pairs.map fun p => newSenderPair p.1 p.2) =
      some ((addRows rng lpnRng src pairs).map fun p => newSenderPair p.1 p.2) := by
  rw [lpnSender_words, addRows, map_mapIdx_map]
  exact fun i p => foldl_newSenderPair src (rng.rows lpnRng i) (List.finRange 10) p

theorem lpnReceiver_eq (lpnRng : σ) (src : BitVec 16 → Element f) (vs : List (Element f)) :
    lpnReceiver rng lpnRng src vs =
      some ((addRows rng lpnRng src vs).map Scuttlebutt.SmallBinaryField.Element.val) := by
  rw [lpnReceiver, lpnSender_words, addRows, map_mapIdx_map]
  exact fun i v => foldl_val src (rng.rows lpnRng i) (List.finRange 10) v

end

namespace ChiRng

variable {σ : Type} (rng : ChiRng σ) (f)

/-- The challenges of a chunk, two for each vector. -/
def challenges (rngChi : σ) : (Fin 4 → Element f × Element f) × σ :=
  let (randomBits, rngChi) := rng.randomBits rngChi
  (fun k =>
    let bits := Vectoreyes.U64x2.ofU8x16 (randomBits k)
    (fromLowerBits f (bits 0), fromLowerBits f (bits 1)), rngChi)

/-- The challenges of some chunks, and the generator after them. -/
def chunkChis : σ → ℕ → List (Element f) × σ
  | rngChi, 0 => ([], rngChi)
  | rngChi, chunks + 1 =>
    let (chi, rngChi) := rng.challenges f rngChi
    let (chis, rngChi) := chunkChis rngChi chunks
    (((List.finRange 4).flatMap fun k => [(chi k).1, (chi k).2]) ++ chis, rngChi)

/-- Challenges that are drawn one by one. -/
def randomChis : σ → ℕ → List (Element f)
  | _, 0 => []
  | rngChi, n + 1 => (rng.random f rngChi).1 :: randomChis (rng.random f rngChi).2 n

/-- The challenges for `n` VOLEs: those of the full chunks of eight, then one for each that is left. -/
def chis (rngChi : σ) (n : ℕ) : List (Element f) :=
  (rng.chunkChis f rngChi (n / 8)).1 ++
    rng.randomChis f (rng.chunkChis f rngChi (n / 8)).2 (n % 8)

theorem length_chunkChis (rngChi : σ) (chunks : ℕ) :
    (rng.chunkChis f rngChi chunks).1.length = chunks * 8 := by
  induction chunks generalizing rngChi with
  | zero => rfl
  | succ chunks ih =>
    rw [chunkChis]
    dsimp only
    rw [List.length_append, ih, Nat.succ_mul, Nat.add_comm]
    rfl

end ChiRng

/-! ## Products -/

/-- The sum of the products of challenges and elements. -/
def combine (chis ws : List (Element f)) : Element f := (List.zipWith (· * ·) chis ws).sum

/-- The sum of the challenges whose value is one. -/
def selection (chis : List (Element f)) (us : List (ZMod 2)) : Element f :=
  (List.zipWith (fun chi u => Scuttlebutt.SmallBinaryField.Element.scale u chi) chis us).sum

theorem val_mul (x y : Element f) : (x * y).val = f.reduce (U64x2.clmul x.val y.val) := rfl

theorem clmul_comm (x y : BitVec 64) : U64x2.clmul x y = U64x2.clmul y x := by
  have hword : Scuttlebutt.clmulWord x y = Scuttlebutt.clmulWord y x := by
    refine BinaryPolynomials.toPoly_injective ?_
    rw [Scuttlebutt.toPoly_clmulWord, Scuttlebutt.toPoly_clmulWord, mul_comm]
  rw [Scuttlebutt.clmul_eq, Scuttlebutt.clmul_eq, hword]

theorem element_mul_comm (x y : Element f) : x * y = y * x :=
  Scuttlebutt.SmallBinaryField.Element.ext (by rw [val_mul, val_mul, clmul_comm])

theorem reduce_zero (f : Scuttlebutt.SmallBinaryField) : f.reduce (0, 0) = 0 := by
  have h := f.reduce_xor (0, 0) (0, 0)
  rw [BitVec.xor_self] at h
  exact h

theorem reduce_addProducts (acu : U64x2) (x y chi chi' : Element f) :
    f.reduce (addProducts acu (x.val, y.val) (chi.val, chi'.val)) =
      f.reduce acu ^^^ (chi * x + chi' * y).val := by
  rw [addProducts, f.reduce_xor, f.reduce_xor, val_add, element_mul_comm chi, element_mul_comm chi',
    BitVec.xor_assoc]
  rfl

theorem scale_eq (u : ZMod 2) (chi : Element f) :
    (Scuttlebutt.SmallBinaryField.Element.scale u chi).val =
      chi.val &&& ~~~(BitVec.ofNat 64 u.val - 1) :=
  BitVec.and_comm _ _

/-! ## A chunk of eight -/

/-- The elements of four pairs. -/
def inOrder {α : Type} (ks : List (Fin 4)) (p : Fin 4 → α × α) : List α :=
  ks.flatMap fun k => [(p k).1, (p k).2]

theorem inOrder_cons {α : Type} (k : Fin 4) (ks : List (Fin 4)) (p : Fin 4 → α × α) :
    inOrder (k :: ks) p = (p k).1 :: (p k).2 :: inOrder ks p := rfl

theorem exists_inOrder {α : Type} {xs : List α} (h : xs.length = 8) :
    ∃ p : Fin 4 → α × α, xs = inOrder (List.finRange 4) p := by
  match xs, h with
  | [a, a', b, b', c, c', d, d'], _ =>
    have hfour : List.finRange 4 = [0, 1, 2, 3] := by decide
    exact ⟨![(a, a'), (b, b'), (c, c'), (d, d')], by rw [hfour]; rfl⟩

theorem pairAdjacent_inOrder {α : Type} (word : α → BitVec 64) (p : Fin 4 → α × α) (k : Fin 4) :
    pairAdjacent ((inOrder (List.finRange 4) p).map word) k = (word (p k).1, word (p k).2) := by
  have hfour : List.finRange 4 = [0, 1, 2, 3] := by decide
  rw [hfour]
  match k with
  | 0 => rfl
  | 1 => rfl
  | 2 => rfl
  | 3 => rfl

theorem combine_cons (chi w : Element f) (chis ws : List (Element f)) :
    combine (chi :: chis) (w :: ws) = chi * w + combine chis ws := List.sum_cons

theorem selection_cons (chi : Element f) (u : ZMod 2) (chis : List (Element f)) (us : List (ZMod 2)) :
    selection (chi :: chis) (u :: us) =
      Scuttlebutt.SmallBinaryField.Element.scale u chi + selection chis us := List.sum_cons

theorem reduce_foldl_addProducts (chi p : Fin 4 → Element f × Element f) (ks : List (Fin 4))
    (acu : U64x2) :
    f.reduce (ks.foldl (fun acu k => addProducts acu ((p k).1.val, (p k).2.val)
      ((chi k).1.val, (chi k).2.val)) acu) =
      f.reduce acu ^^^ (combine (inOrder ks chi) (inOrder ks p)).val := by
  induction ks generalizing acu with
  | nil => exact BitVec.xor_zero.symm
  | cons k ks ih =>
    rw [List.foldl_cons, ih, reduce_addProducts, inOrder_cons, inOrder_cons, combine_cons, combine_cons,
      BitVec.xor_assoc, ← val_add, add_assoc]

/-- The lanes of a vector added up. -/
def lanes (x : U64x2) : BitVec 64 := x.1 ^^^ x.2

theorem lanes_xor (x y : U64x2) : lanes (x.xor y) = lanes x ^^^ lanes y := by
  show (x.1 ^^^ y.1) ^^^ (x.2 ^^^ y.2) = (x.1 ^^^ x.2) ^^^ (y.1 ^^^ y.2)
  generalize x.1 = a, x.2 = b, y.1 = c, y.2 = d
  ac_rfl

theorem lanes_foldl_xor (chi : Fin 4 → Element f × Element f) (u : Fin 4 → ZMod 2 × ZMod 2)
    (ks : List (Fin 4)) (xStars : U64x2) :
    lanes (ks.foldl (fun xStars k => xStars.xor
      ((Scuttlebutt.SmallBinaryField.Element.scale (u k).1 (chi k).1).val,
        (Scuttlebutt.SmallBinaryField.Element.scale (u k).2 (chi k).2).val)) xStars) =
      lanes xStars ^^^ (selection (inOrder ks chi) (inOrder ks u)).val := by
  induction ks generalizing xStars with
  | nil => exact BitVec.xor_zero.symm
  | cons k ks ih =>
    rw [List.foldl_cons, ih, lanes_xor, inOrder_cons, inOrder_cons, selection_cons, selection_cons,
      val_add, val_add, lanes]
    simp only [BitVec.xor_assoc, lanes]

theorem map_inOrder {α β : Type} (g : α → β) (ks : List (Fin 4)) (p : Fin 4 → α × α) :
    (inOrder ks p).map g = inOrder ks fun k => (g (p k).1, g (p k).2) := by
  induction ks with
  | nil => rfl
  | cons k ks ih => rw [inOrder_cons, inOrder_cons, List.map_cons, List.map_cons, ih]

theorem foldl_prod {α β γ : Type} (g : α → γ → α) (h : β → γ → β) (xs : List γ) (a : α) (b : β) :
    xs.foldl (fun (s : α × β) x => (g s.1 x, h s.2 x)) (a, b) = (xs.foldl g a, xs.foldl h b) := by
  induction xs generalizing a b with
  | nil => rfl
  | cons x xs ih => exact ih _ _

theorem addPairs_eq (chi : Fin 4 → Element f × Element f) {pairs : List (ZMod 2 × Element f)}
    (hpairs : pairs.length = 8) (sums : U64x2 × U64x2) :
    f.reduce (addPairs f (fun k => ((chi k).1.val, (chi k).2.val))
        (pairs.map fun p => newSenderPair p.1 p.2) sums).1 =
      f.reduce sums.1 ^^^ (combine (inOrder (List.finRange 4) chi) (pairs.map Prod.snd)).val ∧
    lanes (addPairs f (fun k => ((chi k).1.val, (chi k).2.val))
        (pairs.map fun p => newSenderPair p.1 p.2) sums).2 =
      lanes sums.2 ^^^ (selection (inOrder (List.finRange 4) chi) (pairs.map Prod.fst)).val := by
  obtain ⟨p, rfl⟩ := exists_inOrder hpairs
  have hlane (u : ZMod 2) (w chi : Element f) : chi.val &&& ~~~(newSenderPair u w >>> 63 - 1) =
      (Scuttlebutt.SmallBinaryField.Element.scale u chi).val := by
    rw [shiftRight_newSenderPair, scale_eq]
  have hstep : addPairs f (fun k => ((chi k).1.val, (chi k).2.val))
      ((inOrder (List.finRange 4) p).map fun p => newSenderPair p.1 p.2) sums =
      (List.finRange 4).foldl (fun (s : U64x2 × U64x2) k =>
        (addProducts s.1 ((p k).1.2.val, (p k).2.2.val) ((chi k).1.val, (chi k).2.val),
          s.2.xor ((Scuttlebutt.SmallBinaryField.Element.scale (p k).1.1 (chi k).1).val,
            (Scuttlebutt.SmallBinaryField.Element.scale (p k).2.1 (chi k).2).val))) sums := by
    unfold addPairs
    refine congrArg (fun g => (List.finRange 4).foldl g sums) (funext fun s => funext fun k => ?_)
    rw [pairAdjacent_inOrder (fun p : ZMod 2 × Element f => newSenderPair p.1 p.2)]
    simp only [U64x2.and, U64x2.broadcast, newSenderPair_and_mask, U64x2.andNot, U64x2.sub,
      U64x2.shiftRight, hlane]
  rw [hstep, map_inOrder, map_inOrder]
  obtain ⟨acu, xStars⟩ := sums
  have hprod := foldl_prod
    (fun acu k => addProducts acu ((p k).1.2.val, (p k).2.2.val) ((chi k).1.val, (chi k).2.val))
    (fun xStars k => xStars.xor ((Scuttlebutt.SmallBinaryField.Element.scale (p k).1.1 (chi k).1).val,
      (Scuttlebutt.SmallBinaryField.Element.scale (p k).2.1 (chi k).2).val))
    (List.finRange 4) acu xStars
  have hacu := reduce_foldl_addProducts chi (fun k => ((p k).1.2, (p k).2.2)) (List.finRange 4) acu
  have hstars := lanes_foldl_xor chi (fun k => ((p k).1.1, (p k).2.1)) (List.finRange 4) xStars
  exact ⟨(congrArg (fun s => f.reduce s.1) hprod).trans hacu,
    (congrArg (fun s => lanes s.2) hprod).trans hstars⟩

/-! ## All chunks -/

section

variable {σ : Type} (rng : ChiRng σ)

theorem sum_zipWith_append {α : Type} (g : Element f → α → Element f) {chis chis' : List (Element f)}
    {xs xs' : List α} (h : chis.length = xs.length) :
    (List.zipWith g (chis ++ chis') (xs ++ xs')).sum =
      (List.zipWith g chis xs).sum + (List.zipWith g chis' xs').sum := by
  rw [List.zipWith_append h, List.sum_append]

theorem combine_append {chis chis' ws ws' : List (Element f)} (h : chis.length = ws.length) :
    combine (chis ++ chis') (ws ++ ws') = combine chis ws + combine chis' ws' :=
  sum_zipWith_append _ h

theorem selection_append {chis chis' : List (Element f)} {us us' : List (ZMod 2)}
    (h : chis.length = us.length) :
    selection (chis ++ chis') (us ++ us') = selection chis us + selection chis' us' :=
  sum_zipWith_append _ h

theorem length_inOrder {α : Type} (p : Fin 4 → α × α) : (inOrder (List.finRange 4) p).length = 8 := by
  have hfour : List.finRange 4 = [0, 1, 2, 3] := by decide
  rw [hfour]
  rfl

theorem chunkChis_succ (rngChi : σ) (chunks : ℕ) : rng.chunkChis f rngChi (chunks + 1) =
    (inOrder (List.finRange 4) (rng.challenges f rngChi).1 ++
      (rng.chunkChis f (rng.challenges f rngChi).2 chunks).1,
      (rng.chunkChis f (rng.challenges f rngChi).2 chunks).2) := rfl

theorem reduce_chunks (chunks : List (List (Element f))) (hchunks : ∀ c ∈ chunks, c.length = 8)
    (acu : U64x2) (rngChi : σ) :
    let s := chunks.foldl (fun (acu, rngChi) chunk =>
      let chunk := pairAdjacent (chunk.map Scuttlebutt.SmallBinaryField.Element.val)
      let (random, rngChi) := rng.randomFieldElements f rngChi
      ((List.finRange 4).foldl (fun acu k => addProducts acu (chunk k) (random k)) acu, rngChi))
      (acu, rngChi)
    f.reduce s.1 = f.reduce acu ^^^
        (combine (rng.chunkChis f rngChi chunks.length).1 chunks.flatten).val ∧
      s.2 = (rng.chunkChis f rngChi chunks.length).2 := by
  induction chunks generalizing acu rngChi with
  | nil => exact ⟨BitVec.xor_zero.symm, rfl⟩
  | cons chunk chunks ih =>
    obtain ⟨hchunk, hrest⟩ := List.forall_mem_cons.1 hchunks
    obtain ⟨p, rfl⟩ := exists_inOrder hchunk
    have hfirst := reduce_foldl_addProducts (rng.challenges f rngChi).1 p (List.finRange 4) acu
    simp only [← pairAdjacent_inOrder Scuttlebutt.SmallBinaryField.Element.val p] at hfirst
    obtain ⟨hvalue, hrng⟩ := ih hrest ((List.finRange 4).foldl (fun acu k => addProducts acu
      (pairAdjacent ((inOrder (List.finRange 4) p).map Scuttlebutt.SmallBinaryField.Element.val) k)
      (((rng.challenges f rngChi).1 k).1.val, ((rng.challenges f rngChi).1 k).2.val)) acu)
      (rng.challenges f rngChi).2
    refine ⟨?_, hrng⟩
    rw [List.length_cons, chunkChis_succ, List.flatten_cons,
      combine_append ((length_inOrder _).trans (length_inOrder p).symm), val_add, ← BitVec.xor_assoc,
      ← hfirst]
    exact hvalue

theorem sums_chunks (chunks : List (List (ZMod 2 × Element f))) (hchunks : ∀ c ∈ chunks, c.length = 8)
    (sums : U64x2 × U64x2) (rngChi : σ) :
    let s := (chunks.map fun c => c.map fun p => newSenderPair p.1 p.2).foldl
      (fun (sums, rngChi) chunk =>
        let (random, rngChi) := rng.randomFieldElements f rngChi
        (addPairs f random chunk sums, rngChi)) (sums, rngChi)
    f.reduce s.1.1 = f.reduce sums.1 ^^^
        (combine (rng.chunkChis f rngChi chunks.length).1 (chunks.flatten.map Prod.snd)).val ∧
      lanes s.1.2 = lanes sums.2 ^^^
        (selection (rng.chunkChis f rngChi chunks.length).1 (chunks.flatten.map Prod.fst)).val ∧
      s.2 = (rng.chunkChis f rngChi chunks.length).2 := by
  induction chunks generalizing sums rngChi with
  | nil => exact ⟨BitVec.xor_zero.symm, BitVec.xor_zero.symm, rfl⟩
  | cons chunk chunks ih =>
    obtain ⟨hchunk, hrest⟩ := List.forall_mem_cons.1 hchunks
    obtain ⟨hproducts, hstars⟩ := addPairs_eq (rng.challenges f rngChi).1 hchunk sums
    obtain ⟨hva, hx, hrng⟩ := ih hrest (addPairs f (fun k => (((rng.challenges f rngChi).1 k).1.val,
      ((rng.challenges f rngChi).1 k).2.val)) (chunk.map fun p => newSenderPair p.1 p.2) sums)
      (rng.challenges f rngChi).2
    have hlen (α : Type) (g : ZMod 2 × Element f → α) :
        (inOrder (List.finRange 4) (rng.challenges f rngChi).1).length = (chunk.map g).length := by
      rw [length_inOrder, List.length_map, hchunk]
    rw [List.length_cons, chunkChis_succ, List.flatten_cons, List.map_append, List.map_append]
    refine ⟨?_, ?_, hrng⟩
    · rw [combine_append (hlen _ Prod.snd), val_add, ← BitVec.xor_assoc, ← hproducts]
      exact hva
    · rw [selection_append (hlen _ Prod.fst), val_add, ← BitVec.xor_assoc, ← hstars]
      exact hx

/-! ## What is left over -/

theorem genericComputeVb_eq (y : Element f) (vs : List (Element f)) (rngChi : σ) :
    genericComputeVb rng y vs rngChi = combine (rng.randomChis f rngChi vs.length) vs - y := by
  have hfold (sum : Element f) : (vs.foldl (fun s v =>
      (s.1 + v * (rng.random f s.2).1, (rng.random f s.2).2)) (sum, rngChi)).1 =
        sum + combine (rng.randomChis f rngChi vs.length) vs := by
    induction vs generalizing rngChi sum with
    | nil => exact (add_zero sum).symm
    | cons v vs ih =>
      rw [List.foldl_cons, List.length_cons, ChiRng.randomChis, combine_cons, ← add_assoc,
        element_mul_comm]
      exact ih _ _
  exact congrArg (· - y) ((hfold 0).trans (zero_add _))

theorem zipWith_decompose (u : ZMod 2) (x chi : Element f) :
    List.Vector.zipWith (fun a b => a + u * b) (Scuttlebutt.decompose f.numBits x.val)
      (Scuttlebutt.decompose f.numBits chi.val) =
    Scuttlebutt.decompose f.numBits (x + Scuttlebutt.SmallBinaryField.Element.scale u chi).val := by
  have hscale : (Scuttlebutt.decompose f.numBits
        (Scuttlebutt.SmallBinaryField.Element.scale u chi).val).toList =
      (Scuttlebutt.decompose f.numBits chi.val).toList.map (u * ·) := by
    rw [← Scuttlebutt.decompose_scale]
    exact congrArg (fun x => (Scuttlebutt.decompose f.numBits x).toList) (f.words.word_scale u chi)
  apply List.Vector.eq
  rw [List.Vector.zipWith_toList, val_add, Scuttlebutt.decompose_xor, hscale, List.zipWith_map_right]

theorem zipWith_add_decompose (x y : Element f) :
    List.Vector.zipWith (· + ·) (Scuttlebutt.decompose f.numBits x.val)
        (Scuttlebutt.decompose f.numBits y.val) =
      Scuttlebutt.decompose f.numBits (x + y).val := by
  apply List.Vector.eq
  rw [List.Vector.zipWith_toList, val_add, Scuttlebutt.decompose_xor]

theorem scale_zero (chi : Element f) : Scuttlebutt.SmallBinaryField.Element.scale 0 chi = 0 :=
  Scuttlebutt.SmallBinaryField.Element.ext (by
    rw [scale_eq]
    exact BitVec.and_zero)

theorem genericComputeVa_step (va x : Element f) (rngChi : σ) (p : ZMod 2 × Element f) :
    (let (u, w) := extractSenderPair f (newSenderPair p.1 p.2)
      let (chi, rngChi) := rng.random f rngChi
      let va := va + chi * w
      if u ≠ 0 then
        (va, List.Vector.zipWith (fun x y => x + u * y) (Scuttlebutt.decompose f.numBits x.val)
          (Scuttlebutt.decompose f.numBits chi.val), rngChi)
      else
        (va, Scuttlebutt.decompose f.numBits x.val, rngChi)) =
    (va + (rng.random f rngChi).1 * p.2, Scuttlebutt.decompose f.numBits
      (x + Scuttlebutt.SmallBinaryField.Element.scale p.1 (rng.random f rngChi).1).val,
      (rng.random f rngChi).2) := by
  rw [extractSenderPair_newSenderPair]
  dsimp only
  split_ifs with h
  · rw [zipWith_decompose]
  · rw [not_not.1 h, scale_zero, add_zero]

theorem genericComputeVa_eq (pairs : List (ZMod 2 × Element f)) (rngChi : σ) :
    genericComputeVa rng f (pairs.map fun p => newSenderPair p.1 p.2) rngChi =
      (combine (rng.randomChis f rngChi pairs.length) (pairs.map Prod.snd),
        Scuttlebutt.decompose f.numBits
          (selection (rng.randomChis f rngChi pairs.length) (pairs.map Prod.fst)).val) := by
  have hfold (va x : Element f) : ∃ rngChi', (pairs.map fun p => newSenderPair p.1 p.2).foldl
      (fun (va, xStars, rngChi) pair =>
        let (u, w) := extractSenderPair f pair
        let (chi, rngChi) := rng.random f rngChi
        let va := va + chi * w
        if u ≠ 0 then
          (va, List.Vector.zipWith (fun x y => x + u * y) xStars
            (Scuttlebutt.decompose f.numBits chi.val), rngChi)
        else
          (va, xStars, rngChi)) (va, Scuttlebutt.decompose f.numBits x.val, rngChi) =
      (va + combine (rng.randomChis f rngChi pairs.length) (pairs.map Prod.snd),
        Scuttlebutt.decompose f.numBits
          (x + selection (rng.randomChis f rngChi pairs.length) (pairs.map Prod.fst)).val, rngChi') := by
    induction pairs generalizing rngChi va x with
    | nil => exact ⟨rngChi, by rw [List.length_nil, ChiRng.randomChis, combine, selection,
        List.zipWith_nil_left, List.zipWith_nil_left, List.sum_nil, add_zero, add_zero]; rfl⟩
    | cons p pairs ih =>
      obtain ⟨rngChi', hrest⟩ := ih (rng.random f rngChi).2 (va + (rng.random f rngChi).1 * p.2)
        (x + Scuttlebutt.SmallBinaryField.Element.scale p.1 (rng.random f rngChi).1)
      refine ⟨rngChi', ?_⟩
      rw [List.map_cons, List.foldl_cons, List.length_cons, ChiRng.randomChis, List.map_cons,
        List.map_cons, combine_cons, selection_cons, ← add_assoc, ← add_assoc, ← hrest]
      exact congrArg (fun s => List.foldl _ s _) (genericComputeVa_step rng va x rngChi p)
  have hzero : List.Vector.replicate f.numBits (0 : ZMod 2) =
      Scuttlebutt.decompose f.numBits (0 : Element f).val := by
    cases f <;> decide
  obtain ⟨rngChi', hfold⟩ := hfold 0 0
  rw [zero_add, zero_add] at hfold
  rw [genericComputeVa, hzero, hfold]

/-! ## The checks -/

theorem length_exact {α : Type} (xs : List α) : (Chunks.exact 8 xs).length = xs.length / 8 := by
  rw [Chunks.exact, List.length_map, List.length_range]

theorem length_remainder {α : Type} (xs : List α) : (Chunks.remainder 8 xs).length = xs.length % 8 := by
  rw [Chunks.remainder, List.length_drop]
  omega

theorem length_flatten_exact {α : Type} (xs : List α) :
    (Chunks.exact 8 xs).flatten.length = xs.length / 8 * 8 := by
  have hall := congrArg List.length (Chunks.flatten_exact_append_remainder 8 xs)
  rw [List.length_append, length_remainder] at hall
  omega

theorem sum_zipWith_chis {α : Type} (g : Element f → α → Element f) (rngChi : σ) (xs : List α) :
    (List.zipWith g (rng.chis f rngChi xs.length) xs).sum =
      (List.zipWith g (rng.chunkChis f rngChi (xs.length / 8)).1 (Chunks.exact 8 xs).flatten).sum +
        (List.zipWith g (rng.randomChis f (rng.chunkChis f rngChi (xs.length / 8)).2
          (xs.length % 8)) (Chunks.remainder 8 xs)).sum := by
  have hlen : (rng.chunkChis f rngChi (xs.length / 8)).1.length =
      (Chunks.exact 8 xs).flatten.length := by
    rw [ChiRng.length_chunkChis, length_flatten_exact]
  rw [ChiRng.chis, ← sum_zipWith_append g hlen, Chunks.flatten_exact_append_remainder]

theorem combine_chis (rngChi : σ) (ws : List (Element f)) :
    combine (rng.chis f rngChi ws.length) ws =
      combine (rng.chunkChis f rngChi (ws.length / 8)).1 (Chunks.exact 8 ws).flatten +
        combine (rng.randomChis f (rng.chunkChis f rngChi (ws.length / 8)).2 (ws.length % 8))
          (Chunks.remainder 8 ws) :=
  sum_zipWith_chis rng _ rngChi ws

theorem selection_chis (rngChi : σ) (us : List (ZMod 2)) :
    selection (rng.chis f rngChi us.length) us =
      selection (rng.chunkChis f rngChi (us.length / 8)).1 (Chunks.exact 8 us).flatten +
        selection (rng.randomChis f (rng.chunkChis f rngChi (us.length / 8)).2 (us.length % 8))
          (Chunks.remainder 8 us) :=
  sum_zipWith_chis rng _ rngChi us

theorem computeVb_eq (y : Element f) (vs : List (Element f)) (rngChi : σ) :
    computeVb rng y vs rngChi = (combine (rng.chis f rngChi vs.length) vs - y).val := by
  obtain ⟨hvalue, hrng⟩ := reduce_chunks rng (Chunks.exact 8 vs)
    (fun c hc => Chunks.length_of_mem_exact hc) (0, 0) rngChi
  rw [reduce_zero, length_exact] at hvalue
  rw [length_exact] at hrng
  rw [computeVb]
  dsimp only
  rw [hvalue, hrng, genericComputeVb_eq, length_remainder, combine_chis, add_sub_assoc, add_comm,
    val_add]
  show _ ^^^ (0#64 ^^^ _) = _
  rw [BitVec.zero_xor]

theorem remainder_map {α β : Type} (g : α → β) (xs : List α) :
    Chunks.remainder 8 (xs.map g) = (Chunks.remainder 8 xs).map g := by
  rw [Chunks.remainder, Chunks.remainder, List.length_map, List.map_drop]

theorem computeVa_eq (pairs : List (ZMod 2 × Element f)) (rngChi : σ) :
    computeVa rng f (pairs.map fun p => newSenderPair p.1 p.2) rngChi =
      ((combine (rng.chis f rngChi pairs.length) (pairs.map Prod.snd)).val,
        Scuttlebutt.decompose f.numBits
          (selection (rng.chis f rngChi pairs.length) (pairs.map Prod.fst)).val) := by
  obtain ⟨hva, hstars, hrng⟩ := sums_chunks rng (Chunks.exact 8 pairs)
    (fun c hc => Chunks.length_of_mem_exact hc) ((0, 0), (0, 0)) rngChi
  rw [reduce_zero, length_exact] at hva
  rw [length_exact] at hstars hrng
  have hflat (α : Type) (g : ZMod 2 × Element f → α) :
      (Chunks.exact 8 pairs).flatten.map g = (Chunks.exact 8 (pairs.map g)).flatten := by
    rw [Chunks.exact_map, List.map_flatten]
  have hcombine := combine_chis rng rngChi (pairs.map Prod.snd)
  have hselection := selection_chis (f := f) rng rngChi (pairs.map Prod.fst)
  rw [List.length_map, remainder_map, ← hflat] at hcombine hselection
  rw [computeVa]
  dsimp only
  rw [Chunks.exact_map, hva, hrng, remainder_map, genericComputeVa_eq, length_remainder]
  refine Prod.ext ?_ ?_
  · rw [hcombine, val_add]
    show (0#64 ^^^ _) ^^^ _ = _
    rw [BitVec.zero_xor]
  · replace hstars := congrArg (fromLowerBits f) hstars
    rw [show lanes ((0, 0), ((0 : BitVec 64), (0 : BitVec 64))).2 = 0#64 from rfl, BitVec.zero_xor,
      fromLowerBits_val] at hstars
    rw [hselection, add_comm, ← zipWith_add_decompose, ← hstars]
    rfl

end

/-- The words of the specialization hold what the plain computation gives: pairs are taken apart again,
rows are added component by component, and both parties' checks are sums over the same challenges. -/
theorem specialization_correct (f : Scuttlebutt.SmallBinaryField) {σ τ : Type} (lpn : LpnRng σ)
    (chi : ChiRng τ) (lpnSeed : σ) (chiSeed : τ) (srcPairs : BitVec 16 → ZMod 2 × Element f)
    (srcVs : BitVec 16 → Element f) (voles : List (ZMod 2 × Element f × Element f)) (y : Element f) :
    (∀ (u : ZMod 2) (w : Element f), extractSenderPair f (newSenderPair u w) = (u, w)) ∧
    lpnSender lpn lpnSeed (fun j => newSenderPair (srcPairs j).1 (srcPairs j).2)
        (voles.map fun vole => newSenderPair vole.1 vole.2.1) =
      some ((addRows lpn lpnSeed srcPairs (voles.map fun vole => (vole.1, vole.2.1))).map
        fun p => newSenderPair p.1 p.2) ∧
    lpnReceiver lpn lpnSeed srcVs (voles.map fun vole => vole.2.2) =
      some ((addRows lpn lpnSeed srcVs (voles.map fun vole => vole.2.2)).map
        Scuttlebutt.SmallBinaryField.Element.val) ∧
    computeVa chi f (voles.map fun vole => newSenderPair vole.1 vole.2.1) chiSeed =
      ((combine (chi.chis f chiSeed voles.length) (voles.map fun vole => vole.2.1)).val,
        Scuttlebutt.decompose f.numBits
          (selection (chi.chis f chiSeed voles.length) (voles.map fun vole => vole.1)).val) ∧
    computeVb chi y (voles.map fun vole => vole.2.2) chiSeed =
      (combine (chi.chis f chiSeed voles.length) (voles.map fun vole => vole.2.2) - y).val := by
  have hsender := lpnSender_eq lpn lpnSeed srcPairs (voles.map fun vole => (vole.1, vole.2.1))
  have hva := computeVa_eq chi (voles.map fun vole => (vole.1, vole.2.1)) chiSeed
  have hvb := computeVb_eq chi y (voles.map fun vole => vole.2.2) chiSeed
  rw [List.map_map] at hsender
  rw [List.map_map, List.map_map, List.map_map, List.length_map] at hva
  rw [List.length_map] at hvb
  exact ⟨extractSenderPair_newSenderPair, hsender, lpnReceiver_eq lpn lpnSeed srcVs _, hva, hvb⟩

end EdaBitGen.MacNCheese.Specialization
