import EdaBitGen.Svole.Reconstruction

/-!
# Single-point correlations

One call of the single-point protocol turns base correlations into blocks of `n` correlations, of
which the sender knows the value of exactly one per block, at a place of its choice.  Both parties
are honest here: the oblivious transfers give the chosen keys, and the values compared in the end
come from the same randomness.
-/

namespace EdaBitGen

/-- A field over its prime field, with the powers of its generator as a basis. -/
structure Extension (F FE : Type) [Field F] [Field FE] [Algebra F FE] where
  generator : FE
  degree : ℕ
  decompose : FE → Fin degree → F
  sum_decompose : ∀ x, ∑ j, decompose x j • generator ^ (j : ℕ) = x

/-- The randomness of one call: the values and the places that the sender draws, the seeds that the
receiver draws, and what the seed of the check expands to. -/
structure Coins (F FE : Type) [Zero F] where
  beta : ℕ → F
  beta_ne_zero : ∀ i, beta i ≠ 0
  alpha : ℕ → ℕ → ℕ
  alpha_lt : ∀ {n : ℕ}, 0 < n → ∀ i, alpha n i < n
  seed : ℕ → U8x16
  chi : ℕ → FE

/-- What both parties hold in common: the permutations and the batch size of the tree. -/
structure Tree (FE : Type) where
  aes : Aes
  fromUniformBytes : U8x16 → FE
  blocks : ℕ

/-- The number of seeds that are expanded together. -/
def Tree.hint {FE : Type} (t : Tree FE) : ℕ := 2 ^ t.blocks

/-- The sender's keys and the leaves for the receiver's seed, named after the function. -/
def Tree.ggm {FE : Type} (t : Tree FE) (depth : ℕ) (seed : U8x16) :
    List (U8x16 × U8x16) × List FE :=
  EdaBitGen.ggm t.fromUniformBytes t.hint t.aes depth seed

variable {F FE : Type} [Field F] [Field FE] [Algebra F FE]

/-- The receiver's part of a correlation. -/
def voleKey (delta : FE) (uw : F × FE) : FE :=
  uw.2 - uw.1 • delta

/-- Each pair of the sender satisfies `w = v + u * delta`. -/
def VoleCorrelated (delta : FE) (uws : List (F × FE)) (vs : List FE) : Prop :=
  List.Forall₂ (fun uw v => uw.2 = v + algebraMap F FE uw.1 * delta) uws vs

theorem voleCorrelated_iff {delta : FE} {uws : List (F × FE)} {vs : List FE} :
    VoleCorrelated delta uws vs ↔ vs = uws.map (voleKey delta) := by
  constructor
  · intro h
    induction h with
    | nil => rfl
    | cons huw _ ih =>
      rw [List.map_cons, ← ih, voleKey, huw, Algebra.smul_def, add_sub_cancel_right]
  · rintro rfl
    induction uws with
    | nil => exact List.Forall₂.nil
    | cons uw uws ih =>
      refine List.Forall₂.cons ?_ ih
      rw [voleKey, Algebra.smul_def, sub_add_cancel]

/-! ## One block -/

/-- The number of bits of a place in a block. -/
def nbits (n : ℕ) : ℕ := (n - 1).size

/-- The choices of the transfers: the complement of `alpha`, highest bit first. -/
def choices (nbits alpha : ℕ) : List Bool :=
  ((List.range nbits).map fun i => !alpha.testBit i).reverse

/-- The transfers. -/
def otReceive (keys : List (U8x16 × U8x16)) (cs : List Bool) : List U8x16 :=
  List.zipWith (fun k c => if c then k.2 else k.1) keys cs

section Block

variable (t : Tree FE) (delta : FE) (n : ℕ)

/-- The receiver's last message of a block, from its base correlation and the sender's message. -/
def SpsReceiver.correction (v : FE) (aPrime : F) (leaves : List FE) : FE :=
  (v - aPrime • delta) - leaves.sum

/-- The sender's block: the leaves it rebuilds, with its value and the corrected one at `alpha`. -/
def SpsSender.block (w : FE) (beta : F) (alpha : ℕ) (otOutput : List U8x16) (d : FE) :
    Option (List (F × FE)) :=
  (ggmPrime t.fromUniformBytes t.hint alpha otOutput t.aes (List.replicate n (0 : F))
    (List.replicate (2 * 2 ^ otOutput.length - 2) 0)).map fun out =>
      out.2.set alpha (beta, w - (d + out.1))

/-- A block of both parties. -/
def spsBlock (coins : Coins F FE) (i : ℕ) (uw : F × FE) (v : FE) :
    Option (List (F × FE) × List FE) :=
  let beta := coins.beta i
  let aPrime := beta - uw.1
  let alpha := coins.alpha n i
  let (keys, leaves) := t.ggm (nbits n) (coins.seed i)
  let d := SpsReceiver.correction delta v aPrime leaves
  (SpsSender.block t n uw.2 beta alpha (otReceive keys (choices (nbits n) alpha)) d).map fun uws =>
    (uws, leaves)

end Block

section Check

variable [DecidableEq F] (ext : Extension F FE)

/-- The powers of the generator. -/
def Extension.powers : List FE :=
  List.ofFn fun j : Fin ext.degree => ext.generator ^ (j : ℕ)

/-- The coefficients that the sender masks and sends. -/
def SpsSender.xStar (chi : ℕ → FE) (uws : List (F × FE)) (j : Fin ext.degree) : F :=
  (uws.mapIdx fun i uw => if uw.1 ≠ 0 then uw.1 * ext.decompose (chi i) j else 0).sum

/-- The sender's messages of the check. -/
def SpsSender.masked (chi : ℕ → FE) (uws base : List (F × FE)) : List F :=
  List.zipWith (fun x xz => x - xz.1) (List.ofFn (SpsSender.xStar ext chi uws)) base

/-- The value that the sender compares. -/
def SpsSender.va (chi : ℕ → FE) (uws base : List (F × FE)) : FE :=
  (uws.mapIdx fun i uw => chi i * uw.2).sum -
    (List.zipWith (fun pow xz => pow * xz.2) ext.powers base).sum

/-- The value that the receiver compares. -/
def SpsReceiver.vb (delta : FE) (chi : ℕ → FE) (vs yStars : List FE) (xStars : List F) : FE :=
  (vs.mapIdx fun i v => v * chi i).sum -
    (List.zipWith (fun pow xy => (xy.2 - xy.1 • delta) * pow) ext.powers (xStars.zip yStars)).sum

end Check

/-- Both parties' call on `t` base correlations and `r` for the check. -/
def sps [DecidableEq F] [DecidableEq FE] (ext : Extension F FE) (t : Tree FE) (delta : FE) (n : ℕ)
    (coins : Coins F FE) (base : List (F × FE)) (keys : List FE) :
    Option (List (F × FE) × List FE) := do
  let size := base.length - ext.degree
  let blocks ← ((base.take size).zip (keys.take size)).zipIdx.mapM fun b =>
    spsBlock t delta n coins b.2 b.1.1 b.1.2
  let uws := (blocks.map Prod.fst).flatten
  let vs := (blocks.map Prod.snd).flatten
  let xStars := SpsSender.masked ext coins.chi uws (base.drop size)
  if SpsSender.va ext coins.chi uws (base.drop size) =
      SpsReceiver.vb ext delta coins.chi vs (keys.drop size) xStars then
    some (uws, vs)
  else none

/-! ## The correlation -/

section Proofs

variable {delta : FE}

theorem choices_eq (keys : List (U8x16 × U8x16)) (alpha : ℕ) :
    otReceive keys (choices keys.length alpha) = selectedKeys alpha keys := by
  refine List.ext_getElem (by simp [otReceive, choices, selectedKeys]) fun i h₁ h₂ => ?_
  have hi : i < keys.length := by simpa [selectedKeys] using h₂
  simp only [otReceive, choices, selectedKeys, List.getElem_zipWith, List.getElem_reverse,
    List.getElem_map, List.getElem_range, List.length_map, List.length_range, List.getElem_mapIdx,
    Nat.testBit, Nat.one_and_eq_mod_two]
  rcases Nat.mod_two_eq_zero_or_one (alpha >>> (keys.length - 1 - i)) with h | h <;> simp [h]

theorem nbits_pow {depth : ℕ} (h : 0 < depth) : nbits (2 ^ depth) = depth := by
  refine le_antisymm (Nat.size_le.2 (Nat.sub_lt (Nat.two_pow_pos depth) Nat.one_pos)) ?_
  obtain ⟨d, rfl⟩ : ∃ d, depth = d + 1 := ⟨depth - 1, by omega⟩
  refine Nat.lt_size.2 ?_
  have hpos := Nat.two_pow_pos d
  rw [pow_succ]
  omega

theorem map_set_voleKey {ws leaves : List FE} {last : F × FE} {alpha n : ℕ}
    (hlen : ws.length = leaves.length) (hn : leaves.length = n)
    (hws : ∀ j < leaves.length, j ≠ alpha → ws[j]? = leaves[j]?)
    (hlast : voleKey delta last = leaves.getD alpha 0) :
    leaves = (((List.replicate n (0 : F)).zip ws).set alpha last).map (voleKey delta) := by
  refine List.ext_getElem (by simp [hlen, hn]) fun j h₁ h₂ => ?_
  rw [List.getElem_map]
  by_cases hja : j = alpha
  · subst hja
    rw [List.getElem_set_self, hlast]
    simp [List.getD_eq_getElem?_getD, h₁]
  · have hw := hws j h₁ hja
    rw [List.getElem?_eq_getElem (hlen.symm ▸ h₁), List.getElem?_eq_getElem h₁,
      Option.some_inj] at hw
    rw [List.getElem_set_ne (Ne.symm hja), List.getElem_zip, hw]
    simp [voleKey]

/-- What the sender rebuilds of a tree, whatever the storage holds; with its value and the corrected
one at `alpha`, it is correlated with the leaves where the base correlation is. -/
theorem ggmPrime_otReceive (delta : FE) (t : Tree FE) {depth : ℕ} (hdepth : 2 ≤ depth) (seed : U8x16)
    {alpha : ℕ} (halpha : alpha < 2 ^ depth) {tmpStorage : List U8x16}
    (hstorage : tmpStorage.length = 2 * 2 ^ depth - 2) (beta : F) (uw : F × FE) :
    ∃ sum ws, ws.length = 2 ^ depth ∧
      ggmPrime t.fromUniformBytes t.hint alpha
        (otReceive (t.ggm depth seed).1 (choices depth alpha)) t.aes
        (List.replicate (2 ^ depth) (0 : F)) tmpStorage =
          some (sum, (List.replicate (2 ^ depth) 0).zip ws) ∧
      (t.ggm depth seed).2 = (((List.replicate (2 ^ depth) (0 : F)).zip ws).set alpha (beta, uw.2 -
        (SpsReceiver.correction delta (voleKey delta uw) (beta - uw.1) (t.ggm depth seed).2 + sum))).map
          (voleKey delta) := by
  let leaves := (tree t.aes seed depth).map t.fromUniformBytes
  let others := ∑ i ∈ (Finset.range (2 ^ depth)).erase alpha, leaves.getD i 0
  obtain ⟨ws, hlen, hleaf, hrun⟩ := ggmPrime_otKeys t.fromUniformBytes t.blocks t.aes seed hdepth
    halpha (List.length_replicate : (List.replicate (2 ^ depth) (0 : F)).length = 2 ^ depth) hstorage
  have hleaves : leaves.length = 2 ^ depth := by
    rw [List.length_map, length_tree]
  have hkeys : otReceive ((List.range depth).map (levelKeys t.aes seed)) (choices depth alpha) =
      otKeys t.aes seed alpha depth := by
    have hchoices := choices_eq ((List.range depth).map (levelKeys t.aes seed)) alpha
    rw [List.length_map, List.length_range] at hchoices
    rw [hchoices, otKeys]
  have hsum : leaves.sum = leaves.getD alpha 0 + others := by
    rw [← List.map_id leaves, sum_map_getD id 0, hleaves,
      ← Finset.add_sum_erase _ _ (Finset.mem_range.2 halpha)]
    simp only [id_eq, List.map_id]
    rfl
  let last : F × FE := (beta, uw.2 -
    (SpsReceiver.correction delta (voleKey delta uw) (beta - uw.1) leaves + others))
  have hlast : voleKey delta last = leaves.getD alpha 0 := by
    simp only [last, voleKey, SpsReceiver.correction, hsum, sub_smul]
    ring
  refine ⟨others, ws, hlen, ?_, ?_⟩
  · rw [Tree.ggm, ggm_eq]
    simp only [Tree.hint]
    rw [hkeys, hrun]
  · rw [Tree.ggm, ggm_eq]
    exact map_set_voleKey (hlen.trans hleaves.symm) hleaves
      (fun j hj hja => hleaf j (hleaves ▸ hj) hja) hlast

omit [Field FE] in
theorem length_ggm_keys (t : Tree FE) (depth : ℕ) (seed : U8x16) :
    (t.ggm depth seed).1.length = depth := by
  rw [Tree.ggm, ggm_eq, List.length_map, List.length_range]

omit [Field FE] in
theorem length_ggm_leaves (t : Tree FE) (depth : ℕ) (seed : U8x16) :
    (t.ggm depth seed).2.length = 2 ^ depth := by
  rw [Tree.ggm, ggm_eq, List.length_map, length_tree]

theorem length_otReceive {keys : List (U8x16 × U8x16)} {cs : List Bool}
    (h : keys.length = cs.length) : (otReceive keys cs).length = cs.length := by
  simp [otReceive, h]

theorem length_choices (nbits alpha : ℕ) : (choices nbits alpha).length = nbits := by
  simp [choices]

theorem spsBlock_correlated (delta : FE) (t : Tree FE) {depth : ℕ} (hdepth : 2 ≤ depth) (coins : Coins F FE)
    (i : ℕ) (uw : F × FE) :
    ∃ out, spsBlock t delta (2 ^ depth) coins i uw (voleKey delta uw) = some out ∧
      out.2.length = 2 ^ depth ∧ VoleCorrelated delta out.1 out.2 := by
  obtain ⟨sum, ws, -, hrun, hleaves⟩ := ggmPrime_otReceive delta t hdepth (coins.seed i)
    (coins.alpha_lt (Nat.two_pow_pos depth) i)
    (List.length_replicate : (List.replicate (2 * 2 ^ depth - 2) (0 : U8x16)).length =
      2 * 2 ^ depth - 2) (coins.beta i) uw
  have hlength : (otReceive (t.ggm depth (coins.seed i)).1
      (choices depth (coins.alpha (2 ^ depth) i))).length = depth := by
    rw [length_otReceive (by rw [length_ggm_keys, length_choices]), length_choices]
  refine ⟨(_, (t.ggm depth (coins.seed i)).2), ?_, length_ggm_leaves _ _ _,
    voleCorrelated_iff.2 hleaves⟩
  rw [spsBlock, nbits_pow (by omega)]
  simp only [SpsSender.block, hlength, hrun]
  rfl

theorem mapM_spsBlock (delta : FE) (t : Tree FE) {depth : ℕ} (hdepth : 2 ≤ depth) (coins : Coins F FE)
    (base : List (F × FE)) (k : ℕ) :
    ∃ blocks, ((base.zip (base.map (voleKey delta))).zipIdx k).mapM
        (fun b => spsBlock t delta (2 ^ depth) coins b.2 b.1.1 b.1.2) = some blocks ∧
      (blocks.map Prod.snd).flatten.length = base.length * 2 ^ depth ∧
      VoleCorrelated delta (blocks.map Prod.fst).flatten (blocks.map Prod.snd).flatten := by
  induction base generalizing k with
  | nil => exact ⟨[], rfl, by simp, List.Forall₂.nil⟩
  | cons uw base ih =>
    obtain ⟨out, hout, hlen, hcor⟩ := spsBlock_correlated delta t hdepth coins k uw
    obtain ⟨blocks, hblocks, hlens, hcors⟩ := ih (k + 1)
    refine ⟨out :: blocks, ?_, ?_, List.rel_append hcor hcors⟩
    · rw [List.map_cons, List.zip_cons_cons, List.zipIdx_cons, List.mapM_cons, hout, hblocks]
      rfl
    · rw [List.map_cons, List.flatten_cons, List.length_append, hlen, hlens, List.length_cons]
      ring

variable [DecidableEq F] (ext : Extension F FE)

theorem sum_xStar (chi : ℕ → FE) (uws : List (F × FE)) :
    ∑ j, SpsSender.xStar ext chi uws j • ext.generator ^ (j : ℕ) =
      ∑ i ∈ Finset.range uws.length, (uws.getD i (0, 0)).1 • chi i := by
  have hx : ∀ j, SpsSender.xStar ext chi uws j =
      ∑ i ∈ Finset.range uws.length, (uws.getD i (0, 0)).1 * ext.decompose (chi i) j := fun j => by
    rw [SpsSender.xStar, sum_mapIdx _ (0, 0)]
    refine Finset.sum_congr rfl fun i _ => ?_
    by_cases hu : (uws.getD i (0, 0)).1 = 0
    · rw [if_neg (not_not_intro hu), hu, zero_mul]
    · rw [if_pos hu]
  calc ∑ j, SpsSender.xStar ext chi uws j • ext.generator ^ (j : ℕ)
      = ∑ i ∈ Finset.range uws.length, ∑ j : Fin ext.degree,
          (uws.getD i (0, 0)).1 • ext.decompose (chi i) j • ext.generator ^ (j : ℕ) := by
        rw [Finset.sum_comm]
        refine Finset.sum_congr rfl fun j _ => ?_
        rw [hx, Finset.sum_smul]
        exact Finset.sum_congr rfl fun i _ => mul_smul _ _ _
    _ = ∑ i ∈ Finset.range uws.length, (uws.getD i (0, 0)).1 • chi i :=
        Finset.sum_congr rfl fun i _ => by rw [← Finset.smul_sum, ext.sum_decompose]

theorem zipWith_ofFn {α β γ : Type} {r : ℕ} (f : α → β → γ) (as : Fin r → α) (bs : Fin r → β) :
    List.zipWith f (List.ofFn as) (List.ofFn bs) = List.ofFn fun j => f (as j) (bs j) :=
  List.ext_getElem (by simp) fun i h₁ h₂ => by simp

theorem va_eq_vb (delta : FE) (chi : ℕ → FE) (uws base : List (F × FE)) (hbase : base.length = ext.degree) :
    SpsSender.va ext chi uws base = SpsReceiver.vb ext delta chi (uws.map (voleKey delta))
      (base.map (voleKey delta)) (SpsSender.masked ext chi uws base) := by
  obtain ⟨b, rfl⟩ : ∃ b : Fin ext.degree → F × FE, base = List.ofFn b :=
    ⟨fun j => base.get (j.cast hbase.symm), List.ext_getElem (by simp [hbase]) fun i h₁ h₂ => by simp⟩
  have hcoeff := sum_xStar ext chi uws
  let x := SpsSender.xStar ext chi uws
  have hcheck : ∑ j : Fin ext.degree,
      (voleKey delta (b j) - (x j - (b j).1) • delta) * ext.generator ^ (j : ℕ) =
      ∑ j : Fin ext.degree, ext.generator ^ (j : ℕ) * (b j).2 -
        (∑ j : Fin ext.degree, x j • ext.generator ^ (j : ℕ)) * delta := by
    rw [Finset.sum_mul, ← Finset.sum_sub_distrib]
    refine Finset.sum_congr rfl fun j _ => ?_
    simp only [voleKey, Algebra.smul_def, map_sub]
    ring
  have hvalues : ∑ i ∈ Finset.range uws.length,
      (uws.map (voleKey delta)).getD i 0 * chi i =
      ∑ i ∈ Finset.range uws.length, chi i * (uws.getD i (0, 0)).2 -
        (∑ i ∈ Finset.range uws.length, (uws.getD i (0, 0)).1 • chi i) * delta := by
    rw [Finset.sum_mul, ← Finset.sum_sub_distrib]
    refine Finset.sum_congr rfl fun i hi => ?_
    have hget : (uws.map (voleKey delta)).getD i 0 = voleKey delta (uws.getD i (0, 0)) := by
      simp [List.getD_eq_getElem?_getD, Finset.mem_range.1 hi]
    rw [hget, voleKey, Algebra.smul_def, Algebra.smul_def]
    ring
  unfold SpsSender.va SpsReceiver.vb
  rw [SpsSender.masked, Extension.powers, List.map_ofFn,
    zipWith_ofFn, zipWith_ofFn, List.zip, zipWith_ofFn, zipWith_ofFn, List.sum_ofFn, List.sum_ofFn,
    sum_mapIdx _ (0, 0), sum_mapIdx _ 0, List.length_map, hvalues]
  simp only [Function.comp_apply]
  rw [hcheck, hcoeff]
  ring

variable [DecidableEq FE]

theorem sps_correlated (delta : FE) (t : Tree FE) {depth : ℕ} (hdepth : 2 ≤ depth) (coins : Coins F FE)
    (base : List (F × FE)) (hbase : ext.degree ≤ base.length) :
    ∃ out, sps ext t delta (2 ^ depth) coins base (base.map (voleKey delta)) = some out ∧
      out.2.length = (base.length - ext.degree) * 2 ^ depth ∧ VoleCorrelated delta out.1 out.2 := by
  obtain ⟨blocks, hblocks, hlen, hcor⟩ := mapM_spsBlock delta t hdepth coins
    (base.take (base.length - ext.degree)) 0
  have hvs := voleCorrelated_iff.1 hcor
  have hcheck := va_eq_vb ext delta coins.chi (blocks.map Prod.fst).flatten
    (base.drop (base.length - ext.degree)) (by rw [List.length_drop]; omega)
  refine ⟨((blocks.map Prod.fst).flatten, (blocks.map Prod.snd).flatten), ?_, ?_, hcor⟩
  · rw [sps, ← List.map_take, hblocks, ← List.map_drop]
    simp only [Option.bind_eq_bind, Option.bind_some]
    rw [hvs, if_pos hcheck]
  · rw [hlen, List.length_take, min_eq_left (Nat.sub_le _ _)]

end Proofs

end EdaBitGen
