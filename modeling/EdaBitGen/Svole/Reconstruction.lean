import EdaBitGen.Svole.Ggm

/-!
# Reconstruction of the tree of seeds

Both traversals compute the same complete binary tree: the sender's chunks are the plain doubling of
a level, and after each level the receiver knows all nodes but the one on the path to `alpha`, whose
sibling it gets from the sum of the level.
-/

namespace EdaBitGen

/-! ## The tree -/

/-- The nodes at each depth of the tree, by plain doubling. -/
def tree (aes : Aes) (seed : U8x16) : ℕ → List U8x16
  | 0 => [seed]
  | l + 1 => ((tree aes seed l).map fun s => [aes.left s, aes.right s]).flatten

/-- The node at a position of a level. -/
def node (aes : Aes) (seed : U8x16) (l i : ℕ) : U8x16 :=
  (tree aes seed l).getD i 0

section Lists

variable {α β : Type}

theorem getD_flatten_pairs (d : α) (L : List (α × α)) (i : ℕ) :
    ((L.map fun s => [s.1, s.2]).flatten.getD (2 * i) d = (L.getD i (d, d)).1) ∧
      ((L.map fun s => [s.1, s.2]).flatten.getD (2 * i + 1) d = (L.getD i (d, d)).2) := by
  induction L generalizing i with
  | nil => simp
  | cons s L ih =>
    cases i with
    | zero => simp
    | succ i => simpa [Nat.mul_succ] using ih i

theorem length_flatten_pairs (L : List (α × α)) :
    (L.map fun s => [s.1, s.2]).flatten.length = 2 * L.length := by
  induction L with
  | nil => rfl
  | cons s L ih => simp [ih]; omega

theorem zip_mapIdx (f g : ℕ → α → β) (xs : List α) :
    (xs.mapIdx f).zip (xs.mapIdx g) = xs.mapIdx fun i x => (f i x, g i x) := by
  refine List.ext_getElem (by simp) fun i h₁ h₂ => ?_
  simp

theorem foldl_add_map [AddCommMonoid β] (f : α → β) (xs : List α) (b : β) :
    xs.foldl (fun acc x => acc + f x) b = b + (xs.map f).sum := by
  induction xs generalizing b with
  | nil => simp
  | cons x xs ih => rw [List.foldl_cons, ih, List.map_cons, List.sum_cons, add_assoc]

theorem sum_mapIdx [AddCommMonoid β] (f : ℕ → α → β) (d : α) (xs : List α) :
    (xs.mapIdx f).sum = ∑ i ∈ Finset.range xs.length, f i (xs.getD i d) := by
  induction xs generalizing f with
  | nil => simp
  | cons x xs ih =>
    rw [List.mapIdx_cons, List.sum_cons, ih, List.length_cons, Finset.sum_range_succ', add_comm]
    rfl

theorem sum_map_getD [AddCommMonoid β] (f : α → β) (d : α) (xs : List α) :
    (xs.map f).sum = ∑ i ∈ Finset.range xs.length, f (xs.getD i d) := by
  have hmap : xs.map f = xs.mapIdx fun _ => f := List.ext_getElem (by simp) fun i h₁ h₂ => by simp
  rw [hmap, sum_mapIdx _ d]

end Lists

theorem length_tree (aes : Aes) (seed : U8x16) (l : ℕ) : (tree aes seed l).length = 2 ^ l := by
  induction l with
  | zero => rfl
  | succ l ih =>
    have hpairs := length_flatten_pairs ((tree aes seed l).map fun s => (aes.left s, aes.right s))
    rw [List.map_map, List.length_map, ih] at hpairs
    rw [pow_succ, mul_comm]
    exact hpairs

theorem node_children (aes : Aes) (seed : U8x16) {l i : ℕ} (hi : i < 2 ^ l) :
    node aes seed (l + 1) (2 * i) = aes.left (node aes seed l i) ∧
      node aes seed (l + 1) (2 * i + 1) = aes.right (node aes seed l i) := by
  have hlt : i < (tree aes seed l).length := by rwa [length_tree]
  have hpairs := getD_flatten_pairs 0 ((tree aes seed l).map fun s => (aes.left s, aes.right s)) i
  rw [List.map_map] at hpairs
  unfold node
  simpa [tree, Function.comp_def, List.getD_eq_getElem?_getD, hlt] using hpairs

namespace Level

variable (aes : Aes)

theorem pushChunk_eq (lv : Level) (chunk : List U8x16) :
    pushChunk aes lv chunk = chunk.foldl (push aes) lv := by
  induction chunk generalizing lv with
  | nil => simp [pushChunk]
  | cons s chunk ih =>
    rw [List.foldl_cons, ← ih]
    simp [pushChunk, push]

theorem foldl_push (lv : Level) (xs : List U8x16) :
    xs.foldl (push aes) lv =
      ⟨lv.seeds ++ (xs.map fun s => [aes.left s, aes.right s]).flatten,
        lv.k0 + (xs.map aes.left).sum, lv.k1 + (xs.map aes.right).sum⟩ := by
  induction xs generalizing lv with
  | nil => simp
  | cons s xs ih =>
    rw [List.foldl_cons, ih]
    simp [push, add_assoc]

theorem expand_eq (hint : ℕ) (prev : List U8x16) :
    expand aes hint prev = ⟨(prev.map fun s => [aes.left s, aes.right s]).flatten,
      (prev.map aes.left).sum, (prev.map aes.right).sum⟩ := by
  have hchunks : ∀ lv : Level, (Chunks.exact hint prev).foldl (pushChunk aes) lv =
      (Chunks.exact hint prev).flatten.foldl (push aes) lv := fun lv => by
    rw [List.foldl_flatten]
    exact List.foldl_ext _ _ _ fun a c _ => pushChunk_eq aes a c
  rw [expand, hchunks, ← List.foldl_append, Chunks.flatten_exact_append_remainder, foldl_push]
  simp

end Level

/-- The sums of the left and of the right nodes below a level. -/
def levelKeys (aes : Aes) (seed : U8x16) (l : ℕ) : U8x16 × U8x16 :=
  (((tree aes seed l).map aes.left).sum, ((tree aes seed l).map aes.right).sum)

theorem ggm_eq {FE : Type} (fromUniformBytes : U8x16 → FE) (hint : ℕ) (aes : Aes) (depth : ℕ)
    (seed : U8x16) :
    ggm fromUniformBytes hint aes depth seed =
      ((List.range depth).map (levelKeys aes seed),
        (tree aes seed depth).map fromUniformBytes) := by
  have hloop : (List.range depth).foldl (fun acc _ =>
      let lv := Level.expand aes hint acc.2
      (acc.1 ++ [(lv.k0, lv.k1)], lv.seeds)) (([], [seed]) : List (U8x16 × U8x16) × List U8x16) =
      ((List.range depth).map (levelKeys aes seed), tree aes seed depth) := by
    induction depth with
    | zero => rfl
    | succ depth ih =>
      rw [List.range_succ, List.foldl_append, ih, List.foldl_cons, List.foldl_nil, List.map_append]
      simp only [Level.expand_eq]
      rfl
  rw [ggm, hloop]

/-! ## A level of the receiver -/

namespace GgmPrime

variable (aes : Aes) (path : Path)

/-- The children of all parents of a level. -/
def entries (prev : List U8x16) : List (U8x16 × U8x16) :=
  prev.mapIdx (path.children aes)

theorem foldl_pushChunk (pr : Progress) (chunks : List (List U8x16)) :
    chunks.foldl (pushChunk aes path) pr =
      ⟨pr.seeds ++ ((chunks.flatten.mapIdx fun j s => path.children aes (pr.i + j) s).map
          fun s => [s.1, s.2]).flatten,
        pr.levelXor + ((chunks.flatten.mapIdx fun j s => path.children aes (pr.i + j) s).map
          path.counted).sum,
        pr.i + chunks.flatten.length⟩ := by
  induction chunks generalizing pr with
  | nil => simp
  | cons chunk chunks ih =>
    rw [List.foldl_cons, ih]
    simp only [pushChunk, zip_mapIdx, Prod.mk.eta, foldl_add_map, List.flatten_cons, List.mapIdx_append,
      List.map_append, List.flatten_append, List.sum_append, List.length_append, List.append_assoc,
      add_assoc]
    simp only [add_comm, add_left_comm]

theorem level_eq {b l : ℕ} {prev storage : List U8x16} (key : U8x16) (hprev : prev.length = 2 ^ l)
    (hstorage : storage.length = 2 * prev.length) :
    level (2 ^ b) aes path key prev storage =
      (((entries aes path prev).map fun s => [s.1, s.2]).flatten,
        key + ((entries aes path prev).map path.counted).sum) := by
  have hlen := length_flatten_pairs (entries aes path prev)
  have hentries : (entries aes path prev).length = prev.length := List.length_mapIdx
  have hwrite : overwrite ((entries aes path prev).map fun s => [s.1, s.2]).flatten storage =
      ((entries aes path prev).map fun s => [s.1, s.2]).flatten := by
    rw [overwrite, List.drop_eq_nil_of_le (by rw [hlen, hentries, hstorage]), List.append_nil]
  unfold level
  rw [foldl_pushChunk]
  rcases le_or_gt b l with hbl | hlb
  · obtain ⟨hall, hrem⟩ := Chunks.remainder_of_dvd (hprev ▸ pow_dvd_pow 2 hbl : 2 ^ b ∣ prev.length)
    rw [hall, hrem]
    simpa [overwrite, entries] using hwrite
  · obtain ⟨hnil, hrem⟩ := Chunks.remainder_of_lt
      (hprev ▸ Nat.pow_lt_pow_right Nat.one_lt_two hlb : prev.length < 2 ^ b)
    rw [hnil, hrem]
    simpa [overwrite, entries, foldl_add_map] using hwrite

/-- The nodes of a level that are known, and what stands in for the sibling on the path. -/
structure Rebuilt (seed : U8x16) (l a : ℕ) (seeds : List U8x16) (sibling : U8x16) : Prop where
  length : seeds.length = 2 ^ l
  nodes : ∀ i < 2 ^ l, i ≠ a → i ≠ a ^^^ 1 → seeds.getD i 0 = node aes seed l i
  sibling_eq : sibling = node aes seed l (a ^^^ 1)

variable {aes path} {seed : U8x16} {l : ℕ} {prev : List U8x16}

theorem getD_entries (h : Rebuilt aes seed l path.unknown prev path.sibling) {i : ℕ}
    (hi : i < 2 ^ l) :
    (entries aes path prev).getD i (0, 0) = if i = path.unknown then (0, 0) else
      (node aes seed (l + 1) (2 * i), node aes seed (l + 1) (2 * i + 1)) := by
  have hlt : i < prev.length := h.length.symm ▸ hi
  have hget : (entries aes path prev).getD i (0, 0) = path.children aes i (prev.getD i 0) := by
    simp [entries, List.getD_eq_getElem?_getD, hlt]
  obtain ⟨hleft, hright⟩ := node_children aes seed hi
  rw [hget, Path.children]
  by_cases hu : i = path.unknown
  · rw [if_pos hu, if_pos hu]
  · have hparent : path.parent i (prev.getD i 0) = node aes seed l i := by
      by_cases hs : i = path.unknown ^^^ 1
      · rw [Path.parent, if_pos hs, h.sibling_eq, hs]
      · rw [Path.parent, if_neg hs, h.nodes i hi hu hs]
    rw [if_neg hu, if_neg hu, hparent, hleft, hright]

theorem add_self (x : U8x16) : x + x = 0 :=
  funext fun _ => CharTwo.add_self_eq_zero _

theorem key_add_counted (h : Rebuilt aes seed l path.unknown prev path.sibling)
    (ha : path.unknown < 2 ^ l) :
    (if path.useLeft then (levelKeys aes seed l).1 else (levelKeys aes seed l).2) +
      ((entries aes path prev).map path.counted).sum =
        node aes seed (l + 1) (2 * path.unknown + if path.useLeft then 0 else 1) := by
  let side : ℕ → U8x16 := fun i => node aes seed (l + 1) (2 * i + if path.useLeft then 0 else 1)
  have hkey : (if path.useLeft then (levelKeys aes seed l).1 else (levelKeys aes seed l).2) =
      ∑ i ∈ Finset.range (2 ^ l), side i := by
    by_cases hleft : path.useLeft
    · rw [if_pos hleft]
      change ((tree aes seed l).map aes.left).sum = _
      rw [sum_map_getD _ 0, length_tree]
      refine Finset.sum_congr rfl fun i hi => ?_
      simp only [side, if_pos hleft, add_zero]
      exact (node_children aes seed (Finset.mem_range.1 hi)).1.symm
    · rw [if_neg hleft]
      change ((tree aes seed l).map aes.right).sum = _
      rw [sum_map_getD _ 0, length_tree]
      refine Finset.sum_congr rfl fun i hi => ?_
      simp only [side, if_neg hleft]
      exact (node_children aes seed (Finset.mem_range.1 hi)).2.symm
  have hcounted : ((entries aes path prev).map path.counted).sum =
      ∑ i ∈ Finset.range (2 ^ l), if i = path.unknown then 0 else side i := by
    rw [sum_map_getD _ (0, 0), entries, List.length_mapIdx, h.length]
    refine Finset.sum_congr rfl fun i hi => ?_
    have hget := getD_entries h (Finset.mem_range.1 hi)
    rw [entries] at hget
    rw [hget, Path.counted]
    by_cases hu : i = path.unknown <;> by_cases hleft : path.useLeft <;> simp [side, hu, hleft]
  rw [hkey, hcounted, ← Finset.sum_add_distrib,
    Finset.sum_eq_single_of_mem path.unknown (Finset.mem_range.2 ha)]
  · rw [if_pos rfl, add_zero]
  · intro i _ hi
    rw [if_neg hi, add_self]

theorem xor_one (a : ℕ) (c : Bool) :
    (2 * a + if c then 1 else 0) ^^^ 1 = 2 * a + if c then 0 else 1 := by
  cases c
  · exact Nat.xor_one_of_even ⟨a, by simp; ring⟩
  · exact Nat.xor_one_of_odd ⟨a, rfl⟩

theorem Rebuilt.level {b : ℕ} {storage : List U8x16}
    (h : Rebuilt aes seed l path.unknown prev path.sibling) (ha : path.unknown < 2 ^ l)
    (hstorage : storage.length = 2 ^ (l + 1)) :
    Rebuilt aes seed (l + 1) (2 * path.unknown + if path.useLeft then 1 else 0)
      (GgmPrime.level (2 ^ b) aes path
        (if path.useLeft then (levelKeys aes seed l).1 else (levelKeys aes seed l).2) prev storage).1
      (GgmPrime.level (2 ^ b) aes path
        (if path.useLeft then (levelKeys aes seed l).1 else (levelKeys aes seed l).2) prev
          storage).2 := by
  rw [level_eq aes path _ h.length (by rw [hstorage, h.length, pow_succ, mul_comm])]
  have hentries : (entries aes path prev).length = 2 ^ l := List.length_mapIdx.trans h.length
  refine ⟨?_, ?_, ?_⟩
  · rw [length_flatten_pairs, hentries, pow_succ, mul_comm]
  · intro i hi hia his
    rw [xor_one] at his
    have hhalf : i / 2 < 2 ^ l := by rw [pow_succ] at hi; omega
    have hne : i / 2 ≠ path.unknown := by
      intro hu
      by_cases hleft : path.useLeft
      · rw [if_pos hleft] at hia his
        omega
      · rw [if_neg hleft] at hia his
        omega
    have hget := getD_entries h hhalf
    rw [if_neg hne] at hget
    obtain ⟨hleft, hright⟩ := getD_flatten_pairs 0 (entries aes path prev) (i / 2)
    rcases Nat.mod_two_eq_zero_or_one i with hpar | hpar
    · have hi2 : i = 2 * (i / 2) := by omega
      rw [hi2, hleft, hget]
    · have hi2 : i = 2 * (i / 2) + 1 := by omega
      rw [hi2, hright, hget]
  · rw [key_add_counted h ha, xor_one]

end GgmPrime

/-! ## All levels -/

section Run

variable {aes : Aes} {seed : U8x16} {alpha depth b : ℕ} {tmpStorage : List U8x16}

/-- The keys that the receiver gets for the tree. -/
def otKeys (aes : Aes) (seed : U8x16) (alpha depth : ℕ) : List U8x16 :=
  selectedKeys alpha ((List.range depth).map (levelKeys aes seed))

theorem length_otKeys : (otKeys aes seed alpha depth).length = depth := by
  simp [otKeys, selectedKeys]

theorem getD_otKeys {k : ℕ} (hk : k < depth) :
    (otKeys aes seed alpha depth).getD k 0 = if alpha >>> (depth - 1 - k) % 2 = 1 then
      (levelKeys aes seed k).1 else (levelKeys aes seed k).2 := by
  simp [otKeys, selectedKeys, List.getD_eq_getElem?_getD, hk]

theorem rebuilt_start (hdepth : 0 < depth) (halpha : alpha < 2 ^ depth) :
    GgmPrime.Rebuilt aes seed 1 (alpha >>> (depth - 1))
      [(otKeys aes seed alpha depth).getD 0 0, (otKeys aes seed alpha depth).getD 0 0]
      ((otKeys aes seed alpha depth).getD 0 0) := by
  have ha : alpha >>> (depth - 1) < 2 := by
    rw [Nat.shiftRight_eq_div_pow, Nat.div_lt_iff_lt_mul (by positivity), ← pow_succ',
      Nat.sub_add_cancel hdepth]
    exact halpha
  obtain ⟨hleft, hright⟩ := node_children aes seed (l := 0) (i := 0) Nat.one_pos
  have hkeys : levelKeys aes seed 0 = (node aes seed 1 0, node aes seed 1 1) := by
    rw [hleft, hright]
    simp [levelKeys, tree, node]
  rw [getD_otKeys hdepth, hkeys, Nat.sub_zero]
  refine ⟨rfl, fun i hi hia his => ?_, ?_⟩
  · interval_cases h : alpha >>> (depth - 1) <;> simp at hi hia his <;> omega
  · interval_cases h : alpha >>> (depth - 1) <;> simp

theorem rebuilt_foldl (aes : Aes) (seed : U8x16) (halpha : alpha < 2 ^ depth)
    (hstorage : tmpStorage.length = 2 * 2 ^ depth - 2) {k : ℕ} (hk : k + 1 ≤ depth) :
    let acc := (List.range k).foldl
      (GgmPrime.turn (2 ^ b) alpha (otKeys aes seed alpha depth) aes tmpStorage)
      ([(otKeys aes seed alpha depth).getD 0 0, (otKeys aes seed alpha depth).getD 0 0],
        (otKeys aes seed alpha depth).getD 0 0)
    GgmPrime.Rebuilt aes seed (k + 1) (alpha >>> (depth - (k + 1))) acc.1 acc.2 := by
  induction k with
  | zero => exact rebuilt_start (by omega) halpha
  | succ k ih =>
    have hprev := ih (by omega)
    rw [List.range_succ, List.foldl_append, List.foldl_cons, List.foldl_nil]
    generalize (List.range k).foldl (GgmPrime.turn (2 ^ b) alpha (otKeys aes seed alpha depth) aes
      tmpStorage) ([(otKeys aes seed alpha depth).getD 0 0, (otKeys aes seed alpha depth).getD 0 0],
        (otKeys aes seed alpha depth).getD 0 0) = acc at hprev ⊢
    have hunknown : depth - (k + 2) + 1 = depth - (k + 1) := by omega
    have hnext : alpha >>> (depth - (k + 1 + 1)) = 2 * (alpha >>> (depth - (k + 2) + 1)) +
        if (GgmPrime.pathAt alpha depth (k + 2) acc.2).useLeft then 1 else 0 := by
      simp only [GgmPrime.pathAt, decide_eq_true_eq]
      rw [Nat.shiftRight_succ]
      generalize alpha >>> (depth - (k + 2)) = a
      split <;> omega
    have hlt : alpha >>> (depth - (k + 2) + 1) < 2 ^ (k + 1) := by
      rw [hunknown, Nat.shiftRight_eq_div_pow, Nat.div_lt_iff_lt_mul (by positivity), ← pow_add,
        Nat.add_sub_cancel' (by omega)]
      exact halpha
    have hlen : (storageAt tmpStorage (k + 2)).length = 2 ^ (k + 1 + 1) := by
      have hpow : 2 ^ (k + 1 + 1) ≤ 2 ^ depth := Nat.pow_le_pow_right (by norm_num) (by omega)
      have htwo : 2 ≤ 2 ^ (k + 1 + 1) := by
        calc 2 = 2 ^ 1 := rfl
          _ ≤ 2 ^ (k + 1 + 1) := Nat.pow_le_pow_right (by norm_num) (by omega)
      rw [storageAt, List.length_take, List.length_drop, hstorage]
      change min (2 ^ (k + 1 + 1)) (2 * 2 ^ depth - 2 - (2 ^ (k + 1 + 1) - 2)) = 2 ^ (k + 1 + 1)
      omega
    have hpath : GgmPrime.Rebuilt aes seed (k + 1)
        (GgmPrime.pathAt alpha depth (k + 2) acc.2).unknown acc.1
        (GgmPrime.pathAt alpha depth (k + 2) acc.2).sibling := by
      rw [GgmPrime.pathAt, hunknown]
      exact hprev
    have hstep := hpath.level (b := b) hlt hlen
    have hkey : (otKeys aes seed alpha depth).getD (k + 1) 0 =
        if (GgmPrime.pathAt alpha depth (k + 2) acc.2).useLeft then (levelKeys aes seed (k + 1)).1
        else (levelKeys aes seed (k + 1)).2 := by
      rw [getD_otKeys (by omega)]
      simp only [GgmPrime.pathAt, decide_eq_true_eq]
      rw [show depth - 1 - (k + 1) = depth - (k + 2) by omega]
    rw [← hkey] at hstep
    rw [GgmPrime.turn, length_otKeys, hnext]
    exact hstep

theorem leaf_eq {FE : Type} (fromUniformBytes : U8x16 → FE) {a : ℕ} {seeds : List U8x16}
    {sibling : U8x16} (h : GgmPrime.Rebuilt aes seed depth a seeds sibling) {i : ℕ}
    (hi : i < 2 ^ depth) (hia : i ≠ a) :
    (seeds.mapIdx fun i src => fromUniformBytes (if i ^^^ 1 = a then sibling else src))[i]? =
      ((tree aes seed depth).map fromUniformBytes)[i]? := by
  have hlt : i < seeds.length := h.length.symm ▸ hi
  have hnode : (tree aes seed depth)[i]? = some (node aes seed depth i) := by
    simp [node, List.getD_eq_getElem?_getD, length_tree, hi]
  rw [List.getElem?_mapIdx, List.getElem?_map, List.getElem?_eq_getElem hlt, hnode,
    Option.map_some, Option.map_some]
  congr 2
  by_cases hs : i ^^^ 1 = a
  · rw [if_pos hs, h.sibling_eq, ← hs, Nat.xor_assoc, Nat.xor_self, Nat.xor_zero]
  · have hne : i ≠ a ^^^ 1 := fun he =>
      hs (by rw [he, Nat.xor_assoc, Nat.xor_self, Nat.xor_zero])
    rw [if_neg hs, ← h.nodes i hi hia hne]
    simp [List.getD_eq_getElem?_getD, hlt]

theorem ggmPrime_otKeys {VF FE : Type} [AddCommMonoid FE] (fromUniformBytes : U8x16 → FE)
    (b : ℕ) (aes : Aes) (seed : U8x16) (hdepth : 2 ≤ depth) (halpha : alpha < 2 ^ depth)
    {us : List VF} (hus : us.length = 2 ^ depth)
    (hstorage : tmpStorage.length = 2 * 2 ^ depth - 2) :
    ∃ ws : List FE, ws.length = 2 ^ depth ∧
      (∀ i < 2 ^ depth, i ≠ alpha → ws[i]? = ((tree aes seed depth).map fromUniformBytes)[i]?) ∧
      ggmPrime fromUniformBytes (2 ^ b) alpha (otKeys aes seed alpha depth) aes us tmpStorage =
        some (∑ i ∈ (Finset.range (2 ^ depth)).erase alpha,
          ((tree aes seed depth).map fromUniformBytes).getD i 0, us.zip ws) := by
  have hlast := rebuilt_foldl (b := b) aes seed halpha hstorage
    (by omega : depth - 1 + 1 ≤ depth)
  rw [show depth - 1 + 1 = depth by omega, Nat.sub_self, Nat.shiftRight_zero] at hlast
  generalize hacc : (List.range (depth - 1)).foldl (GgmPrime.turn (2 ^ b) alpha
    (otKeys aes seed alpha depth) aes tmpStorage) ([(otKeys aes seed alpha depth).getD 0 0,
      (otKeys aes seed alpha depth).getD 0 0], (otKeys aes seed alpha depth).getD 0 0) = acc at hlast
  have hleaf := fun i hi hia => leaf_eq (i := i) fromUniformBytes hlast hi hia
  have hlen : (acc.1.mapIdx fun i src =>
      fromUniformBytes (if i ^^^ 1 = alpha then acc.2 else src)).length = 2 ^ depth := by
    rw [List.length_mapIdx, hlast.length]
  generalize hws : acc.1.mapIdx (fun i src =>
    fromUniformBytes (if i ^^^ 1 = alpha then acc.2 else src)) = ws at hleaf hlen
  have hsum : (ws.mapIdx fun i w => if i = alpha then 0 else w).sum =
      ∑ i ∈ (Finset.range (2 ^ depth)).erase alpha,
        ((tree aes seed depth).map fromUniformBytes).getD i 0 := by
    rw [sum_mapIdx _ 0, hlen]
    let others : ℕ → FE := fun i => if i = alpha then 0 else ws.getD i 0
    calc ∑ i ∈ Finset.range (2 ^ depth), others i
        = ∑ i ∈ (Finset.range (2 ^ depth)).erase alpha, others i :=
          (Finset.sum_erase (f := others) _ (if_pos rfl)).symm
      _ = ∑ i ∈ (Finset.range (2 ^ depth)).erase alpha,
          ((tree aes seed depth).map fromUniformBytes).getD i 0 := by
        refine Finset.sum_congr rfl fun i hi => ?_
        obtain ⟨hia, hmem⟩ := Finset.mem_erase.1 hi
        simp only [others]
        rw [if_neg hia, List.getD_eq_getElem?_getD, hleaf i (Finset.mem_range.1 hmem) hia,
          List.getD_eq_getElem?_getD]
  refine ⟨ws, hlen, hleaf, ?_⟩
  rw [← hsum, ggmPrime, length_otKeys, if_pos ⟨hus, hdepth, hstorage⟩, ← hws, ← hacc]

/-- The receiver's vector is the sender's one without the leaf at `alpha`, and its sum is that of
the sender's other leaves. -/
theorem ggmPrime_ggm {VF FE : Type} [AddCommMonoid FE] (fromUniformBytes : U8x16 → FE)
    (b : ℕ) (aes : Aes) (depth : ℕ) (hdepth : 2 ≤ depth) (seed : U8x16) (alpha : ℕ)
    (halpha : alpha < 2 ^ depth) (us : List VF) (hus : us.length = 2 ^ depth)
    (tmpStorage : List U8x16) (hstorage : tmpStorage.length = 2 * 2 ^ depth - 2) :
    ggm fromUniformBytes (2 ^ b) aes depth seed =
      ((List.range depth).map (levelKeys aes seed), (tree aes seed depth).map fromUniformBytes) ∧
    ∃ sum results,
      ggmPrime fromUniformBytes (2 ^ b) alpha
        (selectedKeys alpha (ggm fromUniformBytes (2 ^ b) aes depth seed).1) aes us tmpStorage =
          some (sum, results) ∧
      results.map Prod.fst = us ∧
      (∀ i < 2 ^ depth, i ≠ alpha → (results.map Prod.snd)[i]? =
        (ggm fromUniformBytes (2 ^ b) aes depth seed).2[i]?) ∧
      sum = ∑ i ∈ (Finset.range (2 ^ depth)).erase alpha,
        (ggm fromUniformBytes (2 ^ b) aes depth seed).2.getD i 0 := by
  refine ⟨ggm_eq fromUniformBytes (2 ^ b) aes depth seed, ?_⟩
  obtain ⟨ws, hlen, hleaf, hrun⟩ :=
    ggmPrime_otKeys fromUniformBytes b aes seed hdepth halpha hus hstorage
  rw [ggm_eq]
  refine ⟨_, us.zip ws, hrun, ?_, ?_, rfl⟩
  · exact List.map_fst_zip (by rw [hlen, hus])
  · intro i hi hia
    rw [List.map_snd_zip (by rw [hlen, hus])]
    exact hleaf i hi hia

theorem ggmPrime_ggm_one :
    let aes : Aes := ⟨fun s => s + 1, fun s i => s (i + 1)⟩
    ∃ sum results, ggmPrime (fun s => s 0) 4 2
        (selectedKeys 2 (ggm (fun s => s 0) 4 aes 2 1).1) aes (List.replicate 4 ())
          (List.replicate 6 0) = some (sum, results) ∧
      (∀ i < 4, i ≠ 2 → (results.map Prod.snd)[i]? = (ggm (fun s => s 0) 4 aes 2 1).2[i]?) := by
  obtain ⟨sum, results, hrun, _, hleaves, _⟩ :=
    (ggmPrime_ggm (fun s => s 0) 2 ⟨fun s => s + 1, fun s i => s (i + 1)⟩ 2 (le_refl 2) 1 2
      (by norm_num) (List.replicate 4 ()) rfl (List.replicate 6 0) rfl).2
  exact ⟨sum, results, hrun, hleaves⟩

end Run

end EdaBitGen
