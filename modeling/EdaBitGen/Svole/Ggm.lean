import EdaBitGen.Data.Lists

/-!
# The tree of seeds

The sender expands a seed level by level into the leaves of a binary tree and keeps, for each level,
the sums of its left and of its right nodes.  The receiver knows one of the two sums of each level
and rebuilds the tree except for the path to one leaf.
-/

namespace EdaBitGen

/-- A vector of 128 bits, with `^` as addition. -/
abbrev U8x16 := Fin 128 → ZMod 2

/-- The permutations of the two keys. -/
structure Aes where
  encrypt0 : U8x16 → U8x16
  encrypt1 : U8x16 → U8x16

namespace Aes

variable (aes : Aes)

/-- The left child of a seed. -/
def left (s : U8x16) : U8x16 := aes.encrypt0 s + s

/-- The right child of a seed. -/
def right (s : U8x16) : U8x16 := aes.encrypt1 s + s

end Aes

/-! ## The sender -/

/-- A level under construction: the seeds written so far, and the sums of the left and of the right
ones. -/
structure Level where
  seeds : List U8x16
  k0 : U8x16
  k1 : U8x16

namespace Level

variable (aes : Aes)

/-- The children of the seeds of one chunk. -/
def pushChunk (lv : Level) (chunk : List U8x16) : Level :=
  let s0 := chunk.map aes.left
  let s1 := chunk.map aes.right
  { seeds := lv.seeds ++ (List.zipWith (fun a b => [a, b]) s0 s1).flatten
    k0 := s0.foldl (· + ·) lv.k0
    k1 := s1.foldl (· + ·) lv.k1 }

/-- The children of one seed. -/
def push (lv : Level) (s : U8x16) : Level where
  seeds := lv.seeds ++ [aes.left s, aes.right s]
  k0 := lv.k0 + aes.left s
  k1 := lv.k1 + aes.right s

/-- The level below `prev`: the full chunks of `hint` seeds, then the remaining ones. -/
def expand (hint : ℕ) (prev : List U8x16) : Level :=
  (Chunks.remainder hint prev).foldl (push aes)
    ((Chunks.exact hint prev).foldl (pushChunk aes) ⟨[], 0, 0⟩)

end Level

/-- The keys of all levels, and the leaves as field elements. -/
def ggm {FE : Type} (fromUniformBytes : U8x16 → FE) (hint : ℕ) (aes : Aes) (depth : ℕ)
    (initialSeed : U8x16) : List (U8x16 × U8x16) × List FE :=
  let (keys, seeds) := (List.range depth).foldl (fun acc _ =>
    let lv := Level.expand aes hint acc.2
    (acc.1 ++ [(lv.k0, lv.k1)], lv.seeds)) ([], [initialSeed])
  (keys, seeds.map fromUniformBytes)

/-! ## The receiver -/

/-- What a level writes in front of the storage. -/
def overwrite (xs storage : List U8x16) : List U8x16 :=
  xs ++ storage.drop xs.length

namespace GgmPrime

/-- What one level of the receiver depends on: the parent that is unknown, the seed of its sibling,
and the side whose sum the receiver has. -/
structure Path where
  unknown : ℕ
  sibling : U8x16
  useLeft : Bool

namespace Path

variable (aes : Aes) (path : Path)

/-- The seed of a parent, with the reconstructed one put in its place. -/
def parent (i : ℕ) (seed : U8x16) : U8x16 :=
  if i = path.unknown ^^^ 1 then path.sibling else seed

/-- The children of the parent at `i`, zero below the unknown one. -/
def children (i : ℕ) (seed : U8x16) : U8x16 × U8x16 :=
  if i = path.unknown then (0, 0) else (aes.left (path.parent i seed), aes.right (path.parent i seed))

/-- The child that counts for the sum of the level. -/
def counted (s : U8x16 × U8x16) : U8x16 :=
  if path.useLeft then s.1 else s.2

end Path

/-- The seeds written so far, the sum so far, and the index of the next parent. -/
structure Progress where
  seeds : List U8x16
  levelXor : U8x16
  i : ℕ

/-- The children of the parents of one chunk, first for each key, then written in pairs. -/
def pushChunk (aes : Aes) (path : Path) (pr : Progress) (chunk : List U8x16) : Progress :=
  let entries0 := chunk.mapIdx fun j s => (path.children aes (pr.i + j) s).1
  let entries1 := chunk.mapIdx fun j s => (path.children aes (pr.i + j) s).2
  let entries := entries0.zip entries1
  { seeds := pr.seeds ++ (entries.map fun s => [s.1, s.2]).flatten
    levelXor := entries.foldl (fun acc s => acc + path.counted s) pr.levelXor
    i := pr.i + chunk.length }

/-- The level below `prev`, written into `storage`, with the seed of the unknown sibling. -/
def level (hint : ℕ) (aes : Aes) (path : Path) (key : U8x16) (prev storage : List U8x16) :
    List U8x16 × U8x16 :=
  let pr := (Chunks.exact hint prev).foldl (pushChunk aes path) ⟨[], key, 0⟩
  let rest := (Chunks.remainder hint prev).mapIdx fun i s => path.children aes i s
  (overwrite (rest.map fun s => [s.1, s.2]).flatten (overwrite pr.seeds storage),
    rest.foldl (fun acc s => acc + path.counted s) pr.levelXor)

/-- The path at level `level` of a tree with `depth` levels. -/
def pathAt (alpha depth level : ℕ) (sibling : U8x16) : Path where
  unknown := alpha >>> (depth - level + 1)
  sibling := sibling
  useLeft := alpha >>> (depth - level) % 2 = 1

end GgmPrime

/-- The part of the temporary storage for a level. -/
def storageAt (tmpStorage : List U8x16) (level : ℕ) : List U8x16 :=
  (tmpStorage.drop (2 ^ level - 2)).take (2 ^ level)

/-- One turn of the loop over the levels, from the level and the reconstruction before it. -/
def GgmPrime.turn (hint alpha : ℕ) (otOutput : List U8x16) (aes : Aes) (tmpStorage : List U8x16)
    (acc : List U8x16 × U8x16) (k : ℕ) : List U8x16 × U8x16 :=
  level hint aes (pathAt alpha otOutput.length (k + 2) acc.2) (otOutput.getD (k + 1) 0) acc.1
    (storageAt tmpStorage (k + 2))

/-- What the receiver learns of the keys: for each bit of `alpha`, highest first, the key of the
other side. -/
def selectedKeys (alpha : ℕ) (keys : List (U8x16 × U8x16)) : List U8x16 :=
  keys.mapIdx fun i k => if alpha >>> (keys.length - 1 - i) % 2 = 1 then k.1 else k.2

/-- The leaves except the one at `alpha`, paired with the values `us` that stand there before, and
their sum. -/
def ggmPrime {VF FE : Type} [AddMonoid FE] (fromUniformBytes : U8x16 → FE) (hint alpha : ℕ)
    (otOutput : List U8x16) (aes : Aes) (us : List VF) (tmpStorage : List U8x16) :
    Option (FE × List (VF × FE)) :=
  let depth := otOutput.length
  if us.length = 2 ^ depth ∧ 2 ≤ depth ∧ tmpStorage.length = 2 * 2 ^ depth - 2 then
    let key0 := otOutput.getD 0 0
    let (seeds, reconstruction) := (List.range (depth - 1)).foldl
      (GgmPrime.turn hint alpha otOutput aes tmpStorage) ([key0, key0], key0)
    let ws := seeds.mapIdx fun i src =>
      fromUniformBytes (if i ^^^ 1 = alpha then reconstruction else src)
    some ((ws.mapIdx fun i w => if i = alpha then 0 else w).sum, us.zip ws)
  else none

end EdaBitGen
