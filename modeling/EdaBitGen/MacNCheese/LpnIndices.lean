import EdaBitGen.Vectoreyes.Lanes

/-!
# Row indices of the LPN matrix

`matrixEntriesVectorized` draws five vectors until four rows of ten indices can be read off them
that have no index twice. Which of the drawn positions a row takes, and which lanes are compared
with which, is decided by fixed moves of the lanes; all of them are functions of positions here.
-/

namespace EdaBitGen.MacNCheese.LpnIndices

open Vectoreyes

/-- The five vectors of one draw. -/
abbrev Draw : Type := Fin 5 → Vectoreyes.U8x16

/-- A draw seen as five vectors of eight indices. -/
def Draw.cast (raw : Draw) : Fin 5 → U16x8 := fun k => U16x8.ofU8x16 (raw k)

/-! ## Four vectors of ten indices -/

def transformRandomIntoArraysOfSizeTenStoredAsAVector (raw : Fin 5 → U16x8) : Fin 4 → U16x16 :=
  let communityChest := raw 0
  let combined : Fin 4 → U16x16 := fun r => U16x16.ofPair (raw r.succ) communityChest
  let wide : Fin 4 → U32x8 := fun r => U32x8.ofU16x16 (combined r)
  let shuffled : Fin 4 → U32x8 :=
    ![wide 0,
      (wide 1).shuffle 0 2 3 1,
      (wide 2).shuffle 0 1 3 2,
      (wide 3).shuffle 0 1 2 3]
  fun r => U16x16.ofU32x8 (shuffled r)

theorem sub_eight_lt (i : Fin 16) (h : ¬(i : ℕ) < 8) : (i : ℕ) - 8 < 8 := by omega

/-- The position of a lane of row `r` before its shuffle. -/
def combinedAt (r : Fin 4) (i : Fin 16) : Fin 5 × Fin 8 :=
  if h : (i : ℕ) < 8 then (r.succ, ⟨i, h⟩) else (0, ⟨i - 8, sub_eight_lt i h⟩)

/-- The lanes that the shuffle of row `r` takes. -/
def chestLanes (r : Fin 4) : Fin 16 → Fin 16 :=
  double (![id, selectHalves 0 2 3 1, selectHalves 0 1 3 2, selectHalves 0 1 2 3] r : Fin 8 → Fin 8)

/-- The position of the draw that lane `i` of row `r` holds. -/
def position (r : Fin 4) (i : Fin 16) : Fin 5 × Fin 8 := combinedAt r (chestLanes r i)

theorem transform_eq (raw : Fin 5 → U16x8) (r : Fin 4) (i : Fin 16) :
    transformRandomIntoArraysOfSizeTenStoredAsAVector raw r i =
      raw (position r i).1 (position r i).2 := by
  have hcombined : ∀ j : Fin 16, U16x16.ofPair (raw r.succ) (raw 0) j =
      raw (combinedAt r j).1 (combinedAt r j).2 := by
    intro j
    unfold U16x16.ofPair combinedAt
    split <;> rfl
  have hmoved : transformRandomIntoArraysOfSizeTenStoredAsAVector raw r =
      U16x16.ofPair (raw r.succ) (raw 0) ∘ chestLanes r := by
    match r with
    | 0 => exact narrow_comp_widen (n := 8) (m := 8) (w := 16) _ id
    | 1 => exact U16x16.ofU32x8_shuffle 0 2 3 1 _
    | 2 => exact U16x16.ofU32x8_shuffle 0 1 3 2 _
    | 3 => exact U16x16.ofU32x8_shuffle 0 1 2 3 _
  rw [hmoved]
  exact hcombined _

/-- The ten lanes of a row that are used. -/
def rowLane (i : Fin 10) : Fin 16 := i.castLE (by omega)

theorem position_injective :
    Function.Injective fun p : Fin 4 × Fin 10 => position p.1 (rowLane p.2) := by
  decide +kernel

/-- The forty lanes of the rows are the forty positions of a draw. -/
noncomputable def positions : Fin 4 × Fin 10 ≃ Fin 5 × Fin 8 :=
  Equiv.ofBijective (fun p => position p.1 (rowLane p.2))
    ((Fintype.bijective_iff_injective_and_card _).mpr ⟨position_injective, by simp⟩)

/-! ## Comparing the lanes -/

def inputMadeHi (x : U16x16) : U16x16 :=
  let innerLaneShuffle := (U32x8.ofU16x16 x).shuffle 2 3 0 1
  U16x16.ofU64x4 ((U64x4.ofU32x8 innerLaneShuffle).shuffle 0 1 1 0)

/-- The input with its junk lanes replaced. -/
def filled (x : U16x16) : U16x16 :=
  U16x16.ofU32x8 ((U32x8.ofU16x16 x).blend true true true false false false false false
    (U32x8.ofU16x16 (inputMadeHi x)))

def rotated (x : U16x16) : U16x16 :=
  U16x16.ofU32x8 (((U32x8.ofU16x16 x).shiftRight 16).or ((U32x8.ofU16x16 x).shiftLeft 16))

def permuted (x : U16x16) : U16x16 :=
  let replicated := U16x16.ofU32x8 ((U32x8.ofU16x16 x).shuffle 3 3 3 3)
  U16x16.ofU64x4 ((U64x4.ofU16x16 (replicated.unpackLo replicated)).shuffle 0 0 0 0)

/-- The vectors that are handed to `check_equality`, in this order. -/
def visitPermutations (inputs : Fin 4 → U16x16) : List (U16x16 × U16x16) :=
  let inputs : Fin 4 → U16x16 := fun r => filled (inputs r)
  let inputsRotated : Fin 4 → U16x16 := fun r => rotated (inputs r)
  let permuted : Fin 4 → U16x16 := fun r => permuted (inputs r)
  ((List.finRange 4).flatMap fun r =>
    [(inputs r, U16x16.ofU32x8 ((U32x8.ofU16x16 (inputs r)).shuffle 1 0 2 3)),
      (inputs r, U16x16.ofU32x8 ((U32x8.ofU16x16 (inputsRotated r)).shuffle 1 0 2 3))]) ++
  ((List.finRange 4).flatMap fun r =>
    [(inputs r, U16x16.ofU32x8 ((U32x8.ofU16x16 (inputs r)).shuffle 2 3 0 1)),
      (inputs r, U16x16.ofU32x8 ((U32x8.ofU16x16 (inputsRotated r)).shuffle 2 3 0 1))]) ++
  ((List.finRange 4).map fun r => (inputs r, inputsRotated r)) ++
  (List.finRange 4).map fun r =>
    (U16x16.ofU32x8 ((U32x8.ofU16x16 (inputs r)).shuffle 0 0 0 0), permuted r)

theorem half_lt (i : Fin 16) : (i : ℕ) / 2 < 8 := by omega

/-- The lanes of the blended input: the ten indices, and six of them again. -/
def blended : Fin 16 → Fin 16 := fun i =>
  if ![false, false, false, false, false, true, true, true] ⟨i / 2, half_lt i⟩ then
    (double (selectHalves 2 3 0 1) : Fin 16 → Fin 16)
      ((double (double (select 0 1 1 0)) : Fin 16 → Fin 16) i)
  else i

def shuffled (i3 i2 i1 i0 : Fin 4) : Fin 16 → Fin 16 :=
  blended ∘ (double (selectHalves i3 i2 i1 i0) : Fin 16 → Fin 16)

def rotatedShuffled (i3 i2 i1 i0 : Fin 4) : Fin 16 → Fin 16 :=
  blended ∘ neighbour ∘ (double (selectHalves i3 i2 i1 i0) : Fin 16 → Fin 16)

/-- Which lanes of a row meet in each of the comparisons. -/
def meetings : List ((Fin 16 → Fin 16) × (Fin 16 → Fin 16)) :=
  [(blended, shuffled 1 0 2 3),
    (blended, rotatedShuffled 1 0 2 3),
    (blended, shuffled 2 3 0 1),
    (blended, rotatedShuffled 2 3 0 1),
    (blended, blended ∘ neighbour),
    (shuffled 0 0 0 0,
      shuffled 3 3 3 3 ∘ unpacked ∘ (double (double (select 0 0 0 0)) : Fin 16 → Fin 16))]

theorem inputMadeHi_eq (x : U16x16) : inputMadeHi x =
    x ∘ (double (selectHalves 2 3 0 1) : Fin 16 → Fin 16) ∘
      (double (double (select 0 1 1 0)) : Fin 16 → Fin 16) := by
  simp only [inputMadeHi, U64x4.ofU32x8_shuffle, U16x16.ofU64x4_shuffle]
  rfl

theorem filled_eq (x : U16x16) : filled x = x ∘ blended := by
  funext i
  rw [filled, U16x16.ofU32x8_blend, inputMadeHi_eq]
  simp only [Function.comp_apply, blended]
  split
  · rfl
  · rfl

theorem rotated_eq (x : U16x16) : rotated x = x ∘ neighbour := U16x16.ofU32x8_rotate x

theorem permuted_eq (x : U16x16) : permuted x =
    x ∘ (double (selectHalves 3 3 3 3) : Fin 16 → Fin 16) ∘ unpacked ∘
      (double (double (select 0 0 0 0)) : Fin 16 → Fin 16) := by
  simp only [permuted, U16x16.unpackLo_self, U16x16.ofU32x8_shuffle, U16x16.ofU64x4_shuffle]
  rfl

theorem mem_visitPermutations (inputs : Fin 4 → U16x16) (p : U16x16 × U16x16) :
    p ∈ visitPermutations inputs ↔
      ∃ r, ∃ m ∈ meetings, p = (inputs r ∘ m.1, inputs r ∘ m.2) := by
  simp only [visitPermutations, filled_eq, rotated_eq, permuted_eq, U16x16.ofU32x8_shuffle,
    List.mem_append, List.mem_flatMap, List.mem_map, List.mem_finRange, true_and, List.mem_cons,
    List.not_mem_nil, or_false, meetings, exists_eq_or_imp, exists_eq_left, ← exists_or]
  refine exists_congr fun r => ?_
  simp only [shuffled, rotatedShuffled, Function.comp_assoc, or_assoc, eq_comm]

/-! ## Accepting a draw -/

/-- One round of the loop: the indices are returned if no two compared lanes agreed. -/
def accepted (raw : Draw) : Bool :=
  let indices := transformRandomIntoArraysOfSizeTenStoredAsAVector raw.cast
  let acu := (visitPermutations indices).foldl
    (fun acu p => acu ||| (U8x32.ofU16x16 (p.1.cmpEq p.2)).mostSignificantBits) 0#32
  acu == 0#32

/-- The loop over the draws of the generator; `none` if it breaks at none of them. -/
def matrixEntriesVectorized : List Draw → Option (Fin 4 → U16x16)
  | [] => none
  | raw :: rng =>
    if accepted raw then some (transformRandomIntoArraysOfSizeTenStoredAsAVector raw.cast)
    else matrixEntriesVectorized rng

/-- The indices of the lower ten lanes. -/
def rows (indices : Fin 4 → U16x16) (r : Fin 4) (i : Fin 10) : BitVec 16 := indices r (rowLane i)

/-- The vectors that are made of a draw. -/
def Draw.vectors (raw : Draw) : Fin 4 → U16x16 :=
  transformRandomIntoArraysOfSizeTenStoredAsAVector raw.cast

def Draw.rows (raw : Draw) : Fin 4 → Fin 10 → BitVec 16 := LpnIndices.rows raw.vectors

theorem meetings_apart : ∀ m ∈ meetings, ∀ k, m.1 k < 10 ∧ m.2 k < 10 ∧ m.1 k ≠ m.2 k := by
  have hall : meetings.all fun m => (List.finRange 16).all fun k =>
      m.1 k < 10 && m.2 k < 10 && m.1 k != m.2 k := by decide +kernel
  intro m hm k
  have hlane := List.all_eq_true.mp (List.all_eq_true.mp hall m hm) k (List.mem_finRange k)
  simpa [and_assoc] using hlane

theorem exists_meeting : ∀ i j : Fin 10, i < j → ∃ m ∈ meetings, ∃ k,
    (m.1 k = rowLane i ∧ m.2 k = rowLane j) ∨ (m.1 k = rowLane j ∧ m.2 k = rowLane i) := by
  decide +kernel

theorem accepted_iff_apart (raw : Draw) : accepted raw ↔
    ∀ r, ∀ m ∈ meetings, ∀ k, raw.vectors r (m.1 k) ≠ raw.vectors r (m.2 k) := by
  rw [accepted, beq_iff_eq, foldl_or_eq_zero]
  simp only [true_and, mostSignificantBits_cmpEq, mem_visitPermutations]
  constructor
  · intro h r m hm k
    exact h _ ⟨r, m, hm, rfl⟩ k
  · rintro h _ ⟨r, m, hm, rfl⟩ k
    exact h r m hm k

theorem rows_apply (raw : Draw) (r : Fin 4) (i : Fin 10) :
    raw.rows r i = raw.vectors r (rowLane i) := rfl

theorem accepted_iff (raw : Draw) : accepted raw ↔ ∀ r, Function.Injective (raw.rows r) := by
  rw [accepted_iff_apart]
  generalize hvectors : raw.vectors = vectors
  simp only [Function.Injective, rows_apply, hvectors]
  refine forall_congr' fun r => ⟨fun h i j hij => ?_, fun h m hm k => ?_⟩
  · by_contra hne
    rcases lt_or_gt_of_ne hne with hlt | hlt
    · obtain ⟨m, hm, k, ⟨h1, h2⟩ | ⟨h1, h2⟩⟩ := exists_meeting i j hlt
      · exact h m hm k (by rw [h1, h2, hij])
      · exact h m hm k (by rw [h1, h2, hij])
    · obtain ⟨m, hm, k, ⟨h1, h2⟩ | ⟨h1, h2⟩⟩ := exists_meeting j i hlt
      · exact h m hm k (by rw [h1, h2, hij])
      · exact h m hm k (by rw [h1, h2, hij])
  · obtain ⟨h1, h2, hne⟩ := meetings_apart m hm k
    intro heq
    have hlane : (⟨m.1 k, h1⟩ : Fin 10) = ⟨m.2 k, h2⟩ := h heq
    exact hne (Fin.ext (Fin.mk.inj hlane))

/-! ## The accepted rows -/

theorem rows_eq (raw : Draw) (r : Fin 4) (i : Fin 10) :
    raw.rows r i = raw.cast (positions (r, i)).1 (positions (r, i)).2 :=
  transform_eq raw.cast r (rowLane i)

theorem Draw.cast_bijective : Function.Bijective Draw.cast :=
  Function.Bijective.piMap fun _ => U16x8.ofU8x16_bijective

theorem Draw.rows_bijective : Function.Bijective Draw.rows := by
  let read : (Fin 5 → Fin 8 → BitVec 16) ≃ (Fin 4 → Fin 10 → BitVec 16) :=
    (Equiv.curry (Fin 5) (Fin 8) (BitVec 16)).symm.trans
      ((Equiv.arrowCongr positions.symm (Equiv.refl (BitVec 16))).trans
        (Equiv.curry (Fin 4) (Fin 10) (BitVec 16)))
  have hread : Draw.rows = read ∘ Draw.cast := by
    funext raw r i
    exact rows_eq raw r i
  rw [hread]
  exact read.bijective.comp Draw.cast_bijective

/-- The rows that the loop returns on the draws `rng`. -/
def outcome (rng : List Draw) : Option (Fin 4 → Fin 10 → BitVec 16) :=
  (matrixEntriesVectorized rng).map rows

theorem outcome_cons (raw : Draw) (rng : List Draw) :
    outcome (raw :: rng) = if accepted raw then some raw.rows else outcome rng := by
  unfold outcome
  rw [matrixEntriesVectorized]
  split
  · rfl
  · rfl

theorem outcome_map_swap [DecidableEq Draw] {a b : Draw} (ha : accepted a) (hb : accepted b)
    (rng : List Draw) :
    outcome (rng.map (Equiv.swap a b)) = some b.rows ↔ outcome rng = some a.rows := by
  induction rng with
  | nil => exact ⟨nofun, nofun⟩
  | cons raw rng ih =>
    have haccepted : accepted (Equiv.swap a b raw) = accepted raw := by
      rw [Equiv.swap_apply_def]
      split_ifs with h1 h2
      · rw [h1, ha, hb]
      · rw [h2, ha, hb]
      · rfl
    rw [List.map_cons, outcome_cons, outcome_cons, haccepted]
    split
    · rw [Option.some_inj, Option.some_inj, Draw.rows_bijective.1.eq_iff,
        Draw.rows_bijective.1.eq_iff, Equiv.swap_apply_eq_iff, Equiv.swap_apply_right]
    · exact ih

/-- A row of an accepted draw: ten indices of which no two are equal. -/
abbrev Arrangement : Type := Fin 10 ↪ BitVec 16

def indices (arrangements : Fin 4 → Arrangement) : Fin 4 → Fin 10 → BitVec 16 :=
  fun r i => arrangements r i

theorem existsUnique_draw (arrangements : Fin 4 → Arrangement) :
    ∃! raw : Draw, accepted raw ∧ raw.rows = indices arrangements := by
  obtain ⟨raw, hraw, huniq⟩ := Draw.rows_bijective.existsUnique (indices arrangements)
  refine ⟨raw, ⟨?_, hraw⟩, fun raw' h => huniq raw' h.2⟩
  rw [accepted_iff]
  intro r
  rw [hraw]
  exact (arrangements r).injective

theorem card_outcome_eq (n : ℕ) (arrangements arrangements' : Fin 4 → Arrangement) :
    Nat.card {rng : Fin n → Draw // outcome (List.ofFn rng) = some (indices arrangements)} =
      Nat.card {rng : Fin n → Draw // outcome (List.ofFn rng) = some (indices arrangements')} := by
  classical
  obtain ⟨a, ⟨ha, hrows⟩, -⟩ := existsUnique_draw arrangements
  obtain ⟨b, ⟨hb, hrows'⟩, -⟩ := existsUnique_draw arrangements'
  rw [← hrows, ← hrows']
  refine Nat.card_congr ((Equiv.arrowCongr (Equiv.refl (Fin n)) (Equiv.swap a b)).subtypeEquiv ?_)
  intro rng
  rw [← outcome_map_swap ha hb, List.map_ofFn]
  rfl

/-- A draw is accepted exactly if no row has an index twice; the rows of a draw are its forty
positions, each in one place; and every choice of four rows without repetition is returned equally
often, from one draw and over runs of any length. -/
theorem matrixEntries_rejectionSampled :
    (∀ raw : Draw, accepted raw ↔ ∀ r, Function.Injective (raw.rows r)) ∧
    (∃ positions : Fin 4 × Fin 10 ≃ Fin 5 × Fin 8, ∀ (raw : Draw) r i,
      raw.rows r i = raw.cast (positions (r, i)).1 (positions (r, i)).2) ∧
    (∀ arrangements : Fin 4 → Arrangement,
      ∃! raw : Draw, accepted raw ∧ raw.rows = indices arrangements) ∧
    (∀ (n : ℕ) (arrangements arrangements' : Fin 4 → Arrangement),
      Nat.card {rng : Fin n → Draw // outcome (List.ofFn rng) = some (indices arrangements)} =
        Nat.card {rng : Fin n → Draw //
          outcome (List.ofFn rng) = some (indices arrangements')}) :=
  ⟨accepted_iff, ⟨positions, rows_eq⟩, existsUnique_draw, card_outcome_eq⟩

end EdaBitGen.MacNCheese.LpnIndices
