import EdaBitGen.Ocelot.Bits

/-!
# Sequences of bits

The serializer packs elements of the binary field into words of 64 bits. The deserializer starts a new
word before it reads one, so that a read that fails leaves it at the start of the word before.
-/

namespace EdaBitGen.Scuttlebutt

open Ocelot (Bytes and_oneShift getBit getBit_append getBit_append_right getBit_slice)

abbrev Word : Type := BitVec 64

def toLeBytes (w : Word) : Bytes := (List.range 8).map fun i => w.extractLsb' (i * 8) 8

def fromLeBytes (buf : Bytes) : Word := (BitVec.ofBoolListLE ((List.range 64).map (getBit buf))).setWidth 64

/-! ## The serializer -/

structure F2BitSerializer where
  currentWord : Word
  numBits : ℕ

namespace F2BitSerializer

def serializedSize (n : ℕ) : ℕ := (n / 64 + (if n % 64 = 0 then 0 else 1)) * 8

def new : F2BitSerializer := ⟨0, 0⟩

/-- The serializer and the destination after an element. -/
def write (s : F2BitSerializer) (dst : Bytes) (fe : Bool) : F2BitSerializer × Bytes :=
  let currentWord := s.currentWord ||| (BitVec.ofNat 64 fe.toNat <<< s.numBits)
  let numBits := s.numBits + 1
  if numBits = 64 then (⟨0, 0⟩, dst ++ toLeBytes currentWord) else (⟨currentWord, numBits⟩, dst)

def finish (s : F2BitSerializer) (dst : Bytes) : Bytes :=
  if s.numBits > 0 then dst ++ toLeBytes s.currentWord else dst

end F2BitSerializer

/-- What a sequence is written as. -/
def serialize (elements : List Bool) : Bytes :=
  let (s, dst) := elements.foldl (fun s fe => s.1.write s.2 fe) (F2BitSerializer.new, [])
  s.finish dst

/-! ## The deserializer -/

structure F2BitDeserializer where
  currentWord : Word
  numBits : ℕ
  deriving DecidableEq

namespace F2BitDeserializer

def new : F2BitDeserializer := ⟨0, 64⟩

/-- Fill a buffer of `n` bytes. A source without enough bytes is left with what `short` says. -/
def readExact (short : Bytes → Bytes) (n : ℕ) (src : Bytes) : Option Bytes × Bytes :=
  if n ≤ src.length then (some (src.take n), src.drop n) else (none, short src)

/-- The element, if there is one, and the deserializer and the source after the read. -/
def read (short : Bytes → Bytes) (s : F2BitDeserializer) (src : Bytes) :
    Option Bool × F2BitDeserializer × Bytes :=
  if s.numBits = 64 then
    match readExact short 8 src with
    | (none, src) => (none, ⟨s.currentWord, 0⟩, src)
    | (some buf, src) =>
      let currentWord := fromLeBytes buf
      (some (currentWord &&& (1#64 <<< 0) != 0), ⟨currentWord, 1⟩, src)
  else
    (some (s.currentWord &&& (1#64 <<< s.numBits) != 0), ⟨s.currentWord, s.numBits + 1⟩, src)

/-- Where reads leave the deserializer and its source, and how many of them returned an element. -/
def after (short : Bytes → Bytes) (src : Bytes) : ℕ → F2BitDeserializer × Bytes × ℕ
  | 0 => (new, src, 0)
  | n + 1 =>
    let (s, src, count) := after short src n
    let (fe, s, src) := s.read short src
    (s, src, if fe.isSome then count + 1 else count)

/-- Reads one after the other, until one fails. -/
def readMany (short : Bytes → Bytes) (s : F2BitDeserializer) (src : Bytes) : ℕ → Option (List Bool × Bytes)
  | 0 => some ([], src)
  | n + 1 => do
    let (some fe, s, src) := s.read short src | none
    let (elements, src) ← readMany short s src n
    pure (fe :: elements, src)

end F2BitDeserializer

/-- The sequence takes the announced bytes, and reading it takes all of them. -/
def RoundTrip (short : Bytes → Bytes) (elements : List Bool) : Prop :=
  (serialize elements).length = F2BitSerializer.serializedSize elements.length ∧
    ∀ rest, F2BitDeserializer.new.readMany short (serialize elements ++ rest) elements.length =
      some (elements, rest)

/-- A read that fails leaves the deserializer as it was, and an element that a read returns is the next
one of the source. -/
def Faithful (short : Bytes → Bytes) (src : Bytes) (reads : ℕ) : Prop :=
  ∀ n < reads,
    let (s, rest, count) := F2BitDeserializer.after short src n
    let (fe, s', _) := s.read short rest
    (fe = none → s' = s) ∧ ∀ b, fe = some b → count < src.length * 8 ∧ b = getBit src count

theorem length_toLeBytes (w : Word) : (toLeBytes w).length = 8 := by
  rw [toLeBytes, List.length_map, List.length_range]

theorem getBit_toLeBytes (w : Word) {i : ℕ} (hi : i < 64) : getBit (toLeBytes w) i = w.getLsbD i := by
  have hbyte : i / 8 < 8 := by omega
  unfold getBit toLeBytes
  rw [List.getD_eq_getElem?_getD, List.getElem?_map, List.getElem?_range hbyte]
  show (w.extractLsb' (i / 8 * 8) 8).getLsbD (i % 8) = w.getLsbD i
  rw [BitVec.getLsbD_extractLsb', decide_eq_true (by omega), Bool.true_and,
    (by omega : i / 8 * 8 + i % 8 = i)]

theorem getLsbD_fromLeBytes (buf : Bytes) {i : ℕ} (hi : i < 64) :
    (fromLeBytes buf).getLsbD i = getBit buf i := by
  unfold fromLeBytes
  rw [BitVec.getLsbD_setWidth, BitVec.getLsbD_ofBoolListLE, List.getD_eq_getElem?_getD,
    List.getElem?_map, List.getElem?_range hi, decide_eq_true hi]
  rfl

theorem getLsbD_or_bit (w : Word) (b : Bool) {k i : ℕ} (hi : i < 64) :
    (w ||| (BitVec.ofNat 64 b.toNat <<< k)).getLsbD i = (w.getLsbD i || (b && decide (i = k))) := by
  rw [BitVec.getLsbD_or]
  cases b with
  | false => simp
  | true =>
    have hone : BitVec.ofNat 64 true.toNat <<< k = BitVec.twoPow 64 k := (BitVec.twoPow_eq 64 k).symm
    rw [hone, BitVec.getLsbD_twoPow, Bool.true_and]
    by_cases h : k = i
    · subst h
      simp [hi]
    · simp [h, Ne.symm h]

/-! ## Writing -/

theorem getD_concat (l : List Bool) (b : Bool) (i : ℕ) :
    (l ++ [b]).getD i false = (l.getD i false || (b && decide (i = l.length))) := by
  rcases Nat.lt_trichotomy i l.length with hlt | rfl | hgt
  · rw [List.getD_append _ _ _ _ hlt, decide_eq_false (by omega), Bool.and_false, Bool.or_false]
  · rw [List.getD_append_right _ _ _ _ (Nat.le_refl _), List.getD_eq_default _ _ (Nat.le_refl _)]
    simp
  · rw [List.getD_eq_default _ _ (by rw [List.length_append, List.length_singleton]; omega),
      List.getD_eq_default _ _ (by omega), decide_eq_false (by omega)]
    simp

/-- The words written are the first ones of the sequence, and the current one has the bits after them. -/
structure Written (elements : List Bool) (s : F2BitSerializer) (dst : Bytes) : Prop where
  length_dst : dst.length = elements.length / 64 * 8
  numBits_eq : s.numBits = elements.length % 64
  getBit_dst : ∀ i < elements.length / 64 * 64, getBit dst i = elements.getD i false
  getLsbD_currentWord : ∀ i < 64,
    s.currentWord.getLsbD i = elements.getD (elements.length / 64 * 64 + i) false

theorem Written.concat {elements : List Bool} {s : F2BitSerializer} {dst : Bytes}
    (h : Written elements s dst) (fe : Bool) :
    Written (elements ++ [fe]) (s.write dst fe).1 (s.write dst fe).2 := by
  have hlen : (elements ++ [fe]).length = elements.length + 1 := List.length_append
  have hword : ∀ i < 64, (s.currentWord ||| (BitVec.ofNat 64 fe.toNat <<< s.numBits)).getLsbD i =
      (elements ++ [fe]).getD (elements.length / 64 * 64 + i) false := by
    intro i hi
    have hiff : (i = s.numBits) ↔ elements.length / 64 * 64 + i = elements.length := by
      rw [h.numBits_eq]
      omega
    rw [getLsbD_or_bit _ _ hi, h.getLsbD_currentWord i hi, getD_concat]
    simp only [hiff]
  have hbits : ∀ i < elements.length / 64 * 64, getBit dst i = (elements ++ [fe]).getD i false := by
    intro i hi
    rw [h.getBit_dst i hi, List.getD_append _ _ _ _ (by omega)]
  unfold F2BitSerializer.write
  dsimp only
  by_cases hfull : s.numBits + 1 = 64
  · have hnum := h.numBits_eq
    rw [if_pos hfull]
    refine ⟨?_, ?_, ?_, ?_⟩
    · rw [List.length_append, length_toLeBytes, h.length_dst, hlen]
      omega
    · rw [hlen]
      show 0 = _
      omega
    · intro i hi
      by_cases hi' : i < elements.length / 64 * 64
      · rw [getBit_append _ _ (by rw [h.length_dst]; omega), hbits i hi']
      · rw [hlen] at hi
        rw [getBit_append_right _ _ (by rw [h.length_dst]; omega), h.length_dst,
          getBit_toLeBytes _ (by omega), hword _ (by omega)]
        congr 1
        omega
    · intro i _
      rw [List.getD_eq_default _ _ (by rw [hlen]; omega)]
      exact BitVec.getLsbD_zero
  · have hnum := h.numBits_eq
    rw [if_neg hfull]
    refine ⟨?_, ?_, ?_, ?_⟩
    · rw [h.length_dst, hlen]
      omega
    · rw [hlen]
      show s.numBits + 1 = _
      omega
    · rw [hlen, (by omega : (elements.length + 1) / 64 = elements.length / 64)]
      exact hbits
    · rw [hlen, (by omega : (elements.length + 1) / 64 = elements.length / 64)]
      exact hword

theorem written_foldl (elements : List Bool) :
    Written elements (elements.foldl (fun s fe => s.1.write s.2 fe) (F2BitSerializer.new, [])).1
      (elements.foldl (fun s fe => s.1.write s.2 fe) (F2BitSerializer.new, [])).2 := by
  induction elements using List.reverseRecOn with
  | nil => exact ⟨rfl, rfl, fun i hi => absurd hi (by simp), fun i _ => by simp [F2BitSerializer.new]⟩
  | append_singleton elements fe ih =>
    rw [List.foldl_append]
    exact ih.concat fe

theorem length_serialize (elements : List Bool) :
    (serialize elements).length = F2BitSerializer.serializedSize elements.length := by
  have h := written_foldl elements
  have hlen := h.length_dst
  have hnum := h.numBits_eq
  unfold serialize F2BitSerializer.serializedSize F2BitSerializer.finish
  dsimp only
  split
  · rw [List.length_append, length_toLeBytes, if_neg (by omega)]
    omega
  · rw [if_pos (by omega)]
    omega

theorem getBit_serialize (elements : List Bool) {i : ℕ} (hi : i < elements.length) :
    getBit (serialize elements) i = elements.getD i false := by
  have h := written_foldl elements
  have hlen := h.length_dst
  have hnum := h.numBits_eq
  unfold serialize F2BitSerializer.finish
  dsimp only
  by_cases hi' : i < elements.length / 64 * 64
  · split
    · rw [getBit_append _ _ (by omega), h.getBit_dst i hi']
    · exact h.getBit_dst i hi'
  · rw [if_pos (by omega), getBit_append_right _ _ (by omega), getBit_toLeBytes _ (by omega),
      h.getLsbD_currentWord _ (by omega)]
    congr 1
    omega

/-! ## Reading -/

/-- The deserializer after the first `n` elements of a source. -/
structure Position (src : Bytes) (n : ℕ) (s : F2BitDeserializer) (rest : Bytes) : Prop where
  le : n ≤ src.length / 8 * 64
  numBits_eq : s.numBits + (n + 63) / 64 * 64 = n + 64
  rest_eq : rest = src.drop ((n + 63) / 64 * 8)
  getLsbD_currentWord : 0 < n → ∀ i < 64,
    s.currentWord.getLsbD i = getBit src (((n + 63) / 64 - 1) * 64 + i)

variable (short : Bytes → Bytes)

theorem position_new (src : Bytes) : Position src 0 F2BitDeserializer.new src :=
  ⟨Nat.zero_le _, rfl, rfl, fun h => absurd h (Nat.lt_irrefl 0)⟩

theorem Position.read {src rest : Bytes} {n : ℕ} {s : F2BitDeserializer}
    (h : Position src n s rest) (hn : n < src.length / 8 * 64) :
    ∃ s' rest', s.read short rest = (some (getBit src n), s', rest') ∧ Position src (n + 1) s' rest' := by
  have hnum := h.numBits_eq
  unfold F2BitDeserializer.read
  by_cases hfull : s.numBits = 64
  · -- The next word is read.
    have hlen : 8 ≤ rest.length := by
      rw [h.rest_eq, List.length_drop]
      omega
    have hword : ∀ i < 64, (fromLeBytes (rest.take 8)).getLsbD i = getBit src (n + i) := by
      intro i hi
      rw [getLsbD_fromLeBytes _ hi, h.rest_eq, getBit_slice _ _ (by omega),
        (by omega : (n + 63) / 64 * 8 * 8 + i = n + i)]
    rw [if_pos hfull, F2BitDeserializer.readExact, if_pos hlen]
    dsimp only
    rw [and_oneShift _ (by omega), hword 0 (by omega)]
    refine ⟨_, _, rfl, by omega, ?_, ?_, fun _ i hi => ?_⟩
    · show 1 + _ = _
      omega
    · rw [h.rest_eq, List.drop_drop]
      congr 1
      omega
    · rw [hword i hi]
      congr 1
      omega
  · have hpos : 0 < n := by omega
    have hbit := h.getLsbD_currentWord hpos s.numBits (by omega)
    rw [if_neg hfull, and_oneShift _ (by omega), hbit,
      (by omega : ((n + 63) / 64 - 1) * 64 + s.numBits = n)]
    refine ⟨_, _, rfl, by omega, ?_, ?_, fun _ => ?_⟩
    · show s.numBits + 1 + _ = _
      omega
    · rw [h.rest_eq, (by omega : (n + 1 + 63) / 64 = (n + 63) / 64)]
    · rw [(by omega : (n + 1 + 63) / 64 = (n + 63) / 64)]
      exact h.getLsbD_currentWord hpos

theorem Position.read_end {src rest : Bytes} {s : F2BitDeserializer}
    (h : Position src (src.length / 8 * 64) s rest) :
    s.read short rest = (none, ⟨s.currentWord, 0⟩, short rest) ∧ s.numBits = 64 := by
  have hnum := h.numBits_eq
  have hfull : s.numBits = 64 := by omega
  have hlen : ¬8 ≤ rest.length := by
    rw [h.rest_eq, List.length_drop]
    omega
  unfold F2BitDeserializer.read
  rw [if_pos hfull, F2BitDeserializer.readExact, if_neg hlen]
  exact ⟨rfl, hfull⟩

theorem Position.readMany {src rest : Bytes} {n : ℕ} {s : F2BitDeserializer}
    (h : Position src n s rest) {m : ℕ} (hm : n + m ≤ src.length / 8 * 64) :
    s.readMany short rest m =
      some ((List.range' n m).map (getBit src), src.drop ((n + m + 63) / 64 * 8)) := by
  induction m generalizing n s rest with
  | zero => rw [F2BitDeserializer.readMany, h.rest_eq, Nat.add_zero]; rfl
  | succ m ih =>
    obtain ⟨s', rest', hread, h'⟩ := h.read short (by omega)
    have hrest := ih h' (by omega)
    unfold F2BitDeserializer.readMany
    rw [hread]
    refine (congrArg (fun o => Option.bind o _) hrest).trans ?_
    rw [List.range'_succ, (by omega : n + 1 + m = n + (m + 1))]
    rfl

theorem position_after (src : Bytes) {n : ℕ} (hn : n ≤ src.length / 8 * 64) :
    ∃ s rest, F2BitDeserializer.after short src n = (s, rest, n) ∧ Position src n s rest := by
  induction n with
  | zero => exact ⟨_, _, rfl, position_new src⟩
  | succ n ih =>
    obtain ⟨s, rest, hafter, h⟩ := ih (by omega)
    obtain ⟨s', rest', hread, h'⟩ := h.read short (by omega)
    refine ⟨s', rest', ?_, h'⟩
    unfold F2BitDeserializer.after
    rw [hafter]
    dsimp only
    rw [hread]
    rfl

theorem roundTrip (elements : List Bool) : RoundTrip short elements := by
  have hlen := length_serialize elements
  refine ⟨hlen, fun rest => ?_⟩
  unfold F2BitSerializer.serializedSize at hlen
  have hwords : (serialize elements).length = (elements.length + 63) / 64 * 8 := by
    rw [hlen]
    split <;> omega
  have hmany := (position_new (serialize elements ++ rest)).readMany short (m := elements.length) (by
    rw [List.length_append]
    omega)
  rw [hmany, Nat.zero_add, ← hwords, List.drop_left]
  refine congrArg (fun xs => some (xs, rest)) ?_
  apply List.ext_getElem
  · rw [List.length_map, List.length_range']
  · intro i hi hi'
    rw [List.getElem_map, List.getElem_range', Nat.zero_add, Nat.one_mul,
      getBit_append _ _ (by omega), getBit_serialize _ hi', List.getD_eq_getElem _ _ hi']

theorem Faithful.read {src rest : Bytes} {reads n count : ℕ} {s : F2BitDeserializer}
    (h : Faithful short src reads) (hn : n < reads)
    (hafter : F2BitDeserializer.after short src n = (s, rest, count)) :
    ((s.read short rest).1 = none → (s.read short rest).2.1 = s) ∧
      ∀ b, (s.read short rest).1 = some b → count < src.length * 8 ∧ b = getBit src count := by
  have hread := h n hn
  rw [hafter] at hread
  exact hread

/-- The sequence is read as it was written, and reads are faithful unless one comes after the last word
of the source. -/
theorem f2Sequence_iff (elements : List Bool) (src : Bytes) (reads : ℕ) :
    RoundTrip short elements ∧ Faithful short src reads ↔ reads ≤ src.length / 8 * 64 := by
  constructor
  · rintro ⟨-, h⟩
    by_contra hlt
    obtain ⟨s, rest, hafter, hposition⟩ := position_after short src (Nat.le_refl _)
    have ⟨hread, hfull⟩ := hposition.read_end short
    have hsame := h.read short (Nat.lt_of_not_le hlt) hafter
    rw [hread] at hsame
    have hzero : 0 = s.numBits := congrArg F2BitDeserializer.numBits (hsame.1 rfl)
    omega
  · intro h
    refine ⟨roundTrip short elements, fun n hn => ?_⟩
    obtain ⟨s, rest, hafter, hposition⟩ := position_after short src (n := n) (by omega)
    obtain ⟨s', rest', hread, -⟩ := hposition.read short (by omega)
    rw [hafter]
    dsimp only
    rw [hread]
    refine ⟨fun hnone => absurd hnone (Option.some_ne_none _), fun b hb => ⟨by omega, (Option.some.inj hb).symm⟩⟩

/-- The source has the word of one element. The last read returns the element again. -/
theorem not_faithful_pastEnd : ¬∀ reads, RoundTrip id [true] ∧ Faithful id (serialize [true]) reads := by
  intro h
  have hafter : F2BitDeserializer.after id (serialize [true]) 65 = (⟨1#64, 0⟩, [], 64) := by
    decide +kernel
  have hlen : (serialize [true]).length * 8 = 64 := by decide +kernel
  have hread := ((h 66).2.read id (by omega : 65 < 66) hafter).2 true (by decide)
  have hlt := hread.1
  omega

end EdaBitGen.Scuttlebutt
