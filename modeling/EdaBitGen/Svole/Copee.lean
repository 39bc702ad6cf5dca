import EdaBitGen.Edabits.Basic

/-!
# Correlated oblivious products

The receiver holds `Δ`.  In each call the sender gives an input of the prime field, and the two
obtain `w` and `v` for which `w = v + input * Δ` is wanted.  Behind it stand the seeds of a random
oblivious transfer, one pair for each bit of `Δ`: the sender has both seeds of a pair, the receiver
the one that the bit chooses.
-/

namespace EdaBitGen

open Interaction Party

/-! ## Bits of field elements -/

/-- A field with the decomposition of its elements into bits: a block of `numberOfBits p` bits for
each power of the generator below the degree. -/
structure BitDecomposition (p : ℕ) (FE : Type) [Field FE] where
  degree : ℕ
  generator : FE
  generator_ne_zero : generator ≠ 0
  bitDecomposition : FE → List Bool
  length_bitDecomposition : ∀ x, (bitDecomposition x).length = degree * numberOfBits p
  sum_bitDecomposition : ∀ x, ∑ j ∈ Finset.range degree, ∑ k ∈ Finset.range (numberOfBits p),
    (if (bitDecomposition x).getD (j * numberOfBits p + k) false then 1 else 0) *
      (2 ^ k * generator ^ j) = x

namespace BitDecomposition

variable {p : ℕ} {FE : Type} [Field FE] (E : BitDecomposition p FE)

def bit (x : FE) (i : ℕ) : Bool := (E.bitDecomposition x).getD i false

/-- The powers of the generator below the degree. -/
def genPows : List FE := List.iterate (· * E.generator) 1 E.degree

/-- The powers of two that weight the bits of a block. -/
def twos (_ : BitDecomposition p FE) : List FE := List.iterate (· * (1 + 1)) 1 (numberOfBits p)

theorem zipIdx_iterate_mul (g : FE) (n : ℕ) :
    (List.iterate (· * g) 1 n).zipIdx = (List.range n).map fun i => (g ^ i, i) := by
  have hpow : ∀ i, (fun x => x * g)^[i] 1 = g ^ i := fun i => by simp
  apply List.ext_getElem?
  intro i
  simp only [List.getElem?_zipIdx, List.getElem?_map]
  by_cases h : i < n
  · simp [h, hpow]
  · simp [h]

theorem sum_zipIdx_iterate_mul (g : FE) (n : ℕ) (f : FE × ℕ → FE) :
    ((List.iterate (· * g) 1 n).zipIdx.map f).sum = ∑ i ∈ Finset.range n, f (g ^ i, i) := by
  rw [zipIdx_iterate_mul, List.map_map]
  rfl

theorem zipIdx_genPows :
    E.genPows.zipIdx = (List.range E.degree).map fun j => (E.generator ^ j, j) :=
  zipIdx_iterate_mul _ _

theorem zipIdx_twos :
    E.twos.zipIdx = (List.range (numberOfBits p)).map fun k => ((1 + 1) ^ k, k) :=
  zipIdx_iterate_mul _ _

theorem getElem?_bitDecomposition {x : FE} {i : ℕ} (h : i < E.degree * numberOfBits p) :
    (E.bitDecomposition x)[i]? = some (E.bit x i) := by
  rw [← E.length_bitDecomposition x] at h
  rw [bit, List.getD_eq_getElem?_getD, List.getElem?_eq_getElem h, Option.getD_some]

theorem index_lt {j k : ℕ} (hj : j < E.degree) (hk : k < numberOfBits p) :
    j * numberOfBits p + k < E.degree * numberOfBits p :=
  calc j * numberOfBits p + k < (j + 1) * numberOfBits p := by rw [Nat.succ_mul]; omega
    _ ≤ E.degree * numberOfBits p := Nat.mul_le_mul_right _ hj

theorem add_lt {j k : ℕ} (hj : j < E.degree) (hk : k < numberOfBits p) :
    j + k < E.degree * numberOfBits p := by
  have hle : j ≤ j * numberOfBits p := Nat.le_mul_of_pos_right j (by omega)
  have := E.index_lt hj hk
  omega

end BitDecomposition

/-! ## The two parties -/

structure CopeeSender (FE : Type) where
  aesObjs : List (Block × Block)
  pows : List FE
  twos : List FE
  nbits : ℕ
  counter : UInt64

structure CopeeReceiver (FE : Type) where
  delta : FE
  choices : List Bool
  aesObjs : List Block
  pows : List FE
  twos : List FE
  nbits : ℕ
  counter : UInt64

/-- What a random oblivious transfer gives to the receiver of these choices. -/
def receiveRandom (choices : List Bool) (keys : List (Block × Block)) : List Block :=
  List.zipWith (fun choice key => if choice then key.2 else key.1) choices keys

variable {p : ℕ} {FE M G : Type} [Field FE]

/-- The sender with the pairs of seeds that the oblivious transfer gave to it. -/
def CopeeSender.init (E : BitDecomposition p FE) (keys : List (Block × Block)) : CopeeSender FE where
  aesObjs := keys
  pows := E.genPows
  twos := E.twos
  nbits := numberOfBits p
  counter := 0

/-- The receiver with its `delta` and the seeds that the oblivious transfer gave to it. -/
def CopeeReceiver.initWithPickedDelta (E : BitDecomposition p FE) (delta : FE)
    (keys : List (Block × Block)) : CopeeReceiver FE where
  delta := delta
  choices := E.bitDecomposition delta
  aesObjs := receiveRandom (E.bitDecomposition delta) keys
  pows := E.genPows
  twos := E.twos
  nbits := numberOfBits p
  counter := 0

/-- The block that the pseudo-random function gets in the call with this number. -/
def counterBlock (counter : UInt64) : Block := BitVec.ofNat 128 counter.toNat

section Calls

variable [Fact p.Prime] [Algebra (ZMod p) FE] [CanonicalSerialize M (ZMod p)]

/-- The sender's work for the pair of seeds of bit `j` of block `i`. -/
def CopeeSender.sendPair (prf : Block → Block → ZMod p) (input : ZMod p) (s : CopeeSender FE) (i : ℕ)
    (sum : FE) (two : FE × ℕ) : Party M G (CopeeSender FE) FE :=
  match s.aesObjs[i * s.nbits + two.2]? with
  | none => abort "index out of bounds"
  | some key => do
    let w0 := prf key.1 (counterBlock s.counter)
    let w1 := prf key.2 (counterBlock s.counter)
    writeSerializable (w0 - w1 - input)
    pure (sum + algebraMap (ZMod p) FE w0 * two.1)

def CopeeSender.sendBlock (prf : Block → Block → ZMod p) (input : ZMod p) (s : CopeeSender FE)
    (w : FE) (pow : FE × ℕ) : Party M G (CopeeSender FE) FE := do
  let sum ← s.twos.zipIdx.foldlM (s.sendPair prf input pow.2) 0
  pure (w + sum * pow.1)

def CopeeSender.send (prf : Block → Block → ZMod p) (input : ZMod p) :
    Party M G (CopeeSender FE) FE := do
  let s ← get
  let w ← s.pows.zipIdx.foldlM (s.sendBlock prf input) 0
  act fun s => ((), { s with counter := s.counter + 1 })
  pure w

/-- The receiver's work for the seed of bit `k` of block `j`.  The seed stands at `j * nbits + k`,
the choice is read at `j + k`. -/
def CopeeReceiver.receivePair (prf : Block → Block → ZMod p) (t : CopeeReceiver FE) (j : ℕ)
    (sum : FE) (two : FE × ℕ) : Party M G (CopeeReceiver FE) FE :=
  match t.aesObjs[j * t.nbits + two.2]? with
  | none => abort "index out of bounds"
  | some key => do
    let w := prf key (counterBlock t.counter)
    let tau ← readSerializable
    match t.choices[j + two.2]? with
    | none => abort "index out of bounds"
    | some choice => pure (sum + algebraMap (ZMod p) FE (if choice then tau + w else w) * two.1)

def CopeeReceiver.receiveBlock (prf : Block → Block → ZMod p) (t : CopeeReceiver FE) (res : FE)
    (pow : FE × ℕ) : Party M G (CopeeReceiver FE) FE := do
  let sum ← t.twos.zipIdx.foldlM (t.receivePair prf pow.2) 0
  pure (res + sum * pow.1)

def CopeeReceiver.receive (prf : Block → Block → ZMod p) : Party M G (CopeeReceiver FE) FE := do
  let t ← get
  let res ← t.pows.zipIdx.foldlM (t.receiveBlock prf) 0
  act fun t => ((), { t with counter := t.counter + 1 })
  pure res

end Calls

/-! ## The values of one call -/

section Values

variable {E : BitDecomposition p FE} {keys : List (Block × Block)} {delta : FE}

/-- The parties hold what the first steps gave to them, and are in the same call. -/
structure Paired (E : BitDecomposition p FE) (keys : List (Block × Block)) (delta : FE)
    (s : CopeeSender FE) (t : CopeeReceiver FE) : Prop where
  sender : s = { CopeeSender.init E keys with counter := s.counter }
  receiver : t = { CopeeReceiver.initWithPickedDelta E delta keys with counter := s.counter }

theorem paired_init : Paired E keys delta (CopeeSender.init E keys)
    (CopeeReceiver.initWithPickedDelta E delta keys) := ⟨rfl, rfl⟩

theorem getElem?_receiveRandom (hkeys : keys.length = E.degree * numberOfBits p) {i : ℕ}
    (h : i < E.degree * numberOfBits p) :
    (receiveRandom (E.bitDecomposition delta) keys)[i]? =
      some (if E.bit delta i then (keys.getD i (0, 0)).2 else (keys.getD i (0, 0)).1) := by
  have hi : i < keys.length := by omega
  rw [receiveRandom, List.getElem?_zipWith, E.getElem?_bitDecomposition h,
    List.getElem?_eq_getElem hi, List.getD_eq_getElem?_getD, List.getElem?_eq_getElem hi]
  rfl

variable [Algebra (ZMod p) FE] {prf : Block → Block → ZMod p}

def bitValue (p : ℕ) (b : Bool) : ZMod p := if b then 1 else 0

theorem bitValue_injective [Fact p.Prime] : Function.Injective (bitValue p) := by
  intro b c h
  cases b <;> cases c <;> simp_all [bitValue]

/-- The difference between the two values of the pair of bit `k` of block `j`. -/
def prfDifference (prf : Block → Block → ZMod p) (keys : List (Block × Block)) (pt : Block)
    (j k : ℕ) : ZMod p :=
  prf (keys.getD (j * numberOfBits p + k) (0, 0)).1 pt -
    prf (keys.getD (j * numberOfBits p + k) (0, 0)).2 pt

/-- What the sender adds for the pair of bit `k` of block `j`. -/
def sent (prf : Block → Block → ZMod p) (keys : List (Block × Block)) (pt : Block) (j k : ℕ) :
    ZMod p :=
  prf (keys.getD (j * numberOfBits p + k) (0, 0)).1 pt

/-- What the receiver adds for the pair of bit `k` of block `j`. -/
def received (E : BitDecomposition p FE) (delta : FE) (prf : Block → Block → ZMod p)
    (keys : List (Block × Block)) (pt : Block) (input : ZMod p) (j k : ℕ) : ZMod p :=
  sent prf keys pt j k -
    bitValue p (E.bit delta (j * numberOfBits p + k)) * prfDifference prf keys pt j k +
    bitValue p (E.bit delta (j + k)) * (prfDifference prf keys pt j k - input)

/-- The values of a block with their powers of two. -/
def weightedBlock (FE : Type) [Field FE] [Algebra (ZMod p) FE] (value : ℕ → ℕ → ZMod p) (j : ℕ) :
    FE :=
  ∑ k ∈ Finset.range (numberOfBits p), algebraMap (ZMod p) FE (value j k) * (1 + 1) ^ k

/-- The values of all pairs with the powers that weight them. -/
def weightedSum (E : BitDecomposition p FE) (value : ℕ → ℕ → ZMod p) : FE :=
  ∑ j ∈ Finset.range E.degree, weightedBlock FE value j * E.generator ^ j

/-- What is missing in the correlation of one call. -/
def drift (E : BitDecomposition p FE) (delta : FE) (prf : Block → Block → ZMod p)
    (keys : List (Block × Block)) (pt : Block) (input : ZMod p) : FE :=
  weightedSum E fun j k =>
    (bitValue p (E.bit delta (j * numberOfBits p + k)) - bitValue p (E.bit delta (j + k))) *
      (prfDifference prf keys pt j k - input)

theorem weightedSum_add (f h : ℕ → ℕ → ZMod p) :
    weightedSum E (fun j k => f j k + h j k) = weightedSum E f + weightedSum E h := by
  unfold weightedSum weightedBlock
  simp only [map_add, add_mul, Finset.sum_add_distrib]

theorem weightedSum_bits (input : ZMod p) (x : FE) :
    weightedSum E (fun j k => input * bitValue p (E.bit x (j * numberOfBits p + k))) =
      algebraMap (ZMod p) FE input * x := by
  conv_rhs => rw [← E.sum_bitDecomposition x, Finset.mul_sum]
  unfold weightedSum weightedBlock
  refine Finset.sum_congr rfl fun j _ => ?_
  rw [Finset.sum_mul, Finset.mul_sum]
  refine Finset.sum_congr rfl fun k _ => ?_
  beta_reduce
  unfold bitValue BitDecomposition.bit
  rw [one_add_one_eq_two]
  generalize (E.bitDecomposition x).getD (j * numberOfBits p + k) false = b
  cases b
  · simp
  · simp [mul_assoc]

theorem weightedSum_sent (pt : Block) (input : ZMod p) :
    weightedSum E (sent prf keys pt) = weightedSum E (received E delta prf keys pt input) +
      algebraMap (ZMod p) FE input * delta + drift E delta prf keys pt input := by
  rw [drift, ← weightedSum_bits input delta, ← weightedSum_add, ← weightedSum_add]
  congr 1
  funext j k
  unfold received
  ring

/-- A function that tells the seed zero from the others. -/
def isZeroSeed (p : ℕ) (key _ : Block) : ZMod p := if key = 0 then 1 else 0

/-- Pairs of zero seeds but for the second seed at `i`. -/
def oneSeed (n i : ℕ) : List (Block × Block) := (List.replicate n (0, 0)).set i (0, 1)

theorem prfDifference_oneSeed {n i : ℕ} (hi : i < n) (pt : Block) (j k : ℕ) :
    prfDifference (isZeroSeed p) (oneSeed n i) pt j k =
      if j * numberOfBits p + k = i then 1 else 0 := by
  unfold prfDifference oneSeed
  generalize j * numberOfBits p + k = l
  rw [List.getD_eq_getElem?_getD, List.getElem?_set]
  by_cases hl : l = i
  · subst hl
    simp [hi, isZeroSeed]
  · rw [if_neg (Ne.symm hl), if_neg hl, List.getElem?_replicate]
    split <;> simp [isZeroSeed]

end Values

/-! ## The correlation -/

section Correlation

variable [Fact p.Prime] [Algebra (ZMod p) FE] [CanonicalSerialize M (ZMod p)] {H : Type}
  {E : BitDecomposition p FE} {prf : Block → Block → ZMod p} {keys : List (Block × Block)}
  {delta : FE} {s : CopeeSender FE} {t : CopeeReceiver FE}

theorem sync_pair {rel : CopeeSender FE → CopeeReceiver FE → Prop} (hst : Paired E keys delta s t)
    (hkeys : keys.length = E.degree * numberOfBits p) (input : ZMod p) {j k : ℕ}
    (hj : j < E.degree) (hk : k < numberOfBits p) (two w v : FE) :
    Sync rel (s.sendPair prf input j w (two, k) : Party M G _ _)
      (t.receivePair prf j v (two, k) : Party M H _ _) fun w' v' =>
        w' = w + algebraMap (ZMod p) FE (sent prf keys (counterBlock s.counter) j k) * two ∧
        v' = v + algebraMap (ZMod p) FE
          (received E delta prf keys (counterBlock s.counter) input j k) * two := by
  have hi := E.index_lt hj hk
  have hkey : s.aesObjs[j * s.nbits + k]? = some (keys.getD (j * numberOfBits p + k) (0, 0)) := by
    rw [hst.sender]
    show keys[j * numberOfBits p + k]? = _
    rw [List.getD_eq_getElem?_getD, List.getElem?_eq_getElem (by omega), Option.getD_some]
  have hseed : t.aesObjs[j * t.nbits + k]? = some
      (if E.bit delta (j * numberOfBits p + k) then (keys.getD (j * numberOfBits p + k) (0, 0)).2
        else (keys.getD (j * numberOfBits p + k) (0, 0)).1) := by
    rw [hst.receiver]
    exact getElem?_receiveRandom hkeys hi
  have hchoice : t.choices[j + k]? = some (E.bit delta (j + k)) := by
    rw [hst.receiver]
    exact E.getElem?_bitDecomposition (E.add_lt hj hk)
  have hcounter : t.counter = s.counter := by rw [hst.receiver]
  unfold CopeeSender.sendPair CopeeReceiver.receivePair
  simp only [hkey, hseed, hcounter]
  refine EdaBitGen.Sync.write_readSerializable ?_
  simp only [hchoice]
  refine Sync.pure ⟨rfl, ?_⟩
  congr 3
  unfold received sent prfDifference bitValue
  cases E.bit delta (j * numberOfBits p + k) <;> cases E.bit delta (j + k) <;> simp <;> ring

theorem sync_block {rel : CopeeSender FE → CopeeReceiver FE → Prop} (hst : Paired E keys delta s t)
    (hkeys : keys.length = E.degree * numberOfBits p) (input : ZMod p) {j : ℕ}
    (hj : j < E.degree) (pow w v : FE) :
    Sync rel (s.sendBlock prf input w (pow, j) : Party M G _ _)
      (t.receiveBlock prf v (pow, j) : Party M H _ _) fun w' v' =>
        w' = w + weightedBlock FE (sent prf keys (counterBlock s.counter)) j * pow ∧
        v' = v + weightedBlock FE
          (received E delta prf keys (counterBlock s.counter) input) j * pow := by
  have htwos : s.twos = E.twos := by rw [hst.sender]; rfl
  have htwos' : t.twos = E.twos := by rw [hst.receiver]; rfl
  unfold CopeeSender.sendBlock CopeeReceiver.receiveBlock
  rw [htwos, htwos']
  refine (Sync.foldlM_sum (F := fun two => algebraMap (ZMod p) FE
      (sent prf keys (counterBlock s.counter) j two.2) * two.1)
    (K := fun two => algebraMap (ZMod p) FE
      (received E delta prf keys (counterBlock s.counter) input j two.2) * two.1) ?_ 0 0).bind ?_
  · intro two htwo
    rw [E.zipIdx_twos] at htwo
    obtain ⟨k, hk, rfl⟩ := List.mem_map.1 htwo
    exact sync_pair hst hkeys input hj (List.mem_range.1 hk) _
  · rintro a b ⟨rfl, rfl⟩
    rw [zero_add, zero_add, BitDecomposition.twos, BitDecomposition.sum_zipIdx_iterate_mul,
      BitDecomposition.sum_zipIdx_iterate_mul]
    exact Sync.pure ⟨rfl, rfl⟩

theorem sync_copeeCall (hkeys : keys.length = E.degree * numberOfBits p) (input : ZMod p) :
    Sync (Paired E keys delta) (CopeeSender.send prf input : Party M G _ FE)
      (CopeeReceiver.receive prf : Party M H _ FE) fun w v =>
        ∃ pt, w = v + algebraMap (ZMod p) FE input * delta + drift E delta prf keys pt input := by
  intro s t hst g h
  have hpows : s.pows = E.genPows := by rw [hst.sender]; rfl
  have hpows' : t.pows = E.genPows := by rw [hst.receiver]; rfl
  have hloop : Sync (fun s' t' => s' = s ∧ t' = t)
      (E.genPows.zipIdx.foldlM (s.sendBlock prf input) 0 : Party M G _ _)
      (E.genPows.zipIdx.foldlM (t.receiveBlock prf) 0 : Party M H _ _) fun w v =>
        w = weightedSum E (sent prf keys (counterBlock s.counter)) ∧
        v = weightedSum E (received E delta prf keys (counterBlock s.counter) input) := by
    refine (Sync.foldlM_sum
      (F := fun pow => weightedBlock FE (sent prf keys (counterBlock s.counter)) pow.2 * pow.1)
      (K := fun pow => weightedBlock FE
        (received E delta prf keys (counterBlock s.counter) input) pow.2 * pow.1) ?_ 0 0).mono ?_
    · intro pow hpow
      rw [E.zipIdx_genPows] at hpow
      obtain ⟨j, hj, rfl⟩ := List.mem_map.1 hpow
      exact sync_block hst hkeys input (List.mem_range.1 hj) _
    · rintro w v ⟨rfl, rfl⟩
      rw [zero_add, zero_add, BitDecomposition.genPows, BitDecomposition.sum_zipIdx_iterate_mul,
        BitDecomposition.sum_zipIdx_iterate_mul]
      exact ⟨rfl, rfl⟩
  unfold CopeeSender.send CopeeReceiver.receive
  rw [bind_apply, bind_apply, get_apply, get_apply, Proc.pure_bind', Proc.pure_bind', hpows, hpows']
  refine (hloop s t ⟨rfl, rfl⟩ g h).bind ?_
  rintro ⟨⟨w, s'⟩, g'⟩ ⟨⟨v, t'⟩, h'⟩ ⟨⟨hs, ht⟩, hw, hv⟩
  simp only at hs ht hw hv
  subst hs ht hw hv
  refine Lockstep.pure ⟨⟨?_, ?_⟩, counterBlock s'.counter, weightedSum_sent _ _⟩
  · rw [hst.sender]
  · rw [hst.receiver]

theorem drift_eq_zero (hbits : ∀ j < E.degree, ∀ k < numberOfBits p,
    E.bit delta (j + k) = E.bit delta (j * numberOfBits p + k)) (pt : Block) (input : ZMod p) :
    drift E delta prf keys pt input = 0 := by
  unfold drift weightedSum weightedBlock
  refine Finset.sum_eq_zero fun j hj => ?_
  rw [Finset.sum_eq_zero, zero_mul]
  intro k hk
  beta_reduce
  rw [hbits j (Finset.mem_range.1 hj) k (Finset.mem_range.1 hk)]
  simp

theorem sync_copeeCalls (hkeys : keys.length = E.degree * numberOfBits p)
    (hbits : ∀ j < E.degree, ∀ k < numberOfBits p,
      E.bit delta (j + k) = E.bit delta (j * numberOfBits p + k)) (inputs : List (ZMod p)) :
    Sync (Paired E keys delta) (inputs.mapM (CopeeSender.send prf) : Party M G _ (List FE))
      (inputs.mapM fun _ => CopeeReceiver.receive prf : Party M H _ (List FE)) fun ws vs =>
        vs.length = inputs.length ∧
        ws = List.zipWith (fun v input => v + algebraMap (ZMod p) FE input * delta) vs inputs := by
  induction inputs with
  | nil => exact Sync.pure ⟨rfl, rfl⟩
  | cons input inputs ih =>
    rw [List.mapM_cons, List.mapM_cons]
    refine (sync_copeeCall hkeys input).bind ?_
    rintro w v ⟨pt, hw⟩
    refine ih.bind ?_
    rintro ws vs ⟨hlength, rfl⟩
    rw [drift_eq_zero hbits, add_zero] at hw
    exact Sync.pure ⟨by simp [hlength], by rw [hw, List.zipWith_cons_cons]⟩

/-! ## One seed that differs -/

omit [CanonicalSerialize M (ZMod p)] in
theorem two_pow_ne_zero {k : ℕ} (hk : k < numberOfBits p) : ((1 + 1) ^ k : FE) ≠ 0 := by
  intro h
  have htwo : algebraMap (ZMod p) FE ((2 : ℕ) : ZMod p) = algebraMap (ZMod p) FE 0 := by
    rw [map_natCast, map_zero, Nat.cast_ofNat, ← one_add_one_eq_two]
    exact eq_zero_of_pow_eq_zero h
  have hdvd : p ∣ 2 := (ZMod.natCast_eq_zero_iff 2 p).1 ((algebraMap (ZMod p) FE).injective htwo)
  have hp : p = 2 := (Nat.prime_dvd_prime_iff_eq Fact.out Nat.prime_two).1 hdvd
  subst hp
  have hbits : numberOfBits 2 = 1 := by decide
  have hk0 : k = 0 := by omega
  rw [hk0, pow_zero] at h
  exact one_ne_zero h

omit [Fact p.Prime] in
theorem div_numberOfBits {k : ℕ} (hk : k < numberOfBits p) (j : ℕ) :
    (j * numberOfBits p + k) / numberOfBits p = j := by
  rw [mul_comm, Nat.mul_add_div (by omega), Nat.div_eq_of_lt hk, add_zero]

omit [CanonicalSerialize M (ZMod p)] in
theorem drift_oneSeed {j k : ℕ} (hj : j < E.degree) (hk : k < numberOfBits p) (pt : Block) :
    drift E delta (isZeroSeed p)
        (oneSeed (E.degree * numberOfBits p) (j * numberOfBits p + k)) pt 0 =
      algebraMap (ZMod p) FE
        (bitValue p (E.bit delta (j * numberOfBits p + k)) - bitValue p (E.bit delta (j + k))) *
        (1 + 1) ^ k * E.generator ^ j := by
  unfold drift weightedSum weightedBlock
  simp only [prfDifference_oneSeed (E.index_lt hj hk), sub_zero]
  rw [Finset.sum_eq_single j, Finset.sum_eq_single k]
  · rw [if_pos rfl, mul_one]
  · intro l hl hlk
    rw [if_neg (by omega)]
    simp
  · simp [hk]
  · intro i hi hij
    rw [Finset.sum_eq_zero, zero_mul]
    intro l hl
    rw [if_neg, mul_zero, map_zero, zero_mul]
    intro h
    rw [← div_numberOfBits (Finset.mem_range.1 hl) i, h, div_numberOfBits hk j] at hij
    exact hij rfl
  · simp [hj]

theorem sync_oneCall (hkeys : keys.length = E.degree * numberOfBits p) (input : ZMod p) :
    Sync (Paired E keys delta) ([input].mapM (CopeeSender.send prf) : Party M G _ (List FE))
      ([input].mapM fun _ => CopeeReceiver.receive prf : Party M H _ (List FE)) fun ws vs =>
        ∃ w v pt, ws = [w] ∧ vs = [v] ∧
          w = v + algebraMap (ZMod p) FE input * delta + drift E delta prf keys pt input := by
  rw [List.mapM_cons, List.mapM_cons]
  refine (sync_copeeCall hkeys input).bind ?_
  rintro w v ⟨pt, hw⟩
  exact Sync.pure ⟨w, v, pt, rfl, rfl, hw⟩

theorem exists_drift_eq_zero (hkeys : keys.length = E.degree * numberOfBits p) (input : ZMod p)
    {g : G} {h : H}
    (hrun : Lockstep (([input].mapM (CopeeSender.send prf) : Party M G _ (List FE))
        (CopeeSender.init E keys) g)
      (([input].mapM fun _ => CopeeReceiver.receive prf : Party M H _ (List FE))
        (CopeeReceiver.initWithPickedDelta E delta keys) h) fun x y =>
      y.1.1.length = [input].length ∧ x.1.1 =
        List.zipWith (fun v input => v + algebraMap (ZMod p) FE input * delta) y.1.1 [input]) :
    ∃ pt, drift E delta prf keys pt input = 0 := by
  obtain ⟨_, _, _, _, -, ⟨-, hx⟩, -, w, v, pt, hws, hvs, hw⟩ :=
    hrun.and (sync_oneCall hkeys input _ _ paired_init g h)
  rw [hws, hvs, List.zipWith_cons_cons, List.zipWith_nil_left, List.cons.injEq, hw] at hx
  exact ⟨pt, by simpa using hx.1⟩

/-- The values of every run are correlated at every call, whatever seeds and inputs, if and only if
the bits of `delta` at which the receiver reads its choices are those that the pairs stand for. -/
theorem copee_correlated_iff (E : BitDecomposition p FE) (delta : FE) (g : G) (h : H) :
    (∀ (prf : Block → Block → ZMod p) (keys : List (Block × Block)),
      keys.length = E.degree * numberOfBits p → ∀ inputs : List (ZMod p),
      Lockstep ((inputs.mapM (CopeeSender.send prf) : Party M G _ (List FE))
          (CopeeSender.init E keys) g)
        ((inputs.mapM fun _ => CopeeReceiver.receive prf : Party M H _ (List FE))
          (CopeeReceiver.initWithPickedDelta E delta keys) h) fun x y =>
        y.1.1.length = inputs.length ∧ x.1.1 =
          List.zipWith (fun v input => v + algebraMap (ZMod p) FE input * delta) y.1.1 inputs) ↔
      ∀ j < E.degree, ∀ k < numberOfBits p,
        E.bit delta (j + k) = E.bit delta (j * numberOfBits p + k) := by
  constructor
  · intro hall j hj k hk
    by_contra hne
    have hkeys : (oneSeed (E.degree * numberOfBits p) (j * numberOfBits p + k)).length =
        E.degree * numberOfBits p := by simp [oneSeed]
    obtain ⟨pt, hdrift⟩ := exists_drift_eq_zero hkeys 0 (hall (isZeroSeed p) _ hkeys [0])
    rw [drift_oneSeed hj hk] at hdrift
    have hpow := pow_ne_zero j E.generator_ne_zero
    have hvalue := (mul_eq_zero.1 hdrift).resolve_right hpow
    have hbits := (mul_eq_zero.1 hvalue).resolve_right (two_pow_ne_zero hk)
    rw [map_eq_zero, sub_eq_zero] at hbits
    exact hne (bitValue_injective hbits).symm
  · intro hbits prf keys hkeys inputs
    exact (sync_copeeCalls hkeys hbits inputs _ _ paired_init g h).mono fun _ _ hx => hx.2

end Correlation

/-! ## The field of nine elements -/

instance factNoRoot : Fact (∀ r : ZMod 3, r ^ 2 ≠ 1 + 1 * r) := ⟨by decide⟩

/-- The field of nine elements, over `ZMod 3` by a root of `x² = x + 1`. -/
abbrev F9 := QuadraticAlgebra (ZMod 3) 1 1

/-- The bits of the coordinates of a value of `F9`. -/
def bitsF9 (x : F9) : List Bool :=
  [x.re.val.testBit 0, x.re.val.testBit 1, x.im.val.testBit 0, x.im.val.testBit 1]

theorem sum_bitsF9 (x : F9) : ∑ j ∈ Finset.range 2, ∑ k ∈ Finset.range (numberOfBits 3),
    (if (bitsF9 x).getD (j * numberOfBits 3 + k) false = true then 1 else 0) *
      ((2 : F9) ^ k * (⟨0, 1⟩ : F9) ^ j) = x := by
  obtain ⟨re, im⟩ := x
  revert re im
  decide

/-- Two bits for each of the two coordinates. -/
def bitDecompositionF9 : BitDecomposition 3 F9 where
  degree := 2
  generator := ⟨0, 1⟩
  generator_ne_zero := by decide
  bitDecomposition := bitsF9
  length_bitDecomposition _ := rfl
  sum_bitDecomposition := sum_bitsF9

/-- With `delta` one in the field of nine elements the choices are read at the right bits. -/
theorem copee_correlated_nine :
    Lockstep (([1, 2].mapM (CopeeSender.send (isZeroSeed 3)) :
          Party (Msg F2 (ZMod 3)) Unit _ (List F9))
        (CopeeSender.init bitDecompositionF9 [(0, 1), (1, 0), (0, 1), (1, 0)]) ())
      (([1, 2].mapM fun _ => CopeeReceiver.receive (isZeroSeed 3) : Party _ Unit _ (List F9))
        (CopeeReceiver.initWithPickedDelta bitDecompositionF9 1
          [(0, 1), (1, 0), (0, 1), (1, 0)]) ()) fun x y =>
      y.1.1.length = 2 ∧ x.1.1 =
        List.zipWith (fun v input => v + algebraMap (ZMod 3) F9 input * 1) y.1.1 [1, 2] :=
  (copee_correlated_iff bitDecompositionF9 1 () ()).2 (by decide) _ _ rfl _

/-- With the root as `delta` the third pair is chosen by its bit, but the receiver reads the second
bit for it. -/
theorem not_copee_correlated :
    ¬Lockstep (([0].mapM (CopeeSender.send (isZeroSeed 3)) :
          Party (Msg F2 (ZMod 3)) Unit _ (List F9))
        (CopeeSender.init bitDecompositionF9 [(0, 0), (0, 0), (0, 1), (0, 0)]) ())
      (([0].mapM fun _ => CopeeReceiver.receive (isZeroSeed 3) : Party _ Unit _ (List F9))
        (CopeeReceiver.initWithPickedDelta bitDecompositionF9 ⟨0, 1⟩
          [(0, 0), (0, 0), (0, 1), (0, 0)]) ()) fun x y =>
      y.1.1.length = 1 ∧ x.1.1 =
        List.zipWith (fun v input => v + algebraMap (ZMod 3) F9 input * ⟨0, 1⟩) y.1.1 [0] := by
  intro hrun
  obtain ⟨pt, hdrift⟩ := exists_drift_eq_zero rfl 0 hrun
  have hkeys : [(0, 0), (0, 0), (0, 1), (0, 0)] =
      oneSeed (bitDecompositionF9.degree * numberOfBits 3) (1 * numberOfBits 3 + 0) := by decide
  rw [hkeys, drift_oneSeed (by decide) (by decide)] at hdrift
  revert hdrift
  decide

end EdaBitGen
