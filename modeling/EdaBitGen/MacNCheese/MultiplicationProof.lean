import EdaBitGen.Algebra.Roots

/-!
# Assertions of multiplications

The tasks of both parties, their states for each runner thread, and the check at the end.
-/

namespace EdaBitGen.MacNCheese

/-- A value and its mask, which the prover has. -/
structure ProverMac (V T : Type) where
  x : V
  beta : T

/-- What the verifier has of a MAC. -/
def ProverMac.tag {V T : Type} [CommSemiring V] [Semiring T] [Algebra V T] (alpha : T)
    (m : ProverMac V T) : T :=
  algebraMap V T m.x * alpha + m.beta

/-- The lift of `r` values into the tag field. -/
structure Lift (V T : Type) (r : ℕ) where
  formSuperfield : (Fin r → V) → T

namespace Vope

variable {V T : Type} [Field V] [Field T] [Algebra V T] {r : ℕ}

def liftingVector (lift : Lift V T r) (i : Fin r) : T :=
  lift.formSuperfield (Pi.single i 1)

def prover (lift : Lift V T r) (a b : T) (voles : Fin r → ProverMac V T) : T × T :=
  let rnd0 := ∑ i, algebraMap V T (voles i).x * liftingVector lift i
  let rnd1 := ∑ i, (voles i).beta * liftingVector lift i
  (a + rnd0, b + rnd1)

def Verifies (lift : Lift V T r) (alpha t : T) (tags : Fin r → T) (comms : T × T) : Prop :=
  t + ∑ i, tags i * liftingVector lift i = comms.1 * alpha + comms.2

end Vope

namespace AssertMultiply

section Proof

variable {V T : Type} [Field V] [Field T] [Algebra V T]

/-- The prover's part of the proof of a gate. -/
def proverProof (a b c : ProverMac V T) (challenge : T) : T × T :=
  (a.beta * b.beta * challenge,
    (algebraMap V T b.x * a.beta + algebraMap V T a.x * b.beta - c.beta) * challenge)

def verifierProof (alpha a b c challenge : T) : T := (a * b - alpha * c) * challenge

end Proof

/-- The proofs of a task's gates, each with the next challenge. -/
def startTask {G S T : Type} [AddMonoid S] (proof : G → T → S) (challenges : ℕ → T)
    (gates : List G) : S :=
  (gates.zipIdx.map fun p => proof p.1 (challenges p.2)).sum

/-- Add a task's proof to the state of the thread that ran it. -/
def addTask {S : Type} [Add S] (state : ℕ → S) (task : ℕ × S) : ℕ → S :=
  Function.update state task.1 (state task.1 + task.2)

/-- The sum of the threads' states, after tasks have run, each on its thread. -/
def accumulate {S : Type} [AddMonoid S] (numRunnerThreads : ℕ) (tasks : List (ℕ × S)) : S :=
  ((List.range numRunnerThreads).map (tasks.foldl addTask fun _ => 0)).sum

end AssertMultiply

/-! ## The small binary fields -/

/-- Two 64-bit lanes, the lower one first. -/
abbrev U64x2 : Type := BitVec 64 × BitVec 64

namespace U64x2

def xor (a b : U64x2) : U64x2 := (a.1 ^^^ b.1, a.2 ^^^ b.2)

def and (a b : U64x2) : U64x2 := (a.1 &&& b.1, a.2 &&& b.2)

def andNot (a b : U64x2) : U64x2 := (a.1 &&& ~~~b.1, a.2 &&& ~~~b.2)

def shiftLeft (n : ℕ) (a : U64x2) : U64x2 := (a.1 <<< n, a.2 <<< n)

def shiftRight (n : ℕ) (a : U64x2) : U64x2 := (a.1 >>> n, a.2 >>> n)

def broadcast (x : BitVec 64) : U64x2 := (x, x)

def cmpEq (a b : U64x2) : U64x2 :=
  (if a.1 = b.1 then BitVec.allOnes 64 else 0, if a.2 = b.2 then BitVec.allOnes 64 else 0)

def unpackLo (a b : U64x2) : U64x2 := (a.1, b.1)

def unpackHi (a b : U64x2) : U64x2 := (a.2, b.2)

/-- The product of polynomials over two elements. -/
def clmul (x y : BitVec 64) : U64x2 :=
  let product : BitVec 128 := (List.range 64).foldl (fun acc i =>
    if y.getLsbD i then acc ^^^ (x.setWidth 128 <<< i) else acc) 0
  (product.extractLsb' 0 64, product.extractLsb' 64 64)

def carrylessMul (hiOther hiSelf : Bool) (a other : U64x2) : U64x2 :=
  clmul (if hiSelf then a.2 else a.1) (if hiOther then other.2 else other.1)

end U64x2

/-- A field whose elements are words, with the word operations of its arithmetic. -/
structure SmallBinaryField (T : Type) [Field T] where
  degree : ℕ
  peel : T → BitVec 64
  fromLowerBits : BitVec 64 → T
  reduce : U64x2 → T
  reduceVectored : U64x2 → U64x2 → U64x2
  degree_le : degree ≤ 63
  peel_fromLowerBits : ∀ x, peel (fromLowerBits x) = x &&& (1#64 <<< degree - 1#64)
  fromLowerBits_peel : ∀ a, fromLowerBits (peel a) = a
  peel_add : ∀ a b, peel (a + b) = peel a ^^^ peel b
  mul_eq : ∀ a b, a * b = reduce (U64x2.clmul (peel a) (peel b))
  reduce_xor : ∀ x y, reduce (U64x2.xor x y) = reduce x + reduce y
  reduceVectored_eq : ∀ uppers lowers, reduceVectored uppers lowers =
    (peel (reduce (lowers.1, uppers.1)), peel (reduce (lowers.2, uppers.2)))

namespace AssertMultiply

/-- Full batches of four, the last one filled with its last element. -/
def batches {G : Type} : List G → List (G × G × G × G)
  | [] => []
  | [a] => [(a, a, a, a)]
  | [a, b] => [(a, b, b, b)]
  | [a, b, c] => [(a, b, c, c)]
  | a :: b :: c :: d :: gates => (a, b, c, d) :: batches gates

/-- The elements of the batches. -/
def padded {G : Type} (gates : List G) : List G :=
  (batches gates).flatMap fun g => [g.1, g.2.1, g.2.2.1, g.2.2.2]

namespace SmallBinary

variable {T : Type} [Field T] (F : SmallBinaryField T)

/-- The words of a gate's wires. -/
structure Words where
  a : BitVec 64
  b : BitVec 64
  c : BitVec 64

def newSenderPair (u : ZMod 2) (w : T) : BitVec 64 :=
  ((if u = 1 then 1#64 else 0#64) <<< 63) ||| F.peel w

def proverWords (g : ProverMac (ZMod 2) T × ProverMac (ZMod 2) T × ProverMac (ZMod 2) T) : Words :=
  ⟨newSenderPair F g.1.x g.1.beta, newSenderPair F g.2.1.x g.2.1.beta,
    newSenderPair F g.2.2.x g.2.2.beta⟩

def verifierWords (g : T × T × T) : Words := ⟨F.peel g.1, F.peel g.2.1, F.peel g.2.2⟩

open U64x2

/-- Two gates of a batch, with their challenges. -/
def proverHalf (a b c challenge : U64x2) (acu : U64x2 × U64x2) : U64x2 × U64x2 :=
  let aX := shiftRight 63 a
  let bX := shiftRight 63 b
  let aXMask := cmpEq aX (0, 0)
  let bXMask := cmpEq bX (0, 0)
  let aBeta := shiftRight 1 (shiftLeft 1 a)
  let bBeta := shiftRight 1 (shiftLeft 1 b)
  let cBeta := shiftRight 1 (shiftLeft 1 c)
  let sum := xor (xor (andNot aBeta bXMask) (andNot bBeta aXMask)) cBeta
  let acu1 := xor acu.2 (xor (carrylessMul false false sum challenge)
    (carrylessMul true true sum challenge))
  let betasProduct0 := carrylessMul false false aBeta bBeta
  let betasProduct1 := carrylessMul true true aBeta bBeta
  let betasProduct := F.reduceVectored (unpackHi betasProduct0 betasProduct1)
    (unpackLo betasProduct0 betasProduct1)
  let product0 := carrylessMul false false betasProduct challenge
  let product1 := carrylessMul true true betasProduct challenge
  (xor acu.1 (xor product0 product1), acu1)

def verifierHalf (alpha a b c challenge acu : U64x2) : U64x2 :=
  let ab0 := carrylessMul false false a b
  let ab1 := carrylessMul true true a b
  let alphaC0 := carrylessMul false false alpha c
  let alphaC1 := carrylessMul true false alpha c
  let sum0 := xor ab0 alphaC0
  let sum1 := xor ab1 alphaC1
  let reduced := F.reduceVectored (unpackHi sum0 sum1) (unpackLo sum0 sum1)
  let acu := xor acu (carrylessMul false false challenge reduced)
  xor acu (carrylessMul true true challenge reduced)

/-- Both halves of the batches, with the next four random words each. -/
def runBatches {A : Type} (half : U64x2 → U64x2 → U64x2 → U64x2 → A → A) :
    List (Words × Words × Words × Words) → (ℕ → BitVec 64) → A → A
  | [], _, acu => acu
  | (g0, g1, g2, g3) :: rest, random, acu =>
    let mask := broadcast (1#64 <<< F.degree - 1#64)
    let acu := half (g0.a, g1.a) (g0.b, g1.b) (g0.c, g1.c) (and (random 0, random 1) mask) acu
    let acu := half (g2.a, g3.a) (g2.b, g3.b) (g2.c, g3.c) (and (random 2, random 3) mask) acu
    runBatches half rest (fun i => random (i + 4)) acu

def startTaskProver (random : ℕ → BitVec 64) (gates : List Words) : T × T :=
  let acu := runBatches F (proverHalf F) (batches gates) random ((0, 0), (0, 0))
  (F.reduce acu.1, F.reduce acu.2)

def startTaskVerifier (alpha : T) (random : ℕ → BitVec 64) (gates : List Words) : T :=
  F.reduce (runBatches F (verifierHalf F (F.peel alpha, 0)) (batches gates) random (0, 0))

end SmallBinary

end AssertMultiply

end EdaBitGen.MacNCheese

/-!
## The check of the multiplications

The verifier's sum is a polynomial in the key: its two lower coefficients are the prover's sums, and
the third one is the weighted sum of the errors.
-/

namespace EdaBitGen.MacNCheese.AssertMultiply

variable {V T : Type} [Field V] [Field T] [Algebra V T]

theorem sum_update {S : Type} [AddCommMonoid S] (state : ℕ → S) {i n : ℕ} (hi : i < n) (s : S) :
    ((List.range n).map (Function.update state i (state i + s))).sum =
      ((List.range n).map state).sum + s := by
  induction n with
  | zero => omega
  | succ n ih =>
    rw [List.range_succ, List.map_append, List.map_append, List.sum_append, List.sum_append,
      List.map_singleton, List.map_singleton, List.sum_singleton, List.sum_singleton]
    rcases Nat.lt_succ_iff_lt_or_eq.1 hi with hlt | rfl
    · rw [ih hlt, Function.update_of_ne hlt.ne', add_right_comm]
    · have hsame : (List.range i).map (Function.update state i (state i + s)) =
          (List.range i).map state := by
        refine List.map_congr_left fun j hj => Function.update_of_ne ?_ _ _
        exact (List.mem_range.1 hj).ne
      rw [hsame, Function.update_self, add_assoc]

theorem accumulate_eq {S : Type} [AddCommMonoid S] {n : ℕ} (tasks : List (ℕ × S))
    (h : ∀ t ∈ tasks, t.1 < n) : accumulate n tasks = (tasks.map (·.2)).sum := by
  have hfold : ∀ (tasks : List (ℕ × S)) (state : ℕ → S), (∀ t ∈ tasks, t.1 < n) →
      ((List.range n).map (tasks.foldl addTask state)).sum =
        ((List.range n).map state).sum + (tasks.map (·.2)).sum := by
    intro tasks
    induction tasks with
    | nil => exact fun state _ => (add_zero _).symm
    | cons t tasks ih =>
      intro state h
      obtain ⟨ht, htasks⟩ := List.forall_mem_cons.1 h
      rw [List.foldl_cons, ih _ htasks, addTask, sum_update state ht, List.map_cons, List.sum_cons,
        add_assoc]
  rw [accumulate, hfold tasks _ h]
  simp

/-! ## A task -/

/-- The triples of a task, and the challenges that its seed gives. -/
structure Task (V T : Type) where
  gates : List (ProverMac V T × ProverMac V T × ProverMac V T)
  challenges : ℕ → T

namespace Task

def Correct (t : Task V T) : Prop := ∀ g ∈ t.gates, g.1.x * g.2.1.x = g.2.2.x

def proverState (t : Task V T) : T × T :=
  startTask (fun g challenge => proverProof g.1 g.2.1 g.2.2 challenge) t.challenges t.gates

def verifierState (alpha : T) (t : Task V T) : T :=
  startTask (fun g challenge => verifierProof alpha g.1 g.2.1 g.2.2 challenge) t.challenges
    (t.gates.map fun g => (g.1.tag alpha, g.2.1.tag alpha, g.2.2.tag alpha))

/-- The weighted sum of the errors. -/
def error (t : Task V T) : T :=
  startTask (fun g challenge => algebraMap V T (g.1.x * g.2.1.x - g.2.2.x) * challenge)
    t.challenges t.gates

end Task

theorem verifierProof_tag (alpha : T) (a b c : ProverMac V T) (challenge : T) :
    verifierProof alpha (a.tag alpha) (b.tag alpha) (c.tag alpha) challenge =
      (proverProof a b c challenge).1 + (proverProof a b c challenge).2 * alpha +
        algebraMap V T (a.x * b.x - c.x) * challenge * alpha ^ 2 := by
  unfold verifierProof proverProof ProverMac.tag
  rw [map_sub, map_mul]
  ring

theorem Task.verifierState_eq (alpha : T) (t : Task V T) : t.verifierState alpha =
    t.proverState.1 + t.proverState.2 * alpha + t.error * alpha ^ 2 := by
  have hsum : ∀ (gates : List (ProverMac V T × ProverMac V T × ProverMac V T)) (k : ℕ),
      (((gates.map fun g => (g.1.tag alpha, g.2.1.tag alpha, g.2.2.tag alpha)).zipIdx k).map fun p =>
        verifierProof alpha p.1.1 p.1.2.1 p.1.2.2 (t.challenges p.2)).sum =
      ((gates.zipIdx k).map fun p =>
        proverProof p.1.1 p.1.2.1 p.1.2.2 (t.challenges p.2)).sum.1 +
      ((gates.zipIdx k).map fun p =>
        proverProof p.1.1 p.1.2.1 p.1.2.2 (t.challenges p.2)).sum.2 * alpha +
      ((gates.zipIdx k).map fun p =>
        algebraMap V T (p.1.1.x * p.1.2.1.x - p.1.2.2.x) * t.challenges p.2).sum * alpha ^ 2 := by
    intro gates
    induction gates with
    | nil => intro k; simp
    | cons g gates ih =>
      intro k
      simp only [List.map_cons, List.zipIdx_cons, List.sum_cons, ih, verifierProof_tag, Prod.fst_add,
        Prod.snd_add]
      ring
  exact hsum t.gates 0

theorem Task.error_eq_zero {t : Task V T} (h : t.Correct) : t.error = 0 := by
  refine List.sum_eq_zero fun e he => ?_
  obtain ⟨p, hp, rfl⟩ := List.mem_map.1 he
  have hgate := h p.1 (List.fst_mem_of_mem_zipIdx hp)
  dsimp only
  rw [hgate, sub_self, map_zero, zero_mul]

/-! ## A run -/

/-- Tasks in the order in which their states are added, with the threads that ran them. -/
structure Schedule (tasks : List (Task V T)) where
  numRunnerThreads : ℕ
  order : List (ℕ × Task V T)
  perm : (order.map (·.2)).Perm tasks
  threads : ∀ e ∈ order, e.1 < numRunnerThreads

variable {tasks : List (Task V T)} {r : ℕ}

def Schedule.proverAcu (s : Schedule tasks) : T × T :=
  accumulate s.numRunnerThreads (s.order.map fun e => (e.1, e.2.proverState))

def Schedule.verifierAcu (s : Schedule tasks) (alpha : T) : T :=
  accumulate s.numRunnerThreads (s.order.map fun e => (e.1, e.2.verifierState alpha))

omit [Field V] [Field T] [Algebra V T] in
theorem Schedule.accumulate_order {S : Type} [AddCommMonoid S] (s : Schedule tasks)
    (f : Task V T → S) :
    accumulate s.numRunnerThreads (s.order.map fun e => (e.1, f e.2)) = (tasks.map f).sum := by
  rw [accumulate_eq]
  · rw [List.map_map, ← (s.perm.map f).sum_eq, List.map_map]
    rfl
  · intro e he
    obtain ⟨e', he', rfl⟩ := List.mem_map.1 he
    exact s.threads e' he'

/-- What the prover sends. -/
def finalizeProver (lift : Lift V T r) (voles : Fin r → ProverMac V T) (acu : T × T) : T × T :=
  Vope.prover lift acu.2 acu.1 voles

/-- The verifier's check, with the tags of the prover's VOLEs. -/
def FinalizeVerifier (lift : Lift V T r) (voles : Fin r → ProverMac V T) (alpha acu : T)
    (comms : T × T) : Prop :=
  Vope.Verifies lift alpha acu (fun i => (voles i).tag alpha) comms

def totalError (tasks : List (Task V T)) : T := (tasks.map Task.error).sum

theorem Schedule.verifierAcu_eq (s s' : Schedule tasks) (alpha : T) : s.verifierAcu alpha =
    s'.proverAcu.1 + s'.proverAcu.2 * alpha + totalError tasks * alpha ^ 2 := by
  rw [verifierAcu, proverAcu, s.accumulate_order (Task.verifierState alpha),
    s'.accumulate_order Task.proverState, totalError]
  clear s s'
  induction tasks with
  | nil => simp
  | cons t tasks ih =>
    simp only [List.map_cons, List.sum_cons, ih, Task.verifierState_eq, Prod.fst_add, Prod.snd_add]
    ring

theorem vope_tags (lift : Lift V T r) (voles : Fin r → ProverMac V T) (alpha : T) :
    ∑ i, (voles i).tag alpha * Vope.liftingVector lift i =
      (∑ i, algebraMap V T (voles i).x * Vope.liftingVector lift i) * alpha +
        ∑ i, (voles i).beta * Vope.liftingVector lift i := by
  rw [Finset.sum_mul, ← Finset.sum_add_distrib]
  refine Finset.sum_congr rfl fun i _ => ?_
  unfold ProverMac.tag
  ring

/-- The honest prover's pair is accepted when all triples are right. -/
def Complete (lift : Lift V T r) : Prop :=
  ∀ (tasks : List (Task V T)), (∀ t ∈ tasks, t.Correct) →
    ∀ (prover verifier : Schedule tasks) (voles : Fin r → ProverMac V T) (alpha : T),
      FinalizeVerifier lift voles alpha (verifier.verifierAcu alpha)
        (finalizeProver lift voles prover.proverAcu)

theorem atLeastTwo_two : Nat.AtLeastTwo 2 := ⟨le_rfl⟩

attribute [local instance] atLeastTwo_two in
/-- A fixed pair is accepted for at most two keys, unless the weighted errors cancel. -/
def Sound (lift : Lift V T r) : Prop :=
  ∀ (tasks : List (Task V T)), totalError tasks ≠ 0 →
    ∀ (voles : Fin r → ProverMac V T) (comms : T × T),
      {alpha | ∃ verifier : Schedule tasks, FinalizeVerifier lift voles alpha
        (verifier.verifierAcu alpha) comms}.encard ≤ 2

theorem complete (lift : Lift V T r) : Complete lift := by
  intro tasks hcorrect prover verifier voles alpha
  have herror : totalError tasks = 0 := by
    refine List.sum_eq_zero fun e he => ?_
    obtain ⟨t, ht, rfl⟩ := List.mem_map.1 he
    exact Task.error_eq_zero (hcorrect t ht)
  unfold FinalizeVerifier Vope.Verifies finalizeProver Vope.prover
  rw [verifier.verifierAcu_eq prover, vope_tags, herror]
  ring

/-- The tasks in their own order, on one thread. -/
def inOrder (tasks : List (Task V T)) : Schedule tasks where
  numRunnerThreads := 1
  order := tasks.map fun t => (0, t)
  perm := by
    rw [List.map_map]
    exact (List.map_id _).symm ▸ .refl _
  threads e he := by
    obtain ⟨t, -, rfl⟩ := List.mem_map.1 he
    exact Nat.zero_lt_one

theorem sound (lift : Lift V T r) : Sound lift := by
  intro tasks herror voles comms
  refine le_trans (Set.encard_le_encard ?_) (Roots.encard_quadratic_le_two herror
    (a := (inOrder tasks).proverAcu.1 + ∑ i, (voles i).beta * Vope.liftingVector lift i - comms.2)
    (b := (inOrder tasks).proverAcu.2 + ∑ i, algebraMap V T (voles i).x *
      Vope.liftingVector lift i - comms.1))
  rintro alpha ⟨verifier, hverifies⟩
  unfold FinalizeVerifier Vope.Verifies at hverifies
  rw [verifier.verifierAcu_eq (inOrder tasks), vope_tags] at hverifies
  show _ = _
  linear_combination hverifies

end EdaBitGen.MacNCheese.AssertMultiply
