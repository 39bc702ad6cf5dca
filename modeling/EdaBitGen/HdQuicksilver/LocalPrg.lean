import EdaBitGen.HdQuicksilver.Predicates

/-!
# The local generator

From a seed of bits that are committed to in both fields, the generator makes the output of a
predicate at positions that both parties draw from one public seed.
-/

namespace EdaBitGen

open Coefficients HDInterp

variable {M D K PF F α : Type}

/-- The coefficient at `i`; past the coefficients it panics. -/
def HDMacProver.index (p : HDMacProver F) (i : ℕ) : Option F :=
  (p.poly.constant :: p.poly.coefficients)[i]?

namespace Predicate

variable [Field K] [DecidableEq K] [Algebra F2 K] [Field PF] [Field F] [DecidableEq F]
  [Algebra PF F] (P : Predicate K PF F) (cv : Convolve F)

def expandProver2 (sigma : List ℕ) (seed2 : List (MacProver F2 K)) : Option (HDMacProver K) := do
  let xs ← sigma.mapM fun i => seed2[i]?.map HDMacProver.ofMac
  P.expand2 (prover F2 Convolve.default) xs

def expandProverP (sigma : List ℕ) (seedP : List (MacProver PF F)) : Option (HDMacProver F) := do
  let xs ← sigma.mapM fun i => seedP[i]?.map HDMacProver.ofMac
  P.expandP (prover PF cv) xs

def expandProver (debugAssertions : Bool) (sigma : List ℕ) (seed2 : List (MacProver F2 K))
    (seedP : List (MacProver PF F)) : Option (HDMacProver K × HDMacProver F) := do
  let out2 ← P.expandProver2 sigma seed2
  let outP ← P.expandProverP cv sigma seedP
  let topP ← outP.index P.dp
  if debugAssertions then
    let top2 ← out2.index P.d2
    if topP = 0 then
      guard (top2 = 0)
    else if topP = 1 then
      guard (top2 = 1)
    else
      none
  pure (out2, outP)

def expandVerifier2 (delta2 : K) (sigma : List ℕ) (seed2 : List (MacVerifier K)) :
    Option (HDMacVerifier K) := do
  let xs ← sigma.mapM fun i => seed2[i]?.map HDMacVerifier.ofMac
  P.expand2 (verifier F2 delta2) xs

def expandVerifierP (deltaP : F) (sigma : List ℕ) (seedP : List (MacVerifier F)) :
    Option (HDMacVerifier F) := do
  let xs ← sigma.mapM fun i => seedP[i]?.map HDMacVerifier.ofMac
  P.expandP (verifier PF deltaP) xs

def expandVerifier (delta2 : K) (deltaP : F) (sigma : List ℕ) (seed2 : List (MacVerifier K))
    (seedP : List (MacVerifier F)) : Option (HDMacVerifier K × HDMacVerifier F) := do
  let out2 ← P.expandVerifier2 delta2 sigma seed2
  let outP ← P.expandVerifierP deltaP sigma seedP
  pure (out2, outP)

end Predicate

/-! ## The generator -/

structure LocalPrg (D : Type) where
  prgSetupSeed : Block
  rng : Stream' D
  seedLength : ℕ
  outputLength : ℕ
  count : ℕ

namespace LocalPrg

def setup (C : Primitives M D) (prgSetupSeed : Block) (seedLength outputLength : ℕ) :
    Except String (LocalPrg D) :=
  if outputLength > seedLength then
    .ok ⟨prgSetupSeed, C.aesRng prgSetupSeed, seedLength, outputLength, 0⟩
  else .error "assertion failed: output_length > seed_length"

def getRemaining (self : LocalPrg D) : ℕ := self.outputLength - self.count

def reset (C : Primitives M D) (self : LocalPrg D) : Except String (LocalPrg D) :=
  setup C self.prgSetupSeed self.seedLength self.outputLength

variable [GenRange D]

/-- One draw of `loc` positions below `seedLength`. -/
def positions (loc seedLength : ℕ) (rng : Stream' D) : List ℕ :=
  (rng.take loc).map (GenRange.genRange seedLength)

/-- Draw until no position occurs twice, at most `fuel` times; an empty range of positions panics. -/
def genSigma (loc seedLength : ℕ) : ℕ → Stream' D → Option (List ℕ × Stream' D)
  | 0, _ => none
  | fuel + 1, rng =>
    let output := positions loc seedLength rng
    if seedLength = 0 then
      none
    else if (List.range' 1 (loc - 1)).any fun i => (output.take i).contains (output.getD i 0) then
      genSigma loc seedLength fuel (rng.drop loc)
    else some (output, rng.drop loc)

/-- The next output, which `expand` makes from the positions; `none` past the last one.  The loop
of `genSigma` takes at most `fuel` draws. -/
def next (loc : ℕ) (expand : List ℕ → Option α) (fuel : ℕ) (self : LocalPrg D) :
    Option (Option α × LocalPrg D) :=
  if self.count = self.outputLength then some (none, self)
  else do
    let (sigma, rng) ← genSigma loc self.seedLength fuel self.rng
    let out ← expand sigma
    pure (some out, { self with rng, count := self.count + 1 })

section Next

variable [Field K] [DecidableEq K] [Algebra F2 K] [Field PF] [Field F] [DecidableEq F]
  [Algebra PF F] (P : Predicate K PF F) (cv : Convolve F) (fuel : ℕ)

def nextProver2 (seed2 : List (MacProver F2 K)) :
    LocalPrg D → Option (Option (HDMacProver K) × LocalPrg D) :=
  next P.loc (fun sigma => P.expandProver2 sigma seed2) fuel

def nextProverP (seedP : List (MacProver PF F)) :
    LocalPrg D → Option (Option (HDMacProver F) × LocalPrg D) :=
  next P.loc (fun sigma => P.expandProverP cv sigma seedP) fuel

def nextProver (debugAssertions : Bool) (seed2 : List (MacProver F2 K))
    (seedP : List (MacProver PF F)) :
    LocalPrg D → Option (Option (HDMacProver K × HDMacProver F) × LocalPrg D) :=
  next P.loc (fun sigma => P.expandProver cv debugAssertions sigma seed2 seedP) fuel

def nextVerifier2 (delta2 : K) (seed2 : List (MacVerifier K)) :
    LocalPrg D → Option (Option (HDMacVerifier K) × LocalPrg D) :=
  next P.loc (fun sigma => P.expandVerifier2 delta2 sigma seed2) fuel

def nextVerifierP (deltaP : F) (seedP : List (MacVerifier F)) :
    LocalPrg D → Option (Option (HDMacVerifier F) × LocalPrg D) :=
  next P.loc (fun sigma => P.expandVerifierP deltaP sigma seedP) fuel

def nextVerifier (delta2 : K) (deltaP : F) (seed2 : List (MacVerifier K))
    (seedP : List (MacVerifier F)) :
    LocalPrg D → Option (Option (HDMacVerifier K × HDMacVerifier F) × LocalPrg D) :=
  next P.loc (fun sigma => P.expandVerifier delta2 deltaP sigma seed2 seedP) fuel

end Next

/-! ## The positions -/

theorem any_contains_eq {xs : List ℕ} {loc : ℕ} (hlength : xs.length = loc) :
    ((List.range' 1 (loc - 1)).any fun i => (xs.take i).contains (xs.getD i 0)) =
      decide (¬xs.Nodup) := by
  rw [Bool.eq_iff_iff, List.any_eq_true, decide_eq_true_iff, List.Nodup, List.pairwise_iff_getElem]
  push Not
  constructor
  · rintro ⟨i, hi, hmem⟩
    rw [List.mem_range'_1] at hi
    have hlt : i < xs.length := by omega
    rw [List.contains_iff_mem, List.mem_take_iff_getElem] at hmem
    obtain ⟨j, hj, heq⟩ := hmem
    rw [List.getD_eq_getElem?_getD, List.getElem?_eq_getElem hlt, Option.getD_some] at heq
    exact ⟨j, i, by omega, hlt, by omega, heq⟩
  · rintro ⟨j, i, hj, hi, hji, heq⟩
    refine ⟨i, List.mem_range'_1.2 (by omega), ?_⟩
    rw [List.contains_iff_mem, List.mem_take_iff_getElem]
    refine ⟨j, by omega, ?_⟩
    rw [List.getD_eq_getElem?_getD, List.getElem?_eq_getElem hi, Option.getD_some, heq]

theorem length_positions (loc n : ℕ) (rng : Stream' D) : (positions loc n rng).length = loc := by
  rw [positions, List.length_map, Stream'.length_take]

theorem getElem_positions {loc n k : ℕ} {rng : Stream' D}
    (hk : k < (positions loc n rng).length) :
    (positions loc n rng)[k] = GenRange.genRange n (rng.get k) := by
  have hlt : k < loc := by rwa [length_positions] at hk
  have hget : (rng.take loc)[k]? = some (rng.get k) := Stream'.getElem?_take hlt
  obtain ⟨hk', hget⟩ := List.getElem?_eq_some_iff.1 hget
  simp only [positions, List.getElem_map, hget]

/-- The draws of the stream are again and again positions of which none occurs twice. -/
def Recurs (loc n : ℕ) (rng : Stream' D) : Prop :=
  0 < n ∧ ∀ i, ∃ j ≥ i, (positions loc n (rng.drop (j * loc))).Nodup

theorem Recurs.drop {loc n : ℕ} {rng : Stream' D} (h : Recurs loc n rng) (m : ℕ) :
    Recurs loc n (rng.drop (m * loc)) := by
  refine ⟨h.1, fun i => ?_⟩
  obtain ⟨j, hj, hnodup⟩ := h.2 (m + i)
  refine ⟨j - m, by omega, ?_⟩
  rw [Stream'.drop_drop, ← Nat.add_mul, Nat.add_sub_cancel' (by omega)]
  exact hnodup

/-- Positions that a predicate is evaluated at. -/
structure IsSigma (loc n : ℕ) (sigma : List ℕ) : Prop where
  length : sigma.length = loc
  nodup : sigma.Nodup
  lt : ∀ i ∈ sigma, i < n

theorem genSigma_succ {loc n : ℕ} (hn : 0 < n) (fuel : ℕ) (rng : Stream' D) :
    genSigma loc n (fuel + 1) rng =
      if (positions loc n rng).Nodup then some (positions loc n rng, rng.drop loc)
      else genSigma loc n fuel (rng.drop loc) := by
  simp only [genSigma, any_contains_eq (length_positions loc n rng), decide_eq_true_iff]
  rw [if_neg hn.ne']
  split_ifs <;> rfl

theorem genSigma_add {loc n fuel : ℕ} {rng : Stream' D} {r : List ℕ × Stream' D} (hn : 0 < n)
    (h : genSigma loc n fuel rng = some r) (k : ℕ) : genSigma loc n (fuel + k) rng = some r := by
  induction fuel generalizing rng with
  | zero => cases h
  | succ fuel ih =>
    rw [Nat.succ_add, genSigma_succ hn]
    rw [genSigma_succ hn] at h
    split_ifs at h ⊢
    · exact h
    · exact ih h

theorem isSigma_positions {loc n : ℕ} {rng : Stream' D} (hn : 0 < n)
    (h : (positions loc n rng).Nodup) : IsSigma loc n (positions loc n rng) := by
  refine ⟨length_positions loc n rng, h, fun i hi => ?_⟩
  obtain ⟨d, -, rfl⟩ := List.mem_map.1 hi
  exact GenRange.genRange_lt d hn

theorem exists_genSigma {loc n j : ℕ} {rng : Stream' D} (hn : 0 < n)
    (hj : (positions loc n (rng.drop (j * loc))).Nodup) :
    ∃ fuel m sigma, genSigma loc n fuel rng = some (sigma, rng.drop (m * loc)) ∧
      IsSigma loc n sigma := by
  induction j generalizing rng with
  | zero =>
    rw [Nat.zero_mul, Stream'.drop_zero] at hj
    exact ⟨1, 1, _, by rw [genSigma_succ hn, if_pos hj, Nat.one_mul], isSigma_positions hn hj⟩
  | succ j ih =>
    by_cases hfirst : (positions loc n rng).Nodup
    · exact ⟨1, 1, _, by rw [genSigma_succ hn, if_pos hfirst, Nat.one_mul],
        isSigma_positions hn hfirst⟩
    · rw [Nat.succ_mul, Nat.add_comm, ← Stream'.drop_drop] at hj
      obtain ⟨fuel, m, sigma, hgen, hsigma⟩ := ih hj
      refine ⟨fuel + 1, m + 1, sigma, ?_, hsigma⟩
      rw [genSigma_succ hn, if_neg hfirst, hgen, Stream'.drop_drop, Nat.succ_mul, Nat.add_comm loc]

/-- What `n` calls return. -/
def calls (next : LocalPrg D → Option (Option α × LocalPrg D)) :
    ℕ → LocalPrg D → Option (List (Option α))
  | 0, _ => some []
  | n + 1, self => do
    let (out, self) ← next self
    let outs ← calls next n self
    pure (out :: outs)

theorem calls_done {loc fuel : ℕ} {expand : List ℕ → Option α} {self : LocalPrg D}
    (h : self.count = self.outputLength) (n : ℕ) :
    calls (next loc expand fuel) n self = some (List.replicate n none) := by
  induction n with
  | zero => rfl
  | succ n ih =>
    rw [calls, next, if_pos h]
    simp [ih, List.replicate_succ]

/-- Whatever is made from the positions, they are the same in every run, and as many as outputs
are left. -/
theorem exists_sigmas {loc : ℕ} (r : ℕ) (self : LocalPrg D)
    (hcount : self.count + r = self.outputLength)
    (hrecurs : Recurs loc self.seedLength self.rng) :
    ∃ (fuel : ℕ) (sigmas : List (List ℕ)), sigmas.length = r ∧
      (∀ sigma ∈ sigmas, IsSigma loc self.seedLength sigma) ∧
      ∀ k {α : Type} (expand : List ℕ → Option α) (outs : List α),
        List.Forall₂ (fun sigma out => expand sigma = some out) sigmas outs →
        ∀ extra, calls (next loc expand (fuel + k)) (r + extra) self =
          some (outs.map some ++ List.replicate extra none) := by
  induction r generalizing self with
  | zero =>
    refine ⟨0, [], rfl, by simp, fun k α expand outs houts extra => ?_⟩
    obtain rfl := List.forall₂_nil_left_iff.1 houts
    rw [calls_done (by omega), Nat.zero_add, List.map_nil, List.nil_append]
  | succ r ih =>
    obtain ⟨j, -, hj⟩ := hrecurs.2 0
    obtain ⟨fuel₁, m, sigma, hgen, hsigma⟩ := exists_genSigma hrecurs.1 hj
    obtain ⟨fuel₂, sigmas, hlength, hsigmas, hcalls⟩ :=
      ih { self with rng := self.rng.drop (m * loc), count := self.count + 1 } (by simp only; omega)
        (hrecurs.drop m)
    refine ⟨fuel₁ + fuel₂, sigma :: sigmas, by simp [hlength],
      List.forall_mem_cons.2 ⟨hsigma, hsigmas⟩, fun k α expand outs houts extra => ?_⟩
    obtain ⟨out, outs', hout, houts', rfl⟩ := List.forall₂_cons_left_iff.1 houts
    have hgen' : genSigma loc self.seedLength (fuel₁ + fuel₂ + k) self.rng =
        some (sigma, self.rng.drop (m * loc)) := by
      rw [Nat.add_assoc]
      exact genSigma_add hrecurs.1 hgen _
    have hrest := hcalls (fuel₁ + k) expand outs' houts' extra
    rw [← Nat.add_assoc, Nat.add_comm fuel₂] at hrest
    rw [Nat.succ_add, calls, next, if_neg (by omega), hgen']
    simp only [Option.bind_eq_bind, Option.bind_some, hout, Option.pure_def, hrest]
    rfl

end LocalPrg

theorem below_default (F : Type) [Field F] (n : ℕ) :
    MultipliesBelow (Convolve.default : Convolve F) n :=
  fun _ _ _ _ _ => Convolve.multiplies_default _ _ _ _

theorem below_f61p : MultipliesBelow F61p.convolve 63 := fun _ _ _ _ h =>
  F61p.multiplies_convolve (F61p.fits_of_length_le (Nat.succ_le_succ h))

section Output

variable [Field K] [DecidableEq K] [Algebra F2 K] [Field PF] [Field F] [DecidableEq F]
  [Algebra PF F] {cv : Convolve F}

theorem length_addSubAssignImpl {ADD : Bool} {p q r : HDMacProver F}
    (h : HDMacProver.addSubAssignImpl ADD p q = some r) :
    r.poly.coefficients.length = r.qsDegree := by
  unfold HDMacProver.addSubAssignImpl at h
  generalize (if q.qsDegree > p.qsDegree then _ else p) = self at h
  simp only [Option.ite_none_right_eq_some, Option.some.injEq] at h
  obtain ⟨-, rfl⟩ := h
  rw [GeneralPolynomial.length_addAt, GeneralPolynomial.length_resize]

theorem length_of_binary {op : HDBinary} {p q r : HDMacProver F} (hop : op ≠ .mulAssign)
    (h : (prover PF cv).binary op p q = some r) : r.poly.coefficients.length = r.qsDegree := by
  cases op with
  | addAssign => exact length_addSubAssignImpl h
  | subAssign => exact length_addSubAssignImpl h
  | mulAssign => exact absurd rfl hop
  | xorAssign =>
    obtain ⟨s, -, hs⟩ := Option.bind_eq_some_iff.1 h
    exact length_addSubAssignImpl hs

theorem exists_output {e : ∀ {α : Type}, HDInterp PF F α → List α → Option α}
    (he : Parametric PF F e) (hsum : EndsInSum PF F e)
    (hcv : MultipliesBelow cv 63) {d : ℕ} {ms : List (MacProver PF F)} {bs : List Bool}
    (hd : e (degree PF F 63) (List.replicate bs.length 1) = some d)
    (hms : ms.map MacProver.value = bs.map ofBool) {b : Bool}
    (hb : e (plain PF F) (bs.map ofBool) = some (ofBool b)) (Δ : F) :
    ∃ p : HDMacProver F, e (prover PF cv) (ms.map .ofMac) = some p ∧
      e (verifier PF Δ) (ms.map fun m => .ofMac (m.key Δ)) = some (p.key Δ) ∧
      p.qsDegree = d ∧ p.poly.degree ≤ d ∧ p.value = ofBool b ∧ p.index d = some (ofBool b) := by
  have hlength : ms.length = bs.length := by simpa using congrArg List.length hms
  have hd' : e (degree PF F 63) (ms.map fun _ => 1) = some d := by
    rw [List.map_const', hlength, hd]
  obtain ⟨p, a, hp, hrep, rfl, hkey, hplain⟩ := he.authenticates hcv hd' Δ
  have hvalues : (ms.map fun m => algebraMap PF F m.value) = bs.map ofBool := by
    have hcast : ∀ b : Bool, algebraMap PF F (ofBool b) = ofBool b := fun b => by
      cases b <;> simp [ofBool]
    calc (ms.map fun m => algebraMap PF F m.value)
        = (ms.map MacProver.value).map (algebraMap PF F) := (List.map_map ..).symm
      _ = bs.map fun b => algebraMap PF F (ofBool b) := by rw [hms, List.map_map]; rfl
      _ = bs.map ofBool := List.map_congr_left fun b _ => hcast b
  rw [hvalues, hb, Option.some.injEq] at hplain
  have hlead : p.poly.coeff p.qsDegree = ofBool b := by
    rw [← GeneralPolynomial.coeff_toPoly, hrep.toPoly_eq, hrep.qsDegree_eq, hplain]
    rfl
  refine ⟨p, hp, hkey, hrep.qsDegree_eq, hrep.qsDegree_eq ▸ hrep.degree_le, ?_, ?_⟩
  · rw [hrep.value_eq, hplain]
  · obtain ⟨op, x, y, hop, hxy⟩ := hsum p hp
    have hcoefficients := length_of_binary hop hxy
    rw [← hrep.qsDegree_eq, ← hlead, HDMacProver.index, GeneralPolynomial.coeff,
      List.getD_eq_getElem?_getD, List.getElem?_eq_getElem (by simp [hcoefficients]),
      Option.getD_some]

/-! ## The seed -/

/-- A seed of `n` bits, each committed to in both fields. -/
structure SeedConsistent (n : ℕ) (seed2 : List (MacProver F2 K))
    (seedP : List (MacProver PF F)) : Prop where
  length2 : seed2.length = n
  lengthP : seedP.length = n
  agree : ∀ (i : ℕ) (m2 : MacProver F2 K) (mP : MacProver PF F), seed2[i]? = some m2 →
    seedP[i]? = some mP → mP.value = f2ToFe m2.value

theorem mapM_getElem? {A B T : Type} {xs : List A} {f : A → B} {sigma : List ℕ} {rows : List T}
    {g : T → A} (h : List.Forall₂ (fun i r => xs[i]? = some (g r)) sigma rows) :
    sigma.mapM (fun i => xs[i]?.map f) = some (rows.map fun r => f (g r)) := by
  induction h with
  | nil => rfl
  | cons hi _ ih =>
    rw [List.mapM_cons, hi, ih]
    rfl

theorem ofBool_decide (b : F2) : (ofBool (decide (b = 1)) : F2) = b := by
  revert b
  decide

omit [DecidableEq F] in
theorem f2ToFe_eq_ofBool (b : F2) : (f2ToFe b : F) = ofBool (decide (b = 1)) := by
  have h : ∀ b : F2, b = 0 ∨ b = 1 := by decide
  rcases h b with rfl | rfl <;> simp [f2ToFe, ofBool]

omit [Field K] [DecidableEq K] [Algebra F2 K] [Field F] [DecidableEq F] [Algebra PF F] in
theorem SeedConsistent.exists_rows {n : ℕ} {seed2 : List (MacProver F2 K)}
    {seedP : List (MacProver PF F)} (h : SeedConsistent n seed2 seedP) {sigma : List ℕ}
    (hsigma : ∀ i ∈ sigma, i < n) :
    ∃ rows : List (MacProver F2 K × MacProver PF F),
      List.Forall₂ (fun i r => seed2[i]? = some r.1) sigma rows ∧
      List.Forall₂ (fun i r => seedP[i]? = some r.2) sigma rows ∧
      ∀ r ∈ rows, r.2.value = f2ToFe r.1.value := by
  induction sigma with
  | nil => exact ⟨[], .nil, .nil, by simp⟩
  | cons i sigma ih =>
    obtain ⟨hi, hsigma⟩ := List.forall_mem_cons.1 hsigma
    obtain ⟨rows, h2, hP, hagree⟩ := ih hsigma
    have hi2 : i < seed2.length := by rwa [h.length2]
    have hiP : i < seedP.length := by rwa [h.lengthP]
    have he2 := List.getElem?_eq_getElem hi2
    have heP := List.getElem?_eq_getElem hiP
    exact ⟨(seed2[i], seedP[i]) :: rows, .cons he2 h2, .cons heP hP,
      List.forall_mem_cons.2 ⟨h.agree i _ _ he2 heP, hagree⟩⟩

/-- An output: the declared degrees, the prover's polynomials at `Δ`, and one bit in both fields. -/
structure IsOutput (P : Predicate K PF F) (delta2 : K) (deltaP : F)
    (out : HDMacProver K × HDMacProver F) (key : HDMacVerifier K × HDMacVerifier F) : Prop where
  degree2 : out.1.qsDegree = P.d2 ∧ out.1.poly.degree ≤ P.d2
  degreeP : out.2.qsDegree = P.dp ∧ out.2.poly.degree ≤ P.dp
  mac2 : key.1 = ⟨out.1.poly.eval delta2, P.d2⟩
  macP : key.2 = ⟨out.2.poly.eval deltaP, P.dp⟩
  value : ∃ b : Bool, out.1.value = ofBool b ∧ out.2.value = ofBool b

theorem Predicate.Lawful.exists_expand {P : Predicate K PF F} {bit : List Bool → Bool}
    (hP : P.Lawful bit) (hcv : MultipliesBelow cv 63) (debugAssertions : Bool) (delta2 : K)
    (deltaP : F) {n : ℕ} {seed2 : List (MacProver F2 K)} {seedP : List (MacProver PF F)}
    (hseed : SeedConsistent n seed2 seedP) {sigma : List ℕ} (hsigma : LocalPrg.IsSigma P.loc n sigma) :
    ∃ out key, P.expandProver cv debugAssertions sigma seed2 seedP = some out ∧
      P.expandVerifier delta2 deltaP sigma (seed2.map (MacProver.key delta2))
        (seedP.map (MacProver.key deltaP)) = some key ∧ IsOutput P delta2 deltaP out key := by
  obtain ⟨rows, h2, hP', hagree⟩ := hseed.exists_rows hsigma.lt
  set bs := rows.map fun r => decide (r.1.value = 1) with hbs
  have hlength : bs.length = P.loc := by
    rw [hbs, List.length_map, ← h2.length_eq, hsigma.length]
  have hvalues2 : (rows.map fun r => r.1).map MacProver.value = bs.map ofBool := by
    rw [hbs, List.map_map, List.map_map]
    exact List.map_congr_left fun r _ => (ofBool_decide r.1.value).symm
  have hvaluesP : (rows.map fun r => r.2).map MacProver.value = bs.map ofBool := by
    rw [hbs, List.map_map, List.map_map]
    exact List.map_congr_left fun r hr => (hagree r hr).trans (f2ToFe_eq_ofBool r.1.value)
  have hkeys2 : List.Forall₂ (fun i r => (seed2.map (MacProver.key delta2))[i]? =
      some (r.1.key delta2)) sigma rows := h2.imp fun i r hi => by rw [List.getElem?_map, hi]; rfl
  have hkeysP : List.Forall₂ (fun i r => (seedP.map (MacProver.key deltaP))[i]? =
      some (r.2.key deltaP)) sigma rows := hP'.imp fun i r hi => by rw [List.getElem?_map, hi]; rfl
  obtain ⟨p2, hp2, hv2, hq2, hd2, hval2, htop2⟩ := exists_output hP.parametric2
    hP.endsInSum2 (below_default K 63) (hlength ▸ hP.degree2) hvalues2 (hP.value2 bs hlength) delta2
  obtain ⟨pP, hpP, hvP, hqP, hdP, hvalP, htopP⟩ := exists_output hP.parametricP hP.endsInSumP hcv
    (hlength ▸ hP.degreeP) hvaluesP (hP.valueP bs hlength) deltaP
  rw [List.map_map] at hp2 hpP hv2 hvP
  have hexpand2 : P.expandProver2 sigma seed2 = some p2 := by
    rw [Predicate.expandProver2, mapM_getElem? h2]
    exact hp2
  have hexpandP : P.expandProverP cv sigma seedP = some pP := by
    rw [Predicate.expandProverP, mapM_getElem? hP']
    exact hpP
  have hverify2 : P.expandVerifier2 delta2 sigma (seed2.map (MacProver.key delta2)) =
      some (p2.key delta2) := by
    rw [Predicate.expandVerifier2, mapM_getElem? hkeys2]
    exact hv2
  have hverifyP : P.expandVerifierP deltaP sigma (seedP.map (MacProver.key deltaP)) =
      some (pP.key deltaP) := by
    rw [Predicate.expandVerifierP, mapM_getElem? hkeysP]
    exact hvP
  refine ⟨(p2, pP), (p2.key delta2, pP.key deltaP), ?_, ?_, ⟨hq2, hd2⟩, ⟨hqP, hdP⟩, ?_, ?_,
    ⟨bit bs, hval2, hvalP⟩⟩
  · -- the debug assertion compares the leading coefficients
    rw [Predicate.expandProver, hexpand2, hexpandP]
    simp only [Option.bind_eq_bind, Option.bind_some, htop2, htopP]
    cases debugAssertions <;> cases bit bs <;> simp [ofBool]
  · rw [Predicate.expandVerifier, hverify2, hverifyP]
    rfl
  · simp only [HDMacProver.key, hq2]
  · simp only [HDMacProver.key, hqP]

/-! ## The property -/

/-- From a consistent seed both parties make exactly `outputLength` outputs, at the same positions:
every further call returns nothing. -/
def Expands [GenRange D] (P : Predicate K PF F) (cv : Convolve F) (C : Primitives M D)
    (prgSetupSeed : Block) (seedLength outputLength : ℕ) : Prop :=
  ∀ (debugAssertions : Bool) (delta2 : K) (deltaP : F) (seed2 : List (MacProver F2 K))
    (seedP : List (MacProver PF F)), SeedConsistent seedLength seed2 seedP →
    ∃ (prg : LocalPrg D) (fuel : ℕ) (sigmas : List (List ℕ))
      (outs : List (HDMacProver K × HDMacProver F))
      (keys : List (HDMacVerifier K × HDMacVerifier F)),
      LocalPrg.setup C prgSetupSeed seedLength outputLength = .ok prg ∧
      sigmas.length = outputLength ∧ outs.length = outputLength ∧ keys.length = outputLength ∧
      (∀ k extra, LocalPrg.calls (LocalPrg.nextProver P cv (fuel + k) debugAssertions seed2 seedP)
        (outputLength + extra) prg = some (outs.map some ++ List.replicate extra none)) ∧
      (∀ k extra, LocalPrg.calls (LocalPrg.nextVerifier P (fuel + k) delta2 deltaP
        (seed2.map (MacProver.key delta2)) (seedP.map (MacProver.key deltaP)))
        (outputLength + extra) prg = some (keys.map some ++ List.replicate extra none)) ∧
      ∀ (i : ℕ) (sigma : List ℕ) (out : HDMacProver K × HDMacProver F)
        (key : HDMacVerifier K × HDMacVerifier F),
        sigmas[i]? = some sigma → outs[i]? = some out → keys[i]? = some key →
        LocalPrg.IsSigma P.loc seedLength sigma ∧
        P.expandProver cv debugAssertions sigma seed2 seedP = some out ∧
        P.expandVerifier delta2 deltaP sigma (seed2.map (MacProver.key delta2))
          (seedP.map (MacProver.key deltaP)) = some key ∧
        IsOutput P delta2 deltaP out key

theorem exists_forall₂ {A B : Type} {R : A → B → Prop} {as : List A} (h : ∀ a ∈ as, ∃ b, R a b) :
    ∃ bs, List.Forall₂ R as bs := by
  induction as with
  | nil => exact ⟨[], .nil⟩
  | cons a as ih =>
    obtain ⟨ha, has⟩ := List.forall_mem_cons.1 h
    obtain ⟨b, hb⟩ := ha
    obtain ⟨bs, hbs⟩ := ih has
    exact ⟨b :: bs, .cons hb hbs⟩

theorem Predicate.Lawful.expands [GenRange D] {P : Predicate K PF F} {bit : List Bool → Bool}
    (hP : P.Lawful bit) (hcv : MultipliesBelow cv 63) {C : Primitives M D} {prgSetupSeed : Block}
    {seedLength outputLength : ℕ} (hlength : seedLength < outputLength)
    (hrecurs : LocalPrg.Recurs P.loc seedLength (C.aesRng prgSetupSeed)) :
    Expands P cv C prgSetupSeed seedLength outputLength := by
  intro debugAssertions delta2 deltaP seed2 seedP hseed
  obtain ⟨fuel, sigmas, hcount, hsigmas, hcalls⟩ := LocalPrg.exists_sigmas outputLength
    ⟨prgSetupSeed, C.aesRng prgSetupSeed, seedLength, outputLength, 0⟩ (Nat.zero_add _) hrecurs
  let Row (sigma : List ℕ)
      (r : (HDMacProver K × HDMacProver F) × (HDMacVerifier K × HDMacVerifier F)) : Prop :=
    LocalPrg.IsSigma P.loc seedLength sigma ∧
      P.expandProver cv debugAssertions sigma seed2 seedP = some r.1 ∧
      P.expandVerifier delta2 deltaP sigma (seed2.map (MacProver.key delta2))
        (seedP.map (MacProver.key deltaP)) = some r.2 ∧ IsOutput P delta2 deltaP r.1 r.2
  have hrow : ∀ sigma ∈ sigmas, ∃ r, Row sigma r := fun sigma hsigma => by
    obtain ⟨out, key, h⟩ := hP.exists_expand hcv debugAssertions delta2 deltaP hseed
      (hsigmas sigma hsigma)
    exact ⟨(out, key), hsigmas sigma hsigma, h⟩
  obtain ⟨rows, hrows⟩ := exists_forall₂ hrow
  have hlengthRows : rows.length = outputLength := by rw [← hrows.length_eq, hcount]
  have houts : List.Forall₂ (fun sigma out =>
      P.expandProver cv debugAssertions sigma seed2 seedP = some out) sigmas (rows.map Prod.fst) :=
    List.forall₂_map_right_iff.2 (hrows.imp fun _ _ h => h.2.1)
  have hkeys : List.Forall₂ (fun sigma key =>
      P.expandVerifier delta2 deltaP sigma (seed2.map (MacProver.key delta2))
        (seedP.map (MacProver.key deltaP)) = some key) sigmas (rows.map Prod.snd) :=
    List.forall₂_map_right_iff.2 (hrows.imp fun _ _ h => h.2.2.1)
  refine ⟨_, fuel, sigmas, rows.map Prod.fst, rows.map Prod.snd, if_pos hlength, hcount,
    by rw [List.length_map, hlengthRows], by rw [List.length_map, hlengthRows],
    fun k extra => hcalls k _ _ houts extra, fun k extra => hcalls k _ _ hkeys extra, ?_⟩
  intro i sigma out key hsigma hout hkey
  rw [List.getElem?_map, Option.map_eq_some_iff] at hout hkey
  obtain ⟨row, hr, rfl⟩ := hout
  obtain ⟨row', hr', rfl⟩ := hkey
  obtain rfl : row = row' := Option.some.inj (hr.symm.trans hr')
  have hrel := rel_getElem? hrows i
  rw [hsigma, hr] at hrel
  cases hrel with
  | some h => exact h

end Output

variable (K PF F) in
/-- Both predicates make outputs of bits, from every seed that is shorter than the output and every
setup seed whose draws are again and again positions of which none occurs twice. -/
theorem localPrg_expands [GenRange D] [Field K] [DecidableEq K] [Algebra F2 K] [Field PF] [Field F]
    [DecidableEq F] [Algebra PF F] (C : Primitives M D) (prgSetupSeed : Block)
    {seedLength outputLength : ℕ} (hlength : seedLength < outputLength) :
    (LocalPrg.Recurs 5 seedLength (C.aesRng prgSetupSeed) →
      Expands (tspaPredicate K PF F) Convolve.default C prgSetupSeed seedLength outputLength ∧
      Expands (tspaPredicate K F61p F61p) F61p.convolve C prgSetupSeed seedLength outputLength) ∧
    (LocalPrg.Recurs 11 seedLength (C.aesRng prgSetupSeed) →
      Expands (xor4Maj7Predicate K) F61p.convolve C prgSetupSeed seedLength outputLength) :=
  ⟨fun hrecurs => ⟨lawful_tspa.expands (below_default F 63) hlength hrecurs,
    lawful_tspa.expands below_f61p hlength hrecurs⟩,
    fun hrecurs => lawful_xor4Maj7.expands below_f61p hlength hrecurs⟩

/-- Draws that count up are positions of which none occurs twice, as long as there are enough. -/
theorem recurs_counting {loc : ℕ} (hloc : loc ≤ 50) :
    LocalPrg.Recurs loc 50 (fun i => ⟨0, 0, 0, 0, i⟩ : Stream' (Draw F40b F61p)) := by
  refine ⟨by norm_num, fun i => ⟨i, le_rfl, ?_⟩⟩
  rw [List.Nodup, List.pairwise_iff_getElem]
  intro k l hk hl hkl heq
  rw [LocalPrg.getElem_positions, LocalPrg.getElem_positions] at heq
  have hmod : (k + i * loc) % 50 = (l + i * loc) % 50 := heq
  rw [LocalPrg.length_positions] at hk hl
  omega

/-- The lengths of the test, with draws that count up. -/
theorem localPrg_expands_50 :
    let C : Primitives (Msg F40b F61p) (Draw F40b F61p) :=
      ⟨fun _ => fun i => ⟨0, 0, 0, 0, i⟩, fun _ => 0⟩
    Expands (tspaPredicate F40b F61p F61p) F61p.convolve C 0 50 200 ∧
      Expands (xor4Maj7Predicate F40b) F61p.convolve C 0 50 200 := by
  intro C
  have hexpands := localPrg_expands F40b F61p F61p C 0 (by norm_num : 50 < 200)
  exact ⟨(hexpands.1 (recurs_counting (by norm_num))).2,
    hexpands.2 (recurs_counting (by norm_num))⟩

/-- A seed of 50 bits for 50 outputs: the setup panics. -/
theorem not_expands_50 :
    let C : Primitives (Msg F40b F61p) (Draw F40b F61p) :=
      ⟨fun _ => fun i => ⟨0, 0, 0, 0, i⟩, fun _ => 0⟩
    ¬Expands (tspaPredicate F40b F61p F61p) F61p.convolve C 0 50 50 := by
  intro C hexpands
  have hseed : SeedConsistent 50 (List.replicate 50 (⟨0, 0⟩ : MacProver F2 F40b))
      (List.replicate 50 (⟨0, 0⟩ : MacProver F61p F61p)) := by
    refine ⟨List.length_replicate, List.length_replicate, fun i m2 mP h2 hP => ?_⟩
    obtain rfl := List.eq_of_mem_replicate (List.mem_of_getElem? h2)
    obtain rfl := List.eq_of_mem_replicate (List.mem_of_getElem? hP)
    rfl
  obtain ⟨prg, -, -, -, -, hsetup, -⟩ := hexpands true 0 0 _ _ hseed
  cases hsetup

end EdaBitGen
