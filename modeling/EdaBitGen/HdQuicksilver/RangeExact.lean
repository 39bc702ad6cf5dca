import EdaBitGen.HdQuicksilver.RangeStatements

/-!
# Which range checks are exact

In a build without debug assertions a range check is exact for the intervals that the preparation
admits.  With debug assertions it is exact for none, since the bounds themselves fail them.
-/

namespace EdaBitGen

open Coefficients Interaction Party Limbs

section Honest

variable {P : ℕ} {F : Type} [Fact P.Prime] [Field F] [DecidableEq F] [Algebra (ZMod P) F]
  [FiniteField (ZMod P) F] [PrimeFirst P F] {bits w : ℕ} {mps chunks : List (HDMacProver F)}

/-! ## The prover's chunks -/

omit [DecidableEq F] in
theorem valAsInt_algebraMap (x : ZMod P) : valAsInt P (algebraMap (ZMod P) F x) = x.val := by
  have hpos : 0 < FiniteField.degree (ZMod P) F := by
    by_contra hzero
    have hempty : IsEmpty (Fin (FiniteField.degree (ZMod P) F)) :=
      ⟨fun i => absurd i.2 (by omega)⟩
    have e : (Fin (FiniteField.degree (ZMod P) F) → ZMod P) ≃ₗ[ZMod P] F :=
      FiniteField.fromSubfield
    have hsub : Subsingleton F := e.symm.toEquiv.subsingleton
    exact not_subsingleton F hsub
  rw [valAsInt, dif_pos hpos, PrimeFirst.decompose_algebraMap, if_pos rfl]

/-- The chunks of a number of `bits` bits. -/
def limbsOf (bits w k : ℕ) : List ℕ :=
  (List.range (numChunks bits w - 1)).map (limb w k) ++ [k >>> ((numChunks bits w - 1) * w)]

theorem length_limbsOf (hbits : 0 < bits) (hw : 0 < w) (k : ℕ) :
    (limbsOf bits w k).length = numChunks bits w := by
  obtain ⟨hpos, -⟩ := numChunks_spec hbits hw
  rw [limbsOf, List.length_append, List.length_map, List.length_range, List.length_singleton]
  omega

theorem limbsOf_lt (hbits : 0 < bits) (hw : 0 < w) {k : ℕ} (hk : k < 2 ^ bits) {i c : ℕ}
    (h : (limbsOf bits w k)[i]? = some c) :
    c < 2 ^ if i = numChunks bits w - 1 then lastChunkSize bits w else w := by
  obtain ⟨-, -, -, hsum⟩ := numChunks_spec hbits hw
  rw [limbsOf] at h
  by_cases hi : i < numChunks bits w - 1
  · rw [List.getElem?_append_left (by simpa using hi)] at h
    obtain rfl : limb w k i = c := by simpa [hi] using h
    rw [if_neg hi.ne]
    exact limb_lt w k i
  · rw [List.getElem?_append_right (by simpa using hi), List.length_map, List.length_range] at h
    obtain ⟨hz, rfl⟩ : i - (numChunks bits w - 1) = 0 ∧ k >>> ((numChunks bits w - 1) * w) = c := by
      cases hd : i - (numChunks bits w - 1) with
      | zero => simpa [hd] using h
      | succ d => simp [hd] at h
    rw [if_pos (by omega), Nat.shiftRight_eq_div_pow]
    refine Nat.div_lt_of_lt_mul ?_
    rwa [← pow_add, hsum]

omit [Fact P.Prime] in
theorem weightsFit_of_le (hbits : 0 < bits) (hw : 0 < w) (hP : 2 ^ bits ≤ P) :
    WeightsFit P bits w := by
  obtain ⟨hpos, hlast, -, hsum⟩ := numChunks_spec hbits hw
  intro i hi
  refine (Nat.pow_lt_pow_right one_lt_two ?_).trans_le hP
  calc i * w ≤ (numChunks bits w - 1) * w := Nat.mul_le_mul_right w (by omega)
    _ < bits := by omega

/-- The chunks that an honest prover commits to. -/
def IsChunked (bits w : ℕ) (mp : HDMacProver F) (vs : List (ZMod P)) : Prop :=
  ∃ k < 2 ^ bits, mp.value = (k : ℕ) ∧ vs = (limbsOf bits w k).map (↑)

omit [DecidableEq F] in
theorem isPrimeValue_algebraMap (x : ZMod P) : IsPrimeValue P (algebraMap (ZMod P) F x) :=
  fun i hi => by rw [PrimeFirst.decompose_algebraMap, if_neg hi]

omit [DecidableEq F] in
theorem chunkValues_eq (debugAssertions : Bool) (hbits : 0 < bits) (hw : 0 < w) {k : ℕ}
    (hk : k < 2 ^ bits) (hP : k < P) :
    chunkValues P debugAssertions bits w ((k : ℕ) : F) =
      some ((limbsOf bits w k).map (↑)) := by
  have hval : valAsInt P ((k : ℕ) : F) = k := by
    rw [← map_natCast (algebraMap (ZMod P) F), valAsInt_algebraMap, ZMod.val_natCast_of_lt hP]
  have hprime : IsPrimeValue P ((k : ℕ) : F) := by
    rw [← map_natCast (algebraMap (ZMod P) F)]
    exact isPrimeValue_algebraMap _
  have hlimbs : ∀ c ∈ (List.range (numChunks bits w - 1)).map (limb w k), c < 2 ^ w := by
    intro c hc
    obtain ⟨i, -, rfl⟩ := List.mem_map.1 hc
    exact limb_lt w k i
  have hlast : k >>> ((numChunks bits w - 1) * w) < 2 ^ lastChunkSize bits w := by
    have hget : (limbsOf bits w k)[numChunks bits w - 1]? =
        some (k >>> ((numChunks bits w - 1) * w)) := by simp [limbsOf]
    simpa using limbsOf_lt hbits hw hk hget
  simp only [chunkValues, hval]
  rw [if_pos fun _ => ⟨hprime, hk, hlimbs, hlast⟩, limbsOf]

theorem exists_chunkValues (debugAssertions : Bool) (hbits : 0 < bits) (hw : 0 < w)
    (h : ∀ mp ∈ mps, ∃ k < 2 ^ bits, k < P ∧ mp.value = (k : ℕ)) :
    ∃ vss, (mps.mapM fun mp => chunkValues P debugAssertions bits w mp.value) = some vss ∧
      List.Forall₂ (IsChunked bits w) mps vss := by
  induction mps with
  | nil => exact ⟨[], rfl, .nil⟩
  | cons mp mps ih =>
    obtain ⟨k, hk, hP, hval⟩ := h mp List.mem_cons_self
    obtain ⟨vss, hvss, hall⟩ := ih fun q hq => h q (List.mem_cons_of_mem _ hq)
    have hchunk := chunkValues_eq (F := F) debugAssertions hbits hw hk hP
    rw [← hval] at hchunk
    exact ⟨_, by simp [List.mapM_cons, hchunk, hvss], .cons ⟨k, hk, hval, rfl⟩ hall⟩

theorem forall₂_getElem? {A B : Type} {R : A → B → Prop} {as : List A} {bs : List B}
    (h : List.Forall₂ R as bs) {j : ℕ} {a : A} {b : B} (ha : as[j]? = some a)
    (hb : bs[j]? = some b) : R a b := by
  induction h generalizing j with
  | nil => simp at ha
  | cons hab _ ih =>
    cases j with
    | zero =>
      obtain rfl := Option.some.inj ha
      obtain rfl := Option.some.inj hb
      exact hab
    | succ j => exact ih (by simpa using ha) (by simpa using hb)

theorem map_eq_of_forall₂ {A B C : Type} {R : A → B → Prop} {f : A → C} {g : B → C} {as : List A}
    {bs : List B} (h : List.Forall₂ R as bs) (hR : ∀ a b, R a b → g b = f a) :
    bs.map g = as.map f := by
  induction h with
  | nil => rfl
  | cons hab _ ih => rw [List.map_cons, List.map_cons, ih, hR _ _ hab]

omit [Field F] [DecidableEq F] in
/-- Range checks multiply no two values. -/
def NoProducts : HDMacProver F → HDMacProver F → Prop := fun _ _ => False

omit [FiniteField (ZMod P) F] [PrimeFirst P F] in
theorem honest_chunkCalls (hbits : 0 < bits) (hw : 0 < w) (hw' : w < 31)
    (hmps : ∀ mp ∈ mps, DegreeOne mp) {vss : List (List (ZMod P))}
    (hvss : List.Forall₂ (IsChunked bits w) mps vss)
    (hchunks : List.Forall₂ (fun v c => DegreeOne c ∧ c.value = algebraMap (ZMod P) F v)
      vss.flatten chunks) :
    ∃ calls, chunkCalls bits w mps chunks = some calls ∧
      ∀ c ∈ calls, c.WellFormed ∧ c.Honest NoProducts := by
  obtain ⟨hpos, hlast, hlast', -⟩ := numChunks_spec hbits hw
  have hones : ∀ c ∈ chunks, DegreeOne c := by
    intro c hc
    obtain ⟨v, -, hv⟩ := HDInterp.exists_of_mem hchunks.flip hc
    exact hv.1
  have hlens : ∀ vs ∈ vss, vs.length = numChunks bits w := by
    intro vs hvs
    obtain ⟨mp, -, k, -, -, rfl⟩ := HDInterp.exists_of_mem hvss.flip hvs
    rw [List.length_map, length_limbsOf hbits hw]
  have hvalues : chunks.map HDMacProver.value = vss.flatten.map (algebraMap (ZMod P) F) :=
    map_eq_of_forall₂ hchunks fun v c h => h.2
  obtain ⟨rs, hrs, hall⟩ := exists_chunkCalls bits w hmps hones
  refine ⟨_, hrs, fun c hc => ?_⟩
  rcases List.mem_append.1 hc with hc | hc
  · obtain ⟨r, hr, rfl⟩ := List.mem_map.1 hc
    obtain ⟨p, hp, hdiff⟩ := HDInterp.exists_of_mem hall.flip hr
    obtain ⟨j, hj⟩ := List.mem_iff_getElem?.1 hp
    obtain ⟨hmp, hcs⟩ := List.getElem?_zip_eq_some.1 hj
    have hvs : ((Chunks.exact (numChunks bits w) chunks).map (List.map HDMacProver.value))[j]? =
        some (p.2.map HDMacProver.value) := by
      rw [List.getElem?_map, hcs, Option.map_some]
    rw [← Chunks.exact_map, hvalues, Chunks.exact_map, Chunks.exact_flatten hpos hlens,
      List.getElem?_map] at hvs
    obtain ⟨vs, hvs, hmap⟩ := Option.map_eq_some_iff.1 hvs
    obtain ⟨k, hk, hval, rfl⟩ := forall₂_getElem? hvss hmp hvs
    have hcast : (algebraMap (ZMod P) F ∘ fun n : ℕ => (n : ZMod P)) = ((↑) : ℕ → F) :=
      funext fun n => map_natCast _ n
    refine ⟨hdiff.degreeOne.degree_le, ?_⟩
    change r.value = 0
    rw [hdiff.value_eq, ← hmap, hval, List.map_map, hcast, recombine_cast, limbsOf,
      recombine_limbs_concat, sub_self]
  · obtain ⟨i, hi⟩ := List.mem_iff_getElem?.1 hc
    rw [List.getElem?_mapIdx] at hi
    obtain ⟨c', hc', rfl⟩ := Option.map_eq_some_iff.1 hi
    have hone := hones c' (List.mem_of_getElem? hc')
    have hget := congrArg (·[i]?) hvalues
    simp only [List.getElem?_map, hc', Option.map_some] at hget
    obtain ⟨v, hv, hval⟩ := Option.map_eq_some_iff.1 hget.symm
    rw [Chunks.getElem?_flatten hpos hlens] at hv
    obtain ⟨vs, hvs, hv⟩ := Option.bind_eq_some_iff.1 hv
    obtain ⟨mp, -, k, hk, -, rfl⟩ := HDInterp.exists_of_mem hvss.flip (List.mem_of_getElem? hvs)
    rw [List.getElem?_map] at hv
    obtain ⟨d, hd, rfl⟩ := Option.map_eq_some_iff.1 hv
    have hlt : d < 2 ^ chunkSize bits w i := limbsOf_lt hbits hw hk hd
    have hsize : 0 < chunkSize bits w i ∧ chunkSize bits w i < 31 := by
      rw [chunkSize]
      split <;> omega
    refine ⟨⟨hone.degree_le, hsize⟩, ⟨d, hlt, ?_⟩, hone.qsDegree_eq⟩
    rw [← hval, map_natCast]

variable {M D G : Type} [CanonicalSerialize M (ZMod P)] [CanonicalSerialize M F] [Random D F]
  {cv : Convolve F} {Δ : F}

omit [FiniteField (ZMod P) F] [PrimeFirst P F] in
/-- Both parties have accumulated one polynomial, whose leading coefficient is zero. -/
def Accumulated (Δ : F) (self : QSStateProver F) (v : QSStateVerifier F) : Prop :=
  ∃ (T : DegPoly F) (count : ℕ), self.state.Represents T ∧ T.lead = 0 ∧ 0 < T.degree ∧
    v = ⟨Δ, self.chi, HDInterp.polyKey Δ T, count⟩

omit [FiniteField (ZMod P) F] [PrimeFirst P F] [CanonicalSerialize M (ZMod P)] in
theorem sync_runCalls (hcv : cv.Linear) {calls : List (QSCall F)}
    (h : ∀ c ∈ calls, c.WellFormed ∧ c.Honest NoProducts)
    (checks : F → F → Option (QSStateVerifier F))
    (hchecks : ∀ chi, checks Δ chi =
      calls.foldlM QSCall.verifier (.initWithDeltaAndChi Δ chi)) :
    Sync (Correlated Δ)
      (QSStateProver.runCalls P cv (some calls) : Party M G (FComProver (ZMod P) F) _)
      (do
        let delta := (← get).delta
        let chi ← random F
        writeSerializable chi
        flush
        match checks delta chi with
        | some qs => pure qs
        | none => abort "panic" : Party M (Stream' D) (FComVerifier F) _)
      (Accumulated Δ) := by
  refine Sync.get_right fun s t hst => Sync.random_right fun chi => ?_
  refine Sync.read_writeSerializable (Sync.flush_right ?_)
  have hok : ∀ p q : HDMacProver F, NoProducts p q → HDMacProver.Multiplies cv .mulAssign p q :=
    fun _ _ h => h.elim
  obtain ⟨T, hT⟩ := exists_accumulates hcv hok chi (fun c hc => (h c hc).1) (.zero 1)
  have hver := hT.verifier_eq Δ 0
  rw [polyKey_default] at hver
  obtain ⟨self, hself, hchi, hrep⟩ := hT.prover_eq (fun c hc => (h c hc).2)
    (.initWithChi chi) rfl represents_default
  have hlead : T.lead = 0 := by
    rw [hT.lead_eq, lead_zero, foldl_eq_powerSum]
    refine Roots.powerSum_eq_zero_of_forall _ fun v hv => ?_
    obtain ⟨c, hc, rfl⟩ := List.mem_map.1 (List.mem_reverse.1 hv)
    exact QSCall.value_eq_zero (h c hc).2
  have hdeg : 0 < T.degree := by
    rw [hT.degree_eq]
    exact one_le_qsDegree calls
  have hdelta : t.delta = Δ := by rw [hst, FComProver.keys_delta]
  rw [Option.bind_some, hself, hdelta, hchecks, QSStateVerifier.initWithDeltaAndChi, hver]
  exact Sync.pure ⟨T, _, hrep, hlead, hdeg, by rw [hchi]⟩

omit [FiniteField (ZMod P) F] [PrimeFirst P F] [CanonicalSerialize M F] [Random D F] in
theorem sync_chunks {values : List (ZMod P)} {n : ℕ} (hn : values.length = n) :
    Sync (Correlated Δ)
      (values.mapM (fun (value : ZMod P) => do
        let mac ← FComProver.input1 value
        pure (.ofMac ⟨value, mac⟩)) : Party M G (FComProver (ZMod P) F) (List (HDMacProver F)))
      ((List.range n).mapM (fun _ => do
        let mv ← FComVerifier.input1 (ZMod P)
        pure (.ofMac mv)) : Party M (Stream' D) (FComVerifier F) (List (HDMacVerifier F)))
      fun chunks keys => keys = chunks.map (HDMacProver.key Δ) ∧
        List.Forall₂ (fun v c => DegreeOne c ∧ c.value = algebraMap (ZMod P) F v) values chunks := by
  have hstep : ∀ (v : ZMod P) (i : ℕ), True → Sync (Correlated Δ)
      (do
        let mac ← FComProver.input1 v
        pure (.ofMac ⟨v, mac⟩) : Party M G (FComProver (ZMod P) F) (HDMacProver F))
      (do
        let mv ← FComVerifier.input1 (ZMod P)
        pure (.ofMac mv) : Party M (Stream' D) (FComVerifier F) (HDMacVerifier F))
      fun c k => k = c.key Δ ∧ DegreeOne c ∧ c.value = algebraMap (ZMod P) F v :=
    fun v _ _ => (sync_input1 v).bind fun m k hk => Sync.pure
      ⟨by rw [hk, key_ofMac], degreeOne_ofMac _, value_ofMac _⟩
  have hpairs : List.Forall₂ (fun (_ : ZMod P) (_ : ℕ) => True) values (List.range n) :=
    List.forall₂_of_length_eq_of_get (by rw [hn, List.length_range]) fun _ _ _ => trivial
  refine (Sync.mapM_zipWith hstep hpairs).mono fun chunks keys h => ⟨?_, h.2⟩
  rw [h.1]
  exact List.ext_getElem (by simp [h.2.length_eq]) fun i _ _ => by simp

theorem sync_checkPow2RangeInChunks (hcv : cv.Linear) (debugAssertions : Bool) (hbits : 0 < bits)
    (hw : 0 < w) (hsize : min bits w < 31) (hfit : w < bits → WeightsFit P bits w)
    (hmps : ∀ mp ∈ mps, DegreeOne mp)
    (hvalues : ∀ mp ∈ mps, ∃ k < 2 ^ bits, k < P ∧ mp.value = (k : ℕ)) :
    Sync (Correlated Δ)
      (qsProverCheckPow2RangeInChunks cv debugAssertions bits w mps :
        Party M G (FComProver (ZMod P) F) _)
      (qsVerifierCheckPow2RangeInChunks P bits w (mps.map (HDMacProver.key Δ)) :
        Party M (Stream' D) (FComVerifier F) _)
      (Accumulated Δ) := by
  unfold qsProverCheckPow2RangeInChunks qsVerifierCheckPow2RangeInChunks
  refine Sync.assert_left hbits (Sync.assert_left hw (Sync.assert_right hbits
    (Sync.assert_right hw ?_)))
  by_cases hle : bits ≤ w
  · have hcalls : ∀ c ∈ mps.map (QSCall.checkPow2Range bits), c.WellFormed ∧ c.Honest NoProducts := by
      intro c hc
      obtain ⟨mp, hmp, rfl⟩ := List.mem_map.1 hc
      obtain ⟨k, hk, -, hval⟩ := hvalues mp hmp
      exact ⟨⟨(hmps mp hmp).degree_le, hbits, by omega⟩, ⟨k, hk, hval⟩,
        (hmps mp hmp).qsDegree_eq⟩
    simp only [if_pos hle, pow2RangeCalls, pure_bind]
    exact sync_runCalls hcv hcalls (fun delta chi => (mps.map (HDMacProver.key Δ)).foldlM
      (fun qs mv => qs.checkPow2Range bits mv) (.initWithDeltaAndChi delta chi))
        fun chi => foldlM_pow2Range bits mps rfl
  · simp only [if_neg hle, pow2RangeCalls, pure_bind]
    have hlt : w < bits := not_le.1 hle
    obtain ⟨vss, hvss, hchunked⟩ := exists_chunkValues debugAssertions hbits hw hvalues
    simp only [hvss]
    have hlen : vss.flatten.length = (mps.map (HDMacProver.key Δ)).length * numChunks bits w := by
      have hlens : ∀ vs ∈ vss, vs.length = numChunks bits w := by
        intro vs hvs
        obtain ⟨mp, -, k, -, -, rfl⟩ := HDInterp.exists_of_mem hchunked.flip hvs
        rw [List.length_map, length_limbsOf hbits hw]
      rw [List.length_map, hchunked.length_eq, List.length_flatten,
        List.map_congr_left hlens, List.map_const', List.sum_replicate, smul_eq_mul]
    refine (sync_chunks hlen).bind fun chunks keys h => ?_
    obtain ⟨rfl, hchunks⟩ := h
    refine Sync.flush_left (Sync.flush_right ?_)
    obtain ⟨calls, hcalls, hhonest⟩ := honest_chunkCalls hbits hw (by omega) hmps hchunked hchunks
    have hones : ∀ c ∈ chunks, DegreeOne c := by
      intro c hc
      obtain ⟨v, -, hv⟩ := HDInterp.exists_of_mem hchunks.flip hc
      exact hv.1
    simp only [hcalls, or_iff_right_of_imp fun _ => hfit hlt, if_pos (hfit hlt)]
    exact sync_runCalls hcv hhonest (fun delta chi => (QSStateVerifier.initWithDeltaAndChi delta
      chi).checkChunks bits w (mps.map (HDMacProver.key Δ)) (chunks.map (HDMacProver.key Δ)))
        fun chi => checkChunks_eq hmps hones hcalls rfl

/-! ## The copies -/

omit [FiniteField (ZMod P) F] [PrimeFirst P F] in
theorem degreeOne_copies (a c : F) (hmps : ∀ mp ∈ mps, DegreeOne mp) :
    ∀ mp ∈ copies a c mps, DegreeOne mp := by
  intro mp hmp
  obtain ⟨q, hq, hmem⟩ := List.mem_flatMap.1 hmp
  rcases List.mem_cons.1 hmem with rfl | hmem
  · exact ((hmps q hq).sub a).1
  · obtain rfl := List.mem_singleton.1 hmem
    exact ((hmps q hq).add c).1

omit [FiniteField (ZMod P) F] [PrimeFirst P F] in
theorem key_copies (a c : F) (hmps : ∀ mp ∈ mps, DegreeOne mp) :
    ((mps.map (HDMacProver.key Δ)).flatMap fun mv =>
      [mv.subAssignConstant Δ a, mv.addAssignConstant Δ c]) =
      (copies a c mps).map (HDMacProver.key Δ) := by
  induction mps with
  | nil => rfl
  | cons mp mps ih =>
    have hone := hmps mp List.mem_cons_self
    rw [List.map_cons, List.flatMap_cons, ih fun q hq => hmps q (List.mem_cons_of_mem _ hq), copies,
      copies, List.flatMap_cons, List.map_append, ← (hone.sub a).2.2, ← (hone.add c).2.2]
    rfl

variable {lowerBound upperBound : ℤ}

omit [Fact P.Prime] in
theorem clog_pos (h : lowerBound < upperBound) (hadm : Admitted P lowerBound upperBound) :
    0 < Nat.clog 2 (upperBound - lowerBound).toNat := by
  refine Nat.clog_pos one_lt_two ?_
  have hne : (upperBound - lowerBound).toNat ≠ 1 := fun he => hadm.width ⟨0, he⟩
  omega

omit [Fact P.Prime] in
theorem two_pow_clog_le (hadm : Admitted P lowerBound upperBound) :
    2 ^ Nat.clog 2 (upperBound - lowerBound).toNat ≤ P := by
  have hcover := hadm.cover
  zify
  omega

omit [FiniteField (ZMod P) F] [PrimeFirst P F] in
theorem degreeOne_map_ofMac (xs : List (MacProver (ZMod P) F)) :
    ∀ mp ∈ xs.map HDMacProver.ofMac, DegreeOne mp := by
  intro mp hmp
  obtain ⟨x, -, rfl⟩ := List.mem_map.1 hmp
  exact degreeOne_ofMac x

omit [Fact P.Prime] [FiniteField (ZMod P) F] [PrimeFirst P F] [Algebra (ZMod P) F]
  [DecidableEq F] in
theorem length_copies (a c : F) (mps : List (HDMacProver F)) :
    (copies a c mps).length = 2 * mps.length := by
  rw [copies, List.length_flatMap]
  simp [mul_comm]

omit [FiniteField (ZMod P) F] [PrimeFirst P F] [DecidableEq F] in
theorem map_key_ofMac (Δ : F) (xs : List (MacProver (ZMod P) F)) :
    (xs.map fun x => HDMacVerifier.ofMac (x.key Δ)) =
      (xs.map HDMacProver.ofMac).map (HDMacProver.key Δ) := by
  rw [List.map_map]
  exact List.map_congr_left fun x _ => (key_ofMac Δ x).symm

theorem sync_checkRange (hcv : cv.Linear) (hw : 0 < w) (hw' : w < 31)
    (h : lowerBound < upperBound) (hadm : Admitted P lowerBound upperBound)
    {xs : List (MacProver (ZMod P) F)} (hxs : ∀ x ∈ xs, Inside lowerBound upperBound x.value) :
    Sync (Correlated Δ)
      (qsProverCheckRange cv false lowerBound upperBound w (xs.map .ofMac) :
        Party M G (FComProver (ZMod P) F) _)
      (qsVerifierCheckRange P lowerBound upperBound w (xs.map fun x => .ofMac (x.key Δ)) :
        Party M (Stream' D) (FComVerifier F) _)
      (Accumulated Δ) := by
  have hones := degreeOne_map_ofMac xs
  rw [qsProverCheckRange, qsVerifierCheckRange, qsRangeCheckPrepare_some h hadm]
  refine Sync.assert_left (fun hfalse => nomatch hfalse) (Sync.get_right fun s t hst => ?_)
  have hdelta : t.delta = Δ := by rw [hst, FComProver.keys_delta]
  rw [hdelta, map_key_ofMac]
  dsimp only
  rw [key_copies _ _ hones]
  have hP := two_pow_clog_le hadm
  have hpos := clog_pos h hadm
  refine sync_checkPow2RangeInChunks hcv false hpos hw (by omega)
    (fun _ => weightsFit_of_le hpos hw hP) (degreeOne_copies _ _ hones) ?_
  intro mp hmp
  obtain ⟨q, hq, hmem⟩ := List.mem_flatMap.1 hmp
  obtain ⟨x, hx, rfl⟩ := List.mem_map.1 hq
  obtain ⟨v, hv, hv', hval⟩ := hxs x hx
  obtain ⟨⟨k, hk, hkeq⟩, k', hk', hkeq'⟩ := exists_of_mem_interval h hadm hv hv'
  rcases List.mem_cons.1 hmem with rfl | hmem
  · refine ⟨k, hk, hk.trans_le hP, ?_⟩
    rw [((degreeOne_ofMac x).sub _).2.1, value_ofMac, ← map_sub, hval, hkeq, map_natCast]
  · obtain rfl := List.mem_singleton.1 hmem
    refine ⟨k', hk', hk'.trans_le hP, ?_⟩
    rw [((degreeOne_ofMac x).add _).2.1, value_ofMac, ← map_add, hval, hkeq', map_natCast]

omit [FiniteField (ZMod P) F] [PrimeFirst P F] in
theorem inside_of_calls (hw : 0 < w) (h : lowerBound < upperBound)
    {xs chunks : List (MacProver (ZMod P) F)} {m : ℕ} {a c : ZMod P} {calls : List (QSCall F)}
    (hprepare : qsRangeCheckPrepare P lowerBound upperBound = some (m, a, c))
    (hlen : ¬ m ≤ w → chunks.length = 2 * xs.length * numChunks m w)
    (hcalls : pow2RangeCalls m w (copies (algebraMap (ZMod P) F a) (algebraMap (ZMod P) F c)
      (xs.map .ofMac)) (chunks.map .ofMac) = some calls)
    (hzero : ∀ call ∈ calls, call.value = 0) {x : MacProver (ZMod P) F} (hx : x ∈ xs) :
    Inside lowerBound upperBound x.value := by
  by_cases hadm : Admitted P lowerBound upperBound
  · rw [qsRangeCheckPrepare_some h hadm] at hprepare
    obtain ⟨rfl, hshifts⟩ := Prod.mk.inj (Option.some.inj hprepare)
    obtain ⟨rfl, rfl⟩ := Prod.mk.inj hshifts
    have hlt : ∀ mp ∈ copies _ _ (xs.map .ofMac), ∃ k < 2 ^ _, mp.value = ((k : ℕ) : F) :=
      fun mp hmp => lt_of_pow2RangeCalls (clog_pos h hadm) hw
        (degreeOne_copies _ _ (degreeOne_map_ofMac xs)) (degreeOne_map_ofMac chunks)
        (by simpa [length_copies] using hlen) hcalls hzero hmp
    have hmem : HDMacProver.ofMac x ∈ xs.map .ofMac := List.mem_map_of_mem hx
    have hinj := (algebraMap (ZMod P) F).injective
    obtain ⟨k, hk, hval⟩ := hlt _ (List.mem_flatMap.2 ⟨_, hmem, List.mem_cons_self⟩)
    obtain ⟨k', hk', hval'⟩ := hlt _ (List.mem_flatMap.2
      ⟨_, hmem, List.mem_cons_of_mem _ (List.mem_singleton.2 rfl)⟩)
    rw [((degreeOne_ofMac x).sub _).2.1, value_ofMac, ← map_sub,
      ← map_natCast (algebraMap (ZMod P) F)] at hval
    rw [((degreeOne_ofMac x).add _).2.1, value_ofMac, ← map_add,
      ← map_natCast (algebraMap (ZMod P) F)] at hval'
    exact mem_interval h hadm hk hk' (hinj hval) (hinj hval')
  · rw [qsRangeCheckPrepare_none h hadm] at hprepare
    cases hprepare

/-! ## The condition -/

omit [DecidableEq F] in
theorem valAsInt_intCast (v : ℤ) :
    (valAsInt P (algebraMap (ZMod P) F (v : ZMod P)) : ℤ) = v % P := by
  rw [valAsInt_algebraMap, ZMod.val_intCast]

theorem checkRange_lower {debugAssertions : Bool} (h : lowerBound < upperBound)
    (hnot : ¬ (debugAssertions = false ∧ Admitted P lowerBound upperBound)) (mac : F) :
    (qsProverCheckRange cv debugAssertions lowerBound upperBound w
      [.ofMac ⟨(lowerBound : ZMod P), mac⟩] : Party M G (FComProver (ZMod P) F) _) =
        abort "panic" := by
  by_cases hadm : Admitted P lowerBound upperBound
  · have hdebug : debugAssertions = true := by
      cases debugAssertions with
      | false => exact absurd ⟨rfl, hadm⟩ hnot
      | true => rfl
    rw [qsProverCheckRange, qsRangeCheckPrepare_some h hadm]
    dsimp only
    rw [assert_false, abort_bind]
    intro hall
    obtain ⟨-, hlt, hlt'⟩ := hall hdebug _ (List.mem_singleton.2 rfl)
    rw [value_ofMac, valAsInt_intCast] at hlt hlt'
    have hlower := hadm.lower
    have hupper := hadm.upper
    -- a negative bound is represented above the upper bound, and any other bound by itself
    by_cases hneg : lowerBound < 0
    · have hmod : lowerBound % P = lowerBound + P := by
        rw [← Int.add_emod_right, Int.emod_eq_of_lt (by omega) (by omega)]
      omega
    · rw [Int.emod_eq_of_lt (by omega) (by omega)] at hlt
      exact lt_irrefl _ hlt
  · rw [qsProverCheckRange, qsRangeCheckPrepare_none h hadm]

omit [FiniteField (ZMod P) F] [PrimeFirst P F] [DecidableEq F] [CanonicalSerialize M (ZMod P)]
  [CanonicalSerialize M F] in
theorem not_sync_abort {α β : Type} {f : α → Party M (Stream' D) (FComProver (ZMod P) F) β}
    {Q : Party M (Stream' D) (FComVerifier F) (Bool × QSStateVerifier F)} (e : String)
    {post : β → Bool × QSStateVerifier F → Prop} :
    ¬ Sync (Correlated Δ) (abort e >>= f) Q post := by
  intro hsync
  obtain ⟨d, -⟩ := Random.random_surjective (D := D) (0 : F)
  obtain ⟨l, r, a, b, hjoint, -⟩ :=
    hsync (⟨.const ⟨[⟨0, 0⟩], by simp⟩, [], ⟨0, 0⟩⟩ : FComProver (ZMod P) F) _ rfl
      (Stream'.const d) (Stream'.const d)
  have hrun := Proc.joint_run_left hjoint
  simp [abort_apply, Proc.run_fail] at hrun

theorem not_rangeExact {debugAssertions : Bool} (h : lowerBound < upperBound)
    (hnot : ¬ (debugAssertions = false ∧ Admitted P lowerBound upperBound)) :
    ¬ RangeExact M D P F cv debugAssertions lowerBound upperBound w := by
  intro hexact
  have hsync := hexact.complete 0 [⟨(lowerBound : ZMod P), 0⟩] (by
    intro x hx
    obtain rfl := List.mem_singleton.1 hx
    exact ⟨lowerBound, le_rfl, h.le, rfl⟩)
  rw [List.map_singleton, checkRange_lower h hnot] at hsync
  exact not_sync_abort "panic" hsync

/-- The range check is exact for the admitted intervals, without debug assertions. -/
theorem rangeExact_iff (hcv : cv.Linear) (hw : 0 < w) (hw' : w < 31)
    {debugAssertions : Bool} (h : lowerBound < upperBound) :
    RangeExact M D P F cv debugAssertions lowerBound upperBound w ↔
      debugAssertions = false ∧ Admitted P lowerBound upperBound := by
  constructor
  · intro hexact
    by_contra hnot
    exact not_rangeExact h hnot hexact
  · rintro ⟨rfl, hadm⟩
    constructor
    · intro Δ xs hxs
      refine (sync_checkRange hcv hw hw' h hadm hxs).bind fun self v hacc => ?_
      obtain ⟨T, count, hrep, hlead, hdeg, rfl⟩ := hacc
      exact (sync_finalize (ZMod P) hrep hlead hdeg count).mono fun self' r hr => by rw [hr.2]
    · intro xs chunks m a c calls hprepare hlen hcalls hzero x hx
      exact inside_of_calls hw h hprepare hlen hcalls hzero hx

end Honest

/-- The numbers from zero to three, on `F61p`. -/
theorem rangeExact_zero_three :
    RangeExact (Msg F40b F61p) (Draw F40b F61p) (2 ^ 61 - 1) F61p F61p.convolve false 0 3 8 := by
  refine (rangeExact_iff linear_f61p (by decide) (by decide) (by decide)).2 ⟨rfl, ?_⟩
  have hclog : Nat.clog 2 (3 - 0 : ℤ).toNat = 2 := by
    rw [show (3 - 0 : ℤ).toNat = 3 from rfl]
    norm_num
  refine ⟨by norm_num, by norm_num, by norm_num, ?_, by rw [hclog]; norm_num⟩
  rw [← lt_two_pow_clog_iff, hclog]
  decide

/-- The numbers from -4 to 4, whose width is eight, on `F61p`. -/
theorem not_rangeExact_four :
    (-((2 ^ 61 - 1 - 1 : ℤ) / 2) < -4 ∧ (4 : ℤ) < (2 ^ 61 - 1 - 1) / 2) ∧
      ¬ RangeExact (Msg F40b F61p) (Draw F40b F61p) (2 ^ 61 - 1) F61p F61p.convolve false
        (-4) 4 8 := by
  refine ⟨by norm_num, not_rangeExact (by decide) ?_⟩
  rintro ⟨-, hadm⟩
  exact hadm.width ⟨3, rfl⟩

end EdaBitGen
