import EdaBitGen.HdQuicksilver.RangeExact

/-!
# Which numbers of bits can be checked

A check of `bits` bits in chunks is complete when no chunk has more than thirty bits, which is what
a loop over 32-bit integers covers, and the weights of the chunks are numbers of the prime field.
In all other cases the prover aborts on every list of values.  What is asserted is never too weak.
-/

namespace EdaBitGen

open Coefficients Interaction Party Limbs

section Run

variable {M G F : Type} {P : ℕ} [Field F] [DecidableEq F] [Algebra (ZMod P) F]
  [CanonicalSerialize M F] {cv : Convolve F} {s : FComProver (ZMod P) F} {g : G} {inbox : List M}

theorem run_runCalls_none {calls : Option (List (QSCall F))}
    (h : ∀ self : QSStateProver F, calls.bind (fun calls => calls.foldlM (QSCall.prover cv) self) =
      none) :
    Proc.run ((QSStateProver.runCalls P cv calls : Party M G (FComProver (ZMod P) F) _) s g) inbox =
      none := by
  rw [Option.eq_none_iff_forall_ne_some]
  rintro ⟨⟨⟨self, s'⟩, g'⟩, rest⟩ hrun
  obtain ⟨chi, s₁, g₁, mid, -, hrest⟩ := run_bind_eq_some.1 hrun
  rw [h] at hrest
  simp at hrest

end Run

section Abort

variable {P : ℕ} {F : Type} [Fact P.Prime] [Field F] [DecidableEq F] [Algebra (ZMod P) F]
  {bits w : ℕ} {mps chunks : List (HDMacProver F)} {cv : Convolve F}

/-! ## Calls that fail -/

omit [Fact P.Prime] [Algebra (ZMod P) F] in
theorem checkPow2Range_wide (hbits : 31 ≤ bits) {mp : HDMacProver F} (hmp : DegreeOne mp)
    (self : QSStateProver F) : self.checkPow2Range cv bits mp = none := by
  rw [QSStateProver.checkPow2Range, if_pos (by omega), pow2Rounds, if_neg (by omega)]
  by_cases h : bits = 31
  · subst h
    simp [QSStateProver.rangeProduct, hmp.qsDegree_eq]
  · rw [if_neg h]
    rfl

theorem foldlM_none {A S : Type} {step : S → A → Option S} {a : A}
    (h : ∀ s, step s a = none) {as : List A} (ha : a ∈ as) (s : S) : as.foldlM step s = none := by
  induction as generalizing s with
  | nil => cases ha
  | cons b as ih =>
    rw [List.foldlM_cons]
    rcases List.mem_cons.1 ha with rfl | ha
    · rw [h]
      rfl
    · cases step s b with
      | none => rfl
      | some s' => exact ih ha s'

omit [Fact P.Prime] [Algebra (ZMod P) F] in
theorem chunkCalls_wide (hw : 31 ≤ w) (hlt : w < bits) (hmps : ∀ mp ∈ mps, DegreeOne mp)
    (hchunks : ∀ c ∈ chunks, DegreeOne c) (hne : chunks ≠ []) (self : QSStateProver F) :
    (chunkCalls bits w mps chunks).bind (fun calls => calls.foldlM (QSCall.prover cv) self) =
      none := by
  obtain ⟨rs, hrs, -⟩ := exists_chunkCalls bits w hmps hchunks
  obtain ⟨-, -, hlast, hsum⟩ := numChunks_spec (by omega : 0 < bits) (by omega : 0 < w)
  obtain ⟨c, cs, rfl⟩ := List.exists_cons_of_ne_nil hne
  have hsize : chunkSize bits w 0 = w := by
    rw [chunkSize]
    refine if_neg fun hzero => ?_
    have hone : numChunks bits w - 1 = 0 := by rw [← hzero, Nat.zero_mod]
    rw [hone] at hsum
    omega
  rw [hrs, Option.bind_some]
  refine foldlM_none (a := .checkPow2Range w c) (fun s => ?_) (List.mem_append_right _ ?_) self
  · exact checkPow2Range_wide hw (hchunks c List.mem_cons_self) s
  · rw [List.mapIdx_cons, hsize]
    exact List.mem_cons_self

/-! ## Runs of the prover -/

variable {M G : Type} [CanonicalSerialize M (ZMod P)] [CanonicalSerialize M F]
  {s : FComProver (ZMod P) F} {g : G} {inbox : List M}

omit [CanonicalSerialize M F] in
theorem degreeOne_of_run {values : List (ZMod P)} {s' : FComProver (ZMod P) F} {g' : G}
    {rest : List M}
    (h : Proc.run ((values.mapM fun (value : ZMod P) => do
      let mac ← FComProver.input1 value
      pure (HDMacProver.ofMac ⟨value, mac⟩) : Party M G (FComProver (ZMod P) F) _) s g) inbox =
        some (((chunks, s'), g'), rest)) : ∀ c ∈ chunks, DegreeOne c := by
  intro c hc
  obtain ⟨value, -, s₁, g₁, mid₁, s₂, g₂, mid₂, hrun⟩ :=
    HDInterp.exists_of_mem (forall₂_of_run_mapM h).flip hc
  obtain ⟨mac, s₃, g₃, mid₃, -, hpure⟩ := run_bind_eq_some.1 hrun
  rw [(run_pure_eq_some.1 hpure).1]
  exact degreeOne_ofMac _

variable [FiniteField (ZMod P) F]

theorem flatten_chunkValues_ne_nil {debugAssertions : Bool} {values : List (List (ZMod P))}
    (h : (mps.mapM fun mp => chunkValues P debugAssertions bits w mp.value) = some values)
    (hne : mps ≠ []) : values.flatten ≠ [] := by
  obtain ⟨mp, rest, rfl⟩ := List.exists_cons_of_ne_nil hne
  rw [List.mapM_cons] at h
  obtain ⟨vs, hvs, h⟩ := Option.bind_eq_some_iff.1 h
  obtain ⟨vss, -, h⟩ := Option.bind_eq_some_iff.1 h
  obtain rfl := Option.some.inj h
  have hvs' : vs ≠ [] := by
    unfold chunkValues at hvs
    obtain ⟨-, hvs⟩ := Option.ite_none_right_eq_some.1 hvs
    obtain rfl := Option.some.inj hvs
    simp
  simp [hvs']

/-- Unless the chunks and their weights are small enough, the prover does not complete the check of
any list of values. -/
theorem run_checkPow2Range_none (debugAssertions : Bool)
    (hnot : ¬(min bits w < 31 ∧ (w < bits → WeightsFit P bits w)))
    (hmps : ∀ mp ∈ mps, DegreeOne mp) (hne : mps ≠ []) :
    Proc.run ((qsProverCheckPow2RangeInChunks cv debugAssertions bits w mps :
      Party M G (FComProver (ZMod P) F) _) s g) inbox = none := by
  rw [Option.eq_none_iff_forall_ne_some]
  rintro ⟨⟨⟨self, s'⟩, g'⟩, rest⟩ hrun
  obtain ⟨_, s₁, g₁, mid₁, hassert, hrun⟩ := run_bind_eq_some.1 hrun
  obtain ⟨_, s₂, g₂, mid₂, hassert', hrun⟩ := run_bind_eq_some.1 hrun
  have hbits := (run_assert_eq_some.1 hassert).1
  have hw := (run_assert_eq_some.1 hassert').1
  by_cases hle : bits ≤ w
  · rw [if_pos hle, run_runCalls_none] at hrun
    · cases hrun
    · intro self
      obtain ⟨mp, rest, rfl⟩ := List.exists_cons_of_ne_nil hne
      have hwide : 31 ≤ bits := by
        by_contra hlt
        exact hnot ⟨by omega, fun hlt' => absurd hlt' (by omega)⟩
      rw [pow2RangeCalls, if_pos hle, Option.bind_some]
      refine foldlM_none (a := QSCall.checkPow2Range bits mp) (fun s => ?_)
        (List.mem_map_of_mem List.mem_cons_self) self
      exact checkPow2Range_wide hwide (hmps mp List.mem_cons_self) s
  · rw [if_neg hle] at hrun
    have hlt : w < bits := not_le.1 hle
    cases hvalues : mps.mapM fun mp => chunkValues P debugAssertions bits w mp.value with
    | none => simp [hvalues, abort_apply] at hrun
    | some values =>
      rw [hvalues] at hrun
      obtain ⟨chunks, s₃, g₃, mid₃, hcommit, hrun⟩ := run_bind_eq_some.1 hrun
      rw [run_flush_bind, run_runCalls_none] at hrun
      · cases hrun
      · intro self
        by_cases hfit : WeightsFit P bits w
        · rw [if_pos (Or.inr hfit), pow2RangeCalls, if_neg hle]
          refine chunkCalls_wide ?_ hlt hmps (degreeOne_of_run hcommit) ?_ self
          · by_contra hsmall
            exact hnot ⟨by omega, fun _ => hfit⟩
          · have hlength := length_of_run_mapM hcommit
            refine List.ne_nil_of_length_pos ?_
            rw [hlength]
            exact List.length_pos_iff.2 (flatten_chunkValues_ne_nil hvalues hne)
        · rw [if_neg (not_or.2 ⟨hne, hfit⟩)]
          rfl

/-! ## The property -/

/-- The honest chunks are of their sizes and make the value, the verifier's checks are those of the
calls that the prover makes, committed values of `bits` bits pass the check and the proof on both
sides, and whatever chunks are committed to, what is asserted holds of such values only. -/
structure Pow2RangeExact (M D P F) [Fact P.Prime] [Field F] [DecidableEq F] [Algebra (ZMod P) F]
    [FiniteField (ZMod P) F] [CanonicalSerialize M (ZMod P)] [CanonicalSerialize M F] [Random D F]
    (cv : Convolve F) (debugAssertions : Bool) (bits maxChunkSize : ℕ) : Prop where
  recompose : ∀ x : ZMod P, x.val < 2 ^ bits →
    ∃ vs, chunkValues P debugAssertions bits maxChunkSize (algebraMap (ZMod P) F x) = some vs ∧
      vs.length = numChunks bits maxChunkSize ∧ recombine maxChunkSize vs = x ∧
      ∀ i v, vs[i]? = some v → v.val < 2 ^ chunkSize bits maxChunkSize i
  same : ∀ (Δ : F) (xs chunks : List (MacProver (ZMod P) F)) (calls : List (QSCall F))
    (qs : QSStateVerifier F), qs.delta = Δ →
    pow2RangeCalls bits maxChunkSize (xs.map .ofMac) (chunks.map .ofMac) = some calls →
    (if bits ≤ maxChunkSize then
      (xs.map fun x => .ofMac (x.key Δ)).foldlM (fun qs mv => qs.checkPow2Range bits mv) qs
      else qs.checkChunks bits maxChunkSize (xs.map fun x => .ofMac (x.key Δ))
        (chunks.map fun c => .ofMac (c.key Δ))) = calls.foldlM QSCall.verifier qs
  complete : ∀ (Δ : F) (xs : List (MacProver (ZMod P) F)), (∀ x ∈ xs, x.value.val < 2 ^ bits) →
    Sync (Correlated Δ)
      (do
        let qs ← qsProverCheckPow2RangeInChunks cv debugAssertions bits maxChunkSize
          (xs.map .ofMac)
        qs.finalize : Party M (Stream' D) (FComProver (ZMod P) F) _)
      (do
        let qs ← qsVerifierCheckPow2RangeInChunks P bits maxChunkSize
          (xs.map fun x => .ofMac (x.key Δ))
        qs.finalizeAndVerify (ZMod P) : Party M (Stream' D) (FComVerifier F) _)
      fun _ r => r.1 = true
  sound : ∀ (xs chunks : List (MacProver (ZMod P) F)) (calls : List (QSCall F)),
    (¬ bits ≤ maxChunkSize → chunks.length = xs.length * numChunks bits maxChunkSize) →
    pow2RangeCalls bits maxChunkSize (xs.map .ofMac) (chunks.map .ofMac) = some calls →
    (∀ call ∈ calls, call.value = 0) → ∀ x ∈ xs, x.value.val < 2 ^ bits

variable {D : Type} [Random D F]

theorem not_pow2RangeExact {debugAssertions : Bool}
    (hnot : ¬(min bits w < 31 ∧ (w < bits → WeightsFit P bits w))) :
    ¬Pow2RangeExact M D P F cv debugAssertions bits w := by
  intro hexact
  have hsync := hexact.complete 0 [⟨0, 0⟩] fun x hx => by
    obtain rfl := List.mem_singleton.1 hx
    rw [ZMod.val_zero]
    exact Nat.two_pow_pos bits
  obtain ⟨d, -⟩ := Random.random_surjective (D := D) (0 : F)
  obtain ⟨l, r, ⟨⟨a, s'⟩, g'⟩, b, hjoint, -⟩ :=
    hsync (⟨.const ⟨[⟨0, 0⟩], by simp⟩, [], ⟨0, 0⟩⟩ : FComProver (ZMod P) F) _ rfl
      (Stream'.const d) (Stream'.const d)
  obtain ⟨qs, s₁, g₁, mid, hrun, -⟩ := run_bind_eq_some.1 (Proc.joint_run_left hjoint)
  rw [run_checkPow2Range_none debugAssertions hnot (degreeOne_map_ofMac _) (by simp)] at hrun
  cases hrun

omit [DecidableEq F] in
theorem recompose_chunkValues [PrimeFirst P F] (debugAssertions : Bool) (hbits : 0 < bits)
    (hw : 0 < w) {x : ZMod P} (hx : x.val < 2 ^ bits) :
    ∃ vs, chunkValues P debugAssertions bits w (algebraMap (ZMod P) F x) = some vs ∧
      vs.length = numChunks bits w ∧ recombine w vs = x ∧
      ∀ i v, vs[i]? = some v → v.val < 2 ^ chunkSize bits w i := by
  have hcast : algebraMap (ZMod P) F x = ((x.val : ℕ) : F) := by
    rw [← map_natCast (algebraMap (ZMod P) F), ZMod.natCast_rightInverse x]
  refine ⟨_, by rw [hcast, chunkValues_eq debugAssertions hbits hw hx x.val_lt], ?_, ?_, ?_⟩
  · rw [List.length_map, length_limbsOf hbits hw]
  · rw [recombine_cast, limbsOf, recombine_limbs_concat, ZMod.natCast_rightInverse x]
  · intro i v hv
    rw [List.getElem?_map] at hv
    obtain ⟨c, hc, rfl⟩ := Option.map_eq_some_iff.1 hv
    have hi : i < numChunks bits w := by
      rw [← length_limbsOf hbits hw x.val]
      exact (List.getElem?_eq_some_iff.1 hc).1
    have hlt := limbsOf_lt hbits hw hx hc
    rw [ZMod.val_natCast]
    refine (Nat.mod_le _ _).trans_lt ?_
    rwa [chunkSize, Nat.mod_eq_of_lt hi]

omit [DecidableEq F] [FiniteField (ZMod P) F] in
theorem val_lt_of_algebraMap {x : ZMod P} {k : ℕ} (hk : k < 2 ^ bits)
    (h : algebraMap (ZMod P) F x = (k : ℕ)) : x.val < 2 ^ bits := by
  rw [← map_natCast (algebraMap (ZMod P) F)] at h
  rw [(algebraMap (ZMod P) F).injective h, ZMod.val_natCast]
  exact (Nat.mod_le _ _).trans_lt hk

end Abort

end EdaBitGen
