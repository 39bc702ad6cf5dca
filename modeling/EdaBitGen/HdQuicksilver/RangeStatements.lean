import EdaBitGen.HdQuicksilver.Range

/-!
# What a range check asserts

The preparation admits the intervals whose width is not a power of two and that keep a distance from
the bounds of the signed representatives.  The statements about the two copies hold of the values of
the interval only.
-/

namespace EdaBitGen

open Coefficients Interaction Party Limbs

/-! ## The bounds -/

/-- The intervals whose preparation does not fail. -/
structure Admitted (P : ℕ) (lowerBound upperBound : ℤ) : Prop where
  modulus : P ≤ 2 ^ 127
  lower : -(((P : ℤ) - 3) / 2) < lowerBound
  upper : upperBound < ((P : ℤ) - 3) / 2
  width : ¬ (upperBound - lowerBound).toNat.isPowerOfTwo
  cover : 2 ^ Nat.clog 2 (upperBound - lowerBound).toNat < ((P : ℤ) - 3) / 2

theorem signed_eq (P : ℕ) (x : ℤ) : signed P x = (x : ZMod P) := by
  rw [signed]
  by_cases h : x < 0
  · have hx : x = -(x.natAbs : ℤ) := by omega
    rw [if_pos h, ← Int.cast_natCast, ← Int.cast_neg, ← hx]
  · have hx : (x.natAbs : ℤ) = x := by omega
    rw [if_neg h, ← Int.cast_natCast, hx]

theorem lt_two_pow_clog_iff {n : ℕ} : n < 2 ^ Nat.clog 2 n ↔ ¬ n.isPowerOfTwo := by
  constructor
  · rintro hlt ⟨k, rfl⟩
    rw [Nat.clog_pow 2 k one_lt_two] at hlt
    exact lt_irrefl _ hlt
  · intro h
    exact lt_of_le_of_ne (Nat.le_pow_clog one_lt_two n) fun he => h ⟨_, he⟩

section Prepare

variable {P : ℕ} [Fact P.Prime] {lowerBound upperBound : ℤ}

theorem val_neg_one (P : ℕ) [Fact P.Prime] : (((-1 : ZMod P).val : ℕ) : ℤ) = P - 1 := by
  obtain ⟨n, rfl⟩ : ∃ n, P = n + 1 := ⟨P - 1, by
    have := (Fact.out : P.Prime).pos
    omega⟩
  rw [ZMod.val_neg_one]
  push_cast
  ring

omit [Fact P.Prime] in
theorem tdiv_bounds (hodd : P % 2 = 1) (htwo : 2 ≤ P) :
    (-((P : ℤ) - 1) + 1).tdiv 2 = -(((P : ℤ) - 3) / 2) ∧
      ((P : ℤ) - 1 - 1).tdiv 2 = ((P : ℤ) - 3) / 2 := by
  constructor
  · rw [show -((P : ℤ) - 1) + 1 = -((P : ℤ) - 2) by ring, Int.neg_tdiv,
      Int.tdiv_eq_ediv_of_nonneg (by omega)]
    omega
  · rw [Int.tdiv_eq_ediv_of_nonneg (by omega)]
    omega

theorem width_iff (h : lowerBound < upperBound) :
    upperBound - lowerBound < 2 ^ Nat.clog 2 (upperBound - lowerBound).toNat ↔
      ¬ (upperBound - lowerBound).toNat.isPowerOfTwo := by
  rw [← lt_two_pow_clog_iff]
  zify
  rw [Int.toNat_of_nonneg (by omega)]

theorem qsRangeCheckPrepare_some (h : lowerBound < upperBound)
    (hadm : Admitted P lowerBound upperBound) :
    qsRangeCheckPrepare P lowerBound upperBound =
      some (Nat.clog 2 (upperBound - lowerBound).toNat, (lowerBound : ZMod P),
        ((2 ^ Nat.clog 2 (upperBound - lowerBound).toNat - upperBound - 1 : ℤ) : ZMod P)) := by
  have htwo := (Fact.out : P.Prime).two_le
  obtain ⟨hmodulus, hlower, hupper, hwidth, hcover⟩ := hadm
  rw [qsRangeCheckPrepare, val_neg_one, signed_eq]
  simp only [signed_eq]
  rcases (Fact.out : P.Prime).eq_two_or_odd with rfl | hodd
  · norm_num at hlower hupper
    omega
  · obtain ⟨hleft, hright⟩ := tdiv_bounds hodd htwo
    have hP : (P : ℤ) ≤ 2 ^ 127 := by exact_mod_cast hmodulus
    rw [hleft, hright, if_pos ⟨⟨by omega, by omega⟩, hlower, h, hupper⟩,
      if_pos ⟨(width_iff h).2 hwidth, hcover⟩]

theorem qsRangeCheckPrepare_none (h : lowerBound < upperBound)
    (hadm : ¬ Admitted P lowerBound upperBound) :
    qsRangeCheckPrepare P lowerBound upperBound = none := by
  have htwo := (Fact.out : P.Prime).two_le
  rw [qsRangeCheckPrepare, val_neg_one]
  rcases (Fact.out : P.Prime).eq_two_or_odd with rfl | hodd
  · refine if_neg fun hb => ?_
    norm_num at hb
    omega
  · obtain ⟨hleft, hright⟩ := tdiv_bounds hodd htwo
    rw [hleft, hright]
    by_cases hb : (0 < (P : ℤ) - 1 ∧ (P : ℤ) - 1 < 2 ^ 127) ∧
        -(((P : ℤ) - 3) / 2) < lowerBound ∧ lowerBound < upperBound ∧
          upperBound < ((P : ℤ) - 3) / 2
    · rw [if_pos hb]
      refine if_neg fun hm => hadm ⟨?_, hb.2.1, hb.2.2.2, (width_iff h).1 hm.1, hm.2⟩
      have hP : (P : ℤ) ≤ 2 ^ 127 := by omega
      exact_mod_cast hP
    · rw [if_neg hb]

end Prepare

/-! ## MACs of degree one -/

section Macs

variable {PF F : Type} [Field PF] [Field F] [DecidableEq F] [Algebra PF F]

/-- A MAC of a committed value, or what shifts and differences make of it. -/
structure DegreeOne (p : HDMacProver F) : Prop where
  degree_le : p.poly.degree ≤ p.qsDegree
  qsDegree_eq : p.qsDegree = 1

theorem degreeOne_ofMac (x : MacProver PF F) : DegreeOne (HDMacProver.ofMac x) :=
  ⟨(GeneralPolynomial.degree_le _).trans le_rfl, rfl⟩

theorem value_ofMac (x : MacProver PF F) :
    (HDMacProver.ofMac x).value = algebraMap PF F x.value := by
  obtain ⟨a, ha⟩ := HDInterp.represents_toDegPoly (degreeOne_ofMac x).degree_le
  rw [ha.value_eq, DegPoly.lead, ← ha.toPoly_eq, ← ha.qsDegree_eq, GeneralPolynomial.coeff_toPoly]
  rfl

omit [DecidableEq F] in
theorem key_ofMac (Δ : F) (x : MacProver PF F) :
    (HDMacProver.ofMac x).key Δ = HDMacVerifier.ofMac (x.key Δ) := by
  simp [HDMacProver.key, HDMacProver.ofMac, HDMacVerifier.ofMac, MacProver.key,
    GeneralPolynomial.eval, Algebra.smul_def, sub_eq_add_neg]

omit [DecidableEq F] in
theorem polyKey_addConstant (Δ x : F) (a : DegPoly F) :
    HDInterp.polyKey Δ (a.addConstant x) = (HDInterp.polyKey Δ a).addAssignConstant Δ x := by
  simp [HDInterp.polyKey, HDMacVerifier.addAssignConstant, HDInterp.iterate_mul,
    DegPoly.addConstant]

variable {p : HDMacProver F}

theorem DegreeOne.sub (h : DegreeOne p) (x : F) :
    DegreeOne (p.subAssignConstant x) ∧ (p.subAssignConstant x).value = p.value - x ∧
      ∀ Δ, (p.subAssignConstant x).key Δ = (p.key Δ).subAssignConstant Δ x := by
  obtain ⟨a, ha⟩ := HDInterp.represents_toDegPoly h.degree_le
  have hsub := ha.subAssignConstant x
  refine ⟨⟨hsub.degree_le, h.qsDegree_eq⟩, ?_, fun Δ => ?_⟩
  · rw [hsub.value_eq, ha.value_eq, DegPoly.lead_addConstant, sub_eq_add_neg]
  · rw [QSCall.key_eq hsub, QSCall.key_eq ha, HDInterp.polyKey_subConstant]

theorem DegreeOne.add (h : DegreeOne p) (x : F) :
    DegreeOne (p.addAssignConstant x) ∧ (p.addAssignConstant x).value = p.value + x ∧
      ∀ Δ, (p.addAssignConstant x).key Δ = (p.key Δ).addAssignConstant Δ x := by
  obtain ⟨a, ha⟩ := HDInterp.represents_toDegPoly h.degree_le
  have hadd := ha.addAssignConstant x
  refine ⟨⟨hadd.degree_le, h.qsDegree_eq⟩, ?_, fun Δ => ?_⟩
  · rw [hadd.value_eq, ha.value_eq, DegPoly.lead_addConstant]
  · rw [QSCall.key_eq hadd, QSCall.key_eq ha, polyKey_addConstant]

theorem DegreeOne.subChunk (h : DegreeOne p) {q : HDMacProver F} (h' : DegreeOne q) (x : F) :
    ∃ r, p.subAssign (q.mulAssignConstant x) = some r ∧ DegreeOne r ∧
      r.value = p.value - q.value * x ∧
      ∀ Δ, (p.key Δ).subAssign Δ ((q.key Δ).mulAssignConstant x) = r.key Δ := by
  obtain ⟨a, ha⟩ := HDInterp.represents_toDegPoly h.degree_le
  obtain ⟨b, hb⟩ := HDInterp.represents_toDegPoly h'.degree_le
  have hmul := hb.mulAssignConstant x
  obtain ⟨r, hr, hrep⟩ := ha.subAssign hmul
  refine ⟨r, hr, ⟨hrep.degree_le, ?_⟩, ?_, fun Δ => ?_⟩
  · rw [hrep.qsDegree_eq, DegPoly.degree_add, DegPoly.degree_smul, DegPoly.degree_smul,
      ← ha.qsDegree_eq, ← hb.qsDegree_eq, h.qsDegree_eq, h'.qsDegree_eq, max_self]
  · rw [hrep.value_eq, ha.value_eq, hb.value_eq, DegPoly.lead_add, DegPoly.lead_smul,
      DegPoly.lead_smul]
    ring
  · have hsub := HDInterp.polyKey_add Δ a (b.smul x) false
    rw [if_neg Bool.false_ne_true] at hsub
    rw [QSCall.key_eq ha, QSCall.key_eq hb, QSCall.key_eq hrep, hsub, HDInterp.polyKey_smul]
    rfl

theorem exists_difference (w : ℕ) {cs : List (HDMacProver F)} (hcs : ∀ c ∈ cs, DegreeOne c)
    (h : DegreeOne p) :
    ∃ r, cs.zipIdx.foldlM (fun acc c => acc.subAssign (c.1.mulAssignConstant (2 ^ (c.2 * w)))) p =
        some r ∧ DegreeOne r ∧ r.value = p.value - recombine w (cs.map HDMacProver.value) ∧
      ∀ Δ, (cs.map (HDMacProver.key Δ)).zipIdx.foldl (fun acc c =>
        acc.subAssign Δ (c.1.mulAssignConstant (2 ^ (c.2 * w)))) (p.key Δ) = r.key Δ := by
  induction cs using List.reverseRecOn with
  | nil => exact ⟨p, rfl, h, by simp [recombine], fun _ => rfl⟩
  | append_singleton cs c ih =>
    obtain ⟨r, hr, hone, hval, hkey⟩ := ih fun d hd => hcs d (List.mem_append_left _ hd)
    obtain ⟨r', hr', hone', hval', hkey'⟩ :=
      hone.subChunk (hcs c (by simp)) (2 ^ (cs.length * w))
    refine ⟨r', ?_, hone', ?_, fun Δ => ?_⟩
    · simp [List.zipIdx_append, List.foldlM_append, hr, hr']
    · rw [hval', hval, List.map_append, List.map_singleton, recombine_concat, List.length_map]
      ring
    · simp [List.zipIdx_append, List.foldl_append, hkey, hkey']

end Macs

/-! ## The statements -/

section Calls

variable {F : Type} [Field F] [DecidableEq F] {bits w : ℕ} {mps chunks : List (HDMacProver F)}

/-- The difference of a value and its chunks, on both sides. -/
structure Difference (w : ℕ) (p : HDMacProver F × List (HDMacProver F)) (r : HDMacProver F) :
    Prop where
  degreeOne : DegreeOne r
  value_eq : r.value = p.1.value - recombine w (p.2.map HDMacProver.value)
  key_eq : ∀ Δ, (p.2.map (HDMacProver.key Δ)).zipIdx.foldl (fun acc c =>
    acc.subAssign Δ (c.1.mulAssignConstant (2 ^ (c.2 * w)))) (p.1.key Δ) = r.key Δ

theorem exists_differences (w : ℕ) {ps : List (HDMacProver F × List (HDMacProver F))}
    (h : ∀ p ∈ ps, DegreeOne p.1 ∧ ∀ c ∈ p.2, DegreeOne c) :
    ∃ rs, ps.mapM (fun p => p.2.zipIdx.foldlM (fun acc c =>
        acc.subAssign (c.1.mulAssignConstant (2 ^ (c.2 * w)))) p.1) = some rs ∧
      List.Forall₂ (Difference w) ps rs := by
  induction ps with
  | nil => exact ⟨[], rfl, .nil⟩
  | cons p ps ih =>
    obtain ⟨hp, hcs⟩ := h p List.mem_cons_self
    obtain ⟨r, hr, hone, hval, hkey⟩ := exists_difference w hcs hp
    obtain ⟨rs, hrs, hall⟩ := ih fun q hq => h q (List.mem_cons_of_mem _ hq)
    exact ⟨r :: rs, by simp [List.mapM_cons, hr, hrs], .cons ⟨hone, hval, hkey⟩ hall⟩

theorem exists_chunkCalls (bits w : ℕ) (hmps : ∀ mp ∈ mps, DegreeOne mp)
    (hchunks : ∀ c ∈ chunks, DegreeOne c) :
    ∃ rs, chunkCalls bits w mps chunks = some (rs.map .checkZero ++
        chunks.mapIdx fun i c => .checkPow2Range (chunkSize bits w i) c) ∧
      List.Forall₂ (Difference w) (mps.zip (Chunks.exact (numChunks bits w) chunks)) rs := by
  obtain ⟨rs, hrs, hall⟩ := exists_differences w
    (show ∀ p ∈ mps.zip (Chunks.exact (numChunks bits w) chunks),
      DegreeOne p.1 ∧ ∀ c ∈ p.2, DegreeOne c from fun p hp =>
        ⟨hmps _ (List.of_mem_zip hp).1, fun c hc =>
          hchunks c (Chunks.mem_of_mem_exact (List.of_mem_zip hp).2 hc)⟩)
  exact ⟨rs, by simp [chunkCalls, hrs], hall⟩

omit [Field F] [DecidableEq F] in
theorem exists_map_eq {A B C : Type} (f : A → C) (g : B → C) {as : List A} {Q : ℕ → B → Prop}
    (h : ∀ i a, as[i]? = some a → ∃ b, Q i b ∧ f a = g b) :
    ∃ bs : List B, as.map f = bs.map g ∧ ∀ i b, bs[i]? = some b → Q i b := by
  induction as generalizing Q with
  | nil => exact ⟨[], rfl, by simp⟩
  | cons a as ih =>
    obtain ⟨b, hb, hfg⟩ := h 0 a rfl
    obtain ⟨bs, hmap, hall⟩ := ih (Q := fun i => Q (i + 1)) fun i a ha => h (i + 1) a (by simpa)
    refine ⟨b :: bs, by rw [List.map_cons, List.map_cons, hfg, hmap], fun i b' hb' => ?_⟩
    cases i with
    | zero =>
      obtain rfl : b = b' := by simpa using hb'
      exact hb
    | succ i => exact hall i b' (by simpa using hb')

theorem exists_of_range_value {bits : ℕ} {c : HDMacProver F}
    (h : QSCall.value (.checkPow2Range bits c) = 0) : ∃ k < 2 ^ bits, c.value = (k : ℕ) := by
  obtain ⟨k, hk, hval⟩ := Finset.prod_eq_zero_iff.1 h
  exact ⟨k, Finset.mem_range.1 hk, sub_eq_zero.1 hval⟩

theorem lt_of_chunkCalls (hbits : 0 < bits) (hw : 0 < w) (hmps : ∀ mp ∈ mps, DegreeOne mp)
    (hchunks : ∀ c ∈ chunks, DegreeOne c) (hlen : chunks.length = mps.length * numChunks bits w)
    {calls : List (QSCall F)} (hcalls : chunkCalls bits w mps chunks = some calls)
    (hzero : ∀ c ∈ calls, c.value = 0) {mp : HDMacProver F} (hmp : mp ∈ mps) :
    ∃ k < 2 ^ bits, mp.value = (k : ℕ) := by
  obtain ⟨hpos, -⟩ := numChunks_spec hbits hw
  obtain ⟨rs, hrs, hall⟩ := exists_chunkCalls bits w hmps hchunks
  obtain rfl := Option.some.inj (hrs.symm.trans hcalls)
  have hexact : (Chunks.exact (numChunks bits w) chunks).flatten = chunks :=
    (Chunks.remainder_of_dvd (hlen ▸ Dvd.intro_left _ rfl)).1
  have hlens : ∀ vs ∈ Chunks.exact (numChunks bits w) chunks, vs.length = numChunks bits w :=
    fun vs hvs => Chunks.length_of_mem_exact hvs
  have hcount : (Chunks.exact (numChunks bits w) chunks).length = mps.length := by
    rw [Chunks.exact, List.length_map, List.length_range, hlen, Nat.mul_div_cancel _ hpos]
  obtain ⟨j, hj, rfl⟩ := List.getElem_of_mem hmp
  have hj' : j < (Chunks.exact (numChunks bits w) chunks).length := hcount ▸ hj
  set cs := (Chunks.exact (numChunks bits w) chunks)[j] with hcs
  have hpair : (mps[j], cs) ∈ mps.zip (Chunks.exact (numChunks bits w) chunks) := by
    refine List.mem_iff_getElem?.2 ⟨j, ?_⟩
    rw [List.getElem?_zip_eq_some]
    exact ⟨List.getElem?_eq_getElem hj, List.getElem?_eq_getElem hj'⟩
  have hlimbs : ∀ i c, cs[i]? = some c → ∃ k,
      k < 2 ^ (if i = numChunks bits w - 1 then lastChunkSize bits w else w) ∧
        c.value = ((k : ℕ) : F) := by
    intro i c hc
    have hi : i < numChunks bits w := by
      rw [← hlens cs (List.getElem_mem hj')]
      exact (List.getElem?_eq_some_iff.1 hc).1
    have hget : chunks[j * numChunks bits w + i]? = some c := by
      rw [← hexact, Chunks.getElem?_flatten hpos hlens, Nat.mul_comm, Nat.mul_add_div hpos,
        Nat.div_eq_of_lt hi, Nat.add_zero, Nat.mul_add_mod, Nat.mod_eq_of_lt hi,
        List.getElem?_eq_getElem hj']
      exact hc
    have hmem : QSCall.checkPow2Range (chunkSize bits w (j * numChunks bits w + i)) c ∈
        chunks.mapIdx fun i c => QSCall.checkPow2Range (chunkSize bits w i) c := by
      refine List.mem_iff_getElem?.2 ⟨j * numChunks bits w + i, ?_⟩
      rw [List.getElem?_mapIdx, hget]
      rfl
    have hsize : chunkSize bits w (j * numChunks bits w + i) =
        if i = numChunks bits w - 1 then lastChunkSize bits w else w := by
      rw [chunkSize, Nat.mul_comm, Nat.mul_add_mod, Nat.mod_eq_of_lt hi]
    rw [← hsize]
    exact exists_of_range_value (hzero _ (List.mem_append_right _ hmem))
  obtain ⟨ks, hks, hsizes⟩ := exists_map_eq HDMacProver.value ((↑) : ℕ → F) hlimbs
  obtain ⟨r, hr, hdiff⟩ := HDInterp.exists_of_mem hall hpair
  refine ⟨recombine w ks, recombine_lt_of_sizes hbits hw ?_ hsizes, ?_⟩
  · have hks' := congrArg List.length hks
    rw [List.length_map, List.length_map] at hks'
    rw [← hks']
    exact hlens cs (List.getElem_mem hj')
  · have hz := hzero (.checkZero r) (List.mem_append_left _ (List.mem_map_of_mem hr))
    change r.value = 0 at hz
    rw [hdiff.value_eq, hks, recombine_cast] at hz
    exact sub_eq_zero.1 hz

theorem lt_of_pow2RangeCalls (hbits : 0 < bits) (hw : 0 < w) (hmps : ∀ mp ∈ mps, DegreeOne mp)
    (hchunks : ∀ c ∈ chunks, DegreeOne c)
    (hlen : ¬ bits ≤ w → chunks.length = mps.length * numChunks bits w)
    {calls : List (QSCall F)} (hcalls : pow2RangeCalls bits w mps chunks = some calls)
    (hzero : ∀ c ∈ calls, c.value = 0) {mp : HDMacProver F} (hmp : mp ∈ mps) :
    ∃ k < 2 ^ bits, mp.value = (k : ℕ) := by
  rw [pow2RangeCalls] at hcalls
  by_cases hle : bits ≤ w
  · rw [if_pos hle] at hcalls
    obtain rfl := Option.some.inj hcalls
    exact exists_of_range_value (hzero _ (List.mem_map_of_mem hmp))
  · rw [if_neg hle] at hcalls
    exact lt_of_chunkCalls hbits hw hmps hchunks (hlen hle) hcalls hzero hmp

end Calls

/-! ## The verifier's checks -/

section Verifier

variable {F : Type} [Field F] {bits w : ℕ} {mps chunks : List (HDMacProver F)} {Δ : F}

theorem delta_verifier {qs qs' : QSStateVerifier F} {c : QSCall F}
    (h : QSCall.verifier qs c = some qs') : qs'.delta = qs.delta := by
  cases c with
  | checkZero mp => exact Option.some.inj h ▸ rfl
  | checkMult mpA mpB mpC => exact Option.some.inj h ▸ rfl
  | checkPow2Range bits mp =>
    obtain ⟨n, -, hn⟩ := Option.bind_eq_some_iff.1 h
    exact Option.some.inj hn ▸ rfl

theorem delta_foldlM {calls : List (QSCall F)} {qs qs' : QSStateVerifier F}
    (h : calls.foldlM QSCall.verifier qs = some qs') : qs'.delta = qs.delta := by
  induction calls generalizing qs with
  | nil => exact Option.some.inj h ▸ rfl
  | cons c calls ih =>
    rw [List.foldlM_cons] at h
    obtain ⟨qs₁, hstep, hrest⟩ := Option.bind_eq_some_iff.1 h
    exact (ih hrest).trans (delta_verifier hstep)

theorem foldlM_verifier {A : Type} {step : QSStateVerifier F → A → Option (QSStateVerifier F)}
    {call : A → QSCall F} {as : List A}
    (h : ∀ qs, qs.delta = Δ → ∀ a ∈ as, step qs a = QSCall.verifier qs (call a))
    {qs : QSStateVerifier F} (hqs : qs.delta = Δ) :
    as.foldlM step qs = (as.map call).foldlM QSCall.verifier qs := by
  induction as generalizing qs with
  | nil => rfl
  | cons a as ih =>
    rw [List.foldlM_cons, List.map_cons, List.foldlM_cons, h qs hqs a List.mem_cons_self]
    cases hstep : QSCall.verifier qs (call a) with
    | none => rfl
    | some qs' =>
      exact ih (fun qs hqs b hb => h qs hqs b (List.mem_cons_of_mem _ hb))
        ((delta_verifier hstep).trans hqs)

theorem foldlM_pow2Range (bits : ℕ) (mps : List (HDMacProver F)) {qs : QSStateVerifier F}
    (hqs : qs.delta = Δ) :
    (mps.map (HDMacProver.key Δ)).foldlM (fun qs mv => qs.checkPow2Range bits mv) qs =
      (mps.map (.checkPow2Range bits)).foldlM QSCall.verifier qs := by
  rw [List.foldlM_map]
  refine foldlM_verifier (fun qs hqs mp _ => ?_) hqs
  rw [QSCall.verifier, hqs]

variable [DecidableEq F]

theorem foldl_differences {ps : List (HDMacProver F × List (HDMacProver F))}
    {rs : List (HDMacProver F)} (h : List.Forall₂ (Difference w) ps rs) {qs : QSStateVerifier F}
    (hqs : qs.delta = Δ) :
    some ((ps.map (Prod.map (HDMacProver.key Δ) (List.map (HDMacProver.key Δ)))).foldl
      (fun (qs : QSStateVerifier F) p => qs.checkZero (p.2.zipIdx.foldl (fun acc c =>
        acc.subAssign Δ (c.1.mulAssignConstant (2 ^ (c.2 * w)))) p.1)) qs) =
      (rs.map .checkZero).foldlM QSCall.verifier qs := by
  induction h generalizing qs with
  | nil => rfl
  | cons hpr _ ih =>
    rw [List.map_cons, List.foldl_cons, List.map_cons, List.foldlM_cons, Prod.map_fst,
      Prod.map_snd, hpr.key_eq, ih (by exact hqs), QSCall.verifier, hqs]
    rfl

theorem checkChunks_eq (hmps : ∀ mp ∈ mps, DegreeOne mp) (hchunks : ∀ c ∈ chunks, DegreeOne c)
    {calls : List (QSCall F)} (hcalls : chunkCalls bits w mps chunks = some calls)
    {qs : QSStateVerifier F} (hqs : qs.delta = Δ) :
    qs.checkChunks bits w (mps.map (HDMacProver.key Δ)) (chunks.map (HDMacProver.key Δ)) =
      calls.foldlM QSCall.verifier qs := by
  obtain ⟨rs, hrs, hall⟩ := exists_chunkCalls bits w hmps hchunks
  obtain rfl := Option.some.inj (hrs.symm.trans hcalls)
  have hzeros := foldl_differences hall hqs
  rw [QSStateVerifier.checkChunks, hqs, Chunks.exact_map, List.zip_map, List.foldlM_append,
    ← hzeros, Option.bind_eq_bind, Option.bind_some, List.mapIdx_eq_zipIdx_map, List.zipIdx_map, List.foldlM_map]
  refine foldlM_verifier (Δ := Δ) (fun qs hqs c _ => ?_) ((delta_foldlM hzeros.symm).trans hqs)
  rw [QSCall.verifier, hqs]
  rfl

end Verifier

section Interval

variable {P : ℕ} [Fact P.Prime] {lowerBound upperBound : ℤ}

theorem mem_interval (h : lowerBound < upperBound) (hadm : Admitted P lowerBound upperBound)
    {x : ZMod P} {k k' : ℕ} (hk : k < 2 ^ Nat.clog 2 (upperBound - lowerBound).toNat)
    (hk' : k' < 2 ^ Nat.clog 2 (upperBound - lowerBound).toNat) (hx : x - (lowerBound : ℤ) = k)
    (hx' : x + ((2 ^ Nat.clog 2 (upperBound - lowerBound).toNat - upperBound - 1 : ℤ) : ZMod P) =
      k') :
    ∃ v : ℤ, lowerBound ≤ v ∧ v ≤ upperBound ∧ x = (v : ZMod P) := by
  have hcover := hadm.cover
  have hwidth := (width_iff h).2 hadm.width
  zify at hk hk'
  generalize (2 ^ Nat.clog 2 (upperBound - lowerBound).toNat : ℤ) = B at *
  have hxv : x = ((lowerBound + k : ℤ) : ZMod P) := by
    rw [sub_eq_iff_eq_add] at hx
    rw [hx]
    push_cast
    ring
  have hzero : ((lowerBound + k + (B - upperBound - 1) - k' : ℤ) : ZMod P) = 0 := by
    rw [hxv] at hx'
    rw [Int.cast_sub, Int.cast_add, hx', Int.cast_natCast, sub_self]
  have heq := Int.eq_zero_of_abs_lt_dvd ((ZMod.intCast_zmod_eq_zero_iff_dvd _ P).1 hzero)
    (by rw [abs_lt]; omega)
  exact ⟨lowerBound + k, by omega, by omega, hxv⟩

theorem exists_of_mem_interval (h : lowerBound < upperBound)
    (hadm : Admitted P lowerBound upperBound) {v : ℤ} (hv : lowerBound ≤ v) (hv' : v ≤ upperBound) :
    (∃ k < 2 ^ Nat.clog 2 (upperBound - lowerBound).toNat,
      (v : ZMod P) - (lowerBound : ℤ) = (k : ℕ)) ∧
    ∃ k < 2 ^ Nat.clog 2 (upperBound - lowerBound).toNat, (v : ZMod P) +
      ((2 ^ Nat.clog 2 (upperBound - lowerBound).toNat - upperBound - 1 : ℤ) : ZMod P) =
        (k : ℕ) := by
  have hwidth := (width_iff h).2 hadm.width
  constructor
  · refine ⟨(v - lowerBound).toNat, ?_, ?_⟩
    · zify
      rw [Int.toNat_of_nonneg (by omega)]
      omega
    · rw [← Int.cast_natCast, Int.toNat_of_nonneg (by omega), Int.cast_sub]
  · refine ⟨(v + (2 ^ Nat.clog 2 (upperBound - lowerBound).toNat - upperBound - 1)).toNat, ?_, ?_⟩
    · zify
      rw [Int.toNat_of_nonneg (by omega)]
      omega
    · rw [← Int.cast_natCast, Int.toNat_of_nonneg (by omega), Int.cast_add]

end Interval

end EdaBitGen
