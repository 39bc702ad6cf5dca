import EdaBitGen.Edabits.Completeness

/-!
# The conversion of consistent edabits

The adder computes sums and carries position by position, the carries are converted with the
dabits, and the openings of each bucket leave zeros.  So both sides accept consistent edabits
whatever the randomness, the permutations and the carries.
-/

namespace EdaBitGen

open Interaction Party

variable {M D G H K : Type} {p : ℕ} [Fact p.Prime] [Field K] [Algebra F2 K] {Δ₂ : K} {Δₑ : ZMod p}

section Keys

variable (Δ₂ : K) (Δₑ : ZMod p)

def EdabitsProver.keys (x : EdabitsProver K (ZMod p)) : EdabitsVerifier K (ZMod p) :=
  ⟨x.bits.map (MacProver.key Δ₂), x.value.key Δₑ⟩

def Adder.keys (acc : Adder (MacProver F2 K)) : Adder (MacVerifier K) where
  ci := acc.ci.map (MacProver.key Δ₂)
  triples := acc.triples.map (TripleProver.keys Δ₂)
  z := acc.z.map (List.map (MacProver.key Δ₂))

/-- A sum with its carry. -/
def sumKeys (o : List (MacProver F2 K) × MacProver F2 K) : List (MacVerifier K) × MacVerifier K :=
  (o.1.map (MacProver.key Δ₂), o.2.key Δ₂)

end Keys

/-- The field element is the number with the committed bits. -/
def EdabitsProver.Consistent (x : EdabitsProver K (ZMod p)) : Prop :=
  x.value.value = convertBitsToFieldMac x.bits

/-! ## The adder -/

section Adder

variable {xs ys : List (EdabitsProver K (ZMod p))} {m i : ℕ} {acc : Adder (MacProver F2 K)}

/-- The accumulators after the first `i` positions of the additions of `xs` and `ys`. -/
structure Adder.Sums (xs ys : List (EdabitsProver K (ZMod p))) (i : ℕ)
    (acc : Adder (MacProver F2 K)) : Prop where
  length_ci : acc.ci.length = xs.length
  length_z : acc.z.length = xs.length
  adds : ∀ (j : ℕ) (x y : EdabitsProver K (ZMod p)) (z : List (MacProver F2 K)) (c : MacProver F2 K),
    xs[j]? = some x → ys[j]? = some y → acc.z[j]? = some z → acc.ci[j]? = some c →
    Bits.Adds ((x.bits.take i).map MacProver.value) ((y.bits.take i).map MacProver.value)
      (z.map MacProver.value) c.value
  triples : ∀ t ∈ acc.triples, t.2.2.value = t.1.value * t.2.1.value

/-- The bits at position `i` of a batch. -/
def column (xs : List (EdabitsProver K (ZMod p))) (i : ℕ) : List (MacProver F2 K) :=
  xs.map fun x => x.bits.getD i default

omit [Fact (Nat.Prime p)] [Algebra F2 K] in
theorem mapM_index (hx : ∀ x ∈ xs, x.bits.length = m) (hi : i < m) :
    (xs.mapM fun x => index x.bits i : Party M G (ProverConv K (ZMod p)) (List (MacProver F2 K))) =
      pure (column xs i) := by
  refine mapM_eq_pure fun x hmem => ?_
  have hlt : i < x.bits.length := (hx x hmem).symm ▸ hi
  rw [index_eq hlt, List.getD_eq_getElem?_getD, List.getElem?_eq_getElem hlt, Option.getD_some]

theorem mapM_index_keys (hx : ∀ x ∈ xs, x.bits.length = m) (hi : i < m) :
    ((xs.map (EdabitsProver.keys Δ₂ Δₑ)).mapM fun x => index x.bits i :
      Party M G (VerifierConv K (ZMod p)) (List (MacVerifier K))) =
      pure ((column xs i).map (MacProver.key Δ₂)) := by
  rw [column, List.map_map]
  have hpure := mapM_eq_pure (M := M) (G := G) (σ := VerifierConv K (ZMod p))
    (f := fun x : EdabitsVerifier K (ZMod p) => index x.bits i) (k := fun x => x.bits.getD i default)
    (show ∀ y ∈ xs.map (EdabitsProver.keys Δ₂ Δₑ), _ from ?_)
  · rw [hpure, List.map_map]
    refine congrArg pure (List.map_congr_left fun x _ => ?_)
    exact key_getD Δ₂ x.bits i
  · intro y hy
    obtain ⟨x, hmem, rfl⟩ := List.mem_map.1 hy
    have hlt : i < (x.keys Δ₂ Δₑ).bits.length := by
      rw [EdabitsProver.keys, List.length_map, hx x hmem]
      exact hi
    rw [index_eq hlt, List.getD_eq_getElem?_getD, List.getElem?_eq_getElem hlt, Option.getD_some]

theorem map_zipWith_add (as bs : List (MacProver F2 K)) :
    (List.zipWith FComProver.add as bs).map (MacProver.key Δ₂) =
      List.zipWith FComVerifier.add (as.map (MacProver.key Δ₂)) (bs.map (MacProver.key Δ₂)) := by
  rw [List.map_zipWith, List.zipWith_map]
  simp only [FComProver.key_add]

theorem keys_zip (as bs cs : List (MacProver F2 K)) :
    (as.zip (bs.zip cs)).map (TripleProver.keys Δ₂) = (as.map (MacProver.key Δ₂)).zip
      ((bs.map (MacProver.key Δ₂)).zip (cs.map (MacProver.key Δ₂))) := by
  rw [List.zip_map, List.zip_map]
  rfl

omit [Fact p.Prime] [Algebra F2 K] in
theorem getElem?_column (j : ℕ) :
    (column xs i)[j]? = xs[j]?.map fun x => x.bits.getD i default := by
  rw [column, List.getElem?_map]

omit [Fact p.Prime] [Algebra F2 K] in
theorem take_succ_values {x : EdabitsProver K (ZMod p)} (hi : i < x.bits.length) :
    (x.bits.take (i + 1)).map MacProver.value =
      (x.bits.take i).map MacProver.value ++ [(x.bits.getD i default).value] := by
  rw [List.take_add_one, List.map_append, List.getD_eq_getElem?_getD, List.getElem?_eq_getElem hi]
  rfl

omit [Algebra F2 K] in
omit [Field K] in
theorem products_zip {as bs res : List (MacProver F2 K)}
    (h : res.map MacProver.value = List.zipWith (fun a b => a.value * b.value) as bs) :
    ∀ t ∈ as.zip (bs.zip res), t.2.2.value = t.1.value * t.2.1.value := by
  induction as generalizing bs res with
  | nil => simp
  | cons a as ih =>
    cases bs with
    | nil => simp
    | cons b bs =>
      cases res with
      | nil => simp
      | cons r res =>
        simp only [List.map_cons, List.zipWith_cons_cons, List.cons.injEq] at h
        intro t ht
        rcases List.mem_cons.1 ht with rfl | ht
        · exact h.1
        · exact ih h.2 t ht

omit [Fact (Nat.Prime p)] [Algebra F2 K] in
theorem Adder.Sums.concat (h : acc.Sums xs ys i) (hx : ∀ x ∈ xs, x.bits.length = m)
    (hy : ∀ y ∈ ys, y.bits.length = m) (hlen : xs.length = ys.length) (hi : i < m)
    {res : List (MacProver F2 K)} (hres : res.map MacProver.value =
      List.zipWith (fun a b => a.value * b.value)
        (List.zipWith FComProver.add (column xs i) acc.ci)
        (List.zipWith FComProver.add (column ys i) acc.ci)) :
    Adder.Sums xs ys (i + 1) {
      ci := List.zipWith FComProver.add acc.ci res
      triples := acc.triples ++ (List.zipWith FComProver.add (column xs i) acc.ci).zip
        ((List.zipWith FComProver.add (column ys i) acc.ci).zip res)
      z := List.zipWith (fun zs b => zs ++ [b]) acc.z
        (List.zipWith FComProver.add (List.zipWith FComProver.add (column xs i) acc.ci)
          (column ys i)) } := by
  have hcx : (column xs i).length = xs.length := List.length_map _
  have hcy : (column ys i).length = ys.length := List.length_map _
  have hlres : res.length = xs.length := by
    have := congrArg List.length hres
    simp only [List.length_map, List.length_zipWith, hcx, hcy, h.length_ci] at this
    omega
  have hproduct : ∀ (j : ℕ) (x y : EdabitsProver K (ZMod p)) (c r : MacProver F2 K),
      xs[j]? = some x → ys[j]? = some y → acc.ci[j]? = some c → res[j]? = some r →
      r.value = ((x.bits.getD i default).value + c.value) *
        ((y.bits.getD i default).value + c.value) := by
    intro j x y c r hxj hyj hcj hrj
    have hj := congrArg (·[j]?) hres
    simp only [List.getElem?_map, List.getElem?_zipWith, getElem?_column, hxj, hyj, hcj, hrj,
      Option.map_some, Option.some.injEq] at hj
    exact hj
  refine ⟨?_, ?_, ?_, ?_⟩
  · rw [List.length_zipWith, h.length_ci, hlres, Nat.min_self]
  · simp only [List.length_zipWith, h.length_z, h.length_ci, hcx, hcy]
    omega
  · intro j x y z' c' hxj hyj hz hc
    obtain ⟨c, r, hcj, hrj, rfl⟩ := List.getElem?_zipWith_eq_some.1 hc
    obtain ⟨z, b, hzj, hbj, rfl⟩ := List.getElem?_zipWith_eq_some.1 hz
    have hmemx := List.mem_of_getElem? hxj
    have hmemy := List.mem_of_getElem? hyj
    have hb : b.value = (x.bits.getD i default).value + (y.bits.getD i default).value + c.value := by
      simp only [List.getElem?_zipWith, getElem?_column, hxj, hyj, hcj, Option.map_some,
        Option.some.injEq] at hbj
      rw [← hbj]
      exact add_right_comm _ _ _
    rw [take_succ_values ((hx x hmemx).symm ▸ hi), take_succ_values ((hy y hmemy).symm ▸ hi),
      List.map_append, List.map_singleton, hb]
    have hstep := (h.adds j x y z c hxj hyj hzj hcj).concat (x.bits.getD i default).value
      (y.bits.getD i default).value
    rw [← hproduct j x y c r hxj hyj hcj hrj] at hstep
    exact hstep
  · intro t ht
    rcases List.mem_append.1 ht with ht | ht
    · exact h.triples t ht
    · exact products_zip hres t ht

omit [Fact (Nat.Prime p)] [Field K] [Algebra F2 K] in
theorem Adder.Sums.start {ms : List K} (hms : ms.length = xs.length) :
    Adder.Sums xs ys 0 ⟨List.zipWith MacProver.mk (List.replicate xs.length 0) ms, [],
      List.replicate xs.length []⟩ := by
  refine ⟨by simp [hms], List.length_replicate, ?_, by simp⟩
  intro j x y z c _ _ hz hc
  obtain ⟨v, mac, hv, -, rfl⟩ := List.getElem?_zipWith_eq_some.1 hc
  rw [List.eq_of_mem_replicate (List.mem_of_getElem? hz),
    List.eq_of_mem_replicate (List.mem_of_getElem? hv)]
  exact Bits.Adds.nil

variable [CanonicalSerialize M F2]

theorem sync_addBits (h : acc.Sums xs ys i) (hx : ∀ x ∈ xs, x.bits.length = m)
    (hy : ∀ y ∈ ys, y.bits.length = m) (hlen : xs.length = ys.length) (hi : i < m) :
    Sync (ConvCorrelated Δ₂ Δₑ)
      (ProverConv.addBits xs ys m acc i : Party M G (ProverConv K (ZMod p)) _)
      (VerifierConv.addBits (xs.map (EdabitsProver.keys Δ₂ Δₑ))
        (ys.map (EdabitsProver.keys Δ₂ Δₑ)) m (acc.keys Δ₂) i :
        Party M H (VerifierConv K (ZMod p)) _)
      fun a b => b = a.keys Δ₂ ∧ a.Sums xs ys (i + 1) := by
  have hkeys : ∀ {zs : List (EdabitsProver K (ZMod p))}, (∀ z ∈ zs, z.bits.length = m) →
      ∀ z ∈ zs.map (EdabitsProver.keys Δ₂ Δₑ), z.bits.length = m := by
    intro zs hzs z hz
    obtain ⟨z, hmem, rfl⟩ := List.mem_map.1 hz
    rw [EdabitsProver.keys, List.length_map, hzs z hmem]
  unfold ProverConv.addBits VerifierConv.addBits
  refine Sync.assert_left ⟨hx, hy⟩ (Sync.assert_right ⟨hkeys hx, hkeys hy⟩ ?_)
  rw [mapM_index hx hi, mapM_index hy hi, mapM_index_keys hx hi, mapM_index_keys hy hi]
  simp only [pure_bind]
  have hcx : (column xs i).length = xs.length := List.length_map _
  have hcy : (column ys i).length = ys.length := List.length_map _
  have hnum : (List.zipWith (fun a b => a.value * b.value)
      (List.zipWith FComProver.add (column xs i) acc.ci)
      (List.zipWith FComProver.add (column ys i) acc.ci)).length =
      (xs.map (EdabitsProver.keys Δ₂ Δₑ)).length := by
    simp only [List.length_zipWith, List.length_map, hcx, hcy, h.length_ci]
    omega
  refine (sync_inputF2 _ hnum).bind fun ms ks hms => Sync.pure ⟨?_, ?_⟩
  · obtain ⟨-, rfl⟩ := hms
    have hz : ∀ (zs : List (List (MacProver F2 K))) (bs : List (MacProver F2 K)),
        (List.zipWith (fun zs b => zs ++ [b]) zs bs).map (List.map (MacProver.key Δ₂)) =
          List.zipWith (fun zs b => zs ++ [b]) (zs.map (List.map (MacProver.key Δ₂)))
            (bs.map (MacProver.key Δ₂)) := fun zs bs => by
      rw [List.map_zipWith, List.zipWith_map]
      simp only [List.map_append, List.map_singleton]
    simp only [Adder.keys, List.map_append, map_zipWith_add, keys_zip, hz]
  · exact h.concat hx hy hlen hi (values_zipWith_mk (hms.1.trans hnum.symm))

theorem sync_foldlM_addBits (h : acc.Sums xs ys 0) (hx : ∀ x ∈ xs, x.bits.length = m)
    (hy : ∀ y ∈ ys, y.bits.length = m) (hlen : xs.length = ys.length) {k : ℕ} (hk : k ≤ m) :
    Sync (ConvCorrelated Δ₂ Δₑ)
      ((List.range k).foldlM (ProverConv.addBits xs ys m) acc :
        Party M G (ProverConv K (ZMod p)) _)
      ((List.range k).foldlM (VerifierConv.addBits (xs.map (EdabitsProver.keys Δ₂ Δₑ))
        (ys.map (EdabitsProver.keys Δ₂ Δₑ)) m) (acc.keys Δ₂) :
        Party M H (VerifierConv K (ZMod p)) _)
      fun a b => b = a.keys Δ₂ ∧ a.Sums xs ys k := by
  induction k with
  | zero => exact Sync.pure ⟨rfl, h⟩
  | succ k ih =>
    rw [List.range_succ, List.foldlM_append, List.foldlM_append]
    refine (ih (by omega)).bind fun a b hab => ?_
    obtain ⟨rfl, ha⟩ := hab
    rw [List.foldlM_cons, List.foldlM_cons]
    refine (sync_addBits ha hx hy hlen hk).bind fun a b hab => Sync.pure hab

section Carry

variable [FiniteField F2 K] [DecidableEq K] [CanonicalSerialize M K] [CanonicalSerialize M Block]
  [Random D F2] [Random D K] [Random D (ZMod p)] [Random D Block]

omit [CanonicalSerialize M Block] [Random D F2] [Random D (ZMod p)] [Random D Block] in
theorem sync_bitAddCarry (hx : ∀ x ∈ xs, x.bits.length = m) (hy : ∀ y ∈ ys, y.bits.length = m)
    (hlen : xs.length = ys.length) (hpos : 0 < xs.length) :
    Sync (ConvCorrelated Δ₂ Δₑ)
      (ProverConv.bitAddCarry xs ys : Party M G (ProverConv K (ZMod p)) _)
      (VerifierConv.bitAddCarry (xs.map (EdabitsProver.keys Δ₂ Δₑ))
        (ys.map (EdabitsProver.keys Δ₂ Δₑ)) : Party M (Stream' D) (VerifierConv K (ZMod p)) _)
      fun os ks => ks = os.map (sumKeys Δ₂) ∧ os.length = xs.length ∧
        ∀ (j : ℕ) (x y : EdabitsProver K (ZMod p)) (o : List (MacProver F2 K) × MacProver F2 K),
          xs[j]? = some x → ys[j]? = some y → os[j]? = some o →
          Bits.Adds (x.bits.map MacProver.value) (y.bits.map MacProver.value)
            (o.1.map MacProver.value) o.2.value := by
  unfold ProverConv.bitAddCarry VerifierConv.bitAddCarry
  rw [List.length_map, List.length_map]
  refine Sync.assert_left hlen (Sync.assert_right hlen ?_)
  have hx0 : (xs[0]).bits.length = m := hx _ (List.getElem_mem hpos)
  have hpos' : 0 < (xs.map (EdabitsProver.keys Δ₂ Δₑ)).length := by rw [List.length_map]; exact hpos
  have hx0' : ((xs.map (EdabitsProver.keys Δ₂ Δₑ))[0]).bits.length = m := by
    rw [List.getElem_map, EdabitsProver.keys, List.length_map, hx0]
  rw [index_eq hpos, index_eq hpos', pure_bind, pure_bind, hx0, hx0']
  refine (sync_inputF2 _ List.length_replicate).bind fun ms ks hms => ?_
  obtain ⟨hms, rfl⟩ := hms
  have hkeys : (Adder.keys Δ₂ ⟨List.zipWith MacProver.mk (List.replicate xs.length (0 : F2)) ms, [],
      List.replicate xs.length []⟩ : Adder (MacVerifier K)) =
      ⟨(List.zipWith MacProver.mk (List.replicate xs.length (0 : F2)) ms).map (MacProver.key Δ₂), [],
        List.replicate xs.length []⟩ := by simp [Adder.keys]
  rw [← hkeys]
  refine (sync_foldlM_addBits (Adder.Sums.start hms) hx hy hlen le_rfl).bind fun a b hab => ?_
  obtain ⟨rfl, ha⟩ := hab
  refine Sync.flush_left ((sync_f2 (sync_quicksilverCheckMultiply ha.triples)).bind fun _ _ _ =>
    Sync.pure ⟨?_, ?_, ?_⟩)
  · rw [Adder.keys, List.zip_map]
    rfl
  · rw [List.length_zip, ha.length_z, ha.length_ci, Nat.min_self]
  · intro j x y o hxj hyj ho
    obtain ⟨hz, hc⟩ := List.getElem?_zip_eq_some.1 ho
    have hadds := ha.adds j x y o.1 o.2 hxj hyj hz hc
    rwa [List.take_of_length_le (hx x (List.mem_of_getElem? hxj)).le,
      List.take_of_length_le (hy y (List.mem_of_getElem? hyj)).le] at hadds

end Carry

end Adder

section Carries

omit [Algebra F2 K] in
omit [Field K] in
theorem value_converted {r : DabitProver K (ZMod p)} (hr : r.Consistent) (x : MacProver F2 K) :
    (if r.bit.value + x.value = 1 then
        FComProver.affineAddCst (f2ToFe (r.bit.value + x.value)) (FComProver.neg r.value)
      else FComProver.affineAddCst (f2ToFe (r.bit.value + x.value)) r.value).value =
        (f2ToFe x.value : ZMod p) := by
  have hvalue : r.value.value = f2ToFe r.bit.value := hr
  have htwo : (1 : F2) + 1 = 0 := rfl
  rcases Parity.eq_zero_or_one r.bit.value with hb | hb <;>
    rcases Parity.eq_zero_or_one x.value with hx | hx <;>
    simp [FComProver.affineAddCst, FComProver.neg, hvalue, hb, hx, f2ToFe, htwo]

variable [CanonicalSerialize M F2] [DecidableEq K] [CanonicalSerialize M K] [Random D K]
  (C : Primitives M D)

theorem sync_convertBit2Field {rs : List (DabitProver K (ZMod p))} {xs : List (MacProver F2 K)}
    (hr : ∀ r ∈ rs, r.Consistent) (hlen : rs.length = xs.length) :
    Sync (ConvCorrelated Δ₂ Δₑ)
      (ProverConv.convertBit2Field C rs xs : Party M G (ProverConv K (ZMod p)) _)
      (VerifierConv.convertBit2Field C (rs.map (DabitProver.keys Δ₂ Δₑ))
        (xs.map (MacProver.key Δ₂)) : Party M H (VerifierConv K (ZMod p)) _)
      fun ms ks => ks = ms.map (MacProver.key Δₑ) ∧
        ms.map MacProver.value = xs.map fun x => f2ToFe x.value := by
  unfold ProverConv.convertBit2Field VerifierConv.convertBit2Field
  rw [List.length_map, List.length_map]
  refine Sync.assert_left hlen (Sync.assert_right hlen ?_)
  dsimp only
  have hsum : List.zipWith (fun r x => FComVerifier.add r.bit x) (rs.map (DabitProver.keys Δ₂ Δₑ))
      (xs.map (MacProver.key Δ₂)) =
      (List.zipWith (fun r x => FComProver.add r.bit x) rs xs).map (MacProver.key Δ₂) := by
    rw [List.map_zipWith, List.zipWith_map]
    simp only [DabitProver.keys, FComProver.key_add]
  rw [hsum]
  refine (sync_f2 (sync_openMacs C _)).bind fun _ out hout => ?_
  subst hout
  refine Sync.get_right fun s t hst => Sync.pure ⟨?_, ?_⟩
  · obtain rfl : t = s.keys Δ₂ Δₑ := hst
    rw [List.zipWith_map, List.map_zipWith]
    congr 1
    funext c r
    by_cases hc : c.value = 1
    · rw [if_pos hc, if_pos hc, FComProver.key_affineAddCst Δₑ s.fcomFe, FComProver.key_neg]
      rfl
    · rw [if_neg hc, if_neg hc, FComProver.key_affineAddCst Δₑ s.fcomFe]
      rfl
  · rw [List.map_zipWith]
    clear hsum
    induction rs generalizing xs with
    | nil => rw [List.eq_nil_of_length_eq_zero hlen.symm]; rfl
    | cons r rs ih =>
      cases xs with
      | nil => simp at hlen
      | cons x xs =>
        obtain ⟨hr₀, hrs⟩ := List.forall_mem_cons.1 hr
        have htail := ih hrs (by simpa using hlen)
        rw [List.zipWith_cons_cons, List.zipWith_cons_cons, List.map_cons, htail]
        exact congrArg₂ List.cons (value_converted hr₀ x) rfl

end Carries

/-! ## The bucket loop -/

section Rows

omit [Field K] [Algebra F2 K] in
theorem convertBitsToField_values (row : List (MacProver F2 K)) :
    (convertBitsToField (row.map MacProver.value) : ZMod p) = convertBitsToFieldMac row := by
  rw [convertBitsToField_eq, convertBitsToFieldMac_eq]

variable {α : Type} {rows : List (List α)} {m : ℕ}

theorem length_flatten_rows (h : ∀ row ∈ rows, row.length = m) :
    rows.flatten.length = rows.length * m := by
  rw [List.length_flatten, List.map_congr_left h, List.map_const', List.sum_replicate, smul_eq_mul]

theorem slice_flatten (h : ∀ row ∈ rows, row.length = m) {i : ℕ} (hi : i < rows.length)
    {G σ : Type} :
    (slice rows.flatten (i * m) ((i + 1) * m) : Party M G σ (List α)) = pure rows[i] := by
  have hle : (i + 1) * m ≤ rows.flatten.length := by
    rw [length_flatten_rows h]
    exact Nat.mul_le_mul_right m hi
  have hsum : ∀ k ≤ rows.length, ((rows.map List.length).take k).sum = k * m := fun k hk => by
    rw [List.map_congr_left h, List.map_const', List.take_replicate, List.sum_replicate, smul_eq_mul,
      Nat.min_eq_left hk]
  have hrow := List.drop_take_succ_flatten_eq_getElem rows i hi
  rw [hsum i hi.le, hsum (i + 1) hi, List.drop_take] at hrow
  rw [slice_eq (Nat.mul_le_mul_right m i.le_succ) hle, hrow]

omit [Field K] [Algebra F2 K] in
theorem bucket_zero {m : ℕ} {x r : EdabitsProver K (ZMod p)} {z : List (MacProver F2 K)}
    {c : MacProver F2 K} {e : MacProver (ZMod p) (ZMod p)} (hx : x.Consistent ∧ x.bits.length = m)
    (hr : r.Consistent) (hadds : Bits.Adds (x.bits.map MacProver.value)
      (r.bits.map MacProver.value) (z.map MacProver.value) c.value)
    (he : e.value = f2ToFe c.value) :
    (FComProver.affineAddCst (-convertBitsToFieldMac z) (FComProver.add
      (FComProver.add x.value r.value) (FComProver.affineMultCst (-powerTwo m) e))).value = 0 := by
  have hlen := hadds.length_left
  have hsum := congrArg (Nat.cast : ℕ → ZMod p) hadds.sum
  have hxv : x.value.value = convertBitsToFieldMac x.bits := hx.1
  have hrv : r.value.value = convertBitsToFieldMac r.bits := hr
  rw [List.length_map, hx.2] at hlen
  rw [← hlen] at hsum
  change -convertBitsToFieldMac z + (x.value.value + r.value.value + -powerTwo m * e.value) = 0
  rw [hxv, hrv, he, convertBitsToFieldMac_eq, convertBitsToFieldMac_eq, convertBitsToFieldMac_eq,
    powerTwo_eq, f2ToFe_eq]
  push_cast at hsum ⊢
  linear_combination hsum

end Rows

section Loop

variable [CanonicalSerialize M F2] [CanonicalSerialize M (ZMod p)] [FiniteField F2 K]
  [DecidableEq K] [CanonicalSerialize M K] [CanonicalSerialize M Block] [Random D F2] [Random D K]
  [Random D (ZMod p)] [Random D Block] (C : Primitives M D)

omit [Random D F2] in
theorem sync_convLoop {m : ℕ} {edabits rs : List (EdabitsProver K (ZMod p))}
    {ds : List (DabitProver K (ZMod p))} (he : ∀ x ∈ edabits, x.Consistent ∧ x.bits.length = m)
    (hr : ∀ x ∈ rs, x.Consistent ∧ x.bits.length = m) (hd : ∀ d ∈ ds, d.Consistent)
    (hpos : 0 < edabits.length) (hlen : rs.length = edabits.length)
    (hlen' : ds.length = edabits.length) :
    Sync (ConvCorrelated Δ₂ Δₑ)
      (ProverConv.convLoop C edabits rs ds : Party M G (ProverConv K (ZMod p)) Unit)
      (VerifierConv.convLoop C (edabits.map (EdabitsProver.keys Δ₂ Δₑ))
        (rs.map (EdabitsProver.keys Δ₂ Δₑ)) (ds.map (DabitProver.keys Δ₂ Δₑ)) :
        Party M (Stream' D) (VerifierConv K (ZMod p)) Unit) fun _ _ => True := by
  unfold ProverConv.convLoop VerifierConv.convLoop
  have hpos' : 0 < (edabits.map (EdabitsProver.keys Δ₂ Δₑ)).length := by
    rw [List.length_map]
    exact hpos
  have he0 : (edabits[0]).bits.length = m := (he _ (List.getElem_mem hpos)).2
  have he0' : ((edabits.map (EdabitsProver.keys Δ₂ Δₑ))[0]).bits.length = m := by
    rw [List.getElem_map, EdabitsProver.keys, List.length_map, he0]
  rw [index_eq hpos, index_eq hpos', pure_bind, pure_bind, he0, he0', List.length_map]
  refine (sync_bitAddCarry (fun x hx => (he x hx).2) (fun x hx => (hr x hx).2) hlen.symm hpos).bind
    fun os ks hos => ?_
  obtain ⟨rfl, hosLen, hadds⟩ := hos
  have hcarries : (os.map (sumKeys Δ₂)).map Prod.snd = (os.map Prod.snd).map (MacProver.key Δ₂) := by
    rw [List.map_map, List.map_map]
    rfl
  have hbits : ((os.map (sumKeys Δ₂)).map Prod.fst).flatten =
      ((os.map Prod.fst).flatten).map (MacProver.key Δ₂) := by
    rw [List.map_flatten, List.map_map, List.map_map]
    rfl
  rw [hcarries, hbits]
  refine (sync_convertBit2Field C hd (by rw [List.length_map, hosLen, hlen'])).bind fun em ks hem => ?_
  obtain ⟨rfl, hem⟩ := hem
  refine (sync_f2 (sync_openMacs C _)).bind fun _ out hout => ?_
  subst hout
  let rows := os.map Prod.fst
  let ePrime := List.zipWith (fun cr eM =>
    FComProver.add cr (FComProver.affineMultCst (-powerTwo m) eM))
    (List.zipWith (fun c r => FComProver.add c.value r.value) edabits rs) em
  have hePrime : List.zipWith (fun cr eM =>
      FComVerifier.add cr (FComVerifier.affineMultCst (-powerTwo m : ZMod p) eM))
      (List.zipWith (fun c r => FComVerifier.add c.value r.value)
        (edabits.map (EdabitsProver.keys Δ₂ Δₑ)) (rs.map (EdabitsProver.keys Δ₂ Δₑ)))
      (em.map (MacProver.key Δₑ)) = ePrime.map (MacProver.key Δₑ) := by
    have hsum : List.zipWith (fun c r => FComVerifier.add c.value r.value)
        (edabits.map (EdabitsProver.keys Δ₂ Δₑ)) (rs.map (EdabitsProver.keys Δ₂ Δₑ)) =
        (List.zipWith (fun c r => FComProver.add c.value r.value) edabits rs).map
          (MacProver.key Δₑ) := by
      rw [List.map_zipWith, List.zipWith_map]
      simp only [EdabitsProver.keys, FComProver.key_add]
    rw [hsum, List.zipWith_map, List.map_zipWith]
    simp only [FComProver.key_add, FComProver.key_affineMultCst]
  have hrows : ∀ row ∈ rows, row.length = m := by
    intro row hrow
    obtain ⟨o, ho, rfl⟩ := List.mem_map.1 hrow
    obtain ⟨i, hi, rfl⟩ := List.mem_iff_getElem.1 ho
    have hie : i < edabits.length := hosLen ▸ hi
    have hir : i < rs.length := hlen.symm ▸ hie
    have hlenRow := (hadds i _ _ _ (List.getElem?_eq_getElem hie) (List.getElem?_eq_getElem hir)
      (List.getElem?_eq_getElem hi)).length_left
    rw [List.length_map, List.length_map, (he _ (List.getElem_mem hie)).2] at hlenRow
    exact hlenRow.symm
  have hlenRows : rows.length = edabits.length := by rw [List.length_map, hosLen]
  have hlenEm : em.length = edabits.length := by
    have := congrArg List.length hem
    simpa [hosLen] using this
  have hlenE : ePrime.length = edabits.length := by
    simp [ePrime, hlen, hlenEm]
  let zeros := (List.range edabits.length).map fun i =>
    FComProver.affineAddCst (-convertBitsToFieldMac (rows.getD i [])) (ePrime.getD i default)
  have hprover : ((List.range edabits.length).mapM fun i => do
      let bits ← slice rows.flatten (i * m) ((i + 1) * m)
      pure (FComProver.affineAddCst (-convertBitsToFieldMac bits) (← index ePrime i)) :
      Party M G (ProverConv K (ZMod p)) (List (MacProver (ZMod p) (ZMod p)))) = pure zeros := by
    refine mapM_eq_pure fun i hi => ?_
    have hi' : i < edabits.length := List.mem_range.1 hi
    rw [slice_flatten hrows (hlenRows.symm ▸ hi'), pure_bind, index_eq (hlenE.symm ▸ hi'), pure_bind,
      List.getD_eq_getElem?_getD, List.getElem?_eq_getElem (hlenRows.symm ▸ hi'),
      List.getD_eq_getElem?_getD, List.getElem?_eq_getElem (hlenE.symm ▸ hi')]
    rfl
  have hverifier : ∀ s : ProverConv K (ZMod p),
      ((List.range edabits.length).mapM fun i => do
        let bits ← slice (rows.flatten.map MacProver.value) (i * m) ((i + 1) * m)
        pure ((s.keys Δ₂ Δₑ).fcomFe.affineAddCst (-convertBitsToField bits : ZMod p)
          (← index (ePrime.map (MacProver.key Δₑ)) i)) :
        Party M (Stream' D) (VerifierConv K (ZMod p)) (List (MacVerifier (ZMod p)))) =
        pure (zeros.map (MacProver.key Δₑ)) := by
    intro s
    have hvalues : ∀ row ∈ rows.map (List.map MacProver.value), row.length = m := by
      intro row hrow
      obtain ⟨row, hmem, rfl⟩ := List.mem_map.1 hrow
      rw [List.length_map, hrows row hmem]
    rw [List.map_map, List.map_flatten]
    refine mapM_eq_pure fun i hi => ?_
    have hi' : i < edabits.length := List.mem_range.1 hi
    rw [slice_flatten hvalues (by rw [List.length_map, hlenRows]; exact hi'), pure_bind,
      index_eq (by rw [List.length_map, hlenE]; exact hi'), pure_bind,
      List.getElem_map (List.map MacProver.value), List.getElem_map (MacProver.key Δₑ),
      Function.comp_apply, List.getD_eq_getElem?_getD,
      List.getElem?_eq_getElem (hlenRows.symm ▸ hi'), List.getD_eq_getElem?_getD,
      List.getElem?_eq_getElem (hlenE.symm ▸ hi'), FComProver.key_affineAddCst Δₑ s.fcomFe,
      convertBitsToField_values]
    rfl
  have hzeros : ∀ x ∈ zeros, x.value = 0 := by
    intro x hx
    obtain ⟨i, hi, rfl⟩ := List.mem_map.1 hx
    have hie : i < edabits.length := List.mem_range.1 hi
    have hir : i < rs.length := hlen.symm ▸ hie
    have hio : i < os.length := hosLen.symm ▸ hie
    have hiem : i < em.length := hlenEm.symm ▸ hie
    have hcarry : em[i].value = f2ToFe os[i].2.value := by
      have hget := congrArg (·[i]?) hem
      simpa [hiem, hio] using hget
    have hzero := bucket_zero (he _ (List.getElem_mem hie)) (hr _ (List.getElem_mem hir)).1
      (hadds i _ _ _ (List.getElem?_eq_getElem hie) (List.getElem?_eq_getElem hir)
        (List.getElem?_eq_getElem hio)) hcarry
    simpa [rows, ePrime, List.getD_eq_getElem?_getD, hie, hir, hio, hiem] using hzero
  refine Sync.get_right fun s t hst => ?_
  obtain rfl : t = s.keys Δ₂ Δₑ := hst
  rw [hePrime]
  rw [show os.map Prod.fst = rows from rfl, hprover, hverifier, pure_bind, pure_bind]
  exact sync_fe (sync_checkZero C hzeros)

omit [CanonicalSerialize M F2] [FiniteField F2 K] [DecidableEq K] [CanonicalSerialize M K]
  [CanonicalSerialize M Block] in
theorem sync_randomEdabits (m num : ℕ) :
    Sync (ConvCorrelated Δ₂ Δₑ)
      (ProverConv.randomEdabits m num : Party M G (ProverConv K (ZMod p)) _)
      (VerifierConv.randomEdabits m num : Party M H (VerifierConv K (ZMod p)) _)
      fun xs ks => xs.length = num ∧ ks = xs.map (EdabitsProver.keys Δ₂ Δₑ) ∧
        ∀ x ∈ xs, x.Consistent ∧ x.bits.length = m := by
  unfold ProverConv.randomEdabits VerifierConv.randomEdabits
  refine (Sync.mapM_map (R := Eq) (fun _ _ _ => (sync_randoms m).mono fun _ _ h => h.symm)
    (List.forall₂_refl (List.range num))).bind fun auxBits ks haux => ?_
  obtain ⟨hnum, rfl, hm⟩ := haux
  rw [List.length_range] at hnum
  refine (sync_inputFe _ (by rw [List.length_map, hnum])).bind fun ms ks hms => Sync.pure ?_
  obtain ⟨hms, rfl⟩ := hms
  refine ⟨by simp [hnum, hms], ?_, fun x hx => ?_⟩
  · rw [List.zipWith_map, List.map_zipWith]
    rfl
  · obtain ⟨i, hi, rfl⟩ := List.mem_iff_getElem.1 hx
    simp only [List.length_zipWith, List.length_map] at hi
    simp only [List.getElem_zipWith, List.getElem_map]
    exact ⟨convertBitsToField_values _, hm _ (List.getElem_mem _)⟩

end Loop

/-! ## The whole conversion -/

section Conv

variable [CanonicalSerialize M F2] [CanonicalSerialize M (ZMod p)] [FiniteField F2 K]
  [DecidableEq K] [CanonicalSerialize M K] [CanonicalSerialize M Block] [Random D F2] [Random D K]
  [Random D (ZMod p)] [Random D Block] [GenRange D] (C : Primitives M D)

omit [FiniteField F2 K] [CanonicalSerialize M Block] [Random D F2] [Random D Block]
  [GenRange D] in
theorem sync_cut {x : EdabitsProver K (ZMod p)} (hx : x.Consistent) :
    Sync (ConvCorrelated Δ₂ Δₑ)
      (do
        zoom ProverConv.f2 (FComProver.openMacs C x.bits)
        zoom ProverConv.fe (FComProver.openMacs C [x.value]) :
        Party M G (ProverConv K (ZMod p)) Unit)
      (do
        let aVec ← zoom VerifierConv.f2 (FComVerifier.openMacs F2 C (x.keys Δ₂ Δₑ).bits)
        let aM ← zoom VerifierConv.fe (FComVerifier.openMacs (ZMod p) C [(x.keys Δ₂ Δₑ).value])
        assert (convertBitsToField aVec = (← index aM 0)) "Wrong open random edabit" :
        Party M H (VerifierConv K (ZMod p)) Unit) fun _ _ => True := by
  refine (sync_f2 (sync_openMacs C x.bits)).bind fun _ out hout => ?_
  subst hout
  rw [← bind_pure (zoom ProverConv.fe _)]
  refine (sync_fe (sync_openMacs C [x.value])).bind fun _ out hout => ?_
  subst hout
  rw [List.map_singleton, index_eq Nat.one_pos, pure_bind, assert_true]
  · exact Sync.pure trivial
  · rw [convertBitsToField_values]
    exact hx.symm

omit [Random D F2] [Random D Block] in
theorem shuffle {α β : Type} (k : α → β) (rng : Stream' D) (xs : List α) :
    ∃ xs' rng', xs'.Perm xs ∧ generatePermutation rng xs = some (xs', rng') ∧
      generatePermutation rng (xs.map k) = some (xs'.map k, rng') := by
  obtain ⟨xs', rng', hxs, hperm⟩ := generatePermutation_perm rng xs
  exact ⟨xs', rng', hperm, hxs, by rw [generatePermutation_map, hxs]; rfl⟩

theorem sync_conv {Ch : Type} {m numBucket : ℕ} (numCut : ℕ)
    {edabits : List (EdabitsProver K (ZMod p))} (bucketChannels : Option (List Ch))
    (he : ∀ x ∈ edabits, x.Consistent ∧ x.bits.length = m) (hn : 0 < edabits.length)
    (hB : 0 < numBucket)
    (hcheck : checkParameters p (edabits.length * numBucket)
      (fdabitGamma (edabits.length * numBucket))) :
    Sync (ConvCorrelated Δ₂ Δₑ)
      (ProverConv.conv C numBucket numCut edabits bucketChannels :
        Party M (Stream' D) (ProverConv K (ZMod p)) Unit)
      (VerifierConv.conv C numBucket numCut (edabits.map (EdabitsProver.keys Δ₂ Δₑ)) bucketChannels :
        Party M (Stream' D) (VerifierConv K (ZMod p)) Unit) fun _ _ => True := by
  unfold ProverConv.conv VerifierConv.conv
  dsimp only
  have hn' : 0 < (edabits.map (EdabitsProver.keys Δ₂ Δₑ)).length := by rwa [List.length_map]
  have he0 : (edabits[0]).bits.length = m := (he _ (List.getElem_mem hn)).2
  have he0' : ((edabits.map (EdabitsProver.keys Δ₂ Δₑ))[0]).bits.length = m := by
    rw [List.getElem_map, EdabitsProver.keys, List.length_map, he0]
  rw [if_neg hn.ne', if_neg hn'.ne', index_eq hn, index_eq hn', pure_bind, pure_bind, he0, he0',
    List.length_map]
  refine (sync_randomEdabits m _).bind fun rs ks hrs => ?_
  obtain ⟨hrLen, rfl, hr⟩ := hrs
  refine (sync_randomDabits _).bind fun ds ks hds => ?_
  obtain ⟨hdLen, rfl, hd⟩ := hds
  have hbase : 0 < ds.length := by rw [hdLen]; exact Nat.mul_pos hn hB
  refine (sync_fdabit C hd hbase (hdLen.symm ▸ hcheck)).bind fun _ _ _ => ?_
  refine Sync.random_right fun seed => Sync.read_writeSerializable (Sync.flush_right ?_)
  obtain ⟨rs', rng₁, hrPerm, hrShuffle, hrKeys⟩ :=
    shuffle (EdabitsProver.keys Δ₂ Δₑ) (C.aesRng seed) rs
  obtain ⟨ds', rng₂, hdPerm, hdShuffle, hdKeys⟩ := shuffle (DabitProver.keys Δ₂ Δₑ) rng₁ ds
  rw [hrShuffle, hrKeys]
  simp only [unwrap, pure_bind]
  rw [hdShuffle, hdKeys]
  simp only [pure_bind]
  rw [← hrPerm.length_eq] at hrLen
  rw [← hdPerm.length_eq] at hdLen
  have hr' : ∀ x ∈ rs', x.Consistent ∧ x.bits.length = m := fun x hx => hr x (hrPerm.mem_iff.1 hx)
  have hd' : ∀ d ∈ ds', d.Consistent := fun d hx => hd d (hdPerm.mem_iff.1 hx)
  refine (Sync.mapM_range fun i hi => ?_).bind fun _ _ _ => ?_
  · have hlt : edabits.length * numBucket + i < rs'.length := by omega
    rw [index_eq hlt, index_eq (by rwa [List.length_map]), pure_bind, pure_bind, List.getElem_map]
    exact sync_cut C (hr' _ (List.getElem_mem hlt)).1
  · by_cases hnone : bucketChannels.isNone
    · rw [if_pos hnone, if_pos hnone]
      refine (Sync.mapM_range fun j hj => ?_).bind fun _ _ _ => Sync.pure trivial
      have hle : j * edabits.length + edabits.length ≤ edabits.length * numBucket := by
        rw [← Nat.succ_mul, mul_comm]
        exact Nat.mul_le_mul_left _ hj
      have hrle : j * edabits.length + edabits.length ≤ rs'.length := by omega
      have hdle : j * edabits.length + edabits.length ≤ ds'.length := by omega
      rw [slice_eq (Nat.le_add_right _ _) hrle, slice_eq (Nat.le_add_right _ _) hdle,
        slice_eq (Nat.le_add_right _ _) (by rwa [List.length_map]),
        slice_eq (Nat.le_add_right _ _) (by rwa [List.length_map])]
      simp only [pure_bind, ← List.map_drop, ← List.map_take]
      refine sync_convLoop C he (fun x hx => hr' x ?_) (fun d hd => hd' d ?_) hn ?_ ?_
      · exact List.mem_of_mem_drop (List.mem_of_mem_take hx)
      · exact List.mem_of_mem_drop (List.mem_of_mem_take hd)
      · rw [List.length_take, List.length_drop]
        omega
      · rw [List.length_take, List.length_drop]
        omega
    · rw [if_neg hnone, if_neg hnone]
      exact Sync.pure trivial

/-- Whatever the parameters that pass, the randomness and the seeds are, prover and verifier convert
consistent edabits to the end, message by message, and stay correlated. -/
theorem conv_complete {Ch : Type} {m numBucket : ℕ} (numCut : ℕ)
    {edabits : List (EdabitsProver K (ZMod p))} (bucketChannels : Option (List Ch))
    (he : ∀ x ∈ edabits, x.Consistent ∧ x.bits.length = m) (hn : 0 < edabits.length)
    (hB : 0 < numBucket)
    (hcheck : checkParameters p (edabits.length * numBucket)
      (fdabitGamma (edabits.length * numBucket)))
    (Δ₂ : K) (Δₑ : ZMod p) (s : ProverConv K (ZMod p)) (g h : Stream' D) :
    Lockstep (ProverConv.conv C numBucket numCut edabits bucketChannels s g : Proc M _)
      (VerifierConv.conv C numBucket numCut (edabits.map (EdabitsProver.keys Δ₂ Δₑ)) bucketChannels
        (s.keys Δ₂ Δₑ) h) fun x y => y.1.2 = x.1.2.keys Δ₂ Δₑ :=
  (sync_conv C numCut bucketChannels he hn hB hcheck s _ rfl g h).mono fun _ _ hxy => hxy.1

/-- One edabit of two bits, in two buckets, with one edabit cut. -/
theorem conv_complete_one :
    let s : ProverConv F40b F61p :=
      ⟨⟨⟨.const ⟨[⟨1, 0⟩], by simp⟩, [], ⟨0, 0⟩⟩⟩, ⟨⟨.const ⟨[⟨1, 0⟩], by simp⟩, [], ⟨0, 0⟩⟩⟩⟩
    let C : Primitives (Msg F40b F61p) (Draw F40b F61p) :=
      ⟨fun _ => .const ⟨0, 0, 0, 0, 0⟩, fun _ => 0⟩
    let edabits : List (EdabitsProver F40b F61p) := [⟨[⟨1, 0⟩, ⟨1, 0⟩], ⟨3, 0⟩⟩]
    let rng : Stream' (Draw F40b F61p) := .const ⟨1, 0, 0, 0, 0⟩
    Lockstep (ProverConv.conv C 2 1 edabits (none : Option (List Unit)) s rng :
        Proc (Msg F40b F61p) _)
      (VerifierConv.conv C 2 1 (edabits.map (EdabitsProver.keys 1 1)) (none : Option (List Unit))
        (s.keys 1 1) rng) fun x y => y.1.2 = x.1.2.keys 1 1 :=
  conv_complete _ 1 none (m := 2) (List.forall_mem_singleton.2 ⟨by change (3 : F61p) = _; decide, rfl⟩) (by decide) (by decide) (by decide) 1 1 _ _ _

end Conv

end EdaBitGen
