import EdaBitGen.Edabits.Soundness

/-!
# Completeness of the conversion protocol

Prover and verifier of the conversion check run in step from correlated states and both accept
edabits that are consistent, whatever the randomness, the permutations and the carries.
-/

namespace EdaBitGen

open Interaction Party

variable {M D G H K : Type} {p : ℕ} [Fact p.Prime] [Field K] [Algebra F2 K] {Δ₂ : K} {Δₑ : ZMod p}

/-! ## Correlated states -/

def ConvCorrelated (Δ₂ : K) (Δₑ : ZMod p) (s : ProverConv K (ZMod p))
    (t : VerifierConv K (ZMod p)) : Prop :=
  t = s.keys Δ₂ Δₑ

section Lift

variable {α β : Type} {post : α → β → Prop}

theorem sync_f2 {P : Party M G (FComProver F2 K) α} {Q : Party M H (FComVerifier K) β}
    (h : Sync (Correlated Δ₂) P Q post) :
    Sync (ConvCorrelated Δ₂ Δₑ) (zoom ProverConv.f2 P) (zoom VerifierConv.f2 Q) post := by
  refine h.zoom ?_ ?_
  · rintro s _ rfl
    rfl
  · rintro s _ a _ rfl rfl
    rfl

theorem sync_fe {P : Party M G (FComProver (ZMod p) (ZMod p)) α}
    {Q : Party M H (FComVerifier (ZMod p)) β} (h : Sync (Correlated Δₑ) P Q post) :
    Sync (ConvCorrelated Δ₂ Δₑ) (zoom ProverConv.fe P) (zoom VerifierConv.fe Q) post := by
  refine h.zoom ?_ ?_
  · rintro s _ rfl
    rfl
  · rintro s _ a _ rfl rfl
    rfl

end Lift

/-! ## Random dabits and triples -/

def DabitProver.Consistent (d : DabitProver K (ZMod p)) : Prop :=
  d.value.value = f2ToFe d.bit.value

omit [Field K] [Algebra F2 K] in
theorem values_zipWith_mk {PF FE : Type} {xs : List PF} {ms : List FE} (h : ms.length = xs.length) :
    (List.zipWith MacProver.mk xs ms).map MacProver.value = xs := by
  induction xs generalizing ms with
  | nil => rfl
  | cons x xs ih =>
    cases ms with
    | nil => simp at h
    | cons m ms => simpa using ih (by simpa using h)

theorem sync_randoms (num : ℕ) :
    Sync (ConvCorrelated Δ₂ Δₑ)
      ((List.range num).mapM fun _ =>
        (zoom ProverConv.f2 FComProver.random : Party M G (ProverConv K (ZMod p)) _))
      ((List.range num).mapM fun _ =>
        (zoom VerifierConv.f2 FComVerifier.random : Party M H (VerifierConv K (ZMod p)) _))
      fun ms ks => ms.length = num ∧ ks = ms.map (MacProver.key Δ₂) := by
  refine (Sync.mapM_map (R := Eq) (F := MacProver.key Δ₂) (S := fun _ => True) ?_
    (List.forall₂_refl _)).mono fun ms ks h => ⟨by simpa using h.1, h.2.1⟩
  exact fun _ _ _ => (sync_f2 sync_random).mono fun _ _ h => ⟨h, trivial⟩

variable [CanonicalSerialize M F2] [CanonicalSerialize M (ZMod p)]

omit [CanonicalSerialize M F2] in
theorem sync_inputFe (x : List (ZMod p)) {n : ℕ} (hn : x.length = n) :
    Sync (ConvCorrelated Δ₂ Δₑ)
      (zoom ProverConv.fe (FComProver.input x) : Party M G (ProverConv K (ZMod p)) _)
      (zoom VerifierConv.fe (FComVerifier.input (ZMod p) n) : Party M H (VerifierConv K (ZMod p)) _)
      fun ms ks => ms.length = n ∧ ks = (List.zipWith MacProver.mk x ms).map (MacProver.key Δₑ) := by
  subst hn
  exact sync_fe (sync_input x)

omit [CanonicalSerialize M (ZMod p)] in
theorem sync_inputF2 (x : List F2) {n : ℕ} (hn : x.length = n) :
    Sync (ConvCorrelated Δ₂ Δₑ)
      (zoom ProverConv.f2 (FComProver.input x) : Party M G (ProverConv K (ZMod p)) _)
      (zoom VerifierConv.f2 (FComVerifier.input F2 n) : Party M H (VerifierConv K (ZMod p)) _)
      fun ms ks => ms.length = n ∧ ks = (List.zipWith MacProver.mk x ms).map (MacProver.key Δ₂) := by
  subst hn
  exact sync_f2 (sync_input x)

omit [CanonicalSerialize M F2] in
theorem sync_randomDabits (num : ℕ) :
    Sync (ConvCorrelated Δ₂ Δₑ)
      (ProverConv.randomDabits num : Party M G (ProverConv K (ZMod p)) _)
      (VerifierConv.randomDabits num : Party M H (VerifierConv K (ZMod p)) _)
      fun ds ks => ds.length = num ∧ ks = ds.map (DabitProver.keys Δ₂ Δₑ) ∧
        ∀ d ∈ ds, d.Consistent := by
  unfold ProverConv.randomDabits VerifierConv.randomDabits
  refine (sync_randoms num).bind fun bs ks hbs => ?_
  obtain ⟨hlen, rfl⟩ := hbs
  refine (sync_inputFe _ (by simpa using hlen)).bind fun ms ks hms => Sync.pure ?_
  obtain ⟨hms, rfl⟩ := hms
  refine ⟨by simp [hlen, hms], ?_, fun d hd => ?_⟩
  · rw [List.zipWith_map, List.map_zipWith]
    rfl
  · obtain ⟨i, hi, rfl⟩ := List.mem_iff_getElem.1 hd
    simp [DabitProver.Consistent]

omit [CanonicalSerialize M (ZMod p)] in
theorem sync_randomTriples (num : ℕ) :
    Sync (ConvCorrelated Δ₂ Δₑ)
      (ProverConv.randomTriples num : Party M G (ProverConv K (ZMod p)) _)
      (VerifierConv.randomTriples num : Party M H (VerifierConv K (ZMod p)) _)
      fun ts ks => ts.length = num ∧ ks = ts.map (TripleProver.keys Δ₂) ∧
        ∀ t ∈ ts, t.2.2.value = t.1.value * t.2.1.value := by
  unfold ProverConv.randomTriples VerifierConv.randomTriples
  have hpair : Sync (ConvCorrelated Δ₂ Δₑ)
      (do
        let x ← zoom ProverConv.f2 FComProver.random
        let y ← zoom ProverConv.f2 FComProver.random
        pure (x, y) : Party M G (ProverConv K (ZMod p)) (MacProver F2 K × MacProver F2 K))
      (do
        let x ← zoom VerifierConv.f2 FComVerifier.random
        let y ← zoom VerifierConv.f2 FComVerifier.random
        pure (x, y) : Party M H (VerifierConv K (ZMod p)) _)
      fun xy k => k = (xy.1.key Δ₂, xy.2.key Δ₂) ∧ True := by
    refine (sync_f2 sync_random).bind fun x k hx => (sync_f2 sync_random).bind fun y k' hy => ?_
    exact Sync.pure ⟨by rw [hx, hy], trivial⟩
  refine (Sync.mapM_map (R := Eq) (fun _ _ _ => hpair) (List.forall₂_refl _)).bind
    fun pairs ks hpairs => ?_
  obtain ⟨hlen, rfl, -⟩ := hpairs
  rw [List.length_range] at hlen
  refine (sync_inputF2 _ (by simpa using hlen)).bind fun ms ks hms => ?_
  obtain ⟨hms, rfl⟩ := hms
  refine Sync.flush_left (Sync.pure ⟨by simp [hlen, hms], ?_, fun t ht => ?_⟩)
  · rw [List.zipWith_map, List.map_zipWith]
    rfl
  · obtain ⟨i, hi, rfl⟩ := List.mem_iff_getElem.1 ht
    simp

/-! ## The check of the dabits -/

section Honest

theorem selectSum_le (es : List F2) (bs : List F2) :
    Parity.selectSum es (bs.map ZMod.val) ≤ bs.length := by
  induction bs generalizing es with
  | nil => simp
  | cons b bs ih =>
    cases es with
    | nil => simp [Parity.selectSum]
    | cons e es =>
      have hb := Bits.val_le_one b
      have hsum := ih es
      rcases Parity.eq_zero_or_one e with rfl | rfl
      · rw [List.map_cons, Parity.selectSum_zero_cons, List.length_cons]
        omega
      · rw [List.map_cons, Parity.selectSum_one_cons, List.length_cons]
        omega

theorem linComb_map_two {F : Type} [Field F] (xs ys : List F) :
    linComb (xs.map (2 * ·)) ys = 2 * linComb xs ys := by
  induction xs generalizing ys with
  | nil => simp [linComb]
  | cons x xs ih =>
    cases ys with
    | nil => simp [linComb]
    | cons y ys =>
      have hstep : (List.zipWith (· * ·) (xs.map (2 * ·)) ys).sum =
        2 * (List.zipWith (· * ·) xs ys).sum := ih ys
      simp only [linComb, List.map_cons, List.zipWith_cons_cons, List.sum_cons, hstep]
      ring

theorem twos_eq (gamma : ℕ) :
    ProverConv.twos p gamma = (List.range gamma).map fun i => (2 : ZMod p) ^ i := by
  refine List.map_congr_left fun i _ => ?_
  exact (powerTwo_eq i).trans (by push_cast; rfl)

theorem linComb_twos (bs : List F2) :
    linComb (ProverConv.twos p bs.length) (bs.map (f2ToFe : F2 → ZMod p)) =
      ((Bits.toNat bs : ℕ) : ZMod p) := by
  rw [twos_eq]
  induction bs with
  | nil => simp [linComb]
  | cons b bs ih =>
    have hshift : ((List.range bs.length).map fun i => (2 : ZMod p) ^ (i + 1)) =
        ((List.range bs.length).map fun i => (2 : ZMod p) ^ i).map (2 * ·) := by
      rw [List.map_map]
      exact List.map_congr_left fun i _ => pow_succ' 2 i
    have htwo := linComb_map_two ((List.range bs.length).map fun i => (2 : ZMod p) ^ i)
      (bs.map (f2ToFe : F2 → ZMod p))
    rw [← hshift, ih] at htwo
    rw [List.length_cons, List.range_succ_eq_map, List.map_cons, List.map_map, List.map_cons,
      Bits.toNat_cons]
    simp only [linComb, List.zipWith_cons_cons, List.sum_cons, pow_zero, one_mul,
      Function.comp_def, Nat.succ_eq_add_one] at htwo ⊢
    rw [htwo, f2ToFe_eq]
    push_cast
    ring

omit [Fact (Nat.Prime p)] in
theorem add_two_pow_le {n : ℕ} (hn : 0 < n) (h : checkParameters p n (fdabitGamma n)) :
    n + 2 ^ fdabitGamma n ≤ p := by
  have hlog : 1 ≤ log2Floor (n + 1) := Nat.log_pos (by norm_num) (by omega)
  have hlt : n + 1 < 2 ^ fdabitGamma n := Nat.lt_pow_succ_log_self (by norm_num) (n + 1)
  have hsize : fdabitGamma n + 1 ≤ numberOfBits p - 1 := by
    unfold checkParameters at h
    unfold fdabitGamma at h ⊢
    omega
  have hp : 2 ^ (numberOfBits p - 1) < p := by
    refine Nat.lt_of_not_le fun hle => ?_
    have := Nat.clog_le_of_le_pow hle
    unfold numberOfBits at hsize this
    omega
  calc n + 2 ^ fdabitGamma n ≤ 2 ^ fdabitGamma n + 2 ^ fdabitGamma n := by omega
    _ = 2 ^ (fdabitGamma n + 1) := by rw [pow_succ]; omega
    _ ≤ 2 ^ (numberOfBits p - 1) := Nat.pow_le_pow_right (by norm_num) hsize
    _ ≤ p := hp.le

omit [Field K] [Algebra F2 K] in
theorem parity_honest {dabits : List (DabitProver K (ZMod p))} (hd : ∀ d ∈ dabits, d.Consistent)
    (hn : 0 < dabits.length) (hcheck : checkParameters p dabits.length (fdabitGamma dabits.length))
    {bs : List F2} (hbs : bs.length = fdabitGamma dabits.length)
    {ck : List (MacProver (ZMod p) (ZMod p))} (hck : ck.map MacProver.value = bs.map f2ToFe)
    {b : F2} (hb : bs.head? = some b) (es : List F2) :
    Parity.parity (startValue (fdabitGamma dabits.length) ck +
      Parity.selectSum es ((pairs dabits).map Prod.snd)) =
        b + Parity.selectSum es ((pairs dabits).map Prod.fst) := by
  let vals := (dabits.map fun d => d.bit.value)
  have hsnd : (pairs dabits).map Prod.snd = (vals.map ZMod.val).map (Nat.castRingHom (ZMod p)) := by
    rw [pairs, List.map_map, List.map_map, List.map_map]
    refine List.map_congr_left fun d hmem => ?_
    exact (hd d hmem).trans (f2ToFe_eq _)
  have hfst : (pairs dabits).map Prod.fst = (vals.map ZMod.val).map (Nat.castRingHom F2) := by
    rw [pairs, List.map_map, List.map_map, List.map_map]
    refine List.map_congr_left fun d _ => ?_
    exact (ZMod.natCast_zmod_val d.bit.value).symm
  have hle := selectSum_le es vals
  have hlt := Bits.toNat_lt bs
  have hroom := add_two_pow_le hn hcheck
  rw [hbs] at hlt
  have hlen : vals.length = dabits.length := List.length_map _
  rw [startValue, hck, ← hbs, linComb_twos, hsnd, hfst, Parity.selectSum_map,
    Parity.selectSum_map, Nat.coe_castRingHom, Nat.coe_castRingHom, ← Nat.cast_add, Parity.parity,
    ZMod.val_natCast_of_lt (by omega), Nat.cast_add]
  cases bs with
  | nil => simp at hb
  | cons b' bs =>
    obtain rfl : b' = b := by simpa using hb
    rw [Bits.cast_toNat_cons]

end Honest

section Check

variable [DecidableEq K] [CanonicalSerialize M K] [CanonicalSerialize M Block] [Random D F2]
  [Random D K] [Random D (ZMod p)] [Random D Block] (C : Primitives M D)

theorem f2ToFe_ite (b : F2) : (if (f2ToFe b : ZMod p) = 0 then 0 else 1 : F2) = b := by
  rcases Parity.eq_zero_or_one b with rfl | rfl
  · rw [f2ToFe, if_pos rfl, if_pos rfl]
  · rw [f2ToFe, if_neg one_ne_zero, if_neg one_ne_zero]

omit [Field K] [Algebra F2 K] [CanonicalSerialize M F2] [CanonicalSerialize M (ZMod p)]
  [DecidableEq K] [CanonicalSerialize M K] [CanonicalSerialize M Block] [Random D K]
  [Random D (ZMod p)] [Random D Block] in
theorem draws_masks (s gamma : ℕ) :
    Draws ((List.range s).mapM fun _ => (List.range gamma).mapM fun _ => do
        pure (f2ToFe (← random F2)) : Party M (Stream' D) (ProverConv K (ZMod p)) (List (List (ZMod p))))
      fun rows => rows.length = s ∧ ∀ row ∈ rows, ∃ bs : List F2, bs.length = gamma ∧
        row = bs.map f2ToFe := by
  have hbit : ∀ _ : ℕ, Draws (do pure (f2ToFe (← random F2)) :
      Party M (Stream' D) (ProverConv K (ZMod p)) (ZMod p)) fun x => ∃ b : F2, x = f2ToFe b :=
    fun _ => (Draws.draw.bind fun d _ => Draws.pure (R := fun _ : F2 => True) trivial).bind
      fun b _ => Draws.pure ⟨b, rfl⟩
  have hrow : ∀ _ : ℕ, Draws ((List.range gamma).mapM fun _ => do
      pure (f2ToFe (← random F2)) : Party M (Stream' D) (ProverConv K (ZMod p)) (List (ZMod p)))
      fun row => ∃ bs : List F2, bs.length = gamma ∧ row = bs.map f2ToFe := fun _ => by
    refine (Draws.mapM hbit (List.range gamma)).mono fun row h => ?_
    refine ⟨row.map fun x => if x = 0 then 0 else 1, by simpa using h.1, ?_⟩
    rw [List.map_map]
    refine (List.map_id row).symm.trans (List.map_congr_left fun x hx => ?_)
    obtain ⟨b, rfl⟩ := h.2 x hx
    exact (congrArg f2ToFe (f2ToFe_ite b)).symm
  exact (Draws.mapM hrow (List.range s)).mono fun rows h => by simpa using h

omit [CanonicalSerialize M F2] [DecidableEq K] [CanonicalSerialize M K]
  [CanonicalSerialize M Block] in
theorem sync_rows {gamma : ℕ} {rows : List (List (ZMod p))} (h : ∀ row ∈ rows, row.length = gamma) :
    Sync (ConvCorrelated Δ₂ Δₑ)
      (rows.mapM fun c => zoom ProverConv.fe (FComProver.input c) :
        Party M G (ProverConv K (ZMod p)) _)
      ((List.range rows.length).mapM fun _ => zoom VerifierConv.fe (FComVerifier.input (ZMod p) gamma) :
        Party M H (VerifierConv K (ZMod p)) _)
      fun mss ks =>
        ks = (List.zipWith (List.zipWith MacProver.mk) rows mss).map (List.map (MacProver.key Δₑ)) ∧
        (List.zipWith (List.zipWith MacProver.mk) rows mss).map (List.map MacProver.value) = rows := by
  have hstep : ∀ (c : List (ZMod p)) (_ : ℕ), c.length = gamma → Sync (ConvCorrelated Δ₂ Δₑ)
      (zoom ProverConv.fe (FComProver.input c) : Party M G (ProverConv K (ZMod p)) _)
      (zoom VerifierConv.fe (FComVerifier.input (ZMod p) gamma) :
        Party M H (VerifierConv K (ZMod p)) _)
      fun ms ks => ks = (List.zipWith MacProver.mk c ms).map (MacProver.key Δₑ) ∧
        ms.length = c.length := fun c _ hc =>
    (sync_inputFe c hc).mono fun ms ks hms => ⟨hms.2, hms.1.trans hc.symm⟩
  have hrange : List.Forall₂ (fun c (_ : ℕ) => c.length = gamma) rows (List.range rows.length) :=
    List.forall₂_iff_get.2 ⟨by simp, fun i hi _ => h _ (List.get_mem rows ⟨i, hi⟩)⟩
  refine (Sync.mapM_zipWith hstep hrange).mono fun mss ks hks => ⟨?_, ?_⟩
  · rw [hks.1, List.map_zipWith]
  · have hlen := hks.2
    clear hks hrange h
    induction hlen with
    | nil => rfl
    | cons hrow _ ih =>
      rw [List.zipWith_cons_cons, List.map_cons, values_zipWith_mk hrow, ih]

omit [DecidableEq K] in
theorem parities_honest {dabits : List (DabitProver K (ZMod p))} (hd : ∀ d ∈ dabits, d.Consistent)
    (hn : 0 < dabits.length) (hcheck : checkParameters p dabits.length (fdabitGamma dabits.length))
    {rows : List (List (ZMod p))}
    (hrows : ∀ row ∈ rows, ∃ bs : List F2, bs.length = fdabitGamma dabits.length ∧
      row = bs.map f2ToFe) {masks : Masks (MacProver (ZMod p) (ZMod p)) (MacProver F2 K)}
    (hcM : masks.cM.map (List.map MacProver.value) = rows)
    (hc1 : masks.c1.map MacProver.value = rows.map fun c => if c.headD 0 = 0 then 0 else 1)
    (e : List (List F2)) :
    ∀ rt ∈ (openedValues (fdabitGamma dabits.length) dabits e masks).1.zip
      (openedValues (fdabitGamma dabits.length) dabits e masks).2, Parity.parity rt.2 = rt.1 := by
  intro rt hrt
  simp only [openedValues, values_rBatch, values_tauBatch] at hrt
  obtain ⟨i, hi, rfl⟩ := List.mem_iff_getElem.1 hrt
  simp only [List.length_zip, List.length_zipWith] at hi
  have hicM : i < masks.cM.length := by omega
  have hic1 : i < masks.c1.length := by omega
  have hirows : i < rows.length := by rw [← hcM, List.length_map]; exact hicM
  obtain ⟨bs, hbs, hrow⟩ := hrows _ (List.getElem_mem hirows)
  have hck : (masks.cM[i]).map MacProver.value = bs.map f2ToFe := by
    rw [← hrow]
    simp only [← hcM, List.getElem_map]
  have hpos : 0 < bs.length := hbs ▸ Nat.succ_pos _
  cases bs with
  | nil => simp at hpos
  | cons b bs =>
    have hb : (masks.c1[i]).value = b := by
      have hget := congrArg (·[i]?) hc1
      simp only [List.getElem?_map, List.getElem?_eq_getElem hic1, List.getElem?_eq_getElem hirows,
        Option.map_some, Option.some.injEq] at hget
      rwa [hrow, List.map_cons, List.headD_cons, f2ToFe_ite] at hget
    rw [List.getElem_zip, List.getElem_zipWith, List.getElem_zipWith, hb]
    exact parity_honest hd hn hcheck hbs hck rfl _

theorem sync_fdabit {dabits : List (DabitProver K (ZMod p))} (hd : ∀ d ∈ dabits, d.Consistent)
    (hn : 0 < dabits.length)
    (hcheck : checkParameters p dabits.length (fdabitGamma dabits.length)) :
    Sync (ConvCorrelated Δ₂ Δₑ)
      (ProverConv.fdabit C dabits : Party M (Stream' D) (ProverConv K (ZMod p)) Unit)
      (VerifierConv.fdabit C (dabits.map (DabitProver.keys Δ₂ Δₑ)) :
        Party M (Stream' D) (VerifierConv K (ZMod p)) Unit) fun _ _ => True := by
  unfold ProverConv.fdabit VerifierConv.fdabit VerifierConv.fdabitRounds VerifierConv.fdabitInputs
  rw [List.length_map]
  dsimp only
  refine Sync.assert_left hcheck (Sync.assert_right hcheck ?_)
  refine Sync.draws_left (draws_masks _ _) fun rows hrows => ?_
  obtain ⟨hs, hrows⟩ := hrows
  have hgamma : ∀ row ∈ rows, row.length = fdabitGamma dabits.length := fun row hrow => by
    obtain ⟨bs, hbs, rfl⟩ := hrows row hrow
    rw [List.length_map, hbs]
  have hpos : 0 < fdabitGamma dabits.length := Nat.succ_pos _
  rw [← hs]
  simp only [bind_assoc, pure_bind]
  refine (sync_rows hgamma).bind fun mss ks hks => ?_
  obtain ⟨rfl, hvalues⟩ := hks
  have hc1 : (rows.mapM fun c => do pure (if (← index c 0) = 0 then (0 : F2) else 1) :
      Party M (Stream' D) (ProverConv K (ZMod p)) (List F2)) =
      pure (rows.map fun c => if c.headD 0 = 0 then 0 else 1) := by
    refine mapM_eq_pure fun c hc => ?_
    have hlen : 0 < c.length := by rw [hgamma c hc]; exact hpos
    rw [index_eq hlen, pure_bind]
    cases c with
    | nil => simp at hlen
    | cons x c => rfl
  rw [hc1, pure_bind]
  refine (sync_inputF2 _ (List.length_map _)).bind fun m1 ks hks => ?_
  obtain ⟨hm1, rfl⟩ := hks
  let cs := List.zipWith (List.zipWith MacProver.mk) rows mss
  have hflat : cs.flatten.length = fdabitGamma dabits.length * rows.length := by
    have hlen : cs.map List.length = rows.map List.length := by
      rw [← hvalues, List.map_map]
      exact List.map_congr_left fun c _ => (List.length_map _).symm
    rw [List.length_flatten, hlen, List.map_congr_left hgamma, List.map_const', List.sum_replicate,
      smul_eq_mul, mul_comm]
  refine (sync_inputFe _ (by rw [List.length_map]; exact hflat)).bind fun mz ks hks => ?_
  obtain ⟨hmz, rfl⟩ := hks
  refine Sync.get_right fun s t hst => ?_
  obtain rfl : t = s.keys Δ₂ Δₑ := hst
  refine Sync.flush_left (Sync.random_right fun seed => Sync.read_writeSerializable
    (Sync.flush_right ?_))
  let masks : Masks (MacProver (ZMod p) (ZMod p)) (MacProver F2 K) :=
    ⟨cs, List.zipWith MacProver.mk (rows.map fun c => if c.headD 0 = 0 then 0 else 1) m1,
      ProverConv.bitTriples cs.flatten (List.zipWith MacProver.mk
        (cs.flatten.map fun c => c.value * (1 + -1 * c.value)) mz)⟩
  let e := challengeBits C seed rows.length dabits.length
  have hkeys : VerifierConv.bitTriples (s.keys Δ₂ Δₑ).fcomFe
      (cs.map (List.map (MacProver.key Δₑ))).flatten ((List.zipWith MacProver.mk
        (cs.flatten.map fun c => c.value * (1 + -1 * c.value)) mz).map (MacProver.key Δₑ)) =
      (masks.keys Δ₂ Δₑ).triples := by
    rw [← List.map_flatten]
    exact (keys_bitTriples Δₑ s.fcomFe _ _).symm
  have hproducts : ∀ t ∈ masks.triples, t.2.2.value = t.1.value * t.2.1.value :=
    bitTriples_products _ _ (values_zipWith_mk (by rw [List.length_map, hmz, hflat]))
  have hc1 : masks.c1.map MacProver.value = rows.map fun c => if c.headD 0 = 0 then 0 else 1 :=
    values_zipWith_mk (by rw [List.length_map, hm1])
  have hall := (parities_iff _).2 (parities_honest hd hn hcheck hrows hvalues hc1 e)
  unfold VerifierConv.fdabitOpen VerifierConv.fdabitFinish
  simp only [bind_assoc, pure_bind]
  have hr : Sync (ConvCorrelated Δ₂ Δₑ)
      (zoom ProverConv.f2 (FComProver.openMacs C (rBatch dabits e masks)) :
        Party M (Stream' D) (ProverConv K (ZMod p)) _)
      (zoom VerifierConv.f2 (FComVerifier.openMacs F2 C
        ((rBatch dabits e masks).map (MacProver.key Δ₂))) :
        Party M (Stream' D) (VerifierConv K (ZMod p)) _) _ := sync_f2 (sync_openMacs C _)
  have htau : Sync (ConvCorrelated Δ₂ Δₑ)
      (zoom ProverConv.fe (FComProver.openMacs C (tauBatch (fdabitGamma dabits.length) dabits e masks)) :
        Party M (Stream' D) (ProverConv K (ZMod p)) _)
      (zoom VerifierConv.fe (FComVerifier.openMacs (ZMod p) C
        ((tauBatch (fdabitGamma dabits.length) dabits e masks).map (MacProver.key Δₑ))) :
        Party M (Stream' D) (VerifierConv K (ZMod p)) _) _ := sync_fe (sync_openMacs C _)
  rw [keys_rBatch Δ₂ Δₑ] at hr
  rw [keys_tauBatch Δ₂ Δₑ] at htau
  refine hr.bind fun _ out hout => ?_
  subst hout
  refine htau.bind fun _ out hout => ?_
  subst hout
  rw [hkeys]
  refine (sync_fe (sync_quicksilverCheckMultiply hproducts)).bind fun _ _ _ => ?_
  have hprover : ((rBatch dabits e masks).zip
      (tauBatch (fdabitGamma dabits.length) dabits e masks)).all (fun rt =>
        decide (rt.1.value = 1) == rt.2.value.val.testBit 0) = true := by
    rw [openedValues, List.zip_map, List.all_map] at hall
    exact hall
  exact Sync.asserts hprover hall

end Check

end EdaBitGen
