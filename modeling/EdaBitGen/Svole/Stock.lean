import EdaBitGen.Fields
import EdaBitGen.Svole.Extension

/-!
# The stock of correlations

Each call keeps the receiver's stock the image of the sender's one and leaves the stock of its
parties as long as it was.  Only the stock of a duplicate is shorter, by what a call with the setup's
parameters uses, and this is where it may run out.
-/

namespace EdaBitGen

/-! ## The encoding -/

namespace LpnRng

variable {F : Type} (rng : LpnRng F)

theorem nextIndex_some {rows : ℕ} {taken : List ℕ} (h : taken.length < rows) (s : rng.State) :
    ∃ j s', rng.nextIndex rows taken s = some (j, s') ∧ j < rows := by
  rw [nextIndex, dif_pos h]
  exact ⟨_, _, rfl, rng.sample_lt (by omega) _⟩

theorem indices_some (rows d : ℕ) (taken : List ℕ) (s : rng.State)
    (hd : taken.length + d ≤ rows) (ht : ∀ j ∈ taken, j < rows) :
    ∃ js s', rng.indices rows d taken s = some (js, s') ∧ ∀ j ∈ js, j < rows := by
  induction d generalizing taken s with
  | zero => exact ⟨taken, s, rfl, ht⟩
  | succ d ih =>
    obtain ⟨j, s', hnext, hj⟩ := rng.nextIndex_some (by omega : taken.length < rows) s
    obtain ⟨js, s'', hrest, hjs⟩ := ih (taken ++ [j]) s'
      (by rw [List.length_append, List.length_singleton]; omega) (by
        intro i hi
        rcases List.mem_append.1 hi with hi | hi
        · exact ht i hi
        · exact List.mem_singleton.1 hi ▸ hj)
    refine ⟨js, s'', ?_, hjs⟩
    rw [indices, hnext]
    exact hrest

theorem lpnMtxIndices_some {rows : ℕ} (hrows : lpnParamsD ≤ rows) (s : rng.State) :
    ∃ ix s', rng.lpnMtxIndices rows s = some (ix, s') ∧ ∀ ja ∈ ix, ja.1 < rows := by
  obtain ⟨js, s', hjs, hlt⟩ := rng.indices_some rows lpnParamsD [] s
    (by rwa [List.length_nil, Nat.zero_add]) (fun _ h => absurd h List.not_mem_nil)
  rw [lpnMtxIndices, hjs]
  refine ⟨_, _, rfl, ?_⟩
  clear hjs
  have hkeep : ∀ acc : List (ℕ × F) × rng.State, (∀ ja ∈ acc.1, ja.1 < rows) →
      ∀ ja ∈ (js.foldl (fun acc j => (acc.1 ++ [(j, (rng.randomNonzero acc.2).1)],
        (rng.randomNonzero acc.2).2)) acc).1, ja.1 < rows := by
    induction js with
    | nil => exact fun acc h => h
    | cons j js ih =>
      intro acc h
      rw [List.foldl_cons]
      refine ih (fun i hi => hlt i (List.mem_cons_of_mem _ hi)) _ fun ja hja => ?_
      rcases List.mem_append.1 hja with hja | hja
      · exact h ja hja
      · rw [List.mem_singleton.1 hja]
        exact hlt j List.mem_cons_self
  exact hkeep _ fun _ h => absurd h List.not_mem_nil

end LpnRng

variable {F FE : Type} [Field F] [Field FE] [Algebra F FE]

variable {delta : FE} {rows : ℕ} {base : List (F × FE)}

theorem getD_voleKey (j : ℕ) :
    (base.map (voleKey delta)).getD j 0 = voleKey delta (base.getD j 0) := by
  by_cases hj : j < base.length <;> simp [List.getD_eq_getElem?_getD, hj, voleKey]

theorem column_voleKey (ix : List (ℕ × F)) (ec : F × FE) :
    voleKey delta (ix.foldl (fun acc ja =>
      (acc.1 + (base.getD ja.1 0).1 * ja.2, acc.2 + ja.2 • (base.getD ja.1 0).2)) ec) =
      voleKey delta ec + (ix.map fun ja => ja.2 • (base.map (voleKey delta)).getD ja.1 0).sum := by
  induction ix generalizing ec with
  | nil => simp
  | cons ja ix ih =>
    rw [List.foldl_cons, ih, List.map_cons, List.sum_cons, getD_voleKey, ← add_assoc]
    congr 1
    simp only [voleKey, Algebra.smul_def, map_add, map_mul]
    ring

theorem encode_voleKey (rng : LpnRng F) (delta : FE) (hrows : lpnParamsD ≤ rows) (hbase : rows ≤ base.length)
    (uws : List (F × FE)) (s : rng.State) :
    ∃ xzs s', SvoleSender.encode rng rows base uws s = some (xzs, s') ∧
      SvoleReceiver.encode rng rows (base.map (voleKey delta)) (uws.map (voleKey delta)) s =
        some (xzs.map (voleKey delta), s') ∧ xzs.length = uws.length := by
  induction uws generalizing s with
  | nil => exact ⟨[], s, rfl, rfl, rfl⟩
  | cons ec uws ih =>
    obtain ⟨ix, s', hix, hlt⟩ := rng.lpnMtxIndices_some hrows s
    obtain ⟨xzs, s'', hsend, hreceive, hlen⟩ := ih s'
    have hin : ix.all (fun ja => ja.1 < base.length) = true :=
      List.all_eq_true.2 fun ja hja => decide_eq_true ((hlt ja hja).trans_le hbase)
    refine ⟨(ix.foldl (fun acc ja =>
      (acc.1 + (base.getD ja.1 0).1 * ja.2, acc.2 + ja.2 • (base.getD ja.1 0).2)) ec) :: xzs, s'',
      ?_, ?_, ?_⟩
    · rw [SvoleSender.encode, hix]
      simp only [Option.bind_eq_bind, Option.bind_some]
      rw [if_pos hin, hsend]
      rfl
    · rw [List.map_cons, SvoleReceiver.encode, hix]
      simp only [Option.bind_eq_bind, Option.bind_some, List.length_map]
      rw [if_pos hin, hreceive, List.map_cons, column_voleKey]
      rfl
    · rw [List.length_cons, List.length_cons, hlen]

/-! ## What holds of the pool -/

/-- The number of columns is a power of two for each noisy one, and the code has rows enough. -/
structure LpnParams.Shaped (params : LpnParams) : Prop where
  cols_eq : ∃ depth, 2 ≤ depth ∧ params.cols = params.weight * 2 ^ depth
  weight_pos : 0 < params.weight
  rows_le : lpnParamsD ≤ params.rows

theorem shaped_offered {p : LpnParams × LpnParams} (h : p ∈ offered) :
    p.1.Shaped ∧ p.2.Shaped := by
  fin_cases h
  · exact ⟨⟨⟨2, by decide, rfl⟩, by decide, by decide⟩, ⟨⟨2, by decide, rfl⟩, by decide, by decide⟩⟩
  · exact ⟨⟨⟨4, by decide, rfl⟩, by decide, by decide⟩, ⟨⟨6, by decide, rfl⟩, by decide, by decide⟩⟩
  · exact ⟨⟨⟨6, by decide, rfl⟩, by decide, by decide⟩, ⟨⟨11, by decide, rfl⟩, by decide, by decide⟩⟩
  · exact ⟨⟨⟨8, by decide, rfl⟩, by decide, by decide⟩, ⟨⟨13, by decide, rfl⟩, by decide, by decide⟩⟩

namespace Svole

variable {v : Svole F FE}

/-- The receiver is the image of the sender. -/
structure Linked (p : v.Parties) : Prop where
  baseVoles : p.2.baseVoles = p.1.baseVoles.map (voleKey v.delta)
  lpnRng : p.2.lpnRng = p.1.lpnRng

/-- What holds of all parties, for the lengths that their stocks may have. -/
structure Pool.Linked (pool : v.Pool) (lens : List ℕ) : Prop where
  linked : ∀ p ∈ pool.parties, Svole.Linked p ∧ p.1.baseVoles.length ∈ lens
  correlated : ∀ out ∈ pool.outputs, VoleCorrelated v.delta out.1 out.2

variable {pool : v.Pool} {lens : List ℕ}

theorem Pool.Linked.good (h : pool.Linked lens)
    (hlens : ∀ l ∈ lens, ∀ params ∈ [v.lpnSetup, v.lpnExtend], v.used params ≤ l) :
    v.Good pool := by
  refine ⟨fun p hp params hparams => ?_, h.correlated⟩
  obtain ⟨hlinked, hlen⟩ := h.linked p hp
  have henough := hlens _ hlen params hparams
  exact ⟨henough, by rwa [hlinked.baseVoles, List.length_map]⟩

theorem Pool.Linked.mono {lens' : List ℕ} (h : pool.Linked lens) (hsub : lens ⊆ lens') :
    pool.Linked lens' :=
  ⟨fun p hp => ⟨(h.linked p hp).1, hsub (h.linked p hp).2⟩, h.correlated⟩

theorem Pool.Linked.set {i : ℕ} {p : v.Parties} (h : pool.Linked lens) (hp : Svole.Linked p)
    (hlen : p.1.baseVoles.length ∈ lens) :
    ∀ q ∈ pool.parties.set i p, Svole.Linked q ∧ q.1.baseVoles.length ∈ lens := by
  intro q hq
  rcases List.mem_or_eq_of_mem_set hq with hq | rfl
  · exact h.linked q hq
  · exact ⟨hp, hlen⟩

variable [DecidableEq F] [DecidableEq FE]

theorem internal_some {params : LpnParams} (hparams : params.Shaped) {numSaved : ℕ}
    (hsaved : numSaved ≤ params.cols) (coins : Coins F FE) {p : v.Parties} (hp : Linked p)
    (hused : v.used params ≤ p.1.baseVoles.length) :
    ∃ out p', v.internal params numSaved coins p = some (out, p') ∧ Linked p' ∧
      out.2 = out.1.map (voleKey v.delta) ∧ out.1.length = params.cols - numSaved ∧
      p'.1.baseVoles.length = numSaved + (p.1.baseVoles.length - v.used params) := by
  obtain ⟨depth, hdepth, hcols⟩ := hparams.cols_eq
  have hm : params.cols / params.weight = 2 ^ depth := by
    rw [hcols, Nat.mul_div_cancel_left _ hparams.weight_pos]
  have hslice : ((p.1.baseVoles.drop params.rows).take (params.weight + v.ext.degree)).length =
      params.weight + v.ext.degree := by
    rw [List.length_take, List.length_drop]
    simp only [used, computeNumSaved] at hused
    omega
  obtain ⟨out, hsps, hlen, hcor⟩ := sps_correlated v.ext v.delta v.tree hdepth coins
    ((p.1.baseVoles.drop params.rows).take (params.weight + v.ext.degree))
    (by rw [hslice]; omega)
  rw [hslice, Nat.add_sub_cancel, ← hcols] at hlen
  have hvs := voleCorrelated_iff.1 hcor
  obtain ⟨xzs, s, hsend, hreceive, hxzs⟩ := encode_voleKey v.rng v.delta hparams.rows_le
    (by simp only [used, computeNumSaved] at hused; omega : params.rows ≤ p.1.baseVoles.length)
    out.1 p.1.lpnRng
  rw [hvs, List.length_map] at hlen
  rw [hlen] at hxzs
  refine ⟨(xzs.drop numSaved, (xzs.map (voleKey v.delta)).drop numSaved),
    (⟨xzs.take numSaved ++ p.1.baseVoles.drop (v.used params), s⟩,
      ⟨(xzs.map (voleKey v.delta)).take numSaved ++ p.2.baseVoles.drop (v.used params), s⟩),
    ?_, ⟨?_, rfl⟩, ?_, ?_, ?_⟩
  · rw [internal, hp.baseVoles, hp.lpnRng]
    simp only [List.length_map]
    rw [if_pos ⟨hused, hused, hsaved⟩, hm, ← List.map_drop, ← List.map_take, hsps]
    simp only [Option.bind_eq_bind, Option.bind_some]
    rw [hsend, hvs, Option.bind_some, hreceive]
    rfl
  · simp only [hp.baseVoles, List.map_append, List.map_take, List.map_drop]
  · simp only [List.map_drop]
  · simp only [List.length_drop, hxzs]
  · simp only [List.length_append, List.length_take, List.length_drop, hxzs, min_eq_left hsaved]

theorem step_send (hextend : v.lpnExtend.Shaped) (hcols : v.used v.lpnExtend ≤ v.lpnExtend.cols)
    (h : pool.Linked lens) (hlens : ∀ l ∈ lens, v.used v.lpnExtend ≤ l) {i : ℕ}
    (hi : i < pool.parties.length) (coins : Coins F FE) :
    ∃ pool', v.step pool (.send i coins) = some pool' ∧ pool'.Linked lens ∧
      pool'.parties.length = pool.parties.length := by
  obtain ⟨hp, hlen⟩ := h.linked _ (List.getElem_mem hi)
  obtain ⟨out, p', hcall, hp', hcor, -, hlen'⟩ := internal_some hextend hcols coins hp
    (hlens _ hlen)
  rw [Nat.add_sub_cancel' (hlens _ hlen)] at hlen'
  refine ⟨⟨pool.parties.set i p', pool.outputs ++ [out]⟩, ?_, ⟨?_, ?_⟩, List.length_set⟩
  · rw [step, List.getElem?_eq_getElem hi]
    simp only [Option.bind_eq_bind, Option.bind_some]
    rw [send, hcall]
    rfl
  · exact h.set hp' (hlen'.symm ▸ hlen)
  · intro o ho
    rcases List.mem_append.1 ho with ho | ho
    · exact h.correlated o ho
    · rw [List.mem_singleton.1 ho]
      exact voleCorrelated_iff.2 hcor

theorem step_duplicate (hsetup : v.lpnSetup.Shaped) (hcols : v.used v.lpnSetup ≤ v.lpnSetup.cols)
    (h : pool.Linked lens) (hlens : ∀ l ∈ lens, v.used v.lpnSetup ≤ l) {i : ℕ}
    (hi : i < pool.parties.length) (coins : Coins F FE) :
    ∃ pool' new, v.step pool (.duplicate i coins) = some pool' ∧
      pool'.Linked ((v.lpnSetup.cols - v.used v.lpnSetup) :: lens) ∧
      pool'.parties.length = pool.parties.length + 1 ∧ new ∈ pool'.parties ∧
      new.1.baseVoles.length = v.lpnSetup.cols - v.used v.lpnSetup := by
  obtain ⟨hp, hlen⟩ := h.linked _ (List.getElem_mem hi)
  obtain ⟨out, p', hcall, hp', hcor, hout, hlen'⟩ := internal_some hsetup hcols coins hp
    (hlens _ hlen)
  rw [Nat.add_sub_cancel' (hlens _ hlen)] at hlen'
  let forked := v.rng.fork p'.1.lpnRng
  let new : v.Parties := (⟨out.1, forked.1⟩, ⟨out.2, forked.1⟩)
  let old : v.Parties := ({ p'.1 with lpnRng := forked.2 }, { p'.2 with lpnRng := forked.2 })
  refine ⟨{ pool with parties := pool.parties.set i old ++ [new] }, new, ?_, ⟨?_, h.correlated⟩,
    ?_, ?_, hout⟩
  · rw [step, List.getElem?_eq_getElem hi]
    simp only [Option.bind_eq_bind, Option.bind_some]
    rw [duplicate, hcall]
    simp only [Option.bind_eq_bind, Option.bind_some, hp'.lpnRng]
    rfl
  · intro q hq
    rcases List.mem_append.1 hq with hq | hq
    · exact (h.mono (List.subset_cons_self _ _)).set (p := old) ⟨hp'.baseVoles, rfl⟩
        (List.mem_cons_of_mem _ (hlen'.symm ▸ hlen)) q hq
    · rw [List.mem_singleton.1 hq]
      exact ⟨⟨hcor, rfl⟩, hout ▸ List.mem_cons_self⟩
  · rw [List.length_append, List.length_set, List.length_singleton]
  · exact List.mem_append_right _ (List.mem_singleton_self _)

/-! ## A whole run -/

def Call.IsDuplicate : Call F FE → Prop
  | .send _ _ => False
  | .duplicate _ _ => True

theorem run_cons (pool : v.Pool) (c : Call F FE) (calls : List (Call F FE)) :
    v.run pool (c :: calls) = (v.step pool c).bind (v.run · calls) :=
  rfl

theorem init_some (hsetup : v.lpnSetup.Shaped) (coins : Coins F FE) {base : List (F × FE)}
    {keys : List FE} (hbase : VoleCorrelated v.delta base keys)
    (hlen : base.length = v.used v.lpnSetup) (s : v.rng.State) :
    ∃ pool, v.init coins base keys s = some pool ∧ pool.Linked [v.lpnSetup.cols] ∧
      pool.parties.length = 1 := by
  obtain ⟨out, p', hcall, hp', hcor, hout, -⟩ := internal_some (v := v)
    (p := (⟨base, s⟩, ⟨keys, s⟩)) hsetup (Nat.zero_le _) coins ⟨voleCorrelated_iff.1 hbase, rfl⟩
    hlen.ge
  refine ⟨⟨[({ p'.1 with baseVoles := out.1 }, { p'.2 with baseVoles := out.2 })], []⟩, ?_,
    ⟨?_, ?_⟩, rfl⟩
  · rw [init, hcall]
    rfl
  · intro q hq
    rw [List.mem_singleton.1 hq]
    exact ⟨⟨hcor, hp'.lpnRng⟩, List.mem_singleton.2 hout⟩
  · exact fun o ho => absurd ho List.not_mem_nil

section Run

variable (hsetup : v.lpnSetup.Shaped) (hextend : v.lpnExtend.Shaped)
  (hcolsSetup : v.used v.lpnSetup ≤ v.lpnSetup.cols)
  (hcolsExtend : v.used v.lpnExtend ≤ v.lpnExtend.cols)

include hsetup hextend hcolsSetup hcolsExtend

/-- A run goes through when it makes no duplicate or when a duplicate's stock is long enough. -/
theorem run_some (hlens : ∀ l ∈ lens, ∀ params ∈ [v.lpnSetup, v.lpnExtend], v.used params ≤ l)
    (calls : List (Call F FE)) (h : pool.Linked lens) (hcalls : InRange pool.parties.length calls)
    (hdup : (∀ c ∈ calls, ¬c.IsDuplicate) ∨ v.lpnSetup.cols - v.used v.lpnSetup ∈ lens) :
    ∃ pool', v.run pool calls = some pool' ∧ pool'.Linked lens := by
  induction calls generalizing pool with
  | nil => exact ⟨pool, rfl, h⟩
  | cons c calls ih =>
    have hrest : (∀ c ∈ calls, ¬c.IsDuplicate) ∨ v.lpnSetup.cols - v.used v.lpnSetup ∈ lens :=
      hdup.imp_left fun hno c hc => hno c (List.mem_cons_of_mem _ hc)
    rw [run_cons]
    cases c with
    | send i coins =>
      obtain ⟨hi, hcalls⟩ := hcalls
      obtain ⟨pool', hstep, hpool', hlength⟩ := step_send hextend hcolsExtend h
        (fun l hl => hlens l hl _ (by simp)) hi coins
      rw [hstep]
      exact ih hpool' (hlength ▸ hcalls) hrest
    | duplicate i coins =>
      obtain ⟨hi, hcalls⟩ := hcalls
      obtain ⟨pool', _, hstep, hpool', hlength, -, -⟩ := step_duplicate hsetup hcolsSetup h
        (fun l hl => hlens l hl _ (by simp)) hi coins
      have hmem : v.lpnSetup.cols - v.used v.lpnSetup ∈ lens :=
        hdup.resolve_left fun hno => hno _ List.mem_cons_self trivial
      rw [hstep]
      refine ih (hpool'.mono ?_) (hlength ▸ hcalls) hrest
      exact List.cons_subset.2 ⟨hmem, List.Subset.refl _⟩

theorem enough_of_duplicate
    (hlens : ∀ l ∈ lens, ∀ params ∈ [v.lpnSetup, v.lpnExtend], v.used params ≤ l)
    (calls : List (Call F FE)) (h : pool.Linked lens) (hcalls : InRange pool.parties.length calls)
    (hsound : v.Sound (some pool) calls) (hdup : ∃ c ∈ calls, c.IsDuplicate) :
    ∀ params ∈ [v.lpnSetup, v.lpnExtend],
      v.used v.lpnSetup + v.used params ≤ v.lpnSetup.cols := by
  induction calls generalizing pool with
  | nil =>
    obtain ⟨c, hc, -⟩ := hdup
    exact absurd hc List.not_mem_nil
  | cons c calls ih =>
    cases c with
    | send i coins =>
      obtain ⟨hi, hcalls⟩ := hcalls
      obtain ⟨pool', hstep, hpool', hlength⟩ := step_send hextend hcolsExtend h
        (fun l hl => hlens l hl _ (by simp)) hi coins
      refine ih hpool' (hlength ▸ hcalls) (fun n hn => ?_) ?_
      · have hnext := hsound (n + 1) (Nat.succ_le_succ hn)
        rw [List.take_succ_cons, Option.bind_some, run_cons, hstep] at hnext
        exact hnext
      · obtain ⟨c, hc, hcdup⟩ := hdup
        rcases List.mem_cons.1 hc with rfl | hc
        · exact absurd hcdup id
        · exact ⟨c, hc, hcdup⟩
    | duplicate i coins =>
      obtain ⟨hi, -⟩ := hcalls
      obtain ⟨pool', new, hstep, -, -, hnew, hlen⟩ := step_duplicate hsetup hcolsSetup h
        (fun l hl => hlens l hl _ (by simp)) hi coins
      obtain ⟨after, hafter, hgood⟩ := hsound 1 (by simp)
      rw [List.take_succ_cons, Option.bind_some, run_cons, hstep] at hafter
      obtain rfl : pool' = after := Option.some_inj.1 hafter
      intro params hparams
      have henough := (hgood.enough new hnew params hparams).1
      omega

end Run

omit [Field FE] [Algebra F FE] [DecidableEq F] [DecidableEq FE] in
theorem InRange.take {k : ℕ} {calls : List (Call F FE)} (h : InRange k calls) (n : ℕ) :
    InRange k (calls.take n) := by
  induction calls generalizing k n with
  | nil => rwa [List.take_nil]
  | cons c calls ih =>
    cases n with
    | zero => trivial
    | succ n =>
      cases c with
      | send i coins => exact ⟨h.1, ih h.2 n⟩
      | duplicate i coins => exact ⟨h.1, ih h.2 n⟩

theorem offered_enough {p : LpnParams × LpnParams} (h : p ∈ offered) {r : ℕ} (hr : r ≤ 128) :
    computeNumSaved r p.1 ≤ p.1.cols ∧ computeNumSaved r p.2 ≤ p.1.cols ∧
      computeNumSaved r p.2 ≤ p.2.cols := by
  fin_cases h <;>
    simp only [computeNumSaved, lpnSetupExtrasmall, lpnExtendExtrasmall, lpnSetupSmall,
      lpnExtendSmall, lpnSetupMedium, lpnExtendMedium, lpnSetupLarge, lpnExtendLarge] <;> omega

/-- In a run from the initialisation on, the stocks suffice and the outputs are correlated exactly
when no duplicate is made or the setup's parameters leave a duplicate enough. -/
theorem sound_iff (hoffered : (v.lpnSetup, v.lpnExtend) ∈ offered) (hdegree : v.ext.degree ≤ 128)
    (coins : Coins F FE) (base : List (F × FE)) (keys : List FE)
    (hbase : VoleCorrelated v.delta base keys) (hlen : base.length = v.used v.lpnSetup)
    (s : v.rng.State) (calls : List (Call F FE)) (hcalls : InRange 1 calls) :
    v.Sound (v.init coins base keys s) calls ↔ (∀ c ∈ calls, ¬c.IsDuplicate) ∨
      ∀ params ∈ [v.lpnSetup, v.lpnExtend], v.used v.lpnSetup + v.used params ≤ v.lpnSetup.cols := by
  obtain ⟨hsetup, hextend⟩ := shaped_offered hoffered
  obtain ⟨hcolsSetup, henough, hcolsExtend⟩ := offered_enough hoffered hdegree
  have hfirst : ∀ params ∈ [v.lpnSetup, v.lpnExtend], v.used params ≤ v.lpnSetup.cols := by
    intro params hparams
    rcases List.mem_cons.1 hparams with rfl | hparams
    · exact hcolsSetup
    · exact List.mem_singleton.1 hparams ▸ henough
  obtain ⟨pool, hinit, hpool, hone⟩ := init_some hsetup coins hbase hlen s
  rw [hinit]
  have hlens : ∀ l ∈ [v.lpnSetup.cols], ∀ params ∈ [v.lpnSetup, v.lpnExtend], v.used params ≤ l :=
    fun l hl => List.mem_singleton.1 hl ▸ hfirst
  constructor
  · intro hsound
    by_cases hdup : ∃ c ∈ calls, c.IsDuplicate
    · exact Or.inr (enough_of_duplicate hsetup hextend hcolsSetup hcolsExtend hlens calls hpool
        (hone ▸ hcalls) hsound hdup)
    · exact Or.inl fun c hc hcdup => hdup ⟨c, hc, hcdup⟩
  · rintro (hno | hleft) n -
    · obtain ⟨pool', hrun, hpool'⟩ := run_some hsetup hextend hcolsSetup hcolsExtend hlens
        (calls.take n) hpool (hone ▸ hcalls.take n)
        (Or.inl fun c hc => hno c (List.mem_of_mem_take hc))
      exact ⟨pool', hrun, hpool'.good hlens⟩
    · have hlens' : ∀ l ∈ [v.lpnSetup.cols - v.used v.lpnSetup, v.lpnSetup.cols],
          ∀ params ∈ [v.lpnSetup, v.lpnExtend], v.used params ≤ l := by
        intro l hl params hparams
        rcases List.mem_cons.1 hl with rfl | hl
        · have hsum := hleft params hparams
          omega
        · exact hlens l hl params hparams
      obtain ⟨pool', hrun, hpool'⟩ := run_some hsetup hextend hcolsSetup hcolsExtend hlens'
        (calls.take n) (hpool.mono (List.subset_cons_self _ _)) (hone ▸ hcalls.take n)
        (Or.inr List.mem_cons_self)
      exact ⟨pool', hrun, hpool'.good hlens'⟩

/-! ## Runs over the field of two elements -/

section Two

theorem exists_not_mem {n : ℕ} {taken : List ℕ} (h : taken.length < n) : ∃ w < n, w ∉ taken := by
  by_contra! hall
  have hsub : Finset.range n ⊆ taken.toFinset := fun w hw =>
    List.mem_toFinset.2 (hall w (Finset.mem_range.1 hw))
  have hcard := (Finset.card_le_card hsub).trans (List.toFinset_card_le taken)
  rw [Finset.card_range] at hcard
  omega

/-- A generator that counts. -/
def counting : LpnRng F2 where
  State := ℕ
  sample n s := (s % n, s + 1)
  sample_lt hn s := Nat.mod_lt s hn
  fresh n s taken htaken := by
    obtain ⟨w, hw, hnot⟩ := exists_not_mem htaken
    refine ⟨w + (n - s % n), ?_⟩
    have hiter : (fun s : ℕ => s + 1)^[w + (n - s % n)] s = s + (w + (n - s % n)) :=
      Nat.succ_iterate s _
    have hmod : (s + (w + (n - s % n))) % n = w := by
      have hdiv := Nat.div_add_mod s n
      have hlt := Nat.mod_lt s (by omega : 0 < n)
      have hsum : s + (w + (n - s % n)) = w + n * (s / n + 1) := by
        rw [Nat.mul_add, Nat.mul_one]
        omega
      rw [hsum, Nat.add_mul_mod_self_left, Nat.mod_eq_of_lt hw]
    simpa only [hiter, hmod] using hnot
  randomNonzero s := (1, s + 1)
  fork s := (s, s + 1)

/-- The coins that draw ones and zeros only. -/
def plainCoins : Coins F2 F2 where
  beta _ := 1
  beta_ne_zero _ := one_ne_zero
  alpha _ _ := 0
  alpha_lt hn _ := hn
  seed _ := 0
  chi _ := 1

/-- The field of two elements over itself, with one pair of parameters. -/
def overTwo (params : LpnParams × LpnParams) : Svole F2 F2 where
  ext := ⟨1, 1, fun x _ => x, fun x => by simp⟩
  tree := ⟨⟨id, id⟩, fun s => s 0, 2⟩
  rng := counting
  delta := 1
  lpnSetup := params.1
  lpnExtend := params.2

theorem correlated_zeros (n : ℕ) : VoleCorrelated (1 : F2)
    (List.replicate n ((0, 0) : F2 × F2)) (List.replicate n 0) := by
  refine voleCorrelated_iff.2 ?_
  rw [List.map_replicate]
  simp [voleKey]

/-- With the small parameters a duplicate can send. -/
theorem sound_iff_small :
    let v := overTwo (lpnSetupSmall, lpnExtendSmall)
    v.Sound (v.init plainCoins (List.replicate 1821 (0, 0)) (List.replicate 1821 0) (0 : ℕ))
      [.duplicate 0 plainCoins, .send 1 plainCoins] :=
  (sound_iff (v := overTwo (lpnSetupSmall, lpnExtendSmall)) (by simp [overTwo, offered])
    (by decide) plainCoins _ _ (correlated_zeros 1821) List.length_replicate (0 : ℕ)
    [.duplicate 0 plainCoins, .send 1 plainCoins]
    ⟨by decide, by decide, trivial⟩).2 (Or.inr (by decide))

/-- With the medium parameters a duplicate's stock is too short. -/
theorem not_sound_medium :
    let v := overTwo (lpnSetupMedium, lpnExtendMedium)
    ¬v.Sound (v.init plainCoins (List.replicate 7661 (0, 0)) (List.replicate 7661 0) (0 : ℕ))
      [.duplicate 0 plainCoins] := by
  intro v hsound
  have hoffered : (v.lpnSetup, v.lpnExtend) ∈ offered := by simp [v, overTwo, offered]
  obtain ⟨hsetup, hextend⟩ := shaped_offered hoffered
  obtain ⟨pool, hinit, hpool, hone⟩ := init_some (v := v) hsetup plainCoins (correlated_zeros 7661)
    List.length_replicate (0 : ℕ)
  rw [hinit] at hsound
  have henough := enough_of_duplicate hsetup hextend (by decide) (by decide)
    (by decide : ∀ l ∈ [v.lpnSetup.cols], ∀ params ∈ [v.lpnSetup, v.lpnExtend], v.used params ≤ l)
    [.duplicate 0 plainCoins] hpool ⟨by omega, trivial⟩ hsound ⟨_, List.mem_singleton_self _, trivial⟩
  exact absurd (henough v.lpnExtend (List.mem_cons_of_mem _ List.mem_cons_self)) (by decide)

end Two

end Svole

end EdaBitGen
