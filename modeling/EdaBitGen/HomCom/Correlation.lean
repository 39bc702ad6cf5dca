import EdaBitGen.HomCom.Model

/-!
# Correlated commitments

The verifier's side of a commitment, of a pool and of a whole state is a function of the prover's
side and of `Δ`: the key of `MacProver(x, m)` is `m - Δ x`.  Prover and verifier in correlated
states run every operation in step and stay correlated.
-/

namespace EdaBitGen

open Interaction Party

/-! ## Drawing from a pool -/

namespace Pool

variable {α β : Type}

/-- The vole a pool hands out next, and the pool without it. -/
def draw (p : Pool α) : α × Pool α :=
  if h : p.voles = [] then
    (p.svole.head.1.getLast p.svole.head.2,
      { p.extend.countVole with voles := p.svole.head.1.dropLast })
  else (p.voles.getLast h, { p.countVole with voles := p.voles.dropLast })

/-- The same pool with every vole changed by `f`, those of later extensions included. -/
def map (f : α → β) (p : Pool α) : Pool β where
  svole := p.svole.map fun b => ⟨b.1.map f, by simpa using b.2⟩
  voles := p.voles.map f
  stats := p.stats

@[simp] theorem voles_map (f : α → β) (p : Pool α) : (p.map f).voles = p.voles.map f := rfl

@[simp] theorem stats_map (f : α → β) (p : Pool α) : (p.map f).stats = p.stats := rfl

theorem extend_map (f : α → β) (p : Pool α) : (p.map f).extend = p.extend.map f := by
  simp [extend, map]

theorem volesClear_map (f : α → β) (p : Pool α) : (p.map f).volesClear = p.volesClear.map f := rfl

theorem draw_map (f : α → β) (p : Pool α) :
    (p.map f).draw = (f p.draw.1, p.draw.2.map f) := by
  unfold draw
  by_cases h : p.voles = []
  · rw [dif_pos h, dif_pos (by simp [h])]
    simp [map, extend, countVole]
  · rw [dif_neg h, dif_neg (by simpa using h)]
    simp [map, countVole]

theorem volesReserve_map (f : α → β) (n : ℕ) (p : Pool α) :
    (p.map f).volesReserve n = (p.volesReserve n).map f := by
  fun_induction volesReserve n p with
  | case1 p h ih => rw [volesReserve, if_pos (by simpa using h), extend_map, ih]
  | case2 p h => rw [volesReserve, if_neg (by simpa using h)]

end Pool

theorem popVole_eq {M G α : Type} : (popVole : Party M G (Pool α) α) = act Pool.draw := by
  funext p g
  obtain ⟨svole, voles, stats⟩ := p
  by_cases h : voles = []
  · subst h
    simp [popVole, bind_apply, Pool.draw, Pool.pop, Pool.countVole, Pool.extend,
      List.getLast?_eq_some_getLast svole.head.2]
  · simp [popVole, bind_apply, Pool.draw, Pool.pop, Pool.countVole, h,
      List.getLast?_eq_some_getLast h]

theorem emits_random {M G PF FE : Type} (s : FComProver PF FE) :
    Emits (FComProver.random : Party M G (FComProver PF FE) _) s s.pool.draw.1 ⟨s.pool.draw.2⟩ := by
  unfold FComProver.random
  rw [popVole_eq]
  exact (Emits.act Pool.draw).zoom

/-! ## Keys -/

section Keys

variable {M D G H PF FE : Type} [Field PF] [Field FE] [Algebra PF FE]

/-- The key of a MAC under `Δ`. -/
def MacProver.key (Δ : FE) (p : MacProver PF FE) : MacVerifier FE :=
  ⟨p.mac - p.value • Δ⟩

/-- The verifier that is correlated with a prover. -/
def FComProver.keys (Δ : FE) (s : FComProver PF FE) : FComVerifier FE :=
  ⟨Δ, s.pool.map (MacProver.key Δ)⟩

def Correlated (Δ : FE) (s : FComProver PF FE) (t : FComVerifier FE) : Prop :=
  t = s.keys Δ

variable (Δ : FE)

theorem MacProver.mac_eq (p : MacProver PF FE) : p.mac = (p.key Δ).mac + p.value • Δ := by
  simp [MacProver.key]

@[simp] theorem MacProver.key_mac (p : MacProver PF FE) :
    (p.key Δ).mac = p.mac - p.value • Δ := rfl

@[simp] theorem MacProver.key_default : (default : MacProver PF FE).key Δ = default := by
  simp [default, MacProver.key]

theorem key_getD (macs : List (MacProver PF FE)) (i : ℕ) :
    (macs.map (MacProver.key Δ)).getD i default = (macs.getD i default).key Δ := by
  rw [List.getD_eq_getElem?_getD, List.getD_eq_getElem?_getD, List.getElem?_map]
  cases macs[i]? with
  | none => exact (MacProver.key_default Δ).symm
  | some p => rfl

theorem linComb_key (chis : List FE) (batch : List (MacProver PF FE)) :
    linComb chis ((batch.map (MacProver.key Δ)).map MacVerifier.mac) =
      linComb chis (batch.map MacProver.mac) -
        Δ * linComb chis (batch.map fun p => algebraMap PF FE p.value) := by
  induction batch generalizing chis with
  | nil => cases chis <;> simp [linComb]
  | cons p batch ih =>
    cases chis with
    | nil => simp [linComb]
    | cons chi chis =>
      simp only [linComb, List.map_cons, List.zipWith_cons_cons, List.sum_cons] at ih ⊢
      rw [ih, MacProver.key_mac, Algebra.smul_def]
      ring

theorem linComb_values_eq_zero {chis : List FE} {batch : List (MacProver PF FE)}
    (h : ∀ p ∈ batch, p.value = 0) :
    linComb chis (batch.map fun p => algebraMap PF FE p.value) = 0 := by
  induction batch generalizing chis with
  | nil => cases chis <;> rfl
  | cons p batch ih =>
    obtain ⟨hp, hbatch⟩ := List.forall_mem_cons.1 h
    cases chis with
    | nil => rfl
    | cons chi chis =>
      simp only [linComb, List.map_cons, List.zipWith_cons_cons, List.sum_cons] at ih ⊢
      rw [hp, ih hbatch, map_zero]
      ring

namespace FComProver

@[simp] theorem keys_delta (s : FComProver PF FE) : (s.keys Δ).delta = Δ := rfl

@[simp] theorem key_affineAddCst (s : FComProver PF FE) (cst : PF) (x : MacProver PF FE) :
    (affineAddCst cst x).key Δ = (s.keys Δ).affineAddCst cst (x.key Δ) := by
  simp only [affineAddCst, FComVerifier.affineAddCst, MacProver.key, keys, add_smul]
  congr 1
  ring

@[simp] theorem key_affineMultCst (cst : PF) (x : MacProver PF FE) :
    (affineMultCst cst x).key Δ = FComVerifier.affineMultCst cst (x.key Δ) := by
  simp [affineMultCst, FComVerifier.affineMultCst, MacProver.key, smul_sub, mul_smul]

@[simp] theorem key_add (a b : MacProver PF FE) :
    (add a b).key Δ = FComVerifier.add (a.key Δ) (b.key Δ) := by
  simp only [add, FComVerifier.add, MacProver.key, add_smul]
  congr 1
  ring

@[simp] theorem key_neg (a : MacProver PF FE) :
    (neg a).key Δ = FComVerifier.neg (a.key Δ) := by
  simp only [neg, FComVerifier.neg, MacProver.key, neg_smul]
  congr 1
  ring

@[simp] theorem key_sub (a b : MacProver PF FE) :
    (sub a b).key Δ = FComVerifier.sub (a.key Δ) (b.key Δ) := by
  simp only [sub, FComVerifier.sub, MacProver.key, sub_smul]
  congr 1
  ring

end FComProver

/-! ## Prover and verifier in step -/

section Step

variable {Δ}

theorem sync_pool {α β : Type} {post : α → β → Prop}
    {P : Party M G (Pool (MacProver PF FE)) α} {Q : Party M H (Pool (MacVerifier FE)) β}
    (h : Sync (fun p q => q = p.map (MacProver.key Δ)) P Q post) :
    Sync (Correlated Δ) (zoom FComProver.lens P) (zoom FComVerifier.lens Q) post := by
  refine h.zoom ?_ ?_
  · rintro s _ rfl
    rfl
  · rintro s _ p _ rfl rfl
    rfl

theorem emits_random_keys (s : FComProver PF FE) (Δ : FE) :
    Emits (FComVerifier.random : Party M H _ _) (s.keys Δ) (s.pool.draw.1.key Δ)
      (FComProver.keys Δ ⟨s.pool.draw.2⟩) := by
  have h : Emits (FComVerifier.random : Party M H _ _) (s.keys Δ) (s.keys Δ).pool.draw.1
      ⟨Δ, (s.keys Δ).pool.draw.2⟩ := by
    unfold FComVerifier.random
    rw [popVole_eq]
    exact (Emits.act Pool.draw).zoom
  rwa [FComProver.keys, Pool.draw_map] at h

theorem silent_random (s : FComProver PF FE) :
    Silent (FComProver.random : Party M G (FComProver PF FE) _) s s.pool.draw.1 ⟨s.pool.draw.2⟩ ∧
      ∀ Δ, Silent (FComVerifier.random : Party M H _ _) (s.keys Δ) (s.pool.draw.1.key Δ)
        (FComProver.keys Δ ⟨s.pool.draw.2⟩) := by
  refine ⟨?_, fun Δ => ?_⟩
  · unfold FComProver.random
    rw [popVole_eq]
    exact (Silent.act Pool.draw).zoom
  · have h : Silent (FComVerifier.random : Party M H _ _) (s.keys Δ) (s.keys Δ).pool.draw.1
        ⟨Δ, (s.keys Δ).pool.draw.2⟩ := by
      unfold FComVerifier.random
      rw [popVole_eq]
      exact (Silent.act Pool.draw).zoom
    rwa [FComProver.keys, Pool.draw_map] at h

theorem sync_random :
    Sync (Correlated Δ) (FComProver.random : Party M G (FComProver PF FE) _)
      (FComVerifier.random : Party M H _ _) fun p v => v = p.key Δ := by
  unfold FComProver.random FComVerifier.random
  rw [popVole_eq, popVole_eq]
  refine sync_pool (Sync.act ?_)
  rintro p _ rfl
  rw [Pool.draw_map]
  exact ⟨rfl, rfl⟩

theorem sync_volesReserve (n : ℕ) :
    Sync (Correlated Δ) (FComProver.volesReserve n : Party M G (FComProver PF FE) _)
      (FComVerifier.volesReserve n : Party M H _ _) fun _ _ => True := by
  refine sync_pool (Sync.act ?_)
  rintro p _ rfl
  exact ⟨Pool.volesReserve_map _ n p, trivial⟩

theorem sync_volesClear :
    Sync (Correlated Δ) (FComProver.volesClear : Party M G (FComProver PF FE) _)
      (FComVerifier.volesClear : Party M H _ _) fun _ _ => True := by
  refine sync_pool (Sync.act ?_)
  rintro p _ rfl
  exact ⟨Pool.volesClear_map _ p, trivial⟩

theorem sync_input [CanonicalSerialize M PF] (x : List PF) :
    Sync (Correlated Δ) (FComProver.input x : Party M G (FComProver PF FE) _)
      (FComVerifier.input PF x.length : Party M H _ _) fun ms ks =>
        ms.length = x.length ∧ ks = (List.zipWith MacProver.mk x ms).map (MacProver.key Δ) := by
  unfold FComProver.input FComVerifier.input FComProver.inputLowLevel FComVerifier.inputLowLevel
  rw [assert_true rfl, pure_bind]
  have hloop : Sync (Correlated Δ)
      (x.mapM fun xi => do
        let r ← (FComProver.random : Party M G (FComProver PF FE) _)
        pure (r.mac, xi - r.value))
      ((List.range x.length).mapM fun _ => (FComVerifier.random : Party M H _ _))
      fun rs ks => ks = List.zipWith (fun xi r => ⟨r.1 - (xi - r.2) • Δ⟩) x rs ∧
        List.Forall₂ (fun _ _ => True) x rs := by
    refine Sync.mapM_zipWith (R := fun _ _ => True) (fun xi i _ => ?_) ?_
    · rw [← bind_pure (FComVerifier.random : Party M H (FComVerifier FE) _)]
      refine sync_random.bind fun p v hv => Sync.pure ⟨?_, trivial⟩
      simp [hv, MacProver.key]
    · exact List.forall₂_iff_get.2 ⟨by simp, fun _ _ _ => trivial⟩
  refine hloop.bind fun rs ks hks => ?_
  obtain ⟨rfl, hlen⟩ := hks
  refine Sync.write_readSerializableSeq (by simpa using hlen.length_eq.symm) ?_
  refine Sync.get_right fun s t hst => Sync.pure ⟨by simpa using hlen.length_eq.symm, ?_⟩
  rw [show t.delta = Δ by rw [hst, FComProver.keys_delta]]
  clear hloop hst
  induction hlen with
  | nil => rfl
  | cons _ _ ih =>
    simp only [List.map_cons, List.nil_append, List.zipWith_cons_cons, List.cons.injEq] at ih ⊢
    refine ⟨?_, ih⟩
    simp only [MacProver.key, sub_smul]
    ring_nf

theorem sync_input1 [CanonicalSerialize M PF] (x : PF) :
    Sync (Correlated Δ) (FComProver.input1 x : Party M G (FComProver PF FE) _)
      (FComVerifier.input1 PF : Party M H _ _) fun m k => k = (⟨x, m⟩ : MacProver PF FE).key Δ := by
  unfold FComProver.input1 FComVerifier.input1
  refine sync_random.bind fun p v hv => Sync.write_readSerializable ?_
  refine Sync.get_right fun s t hst => Sync.pure ?_
  rw [hv, show t.delta = Δ by rw [hst, FComProver.keys_delta]]
  simp [MacProver.key, sub_smul]

variable [DecidableEq FE] [CanonicalSerialize M FE] [Random D FE] (C : Primitives M D)

theorem sync_checkZero [DecidableEq PF] [CanonicalSerialize M Block] [Random D Block]
    {batch : List (MacProver PF FE)} (h : ∀ x ∈ batch, x.value = 0) :
    Sync (Correlated Δ) (FComProver.checkZero C batch : Party M G (FComProver PF FE) _)
      (FComVerifier.checkZero C (batch.map (MacProver.key Δ))) fun _ _ => True := by
  unfold FComProver.checkZero FComVerifier.checkZero
  refine Sync.random_right fun seed => Sync.read_writeSerializable ?_
  refine Sync.flush_right (Sync.write_readSerializable (Sync.flush_left ?_))
  rw [List.length_map, assert_true h, assert_true]
  · exact Sync.pure trivial
  · rw [linComb_key, linComb_values_eq_zero h, mul_zero, sub_zero]

theorem sync_openMacs [CanonicalSerialize M PF] (batch : List (MacProver PF FE)) :
    Sync (Correlated Δ) (FComProver.openMacs C batch : Party M G (FComProver PF FE) _)
      (FComVerifier.openMacs PF C (batch.map (MacProver.key Δ)) : Party M H _ _)
      fun _ out => out = batch.map MacProver.value := by
  unfold FComProver.openMacs FComVerifier.openMacs
  refine (Sync.write_readEach MacProver.value (List.length_map _).symm).bind fun _ out hout => ?_
  subst hout
  refine Sync.write_readSerializable ?_
  rw [← bind_pure flush]
  refine Sync.flush_left (Sync.get_right fun s t hst => ?_)
  rw [assert_true, pure_bind]
  · exact Sync.pure rfl
  · rw [show t.delta = Δ by rw [hst, FComProver.keys_delta], linComb_key, List.map_map, List.map_map,
      List.length_map]
    exact sub_add_cancel _ _

end Step

end Keys

end EdaBitGen
