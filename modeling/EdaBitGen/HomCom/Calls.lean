import EdaBitGen.HomCom.Correlation

/-!
# Runs of the commitment functionality

Prover and verifier execute the same sequence of calls, each on its own pool, and append the MACs
of every call to their lists.  The ledger describes the calls on plain values and on an abstract
pool; every run keeps the pools correlated, the MACs authentic and their values those of the
ledger.
-/

namespace EdaBitGen

open Interaction Party

/-- A call of the functionality.  Operands are positions of earlier MACs; a position without a MAC
stands for the default MAC. -/
inductive Call (PF : Type) where
  | random
  | input (x : List PF)
  | input1 (x : PF)
  | affineAddCst (cst : PF) (i : ℕ)
  | affineMultCst (cst : PF) (i : ℕ)
  | add (i j : ℕ)
  | sub (i j : ℕ)
  | neg (i : ℕ)
  | volesReserve (n : ℕ)
  | volesClear

variable {M G H PF FE : Type}

section Programs

variable [Field PF] [Field FE] [Algebra PF FE]

/-! ## The two programs -/

/-- The prover's part of a call; `macs` are the MACs so far. -/
def FComProver.call [CanonicalSerialize M PF] (macs : List (MacProver PF FE)) :
    Call PF → Party M G (FComProver PF FE) (List (MacProver PF FE))
  | .random => do pure (macs ++ [← random])
  | .input x => do pure (macs ++ List.zipWith MacProver.mk x (← input x))
  | .input1 x => do pure (macs ++ [⟨x, ← input1 x⟩])
  | .affineAddCst cst i => pure (macs ++ [affineAddCst cst (macs.getD i default)])
  | .affineMultCst cst i => pure (macs ++ [affineMultCst cst (macs.getD i default)])
  | .add i j => pure (macs ++ [add (macs.getD i default) (macs.getD j default)])
  | .sub i j => pure (macs ++ [sub (macs.getD i default) (macs.getD j default)])
  | .neg i => pure (macs ++ [neg (macs.getD i default)])
  | .volesReserve n => do
    volesReserve n
    pure macs
  | .volesClear => do
    volesClear
    pure macs

/-- The verifier's part of a call, which reads no plain value but the public constants. -/
def FComVerifier.call [CanonicalSerialize M PF] (keys : List (MacVerifier FE)) :
    Call PF → Party M G (FComVerifier FE) (List (MacVerifier FE))
  | .random => do pure (keys ++ [← random])
  | .input x => do pure (keys ++ (← input PF x.length))
  | .input1 _ => do pure (keys ++ [← input1 PF])
  | .affineAddCst cst i => do
    pure (keys ++ [(← get).affineAddCst cst (keys.getD i default)])
  | .affineMultCst cst i => pure (keys ++ [affineMultCst cst (keys.getD i default)])
  | .add i j => pure (keys ++ [add (keys.getD i default) (keys.getD j default)])
  | .sub i j => pure (keys ++ [sub (keys.getD i default) (keys.getD j default)])
  | .neg i => pure (keys ++ [neg (keys.getD i default)])
  | .volesReserve n => do
    volesReserve n
    pure keys
  | .volesClear => do
    volesClear
    pure keys

def FComProver.calls [CanonicalSerialize M PF] (cs : List (Call PF)) :
    Party M G (FComProver PF FE) (List (MacProver PF FE)) :=
  cs.foldlM call []

def FComVerifier.calls [CanonicalSerialize M PF] (cs : List (Call PF)) :
    Party M G (FComVerifier FE) (List (MacVerifier FE)) :=
  cs.foldlM call []

end Programs

/-! ## Where the voles of a pool go -/

namespace Pool

variable {α : Type} {p q r : Pool α} {a b : List α}

/-- The next `n` voles, in the order they are handed out, and the pool without them. -/
def draws : ℕ → Pool α → List α × Pool α
  | 0, p => ([], p)
  | n + 1, p => (p.draw.1 :: (draws n p.draw.2).1, (draws n p.draw.2).2)

theorem length_draws (n : ℕ) (p : Pool α) : (p.draws n).1.length = n := by
  induction n generalizing p with
  | zero => rfl
  | succ n ih => simp [draws, ih]

/-- The voles `out` have left the pool `p`, and `q` is what is left of it after some number of
extensions: every vole it held or was extended by is in one of the two. -/
def Takes (p : Pool α) (out : List α) (q : Pool α) : Prop :=
  ∃ k, q.svole = (extend^[k] p).svole ∧ (out ++ q.voles).Perm (extend^[k] p).voles

theorem extend_iterate_perm (h : q.svole = p.svole) (hp : (a ++ q.voles).Perm p.voles) (k : ℕ) :
    (extend^[k] q).svole = (extend^[k] p).svole ∧
      (a ++ (extend^[k] q).voles).Perm (extend^[k] p).voles := by
  induction k generalizing p q with
  | zero => exact ⟨h, hp⟩
  | succ k ih =>
    refine ih (by simp [extend, h]) ?_
    simp only [extend, h, ← List.append_assoc]
    exact hp.append_right _

namespace Takes

theorem refl (p : Pool α) : Takes p [] p := ⟨0, rfl, .refl _⟩

theorem trans (h : Takes p a q) (h' : Takes q b r) : Takes p (a ++ b) r := by
  obtain ⟨k, hs, hp⟩ := h
  obtain ⟨l, hs', hp'⟩ := h'
  obtain ⟨hk, hkp⟩ := extend_iterate_perm hs hp l
  rw [← Function.iterate_add_apply] at hk hkp
  refine ⟨l + k, hs'.trans hk, .trans ?_ hkp⟩
  rw [List.append_assoc]
  exact hp'.append_left a

theorem extend (p : Pool α) : Takes p [] p.extend := ⟨1, rfl, .refl _⟩

theorem draw (p : Pool α) : Takes p [p.draw.1] p.draw.2 := by
  unfold Pool.draw
  split
  · next h =>
    refine ⟨1, rfl, ?_⟩
    refine List.perm_append_comm.trans (.of_eq ?_)
    simp [Pool.extend, h, List.dropLast_append_getLast]
  · next h =>
    refine ⟨0, rfl, List.perm_append_comm.trans (.of_eq ?_)⟩
    exact List.dropLast_append_getLast h

theorem draws (n : ℕ) (p : Pool α) : Takes p (p.draws n).1 (p.draws n).2 := by
  induction n generalizing p with
  | zero => exact refl p
  | succ n ih => exact (draw p).trans (ih p.draw.2)

theorem volesReserve (n : ℕ) (p : Pool α) : Takes p [] (p.volesReserve n) := by
  fun_induction Pool.volesReserve n p with
  | case1 p _ ih => exact (extend p).trans ih
  | case2 p _ => exact refl p

theorem volesClear (p : Pool α) : Takes p p.voles p.volesClear :=
  ⟨0, rfl, by simp [Pool.volesClear]⟩

end Takes

end Pool

/-! ## The ledger -/

/-- What a sequence of calls does: the plain values it describes, the vole behind each of them
that was made from one, and the voles it throws away. -/
structure Ledger (PF FE : Type) where
  pool : Pool (MacProver PF FE)
  values : List PF
  masks : List (Option (MacProver PF FE))
  cleared : List (MacProver PF FE)

namespace Ledger

/-- The voles handed out so far, in order. -/
def handed (L : Ledger PF FE) : List (MacProver PF FE) := L.masks.filterMap id

/-- Add values that are computed from earlier ones. -/
def derive (x : PF) (L : Ledger PF FE) : Ledger PF FE :=
  { L with values := L.values ++ [x], masks := L.masks ++ [none] }

/-- Hand out a vole for each of the values. -/
def take (x : List PF) (L : Ledger PF FE) : Ledger PF FE :=
  { L with
    pool := (L.pool.draws x.length).2
    values := L.values ++ x
    masks := L.masks ++ (L.pool.draws x.length).1.map some }

variable [Field PF]

def step (L : Ledger PF FE) : Call PF → Ledger PF FE
  | .random => L.take [L.pool.draw.1.value]
  | .input x => L.take x
  | .input1 x => L.take [x]
  | .affineAddCst cst i => L.derive (cst + L.values.getD i 0)
  | .affineMultCst cst i => L.derive (cst * L.values.getD i 0)
  | .add i j => L.derive (L.values.getD i 0 + L.values.getD j 0)
  | .sub i j => L.derive (L.values.getD i 0 - L.values.getD j 0)
  | .neg i => L.derive (-L.values.getD i 0)
  | .volesReserve n => { L with pool := L.pool.volesReserve n }
  | .volesClear => { L with pool := L.pool.volesClear, cleared := L.cleared ++ L.pool.voles }

/-- The ledger of a sequence of calls from a pool. -/
def run (p : Pool (MacProver PF FE)) (cs : List (Call PF)) : Ledger PF FE :=
  cs.foldl step ⟨p, [], [], []⟩

omit [Field PF] in
@[simp] theorem handed_derive (x : PF) (L : Ledger PF FE) : (L.derive x).handed = L.handed := by
  simp [handed, derive]

omit [Field PF] in
@[simp] theorem handed_take (x : List PF) (L : Ledger PF FE) :
    (L.take x).handed = L.handed ++ (L.pool.draws x.length).1 := by
  simp [handed, take]

theorem takes_step {p : Pool (MacProver PF FE)} {L : Ledger PF FE}
    (h : p.Takes (L.cleared ++ L.handed) L.pool) (c : Call PF) :
    p.Takes ((L.step c).cleared ++ (L.step c).handed) (L.step c).pool := by
  have htake : ∀ x, p.Takes (L.cleared ++ (L.take x).handed) (L.take x).pool := fun x => by
    rw [handed_take, ← List.append_assoc]
    exact h.trans (Pool.Takes.draws x.length L.pool)
  have hderive : ∀ x, p.Takes (L.cleared ++ (L.derive x).handed) L.pool := fun x => by
    rwa [handed_derive]
  cases c with
  | random => exact htake _
  | input x => exact htake x
  | input1 x => exact htake [x]
  | volesReserve n =>
    have hreserve := h.trans (Pool.Takes.volesReserve n L.pool)
    rwa [List.append_nil] at hreserve
  | volesClear =>
    obtain ⟨k, hs, hp⟩ := h.trans (Pool.Takes.volesClear L.pool)
    refine ⟨k, hs, .trans (List.Perm.append_right _ ?_) hp⟩
    simp only [step, List.append_assoc]
    exact List.perm_append_comm.append_left _
  | _ => exact hderive _

theorem takes_run (p : Pool (MacProver PF FE)) (cs : List (Call PF)) :
    p.Takes ((run p cs).cleared ++ (run p cs).handed) (run p cs).pool := by
  suffices ∀ L : Ledger PF FE, p.Takes (L.cleared ++ L.handed) L.pool →
      p.Takes ((cs.foldl step L).cleared ++ (cs.foldl step L).handed) (cs.foldl step L).pool from
    this _ (Pool.Takes.refl p)
  induction cs with
  | nil => exact fun L h => h
  | cons c cs ih => exact fun L h => ih _ (takes_step h c)

end Ledger

/-! ## The prover follows the ledger -/

section Emits

variable (s : FComProver PF FE)

theorem emits_input [Field PF] [CanonicalSerialize M PF] (x : List PF) :
    Emits (FComProver.input x : Party M G (FComProver PF FE) _) s
      ((s.pool.draws x.length).1.map MacProver.mac) ⟨(s.pool.draws x.length).2⟩ := by
  have hloop : ∀ (x : List PF) (s : FComProver PF FE), Emits
      (x.mapM fun xi => do
        let r ← (FComProver.random : Party M G (FComProver PF FE) _)
        pure (r.mac, xi - r.value)) s
      (List.zipWith (fun xi v => (v.mac, xi - v.value)) x (s.pool.draws x.length).1)
      ⟨(s.pool.draws x.length).2⟩ := by
    intro x
    induction x with
    | nil => exact fun s => Emits.pure
    | cons xi x ih =>
      intro s
      rw [List.mapM_cons]
      refine Emits.bind (Emits.bind (emits_random s) Emits.pure) ?_
      exact (ih ⟨s.pool.draw.2⟩).bind Emits.pure
  have hmap : ∀ (x : List PF) (vs : List (MacProver PF FE)), vs.length = x.length →
      (List.zipWith (fun xi v => (v.mac, xi - v.value)) x vs).map (·.1) =
        vs.map MacProver.mac := by
    intro x
    induction x with
    | nil => intro vs h; simp [List.eq_nil_of_length_eq_zero h]
    | cons xi x ih =>
      intro vs h
      cases vs with
      | nil => simp at h
      | cons v vs => simpa using ih vs (by simpa using h)
  rw [← hmap x _ (Pool.length_draws x.length s.pool)]
  exact (hloop x s).bind ((Emits.write _).bind Emits.pure)

theorem emits_input1 [Field PF] [CanonicalSerialize M PF] (x : PF) :
    Emits (FComProver.input1 x : Party M G (FComProver PF FE) _) s s.pool.draw.1.mac
      ⟨s.pool.draw.2⟩ :=
  (emits_random s).bind ((Emits.write _).bind Emits.pure)

end Emits

/-- The MACs of the prover are MACs of the values of the ledger, made from its voles. -/
def Ledger.Describes (L : Ledger PF FE) (macs : List (MacProver PF FE)) : Prop :=
  macs.map MacProver.value = L.values ∧
    List.Forall₂ (fun p v => ∀ r ∈ v, p.mac = r.mac) macs L.masks

namespace Ledger.Describes

variable {L : Ledger PF FE} {macs : List (MacProver PF FE)}

theorem value_getD [Field PF] [Field FE] (h : L.Describes macs) (i : ℕ) :
    L.values.getD i 0 = (macs.getD i default).value := by
  rw [← h.1, List.getD_eq_getElem?_getD, List.getD_eq_getElem?_getD, List.getElem?_map]
  cases macs[i]? <;> rfl

theorem derive (h : L.Describes macs) (p : MacProver PF FE) :
    (L.derive p.value).Describes (macs ++ [p]) :=
  ⟨by rw [List.map_append, h.1]; rfl, List.rel_append h.2 (.cons (by simp) .nil)⟩

theorem take (h : L.Describes macs) (x : List PF) :
    (L.take x).Describes
      (macs ++ List.zipWith MacProver.mk x ((L.pool.draws x.length).1.map MacProver.mac)) := by
  have hdraws := L.pool.length_draws x.length
  suffices ∀ vs : List (MacProver PF FE), vs.length = x.length →
      (List.zipWith MacProver.mk x (vs.map MacProver.mac)).map MacProver.value = x ∧
      List.Forall₂ (fun p v => ∀ r ∈ v, p.mac = r.mac)
        (List.zipWith MacProver.mk x (vs.map MacProver.mac)) (vs.map some) by
    obtain ⟨hx, hm⟩ := this _ hdraws
    exact ⟨by rw [List.map_append, h.1, hx]; rfl, List.rel_append h.2 hm⟩
  clear hdraws
  induction x with
  | nil => intro vs hvs; simp [List.eq_nil_of_length_eq_zero hvs]
  | cons xi x ih =>
    intro vs hvs
    cases vs with
    | nil => simp at hvs
    | cons v vs =>
      obtain ⟨hx, hm⟩ := ih vs (by simpa using hvs)
      exact ⟨by simp [hx], .cons (by simp) hm⟩

end Ledger.Describes

section Calls

variable [Field PF] [Field FE] [Algebra PF FE] [CanonicalSerialize M PF]

/-- A call takes the prover from the pool of a ledger to that of the ledger after the call, and
its MACs to MACs that this ledger describes. -/
theorem emits_call {macs : List (MacProver PF FE)} {L : Ledger PF FE} (h : L.Describes macs)
    (c : Call PF) :
    ∃ macs', Emits (FComProver.call macs c : Party M G (FComProver PF FE) _) ⟨L.pool⟩ macs'
      ⟨(L.step c).pool⟩ ∧ (L.step c).Describes macs' := by
  cases c with
  | random => exact ⟨_, (emits_random _).bind Emits.pure, h.take [L.pool.draw.1.value]⟩
  | input x => exact ⟨_, (emits_input _ x).bind Emits.pure, h.take x⟩
  | input1 x => exact ⟨_, (emits_input1 _ x).bind Emits.pure, h.take [x]⟩
  | volesReserve n =>
    exact ⟨_, (Emits.zoom (L := FComProver.lens) (Emits.act _)).bind Emits.pure, h⟩
  | volesClear =>
    exact ⟨_, (Emits.zoom (L := FComProver.lens) (Emits.act _)).bind Emits.pure, h⟩
  | _ =>
    refine ⟨_, Emits.pure, ?_⟩
    simp only [Ledger.step, h.value_getD]
    exact h.derive _

theorem emits_calls (cs : List (Call PF)) (s : FComProver PF FE) :
    ∃ macs, Emits (FComProver.calls cs : Party M G (FComProver PF FE) _) s macs
      ⟨(Ledger.run s.pool cs).pool⟩ ∧ (Ledger.run s.pool cs).Describes macs := by
  suffices ∀ (macs : List (MacProver PF FE)) (L : Ledger PF FE), L.Describes macs →
      ∃ macs', Emits (cs.foldlM (@FComProver.call M G PF FE _ _ _ _) macs) ⟨L.pool⟩ macs'
        ⟨(cs.foldl Ledger.step L).pool⟩ ∧ (cs.foldl Ledger.step L).Describes macs' from
    this [] ⟨s.pool, [], [], []⟩ ⟨rfl, .nil⟩
  induction cs with
  | nil => exact fun macs L h => ⟨macs, Emits.pure, h⟩
  | cons c cs ih =>
    intro macs L h
    obtain ⟨macs', hc, h'⟩ := @emits_call M G _ _ _ _ _ _ _ _ h c
    obtain ⟨macs'', hcs, h''⟩ := ih macs' (L.step c) h'
    exact ⟨macs'', by rw [List.foldlM_cons]; exact hc.bind hcs, h''⟩

variable {Δ : FE}

theorem sync_call (macs : List (MacProver PF FE)) (c : Call PF) :
    Sync (Correlated Δ) (FComProver.call macs c : Party M G (FComProver PF FE) _)
      (FComVerifier.call (macs.map (MacProver.key Δ)) c : Party M H _ _)
      fun ms ks => ks = ms.map (MacProver.key Δ) := by
  cases c with
  | random => exact sync_random.bind fun p v hv => Sync.pure (by simp [hv])
  | input x => exact (sync_input x).bind fun ms ks h => Sync.pure (by simp [h.2])
  | input1 x => exact (sync_input1 x).bind fun m k hk => Sync.pure (by simp [hk])
  | affineAddCst cst i =>
    refine Sync.get_right fun s t hst => Sync.pure ?_
    rw [hst, key_getD, List.map_append, List.map_singleton, ← FComProver.key_affineAddCst]
  | volesReserve n =>
    exact (sync_volesReserve n).bind fun _ _ _ => Sync.pure rfl
  | volesClear =>
    exact sync_volesClear.bind fun _ _ _ => Sync.pure rfl
  | _ =>
    refine Sync.pure ?_
    simp only [key_getD, List.map_append, List.map_singleton, FComProver.key_affineMultCst,
      FComProver.key_add, FComProver.key_sub, FComProver.key_neg]

theorem sync_calls (cs : List (Call PF)) :
    Sync (Correlated Δ) (FComProver.calls cs : Party M G (FComProver PF FE) _)
      (FComVerifier.calls cs : Party M H _ _) fun ms ks => ks = ms.map (MacProver.key Δ) := by
  refine Sync.foldlM (R := Eq) ?_ (List.forall₂_refl cs) rfl
  rintro macs _ c _ rfl rfl
  exact sync_call macs c

omit [CanonicalSerialize M PF] in
theorem forall₂_key (ps : List (MacProver PF FE)) :
    List.Forall₂ (fun p k => p.mac = k.mac + p.value • Δ) ps (ps.map (MacProver.key Δ)) := by
  rw [List.forall₂_map_right_iff, List.forall₂_same]
  exact fun p _ => p.mac_eq Δ

/-- After any sequence of calls from correlated states the pools have one length and are correlated
vole by vole, every MAC is authentic under its key, is a MAC of the value its call describes and
is made from the vole handed out for it, and each vole of the initial pool and its extensions is
thrown away, handed out or still in the pool, once. -/
theorem calls_correlated (Δ : FE) (cs : List (Call PF)) (s : FComProver PF FE) (g : G) (h : H) :
    Lockstep (FComProver.calls cs s g : Proc M _) (FComVerifier.calls cs (s.keys Δ) h) fun x y =>
      List.Forall₂ (fun p k => p.mac = k.mac + p.value • Δ) x.1.2.pool.voles y.1.2.pool.voles ∧
      List.Forall₂ (fun p k => p.mac = k.mac + p.value • Δ) x.1.1 y.1.1 ∧
      (Ledger.run s.pool cs).Describes x.1.1 ∧
      ∃ k, ((Ledger.run s.pool cs).cleared ++ (Ledger.run s.pool cs).handed ++
        x.1.2.pool.voles).Perm (Pool.extend^[k] s.pool).voles := by
  obtain ⟨l, r, x, y, hj, hrel, hkeys⟩ :=
    @sync_calls M G H PF FE _ _ _ _ Δ cs s _ rfl g h
  obtain ⟨macs, hemits, hmacs⟩ := @emits_calls M G PF FE _ _ _ _ cs s
  have hx : x = ((macs, ⟨(Ledger.run s.pool cs).pool⟩), g) := by
    have hrun := Proc.joint_run_left hj
    rw [hemits g l] at hrun
    exact (congrArg Prod.fst (Option.some.inj hrun)).symm
  refine ⟨l, r, x, y, hj, ?_, ?_, ?_, ?_⟩
  · rw [hrel]
    exact forall₂_key _
  · rw [hkeys]
    exact forall₂_key _
  · rw [hx]
    exact hmacs
  · obtain ⟨k, -, hperm⟩ := Ledger.takes_run s.pool cs
    exact ⟨k, by rw [hx]; exact hperm⟩

end Calls

end EdaBitGen
