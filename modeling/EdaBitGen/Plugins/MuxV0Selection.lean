import EdaBitGen.Plugins.MuxV0

/-!
# What the mux plugin selects

The gates are evaluated in four stages, over a field of any characteristic.  The complement of the
condition is one when the condition is zero, but two when it is one.
-/

namespace EdaBitGen.Plugins

/-! ## Branches of the condition's type -/

section Run

variable {K : TypeId → Type} [∀ t, CommRing (K t)] {c : TypeId}

theorem fromBytesLe_one (F : Type) [CommRing F] : fromBytesLe F [1] = 1 := by
  simp [fromBytesLe]

/-- The value of an output, whatever the field. -/
def muxed (n : ℕ) (v : ℕ → K c) (w : ℕ) : K c :=
  (v n + 1) * v (n + 1 + w) + v n * v (2 * n + 1 + w)

theorem evaluateGates_muxGates {n : ℕ} {wires : Wires K} {v : ℕ → K c}
    (hin : ∀ w, n ≤ w → w < 3 * n + 1 → wires c w = some (v w)) :
    ∃ last, evaluateGates (MuxV0.muxGates c n ((List.range' 0 n).map (c, ·))) wires = some last ∧
      ∀ w < n, last c w = some (muxed n v w) := by
  have hcond : evaluateGate wires (.addConstant c (3 * n + 1) n [1]) =
      some (wires.set c (3 * n + 1) (v n + 1)) := by
    simp only [evaluateGate, hin n le_rfl (by omega), Option.bind_eq_bind, Option.bind_some,
      fromBytesLe_one]
  have hkeep₀ : ∀ w, w ≠ 3 * n + 1 → wires.set c (3 * n + 1) (v n + 1) c w = wires c w :=
    fun w hw => Wires.set_of_ne _ _ fun heq => hw (Prod.mk.inj heq).2.symm
  obtain ⟨first, hfirst, hset₁, hkeep₁⟩ := evaluateGates_map
    (fun w => .mul c (3 * n + 2 + w) (3 * n + 1) (n + 1 + w)) (add_right_injective (3 * n + 2))
    (fun w => (v n + 1) * v (n + 1 + w)) (List.range' 0 n) (wires.set c (3 * n + 1) (v n + 1)) (by
      intro j hj wires' hagree
      rw [List.mem_range'_1] at hj
      have hneg : wires' c (3 * n + 1) = some (v n + 1) := by
        rw [hagree c _ fun i _ heq => by have := (Prod.mk.inj heq).2; omega, Wires.set_self]
      have hbranch : wires' c (n + 1 + j) = some (v (n + 1 + j)) := by
        rw [hagree c _ fun i _ heq => by have := (Prod.mk.inj heq).2; omega,
          hkeep₀ _ (by omega), hin _ (by omega) (by omega)]
      simp only [evaluateGate, hneg, hbranch, Option.bind_eq_bind, Option.bind_some])
  obtain ⟨second, hsecond, hset₂, hkeep₂⟩ := evaluateGates_map
    (fun w => .mul c (4 * n + 2 + w) n (2 * n + 1 + w)) (add_right_injective (4 * n + 2))
    (fun w => v n * v (2 * n + 1 + w)) (List.range' 0 n) first (by
      intro j hj wires' hagree
      rw [List.mem_range'_1] at hj
      have hread : ∀ w, n ≤ w → w < 3 * n + 1 → wires' c w = some (v w) := fun w hle hlt => by
        rw [hagree c _ fun i _ heq => by have := (Prod.mk.inj heq).2; omega,
          hkeep₁ c _ fun i _ heq => by have := (Prod.mk.inj heq).2; omega,
          hkeep₀ _ (by omega), hin _ hle hlt]
      simp only [evaluateGate, hread n le_rfl (by omega), hread (2 * n + 1 + j) (by omega) (by omega),
        Option.bind_eq_bind, Option.bind_some])
  obtain ⟨last, hlast, hset₃, -⟩ := evaluateGates_map
    (fun w => .add c w (3 * n + 2 + w) (4 * n + 2 + w)) Function.injective_id
    (muxed n v) (List.range' 0 n) second (by
      intro j hj wires' hagree
      have hrange := List.mem_range'_1.1 hj
      have hneg : wires' c (3 * n + 2 + j) = some ((v n + 1) * v (n + 1 + j)) := by
        rw [hagree c _ fun i hi heq => by
            have := (Prod.mk.inj heq).2
            have := List.mem_range'_1.1 hi
            simp only [id_eq] at *
            omega,
          hkeep₂ c _ fun i hi heq => by
            have := (Prod.mk.inj heq).2
            have := List.mem_range'_1.1 hi
            omega,
          hset₁ j hj]
      have hcond : wires' c (4 * n + 2 + j) = some (v n * v (2 * n + 1 + j)) := by
        rw [hagree c _ fun i hi heq => by
            have := (Prod.mk.inj heq).2
            have := List.mem_range'_1.1 hi
            simp only [id_eq] at *
            omega,
          hset₂ j hj]
      simp only [evaluateGate, hneg, hcond, Option.bind_eq_bind, Option.bind_some, muxed, id_eq])
  refine ⟨last, ?_, fun w hw => hset₃ w (List.mem_range'_1.2 ⟨Nat.zero_le _, by omega⟩)⟩
  simp only [MuxV0.muxGates, List.map_map, Function.comp_def]
  rw [evaluateGates, List.foldlM_cons, hcond]
  change evaluateGates _ _ = _
  rw [evaluateGates_append, evaluateGates_append, hfirst, Option.bind_some, hsecond,
    Option.bind_some, hlast]

end Run

namespace Declaration

variable {K : TypeId → Type} [∀ t, CommRing (K t)] {d : Declaration} {c : TypeId}

theorem gates_eq_error_iff :
    (∃ message, d.gates = .error (.error message)) ↔ d.operation ≠ "strict" ∨ d.params ≠ [] := by
  rw [gates, MuxV0.gatesBody]
  by_cases hoperation : d.operation = "strict"
  · by_cases hparams : d.params = []
    · rw [if_neg (not_not_intro hoperation), hparams, List.length_nil, if_neg (not_not_intro rfl)]
      refine iff_of_false (fun h => ?_) (by simp [hoperation])
      obtain ⟨message, heq⟩ := h
      exact (noError_index _ _).bind (fun _ => (MuxV0.noError_branchGates _ _ _ _).bind fun _ =>
        (MuxV0.noError_branchGates _ _ _ _).bind fun _ => noError_ok _) message heq
    · have hlength : d.params.length ≠ 0 := fun h => hparams (List.length_eq_zero_iff.1 h)
      rw [if_neg (not_not_intro hoperation), if_pos hlength]
      exact iff_of_true ⟨_, rfl⟩ (.inr hparams)
  · rw [if_pos hoperation]
    exact iff_of_true ⟨_, rfl⟩ (.inl hoperation)

theorem outWire_of_mem {g : GateM}
    (hg : g ∈ MuxV0.muxGates c (total d.outputCounts) d.outputs) :
    g.outWire < total d.outputCounts ∨ 3 * total d.outputCounts + 1 < g.outWire ∨
      (g.typeId = c ∧ g.outWire = 3 * total d.outputCounts + 1) := by
  rw [MuxV0.muxGates, List.mem_cons, List.mem_append, List.mem_append] at hg
  rcases hg with rfl | (hg | hg) | hg
  · exact .inr (.inr ⟨rfl, rfl⟩)
  · obtain ⟨g, -, rfl⟩ := List.mem_map.1 hg
    refine .inr (.inl ?_)
    simp only [GateM.outWire]
    omega
  · obtain ⟨g, -, rfl⟩ := List.mem_map.1 hg
    refine .inr (.inl ?_)
    simp only [GateM.outWire]
    omega
  · obtain ⟨⟨t, w⟩, hmem, rfl⟩ := List.mem_map.1 hg
    have hlt := (bounds_of_mem hmem).2
    rw [Nat.zero_add] at hlt
    exact .inl hlt

theorem IsMux.inputs_bounds (hd : d.IsMux c) {t : TypeId} {w : ℕ} (hmem : (t, w) ∈ d.inputs) :
    total d.outputCounts ≤ w ∧ w < 3 * total d.outputCounts + 1 := by
  obtain ⟨hle, hlt⟩ := bounds_of_mem hmem
  rw [hd.total_inputCounts] at hlt
  omega

theorem IsMux.not_mem_inputs (hd : d.IsMux c) {g : GateM}
    (hg : g ∈ MuxV0.muxGates c (total d.outputCounts) d.outputs) :
    (g.typeId, g.outWire) ∉ d.inputs := by
  intro hmem
  have hbounds := hd.inputs_bounds hmem
  rcases outWire_of_mem hg with h | h | ⟨-, h⟩ <;> omega

theorem IsMux.type_eq (hd : d.IsMux c) {values : ∀ t, ℕ → K t} {last : Wires K}
    (heval : evaluateGates (MuxV0.muxGates c (total d.outputCounts) d.outputs)
      (d.callframe values) = some last)
    {g : TypeId × ℕ} (hg : g ∈ d.outputCounts) (hpos : g.2 ≠ 0) : g.1 = c := by
  by_contra hne
  obtain ⟨w, hw⟩ := exists_mem_numberedFrom hg hpos 0
  have hmul : GateM.mul g.1 (3 * total d.outputCounts + 2 + w) (3 * total d.outputCounts + 1)
      (total d.outputCounts + 1 + w) ∈ MuxV0.muxGates c (total d.outputCounts) d.outputs :=
    List.mem_cons_of_mem _ (List.mem_append_left _ (List.mem_append_left _
      (List.mem_map.2 ⟨_, hw, rfl⟩)))
  obtain ⟨before, after, hafter, hbefore⟩ := evaluateGates_before heval hmul
  have hunset : before g.1 (3 * total d.outputCounts + 1) = none := by
    rw [hbefore, callframe, if_neg fun hmem => by have := hd.inputs_bounds hmem; omega]
    intro g' hg' heq
    have htype := (Prod.mk.inj heq).1
    have hwire := (Prod.mk.inj heq).2
    rcases outWire_of_mem hg' with h | h | ⟨h, -⟩
    · omega
    · omega
    · exact hne (htype ▸ h)
  rw [evaluateGate, hunset] at hafter
  exact absurd hafter (by simp)

theorem IsMux.outputs_eq (htype : ∀ g ∈ d.outputCounts, g.2 ≠ 0 → g.1 = c) :
    d.outputs = (List.range' 0 (total d.outputCounts)).map (c, ·) :=
  numberedFrom_eq htype 0

/-- Where the branches have the condition's type, the outputs are the same polynomial in every
field. -/
theorem IsMux.evaluateGates_eq (hd : d.IsMux c)
    (htype : ∀ g ∈ d.outputCounts, g.2 ≠ 0 → g.1 = c) (values : ∀ t, ℕ → K t) :
    ∃ last, evaluateGates (MuxV0.muxGates c (total d.outputCounts) d.outputs)
        (d.callframe values) = some last ∧
      ∀ t w, (t, w) ∈ d.outputs →
        t = c ∧ last c w = some (muxed (total d.outputCounts) (values c) w) := by
  have hinputs : d.inputs = (List.range' (total d.outputCounts)
      (2 * total d.outputCounts + 1)).map (c, ·) := by
    rw [← hd.total_inputCounts]
    refine numberedFrom_eq (fun g hg hpos => ?_) _
    rw [hd.inputCounts, List.mem_cons, List.mem_append, or_self] at hg
    rcases hg with rfl | hg
    · rfl
    · exact htype g hg hpos
  have hin : ∀ w, total d.outputCounts ≤ w → w < 3 * total d.outputCounts + 1 →
      d.callframe values c w = some (values c w) := fun w hle hlt => if_pos (by
    rw [hinputs]
    exact List.mem_map.2 ⟨w, List.mem_range'_1.2 ⟨hle, by omega⟩, rfl⟩)
  rw [IsMux.outputs_eq htype]
  obtain ⟨last, heval, hset⟩ := evaluateGates_muxGates hin
  refine ⟨last, heval, fun t w hmem => ?_⟩
  obtain ⟨i, hi, heq⟩ := List.mem_map.1 hmem
  obtain ⟨rfl, rfl⟩ := Prod.mk.inj heq
  exact ⟨rfl, hset i (by rw [List.mem_range'_1] at hi; omega)⟩

theorem muxed_eq_of_two {n : ℕ} {v : ℕ → K c} (htwo : (2 : K c) = 0) (w : ℕ) :
    (v n = 0 → muxed n v w = v (n + 1 + w)) ∧ (v n = 1 → muxed n v w = v (2 * n + 1 + w)) := by
  refine ⟨fun hzero => ?_, fun hone => ?_⟩
  · rw [muxed, hzero]
    ring
  · calc muxed n v w = 2 * v (n + 1 + w) + v (2 * n + 1 + w) := by
          rw [muxed, hone]
          ring
      _ = v (2 * n + 1 + w) := by rw [htwo, zero_mul, zero_add]

theorem IsMux.selects_iff (hd : d.IsMux c) :
    d.Selects K c ↔ ∀ g ∈ d.outputCounts, g.2 ≠ 0 → g.1 = c ∧ (2 : K c) = 0 := by
  have hlength : total d.outputCounts + 1 + total d.outputCounts = 2 * total d.outputCounts + 1 := by
    omega
  constructor
  · rintro ⟨gates, hgates, -, hselect⟩ g hg hpos
    rw [hd.gates_eq, Except.ok.injEq] at hgates
    subst hgates
    -- the condition and both branches are one
    obtain ⟨last, heval, hlast⟩ := hselect (fun _ _ => 1) (.inr rfl)
    have htype : ∀ g ∈ d.outputCounts, g.2 ≠ 0 → g.1 = c := fun _ => hd.type_eq heval
    refine ⟨htype g hg hpos, ?_⟩
    obtain ⟨last', heval', hlast'⟩ := hd.evaluateGates_eq htype fun (t : TypeId) _ => (1 : K t)
    obtain rfl : last = last' := Option.some.inj (heval.symm.trans heval')
    obtain ⟨w, hw⟩ := exists_mem_numberedFrom hg hpos 0
    rw [htype g hg hpos] at hw
    have hone := ((hlast c w hw).2 rfl).symm.trans (hlast' c w hw).2
    have htwo : (1 : K c) = 1 + 2 := by
      calc (1 : K c) = muxed (total d.outputCounts) (fun _ => 1) w := Option.some.inj hone
        _ = 1 + 2 := by
          rw [muxed]
          ring
    exact left_eq_add.1 htwo
  · intro htwo
    refine ⟨_, hd.gates_eq, fun g hg => hd.not_mem_inputs hg, fun values _ => ?_⟩
    obtain ⟨last, heval, hlast⟩ := hd.evaluateGates_eq (fun g hg hpos => (htwo g hg hpos).1) values
    refine ⟨last, heval, fun t w hw => ?_⟩
    obtain ⟨rfl, hset⟩ := hlast t w hw
    obtain ⟨g, hg, hpos⟩ : ∃ g ∈ d.outputCounts, g.2 ≠ 0 := by
      by_contra! hzero
      have hsum : total d.outputCounts = 0 :=
        List.sum_eq_zero fun k hk => by
          obtain ⟨g, hg, rfl⟩ := List.mem_map.1 hk
          exact hzero g hg
      have := (bounds_of_mem hw).2
      omega
    obtain ⟨hzero, hone⟩ := muxed_eq_of_two (v := values t) (htwo g hg hpos).2 w
    rw [hset, hlength]
    exact ⟨fun h => congrArg some (hzero h), fun h => congrArg some (hone h)⟩

end Declaration

/-- The plugin is right about a declaration exactly when it has a reason to refuse it, or when it
declares a mux whose wires have one type, that of a field of characteristic two. -/
theorem muxV0_iff (K : TypeId → Type) [∀ t, CommRing (K t)] (d : Declaration) :
    d.Correct K ↔ (d.operation ≠ "strict" ∨ d.params ≠ []) ∨
      ∃ c, d.IsMux c ∧ ∀ g ∈ d.outputCounts, g.2 ≠ 0 → g.1 = c ∧ (2 : K c) = 0 := by
  constructor
  · rintro ⟨hselects, herror⟩
    by_cases hmux : ∃ c, d.IsMux c
    · obtain ⟨c, hd⟩ := hmux
      exact .inr ⟨c, hd, hd.selects_iff.1 (hselects c hd)⟩
    · exact .inl (Declaration.gates_eq_error_iff.1 (herror hmux))
  · rintro (hrefused | ⟨c, hd, htwo⟩)
    · refine ⟨fun c hd => ?_, fun _ => Declaration.gates_eq_error_iff.2 hrefused⟩
      rcases hrefused with h | h
      · exact absurd hd.operation h
      · exact absurd hd.params h
    · refine ⟨fun c' hd' => ?_, fun hnone => absurd ⟨c, hd⟩ hnone⟩
      have hcc' : c = c' := by
        have heads := hd.inputCounts.symm.trans hd'.inputCounts
        exact (Prod.mk.inj (List.cons.inj heads).1).1
      exact hcc' ▸ hd.selects_iff.2 htwo

/-- A mux of one wire over the prime field of `2 ^ 61 - 1` adds twice the first branch. -/
theorem muxV0_f61p : ¬ (⟨"strict", [], [((0 : Fin 256), 1)],
    [((0 : Fin 256), 1), ((0 : Fin 256), 1), ((0 : Fin 256), 1)]⟩ : Declaration).Correct
      fun _ => ZMod (2 ^ 61 - 1) := by
  rintro ⟨hselects, -⟩
  have hd : (⟨"strict", [], [((0 : Fin 256), 1)],
      [((0 : Fin 256), 1), ((0 : Fin 256), 1), ((0 : Fin 256), 1)]⟩ : Declaration).IsMux
        (0 : Fin 256) := ⟨rfl, rfl, rfl⟩
  have htwo : ((2 : ℕ) : ZMod (2 ^ 61 - 1)) = 0 :=
    (hd.selects_iff.1 (hselects _ hd) _ List.mem_cons_self one_ne_zero).2
  rw [ZMod.natCast_eq_zero_iff] at htwo
  exact Nat.not_dvd_of_pos_of_lt (by decide) (by decide) htwo

end EdaBitGen.Plugins
