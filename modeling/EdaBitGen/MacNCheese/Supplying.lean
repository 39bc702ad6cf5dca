import EdaBitGen.MacNCheese.VoleSupplier

/-!
# The supplier over its runs

What a field has in stock and what was used are disjoint parts of task outputs, over all fields and
all calls.
-/

namespace EdaBitGen.MacNCheese

open Occurrences VoleSupplier

/-! ## The stock of all fields -/

/-- What the supplier keeps for a field. -/
def VoleSupplier.stock (s : VoleSupplier) (field : FieldMacType) : List WireSlice :=
  ((s.voles field).map fun v => v.currentVoles ++ v.leftovers).getD []

/-- How many slices in stock have a wire. -/
def VoleSupplier.stocked (s : VoleSupplier) (p : WirePos) : ℕ :=
  holders (s.stock .binaryF63b) p + holders (s.stock .f63b) p + holders (s.stock .f61p) p +
    holders (s.stock .f128p) p

/-- The supplier with another state of a field. -/
def VoleSupplier.put (s : VoleSupplier) (field : FieldMacType) (v : VoleState) : VoleSupplier :=
  { s with voles := fun f => if f = field then some v else s.voles f }

theorem stock_put (s : VoleSupplier) (field field' : FieldMacType) (v : VoleState) :
    (s.put field v).stock field' =
      if field' = field then v.currentVoles ++ v.leftovers else s.stock field' := by
  unfold VoleSupplier.stock VoleSupplier.put
  dsimp only
  split <;> rfl

theorem stocked_put (s : VoleSupplier) (field : FieldMacType) (v : VoleState) (p : WirePos) :
    (s.put field v).stocked p + holders (s.stock field) p =
      s.stocked p + holders v.currentVoles p + holders v.leftovers p := by
  unfold VoleSupplier.stocked
  cases field <;> simp only [stock_put, holders, reduceCtorEq, if_true, if_false, mult_append] <;>
    omega

theorem holders_stock_le (s : VoleSupplier) (field : FieldMacType) (p : WirePos) :
    holders (s.stock field) p ≤ s.stocked p := by
  unfold VoleSupplier.stocked
  cases field <;> omega

/-! ## The invariant -/

structure FieldOk (field : FieldMacType) (v : VoleState) : Prop where
  proto : v.voleProto = extendProto field
  sources : ∀ ws ∈ v.currentVoles, IsSource field ws
  leftovers : ∀ ws ∈ v.leftovers, IsLeftover field ws
  index : v.voleIndex < v.currentVoles.length

structure SupplyState.Ok (st : SupplyState) : Prop where
  fits : ∀ p, st.supplier.stocked p + holders st.used p ≤ capacity st.cb.tasks p
  fields : ∀ field v, st.supplier.voles field = some v → FieldOk field v

theorem SupplyState.Ok.new (concurrency : ℕ) (concurrencies : FieldMacType → Option ℕ) :
    SupplyState.Ok ⟨.new concurrency concurrencies, .new, []⟩ where
  fits _ := Nat.zero_le _
  fields _ _ := nofun

theorem capacity_mono {tasks tasks' : WipTasks} {outputs : List Shape} {singles : List WireSlice}
    (h : tasks'.view = tasks.view ++ [(outputs, singles)]) (p : WirePos) : capacity tasks p ≤ capacity tasks' p := by
  rw [capacity_of_view h]
  split
  · rename_i hp
    rw [capacity_of_le hp.ge]
    exact Nat.zero_le _
  · exact le_rfl

theorem SupplyState.Ok.builder {st : SupplyState} (h : st.Ok) {cb : CircuitBuilder}
    (hcap : ∀ p, capacity st.cb.tasks p ≤ capacity cb.tasks p) : SupplyState.Ok { st with cb } where
  fits p := (h.fits p).trans (hcap p)
  fields := h.fields

theorem registerPrototype_returns (cb : CircuitBuilder) (proto : TaskPrototypeRef) :
    (cb.registerPrototype proto).Returns Full fun r => r.1 = proto ∧ r.2.tasks = cb.tasks := by
  unfold CircuitBuilder.registerPrototype
  by_cases hroom : cb.numPrototypes < 2 ^ 32
  · exact .step (require_pos hroom _) (.ok ⟨rfl, rfl⟩)
  · rw [require, if_neg hroom]
    exact .error (.inr rfl)

theorem instantiate_ok {cb cb' : CircuitBuilder} {proto : TaskPrototypeRef}
    {singles : List WireSlice} {multis : List (List WireSlice)} {out : TaskOutputRef}
    (h : cb.instantiate proto singles multis = .ok (out, cb')) :
    cb'.tasks.view = cb.tasks.view ++ [(proto.outputs, singles)] := by
  unfold CircuitBuilder.instantiate at h
  cases hnew : MacNCheese.instantiate cb.tasks proto singles multis with
  | error e => simp [hnew, bind, Except.bind] at h
  | ok r =>
    simp only [hnew, bind, Except.bind, Except.ok.injEq, Prod.mk.injEq] at h
    obtain ⟨-, rfl⟩ := h
    exact (view_of_instantiate hnew).1

/-! ## A call -/

variable {field : FieldMacType} {rest : WirePos → ℕ}

theorem newVoleExtendPrototype_returns (cb : CircuitBuilder) (field : FieldMacType) :
    (cb.newVoleExtendPrototype field 1).Returns Full fun r =>
      r.1 = extendProto field ∧ r.2.tasks = cb.tasks := by
  have hcount : 1 ≠ 0 ∧ field.volesOutputted * 1 < 2 ^ 32 := by
    rw [volesOutputted_eq]
    omega
  unfold CircuitBuilder.newVoleExtendPrototype
  apply Except.Returns.step (require_pos hcount _)
  refine (registerPrototype_returns cb _).mono fun r hr => ⟨hr.1.trans ?_, hr.2⟩
  rw [Nat.mul_one]
  rfl

theorem newCopyBaseSvolePrototype_returns (cb : CircuitBuilder)
    (hprime : field.primeFieldType = field) :
    (cb.newCopyBaseSvolePrototype field).Returns Full fun r =>
      r.1 = baseProto field ∧ r.2.tasks = cb.tasks :=
  .step (require_pos hprime _) (registerPrototype_returns cb _)

theorem start_returns {cb : CircuitBuilder} (hprime : field.primeFieldType = field)
    (hfits : ∀ p, rest p ≤ capacity cb.tasks p) (concurrency : ℕ) :
    (start cb field concurrency).Returns Full fun r =>
      r.1 = extendProto field ∧ Good field cb rest r.2 [] := by
  unfold start
  apply (newVoleExtendPrototype_returns cb field).bind
  intro r hr
  obtain ⟨proto, cb₁⟩ := r
  obtain ⟨rfl, htasks₁⟩ := hr
  apply Except.Returns.step (require_pos hprime _)
  apply (newCopyBaseSvolePrototype_returns cb₁ hprime).bind
  intro r hr
  obtain ⟨proto, cb₂⟩ := r
  obtain ⟨rfl, htasks₂⟩ := hr
  have htasks : cb₂.tasks = cb.tasks := htasks₂.trans htasks₁
  have hbase : (cb₂.instantiate (baseProto field) [] []).Returns Full fun r =>
      r.2.tasks.view = cb.tasks.view ++ [((baseProto field).outputs, [])] ∧
        r.1 = ⟨cb.tasks.length, (baseProto field).outputs⟩ := by
    rw [← htasks]
    exact (instantiate_returns cb₂.tasks rfl rfl rfl (List.forall_mem_nil _)).bind fun _ hr => .ok hr
  refine hbase.bind fun r hr => ?_
  obtain ⟨out, cb₃⟩ := r
  obtain ⟨hview, rfl⟩ := hr
  have hwires : TaskOutputRef.wires ⟨cb.tasks.length, (baseProto field).outputs⟩
      (.randomMac field) =
        .ok ⟨cb.tasks.length, 0, field.baseVolesNeeded, .randomMac field⟩ := by
    simp [TaskOutputRef.wires, baseProto]
  refine .step hwires (.step (neededFor_extendProto field) ?_)
  have hgood : Good field cb rest
      ⟨cb₃, [⟨cb.tasks.length, 0, field.baseVolesNeeded, .randomMac field⟩], [], 0⟩ [] := by
    refine ⟨fun p => ?_, fun ws hws => ?_, List.forall_mem_nil _, Nat.zero_lt_one, ?_⟩
    · have hcap : capacity cb.tasks p +
          holds ⟨cb.tasks.length, 0, field.baseVolesNeeded, .randomMac field⟩ p ≤
            capacity cb₃.tasks p := capacity_add_le hview rfl p
      have hnew : newInputs cb cb₃ = [] := by
        rw [newInputs_eq, hview, List.drop_append_of_le_length (by rw [length_view]),
          ← length_view, List.drop_length]
        rfl
      have hle := hfits p
      simp only [holders, holds, hnew, mult_cons, mult_nil, Nat.zero_add, Nat.add_zero] at hcap ⊢
      omega
    · obtain rfl := List.mem_singleton.1 hws
      refine ⟨rfl, (Nat.zero_add _).le, ?_⟩
      show field.baseVolesNeeded < _
      rw [baseVolesNeeded_eq]
      omega
    · have hlen : cb₃.tasks.view.length = _ := congrArg List.length hview
      rw [List.length_append, length_view, length_view, List.length_singleton] at hlen
      show cb.tasks.length ≤ cb₃.tasks.length
      omega
  refine (fanOut_returns _ _ hgood ?_).bind fun st hst => .ok ⟨rfl, hst⟩
  have hshort : shortSources field
      [⟨cb.tasks.length, 0, field.baseVolesNeeded, .randomMac field⟩] ≤ 1 := List.countP_le_length
  show 3 * (concurrency - 1) + shortSources field [_] < _
  omega

theorem Good.of_ok {st : SupplyState} (h : st.Ok) {v : VoleState}
    (hv : st.supplier.voles field = some v) : Good field st.cb
      (fun p => st.supplier.stocked p + holders st.used p - holders (st.supplier.stock field) p)
      ⟨st.cb, v.currentVoles, v.leftovers, v.voleIndex⟩ [] where
  fits p := by
    have hfits := h.fits p
    have hle := holders_stock_le st.supplier field p
    have hstock : holders (st.supplier.stock field) p =
        holders v.currentVoles p + holders v.leftovers p := by
      rw [VoleSupplier.stock, hv]
      exact mult_append ..
    have hnew : newInputs st.cb st.cb = [] := by
      rw [newInputs, List.drop_length]
      rfl
    simp only [hnew, holders, mult_nil] at *
    omega
  sources := (h.fields field v hv).sources
  leftovers := (h.fields field v hv).leftovers
  index := (h.fields field v hv).index
  grown := le_rfl

theorem entry_returns {st : SupplyState} (h : st.Ok) (hprime : field.primeFieldType = field) :
    (st.supplier.entry st.cb field).Returns Full fun r => r.1 = extendProto field ∧
      Good field st.cb
        (fun p => st.supplier.stocked p + holders st.used p - holders (st.supplier.stock field) p)
        r.2 [] := by
  unfold entry
  split
  · rename_i v hv
    exact .ok ⟨(h.fields field v hv).proto, Good.of_ok h hv⟩
  · apply start_returns hprime
    exact fun p => (Nat.sub_le _ _).trans (h.fits p)

theorem request_of_suppliable {proto : TaskPrototypeRef} {count : ℕ}
    (h : Suppliable proto field count) : request proto = some (field, count) := by
  rw [request, h.1]
  rfl

theorem SupplyState.Ok.supply {st : SupplyState} (h : st.Ok) {proto : TaskPrototypeRef} {count : ℕ}
    (hproto : Suppliable proto field count) :
    (st.supplier.supplyVoles st.cb proto).Returns Full fun r => slicesLength r.1 = count ∧
      SupplyState.Ok ⟨r.2.1, r.2.2, st.used ++ (r.1 ++ newInputs st.cb r.2.2)⟩ := by
  unfold supplyVoles
  have hone : proto.multiArrayInputs.length = 1 := by
    rw [hproto.1]
    rfl
  rw [request_of_suppliable hproto]
  apply Except.Returns.step (require_pos hone _)
  apply (entry_returns h hproto.2.1).bind
  intro r hr
  obtain ⟨voleProto, stock⟩ := r
  obtain ⟨rfl, hgood⟩ := hr
  refine (takeLeftovers_returns _ stock.leftovers count [] hgood ?_).bind fun r hr => ?_
  · split <;> omega
  obtain ⟨leftovers, left, out⟩ := r
  obtain ⟨hgood', hleft⟩ := hr
  refine .step (neededFor_extendProto field) ?_
  refine (takeCurrent_returns _ _ left out hgood' ?_).bind fun r hr => ?_
  · exact Nat.add_lt_add_left (Nat.lt_succ_of_le (usedUp_le_one field _)) _
  obtain ⟨stock', out'⟩ := r
  obtain ⟨hgood'', hout⟩ := hr
  refine .ok ⟨hout.trans (hleft.trans (Nat.zero_add count)), fun p => ?_, fun field' v hv => ?_⟩
  · have hfits := hgood''.fits p
    have hput := stocked_put st.supplier field
      ⟨extendProto field, stock'.currentVoles, stock'.leftovers, stock'.voleIndex⟩ p
    have hle := holders_stock_le st.supplier field p
    have hused : holders (st.used ++ (out' ++ newInputs st.cb stock'.cb)) p =
        holders st.used p + (holders out' p + holders (newInputs st.cb stock'.cb) p) := by
      rw [holders, mult_append, mult_append]
    show (st.supplier.put field ⟨_, stock'.currentVoles, stock'.leftovers, _⟩).stocked p +
      holders (st.used ++ _) p ≤ capacity stock'.cb.tasks p
    rw [hused]
    dsimp only at hput hfits
    omega
  · rcases eq_or_ne field' field with rfl | hne
    · obtain rfl := Option.some.inj ((if_pos rfl).symm.trans hv)
      exact ⟨rfl, hgood''.sources, hgood''.leftovers, hgood''.index⟩
    · exact h.fields field' v ((if_neg hne).symm.trans hv)

theorem SupplyState.Reached.ok {concurrency : ℕ} {concurrencies : FieldMacType → Option ℕ}
    {st : SupplyState} (h : Reached concurrency concurrencies st) : st.Ok := by
  induction h with
  | new => exact .new concurrency concurrencies
  | @register st proto proto' cb _ hregister ih =>
    have htasks := ((registerPrototype_returns st.cb proto).of_ok hregister).2
    exact ih.builder fun p => (congrArg (capacity · p) htasks).ge
  | instantiate _ hinstantiate ih => exact ih.builder (capacity_mono (instantiate_ok hinstantiate))
  | supply _ hproto hsupply ih => exact ((ih.supply hproto).of_ok hsupply).2

/-- A wire that a task outputs. -/
def IsOutput (tasks : WipTasks) (p : WirePos) : Prop :=
  ∃ task, tasks[p.1]? = some task ∧ ∃ shape ∈ task.proto.outputs, shape.ty = p.2.1 ∧ p.2.2 < shape.count

theorem isOutput_of_capacity {tasks : WipTasks} {p : WirePos} (h : 0 < capacity tasks p) :
    IsOutput tasks p := by
  unfold capacity at h
  split at h
  · rename_i hany
    rw [WipTasks.view, List.getElem?_map, Option.any_map] at hany
    cases htask : tasks[p.1]? with
    | none => simp [htask] at hany
    | some task => exact ⟨task, htask, by simpa [htask] using hany⟩
  · cases h

/-- What holds in every state, and what every call returns. -/
def SuppliesOnce (concurrency : ℕ) (concurrencies : FieldMacType → Option ℕ) : Prop :=
  ∀ st, SupplyState.Reached concurrency concurrencies st →
    (∀ proto field count, Suppliable proto field count →
      (st.supplier.supplyVoles st.cb proto).Returns Full fun r => slicesLength r.1 = count) ∧
    st.used.Pairwise (Occurrences.Disjoint WireSlice.has) ∧
    (∀ ws ∈ st.used, ∀ p, ws.has p = true → IsOutput st.cb.tasks p) ∧
    ∀ field v, st.supplier.voles field = some v →
      neededFor v.voleProto = .ok field.baseVolesNeeded ∧
        ∀ ws ∈ v.currentVoles, field.baseVolesNeeded ≤ ws.len

/-- VOLEs are never used twice. -/
theorem supplyVoles_once (concurrency : ℕ) (concurrencies : FieldMacType → Option ℕ) :
    SuppliesOnce concurrency concurrencies := by
  intro st hst
  have hok := hst.ok
  refine ⟨fun proto field count hproto => ?_, ?_, fun ws hws p hhas => ?_, fun field v hv => ?_⟩
  · exact (hok.supply hproto).mono fun r hr => hr.1
  · apply pairwise_disjoint
    intro p
    exact (Nat.le_add_left _ _).trans ((hok.fits p).trans (capacity_le_one _ p))
  · apply isOutput_of_capacity
    have hone : holds ws p ≤ holders st.used p := indicator_le_mult _ hws p
    have hhold : holds ws p = 1 := if_pos hhas
    have hfits := hok.fits p
    omega
  · have hfield := hok.fields field v hv
    refine ⟨?_, fun ws hws => Nat.le_sub_of_add_le' (hfield.sources ws hws).keeps⟩
    rw [hfield.proto]
    exact neededFor_extendProto field

theorem instantiate_baseProto (cb : CircuitBuilder) (field : FieldMacType) :
    cb.instantiate (baseProto field) [] [] =
      if cb.tasks.length < 2 ^ 32 then
        .ok (⟨cb.tasks.length, (baseProto field).outputs⟩,
          { cb with tasks := cb.tasks ++ [⟨baseProto field, [], [], [], []⟩] })
      else .error .tooManyTasks := by
  unfold CircuitBuilder.instantiate MacNCheese.instantiate
  by_cases hroom : cb.tasks.length < 2 ^ 32
  · simp only [require, hroom, if_true]
    rfl
  · simp only [require, hroom, if_false]
    rfl

theorem exists_reached (n : ℕ) (hn : n ≤ 2 ^ 32) : ∃ cb : CircuitBuilder,
    SupplyState.Reached 1 (fun _ => none) ⟨.new 1 fun _ => none, cb, []⟩ ∧
      cb.tasks.length = n ∧ cb.numPrototypes = 0 := by
  induction n with
  | zero => exact ⟨.new, .new, rfl, rfl⟩
  | succ n ih =>
    obtain ⟨cb, hreached, hlen, hprotos⟩ := ih (by omega)
    have hadd := instantiate_baseProto cb .f61p
    rw [if_pos (by omega)] at hadd
    refine ⟨_, hreached.instantiate hadd, ?_, hprotos⟩
    rw [List.length_append, hlen, List.length_singleton]

theorem start_full {cb : CircuitBuilder} (hfull : 2 ^ 32 ≤ cb.tasks.length)
    (hprotos : cb.numPrototypes = 0) : start cb .f61p 1 = .error .tooManyTasks := by
  have hextend : cb.newVoleExtendPrototype .f61p 1 =
      .ok (extendProto .f61p, ⟨1, cb.tasks⟩) := by
    simp only [CircuitBuilder.newVoleExtendPrototype, CircuitBuilder.registerPrototype,
      require, hprotos]
    rfl
  have hbase : CircuitBuilder.newCopyBaseSvolePrototype ⟨1, cb.tasks⟩ .f61p =
      .ok (baseProto .f61p, ⟨2, cb.tasks⟩) := rfl
  have hinstantiate := instantiate_baseProto ⟨2, cb.tasks⟩ .f61p
  rw [if_neg (Nat.not_lt.2 hfull)] at hinstantiate
  simp only [start, hextend, hbase, hinstantiate, bind, Except.bind]
  rfl

theorem not_supplyVoles_returns : ∃ st : SupplyState,
    SupplyState.Reached 1 (fun _ => none) st ∧ ∃ proto, Suppliable proto .f61p 1 ∧
      st.supplier.supplyVoles st.cb proto = .error .tooManyTasks := by
  obtain ⟨cb, hreached, hlen, hprotos⟩ := exists_reached (2 ^ 32) le_rfl
  refine ⟨_, hreached, ⟨.fix .f61p, [], [⟨.randomMac .f61p, 1⟩], [⟨.mac .f61p, 1⟩]⟩,
    ⟨rfl, rfl, by omega, by omega⟩, ?_⟩
  have hentry : (VoleSupplier.new 1 fun _ => none).entry cb .f61p = .error .tooManyTasks :=
    start_full hlen.ge hprotos
  simp [supplyVoles, request, require, hentry]
  rfl

end EdaBitGen.MacNCheese
