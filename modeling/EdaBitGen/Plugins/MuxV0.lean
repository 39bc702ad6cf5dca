import EdaBitGen.Multifield.Model

/-!
# The gates of plugins

A plugin is evaluated as the gates that it emits.  Every field has wires of its own, and a gate
reads and sets wires of its field alone.
-/

namespace EdaBitGen.Plugins

/-- The gates that the plugins emit. -/
inductive GateM
  | add (ty : TypeId) (out left right : ℕ)
  | mul (ty : TypeId) (out left right : ℕ)
  | addConstant (ty : TypeId) (out inp : ℕ) (constant : List UInt8)
deriving DecidableEq

namespace GateM

def typeId : GateM → TypeId
  | add ty _ _ _ => ty
  | mul ty _ _ _ => ty
  | addConstant ty _ _ _ => ty

def outWire : GateM → ℕ
  | add _ out _ _ => out
  | mul _ out _ _ => out
  | addConstant _ out _ _ => out

end GateM

/-- The field element of a little-endian constant below the modulus. -/
def fromBytesLe (F : Type) [CommRing F] (bytes : List UInt8) : F :=
  ((bytes.foldr (fun b acc => b.toNat + 256 * acc) 0 : ℕ) : F)

/-- The values of the wires of every type that are set. -/
abbrev Wires (K : TypeId → Type) : Type := ∀ t, ℕ → Option (K t)

variable {K : TypeId → Type}

namespace Wires

def set (wires : Wires K) (t : TypeId) (out : ℕ) (v : K t) : Wires K :=
  Function.update wires t (Function.update (wires t) out (some v))

@[simp] theorem set_self (wires : Wires K) (t : TypeId) (out : ℕ) (v : K t) :
    wires.set t out v t out = some v := by
  simp [set]

theorem set_of_ne (wires : Wires K) {t t' : TypeId} {out w : ℕ} (v : K t)
    (hne : (t, out) ≠ (t', w)) : wires.set t out v t' w = wires t' w := by
  by_cases ht : t' = t
  · subst ht
    have hw : w ≠ out := fun h => hne (by rw [h])
    simp [set, hw]
  · simp [set, ht]

end Wires

variable [∀ t, CommRing (K t)]

/-- A gate that reads a wire which isn't set fails. -/
def evaluateGate (wires : Wires K) : GateM → Option (Wires K)
  | .add t out left right => do
    let l ← wires t left
    let r ← wires t right
    some (wires.set t out (l + r))
  | .mul t out left right => do
    let l ← wires t left
    let r ← wires t right
    some (wires.set t out (l * r))
  | .addConstant t out inp constant => do
    let l ← wires t inp
    some (wires.set t out (l + fromBytesLe (K t) constant))

def evaluateGates (gates : List GateM) (wires : Wires K) : Option (Wires K) :=
  gates.foldlM evaluateGate wires

theorem evaluateGates_append (gates gates' : List GateM) (wires : Wires K) :
    evaluateGates (gates ++ gates') wires =
      (evaluateGates gates wires).bind (evaluateGates gates') :=
  List.foldlM_append

theorem evaluateGate_of_ne {wires wires' : Wires K} {g : GateM} {t : TypeId} {w : ℕ}
    (heval : evaluateGate wires g = some wires') (hne : (g.typeId, g.outWire) ≠ (t, w)) :
    wires' t w = wires t w := by
  cases g with
  | add ty out left right | mul ty out left right =>
    simp only [evaluateGate, Option.bind_eq_bind, Option.bind_eq_some_iff, Option.some.injEq] at heval
    obtain ⟨l, -, r, -, rfl⟩ := heval
    exact Wires.set_of_ne _ _ hne
  | addConstant ty out inp constant =>
    simp only [evaluateGate, Option.bind_eq_bind, Option.bind_eq_some_iff, Option.some.injEq] at heval
    obtain ⟨l, -, rfl⟩ := heval
    exact Wires.set_of_ne _ _ hne

theorem evaluateGates_of_ne {gates : List GateM} {wires wires' : Wires K} {t : TypeId} {w : ℕ}
    (heval : evaluateGates gates wires = some wires')
    (hne : ∀ g ∈ gates, (g.typeId, g.outWire) ≠ (t, w)) : wires' t w = wires t w := by
  induction gates generalizing wires with
  | nil =>
    simp only [evaluateGates, List.foldlM_nil, Option.pure_def, Option.some.injEq] at heval
    rw [heval]
  | cons g gates ih =>
    rw [evaluateGates, List.foldlM_cons, Option.bind_eq_bind, Option.bind_eq_some_iff] at heval
    obtain ⟨next, hfirst, hrest⟩ := heval
    rw [ih hrest fun g' hg' => hne g' (List.mem_cons_of_mem _ hg'),
      evaluateGate_of_ne hfirst (hne g List.mem_cons_self)]

/-- Before any gate of a successful evaluation, a wire that no gate sets has its first value. -/
theorem evaluateGates_before {gates : List GateM} {wires last : Wires K} {g : GateM}
    (heval : evaluateGates gates wires = some last) (hg : g ∈ gates) :
    ∃ before after, evaluateGate before g = some after ∧
      ∀ t w, (∀ g' ∈ gates, (g'.typeId, g'.outWire) ≠ (t, w)) → before t w = wires t w := by
  obtain ⟨front, back, rfl⟩ := List.append_of_mem hg
  rw [evaluateGates_append, Option.bind_eq_some_iff] at heval
  obtain ⟨before, hfront, hback⟩ := heval
  rw [evaluateGates, List.foldlM_cons, Option.bind_eq_bind, Option.bind_eq_some_iff] at hback
  obtain ⟨after, hafter, -⟩ := hback
  exact ⟨before, after, hafter, fun t w hne =>
    evaluateGates_of_ne hfront fun g' hg' => hne g' (List.mem_append_left _ hg')⟩

/-- Gates that set distinct wires, each to a value that the other gates don't change, set them all
and no other wire. -/
theorem evaluateGates_map {t : TypeId} (gate : ℕ → GateM) {dst : ℕ → ℕ}
    (hdst : Function.Injective dst) (v : ℕ → K t) (js : List ℕ) (wires : Wires K)
    (hgate : ∀ j ∈ js, ∀ wires' : Wires K,
      (∀ ty w, (∀ i ∈ js, (t, dst i) ≠ (ty, w)) → wires' ty w = wires ty w) →
      evaluateGate wires' (gate j) = some (wires'.set t (dst j) (v j))) :
    ∃ wires', evaluateGates (js.map gate) wires = some wires' ∧
      (∀ j ∈ js, wires' t (dst j) = some (v j)) ∧
      ∀ ty w, (∀ i ∈ js, (t, dst i) ≠ (ty, w)) → wires' ty w = wires ty w := by
  induction js generalizing wires with
  | nil => exact ⟨wires, rfl, by simp, fun _ _ _ => rfl⟩
  | cons j js ih =>
    have hfirst := hgate j List.mem_cons_self wires fun _ _ _ => rfl
    obtain ⟨last, heval, hset, hkeep⟩ := ih (wires.set t (dst j) (v j))
      fun i hi wires' hagree => hgate i (List.mem_cons_of_mem _ hi) wires' fun ty w hne => by
        rw [hagree ty w fun k hk => hne k (List.mem_cons_of_mem _ hk),
          Wires.set_of_ne _ _ (hne j List.mem_cons_self)]
    refine ⟨last, ?_, fun i hi => ?_, fun ty w hne => ?_⟩
    · rw [evaluateGates, List.map_cons, List.foldlM_cons, hfirst]
      exact heval
    · by_cases hmem : i ∈ js
      · exact hset i hmem
      · -- only the first gate sets this wire
        have hij : i = j := (List.mem_cons.1 hi).resolve_right hmem
        rw [hij] at hmem ⊢
        have hne : ∀ k ∈ js, (t, dst k) ≠ (t, dst j) := fun k hk heq =>
          hmem (hdst (Prod.mk.inj heq).2 ▸ hk)
        rw [hkeep t (dst j) hne, Wires.set_self]
    · rw [hkeep ty w fun k hk => hne k (List.mem_cons_of_mem _ hk),
        Wires.set_of_ne _ _ (hne j List.mem_cons_self)]

end EdaBitGen.Plugins

/-!
# The mux plugin

The condition is one wire and the two branches are the halves of the other inputs.  Each wire of
the first branch is multiplied by the complement of the condition, each wire of the second by the
condition, and the products are added.  The complement is the condition plus one.
-/

namespace EdaBitGen.Plugins

inductive PluginError
  | error (message : String)
  | panic
deriving DecidableEq

/-- `counts[i]`, which panics when it is out of bounds. -/
def index (counts : List (TypeId × ℕ)) (i : ℕ) : Except PluginError (TypeId × ℕ) :=
  match counts[i]? with
  | some group => .ok group
  | none => .error .panic

/-- Nothing is answered with an error message, though it may panic. -/
def NoError {α : Type} (x : Except PluginError α) : Prop := ∀ message, x ≠ .error (.error message)

theorem NoError.bind {α β : Type} {x : Except PluginError α} {f : α → Except PluginError β}
    (hx : NoError x) (hf : ∀ a, NoError (f a)) : NoError (x >>= f) := by
  cases x with
  | error e => exact fun message heq => hx message (congrArg Except.error (Except.error.inj heq))
  | ok a => exact hf a

theorem noError_ok {α : Type} (a : α) : NoError (.ok a) := fun _ heq => nomatch heq

theorem noError_index (counts : List (TypeId × ℕ)) (i : ℕ) : NoError (index counts i) := by
  intro message
  rw [index]
  split <;> simp

/-- What the declaration of a plugin function gives to the plugin. -/
structure Declaration where
  operation : String
  params : List String
  outputCounts : List (TypeId × ℕ)
  inputCounts : List (TypeId × ℕ)

/-- The number of outputs and inputs. -/
def Declaration.count (d : Declaration) : ℕ :=
  d.inputCounts.foldl (fun count group => count + group.2)
    (d.outputCounts.foldl (fun count group => count + group.2) 0)

namespace MuxV0

def name : String := "mux_v0"

/-- A gate for each wire of `middleIndex` groups of inputs, and the number of these wires. -/
def branchGates (inputCounts : List (TypeId × ℕ)) (offset middleIndex : ℕ)
    (gate : TypeId → ℕ → GateM) : Except PluginError (List GateM × ℕ) :=
  (List.range middleIndex).foldlM (fun (gates, pos) i => do
    let (field, howMany) ← index inputCounts (offset + i)
    .ok (gates ++ (List.range howMany).map fun idx => gate field (pos + idx), pos + howMany)) ([], 0)

theorem noError_branchGates (inputCounts : List (TypeId × ℕ)) (offset middleIndex : ℕ)
    (gate : TypeId → ℕ → GateM) : NoError (branchGates inputCounts offset middleIndex gate) := by
  rw [branchGates]
  generalize ([], 0) = acc
  induction List.range middleIndex generalizing acc with
  | nil => exact noError_ok _
  | cons i is ih =>
    rw [List.foldlM_cons]
    exact ((noError_index _ _).bind fun _ => noError_ok _).bind fun _ => ih _

def outputGates (outputCounts : List (TypeId × ℕ)) (callframeSize inputRange : ℕ) :
    List GateM × ℕ :=
  outputCounts.foldl (fun (gates, pos) (field, howMany) =>
    (gates ++ (List.range howMany).map fun idx =>
      .add field (pos + idx) (callframeSize + 1 + pos + idx)
        (callframeSize + 1 + inputRange + pos + idx), pos + howMany)) ([], 0)

def gatesBody (operation : String) (params : List String) (count : ℕ)
    (outputCounts inputCounts : List (TypeId × ℕ)) : Except PluginError (List GateM) := do
  if operation ≠ "strict" then
    .error (.error (name ++ ": Implementation only handles strict permissiveness: " ++ operation))
  else if params.length ≠ 0 then
    .error (.error (name ++ ": Invalid number of params (must be zero): " ++ toString params.length))
  else do
    let (field, _) ← index inputCounts 0
    let callframeSize := count
    let cond := outputCounts.foldl (fun prev group => prev + group.2) 0
    let wireCondNeg := callframeSize
    let middleIndex := inputCounts.length / 2
    let (first, inputRange) ← branchGates inputCounts 1 middleIndex fun field i =>
      .mul field (callframeSize + 1 + i) wireCondNeg (cond + 1 + i)
    let (second, _) ← branchGates inputCounts (1 + middleIndex) middleIndex fun field i =>
      .mul field (callframeSize + 1 + inputRange + i) cond (cond + 1 + inputRange + i)
    -- the constant is the one of `F2` whatever the field
    .ok (.addConstant field wireCondNeg cond [1] :: (first ++ second ++
      (outputGates outputCounts callframeSize inputRange).1))

end MuxV0

/-! ## What a mux is for -/

/-- The wires of groups that are numbered one after the other. -/
def numberedFrom : ℕ → List (TypeId × ℕ) → List (TypeId × ℕ)
  | _, [] => []
  | start, (t, n) :: groups => (List.range' start n).map (t, ·) ++ numberedFrom (start + n) groups

def total (groups : List (TypeId × ℕ)) : ℕ := (groups.map (·.2)).sum

namespace Declaration

variable {K : TypeId → Type} [∀ t, CommRing (K t)]

def outputs (d : Declaration) : List (TypeId × ℕ) := numberedFrom 0 d.outputCounts

def inputs (d : Declaration) : List (TypeId × ℕ) := numberedFrom (total d.outputCounts) d.inputCounts

/-- The wires of a call, of which the inputs alone are set. -/
def callframe (d : Declaration) (values : ∀ t, ℕ → K t) : Wires K := fun t w =>
  if (t, w) ∈ d.inputs then some (values t w) else none

def gates (d : Declaration) : Except PluginError (List GateM) :=
  MuxV0.gatesBody d.operation d.params d.count d.outputCounts d.inputCounts

/-- A condition of one wire and two branches that match the outputs. -/
structure IsMux (d : Declaration) (c : TypeId) : Prop where
  operation : d.operation = "strict"
  params : d.params = []
  inputCounts : d.inputCounts = (c, 1) :: (d.outputCounts ++ d.outputCounts)

/-- The gates leave the inputs alone, and for every assignment they read wires that are set and
give each output the wire of the branch that the condition names. -/
def Selects (K : TypeId → Type) [∀ t, CommRing (K t)] (d : Declaration) (c : TypeId) : Prop :=
  ∃ gates, d.gates = .ok gates ∧ (∀ g ∈ gates, (g.typeId, g.outWire) ∉ d.inputs) ∧
    ∀ values : ∀ t, ℕ → K t,
      values c (total d.outputCounts) = 0 ∨ values c (total d.outputCounts) = 1 →
      ∃ last, evaluateGates gates (d.callframe values) = some last ∧
        ∀ t w, (t, w) ∈ d.outputs →
          (values c (total d.outputCounts) = 0 →
            last t w = some (values t (total d.outputCounts + 1 + w))) ∧
          (values c (total d.outputCounts) = 1 →
            last t w = some (values t (total d.outputCounts + 1 + total d.outputCounts + w)))

/-- A declaration of a mux is evaluated as one, and every other declaration is an error. -/
def Correct (K : TypeId → Type) [∀ t, CommRing (K t)] (d : Declaration) : Prop :=
  (∀ c, d.IsMux c → d.Selects K c) ∧
    ((¬ ∃ c, d.IsMux c) → ∃ message, d.gates = .error (.error message))

end Declaration

/-! ## Numbering -/

@[simp] theorem total_nil : total [] = 0 := rfl

@[simp] theorem total_cons (g : TypeId × ℕ) (groups : List (TypeId × ℕ)) :
    total (g :: groups) = g.2 + total groups := by
  simp [total]

@[simp] theorem total_append (groups groups' : List (TypeId × ℕ)) :
    total (groups ++ groups') = total groups + total groups' := by
  simp [total]

theorem foldl_count (groups : List (TypeId × ℕ)) (count : ℕ) :
    groups.foldl (fun count group => count + group.2) count = count + total groups := by
  induction groups generalizing count with
  | nil => rfl
  | cons g groups ih => rw [List.foldl_cons, ih, total_cons, Nat.add_assoc]

theorem Declaration.count_eq (d : Declaration) :
    d.count = total d.outputCounts + total d.inputCounts := by
  rw [count, foldl_count, foldl_count, Nat.zero_add]

theorem numberedFrom_append (start : ℕ) (groups groups' : List (TypeId × ℕ)) :
    numberedFrom start (groups ++ groups') =
      numberedFrom start groups ++ numberedFrom (start + total groups) groups' := by
  induction groups generalizing start with
  | nil => rfl
  | cons g groups ih =>
    rw [List.cons_append, numberedFrom, ih, numberedFrom, total_cons, List.append_assoc,
      Nat.add_assoc]

theorem bounds_of_mem {start w : ℕ} {t : TypeId} {groups : List (TypeId × ℕ)}
    (hmem : (t, w) ∈ numberedFrom start groups) : start ≤ w ∧ w < start + total groups := by
  induction groups generalizing start with
  | nil => exact absurd hmem List.not_mem_nil
  | cons g groups ih =>
    rw [numberedFrom, List.mem_append] at hmem
    rw [total_cons]
    rcases hmem with hmem | hmem
    · obtain ⟨i, hi, heq⟩ := List.mem_map.1 hmem
      rw [List.mem_range'_1] at hi
      have hw : i = w := (Prod.mk.inj heq).2
      omega
    · have := ih hmem
      omega

theorem exists_mem_numberedFrom {g : TypeId × ℕ} {groups : List (TypeId × ℕ)} (hg : g ∈ groups)
    (hpos : g.2 ≠ 0) (start : ℕ) : ∃ w, (g.1, w) ∈ numberedFrom start groups := by
  induction groups generalizing start with
  | nil => exact absurd hg List.not_mem_nil
  | cons g' groups ih =>
    rcases List.mem_cons.1 hg with rfl | hg
    · exact ⟨start, List.mem_append_left _
        (List.mem_map.2 ⟨start, List.mem_range'_1.2 ⟨le_rfl, by omega⟩, rfl⟩)⟩
    · obtain ⟨w, hw⟩ := ih hg (start + g'.2)
      exact ⟨w, List.mem_append_right _ hw⟩

theorem numberedFrom_eq {c : TypeId} {groups : List (TypeId × ℕ)}
    (htype : ∀ g ∈ groups, g.2 ≠ 0 → g.1 = c) (start : ℕ) :
    numberedFrom start groups = (List.range' start (total groups)).map (c, ·) := by
  induction groups generalizing start with
  | nil => rfl
  | cons g groups ih =>
    rw [numberedFrom, ih (fun g' hg' => htype g' (List.mem_cons_of_mem _ hg')), total_cons,
      ← List.range'_append_1, List.map_append]
    by_cases hzero : g.2 = 0
    · rw [hzero]
      rfl
    · rw [htype g List.mem_cons_self hzero]

/-! ## The gates of a mux -/

namespace MuxV0

theorem branchGates_eq {inputCounts groups : List (TypeId × ℕ)} {offset : ℕ}
    (hget : ∀ i < groups.length, inputCounts[offset + i]? = groups[i]?) (gate : TypeId → ℕ → GateM) :
    branchGates inputCounts offset groups.length gate =
      .ok ((numberedFrom 0 groups).map fun g => gate g.1 g.2, total groups) := by
  -- the first `m` steps have read the first `m` groups
  suffices h : ∀ m ≤ groups.length, branchGates inputCounts offset m gate =
      .ok ((numberedFrom 0 (groups.take m)).map fun g => gate g.1 g.2, total (groups.take m)) by
    rw [h _ le_rfl, List.take_length]
  intro m hm
  induction m with
  | zero => rfl
  | succ m ih =>
    obtain ⟨g, hg⟩ : ∃ g, groups[m]? = some g := ⟨_, List.getElem?_eq_getElem hm⟩
    have hindex : index inputCounts (offset + m) = .ok g := by
      rw [index, hget m hm, hg]
    have hfirst := ih (by omega)
    rw [branchGates] at hfirst
    rw [branchGates, List.range_succ, List.foldlM_append, hfirst, List.take_add_one, hg,
      Option.toList_some, numberedFrom_append, total_append]
    simp [hindex, numberedFrom, List.range'_eq_map_range, bind, Except.bind, pure,
      Except.pure, Function.comp_def]

theorem outputGates_eq (outputCounts : List (TypeId × ℕ)) (callframeSize inputRange : ℕ) :
    (outputGates outputCounts callframeSize inputRange).1 =
      (numberedFrom 0 outputCounts).map fun g => .add g.1 g.2 (callframeSize + 1 + g.2)
        (callframeSize + 1 + inputRange + g.2) := by
  suffices h : ∀ gates pos, (outputCounts.foldl (fun (gates, pos) (field, howMany) =>
      (gates ++ (List.range howMany).map fun idx =>
        GateM.add field (pos + idx) (callframeSize + 1 + pos + idx)
          (callframeSize + 1 + inputRange + pos + idx), pos + howMany)) (gates, pos)).1 =
      gates ++ (numberedFrom pos outputCounts).map fun g => .add g.1 g.2 (callframeSize + 1 + g.2)
        (callframeSize + 1 + inputRange + g.2) from h [] 0
  induction outputCounts with
  | nil => simp [numberedFrom]
  | cons g outputCounts ih =>
    intro gates pos
    rw [List.foldl_cons, ih, numberedFrom, List.map_append, List.append_assoc,
      List.range'_eq_map_range]
    simp [Function.comp_def, Nat.add_assoc]

/-- The products with the complement, the products with the condition, and their sums, for the
wires `ws` of a branch of `n` wires. -/
def muxGates (c : TypeId) (n : ℕ) (ws : List (TypeId × ℕ)) : List GateM :=
  .addConstant c (3 * n + 1) n [1] ::
    (ws.map (fun g => .mul g.1 (3 * n + 2 + g.2) (3 * n + 1) (n + 1 + g.2)) ++
      ws.map (fun g => .mul g.1 (4 * n + 2 + g.2) n (2 * n + 1 + g.2)) ++
      ws.map fun g => .add g.1 g.2 (3 * n + 2 + g.2) (4 * n + 2 + g.2))

end MuxV0

namespace Declaration

variable {d : Declaration} {c : TypeId}

theorem IsMux.total_inputCounts (hd : d.IsMux c) :
    total d.inputCounts = 2 * total d.outputCounts + 1 := by
  rw [hd.inputCounts, total_cons, total_append]
  omega

theorem IsMux.gates_eq (hd : d.IsMux c) :
    d.gates = .ok (MuxV0.muxGates c (total d.outputCounts) d.outputs) := by
  have hcount : d.count = 3 * total d.outputCounts + 1 := by
    rw [count_eq, hd.total_inputCounts]
    omega
  have hmiddle : d.inputCounts.length / 2 = d.outputCounts.length := by
    rw [hd.inputCounts, List.length_cons, List.length_append]
    omega
  have hindex : index d.inputCounts 0 = .ok (c, 1) := by
    rw [index, hd.inputCounts]
    rfl
  have hfirst : ∀ i < d.outputCounts.length, d.inputCounts[1 + i]? = d.outputCounts[i]? := by
    intro i hi
    rw [hd.inputCounts, Nat.add_comm, List.getElem?_cons_succ, List.getElem?_append_left hi]
  have hsecond : ∀ i < d.outputCounts.length,
      d.inputCounts[1 + d.outputCounts.length + i]? = d.outputCounts[i]? := by
    intro i hi
    rw [hd.inputCounts, Nat.add_assoc, Nat.add_comm, List.getElem?_cons_succ,
      List.getElem?_append_right (Nat.le_add_right _ _), Nat.add_sub_cancel_left]
  have hcond := foldl_count d.outputCounts 0
  rw [Nat.zero_add] at hcond
  simp only [gates, MuxV0.gatesBody, hd.operation, hd.params, ne_eq, not_true_eq_false, if_false,
    List.length_nil, hindex, hmiddle, hcond, hcount, MuxV0.branchGates_eq hfirst,
    MuxV0.branchGates_eq hsecond, MuxV0.outputGates_eq, bind, Except.bind, MuxV0.muxGates, outputs]
  ring_nf

end Declaration

end EdaBitGen.Plugins
