import EdaBitGen.Data.Returns
import EdaBitGen.MacNCheese.WireFormat

/-!
# Writing and reading wires

Both formats are read back as they were written. The writer's bounds are those that the runner
checks: it counts the own wires that the runner will have produced.
-/

namespace EdaBitGen.MacNCheese.WireFormat

/-! ## Wires -/

namespace Wire

theorem whichWire_ownWire (idx : WireSize) : (ownWire idx).whichWire = idx := by
  unfold ownWire whichWire
  ext k hk
  simp

theorem whichInput_ownWire (idx : WireSize) : (ownWire idx).whichInput = none := by
  have hbit : ((((ownWire idx) >>> 32).setWidth 32 >>> 31 : BitVec 32)).getLsbD 0 = true := by
    simp [ownWire]
  refine if_neg fun h => ?_
  rw [h] at hbit
  cases hbit

theorem whichWire_inputWire {whichInput whichWire : WireSize} {wire : Wire}
    (h : inputWire whichInput whichWire = some wire) :
    wire.whichInput = some whichInput ∧ wire.whichWire = whichWire := by
  unfold inputWire at h
  split at h
  · cases h
  · next hhigh =>
    obtain rfl := Option.some.inj h
    have hinput : (((whichInput.setWidth 64 <<< 32) ||| whichWire.setWidth 64) >>> 32).setWidth 32 =
        whichInput := by
      ext k hk
      have hk' : 32 + k < 64 := by omega
      simp [hk, hk', BitVec.getLsbD_eq_getElem]
    refine ⟨?_, ?_⟩
    · unfold Wire.whichInput
      dsimp only
      rw [hinput, if_pos (not_not.1 hhigh)]
    · unfold Wire.whichWire
      ext k hk
      simp

/-- The input that a wire is read from: the index after the last input for an own wire. -/
def input (inputSizes : List WireSize) (wire : Wire) : WireSize :=
  wire.whichInput.getD (BitVec.ofNat 32 inputSizes.length)

end Wire

theorem fromLeBytes_toLeBytes (x : BitVec 32) : fromLeBytes (toLeBytes x) = x := by
  show x.extractLsb' 24 8 ++ x.extractLsb' 16 8 ++ x.extractLsb' 8 8 ++ x.extractLsb' 0 8 = x
  ext k hk
  simp only [BitVec.getElem_append, BitVec.getElem_extractLsb']
  split_ifs with h0 h1 h2
  · simp [BitVec.getLsbD_eq_getElem hk]
  · rw [(by omega : 8 + (k - 8) = k), BitVec.getLsbD_eq_getElem hk]
  · rw [(by omega : 16 + (k - 8 - 8) = k), BitVec.getLsbD_eq_getElem hk]
  · rw [(by omega : 24 + (k - 8 - 8 - 8) = k), BitVec.getLsbD_eq_getElem hk]

/-! ## Places -/

namespace Writer

theorem place_eq {w : Writer} {wire : Wire} {p : WireSize × WireSize} (h : w.place wire = some p) :
    p = (wire.input w.inputSizes, wire.whichWire) ∧
      (∀ idx, wire.whichInput = some idx →
        ∃ size, w.inputSizes[idx.toNat]? = some size ∧ wire.whichWire < size) ∧
      (wire.whichInput = none → wire.whichWire < w.ownWires) := by
  unfold place at h
  unfold Wire.input
  cases hinput : wire.whichInput with
  | some idx =>
    rw [hinput] at h
    cases hsize : w.inputSizes[idx.toNat]? with
    | none => simp [hsize] at h
    | some size =>
      simp only [hsize, Option.bind_eq_bind, Option.bind_some, Option.pure_def] at h
      split at h
      · next hww =>
        refine ⟨(Option.some.inj h).symm, fun i hi => ?_, nofun⟩
        obtain rfl := Option.some.inj hi
        exact ⟨size, hsize, hww⟩
      · cases h
  | none =>
    rw [hinput] at h
    simp only [Option.bind_eq_bind, Option.bind_some, Option.pure_def] at h
    split at h
    · next hww => exact ⟨(Option.some.inj h).symm, nofun, fun _ => hww⟩
    · cases h

theorem inBounds_place {w : Writer} {wire : Wire} {p : WireSize × WireSize}
    (h : w.place wire = some p) (hfew : w.inputSizes.length < 2 ^ 32) :
    inBounds (w.inputSizes.map BitVec.toNat ++ [w.ownWires.toNat]) p.1 p.2 := by
  obtain ⟨rfl, hidx, hown⟩ := place_eq h
  unfold inBounds Wire.input
  cases hinput : wire.whichInput with
  | some idx =>
    obtain ⟨size, hsize, hww⟩ := hidx idx hinput
    have hlt := (List.getElem?_eq_some_iff.1 hsize).1
    dsimp only [Option.getD_some]
    rw [List.getElem?_append_left (by rwa [List.length_map]), List.getElem?_map, hsize]
    exact decide_eq_true hww
  | none =>
    have hlen : (BitVec.ofNat 32 w.inputSizes.length).toNat = w.inputSizes.length := by
      rw [BitVec.toNat_ofNat, Nat.mod_eq_of_lt hfew]
    dsimp only [Option.getD_none]
    rw [hlen, List.getElem?_append_right (by rw [List.length_map]), List.length_map, Nat.sub_self]
    exact decide_eq_true (hown hinput)

end Writer

theorem mapM_eq_map {α β : Type} {f : α → Option β} {g : α → β} {P : α → Prop} {xs : List α}
    {ys : List β} (hf : ∀ x y, f x = some y → y = g x ∧ P x) (h : xs.mapM f = some ys) :
    ys = xs.map g ∧ ∀ x ∈ xs, P x := by
  induction xs generalizing ys with
  | nil =>
    obtain rfl := Option.some.inj (show some [] = some ys by simpa using h)
    exact ⟨rfl, nofun⟩
  | cons x xs ih =>
    rw [List.mapM_cons] at h
    obtain ⟨y, hy, h⟩ := Option.bind_eq_some_iff.1 h
    obtain ⟨ys', hys, h⟩ := Option.bind_eq_some_iff.1 h
    obtain rfl := Option.some.inj h
    obtain ⟨rfl, hx⟩ := hf x y hy
    obtain ⟨rfl, hxs⟩ := ih hys
    exact ⟨rfl, List.forall_mem_cons.2 ⟨hx, hxs⟩⟩

theorem Writer.addOwnWires_eq {w w' : Writer} {delta : WireSize}
    (h : w.addOwnWires delta = some w') :
    w' = { w with ownWires := w.ownWires + delta } ∧ w.supportsOwnWires = .producesValues ∧
      w'.ownWires.toNat = w.ownWires.toNat + delta.toNat := by
  unfold Writer.addOwnWires at h
  cases hsupports : w.supportsOwnWires with
  | onlyConsumes => simp [hsupports] at h
  | producesValues =>
    simp only [hsupports] at h
    split at h
    · next hlt =>
      obtain rfl := Option.some.inj h
      refine ⟨rfl, rfl, ?_⟩
      rw [BitVec.toNat_add, Nat.mod_eq_of_lt hlt]
    · cases h

theorem Writer.gateDone_eq {w w' : Writer} {delta : WireSize} (h : w.gateDone delta = some w') :
    w'.inputSizes = w.inputSizes ∧ w'.supportsOwnWires = w.supportsOwnWires ∧
      w'.written = w.written ∧
      w'.ownWires.toNat = w.ownWires.toNat + delta.toNat * w.supportsOwnWires.outputs := by
  unfold Writer.gateDone at h
  cases hsupports : w.supportsOwnWires with
  | producesValues =>
    simp only [hsupports] at h
    obtain ⟨rfl, -, hadd⟩ := Writer.addOwnWires_eq h
    exact ⟨rfl, hsupports, rfl, hadd.trans (congrArg _ (Nat.mul_one _).symm)⟩
  | onlyConsumes =>
    simp only [hsupports] at h
    obtain rfl := Option.some.inj h
    exact ⟨rfl, hsupports, rfl, rfl⟩

/-! ## The simple format -/

namespace Simple

variable {T : Type} (s : CanonicalSerialize T) {nargs : ℕ}

/-- The argument that is read for a written one. -/
def decoded (inputSizes : List WireSize) (arg : Wire × T) : ReadWire T :=
  ⟨arg.1.input inputSizes, arg.1.whichWire, arg.2⟩

def argBytes (inputSizes : List WireSize) (arg : Wire × T) : Bytes :=
  toLeBytes (arg.1.input inputSizes) ++ toLeBytes arg.1.whichWire ++ s.toBytes arg.2

def gateBytes (inputSizes : List WireSize) (gate : Gate nargs T) : Bytes :=
  ((List.ofFn gate).map (argBytes s inputSizes)).flatten

theorem writeArg_eq {w : Writer} {arg : Wire × T} {v : Bytes} (h : writeArg s w arg = some v) :
    v = argBytes s w.inputSizes arg ∧ ∃ p, w.place arg.1 = some p := by
  obtain ⟨p, hp, h⟩ := Option.bind_eq_some_iff.1 h
  obtain ⟨rfl, -⟩ := Writer.place_eq hp
  exact ⟨(Option.some.inj h).symm, _, hp⟩

theorem length_argBytes (inputSizes : List WireSize) (arg : Wire × T) :
    (argBytes s inputSizes arg).length = argStride s := by
  rw [argBytes, List.length_append, List.length_append, s.length_toBytes]
  rfl

theorem readArg_argBytes (inputSizes : List WireSize) (arg : Wire × T) :
    readArg s (argBytes s inputSizes arg) = some (decoded inputSizes arg) := by
  have hdata : (argBytes s inputSizes arg).drop 8 = s.toBytes arg.2 := by
    rw [argBytes]
    exact List.drop_left' rfl
  have hwire : ((argBytes s inputSizes arg).drop 4).take 4 = toLeBytes arg.1.whichWire := rfl
  have hinput : (argBytes s inputSizes arg).take 4 = toLeBytes (arg.1.input inputSizes) := rfl
  rw [readArg, hdata, s.fromBytes_toBytes, hwire, hinput, fromLeBytes_toLeBytes,
    fromLeBytes_toLeBytes]
  rfl

theorem length_gateBytes (inputSizes : List WireSize) (gate : Gate nargs T) :
    (gateBytes s inputSizes gate).length = stride s nargs := by
  have hargs : ∀ v ∈ (List.ofFn gate).map (argBytes s inputSizes), v.length = argStride s :=
    List.forall_mem_map.2 fun arg _ => length_argBytes s inputSizes arg
  rw [gateBytes, List.length_flatten, List.map_congr_left hargs, List.map_const',
    List.sum_replicate_nat, List.length_map, List.length_ofFn, Nat.mul_comm]
  rfl

theorem read_gateBytes (hnargs : 0 < nargs) (inputSizes : List WireSize)
    (gates : List (Gate nargs T)) :
    read s nargs (gates.map (gateBytes s inputSizes)).flatten =
      some (gates.map fun gate => (List.ofFn gate).map (decoded inputSizes)) := by
  have hstride : 0 < stride s nargs := by
    have hpos : 0 < argStride s := by
      unfold argStride
      omega
    exact Nat.mul_pos hpos hnargs
  have hgates : ∀ v ∈ gates.map (gateBytes s inputSizes), v.length = stride s nargs :=
    List.forall_mem_map.2 fun gate _ => length_gateBytes s inputSizes gate
  have hlen : (gates.map (gateBytes s inputSizes)).flatten.length % stride s nargs = 0 := by
    rw [List.length_flatten, List.map_congr_left hgates, List.map_const',
      List.sum_replicate_nat, Nat.mul_mod_left]
  rw [read, if_neg (not_not.2 hlen), Chunks.exact_flatten hstride hgates, List.mapM_map]
  refine Traversal.mapM_some _ fun gate _ => ?_
  unfold readGate
  have hargs : ∀ v ∈ (List.ofFn gate).map (argBytes s inputSizes), v.length = argStride s :=
    List.forall_mem_map.2 fun arg _ => length_argBytes s inputSizes arg
  have hstride : 0 < argStride s := by
    unfold argStride
    omega
  show (Chunks.exact (argStride s)
    ((List.ofFn gate).map (argBytes s inputSizes)).flatten).mapM _ = _
  rw [Chunks.exact_flatten hstride hargs, List.mapM_map]
  exact Traversal.mapM_some _ fun arg _ => readArg_argBytes s inputSizes arg

theorem writeGates_eq {w w' : Writer} {gates : List (Gate nargs T)}
    (h : writeGates s w gates = some w') (hfew : w.inputSizes.length < 2 ^ 32) :
    w'.written = w.written ++ (gates.map (gateBytes s w.inputSizes)).flatten ∧
      checkGates (w.inputSizes.map BitVec.toNat) w.supportsOwnWires.outputs w.ownWires.toNat
        (gates.map fun gate => (List.ofFn gate).map fun arg =>
          (arg.1.input w.inputSizes, arg.1.whichWire)) := by
  induction gates generalizing w with
  | nil =>
    obtain rfl := Option.some.inj h
    exact ⟨(List.append_nil _).symm, rfl⟩
  | cons gate gates ih =>
    obtain ⟨w₁, hwires, h⟩ := Option.bind_eq_some_iff.1 h
    obtain ⟨w₂, hown, hgates⟩ := Option.bind_eq_some_iff.1 h
    obtain ⟨buf, hbuf, hw₁⟩ := Option.bind_eq_some_iff.1 hwires
    obtain rfl := Option.some.inj hw₁
    obtain ⟨rfl, hplaces⟩ := mapM_eq_map (fun arg v => writeArg_eq s) hbuf
    obtain ⟨hsizes, hsupports, hwritten, hownWires⟩ := Writer.gateDone_eq hown
    have hw₂ : w₂.written = w.written ++ gateBytes s w.inputSizes gate := hwritten
    have hsizes₂ : w₂.inputSizes = w.inputSizes := hsizes
    have hsupports₂ : w₂.supportsOwnWires = w.supportsOwnWires := hsupports
    obtain ⟨hrest, hcheck⟩ := ih hgates (by rwa [hsizes₂])
    have hown₂ : w₂.ownWires.toNat = w.ownWires.toNat + w.supportsOwnWires.outputs :=
      hownWires.trans (congrArg _ (Nat.one_mul _))
    rw [hsizes₂, hsupports₂, hown₂] at hcheck
    rw [hsizes₂, hw₂] at hrest
    refine ⟨?_, ?_⟩
    · rw [hrest, List.map_cons, List.flatten_cons, List.append_assoc]
    · rw [List.map_cons, checkGates, hcheck, Bool.and_true, List.all_map, List.all_eq_true]
      intro arg harg
      obtain ⟨p, hp⟩ := hplaces arg harg
      have hin := Writer.inBounds_place hp hfew
      rwa [(Writer.place_eq hp).1] at hin

end Simple

/-! ## The batched format -/

namespace SimdBatched

variable {nargs : ℕ}

/-- The argument that is read for those of four gates. -/
def decoded (inputSizes : List WireSize) (inputs : Gates nargs) (arg : Fin nargs) : ReadWire :=
  ⟨List.ofFn fun i => (inputs i arg).input inputSizes, List.ofFn fun i => (inputs i arg).whichWire⟩

def argVectors (inputSizes : List WireSize) (inputs : Gates nargs) (arg : Fin nargs) : List U32x4 :=
  [(decoded inputSizes inputs arg).whichInput, (decoded inputSizes inputs arg).whichWire]

def gateVectors (inputSizes : List WireSize) (inputs : Gates nargs) : List U32x4 :=
  ((List.finRange nargs).map (argVectors inputSizes inputs)).flatten

def vectorBytes (vectors : List U32x4) : Bytes := vectors.flatten.flatMap toLeBytes

theorem writeArg_eq {w : Writer} {inputs : Gates nargs} {arg : Fin nargs} {v : List (BitVec 32)}
    (h : writeArg w inputs arg = some v) :
    v = (argVectors w.inputSizes inputs arg).flatten ∧
      ∀ i, ∃ p, w.place (inputs i arg) = some p := by
  obtain ⟨places, hplaces, h⟩ := Option.bind_eq_some_iff.1 h
  obtain rfl := Option.some.inj h
  obtain ⟨rfl, hall⟩ := mapM_eq_map
    (P := fun wire => ∃ p, w.place wire = some p)
    (g := fun wire : Wire => (wire.input w.inputSizes, wire.whichWire))
    (fun wire p hp => ⟨(Writer.place_eq hp).1, p, hp⟩) hplaces
  refine ⟨?_, fun i => hall _ (List.mem_ofFn.2 ⟨i, rfl⟩)⟩
  rw [List.map_map, List.map_map, List.map_ofFn, List.map_ofFn, argVectors, List.flatten_cons,
    List.flatten_cons, List.flatten_nil, List.append_nil]
  rfl

theorem length_of_mem_gateVectors {inputSizes : List WireSize} {inputs : Gates nargs} {v : U32x4}
    (h : v ∈ gateVectors inputSizes inputs) : v.length = 4 := by
  obtain ⟨l, hl, hv⟩ := List.mem_flatten.1 h
  obtain ⟨arg, -, rfl⟩ := List.mem_map.1 hl
  rcases List.mem_cons.1 hv with rfl | hv
  · exact List.length_ofFn
  · obtain rfl := List.mem_singleton.1 hv
    exact List.length_ofFn

theorem length_gateVectors (inputSizes : List WireSize) (inputs : Gates nargs) :
    (gateVectors inputSizes inputs).length = nargs * 2 := by
  have hargs : ∀ l ∈ (List.finRange nargs).map (argVectors inputSizes inputs), l.length = 2 :=
    List.forall_mem_map.2 fun arg _ => rfl
  rw [gateVectors, List.length_flatten, List.map_congr_left hargs, List.map_const',
    List.sum_replicate_nat, List.length_map, List.length_finRange]

theorem castSlice_vectorBytes {vectors : List U32x4} (h : ∀ v ∈ vectors, v.length = 4) :
    castSlice (vectorBytes vectors) = some vectors := by
  have hwords : ∀ v ∈ vectors.flatten.map toLeBytes, v.length = 4 :=
    List.forall_mem_map.2 fun x _ => rfl
  have hlen : (vectorBytes vectors).length = vectors.length * 4 * 4 := by
    rw [vectorBytes, List.flatMap_def, List.length_flatten, List.map_congr_left hwords,
      List.map_const', List.sum_replicate_nat, List.length_map, List.length_flatten,
      List.map_congr_left h, List.map_const', List.sum_replicate_nat]
  have hread : (vectors.flatten.map toLeBytes).map fromLeBytes = vectors.flatten := by
    have hid : fromLeBytes ∘ toLeBytes = id := funext fromLeBytes_toLeBytes
    rw [List.map_map, hid, List.map_id]
  rw [castSlice, if_neg (by omega), vectorBytes, List.flatMap_def,
    Chunks.exact_flatten (by omega) hwords, hread, Chunks.exact_flatten (by omega) h]

theorem read_gateVectors (hnargs : 0 < nargs) (inputSizes : List WireSize)
    (gates : List (Gates nargs)) :
    read nargs (gates.map (gateVectors inputSizes)).flatten =
      some (gates.map fun inputs => (List.finRange nargs).map (decoded inputSizes inputs)) := by
  have hgates : ∀ v ∈ gates.map (gateVectors inputSizes), v.length = nargs * 2 :=
    List.forall_mem_map.2 fun inputs _ => length_gateVectors inputSizes inputs
  have hlen : (gates.map (gateVectors inputSizes)).flatten.length % (2 * nargs) = 0 := by
    rw [List.length_flatten, List.map_congr_left hgates, List.map_const', List.sum_replicate_nat,
      Nat.mul_comm nargs 2, Nat.mul_mod_left]
  rw [read, if_neg (not_not.2 hlen), Chunks.exact_flatten (by omega) hgates, List.map_map]
  refine congrArg some (List.map_congr_left fun inputs _ => ?_)
  have hargs : ∀ l ∈ (List.finRange nargs).map (argVectors inputSizes inputs), l.length = 2 :=
    List.forall_mem_map.2 fun arg _ => rfl
  have hget := Chunks.getElem?_flatten (by omega) hargs
  apply List.ext_getElem
  · simp
  · intro i hi hi'
    have hlt : i < nargs := by simpa using hi
    have hfirst := hget (i * 2)
    have hsecond := hget (i * 2 + 1)
    rw [(by omega : i * 2 / 2 = i), (by omega : i * 2 % 2 = 0)] at hfirst
    rw [(by omega : (i * 2 + 1) / 2 = i), (by omega : (i * 2 + 1) % 2 = 1)] at hsecond
    have harg : ((List.finRange nargs).map (argVectors inputSizes inputs))[i]? =
        some (argVectors inputSizes inputs ⟨i, hlt⟩) := by
      rw [List.getElem?_map, List.getElem?_eq_getElem (by simpa using hlt), List.getElem_finRange]
      rfl
    rw [harg] at hfirst hsecond
    simp only [Function.comp_apply, List.getElem_map, List.getElem_range, List.getElem_finRange,
      List.getD_eq_getElem?_getD]
    rw [gateVectors, hfirst, hsecond]
    rfl

theorem writeGates_eq {w w' : Writer} {gates : List (Gates nargs)}
    (h : writeGates w gates = some w') (hfew : w.inputSizes.length < 2 ^ 32) :
    w'.written = w.written ++ vectorBytes (gates.map (gateVectors w.inputSizes)).flatten ∧
      checkGates (w.inputSizes.map BitVec.toNat) (4 * w.supportsOwnWires.outputs) w.ownWires.toNat
        (gates.map fun inputs => (List.finRange nargs).flatMap fun arg =>
          List.ofFn fun i => ((inputs i arg).input w.inputSizes, (inputs i arg).whichWire)) := by
  induction gates generalizing w with
  | nil =>
    obtain rfl := Option.some.inj h
    exact ⟨(List.append_nil _).symm, rfl⟩
  | cons gate gates ih =>
    obtain ⟨w₁, hwires, h⟩ := Option.bind_eq_some_iff.1 h
    obtain ⟨w₂, hown, hgates⟩ := Option.bind_eq_some_iff.1 h
    obtain ⟨buf, hbuf, hw₁⟩ := Option.bind_eq_some_iff.1 hwires
    obtain rfl := Option.some.inj hw₁
    obtain ⟨rfl, hplaces⟩ := mapM_eq_map (fun arg v => writeArg_eq) hbuf
    obtain ⟨hsizes, hsupports, hwritten, hownWires⟩ := Writer.gateDone_eq hown
    have hw₂ : w₂.written = w.written ++ vectorBytes (gateVectors w.inputSizes gate) := by
      rw [hwritten, vectorBytes, gateVectors, List.flatten_flatten, List.map_map]
      rfl
    have hsizes₂ : w₂.inputSizes = w.inputSizes := hsizes
    have hsupports₂ : w₂.supportsOwnWires = w.supportsOwnWires := hsupports
    have hown₂ : w₂.ownWires.toNat = w.ownWires.toNat + 4 * w.supportsOwnWires.outputs := hownWires
    obtain ⟨hrest, hcheck⟩ := ih hgates (by rwa [hsizes₂])
    rw [hsizes₂, hsupports₂, hown₂] at hcheck
    rw [hsizes₂, hw₂] at hrest
    refine ⟨?_, ?_⟩
    · rw [hrest, List.map_cons, List.flatten_cons, vectorBytes, vectorBytes, vectorBytes,
        List.flatten_append, List.flatMap_append, List.append_assoc]
    · rw [List.map_cons, checkGates, hcheck, Bool.and_true, List.all_eq_true]
      intro access haccess
      obtain ⟨arg, harg, haccess⟩ := List.mem_flatMap.1 haccess
      obtain ⟨i, rfl⟩ := List.mem_ofFn.1 haccess
      obtain ⟨p, hp⟩ := hplaces arg harg i
      have hin := Writer.inBounds_place hp hfew
      rwa [(Writer.place_eq hp).1] at hin

theorem accesses_decoded (inputSizes : List WireSize) (inputs : Gates nargs) :
    accesses ((List.finRange nargs).map (decoded inputSizes inputs)) =
      (List.finRange nargs).flatMap fun arg =>
        List.ofFn fun i => ((inputs i arg).input inputSizes, (inputs i arg).whichWire) := by
  rw [accesses, List.flatMap_map]
  rfl

theorem exists_read (hnargs : 0 < nargs) (inputs : InputSizes) {supportsOwnWires : SupportsOwnWires}
    {gates : List (Gates nargs)} {w : Writer}
    (h : writeGates (.new inputs.sizes supportsOwnWires) gates = some w) :
    (castSlice w.written).bind (read nargs) = some (gates.map fun batch =>
        (List.finRange nargs).map (decoded inputs.sizes batch)) ∧
      checkGates (inputs.sizes.map BitVec.toNat) (4 * supportsOwnWires.outputs) 0
        ((gates.map fun batch => (List.finRange nargs).map (decoded inputs.sizes batch)).map
          accesses) := by
  obtain ⟨hwritten, hcheck⟩ := writeGates_eq h inputs.length_lt
  have hvectors : ∀ v ∈ (gates.map (gateVectors inputs.sizes)).flatten, v.length = 4 := by
    intro v hv
    obtain ⟨l, hl, hv⟩ := List.mem_flatten.1 hv
    obtain ⟨batch, -, rfl⟩ := List.mem_map.1 hl
    exact length_of_mem_gateVectors hv
  refine ⟨?_, ?_⟩
  · rw [hwritten]
    show (castSlice (vectorBytes (gates.map (gateVectors inputs.sizes)).flatten)).bind _ = _
    rw [castSlice_vectorBytes hvectors, Option.bind_some, read_gateVectors hnargs]
  · have haccesses : accesses ∘ (fun batch : Gates nargs =>
        (List.finRange nargs).map (decoded inputs.sizes batch)) = fun batch =>
        (List.finRange nargs).flatMap fun arg => List.ofFn fun i =>
          ((batch i arg).input inputs.sizes, (batch i arg).whichWire) :=
      funext (accesses_decoded inputs.sizes)
    rw [List.map_map, haccesses]
    exact hcheck

theorem mem_assertedTriples {inputSizes : List WireSize} {inputs : Gates 3}
    {triple : List (WireSize × WireSize)} :
    triple ∈ assertedTriples ((List.finRange 3).map (decoded inputSizes inputs)) ↔
      ∃ i, triple = (List.finRange 3).map fun arg =>
        ((inputs i arg).input inputSizes, (inputs i arg).whichWire) := by
  have hlane : ∀ i : Fin 4, (((List.finRange 3).map (decoded inputSizes inputs)).map fun wire =>
      (wire.whichInput.getD i 0, wire.whichWire.getD i 0)) =
      (List.finRange 3).map fun arg =>
        ((inputs i arg).input inputSizes, (inputs i arg).whichWire) := by
    intro i
    have hget : ∀ f : Fin 4 → WireSize, (List.ofFn f).getD i 0 = f i := by
      intro f
      rw [List.getD_eq_getElem?_getD, List.getElem?_ofFn, dif_pos i.isLt]
      rfl
    rw [List.map_map]
    exact List.map_congr_left fun arg _ => Prod.ext
      (hget fun i => (inputs i arg).input inputSizes) (hget fun i => (inputs i arg).whichWire)
  unfold assertedTriples
  rw [List.mem_map]
  constructor
  · rintro ⟨i, hi, rfl⟩
    exact ⟨⟨i, List.mem_range.1 hi⟩, hlane ⟨i, List.mem_range.1 hi⟩⟩
  · rintro ⟨i, rfl⟩
    exact ⟨i, List.mem_range.2 i.isLt, hlane i⟩

end SimdBatched

theorem mem_assertMultiplyBatches (wires : List (Fin 3 → Wire)) (triple : Fin 3 → Wire) :
    (∃ batch ∈ assertMultiplyBatches wires, ∃ i, batch i = triple) ↔ triple ∈ wires := by
  fun_induction assertMultiplyBatches wires with
  | case1 => simp
  | case2 a => simp [Fin.exists_fin_succ, eq_comm]
  | case3 a b => simp [Fin.exists_fin_succ, eq_comm]
  | case4 a b c => simp [Fin.exists_fin_succ, eq_comm]
  | case5 a b c d wires ih =>
    rw [List.exists_mem_cons_iff, ih]
    simp [Fin.exists_fin_succ, eq_comm, or_assoc]

end EdaBitGen.MacNCheese.WireFormat
