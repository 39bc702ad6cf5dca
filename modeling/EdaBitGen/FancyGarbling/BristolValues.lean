import EdaBitGen.FancyGarbling.Bristol

/-!
# What circuit files compute

What the wires of a circuit in a file carry, and on which streams the parser makes a circuit that
computes it.
-/

namespace EdaBitGen.FancyGarbling

/-! ## What the wires carry -/

namespace Instr

def reads : Instr → List ℕ
  | .inv x _ => [x]
  | .gate _ x y _ => [x, y]

def writes : Instr → ℕ
  | .inv _ z => z
  | .gate _ _ _ z => z

/-- The bit of a gate on the bits of the wires. -/
def value (v : ℕ → Bool) : Instr → Bool
  | .inv x _ => !v x
  | .gate .andGate x y _ => v x && v y
  | .gate .xorGate x y _ => v x ^^ v y

def exec (v : ℕ → Bool) (i : Instr) : ℕ → Bool := Function.update v i.writes (i.value v)

/-- Each gate reads wires that carry a bit by then. -/
def Ready (known : ℕ → Prop) : List Instr → Prop
  | [] => True
  | i :: is => (∀ w ∈ i.reads, known w) ∧ Ready (fun w => known w ∨ w = i.writes) is

end Instr

namespace Netlist

/-- The gates are as many as announced, on wires that are announced and carry a bit when they are
read, as the outputs do at the end. -/
structure WellFormed (c : Netlist) : Prop where
  count : c.gates.length = c.header.ngates
  inputs : c.header.n1 + c.header.n2 ≤ c.header.nwires
  outputs : c.header.n3 ≤ c.header.nwires
  below : ∀ i ∈ c.gates, ∀ w ∈ i.writes :: i.reads, w < c.header.nwires
  ready : Instr.Ready (· < c.header.n1 + c.header.n2) c.gates
  computed : ∀ w, c.header.nwires - c.header.n3 ≤ w → w < c.header.nwires →
    w < c.header.n1 + c.header.n2 ∨ ∃ i ∈ c.gates, i.writes = w

/-- The bits of the inputs, on the first wires. -/
def inputWires (g e : List Bool) (w : ℕ) : Bool := (g ++ e).getD w false

/-- The bits of all wires after the gates. -/
def wires (c : Netlist) (g e : List Bool) : ℕ → Bool := c.gates.foldl Instr.exec (inputWires g e)

/-- The bits of the last `n3` wires. -/
def evaluate (c : Netlist) (g e : List Bool) : List Bool :=
  (List.range c.header.n3).map fun i => c.wires g e (c.header.nwires - c.header.n3 + i)

end Netlist

/-- The parser does not panic on a stream and takes it for a circuit only if a well-formed one is
written in it, whose outputs are then what the plaintext evaluation returns. -/
def ParsesCorrectly (nd : Char → Bool) (build : ParserBuild) (bytes : List UInt8) : Prop :=
  BinaryCircuit.parse nd build bytes ≠ .error .panic ∧
    ∀ circ, BinaryCircuit.parse nd build bytes = .ok circ →
      ∃ c : Netlist, c.Written bytes ∧ c.WellFormed ∧
        ∀ g e : List Bool, g.length = c.header.n1 → e.length = c.header.n2 →
          circ.evalPlain (g.map Bool.toNat) (e.map Bool.toNat) =
            .ok ((c.evaluate g e).map Bool.toNat)

/-! ## The cells of the circuit -/

namespace BinaryCircuit

section Cells

variable {known : ℕ → Prop} {v : ℕ → Bool} {cache : List (Option DummyVal)} {G E : List DummyVal}

theorem HoldsBits.mono {known' : ℕ → Prop} (h : HoldsBits known v cache)
    (hknown : ∀ w, known' w → known w) : HoldsBits known' v cache :=
  fun w hw => h w (hknown w hw)

theorem foldlM_inputs (gates : List BinaryGate) {k : ℕ} (h : HoldsBits (· < k) v cache)
    (hgates : ∀ j gate, gates[j]? = some gate → ∀ cache,
      gateOutput G E cache gate = (.ok (none, bitVal (v (k + j))) : Dummy _))
    (hlength : k + gates.length ≤ cache.length) :
    ∃ cache', (gates.zipIdx k).foldlM (evalGate G E) cache = (.ok cache' : Dummy _) ∧
      HoldsBits (· < k + gates.length) v cache' ∧ cache'.length = cache.length := by
  induction gates generalizing k cache with
  | nil => exact ⟨cache, rfl, h, rfl⟩
  | cons gate gates ih =>
    rw [List.length_cons] at hlength
    have hlt : k < cache.length := by omega
    have hstep : (evalGate G E cache (gate, k) : Dummy _) =
        .ok (cache.set k (some (bitVal (v k)))) :=
      (evalGate_eq (hgates 0 gate rfl cache)).trans (if_pos hlt)
    have hset : HoldsBits (· < k + 1) v (cache.set k (some (bitVal (v k)))) := by
      have := h.set hlt (v k)
      rw [Function.update_eq_self] at this
      exact this.mono fun w hw => by omega
    obtain ⟨cache', heval, hbits, hlength'⟩ := ih hset
      (fun j gate' hj cache => by
        rw [Nat.add_assoc, Nat.add_comm 1]
        exact hgates (j + 1) gate' hj cache) (by rw [List.length_set]; omega)
    refine ⟨cache', ?_, hbits.mono fun w hw => ?_, by rw [hlength', List.length_set]⟩
    · rw [List.zipIdx_cons, List.foldlM_cons, hstep, ok_bind, heval]
    · rw [List.length_cons] at hw
      omega

theorem gateOutput_toGate (id : ℕ) {i : Instr} (h : HoldsBits known v cache)
    (hreads : ∀ w ∈ i.reads, known w) :
    gateOutput G E cache (i.toGate id).1 =
      (.ok (some i.writes, bitVal (i.value v)) : Dummy _) := by
  cases i with
  | inv x z =>
    have hx := cached_of_holdsBits (q := 2) h (hreads x List.mem_cons_self)
    rw [Instr.toGate, gateOutput, hx, ok_bind, negate_bitVal]
    rfl
  | gate typ x y z =>
    have hx := cached_of_holdsBits (q := 2) h (hreads x List.mem_cons_self)
    have hy := cached_of_holdsBits (q := 2) h
      (hreads y (List.mem_cons_of_mem _ List.mem_cons_self))
    cases typ with
    | andGate =>
      rw [Instr.toGate, gateOutput, hx, ok_bind, hy, ok_bind, and_bitVal]
      rfl
    | xorGate =>
      rw [Instr.toGate, gateOutput, hx, ok_bind, hy, ok_bind, xor_bitVal]
      rfl

theorem foldlM_toGates {is : List Instr} (id k : ℕ) (h : HoldsBits known v cache)
    (hready : Instr.Ready known is) (hwrites : ∀ i ∈ is, i.writes < cache.length) :
    ∃ cache', ((Instr.toGates id is).zipIdx k).foldlM (evalGate G E) cache =
        (.ok cache' : Dummy _) ∧
      HoldsBits (fun w => known w ∨ ∃ i ∈ is, i.writes = w) (is.foldl Instr.exec v) cache' := by
  induction is generalizing known v cache id k with
  | nil => exact ⟨cache, rfl, h.mono fun w hw => by simpa using hw⟩
  | cons i is ih =>
    have hlt := hwrites i List.mem_cons_self
    have hstep : (evalGate G E cache ((i.toGate id).1, k) : Dummy _) =
        .ok (cache.set i.writes (some (bitVal (i.value v)))) :=
      (evalGate_eq (gateOutput_toGate id h hready.1)).trans (if_pos hlt)
    obtain ⟨cache', heval, hbits⟩ := ih (i.toGate id).2 (k + 1) (h.set hlt (i.value v)) hready.2
      fun j hj => by
        rw [List.length_set]
        exact hwrites j (List.mem_cons_of_mem _ hj)
    refine ⟨cache', ?_, hbits.mono fun w hw => ?_⟩
    · rw [Instr.toGates, List.zipIdx_cons, List.foldlM_cons, hstep, ok_bind, heval]
    · obtain hw | ⟨j, hj, rfl⟩ := hw
      · exact .inl (.inl hw)
      · obtain rfl | hj := List.mem_cons.1 hj
        · exact .inl (.inr rfl)
        · exact .inr ⟨j, hj, rfl⟩

theorem writes_lt_of_foldlM {is : List Instr} {id k : ℕ} {cache' : List (Option DummyVal)}
    (h : ((Instr.toGates id is).zipIdx k).foldlM (evalGate G E) cache = (.ok cache' : Dummy _)) :
    ∀ i ∈ is, i.writes < cache.length := by
  induction is generalizing cache id k with
  | nil => exact nofun
  | cons i is ih =>
    rw [Instr.toGates, List.zipIdx_cons, List.foldlM_cons] at h
    obtain ⟨next, hstep, h⟩ := exists_of_bind h
    obtain ⟨zref, val, hout, hlt, hlength⟩ := exists_of_evalGate hstep
    intro j hj
    obtain rfl | hj := List.mem_cons.1 hj
    · have hzref : zref = some j.writes := by
        cases j with
        | inv x z =>
          obtain ⟨a, -, hout⟩ := exists_of_bind hout
          obtain ⟨b, -, hout⟩ := exists_of_bind hout
          cases hout
          rfl
        | gate typ x y z =>
          cases typ <;>
            obtain ⟨a, -, hout⟩ := exists_of_bind hout <;>
            obtain ⟨b, -, hout⟩ := exists_of_bind hout <;>
            obtain ⟨d, -, hout⟩ := exists_of_bind hout <;>
            cases hout <;> rfl
      rw [hzref] at hlt
      exact hlt
    · rw [← hlength]
      exact ih h j hj

theorem dummyInputs_bits {g : List Bool} {n : ℕ} (hg : g.length = n) (ix : ℕ → ℕ) :
    dummyInputs (g.map Bool.toNat) ((List.range n).map fun j => ⟨ix j, 2⟩) = g.map bitVal := by
  subst hg
  apply List.ext_getElem (by simp [dummyInputs])
  intro j h₁ h₂
  simp [dummyInputs, bitVal]

theorem getElem?_garbler {g : List Bool} (e : List Bool) {j : ℕ} (hj : j < g.length) :
    (g.map bitVal)[j]? = some (bitVal (Netlist.inputWires g e j)) := by
  simp [Netlist.inputWires, List.getElem?_append_left, hj]

theorem getElem?_evaluator (g : List Bool) {e : List Bool} {j : ℕ} (hj : j < e.length) :
    (e.map bitVal)[j]? = some (bitVal (Netlist.inputWires g e (g.length + j))) := by
  simp [Netlist.inputWires, hj]

theorem foldlM_withOutputs {h : Header} {g e : List Bool} (hg : g.length = h.n1)
    (he : e.length = h.n2) {n : ℕ} (hn : h.n1 + h.n2 < n) :
    ∃ cache, (withOutputs h h.n3).gates.zipIdx.foldlM
        (evalGate (g.map bitVal) (e.map bitVal)) (List.replicate n none) =
        (.ok cache : Dummy _) ∧
      HoldsBits (· < h.n1 + h.n2) (Netlist.inputWires g e) cache ∧ cache.length = n := by
  have hlength : (partyInputs h.n1 h.n2).gates.length = h.n1 + h.n2 := by
    simp [partyInputs, garblerInputs]
  have hinputs : ∀ j gate, (partyInputs h.n1 h.n2).gates[j]? = some gate → ∀ cache,
      gateOutput (g.map bitVal) (e.map bitVal) cache gate =
        (.ok (none, bitVal (Netlist.inputWires g e (0 + j))) : Dummy _) := by
    intro j gate hj cache
    rw [Nat.zero_add]
    by_cases hlt : j < h.n1
    · have hgate : gate = .garblerInput j := by
        simpa [partyInputs, garblerInputs, List.getElem?_append_left, hlt] using hj.symm
      rw [hgate, gateOutput, index_eq (getElem?_garbler e (by omega)), ok_bind]
      rfl
    · obtain ⟨d, rfl⟩ := Nat.exists_eq_add_of_le (Nat.not_lt.1 hlt)
      have hj' : ((List.range h.n2).map BinaryGate.evaluatorInput)[d]? = some gate := by
        simpa [partyInputs, garblerInputs, List.getElem?_append_right] using hj
      obtain ⟨i, hi, rfl⟩ := List.mem_map.1 (List.mem_of_getElem? hj')
      have hid : i = d ∧ d < h.n2 := by
        simp [List.getElem?_map, List.getElem?_eq_some_iff] at hj'
        omega
      rw [gateOutput, hid.1, index_eq (getElem?_evaluator g (by omega)), ok_bind, hg]
      rfl
  have hempty : HoldsBits (· < 0) (Netlist.inputWires g e) (List.replicate n none) :=
    fun w hw => absurd hw (Nat.not_lt_zero w)
  obtain ⟨cache, heval, hbits, hcache⟩ := foldlM_inputs (partyInputs h.n1 h.n2).gates hempty hinputs
    (by rw [hlength, List.length_replicate]; omega)
  rw [hlength, Nat.zero_add] at hbits
  rw [List.length_replicate] at hcache
  have hstep : (evalGate (g.map bitVal) (e.map bitVal) cache
      (BinaryGate.constant 1, h.n1 + h.n2) : Dummy _) =
        .ok (cache.set (h.n1 + h.n2) (some ⟨1, 2⟩)) :=
    if_pos (by rw [hcache]; exact hn)
  refine ⟨cache.set (h.n1 + h.n2) (some ⟨1, 2⟩), ?_, fun w hw => ?_, by rw [List.length_set, hcache]⟩
  · rw [withOutputs, List.zipIdx_append, List.foldlM_append, heval, ok_bind, hlength, Nat.zero_add]
    change (evalGate _ _ cache (BinaryGate.constant 1, h.n1 + h.n2) >>= _) = _
    rw [hstep]
    rfl
  · rw [List.getElem?_set_ne (by omega), hbits w hw]

end Cells

end BinaryCircuit

/-! ## Evaluation -/

namespace Netlist

section Evaluation

open BinaryCircuit

variable {c : Netlist} {g e : List Bool}

theorem length_toCircuit (c : Netlist) :
    c.toCircuit.gates.length = c.header.n1 + c.header.n2 + 1 + c.gates.length := by
  rw [toCircuit, List.length_append, length_withOutputs, Instr.length_toGates]

theorem evalPlain_toCircuit (hg : g.length = c.header.n1) (he : e.length = c.header.n2) :
    ∃ cache : List (Option DummyVal), cache.length = c.toCircuit.gates.length ∧
      HoldsBits (· < c.header.n1 + c.header.n2) (inputWires g e) cache ∧
      c.toCircuit.evalPlain (g.map Bool.toNat) (e.map Bool.toNat) =
        (((Instr.toGates 0 c.gates).zipIdx (c.header.n1 + c.header.n2 + 1)).foldlM
            (BinaryCircuit.evalGate (g.map bitVal) (e.map bitVal)) cache >>= fun cache =>
          c.toCircuit.outputRefs.mapM (BinaryCircuit.outputRef cache) >>= fun outputs =>
            unwrap (outputs.mapM id)) := by
  obtain ⟨cache, hstart, hbits, hcache⟩ := foldlM_withOutputs hg he
    (by rw [length_toCircuit]; omega : c.header.n1 + c.header.n2 < c.toCircuit.gates.length)
  have hG : dummyInputs (g.map Bool.toNat) c.toCircuit.garblerInputRefs = g.map bitVal :=
    dummyInputs_bits hg fun j => j
  have hE : dummyInputs (e.map Bool.toNat) c.toCircuit.evaluatorInputRefs = e.map bitVal :=
    dummyInputs_bits he fun j => c.header.n1 + j
  have hgates : c.toCircuit.gates.zipIdx =
      (withOutputs c.header c.header.n3).gates.zipIdx ++
        (Instr.toGates 0 c.gates).zipIdx (c.header.n1 + c.header.n2 + 1) := by
    rw [toCircuit, List.zipIdx_append]
    simp [withOutputs, partyInputs, garblerInputs, Nat.add_assoc]
  refine ⟨cache, hcache, hbits, ?_⟩
  rw [BinaryCircuit.evalPlain,
    if_neg (by simp [toCircuit, withOutputs, partyInputs, garblerInputs, hg]),
    if_neg (by simp [toCircuit, withOutputs, partyInputs, he]), hG, hE, BinaryCircuit.eval, hgates,
    List.foldlM_append, hstart, ok_bind]
  simp only [bind_assoc, pure_bind]

/-- The table of the evaluation has a cell for each wire that is written. -/
def InTable (c : Netlist) : Prop :=
  ∀ i ∈ c.gates, i.writes ≤ c.header.n1 + c.header.n2 + c.header.ngates

theorem WellFormed.evalPlain_eq (hc : c.WellFormed) (htable : c.InTable)
    (hnwires : c.header.nwires < 2 ^ 64) (hg : g.length = c.header.n1)
    (he : e.length = c.header.n2) :
    c.toCircuit.evalPlain (g.map Bool.toNat) (e.map Bool.toNat) =
      .ok ((c.evaluate g e).map Bool.toNat) := by
  obtain ⟨cache, hcache, hbits, heval⟩ := evalPlain_toCircuit (c := c) hg he
  obtain ⟨cache', hrun, hbits'⟩ := foldlM_toGates (G := g.map bitVal) (E := e.map bitVal) 0
    (c.header.n1 + c.header.n2 + 1) hbits hc.ready fun i hi => by
      have := htable i hi
      rw [hcache, length_toCircuit, hc.count]
      omega
  have houtputs := hc.outputs
  have hrefs : c.toCircuit.outputRefs =
      ((List.range c.header.n3).map fun i => c.header.nwires - c.header.n3 + i).map
        fun w => CircuitRef.mk w 2 := by
    rw [List.map_map]
    refine List.map_congr_left fun i hi => ?_
    have hlt := List.mem_range.1 hi
    simp only [Function.comp_apply, outputIndex, CircuitRef.mk.injEq, and_true]
    omega
  rw [heval, hrun, ok_bind, hrefs, outputRefs_of_holdsBits hbits', ok_bind]
  · have hout (w : ℕ) :
        (id ∘ fun w => some (c.wires g e w).toNat) w = some (c.wires g e w).toNat := rfl
    change unwrap (List.mapM id (List.map (fun w => some (c.wires g e w).toNat) _)) = _
    rw [List.mapM_map, Traversal.mapM_some _ fun w _ => hout w, evaluate, List.map_map, List.map_map]
    rfl
  · intro w hw
    obtain ⟨i, hi, rfl⟩ := List.mem_map.1 hw
    have hlt := List.mem_range.1 hi
    exact hc.computed _ (by omega) (by omega)

theorem WellFormed.inTable_of_evalPlain (hc : c.WellFormed) {outputs : List ℕ}
    (hg : g.length = c.header.n1) (he : e.length = c.header.n2)
    (h : c.toCircuit.evalPlain (g.map Bool.toNat) (e.map Bool.toNat) = .ok outputs) :
    c.InTable := by
  obtain ⟨cache, hcache, -, heval⟩ := evalPlain_toCircuit (c := c) hg he
  rw [heval] at h
  obtain ⟨cache', hrun, -⟩ := exists_of_bind h
  intro i hi
  have hlt := writes_lt_of_foldlM hrun i hi
  rw [hcache, length_toCircuit, hc.count] at hlt
  omega

end Evaluation

end Netlist

variable (nd : Char → Bool) (build : ParserBuild) (bytes : List UInt8)

/-- The stream of a file that announces a gate and ends before it. -/
def truncated : List UInt8 := [49, 32, 50, 10, 49, 32, 48, 32, 49, 10, 10]

theorem parseHeader_truncated :
    parseHeader (fun _ => false) (rawLines truncated) = .ok (⟨1, 2, 1, 0, 1⟩, []) := by
  have hlines : rawLines truncated = [[49, 32, 50, 10], [49, 32, 48, 32, 49, 10], [10]] := rfl
  have hfirst : decode [49, 32, 50, 10] = some "1 2\n".toList := rfl
  have hsecond : decode [49, 32, 48, 32, 49, 10] = some "1 0 1\n".toList := rfl
  have hthird : decode [10] = some ['\n'] := rfl
  have hcounts : regex2captures (countsPattern fun _ => false) "1 2\n".toList =
      .ok [['1'], ['2']] := rfl
  have hsizes : regex2captures (sizesPattern fun _ => false) "1 0 1\n".toList =
      .ok [['1'], ['0'], ['1']] := rfl
  have hnewline : regex2captures newlinePattern ['\n'] = .ok [] := rfl
  have hzero : IsNumeral 0 ['0'] := ⟨nofun, List.forall_mem_singleton.2 rfl, rfl⟩
  have hone : IsNumeral 1 ['1'] := ⟨nofun, List.forall_mem_singleton.2 rfl, rfl⟩
  have htwo : IsNumeral 2 ['2'] := ⟨nofun, List.forall_mem_singleton.2 rfl, rfl⟩
  have hngates : cap2int [['1'], ['2']] 1 = .ok 1 := hone.cap2int_eq rfl (by decide)
  have hnwires : cap2int [['1'], ['2']] 2 = .ok 2 := htwo.cap2int_eq rfl (by decide)
  have hn1 : cap2int [['1'], ['0'], ['1']] 1 = .ok 1 := hone.cap2int_eq rfl (by decide)
  have hn2 : cap2int [['1'], ['0'], ['1']] 2 = .ok 0 := hzero.cap2int_eq rfl (by decide)
  have hn3 : cap2int [['1'], ['0'], ['1']] 3 = .ok 1 := hone.cap2int_eq rfl (by decide)
  rw [hlines, parseHeader, readLine_eq hfirst, ok_bind]
  simp only [hcounts, ok_bind, hngates, hnwires, readLine_eq hsecond, hsizes, hn1, hn2, hn3,
    readLine_eq hthird, hnewline]
  rfl

end EdaBitGen.FancyGarbling
