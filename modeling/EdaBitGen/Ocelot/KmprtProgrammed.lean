import EdaBitGen.Ocelot.KmprtBins

/-!
# Programmed outputs

The receiver reads what the sender wrote bin by bin, and its output on a programmed input is the
programmed value unless the value's cell was taken for an empty one.
-/

namespace EdaBitGen.Ocelot.Kmprt

variable {encrypt : Block → Block → Block} {rng : Rng} {compute : Block512 → Block → Block512}
  {params : Parameters} {hashkeys : List Block}

/-- What the sender's run in a bin ensures. -/
structure BinOk (encrypt : Block → Block → Block) {rng : Rng} (compute : Block512 → Block → Block512)
    (bin : List Point × Block512) (run : BinRun rng) : Prop where
  layout : LayoutOk encrypt (bin.1.map fun p => compute bin.2 p.1) run.layout
  table : run.table =
    placeValues run.layout.m run.layout.hs (bin.1.map fun p => compute bin.2 p.1) bin.1

theorem BinOk.length_table {bin : List Point × Block512} {run : BinRun rng}
    (h : BinOk encrypt compute bin run) : run.table.length = run.layout.m := by
  rw [h.table, length_placeValues]

theorem processBins_spec {fuel j : ℕ} {bins : List (List Point × Block512)} {s s' : rng.State}
    {runs : List (BinRun rng)}
    (hrun : processBins encrypt rng compute fuel params j bins s = some (runs, s')) :
    List.Forall₂ (BinOk encrypt compute) bins runs := by
  induction bins generalizing j s runs with
  | nil =>
    cases hrun
    exact List.Forall₂.nil
  | cons bin bins ih =>
    rw [processBins] at hrun
    obtain ⟨⟨run, s₁⟩, hbin, hrun⟩ := Option.bind_eq_some_iff.1 hrun
    obtain ⟨⟨runs₁, s₂⟩, hrest, hrun⟩ := Option.bind_eq_some_iff.1 hrun
    cases hrun
    obtain ⟨hlayout, htable⟩ := processOprfOutput_spec hbin
    exact List.Forall₂.cons ⟨hlayout, htable⟩ (ih hrest)

/-! ## The receiver's run -/

/-- The outputs that the receiver stores. -/
def outputWrites (encrypt : Block → Block → Block) (bins : List (Option Item × Block512))
    (runs : List (BinRun rng)) : List (ℕ × Block512) :=
  (bins.zip runs).filterMap fun p => p.1.1.map fun it => (it.index, opened encrypt p.2 p.1.2)

variable (encrypt) in
theorem receiveBins_eq {bins : List (Option Item × Block512)} {runs : List (BinRun rng)}
    (hlength : bins.length = runs.length)
    (hruns : ∀ run ∈ runs, 0 < run.layout.m ∧ run.table.length = run.layout.m)
    {outputs : List Block512}
    (hindex : ∀ (it : Item) (output : Block512), (some it, output) ∈ bins → it.index < outputs.length)
    (rest : List Msg) :
    receiveBins encrypt bins outputs (runs.flatMap BinRun.messages ++ rest) =
      some (writes outputs (outputWrites encrypt bins runs), rest) := by
  induction bins generalizing runs outputs with
  | nil =>
    obtain rfl := List.length_eq_zero_iff.1 hlength.symm
    rfl
  | cons bin bins ih =>
    obtain ⟨run, runs, rfl⟩ := List.exists_cons_of_length_pos (by rw [← hlength]; simp : 0 < runs.length)
    obtain ⟨item, output⟩ := bin
    obtain ⟨⟨hpos, htable⟩, hruns⟩ := List.forall_mem_cons.1 hruns
    have hread := readBin_eq encrypt hpos htable output (runs.flatMap BinRun.messages ++ rest)
    have hlength' : bins.length = runs.length := by simpa using hlength
    rw [List.flatMap_cons, List.append_assoc, receiveBins, hread, Option.bind_eq_bind, Option.bind_some]
    cases item with
    | none => exact ih hlength' hruns fun it out hmem => hindex it out (List.mem_cons_of_mem _ hmem)
    | some it =>
      have hlt := hindex it output List.mem_cons_self
      have hstore : storeOutput outputs (opened encrypt run output) (some it) =
          some (outputs.set it.index (opened encrypt run output)) := if_pos hlt
      dsimp only
      rw [hstore, Option.bind_eq_bind, Option.bind_some]
      refine ih hlength' hruns fun it' out hmem => ?_
      rw [List.length_set]
      exact hindex it' out (List.mem_cons_of_mem _ hmem)

theorem map_fst_outputWrites {items : List (Option Item)} {outputs : List Block512}
    {runs : List (BinRun rng)} (houtputs : outputs.length = items.length)
    (hruns : runs.length = items.length) :
    (outputWrites encrypt (items.zip outputs) runs).map Prod.fst = (stored items).map Prod.snd := by
  induction items generalizing outputs runs with
  | nil => rfl
  | cons item items ih =>
    obtain ⟨output, outputs, rfl⟩ :=
      List.exists_cons_of_length_pos (by rw [houtputs]; simp : 0 < outputs.length)
    obtain ⟨run, runs, rfl⟩ :=
      List.exists_cons_of_length_pos (by rw [hruns]; simp : 0 < runs.length)
    have hrest := @ih outputs runs (by simpa using houtputs)
      (by simpa using hruns)
    cases item with
    | none => exact hrest
    | some it => exact congrArg (it.index :: ·) hrest

/-! ## Programmed inputs -/

theorem Parameters.new_hashes {n : ℕ} (h : Parameters.new n = some params) :
    0 < params.h1 ∧ 0 < params.h2 := by
  rw [Parameters.new] at h
  split_ifs at h <;> cases h <;> exact ⟨Nat.succ_pos _, Nat.succ_pos _⟩

/-- A run that went through every bin. -/
structure RunsOk (encrypt : Block → Block → Block) {rng : Rng} (compute : Block512 → Block → Block512)
    (bins : List (List Point)) (seeds : List Block512) (runs : List (BinRun rng)) : Prop where
  bins_length : bins.length = runs.length
  seeds_length : seeds.length = runs.length
  bin : ∀ (pos : ℕ) (b : List Point) (seed : Block512) (run : BinRun rng), bins[pos]? = some b →
    seeds[pos]? = some seed → runs[pos]? = some run → BinOk encrypt compute (b, seed) run

theorem RunsOk.of_forall₂ {bins : List (List Point)} {seeds : List Block512}
    {runs : List (BinRun rng)} (hlength : bins.length = seeds.length)
    (h : List.Forall₂ (BinOk encrypt compute) (bins.zip seeds) runs) :
    RunsOk encrypt compute bins seeds runs where
  bins_length := by
    rw [← h.length_eq, List.length_zip, ← hlength, Nat.min_self]
  seeds_length := by
    rw [← h.length_eq, List.length_zip, hlength, Nat.min_self]
  bin := by
    intro pos b seed run hb hseed hrun
    have hzip : (bins.zip seeds)[pos]? = some (b, seed) := List.getElem?_zip_eq_some.2 ⟨hb, hseed⟩
    obtain ⟨hlt, hget⟩ := List.getElem?_eq_some_iff.1 hzip
    obtain ⟨hlt', hget'⟩ := List.getElem?_eq_some_iff.1 hrun
    have hok := (List.forall₂_iff_get.1 h).2 pos hlt hlt'
    rwa [List.get_eq_getElem, List.get_eq_getElem, hget, hget'] at hok

theorem RunsOk.sizes {bins : List (List Point)} {seeds : List Block512} {runs : List (BinRun rng)}
    (h : RunsOk encrypt compute bins seeds runs) :
    ∀ run ∈ runs, 0 < run.layout.m ∧ run.table.length = run.layout.m := by
  intro run hrun
  obtain ⟨pos, hpos⟩ := List.mem_iff_getElem?.1 hrun
  have hlt : pos < runs.length := (List.getElem?_eq_some_iff.1 hpos).1
  have hbin := h.bin pos _ _ run (List.getElem?_eq_getElem (by rwa [h.bins_length]))
    (List.getElem?_eq_getElem (by rwa [h.seeds_length])) hpos
  exact ⟨hbin.layout.pos, hbin.length_table⟩

theorem BinOk.opened_iff {bin : List Point × Block512} {run : BinRun rng}
    (h : BinOk encrypt compute bin run) {x : Block} {y : Block512} (hxy : (x, y) ∈ bin.1) {k : ℕ}
    (hk : hashOutput encrypt run.layout.v (compute bin.2 x) run.layout.m = some k) :
    opened encrypt run (compute bin.2 x) = y ↔
      y ^^^ compute bin.2 x ≠ 0 ∨ drawn rng run.table run.start k = 0 := by
  obtain ⟨k', hk', hcell⟩ := getElem?_placeValues h.layout hxy
  obtain rfl := Option.some.inj (hk.symm.trans hk')
  rw [← h.table] at hcell
  have hfilled : run.filled[k]? = some (if y ^^^ compute bin.2 x = 0 then
      drawn rng run.table run.start k else y ^^^ compute bin.2 x) := getElem?_fillTable hcell
  have hcancel : ∀ a b : Block512, a ^^^ (a ^^^ b) = b := fun a b => by
    rw [← BitVec.xor_assoc, BitVec.xor_self, BitVec.zero_xor]
  rw [opened, hk, Option.getD_some, List.getD_eq_getElem?_getD, hfilled, Option.getD_some]
  split
  · next hzero =>
    have hy : y = compute bin.2 x := by
      rw [← hcancel (compute bin.2 x) y, BitVec.xor_comm _ y, hzero]
      exact BitVec.xor_zero
    rw [or_iff_right (not_not.2 hzero), ← hy]
    constructor
    · intro heq
      rw [← hcancel y (drawn rng run.table run.start k), heq, BitVec.xor_self]
      rfl
    · intro hdrawn
      rw [hdrawn]
      exact BitVec.xor_zero
  · next hne =>
    rw [BitVec.xor_comm y, hcancel]
    exact iff_of_true rfl (Or.inl (by rwa [BitVec.xor_comm y] at hne))


/-- The seed, the run and the cell of the bin in which the receiver's table has input `i`, which is
`x`. -/
def InCell (encrypt : Block → Block → Block) {rng : Rng} (compute : Block512 → Block → Block512)
    (items : List (Option Item)) (seeds : List Block512) (runs : List (BinRun rng)) (i : ℕ) (x : Block)
    (seed : Block512) (run : BinRun rng) (h : ℕ) : Prop :=
  ∃ (pos : ℕ) (it : Item), items[pos]? = some (some it) ∧ it.index = i ∧ seeds[pos]? = some seed ∧
    runs[pos]? = some run ∧
    hashOutput encrypt run.layout.v (compute seed x) run.layout.m = some h

/-- For all keys for which the receiver's table can be built, and all seeds and draws for which the
sender's searches end: the parties go through the same bins with the same tables, and the receiver's
output on a programmed input is the programmed value exactly when the value's cell is not mistaken for
an empty one, or is filled with zero again. -/
theorem programmed_iff {inputs : List Block} {points : List Point} {items : List (Option Item)}
    {seeds oprfOutputs : List Block512} {fuel : ℕ} {s : rng.State} {runs : List (BinRun rng)}
    (hparams : Parameters.new inputs.length = some params)
    (hbuild : build encrypt params hashkeys inputs = some items)
    (hsend : send encrypt rng compute fuel points inputs.length hashkeys seeds s = some runs)
    (hseeds : seeds.length = params.m1 + params.m2)
    (houtputs : oprfOutputs.length = params.m1 + params.m2)
    (hoprf : ∀ (pos : ℕ) (it : Item) (seed output : Block512), items[pos]? = some (some it) →
      seeds[pos]? = some seed → oprfOutputs[pos]? = some output → output = compute seed it.entry) :
    ∃ outputs, receive encrypt items oprfOutputs inputs.length (runs.flatMap BinRun.messages) =
        some (outputs, []) ∧
      runs.length = items.length ∧
      ∀ (i : ℕ) (x : Block) (y : Block512), inputs[i]? = some x → (x, y) ∈ points →
        (∃ seed run h, InCell encrypt compute items seeds runs i x seed run h) ∧
        ∀ (seed : Block512) (run : BinRun rng) (h : ℕ),
          InCell encrypt compute items seeds runs i x seed run h →
          (outputs[i]? = some y ↔
            y ^^^ compute seed x ≠ 0 ∨ drawn rng run.table run.start h = 0) := by
  obtain ⟨hh1, hh2⟩ := Parameters.new_hashes hparams
  rw [send, hparams, Option.bind_eq_bind, Option.bind_some] at hsend
  obtain ⟨bins, hbins, hsend⟩ := Option.bind_eq_some_iff.1 hsend
  obtain ⟨⟨runs', s'⟩, hprocess, hsend⟩ := Option.bind_eq_some_iff.1 hsend
  cases hsend
  obtain ⟨hplaced, hstored, hitems⟩ := build_spec hh1 hh2 hbuild
  obtain ⟨hbinsLength, hholds⟩ := fillBins_spec hbins
  have hok := RunsOk.of_forall₂ (hbinsLength.trans hseeds.symm) (processBins_spec hprocess)
  have hrunsLength : runs.length = items.length := by
    rw [← hok.bins_length, hbinsLength, hitems]
  have houtputs' : oprfOutputs.length = items.length := houtputs.trans hitems.symm
  have hmem : ∀ (pos : ℕ) (it : Item), items[pos]? = some (some it) →
      inputs[it.index]? = some it.entry := by
    intro pos it hpos
    have hstoredMem : (it.entry, it.index) ∈ stored items :=
      List.mem_filterMap.2 ⟨some it, List.mem_of_getElem? hpos, rfl⟩
    exact List.mk_mem_zipIdx_iff_getElem?.1 (hstored.mem_iff.1 hstoredMem)
  have hreceive := @receiveBins_eq encrypt rng (items.zip oprfOutputs) runs
    (by rw [List.length_zip, houtputs', Nat.min_self, hrunsLength]) hok.sizes
    (List.replicate inputs.length 0) (fun it output hit => by
      obtain ⟨pos, hpos⟩ := List.mem_iff_getElem?.1 (List.of_mem_zip hit).1
      rw [List.length_replicate]
      exact (List.getElem?_eq_some_iff.1 (hmem pos it hpos)).1) []
  rw [List.append_nil] at hreceive
  refine ⟨_, hreceive, hrunsLength, fun i x y hx hxy => ⟨?_, ?_⟩⟩
  · have hinput : (x, i) ∈ stored items :=
      hstored.mem_iff.2 (List.mk_mem_zipIdx_iff_getElem?.2 hx)
    obtain ⟨o, ho, hoi⟩ := List.mem_filterMap.1 hinput
    obtain ⟨it, rfl, hit⟩ := Option.map_eq_some_iff.1 hoi
    obtain ⟨pos, hpos⟩ := List.mem_iff_getElem?.1 ho
    have hlt : pos < runs.length := by
      rw [hrunsLength]
      exact (List.getElem?_eq_some_iff.1 hpos).1
    have hltSeeds : pos < seeds.length := by rwa [hok.seeds_length]
    obtain ⟨h, -, hh⟩ := exists_hashOutput encrypt runs[pos].layout.v (compute seeds[pos] x)
      (hok.sizes _ (List.getElem_mem hlt)).1
    exact ⟨_, _, h, pos, it, hpos, (Prod.mk.inj hit).2, List.getElem?_eq_getElem hltSeeds,
      List.getElem?_eq_getElem hlt, hh⟩
  · rintro seed run h ⟨pos, it, hpos, rfl, hseed, hrun, hh⟩
    obtain rfl := Option.some.inj (hx.symm.trans (hmem pos it hpos))
    obtain ⟨b, hb, hbmem⟩ := hholds (it.entry, y) hxy pos (hplaced pos it hpos)
    have hbin := hok.bin pos b seed run hb hseed hrun
    have hlt : pos < oprfOutputs.length := by
      rw [houtputs']
      exact (List.getElem?_eq_some_iff.1 hpos).1
    have hout := List.getElem?_eq_getElem hlt
    have houtput := hoprf pos it seed _ hpos hseed hout
    have hnodup : ((outputWrites encrypt (items.zip oprfOutputs) runs).map Prod.fst).Nodup := by
      rw [map_fst_outputWrites houtputs' hrunsLength, (hstored.map Prod.snd).nodup_iff]
      simpa [List.zipIdx_map_snd] using List.nodup_range'
    have hwrite : (it.index, opened encrypt run (compute seed it.entry)) ∈
        outputWrites encrypt (items.zip oprfOutputs) runs := by
      refine List.mem_filterMap.2 ⟨((some it, oprfOutputs[pos]), run), ?_, by rw [houtput]; rfl⟩
      refine List.mem_of_getElem? (i := pos) (List.getElem?_zip_eq_some.2 ⟨?_, hrun⟩)
      exact List.getElem?_zip_eq_some.2 ⟨hpos, hout⟩
    have hlength : it.index < (List.replicate inputs.length (0 : Block512)).length := by
      rw [List.length_replicate]
      exact (List.getElem?_eq_some_iff.1 hx).1
    rw [getElem?_writes hnodup hwrite hlength, Option.some.injEq]
    exact hbin.opened_iff hbmem hh

/-! ## One point -/

/-- The cipher on the blocks that the examples encrypt. -/
def aesZero (key m : Block) : Block :=
  if m ≠ 0 then 0
  else if key = 0 then 0x2e2b34ca59fa4c883b2c8aefd44be966
  else if key = 0x2e2b34ca59fa4c883b2c8aefd44be966 then 0x22b408a7054bedbcd28b1dc8bd364bab
  else if key = 0x22b408a7054bedbcd28b1dc8bd364bab then 0xbd1e6af0cc9644eeb65a6fc3ad1725da
  else if key = 0xbd1e6af0cc9644eeb65a6fc3ad1725da then 0x736562bdeddaa38ff98628ae51e58428
  else 0

/-- A generator of one key and one filling. -/
def constantRng : Rng := ⟨Unit, fun s => (0, s), fun s => (1, s)⟩

/-- The oblivious PRF with the secret zero. -/
def zeroCompute : Block512 → Block → Block512 := kkrtCompute (fun _ => 0) 0

/-- The value 5 is read back. -/
theorem programmed_iff_five :
    ∃ runs outputs, send aesZero constantRng zeroCompute 1 [(0, 5)] 1 (List.replicate 5 0)
        (List.replicate 3 0) () = some runs ∧
      receive aesZero [some ⟨0, 0, 0⟩, none, none] (List.replicate 3 0) 1
        (runs.flatMap BinRun.messages) = some (outputs, []) ∧
      outputs[0]? = some 5 := by
  have hsome : (send aesZero constantRng zeroCompute 1 [(0, 5)] 1 (List.replicate 5 0)
      (List.replicate 3 0) ()).isSome := by decide +kernel
  obtain ⟨runs, hruns⟩ := Option.isSome_iff_exists.1 hsome
  have hcompute : ∀ seed x, zeroCompute seed x = seed := by
    intro seed x
    rw [zeroCompute, kkrtCompute]
    simp
  have hzero : ∀ (pos : ℕ) (b : Block512), (List.replicate 3 (0 : Block512))[pos]? = some b →
      b = 0 := fun pos b hb => List.eq_of_mem_replicate (List.mem_of_getElem? hb)
  obtain ⟨outputs, hreceive, -, hprogrammed⟩ := @programmed_iff aesZero constantRng
    zeroCompute ⟨2, 1, 27, 63, 3, 2⟩ (List.replicate 5 0) [0] [(0, 5)] [some ⟨0, 0, 0⟩, none, none]
    (List.replicate 3 0) (List.replicate 3 0) 1 () runs (by decide +kernel) (by decide +kernel) hruns
    rfl rfl fun pos it seed output _ hseed houtput => by
      rw [hcompute, hzero pos seed hseed, hzero pos output houtput]
  obtain ⟨⟨seed, run, h, hcell⟩, hiff⟩ := hprogrammed 0 0 5 rfl List.mem_cons_self
  refine ⟨runs, outputs, hruns, hreceive, (hiff seed run h hcell).2 (Or.inl ?_)⟩
  obtain ⟨pos, it, -, -, hseed, -⟩ := hcell
  rw [hcompute, hzero pos seed hseed]
  decide +kernel

/-- The value 0 under the output 0 is taken for an empty cell, and the receiver outputs the filling. -/
theorem programmed_zero :
    Parameters.new 1 = some ⟨2, 1, 27, 63, 3, 2⟩ ∧
    build aesZero ⟨2, 1, 27, 63, 3, 2⟩ (List.replicate 5 0) [0] = some [some ⟨0, 0, 0⟩, none, none] ∧
    zeroCompute 0 0 = 0 ∧
    ((send aesZero constantRng zeroCompute 1 [(0, 0)] 1 (List.replicate 5 0) (List.replicate 3 0)
        ()).bind fun runs =>
      receive aesZero [some ⟨0, 0, 0⟩, none, none] (List.replicate 3 0) 1
        (runs.flatMap BinRun.messages)) = some ([1], []) := by
  refine ⟨?_, ?_, ?_, ?_⟩
  · decide +kernel
  · decide +kernel
  · decide +kernel
  · decide +kernel

end EdaBitGen.Ocelot.Kmprt
