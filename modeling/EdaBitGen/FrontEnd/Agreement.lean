import EdaBitGen.FrontEnd.Readers

/-!
# Agreement of the readers

Both readers take one step for each directive, and a file of messages is read as the concatenation
of their directives.  The steps agree but for plugins whose parameters are numbers.
-/

namespace EdaBitGen.FrontEnd

open Plugins (PluginError)

/-! ## Steps that can fail -/

section Except

variable {ε σ ι α β : Type}

theorem not_isOk_error (e : ε) : ¬(Except.error e : Except ε α).isOk := Bool.false_ne_true

theorem isOk_iff {x : Except ε α} : x.isOk ↔ ∃ a, x = .ok a := by
  cases x with
  | error e => exact iff_of_false (not_isOk_error e) (by simp)
  | ok a => exact iff_of_true rfl ⟨a, rfl⟩

theorem isOk_bind (x : Except ε α) (f : α → Except ε β) :
    (x >>= f).isOk ↔ ∃ a, x = .ok a ∧ (f a).isOk := by
  cases x with
  | error e => exact iff_of_false (not_isOk_error e) (by simp)
  | ok a =>
    constructor
    · exact fun h => ⟨a, rfl, h⟩
    · rintro ⟨_, h, hf⟩
      cases h
      exact hf

theorem isOk_foldlM {f : σ → ι → Except ε σ} {P : ι → Prop} (h : ∀ s i, (f s i).isOk ↔ P i)
    (is : List ι) (s : σ) : (is.foldlM f s).isOk ↔ ∀ i ∈ is, P i := by
  induction is generalizing s with
  | nil => exact iff_of_true rfl (by simp)
  | cons i is ih =>
    rw [List.foldlM_cons, isOk_bind, List.forall_mem_cons, ← h s i, isOk_iff]
    constructor
    · rintro ⟨s', hs', hrest⟩
      exact ⟨⟨s', hs'⟩, (ih s').1 hrest⟩
    · rintro ⟨⟨s', hs'⟩, hrest⟩
      exact ⟨s', hs', (ih s').2 hrest⟩

theorem rel_foldlM {τ : Type} {f : σ → ι → Except ε σ} {g : τ → ι → Except ε τ}
    {R : σ → τ → Prop} {is : List ι}
    (h : ∀ i ∈ is, ∀ s t s' t', R s t → f s i = .ok s' → g t i = .ok t' → R s' t') {s s' : σ}
    {t t' : τ} (hst : R s t) (hf : is.foldlM f s = .ok s') (hg : is.foldlM g t = .ok t') :
    R s' t' := by
  induction is generalizing s t with
  | nil =>
    cases hf
    cases hg
    exact hst
  | cons i is ih =>
    rw [List.foldlM_cons] at hf hg
    cases hfi : f s i with
    | error e => rw [hfi] at hf; cases hf
    | ok s₁ =>
      cases hgi : g t i with
      | error e => rw [hgi] at hg; cases hg
      | ok t₁ =>
        rw [hfi] at hf
        rw [hgi] at hg
        exact ih (fun j hj => h j (List.mem_cons_of_mem _ hj))
          (h i List.mem_cons_self _ _ _ _ hst hfi hgi) hf hg

end Except

theorem isOk_index (counts : List (TypeId × ℕ)) (i : ℕ) :
    (Plugins.index counts i).isOk ↔ i < counts.length := by
  rw [Plugins.index]
  by_cases h : i < counts.length
  · rw [List.getElem?_eq_getElem h]
    exact iff_of_true rfl h
  · rw [List.getElem?_eq_none (by omega)]
    exact iff_of_false (not_isOk_error _) h

theorem isOk_branchGates (inputCounts : List (TypeId × ℕ)) (offset middleIndex : ℕ)
    (gate : TypeId → ℕ → Plugins.GateM) :
    (Plugins.MuxV0.branchGates inputCounts offset middleIndex gate).isOk ↔
      ∀ i < middleIndex, offset + i < inputCounts.length := by
  rw [Plugins.MuxV0.branchGates, isOk_foldlM (P := fun i => offset + i < inputCounts.length)]
  · simp
  · intro acc i
    rw [isOk_bind, ← isOk_index, isOk_iff]
    exact exists_congr fun group => ⟨fun h => h.1, fun h => ⟨h, rfl⟩⟩

theorem isOk_gatesBody (operation : String) (params : List String) (count : ℕ)
    (outputCounts inputCounts : List (TypeId × ℕ)) :
    (Plugins.MuxV0.gatesBody operation params count outputCounts inputCounts).isOk ↔
      operation = "strict" ∧ params = [] ∧ inputCounts.length % 2 = 1 := by
  rw [Plugins.MuxV0.gatesBody]
  by_cases hoperation : operation = "strict"
  · by_cases hparams : params = []
    · subst hparams
      rw [if_neg (not_not_intro hoperation), List.length_nil, if_neg (not_not_intro rfl)]
      simp only [hoperation, true_and, isOk_bind]
      constructor
      · rintro ⟨group, hgroup, first, hfirst, second, hsecond, -⟩
        have h₀ := (isOk_index _ _).1 (isOk_iff.2 ⟨_, hgroup⟩)
        have h₂ := (isOk_branchGates _ _ _ _).1 (isOk_iff.2 ⟨_, hsecond⟩)
        -- with an even number of groups the last branch would reach beyond them
        by_contra hodd
        have := h₂ (inputCounts.length / 2 - 1) (by omega)
        omega
      · intro hodd
        obtain ⟨group, hgroup⟩ := isOk_iff.1 ((isOk_index inputCounts 0).2 (by omega))
        obtain ⟨first, hfirst⟩ := isOk_iff.1 ((isOk_branchGates inputCounts 1
          (inputCounts.length / 2) _).2 fun i hi => by omega)
        obtain ⟨second, hsecond⟩ := isOk_iff.1 ((isOk_branchGates inputCounts
          (1 + inputCounts.length / 2) (inputCounts.length / 2) _).2 fun i hi => by omega)
        exact ⟨group, hgroup, first, hfirst, second, hsecond, rfl⟩
    · have hlength : params.length ≠ 0 := fun h => hparams (List.length_eq_zero_iff.1 h)
      rw [if_neg (not_not_intro hoperation), if_pos hlength]
      exact iff_of_false (not_isOk_error _) fun h => hparams h.2.1
  · rw [if_pos hoperation]
    exact iff_of_false (not_isOk_error _) fun h => hoperation h.1

theorem isOk_newPlugin (name : String) (funId : ℕ) (outputCounts inputCounts : List (TypeId × ℕ))
    (pluginName operation : String) (params : List String)
    (publicCount privateCount : List (TypeId × ℕ)) :
    (FuncDecl.newPlugin name funId outputCounts inputCounts pluginName operation params publicCount
        privateCount).isOk ↔
      pluginName = "mux_v0" ∧ operation = "strict" ∧ params = [] ∧ inputCounts.length % 2 = 1 := by
  rw [FuncDecl.newPlugin]
  by_cases hname : pluginName = Plugins.MuxV0.name
  · rw [if_pos hname, isOk_bind, ← isOk_gatesBody operation params _ outputCounts inputCounts,
      isOk_iff]
    exact ⟨fun ⟨gates, h, _⟩ => ⟨hname, gates, h⟩, fun ⟨_, gates, h⟩ => ⟨gates, h, rfl⟩⟩
  · rw [if_neg hname]
    exact iff_of_false (fun h => nomatch h) fun h => hname h.1

/-- The text reader takes the directive. -/
def Directive.TextAccepts : Directive → Prop
  | .gate _ => True
  | .function _ _ _ _ => True
  | .plugin _ _ inputs body => body.name = "mux_v0" ∧ body.operation = "strict" ∧
      TextRelation.stringParams body.params = [] ∧ inputs.length % 2 = 1

/-- The reader of messages takes the directive. -/
def Directive.BufAccepts : Directive → Prop
  | .gate _ => True
  | .function _ _ _ _ => True
  | .plugin _ _ inputs body => body.name = "mux_v0" ∧ body.operation = "strict" ∧
      body.params = [] ∧ inputs.length % 2 = 1

theorem Directive.BufAccepts.textAccepts {d : Directive} (h : d.BufAccepts) : d.TextAccepts := by
  cases d with
  | gate gate => exact trivial
  | function name outputs inputs body => exact trivial
  | plugin name outputs inputs body =>
    obtain ⟨hname, hoperation, hparams, hodd⟩ := h
    exact ⟨hname, hoperation, by rw [hparams]; rfl, hodd⟩

theorem isOk_unwrap {α : Type} (x : Except PluginError α) : (unwrap x).isOk ↔ x.isOk := by
  cases x <;> exact Iff.rfl

theorem BufRelation.isOk_readDirective (rel : BufRelation) (d : Directive) :
    (rel.readDirective d).isOk ↔ d.BufAccepts := by
  cases d with
  | gate gate => exact iff_of_true rfl trivial
  | function name outputs inputs body => exact iff_of_true rfl trivial
  | plugin name outputs inputs body =>
    have hplugin := isOk_newPlugin name magicFunId outputs inputs body.name body.operation
      (body.params.map paramString) body.publicCount body.privateCount
    rw [List.map_eq_nil_iff, ← isOk_unwrap, isOk_iff] at hplugin
    rw [readDirective, isOk_bind, Directive.BufAccepts, ← hplugin]
    exact exists_congr fun funBody => ⟨fun h => h.1, fun h => ⟨h, rfl⟩⟩

/-! ## Gates of both readers -/

/-- A gate with the bytes that a reader has for its constants. -/
def Gate.toGateM (bytesOf : Constant → List UInt8) : Gate → GateM
  | .constant ty out value => .constant ty out (bytesOf value)
  | .assertZero ty inp => .assertZero ty inp
  | .copy ty out inp => .copy ty out inp
  | .add ty out left right => .add ty out left right
  | .mul ty out left right => .mul ty out left right
  | .addConstant ty out inp value => .addConstant ty out inp (bytesOf value)
  | .mulConstant ty out inp value => .mulConstant ty out inp (bytesOf value)
  | .publicInput ty out => .inst ty out
  | .privateInput ty out => .witness ty out
  | .new ty first last => .new ty first last
  | .delete ty first last => .delete ty first last
  | .call name outs ins => .call name outs ins
  | .convert tyOut out tyIn inp => .conv tyOut out tyIn inp

theorem BufRelation.flatbufferGateToGate_eq (g : Gate) :
    flatbufferGateToGate g = g.toGateM Constant.bytes := by
  cases g <;> rfl

theorem tryInto_val (ty : TypeId) : tryInto ty.val = .ok ty := by
  rw [tryInto, dif_pos ty.isLt]
  rfl

theorem TextRelation.visit_eq (rel : TextRelation) (g : Gate) :
    rel.visit g = .ok (rel.push (g.toGateM fun c => numberToBytes c.words)) := by
  cases g <;> simp only [visit, new, delete, add, mul, addc, mulc, copy, constant, publicInput,
    privateInput, assertZero, convert, call, tryInto_val] <;> rfl

theorem TextRelation.foldlM_visit (body : List Gate) (rel : TextRelation) :
    body.foldlM visit rel = .ok { rel with
      gates := rel.gates ++ body.map (Gate.toGateM fun c => numberToBytes c.words) } := by
  induction body generalizing rel with
  | nil => rw [List.map_nil, List.append_nil]; rfl
  | cons g body ih =>
    rw [List.foldlM_cons, visit_eq]
    refine (ih _).trans ?_
    rw [push, List.append_assoc]
    rfl

theorem TextRelation.tryIntoCounts_parsedCounts (counts : List (TypeId × ℕ)) :
    tryIntoCounts (parsedCounts counts) = .ok counts := by
  unfold tryIntoCounts parsedCounts
  induction counts with
  | nil => rfl
  | cons group counts ih =>
    rw [List.map_cons, List.mapM_cons, ih, tryInto_val]
    rfl

theorem TextRelation.readDirective_function (rel : TextRelation) (name : String)
    (outputs inputs : List (TypeId × ℕ)) (body : List Gate) :
    rel.readDirective (.function name outputs inputs body) = .ok { rel with
      funStore := rel.funStore.insert name (FuncDecl.newFunction name magicFunId
        (body.map (Gate.toGateM fun c => numberToBytes c.words)) outputs inputs) } := by
  rw [readDirective, defineFunction, foldlM_visit, tryIntoCounts_parsedCounts,
    tryIntoCounts_parsedCounts]
  rfl

theorem TextRelation.readDirective_plugin (rel : TextRelation) (name : String)
    (outputs inputs : List (TypeId × ℕ)) (body : PluginBinding) :
    rel.readDirective (.plugin name outputs inputs body) = (do
      let funBody ← FuncDecl.newPlugin name magicFunId outputs inputs body.name body.operation
        (stringParams body.params) [] []
      .ok { rel with funStore := rel.funStore.insert name funBody }) := by
  rw [readDirective, definePluginFunction, tryIntoCounts_parsedCounts, tryIntoCounts_parsedCounts]
  rfl

theorem TextRelation.isOk_readDirective (rel : TextRelation) (d : Directive) :
    (rel.readDirective d).isOk ↔ d.TextAccepts := by
  cases d with
  | gate gate =>
    rw [readDirective, visit_eq]
    exact iff_of_true rfl trivial
  | function name outputs inputs body =>
    rw [readDirective_function]
    exact iff_of_true rfl trivial
  | plugin name outputs inputs body =>
    have hplugin := isOk_newPlugin name magicFunId outputs inputs body.name body.operation
      (stringParams body.params) [] []
    rw [isOk_iff] at hplugin
    rw [readDirective_plugin, isOk_bind, Directive.TextAccepts, ← hplugin]
    exact exists_congr fun funBody => ⟨fun h => h.1, fun h => ⟨h, rfl⟩⟩

theorem Gate.map_toGateM (g : Gate) :
    (g.toGateM fun c => numberToBytes c.words).map ofBytes =
      (g.toGateM Constant.bytes).map ofBytes := by
  have hconstant : ∀ c : Constant, ofBytes (numberToBytes c.words) = ofBytes c.bytes := fun c => by
    rw [ofBytes_numberToBytes, c.same]
  cases g <;> simp [toGateM, GateOf.map, hconstant]

/-- Gates and functions with the numbers that their constants denote. -/
def SameContent (gates gates' : List GateM) (store store' : FunStore (List UInt8)) : Prop :=
  gates.map (GateOf.map ofBytes) = gates'.map (GateOf.map ofBytes) ∧
    store.map ofBytes = store'.map ofBytes

theorem sameContent_insert {gates gates' : List GateM} {store store' : FunStore (List UInt8)}
    (hsame : SameContent gates gates' store store') (name : String)
    {func func' : FuncDecl (List UInt8)} (hfunc : func.map ofBytes = func'.map ofBytes) :
    SameContent gates gates' (store.insert name func) (store'.insert name func') := by
  refine ⟨hsame.1, ?_⟩
  rw [FunStore.map_insert, FunStore.map_insert, hsame.2, hfunc]

theorem sameContent_readDirective {d : Directive} {rel rel' : TextRelation} {buf buf' : BufRelation}
    (hsame : SameContent rel.gates buf.gates rel.funStore buf.funStore)
    (htext : rel.readDirective d = .ok rel') (hbuf : buf.readDirective d = .ok buf') :
    SameContent rel'.gates buf'.gates rel'.funStore buf'.funStore := by
  cases d with
  | gate gate =>
    rw [TextRelation.readDirective, TextRelation.visit_eq] at htext
    cases htext
    cases hbuf
    refine ⟨?_, hsame.2⟩
    simp only [TextRelation.push, List.map_append, hsame.1, List.map_cons, List.map_nil,
      BufRelation.flatbufferGateToGate_eq, Gate.map_toGateM]
  | function name outputs inputs body =>
    rw [TextRelation.readDirective_function] at htext
    cases htext
    cases hbuf
    refine sameContent_insert hsame name ?_
    simp only [FuncDecl.newFunction_map, List.map_map, Function.comp_def, Gate.map_toGateM,
      BufRelation.flatbufferGateToGate_eq]
  | plugin name outputs inputs body =>
    have hparams := ((buf.isOk_readDirective _).1 (isOk_iff.2 ⟨_, hbuf⟩)).2.2.1
    rw [TextRelation.readDirective_plugin, hparams] at htext
    rw [BufRelation.readDirective, hparams] at hbuf
    -- both readers give the plugin no parameters, and the counts are not looked at
    have hcounts : FuncDecl.newPlugin name magicFunId outputs inputs body.name body.operation
        ([].map BufRelation.paramString) body.publicCount body.privateCount =
        FuncDecl.newPlugin name magicFunId outputs inputs body.name body.operation
          (TextRelation.stringParams []) [] [] := rfl
    rw [hcounts] at hbuf
    cases hplugin : FuncDecl.newPlugin name magicFunId outputs inputs body.name body.operation
        (TextRelation.stringParams []) [] [] with
    | error e =>
      rw [hplugin] at htext
      cases htext
    | ok funBody =>
      rw [hplugin] at htext hbuf
      cases htext
      cases hbuf
      exact sameContent_insert hsame name rfl

/-! ## Streams of messages -/

section Streams

variable (fb : FlatBuffers)

theorem length_sizePrefix (size : ℕ) : (sizePrefix size).length = 4 := by
  rw [sizePrefix, List.length_map, FixedDigits.length_digits]

theorem ofBytes_sizePrefix {size : ℕ} (h : size < 2 ^ 32) : ofBytes (sizePrefix size) = size := by
  rw [sizePrefix, ofBytes_digits]
  exact Nat.mod_eq_of_lt h

theorem readSizePrefix_take {root : Root} (hfits : fb.Fits root) (rest : List UInt8) :
    readSizePrefix ((fb.frame root ++ rest).take sizeUoffset) = (fb.frame root).length := by
  have hstart := length_sizePrefix (fb.finish root).length
  have htake : (fb.frame root ++ rest).take sizeUoffset = sizePrefix (fb.finish root).length := by
    rw [FlatBuffers.frame, List.append_assoc]
    exact List.take_left' hstart
  rw [htake, readSizePrefix, if_neg (by rw [hstart]; decide), sizeUoffset, List.take_of_length_le
    hstart.le, ofBytes_sizePrefix hfits, FlatBuffers.frame, List.length_append,
    hstart]

theorem readSizePrefixInVec_file {root : Root} (hfits : fb.Fits root) (roots : List Root) :
    readSizePrefixInVec (fb.file (root :: roots)) = .ok (some (fb.frame root, fb.file roots)) := by
  have hlength : (fb.frame root).length = 4 + (fb.finish root).length := by
    rw [FlatBuffers.frame, List.length_append, length_sizePrefix]
  have hpos := List.length_pos_of_ne_nil (fb.finish_ne_nil root)
  rw [FlatBuffers.file, List.flatMap_cons, ← FlatBuffers.file, readSizePrefixInVec,
    if_neg (by rw [List.length_append, sizeUoffset]; omega)]
  dsimp only
  rw [readSizePrefix_take fb hfits, if_neg (by rw [sizeUoffset]; omega),
    if_neg (by rw [List.length_append]; omega), List.take_left, List.drop_left]

theorem readSizePrefixInVec_nil : readSizePrefixInVec (fb.file []) = .ok none := rfl

theorem sizePrefixedRoot_file {root : Root} (hfits : fb.Fits root) (roots : List Root) :
    fb.sizePrefixedRoot (fb.file (root :: roots)) = some root := by
  rw [FlatBuffers.file, List.flatMap_cons]
  exact fb.sizePrefixedRoot_finish root _ hfits

theorem sizePrefixedRoot_frame {root : Root} (hfits : fb.Fits root) :
    fb.sizePrefixedRoot (fb.frame root) = some root := by
  have h := fb.sizePrefixedRoot_finish root [] hfits
  rwa [List.append_nil] at h

theorem foldl_append_singleton {α : Type} (xs acc : List α) :
    xs.foldl (fun acc x => acc ++ [x]) acc = acc ++ xs := by
  induction xs generalizing acc with
  | nil => rw [List.foldl_nil, List.append_nil]
  | cons x xs ih => rw [List.foldl_cons, ih, List.append_assoc]; rfl

theorem readPublicInputs_file {modulus : List UInt8} {msg : List (List UInt8)}
    (hfits : fb.Fits (.publicInputs modulus msg)) (roots : List Root)
    (instances : List (List UInt8)) :
    readPublicInputs fb (fb.file (.publicInputs modulus msg :: roots)) instances =
      .ok (instances ++ msg, modulus) := by
  rw [readPublicInputs, readPublicInputsBytes, sizePrefixedRoot_file fb hfits]
  dsimp only
  rw [foldl_append_singleton]

theorem readPublicInputs_nil (instances : List (List UInt8)) :
    readPublicInputs fb (fb.file []) instances = .error .panic := by
  rw [readPublicInputs, readPublicInputsBytes]
  have hnone : fb.sizePrefixedRoot (fb.file []) = none := fb.sizePrefixedRoot_nil
  rw [hnone]

theorem readPrivateInputsLoop_file {modulus fieldRes : List UInt8}
    (hfield : fieldRes.length = 0 ∨ fieldRes = modulus) (messages : List (List (List UInt8)))
    (hfits : ∀ msg ∈ messages, fb.Fits (.privateInputs modulus msg))
    (witnesses : List (List UInt8)) :
    ∃ field, readPrivateInputsLoop fb (fb.file (messages.map (.privateInputs modulus))) witnesses
      fieldRes = .ok (witnesses ++ messages.flatten, field) := by
  induction messages generalizing witnesses fieldRes with
  | nil =>
    rw [readPrivateInputsLoop]
    split
    · next h => cases h
    · exact ⟨fieldRes, by rw [List.flatten_nil, List.append_nil]⟩
    · next h => cases h
  | cons msg messages ih =>
    rw [List.forall_mem_cons] at hfits
    have hread := readSizePrefixInVec_file fb hfits.1 (messages.map (.privateInputs modulus))
    have hbytes : readPrivateInputsBytes fb (fb.frame (.privateInputs modulus msg)) witnesses =
        .ok (witnesses ++ msg, modulus) := by
      rw [readPrivateInputsBytes, sizePrefixedRoot_frame fb hfits.1]
      dsimp only
      rw [foldl_append_singleton]
    rw [readPrivateInputsLoop, List.map_cons]
    split
    · next h => rw [hread] at h; cases h
    · next h => rw [hread] at h; cases h
    · next buffer rest h =>
      rw [hread] at h
      cases h
      rw [hbytes]
      dsimp only
      rw [if_pos hfield]
      obtain ⟨field, hrest⟩ := ih (.inr rfl) hfits.2 (witnesses ++ msg)
      exact ⟨field, by rw [hrest, List.flatten_cons, List.append_assoc]⟩

/-! ## Relations -/

/-- The same functions, with gates in front and another file behind. -/
def BufRelation.before (gates : List GateM) (file : List UInt8) (rel : BufRelation) : BufRelation :=
  ⟨rel.funStore, gates ++ rel.gates, file⟩

theorem BufRelation.readDirective_before (gates : List GateM) (file : List UInt8)
    (rel : BufRelation) (d : Directive) :
    (rel.before gates file).readDirective d = (rel.readDirective d).map (before gates file) := by
  cases d with
  | gate gate =>
    simp only [readDirective, before, Except.map, List.append_assoc]
  | function name outputs inputs body => rfl
  | plugin name outputs inputs body =>
    simp only [readDirective]
    cases unwrap (FuncDecl.newPlugin name magicFunId outputs inputs body.name body.operation
      (body.params.map paramString) body.publicCount body.privateCount) <;> rfl

theorem BufRelation.foldlM_before (gates : List GateM) (file : List UInt8) (ds : List Directive)
    (rel : BufRelation) :
    ds.foldlM readDirective (rel.before gates file) =
      (ds.foldlM readDirective rel).map (before gates file) := by
  induction ds generalizing rel with
  | nil => rfl
  | cons d ds ih =>
    rw [List.foldlM_cons, List.foldlM_cons, readDirective_before]
    cases rel.readDirective d with
    | error e => rfl
    | ok rel' => exact ih rel'

theorem BufRelation.next_file {rel : BufRelation} {msg : List Directive} {roots : List Root}
    (hfits : fb.Fits (.relation msg)) (hfile : rel.bufferFile = fb.file (.relation msg :: roots)) :
    rel.next fb = (msg.foldlM readDirective ⟨rel.funStore, [], fb.file roots⟩).map some := by
  rw [next, hfile, readSizePrefixInVec_file fb hfits]
  dsimp only
  rw [readRelationAndFunctionsBytesAccu, sizePrefixedRoot_frame fb hfits]
  dsimp only
  cases msg.foldlM readDirective ⟨rel.funStore, [], fb.file roots⟩ <;> rfl

theorem BufRelation.readAll_file (messages : List (List Directive))
    (hfits : ∀ msg ∈ messages, fb.Fits (.relation msg)) (gates : List GateM) {rel : BufRelation}
    (hfile : rel.bufferFile = fb.file (messages.map .relation)) :
    rel.readAll fb gates = (messages.flatten.foldlM readDirective ⟨rel.funStore, gates, []⟩).map
      fun rel => (rel.gates, rel.funStore) := by
  induction messages generalizing rel gates with
  | nil =>
    have hnext : rel.next fb = .ok none := by
      rw [next, hfile, List.map_nil, readSizePrefixInVec_nil]
    rw [readAll]
    split
    · next h => rw [hnext] at h; cases h
    · rfl
    · next h => rw [hnext] at h; cases h
  | cons msg messages ih =>
    rw [List.forall_mem_cons] at hfits
    rw [List.map_cons] at hfile
    have hnext := next_file fb hfits.1 hfile
    have hbefore := foldlM_before gates [] msg ⟨rel.funStore, [], fb.file (messages.map .relation)⟩
    rw [before, List.append_nil] at hbefore
    rw [readAll, List.flatten_cons, List.foldlM_append, hbefore]
    cases hmsg : msg.foldlM readDirective ⟨rel.funStore, [], fb.file (messages.map .relation)⟩ with
    | error e =>
      rw [hmsg] at hnext
      split
      · next h => rw [hnext] at h; cases h; rfl
      · next h => rw [hnext] at h; cases h
      · next h => rw [hnext] at h; cases h
    | ok rel₁ =>
      rw [hmsg] at hnext
      split
      · next h => rw [hnext] at h; cases h
      · next h => rw [hnext] at h; cases h
      · next h =>
        rw [hnext] at h
        cases h
        exact ih hfits.2 (gates ++ rel₁.gates) (foldlM_bufferFile hmsg)

theorem BufRelation.read_file {fb : FlatBuffers} (cut : fb.Cut .relation) :
    read fb cut.file = (cut.content.foldlM readDirective ⟨fun _ => none, [], []⟩).map
      fun rel => (rel.gates, rel.funStore) :=
  readAll_file fb cut.messages cut.fits [] rfl

end Streams

/-! ## The readers agree -/

/-- Both readers fail, or both end with the same contents. -/
def Agree : Except PluginError (List GateM × FunStore (List UInt8)) →
    Except PluginError (List GateM × FunStore (List UInt8)) → Prop
  | .ok (gates, store), .ok (gates', store') => SameContent gates gates' store store'
  | .error _, .error _ => True
  | _, _ => False

/-- Both readers take or refuse each beginning of the relation, however it is cut into messages. -/
def FrontEndsAgree (fb : FlatBuffers) (ds : List Directive) : Prop :=
  ∀ front, front <+: ds → ∀ cut : fb.Cut .relation, cut.content = front →
    Agree (TextRelation.read front) (BufRelation.read fb cut.file)

variable {fb : FlatBuffers}

theorem agree_iff (cut : fb.Cut .relation) :
    Agree (TextRelation.read cut.content) (BufRelation.read fb cut.file) ↔
      ((∀ d ∈ cut.content, d.TextAccepts) → ∀ d ∈ cut.content, d.BufAccepts) := by
  have htext := isOk_foldlM TextRelation.isOk_readDirective cut.content TextRelation.default
  have hbuf := isOk_foldlM BufRelation.isOk_readDirective cut.content ⟨fun _ => none, [], []⟩
  rw [← htext, ← hbuf, BufRelation.read_file, TextRelation.read]
  cases ht : cut.content.foldlM TextRelation.readDirective TextRelation.default with
  | error e =>
    cases hb : cut.content.foldlM BufRelation.readDirective ⟨fun _ => none, [], []⟩ with
    | error e' => exact iff_of_true trivial fun h => nomatch h
    | ok buf =>
      rw [hb] at hbuf
      have hall := htext.2 fun d hd => ((hbuf.1 rfl) d hd).textAccepts
      rw [ht] at hall
      exact nomatch hall
  | ok rel =>
    cases hb : cut.content.foldlM BufRelation.readDirective ⟨fun _ => none, [], []⟩ with
    | error e' => exact iff_of_false (fun h => h) fun h => nomatch h rfl
    | ok buf =>
      refine iff_of_true ?_ fun _ => rfl
      exact rel_foldlM (f := TextRelation.readDirective) (g := BufRelation.readDirective)
        (R := fun rel buf => SameContent rel.gates buf.gates rel.funStore buf.funStore)
        (fun _ _ _ _ _ _ => sameContent_readDirective) ⟨rfl, rfl⟩ ht hb

/-- A plugin that both readers would take without its parameters, which are numbers. -/
def Directive.NumericPlugin : Directive → Prop
  | .plugin _ _ inputs body => body.name = "mux_v0" ∧ body.operation = "strict" ∧
      inputs.length % 2 = 1 ∧ body.params ≠ [] ∧
      ∀ param ∈ body.params, ∃ numeral value, param = .number numeral value
  | _ => False

/-- A plugin that both readers refuse. -/
def Directive.Rejected : Directive → Prop
  | .plugin _ _ inputs body => body.name ≠ "mux_v0" ∨ body.operation ≠ "strict" ∨
      inputs.length % 2 = 0 ∨ ∃ s, .string s ∈ body.params
  | _ => False

theorem TextRelation.stringParams_eq_nil {params : List PluginParam} :
    stringParams params = [] ↔
      ∀ param ∈ params, ∃ numeral value, param = .number numeral value := by
  induction params with
  | nil => simp [stringParams]
  | cons param params ih =>
    cases param with
    | number numeral value => simp [stringParams, ih]
    | string s => simp [stringParams]

theorem Directive.numericPlugin_iff {d : Directive} :
    d.NumericPlugin ↔ d.TextAccepts ∧ ¬d.BufAccepts := by
  cases d with
  | gate gate => exact iff_of_false (fun h => h) fun h => h.2 trivial
  | function name outputs inputs body => exact iff_of_false (fun h => h) fun h => h.2 trivial
  | plugin name outputs inputs body =>
    simp only [NumericPlugin, TextAccepts, BufAccepts, TextRelation.stringParams_eq_nil]
    tauto

theorem Directive.rejected_iff {d : Directive} : d.Rejected ↔ ¬d.TextAccepts := by
  cases d with
  | gate gate => exact iff_of_false (fun h => h) fun h => h trivial
  | function name outputs inputs body => exact iff_of_false (fun h => h) fun h => h trivial
  | plugin name outputs inputs body =>
    have hstrings :
        (∃ s, .string s ∈ body.params) ↔ TextRelation.stringParams body.params ≠ [] := by
      rw [Ne, TextRelation.stringParams_eq_nil, not_forall]
      constructor
      · rintro ⟨s, hs⟩
        exact ⟨.string s, fun h => by simpa using h hs⟩
      · rintro ⟨param, hparam⟩
        rw [Classical.not_imp] at hparam
        cases param with
        | number numeral value => exact absurd ⟨numeral, value, rfl⟩ hparam.2
        | string s => exact ⟨s, hparam.1⟩
    have hparity : inputs.length % 2 = 0 ↔ ¬inputs.length % 2 = 1 := by omega
    simp only [Rejected, TextAccepts, hstrings, hparity]
    tauto

/-- Each plugin whose parameters are numbers stands behind a plugin that both readers refuse. -/
def NumericPluginsUnread (ds : List Directive) : Prop :=
  ∀ front d, front ++ [d] <+: ds → d.NumericPlugin → ∃ d' ∈ front, d'.Rejected

/-- A relation that is sent one directive at a time. -/
def Relation.single (rel : Relation fb) {front : List Directive} (h : front <+: rel.directives) :
    fb.Cut .relation where
  messages := front.map fun d => [d]
  fits msg hmsg := by
    obtain ⟨d, hd, rfl⟩ := List.mem_map.1 hmsg
    exact rel.fits d (h.subset hd)

theorem Relation.content_single (rel : Relation fb) {front : List Directive}
    (h : front <+: rel.directives) : (rel.single h).content = front := by
  rw [single, FlatBuffers.Cut.content, ← List.flatMap_def, List.flatMap_singleton']

theorem frontEndsAgree_iff (rel : Relation fb) :
    FrontEndsAgree fb rel.directives ↔ NumericPluginsUnread rel.directives := by
  constructor
  · intro hagree front d hfront hd
    by_contra hnone
    obtain ⟨htext, hbuf⟩ := Directive.numericPlugin_iff.1 hd
    have hcut := agree_iff (rel.single hfront)
    rw [rel.content_single hfront] at hcut
    replace hcut := hcut.1 (hagree _ hfront _ (rel.content_single hfront))
    refine hbuf (hcut (fun d' hd' => ?_) d (by simp))
    rcases List.mem_append.1 hd' with hmem | hmem
    · by_contra hreject
      exact hnone ⟨d', hmem, Directive.rejected_iff.2 hreject⟩
    · rw [List.mem_singleton.1 hmem]
      exact htext
  · rintro hunread _ hfront cut rfl
    refine (agree_iff cut).2 fun htext d hd => ?_
    by_contra hbuf
    obtain ⟨front, back, hsplit⟩ := List.append_of_mem hd
    have hstart : front ++ [d] <+: rel.directives :=
      List.IsPrefix.trans ⟨back, by rw [hsplit, List.append_assoc, List.singleton_append]⟩ hfront
    obtain ⟨d', hd', hreject⟩ := hunread front d hstart
      (Directive.numericPlugin_iff.2 ⟨htext d hd, hbuf⟩)
    have hmem : d' ∈ cut.content := by
      rw [hsplit]
      exact List.mem_append_left _ hd'
    exact Directive.rejected_iff.1 hreject (htext d' hmem)

/-- All values of all messages are read, in order, behind those that were there. -/
def Delivers (read : List (List UInt8) → Except PluginError (List (List UInt8) × List UInt8))
    (content : List (List UInt8)) : Prop :=
  ∀ values, ∃ field, read values = .ok (values ++ content, field)

theorem delivers_publicInputs_iff {modulus : List UInt8} (cut : fb.Cut (.publicInputs modulus)) :
    Delivers (readPublicInputs fb cut.file) cut.content ↔
      ∃ msg rest, cut.messages = msg :: rest ∧ rest.flatten = [] := by
  rw [FlatBuffers.Cut.content, FlatBuffers.Cut.file]
  obtain ⟨messages, hfits⟩ := cut
  cases messages with
  | nil =>
    refine iff_of_false (fun h => ?_) fun ⟨_, _, h, _⟩ => nomatch h
    obtain ⟨field, hread⟩ := h []
    rw [List.map_nil, readPublicInputs_nil] at hread
    cases hread
  | cons msg rest =>
    have hmsg := hfits msg List.mem_cons_self
    simp only [Delivers, List.map_cons, readPublicInputs_file fb hmsg, Except.ok.injEq,
      Prod.mk.injEq, List.flatten_cons, List.append_cancel_left_eq, List.cons.injEq]
    constructor
    · intro h
      obtain ⟨field, hvalues, -⟩ := h []
      exact ⟨msg, rest, ⟨rfl, rfl⟩, List.self_eq_append_right.1 hvalues⟩
    · rintro ⟨_, _, ⟨rfl, rfl⟩, hrest⟩ values
      exact ⟨modulus, by rw [hrest, List.append_nil], rfl⟩

theorem delivers_privateInputs {modulus : List UInt8} (cut : fb.Cut (.privateInputs modulus)) :
    Delivers (readPrivateInputs fb cut.file) cut.content :=
  fun values => readPrivateInputsLoop_file fb (.inl rfl) cut.messages cut.fits values

/-- The readers agree on a relation and deliver its inputs if and only if no plugin whose parameters
are numbers is reached, and no public input stands behind the first message. -/
theorem readers_agree_iff (fb : FlatBuffers) (rel : Relation fb) (modulus : List UInt8)
    (publicCut : fb.Cut (.publicInputs modulus)) (privateCut : fb.Cut (.privateInputs modulus)) :
    (FrontEndsAgree fb rel.directives ∧
        Delivers (readPublicInputs fb publicCut.file) publicCut.content ∧
        Delivers (readPrivateInputs fb privateCut.file) privateCut.content) ↔
      NumericPluginsUnread rel.directives ∧
        ∃ msg rest, publicCut.messages = msg :: rest ∧ rest.flatten = [] := by
  rw [frontEndsAgree_iff, delivers_publicInputs_iff]
  exact and_congr_right fun _ => and_iff_left (delivers_privateInputs privateCut)

/-! ## A table of messages -/

/-- Bytes that don't fit into a message. -/
@[irreducible] def tooLong : List UInt8 := List.replicate (2 ^ 32) 0

theorem length_tooLong : tooLong.length = 2 ^ 32 := by
  unfold tooLong
  rw [List.length_replicate]

/-- Messages of one byte, their number in a table; no other content fits into a message. -/
def tableFlatBuffers (table : List Root) (hlength : table.length ≤ 256) : FlatBuffers where
  finish root :=
    if root ∈ table then [UInt8.ofNat (table.idxOf root)] else tooLong
  sizePrefixedRoot bytes :=
    match (bytes.drop 4).take (ofBytes (bytes.take 4)) with
    | [b] => table[b.toNat]?
    | _ => none
  finish_ne_nil root := by
    split
    · exact List.cons_ne_nil _ _
    · exact List.ne_nil_of_length_pos (by rw [length_tooLong]; decide)
  sizePrefixedRoot_nil := rfl
  sizePrefixedRoot_finish root rest hfits := by
    by_cases hmem : root ∈ table
    · have hlt : table.idxOf root < 256 := lt_of_lt_of_le (List.idxOf_lt_length_of_mem hmem) hlength
      have hsize := length_sizePrefix 1
      rw [if_pos hmem, List.length_singleton, List.append_assoc, List.take_left' hsize,
        List.drop_left' hsize, ofBytes_sizePrefix (by decide), List.singleton_append,
        List.take_succ_cons, List.take_zero]
      dsimp only
      rw [UInt8.toNat_ofNat', Nat.mod_eq_of_lt hlt]
      exact List.getElem?_idxOf hmem
    · rw [if_neg hmem, length_tooLong] at hfits
      exact absurd hfits (lt_irrefl _)

theorem tableFlatBuffers_fits {table : List Root} {hlength : table.length ≤ 256} {root : Root}
    (h : root ∈ table) : (tableFlatBuffers table hlength).Fits root := by
  show (if root ∈ table then _ else _ : List UInt8).length < _
  rw [if_pos h, List.length_singleton]
  decide

/-- A mux on one type with a number as its parameter. -/
def numericMux : Directive :=
  let ty : Fin 256 := Fin.last 255
  .plugin "mux" [(ty, 1)] [(ty, 1), (ty, 1), (ty, 1)]
    ⟨"mux_v0", "strict", [.number "2" [2]], [], []⟩

/-- The mux in one message, and two messages of one public input each. -/
def sampleMessages : FlatBuffers :=
  tableFlatBuffers [.relation [numericMux], .publicInputs [2] [[1]], .publicInputs [2] [[0]]]
    (by decide)

def sampleRelation : Relation sampleMessages where
  directives := [numericMux]
  fits d hd := by
    rw [List.mem_singleton.1 hd]
    exact tableFlatBuffers_fits (by decide)

def samplePublicInputs : sampleMessages.Cut (.publicInputs [2]) where
  messages := [[[1]], [[0]]]
  fits msg hmsg := by
    refine tableFlatBuffers_fits ?_
    rcases List.mem_cons.1 hmsg with rfl | hmsg
    · decide
    · rw [List.mem_singleton.1 hmsg]
      decide

/-- The text reader takes the mux and the reader of messages does not, and the second public input
is lost. -/
theorem not_readers_agree :
    ¬FrontEndsAgree sampleMessages sampleRelation.directives ∧
      ¬Delivers (readPublicInputs sampleMessages samplePublicInputs.file)
        samplePublicInputs.content := by
  rw [frontEndsAgree_iff, delivers_publicInputs_iff]
  constructor
  · intro hunread
    obtain ⟨d, hd, -⟩ := hunread [] numericMux (List.prefix_rfl)
      ⟨rfl, rfl, rfl, by simp, fun param h => ⟨"2", [2], List.mem_singleton.1 h⟩⟩
    exact absurd hd List.not_mem_nil
  · rintro ⟨msg, rest, hmessages, hrest⟩
    cases hmessages
    exact nomatch hrest

end EdaBitGen.FrontEnd
