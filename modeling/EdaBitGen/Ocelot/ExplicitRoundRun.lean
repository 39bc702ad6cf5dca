import EdaBitGen.Ocelot.OtRun
import EdaBitGen.Ocelot.ExplicitRound

/-!
# Runs of KOS OT in explicit rounds

The rows of a selector are those of the extension whose generators start anew with each call; the
messages are the extension's, in bytes.
-/

namespace EdaBitGen.Ocelot.ExplicitRound

/-! ## Blocks in bytes -/

theorem length_bytesOf (x : Block) : (bytesOf x).length = 16 := by
  rw [bytesOf, List.length_map, List.length_range]

theorem getBit_bytesOf (x : Block) (rest : Bytes) {k : ℕ} (hk : k < 128) :
    getBit (bytesOf x ++ rest) k = x.getLsbD k := by
  rw [getBit_append _ _ (by rw [length_bytesOf]; omega)]
  have hbyte : k / 8 < 16 := by omega
  have hbit : k % 8 < 8 := by omega
  have hpos : 8 * (k / 8) + k % 8 = k := Nat.div_add_mod k 8
  simp [getBit, bytesOf, hbyte, hbit, hpos]

theorem blockAt_bytesOf (x : Block) (rest : Bytes) : blockAt (bytesOf x ++ rest) 0 = x := by
  apply BitVec.eq_of_getLsbD_eq
  intro k hk
  rw [getLsbD_blockAt _ 0 hk, Nat.zero_mul, Nat.zero_add, getBit_bytesOf x rest hk]

theorem split_append {n : ℕ} (v rest : Bytes) (h : v.length = n) :
    split n (v ++ rest) = .ok (v, rest) := by
  subst h
  rw [split, if_neg (by rw [List.length_append]; omega), List.take_left, List.drop_left]

theorem readBlock_append (x : Block) (rest : Bytes) :
    readBlock (bytesOf x ++ rest) = .ok (x, rest) := by
  have hblock := blockAt_bytesOf x []
  rw [List.append_nil] at hblock
  rw [readBlock, split_append _ rest (length_bytesOf x), Staged.ok_bind]
  show Staged.ok (blockAt (bytesOf x) 0, rest) = _
  rw [hblock]

theorem getLsbD_block (t : TwoBlocks) (k : ℕ) {i : ℕ} (hi : i < 128) :
    (productBlock t k).getLsbD i = decide (∃ h : k + i < 256, t ⟨k + i, h⟩ = 1) := by
  unfold productBlock
  rw [BitVec.getLsbD_setWidth, BitVec.getLsbD_ofBoolListLE, List.getD_eq_getElem?_getD,
    List.getElem?_map, List.getElem?_range hi, decide_eq_true hi]
  rfl

theorem coefficient_block (t : TwoBlocks) (k : ℕ) {i : ℕ} (hi : i < 128) (h : k + i < 256) :
    coefficient (productBlock t k) i = t ⟨k + i, h⟩ := by
  have hbit : ∀ z : ZMod 2, (if z = 1 then 1 else 0) = z := by decide
  rw [coefficient, getLsbD_block t k hi, ← hbit (t ⟨k + i, h⟩)]
  simp [h]

theorem ofBlocks_toBlocks (t : TwoBlocks) : ofBlocks (toBlocks t) = t := by
  funext k
  have hk := k.isLt
  unfold ofBlocks toBlocks
  split_ifs with h
  · exact (coefficient_block t 0 h (by omega)).trans (congrArg t (Fin.ext (Nat.zero_add _)))
  · exact (coefficient_block t 128 (by omega) (by omega)).trans
      (congrArg t (Fin.ext (Nat.add_sub_cancel' (by omega))))

/-! ## The rows -/

variable (aes : Aes)

theorem length_fillFrom (key : Block) (selector : BitVec 64) (ctr len : ℕ) :
    (fillFrom aes key selector ctr len).length = len := by
  fun_induction fillFrom aes key selector ctr len with
  | case1 => rfl
  | case2 ctr len hlen bytes toTake ih =>
    have hbytes : bytes.length = aes.blockCountHint * 16 := by
      simp only [bytes, List.length_flatMap, length_bytesOf, List.map_const', List.length_range,
        List.sum_replicate, smul_eq_mul]
    rw [List.length_append, List.length_take, ih, hbytes]
    omega

/-- The generators of one selector: every call starts its counter again. -/
abbrev rowRng (selector : BitVec 64) : RowRng where
  State := Block
  fromSeed := id
  fillBytes key n := (fillRngWithSelector aes key selector n, key)
  length_fillBytes key n := length_fillFrom aes key selector 0 n


theorem xorInplace_zero (q : Bytes) : xorInplace q (List.replicate q.length 0) = q := by
  have hzip : ∀ q : Bytes, q.zipWith (· ^^^ ·) (List.replicate q.length 0) = q := by
    intro q
    induction q with
    | nil => rfl
    | cons byte q ih =>
      rw [List.length_cons, List.replicate_succ, List.zipWith_cons_cons, ih]
      exact congrArg (· :: q) BitVec.xor_zero
  rw [xorInplace, hzip, List.length_replicate, List.drop_length, List.append_nil]

variable {selector : BitVec 64}

theorem senderRow_eq (ncols : ℕ) (b : Bool) (key : Block) (u : Bytes) :
    (Alsz.senderRow (rowRng aes selector) ncols b key u).1 =
      if b then xorInplace (fillRngWithSelector aes key selector (ncols / 8)) u
      else fillRngWithSelector aes key selector (ncols / 8) := by
  cases b with
  | true => rfl
  | false =>
    have hzero := xorInplace_zero (fillRngWithSelector aes key selector (ncols / 8))
    rwa [fillRngWithSelector, length_fillFrom] at hzero

theorem senderRows_eq (ncols : ℕ) (s : Block) (keys : List Block) (bs : List Bool) (us : List Bytes)
    (k : ℕ) (hbs : ∀ i b, bs[i]? = some b → s.getLsbD (k + i) = b)
    (hlen : bs.length = keys.length) (hus : us.length = keys.length)
    (hrows : ∀ u ∈ us, u.length = ncols / 8) :
    AlszSender.setupRows aes s (ncols / 8) selector (keys.zipIdx k) us.flatten =
      .ok ((((bs.zip keys).zip us).map fun r =>
        Alsz.senderRow (rowRng aes selector) ncols r.1.1 r.1.2 r.2).flatMap (·.1), []) := by
  induction keys generalizing bs us k with
  | nil =>
    obtain rfl := List.length_eq_zero_iff.1 hus
    obtain rfl := List.length_eq_zero_iff.1 hlen
    rfl
  | cons key keys ih =>
    obtain ⟨b, bs, rfl⟩ := List.exists_cons_of_length_eq_add_one hlen
    obtain ⟨u, us, rfl⟩ := List.exists_cons_of_length_eq_add_one hus
    have hu : u.length = ncols / 8 := hrows u List.mem_cons_self
    have hb : s.getLsbD k = b := hbs 0 b rfl
    have hrest := ih bs us (k + 1)
      (fun i b hi => by
        have hi' := hbs (i + 1) b hi
        rwa [(by omega : k + (i + 1) = k + 1 + i)] at hi')
      (Nat.succ.inj hlen) (Nat.succ.inj hus) fun u hu => hrows u (List.mem_cons_of_mem _ hu)
    rw [List.zipIdx_cons, List.flatten_cons, AlszSender.setupRows, if_neg (by
      rw [List.length_append]
      omega), ← hu, List.take_left, List.drop_left, hu, hrest, Staged.ok_bind]
    rw [List.zip_cons_cons, List.zip_cons_cons, List.map_cons, List.flatMap_cons, senderRow_eq, hb]
    rfl

theorem receiverRows_eq (ncols : ℕ) (r : Bytes) (keys : List (Block × Block)) (outgoing : Bytes)
    (hlen : outgoing.length = keys.length * (ncols / 8)) :
    AlszReceiver.setupRows aes (ncols / 8) r selector keys outgoing =
      .ok ((keys.map (Alsz.receiverRow (rowRng aes selector) ncols r)).flatMap (·.1.1),
        (keys.map (Alsz.receiverRow (rowRng aes selector) ncols r)).flatMap (·.1.2), []) := by
  induction keys generalizing outgoing with
  | nil =>
    obtain rfl := List.length_eq_zero_iff.1 (hlen.trans (Nat.zero_mul _))
    rfl
  | cons key keys ih =>
    rw [List.length_cons, Nat.succ_mul] at hlen
    have hrest := ih (outgoing.drop (ncols / 8)) (by rw [List.length_drop]; omega)
    rw [AlszReceiver.setupRows, if_neg (by omega), hrest]
    rfl

theorem transposePreAllocated_eq {input out : Bytes} {ncols : ℕ}
    (h : transpose input 128 ncols = some out) :
    transposePreAllocated input 128 ncols = .ok out := by
  unfold transpose at h
  split at h
  · rename_i hinput
    obtain ⟨-, -, hlen, hpos⟩ := hinput
    have hlength : input.length = 128 * ncols / 8 := by omega
    have hmod : input.length % ncols = 0 := by
      have hmul : input.length = 16 * ncols := by omega
      rw [hmul, Nat.mul_mod_left]
    rw [← Option.some.inj h, ← hlength]
    exact if_pos ⟨List.length_replicate.trans hlength, hlength, hpos, hmod⟩
  · cases h

theorem rngs_receiver (base : BaseOts) :
    (base.receiver (rowRng aes selector)).rngs = base.ks :=
  List.map_id' base.ks

theorem rngs_sender (base : BaseOts) :
    (base.sender (rowRng aes selector)).rngs = (bits base.s_).zipWith choose base.ks :=
  List.map_id' _

theorem exists_setup (base : BaseOts) (selector : BitVec 64) {m : ℕ} (hm : 0 < m) {r : Bytes}
    (hr : r.length = columns m / 8) :
    ∃ ts gs qs, gs.length = AlszSender.sendSetupInputBytes m ∧ ts.length = columns m * 16 ∧
      qs.length = columns m * 16 ∧ Alsz.Correlated base.s_ (columns m) r qs ts ∧
      (∀ outgoing, outgoing.length = AlszSender.sendSetupInputBytes m →
        (alszReceiver base).receiveSetup aes r m outgoing selector = .ok (ts, gs)) ∧
      (alszSender base).sendSetup aes m selector gs = .ok qs := by
  obtain ⟨ts, us, receiver', qs, sender', hreceive, hsend, -, -, hcorrelated⟩ :=
    Alsz.exists_setup (@inStep_base (rowRng aes selector) base) hm hr
  have hkeys : base.ks.length = 128 := base.length_ks
  have hcols := Alsz.columns_mod m
  unfold Alsz.receiveSetup at hreceive
  rw [rngs_receiver] at hreceive
  obtain ⟨ts', hts, hreceive⟩ := Option.bind_eq_some_iff.1 hreceive
  obtain ⟨rfl, hrest⟩ := Prod.mk.inj (Option.some.inj hreceive)
  obtain ⟨hus, -⟩ := Prod.mk.inj hrest
  unfold Alsz.sendSetup at hsend
  rw [rngs_sender] at hsend
  obtain ⟨qs', hqs, hsend⟩ := Option.bind_eq_some_iff.1 hsend
  obtain ⟨rfl, -⟩ := Prod.mk.inj (Option.some.inj hsend)
  have hrows : ∀ u ∈ us, u.length = columns m / 8 := by
    rw [← hus]
    refine List.forall_mem_map.2 (List.forall_mem_map.2 fun g _ => ?_)
    exact (@Alsz.length_receiverRow (rowRng aes selector) _ _ g hr).2
  have hflat : (base.ks.map (Alsz.receiverRow (rowRng aes selector) (columns m) r)).flatMap (·.1.2) =
      us.flatten := by
    rw [List.flatMap_def]
    exact congrArg List.flatten hus
  have hlen : us.length = 128 := by
    rw [← hus, List.length_map, List.length_map, hkeys]
  refine ⟨ts', us.flatten, qs', ?_, ?_, ?_, hcorrelated, fun outgoing houtgoing => ?_, ?_⟩
  · rw [List.length_flatten, List.map_congr_left hrows, List.map_const', List.sum_replicate,
      hlen, smul_eq_mul, Nat.mul_comm]
    rfl
  · rw [length_transpose hts]
    omega
  · rw [length_transpose hqs]
    omega
  · have hlength : outgoing.length = base.ks.length * (columns m / 8) := by
      rw [houtgoing, hkeys, Nat.mul_comm]
      rfl
    rw [AlszReceiver.receiveSetup]
    dsimp only [alszReceiver]
    rw [receiverRows_eq aes (columns m) r base.ks outgoing hlength, Staged.ok_bind]
    dsimp only
    rw [if_neg (not_not.2 rfl), transposePreAllocated_eq hts, hflat]
    rfl
  · have hbits : ∀ i b, (bits base.s_)[i]? = some b → base.s_.getLsbD (0 + i) = b := by
      intro i b hi
      obtain ⟨hlt, rfl⟩ := List.getElem?_eq_some_iff.1 hi
      simp only [bits, List.getElem_map, List.getElem_range, Nat.zero_add]
    have hrngs : ((bits base.s_).zipWith choose base.ks).length = 128 := by
      rw [List.length_zipWith, length_bits, hkeys, Nat.min_self]
    rw [AlszSender.sendSetup]
    dsimp only [alszSender]
    rw [senderRows_eq aes (columns m) base.s_ _ (bits base.s_) _ 0 hbits
      ((length_bits base.s_).trans hrngs.symm) (hlen.trans hrngs.symm) hrows, Staged.ok_bind]
    dsimp only
    rw [if_neg (not_not.2 rfl)]
    exact transposePreAllocated_eq hqs

variable (hash : ℕ → Block → Block)

theorem sendMessages_eq (s : Block) (qs : Bytes) (inputs : List ((Block × Block) × ℕ))
    (outgoing : Bytes) (hlen : outgoing.length = 32 * inputs.length) :
    KosSender.sendMessages hash s qs inputs outgoing =
      .ok ((inputs.flatMap fun (input, j) =>
        let q := blockAt qs j
        [hash j q ^^^ input.1, hash j (q ^^^ s) ^^^ input.2]).flatMap bytesOf, []) := by
  induction inputs generalizing outgoing with
  | nil =>
    obtain rfl := List.length_eq_zero_iff.1 hlen
    rfl
  | cons input inputs ih =>
    rw [List.length_cons] at hlen
    have hrest := ih (outgoing.drop 32) (by rw [List.length_drop]; omega)
    rw [KosSender.sendMessages, split, if_neg (by omega), Staged.ok_bind]
    dsimp only
    rw [hrest, Staged.ok_bind, List.flatMap_cons, List.flatMap_append, List.flatMap_cons,
      List.flatMap_cons, List.flatMap_nil, List.append_nil]
    rfl

theorem receiveMessages_eq (ts : Bytes) (choices : List Bool) (messages out rest : List Block)
    (k : ℕ) (hts : (k + choices.length) * 16 ≤ ts.length)
    (h : receivePairs hash ts (choices.zipIdx k) messages = some (out, rest)) :
    KosReceiverStage2.receiveMessages hash ts (choices.zipIdx k) (messages.flatMap bytesOf) =
      .ok (out, rest.flatMap bytesOf) := by
  induction choices generalizing messages out k with
  | nil =>
    obtain ⟨rfl, rfl⟩ := Prod.mk.inj (Option.some.inj h)
    rfl
  | cons b choices ih =>
    rw [List.length_cons] at hts
    rw [List.zipIdx_cons] at h ⊢
    match messages, h with
    | y0 :: y1 :: messages, h =>
      obtain ⟨⟨out', rest'⟩, hrec, hout⟩ := Option.bind_eq_some_iff.1 h
      obtain ⟨rfl, rfl⟩ := Prod.mk.inj (Option.some.inj hout)
      have hrest := ih messages out' (k + 1) (by omega) hrec
      rw [KosReceiverStage2.receiveMessages, if_neg (by omega), List.flatMap_cons,
        List.flatMap_cons, readBlock_append, Staged.ok_bind]
      dsimp only
      rw [readBlock_append, Staged.ok_bind]
      dsimp only
      rw [hrest]
      rfl

/-! ## The stages -/

/-- A transfer: what both parties put in, and the randomness that they draw. -/
structure Session where
  selector : BitVec 64
  choices : List Bool
  inputs : List (Block × Block)
  length_inputs : inputs.length = choices.length
  /-- The receiver's bits for the rows of the check. -/
  padding : Bytes
  length_padding : padding.length = (128 + 40) / 8
  receiverSeed : Block
  senderSeed : Block

theorem check_reveal {s_ : Block} {r qs ts : Bytes} {chis : List Block}
    (h : Alsz.Correlated s_ chis.length r qs ts) (hr : r.length * 8 = chis.length) :
    Kos.senderCheck s_ qs chis (Kos.receiverCheck ts (u8vecToBoolvec r) chis).1 =
      (Kos.receiverCheck ts (u8vecToBoolvec r) chis).2 := by
  have hcheck := Kos.check_eq h hr
  unfold Kos.check at hcheck
  by_contra hne
  rw [if_pos hne] at hcheck
  cases hcheck

variable (rng : RowRng) (blake3 : Blake3)

/-- The bytes that the receiver reveals: its seed and its values for the check. -/
def reveal (seed : Block) (check : Block × TwoBlocks) : Bytes :=
  bytesOf seed ++ bytesOf check.1 ++ bytesOf (toBlocks check.2).1 ++
    bytesOf (toBlocks check.2).2

theorem length_reveal (seed : Block) (check : Block × TwoBlocks) :
    (reveal seed check).length = KosSenderStage2.incomingBytes := by
  simp only [reveal, List.length_append, length_bytesOf]
  rfl

theorem length_flatMap_bytesOf (messages : List Block) :
    (messages.flatMap bytesOf).length = 16 * messages.length := by
  induction messages with
  | nil => rfl
  | cons x messages ih =>
    rw [List.flatMap_cons, List.length_append, length_bytesOf, ih, List.length_cons]
    omega

theorem length_messages (s_ : Block) (qs : Bytes) (inputs : List (Block × Block)) :
    ((sendRows hash s_ qs (.send inputs)).1.flatMap bytesOf).length = 32 * inputs.length := by
  have hpairs : ∀ (inputs : List (Block × Block)) (k : ℕ),
      ((inputs.zipIdx k).flatMap fun (input, j) =>
        let q := blockAt qs j
        [hash j q ^^^ input.1, hash j (q ^^^ s_) ^^^ input.2]).length = 2 * inputs.length := by
    intro inputs
    induction inputs with
    | nil => exact fun k => rfl
    | cons input inputs ih =>
      intro k
      rw [List.zipIdx_cons, List.flatMap_cons, List.length_append, ih]
      show 2 + 2 * inputs.length = 2 * (inputs.length + 1)
      omega
  rw [length_flatMap_bytesOf, sendRows]
  dsimp only
  rw [hpairs]
  omega

section Stages

variable (base : BaseOts) (t : Session) {ts gs qs : Bytes}

theorem receive_eq
    (hreceive : ∀ outgoing : Bytes,
      outgoing.length = AlszSender.sendSetupInputBytes (columns t.choices.length + 128 + 40) →
      (alszReceiver base).receiveSetup aes (boolvecToU8vec t.choices ++ t.padding)
        (columns t.choices.length + 128 + 40) outgoing t.selector = .ok (ts, gs))
    (outgoing : Bytes)
    (hlen : outgoing.length = KosReceiver.receiveOutgoingBytes t.choices.length) :
    KosReceiver.receive aes blake3 (alszReceiver base) t.selector t.choices t.padding
      t.receiverSeed outgoing = .ok (⟨t.receiverSeed, t.choices, ts,
        u8vecToBoolvec (boolvecToU8vec t.choices ++ t.padding)⟩,
        gs ++ blake3.hash (bytesOf t.receiverSeed)) := by
  have hparts : outgoing.length =
      AlszSender.sendSetupInputBytes (columns t.choices.length + 128 + 40) + 32 := hlen
  have hsetup := hreceive (outgoing.take
    (AlszSender.sendSetupInputBytes (columns t.choices.length + 128 + 40)))
    (by rw [List.length_take, hparts]; exact Nat.min_eq_left (Nat.le_add_right _ _))
  rw [KosReceiver.receive, if_neg (not_not.2 hlen)]
  dsimp only [ssp]
  rw [split, if_neg (by omega), Staged.ok_bind]
  dsimp only
  refine (congrArg (fun o => Staged.bind o _) hsetup).trans ?_
  have hrest : ¬(outgoing.drop (AlszSender.sendSetupInputBytes
      (columns t.choices.length + 128 + 40))).length ≠
      (blake3.hash (bytesOf t.receiverSeed)).length := by
    rw [List.length_drop, blake3.length_hash, hparts]
    exact not_not.2 (Nat.add_sub_cancel_left ..)
  exact if_neg hrest

theorem send_eq (hgs : gs.length =
      AlszSender.sendSetupInputBytes (columns t.inputs.length + 128 + 40))
    (hqs : t.inputs.length * 16 ≤ qs.length)
    (hsend : (alszSender base).sendSetup aes (columns t.inputs.length + 128 + 40) t.selector
      gs = .ok qs) {commitment : Bytes} (hcommitment : commitment.length = 32) (outgoing : Bytes)
    (hlen : outgoing.length = KosSender.sendOutgoingBytes t.inputs.length) :
    KosSender.send aes hash (alszSender base) t.selector t.inputs t.senderSeed
      (gs ++ commitment) outgoing = .ok (⟨commitment, t.senderSeed, qs,
        columns t.inputs.length + 128 + 40, base.s_⟩, bytesOf t.senderSeed ++
          (sendRows hash base.s_ qs (.send t.inputs)).1.flatMap bytesOf) := by
  have hincoming : (gs ++ commitment).length = KosSender.sendIncomingBytes t.inputs.length := by
    rw [List.length_append, hgs, hcommitment]
    rfl
  have hparts : outgoing.length = 16 + 32 * t.inputs.length := hlen
  rw [KosSender.send, if_neg (not_not.2 hincoming), if_neg (not_not.2 hlen)]
  dsimp only [ssp]
  rw [split_append gs commitment hgs, Staged.ok_bind]
  dsimp only
  rw [hsend, Staged.ok_bind, if_neg (not_not.2 hcommitment), split, if_neg (by omega),
    Staged.ok_bind]
  dsimp only
  rw [if_neg (by omega), sendMessages_eq hash _ qs _ _ (by
    rw [List.length_drop, List.length_zipIdx]
    omega), Staged.ok_bind]
  rfl

theorem receiverStage2_eq (hinputs : t.inputs.length = t.choices.length) (r_ : List Bool)
    (hts : r_.length * 16 ≤ ts.length) (hr_ : t.choices.length ≤ r_.length)
    (hmatching : Matching base.s_ t.choices qs ts) (outgoing : Bytes)
    (hlen : outgoing.length = KosReceiverStage2.outgoingBytes) :
    KosReceiverStage2.stage2 rng hash ⟨t.receiverSeed, t.choices, ts, r_⟩ (bytesOf t.senderSeed ++
      (sendRows hash base.s_ qs (.send t.inputs)).1.flatMap bytesOf) outgoing =
    .ok (t.choices.zipWith choose t.inputs, reveal t.receiverSeed (Kos.receiverCheck ts r_
      (Kos.weights rng (t.senderSeed ^^^ t.receiverSeed) r_.length))) := by
  have hincoming : (bytesOf t.senderSeed ++
      (sendRows hash base.s_ qs (.send t.inputs)).1.flatMap bytesOf).length =
      KosReceiverStage2.incomingBytes t.choices.length := by
    rw [List.length_append, length_bytesOf, length_messages, hinputs]
    rfl
  have hpairs := receivePairs_eq hash t.choices t.inputs 0 hinputs.symm fun j b hj => by
    rw [Nat.zero_add]
    exact hmatching j b hj
  have hout := receiveMessages_eq hash ts t.choices _ _ _ 0 (by omega) hpairs
  rw [List.flatMap_nil] at hout
  rw [KosReceiverStage2.stage2, if_neg (not_not.2 hlen), if_neg (not_not.2 hincoming),
    readBlock_append, Staged.ok_bind]
  unfold sendRows
  dsimp only
  rw [hout, Staged.ok_bind]
  dsimp only
  rw [if_neg (not_not.2 rfl), if_neg (by omega)]
  rfl

theorem senderStage2_eq {r : Bytes} {ncols : ℕ} (hr : r.length * 8 = ncols)
    (hqs : qs.length = ncols * 16) (h : Alsz.Correlated base.s_ ncols r qs ts) :
    KosSenderStage2.stage2 rng blake3 ⟨blake3.hash (bytesOf t.receiverSeed), t.senderSeed, qs, ncols,
      base.s_⟩ (reveal t.receiverSeed (Kos.receiverCheck ts (u8vecToBoolvec r)
        (Kos.weights rng (t.senderSeed ^^^ t.receiverSeed) ncols))) = .ok () := by
  have hchis := Kos.length_weights rng (t.senderSeed ^^^ t.receiverSeed) ncols
  rw [← hchis] at h
  have hcheck := check_reveal h (by rw [hchis, hr])
  generalize hreceived : Kos.receiverCheck ts (u8vecToBoolvec r)
    (Kos.weights rng (t.senderSeed ^^^ t.receiverSeed) ncols) = check at hcheck ⊢
  rw [KosSenderStage2.stage2, if_neg (not_not.2 (length_reveal _ _)), reveal]
  dsimp only
  rw [List.append_assoc, List.append_assoc, List.take_left' (length_bytesOf _), readBlock_append,
    Staged.ok_bind]
  dsimp only
  rw [readBlock_append, Staged.ok_bind]
  dsimp only
  rw [readBlock_append, Staged.ok_bind]
  dsimp only
  have hlast := readBlock_append (toBlocks check.2).2 []
  rw [List.append_nil] at hlast
  rw [hlast, Staged.ok_bind]
  dsimp only
  have hcount : qs.length / 16 = ncols := by omega
  rw [if_neg (not_not.2 rfl), if_neg (not_not.2 hqs), hcount, hcheck]
  exact if_neg (not_not.2 (ofBlocks_toBlocks check.2).symm)

end Stages

/-- The stages of a transfer succeed on all buffers of the announced sizes, whatever an outgoing one
held before, and the receiver gets the chosen messages. -/
theorem exists_stages (base : BaseOts) (t : Session) :
    ∃ receiverStage toSender senderStage toReceiver reveal,
      (∀ outgoing : Bytes, outgoing.length = KosReceiver.receiveOutgoingBytes t.choices.length →
        KosReceiver.receive aes blake3 (alszReceiver base) t.selector t.choices t.padding
          t.receiverSeed outgoing = .ok (receiverStage, toSender)) ∧
      (∀ outgoing : Bytes, outgoing.length = KosSender.sendOutgoingBytes t.inputs.length →
        KosSender.send aes hash (alszSender base) t.selector t.inputs t.senderSeed toSender
          outgoing = .ok (senderStage, toReceiver)) ∧
      (∀ outgoing : Bytes, outgoing.length = KosReceiverStage2.outgoingBytes →
        receiverStage.stage2 rng hash toReceiver outgoing =
          .ok (t.choices.zipWith choose t.inputs, reveal)) ∧
      senderStage.stage2 rng blake3 reveal = .ok () ∧
      toSender.length = KosReceiver.receiveOutgoingBytes t.choices.length ∧
      toReceiver.length = KosSender.sendOutgoingBytes t.inputs.length ∧
      reveal.length = KosReceiverStage2.outgoingBytes := by
  have hinputs := t.length_inputs
  have hcols := Alsz.columns_mod t.choices.length
  have hpadded := Kos.columns_padded t.choices.length
  have hr : (boolvecToU8vec t.choices ++ t.padding).length =
      (columns t.choices.length + 128 + 40) / 8 := by
    rw [List.length_append, length_boolvec_columns, t.length_padding]
    omega
  obtain ⟨ts, gs, qs, hgs, hts, hqs, hcorrelated, hreceive, hsend⟩ :=
    exists_setup aes base t.selector (m := columns t.choices.length + 128 + 40) (by omega)
      (by rw [hpadded, hr])
  rw [hpadded] at hcorrelated hts hqs
  have hr_ : (u8vecToBoolvec (boolvecToU8vec t.choices ++ t.padding)).length =
      columns t.choices.length + 128 + 40 := by
    rw [u8vecToBoolvec_eq, List.length_map, List.length_range, hr]
    omega
  have hle : t.choices.length ≤ columns t.choices.length := by
    unfold columns
    split <;> omega
  have hmatching := Kos.matching_of_correlated hcorrelated
  have hcommitment := blake3.length_hash (bytesOf t.receiverSeed)
  have hreveal := senderStage2_eq rng blake3 base t (by omega) hqs hcorrelated
  have hfits : t.inputs.length * 16 ≤ qs.length := by omega
  have houtputs := receiverStage2_eq hash rng base t hinputs
    (u8vecToBoolvec (boolvecToU8vec t.choices ++ t.padding)) (by omega) (by omega) hmatching
  rw [hr_] at houtputs
  rw [← hinputs] at hgs hsend
  have hmasked := send_eq aes hash base t hgs hfits hsend hcommitment
  rw [hinputs] at hmasked hgs
  refine ⟨_, _, _, bytesOf t.senderSeed ++
    (sendRows hash base.s_ qs (.send t.inputs)).1.flatMap bytesOf, _, receive_eq aes blake3 base t hreceive, ?_, houtputs, hreveal, ?_, ?_, length_reveal _ _⟩
  · rw [hinputs]
    exact hmasked
  · rw [List.length_append, hgs, hcommitment]
    rfl
  · rw [List.length_append, length_bytesOf, length_messages]
    rfl

theorem receive_wrongLength (receiver : AlszReceiver) (selector : BitVec 64) (choices : List Bool)
    (padding : Bytes) (ourSeed : Block) {outgoing : Bytes}
    (h : outgoing.length ≠ KosReceiver.receiveOutgoingBytes choices.length) :
    ∃ message, KosReceiver.receive aes blake3 receiver selector choices padding ourSeed outgoing =
      .error message :=
  ⟨_, if_pos h⟩

theorem send_wrongLength (sender : AlszSender) (selector : BitVec 64)
    (inputs : List (Block × Block)) (ourSeed : Block) {incoming outgoing : Bytes}
    (h : incoming.length ≠ KosSender.sendIncomingBytes inputs.length ∨
      outgoing.length ≠ KosSender.sendOutgoingBytes inputs.length) :
    ∃ message, KosSender.send aes hash sender selector inputs ourSeed incoming outgoing =
      .error message := by
  unfold KosSender.send
  dsimp only
  split
  · exact ⟨_, rfl⟩
  · next hincoming => exact ⟨_, if_pos (h.resolve_left hincoming)⟩

theorem receiverStage2_wrongLength (stage : KosReceiverStage2) {incoming outgoing : Bytes}
    (h : incoming.length ≠ KosReceiverStage2.incomingBytes stage.choices.length ∨
      outgoing.length ≠ KosReceiverStage2.outgoingBytes) :
    ∃ message, stage.stage2 rng hash incoming outgoing = .error message := by
  unfold KosReceiverStage2.stage2
  split
  · exact ⟨_, rfl⟩
  · next houtgoing => exact ⟨_, if_pos (h.resolve_right houtgoing)⟩

theorem senderStage2_wrongLength (stage : KosSenderStage2) {incoming : Bytes}
    (h : incoming.length ≠ KosSenderStage2.incomingBytes) :
    ∃ message, stage.stage2 rng blake3 incoming = .error message :=
  ⟨_, if_pos h⟩

/-- The stages of a transfer succeed on buffers of the announced sizes, fill those that they send and
give the receiver the chosen messages; a buffer of another size is an error in each of them. -/
theorem kosStages_correct :
    (∀ (base : BaseOts) (t : Session), ∃ receiverStage toSender senderStage toReceiver reveal,
      (∀ outgoing : Bytes, outgoing.length = KosReceiver.receiveOutgoingBytes t.choices.length →
        KosReceiver.receive aes blake3 (alszReceiver base) t.selector t.choices t.padding
          t.receiverSeed outgoing = .ok (receiverStage, toSender)) ∧
      (∀ outgoing : Bytes, outgoing.length = KosSender.sendOutgoingBytes t.inputs.length →
        KosSender.send aes hash (alszSender base) t.selector t.inputs t.senderSeed toSender
          outgoing = .ok (senderStage, toReceiver)) ∧
      (∀ outgoing : Bytes, outgoing.length = KosReceiverStage2.outgoingBytes →
        receiverStage.stage2 rng hash toReceiver outgoing =
          .ok (t.choices.zipWith choose t.inputs, reveal)) ∧
      senderStage.stage2 rng blake3 reveal = .ok () ∧
      toSender.length = KosReceiver.receiveOutgoingBytes t.choices.length ∧
      toReceiver.length = KosSender.sendOutgoingBytes t.inputs.length ∧
      reveal.length = KosReceiverStage2.outgoingBytes) ∧
    (∀ (receiver : AlszReceiver) (selector : BitVec 64) (choices : List Bool) (padding : Bytes)
      (ourSeed : Block) (outgoing : Bytes),
      outgoing.length ≠ KosReceiver.receiveOutgoingBytes choices.length →
      ∃ message, KosReceiver.receive aes blake3 receiver selector choices padding ourSeed outgoing =
        .error message) ∧
    (∀ (sender : AlszSender) (selector : BitVec 64) (inputs : List (Block × Block))
      (ourSeed : Block) (incoming outgoing : Bytes),
      incoming.length ≠ KosSender.sendIncomingBytes inputs.length ∨
        outgoing.length ≠ KosSender.sendOutgoingBytes inputs.length →
      ∃ message, KosSender.send aes hash sender selector inputs ourSeed incoming outgoing =
        .error message) ∧
    (∀ (stage : KosReceiverStage2) (incoming outgoing : Bytes),
      incoming.length ≠ KosReceiverStage2.incomingBytes stage.choices.length ∨
        outgoing.length ≠ KosReceiverStage2.outgoingBytes →
      ∃ message, stage.stage2 rng hash incoming outgoing = .error message) ∧
    (∀ (stage : KosSenderStage2) (incoming : Bytes),
      incoming.length ≠ KosSenderStage2.incomingBytes →
      ∃ message, stage.stage2 rng blake3 incoming = .error message) :=
  ⟨exists_stages aes hash rng blake3,
    fun receiver selector choices padding ourSeed _ =>
      receive_wrongLength aes blake3 receiver selector choices padding ourSeed,
    fun sender selector inputs ourSeed _ _ =>
      send_wrongLength aes hash sender selector inputs ourSeed,
    fun stage _ _ => receiverStage2_wrongLength hash rng stage,
    fun stage _ => senderStage2_wrongLength rng blake3 stage⟩

end EdaBitGen.Ocelot.ExplicitRound
