import EdaBitGen.Ocelot.OtExtension

/-!
# The rows of the parties

Each block of the sender is the receiver's, with the sender's secret added where the receiver's bit is
one. The row generators stay in step.
-/

namespace EdaBitGen.Ocelot

variable {rng : RowRng}

/-! ## Blocks -/

theorem getLsbD_blockAt (v : Bytes) (j : ℕ) {k : ℕ} (hk : k < 128) :
    (blockAt v j).getLsbD k = getBit v (j * 128 + k) := by
  unfold blockAt
  rw [BitVec.getLsbD_setWidth, BitVec.getLsbD_ofBoolListLE, List.getD_eq_getElem?_getD,
    List.getElem?_map, List.getElem?_range hk, decide_eq_true hk]
  rfl

theorem coefficient_xor (x y : Block) (i : ℕ) :
    coefficient (x ^^^ y) i = coefficient x i + coefficient y i := by
  unfold coefficient
  rw [BitVec.getLsbD_xor]
  cases x.getLsbD i with
  | false => cases y.getLsbD i with
    | false => rfl
    | true => rfl
  | true => cases y.getLsbD i with
    | false => rfl
    | true => rfl

theorem clmul_xor (x y z : Block) : clmul (x ^^^ y) z = clmul x z + clmul y z := by
  funext k
  unfold clmul
  rw [Pi.add_apply, ← Finset.sum_add_distrib]
  refine Finset.sum_congr rfl fun i _ => ?_
  rw [coefficient_xor, add_mul]

theorem clmul_comm (x y : Block) : clmul x y = clmul y x := by
  funext k
  unfold clmul
  rw [← Finset.Nat.sum_antidiagonal_swap]
  exact Finset.sum_congr rfl fun i _ => mul_comm _ _

theorem clmul_zero (z : Block) : clmul 0 z = 0 := by
  have h := clmul_xor 0 0 z
  rw [BitVec.xor_self] at h
  exact left_eq_add.1 h

theorem twoBlocks_add_self (x : TwoBlocks) : x + x = 0 := by
  funext k
  exact CharTwo.add_self_eq_zero (x k)

/-! ## The generators -/

/-- The sender's generators are its choices of the receiver's. -/
structure InStep (sender : Sender rng) (receiver : Receiver rng) : Prop where
  s_eq : sender.s = bits sender.s_
  length_rngs : receiver.rngs.length = 128
  rngs_eq : sender.rngs = (bits sender.s_).zipWith choose receiver.rngs

theorem length_bits (s_ : Block) : (bits s_).length = 128 := by
  rw [bits, List.length_map, List.length_range]

theorem inStep_base (base : BaseOts) : InStep (base.sender rng) (base.receiver rng) where
  s_eq := rfl
  length_rngs := by
    show (base.ks.map _).length = 128
    rw [List.length_map, base.length_ks]
  rngs_eq := by
    show ((bits base.s_).zipWith choose base.ks).map rng.fromSeed =
      (bits base.s_).zipWith choose (base.ks.map _)
    rw [List.map_zipWith, List.zipWith_map_right]
    congr
    funext b k
    cases b with
    | false => rfl
    | true => rfl

namespace Alsz

/-- A row of the sender, from a choice and the receiver's generators. -/
def matchingRow (ncols : ℕ) (r : Bytes) (b : Bool) (g : rng.State × rng.State) : Bytes × rng.State :=
  senderRow rng ncols b (choose b g) (receiverRow rng ncols r g).1.2

theorem senderRows_eq (ncols : ℕ) (r : Bytes) (s : List Bool) (rngs : List (rng.State × rng.State)) :
    ((s.zip (s.zipWith choose rngs)).zip ((rngs.map (receiverRow rng ncols r)).map (·.1.2))).map
      (fun r => senderRow rng ncols r.1.1 r.1.2 r.2) = s.zipWith (matchingRow ncols r) rngs := by
  induction s generalizing rngs with
  | nil => rfl
  | cons b s ih =>
    cases rngs with
    | nil => rfl
    | cons g rngs => exact congrArg (_ :: ·) (ih rngs)

theorem length_receiverRow {ncols : ℕ} {r : Bytes} (g : rng.State × rng.State)
    (hr : r.length = ncols / 8) : (receiverRow rng ncols r g).1.1.length = ncols / 8 ∧
      (receiverRow rng ncols r g).1.2.length = ncols / 8 := by
  have h0 := rng.length_fillBytes g.1 (ncols / 8)
  have h1 := rng.length_fillBytes g.2 (ncols / 8)
  refine ⟨h0, ?_⟩
  show (xorInplace (xorInplace _ _) r).length = _
  rw [length_xorInplace, length_xorInplace, h1]
  · rw [h1, h0]
  · rw [length_xorInplace (h1.trans h0.symm), h1, hr]

theorem length_matchingRow {ncols : ℕ} {r : Bytes} (b : Bool) (g : rng.State × rng.State)
    (hr : r.length = ncols / 8) : (matchingRow ncols r b g).1.length = ncols / 8 := by
  have hfill := rng.length_fillBytes (choose b g) (ncols / 8)
  have hu := (length_receiverRow g hr).2
  show (xorInplace _ _).length = _
  rw [length_xorInplace, hfill]
  cases b with
  | false => exact hfill.trans List.length_replicate.symm
  | true => exact hfill.trans hu.symm

theorem getBit_matchingRow {ncols : ℕ} {r : Bytes} (b : Bool) (g : rng.State × rng.State)
    (hr : r.length = ncols / 8) (j : ℕ) : getBit (matchingRow ncols r b g).1 j =
      (getBit (receiverRow rng ncols r g).1.1 j ^^ (b && getBit r j)) := by
  have h0 := rng.length_fillBytes g.1 (ncols / 8)
  have h1 := rng.length_fillBytes g.2 (ncols / 8)
  have hu : (xorInplace (xorInplace (rng.fillBytes g.2 (ncols / 8)).1
      (rng.fillBytes g.1 (ncols / 8)).1) r).length = ncols / 8 := (length_receiverRow g hr).2
  cases b with
  | false =>
    show getBit (xorInplace (rng.fillBytes g.1 (ncols / 8)).1 (List.replicate (ncols / 8) 0)) j =
      (getBit (rng.fillBytes g.1 (ncols / 8)).1 j ^^ (false && getBit r j))
    rw [getBit_xorInplace (h0.trans List.length_replicate.symm), getBit_replicate, Bool.false_and]
  | true =>
    show getBit (xorInplace (rng.fillBytes g.2 (ncols / 8)).1 (xorInplace (xorInplace
      (rng.fillBytes g.2 (ncols / 8)).1 (rng.fillBytes g.1 (ncols / 8)).1) r)) j =
      (getBit (rng.fillBytes g.1 (ncols / 8)).1 j ^^ (true && getBit r j))
    have hinner : (xorInplace (rng.fillBytes g.2 (ncols / 8)).1
        (rng.fillBytes g.1 (ncols / 8)).1).length = r.length := by
      rw [length_xorInplace (h1.trans h0.symm), h1, hr]
    rw [getBit_xorInplace (h1.trans hu.symm), getBit_xorInplace hinner,
      getBit_xorInplace (h1.trans h0.symm)]
    simp

theorem columns_mod (m : ℕ) : columns m % 8 = 0 := by
  unfold columns
  split <;> omega

theorem length_flatten {rows : List Bytes} {ncols : ℕ} (hcols : ncols % 8 = 0)
    (hlen : rows.length = 128) (hrows : ∀ row ∈ rows, row.length = ncols / 8) :
    128 * ncols = rows.flatten.length * 8 := by
  rw [List.length_flatten, List.map_congr_left hrows, List.map_const', List.sum_replicate, hlen,
    smul_eq_mul]
  omega

/-- The sender's block in a column, from the receiver's one. -/
def Correlated (s_ : Block) (ncols : ℕ) (r qs ts : Bytes) : Prop :=
  ∀ j < ncols, blockAt qs j = blockAt ts j ^^^ (if getBit r j then s_ else 0)

theorem exists_setup {sender : Sender rng} {receiver : Receiver rng} (h : InStep sender receiver)
    {m : ℕ} (hm : 0 < m) {r : Bytes} (hr : r.length = columns m / 8) :
    ∃ ts us receiver' qs sender', receiveSetup rng receiver r m = some (ts, us, receiver') ∧
      sendSetup rng sender us m = some (qs, sender') ∧ InStep sender' receiver' ∧
      sender'.s_ = sender.s_ ∧ Correlated sender.s_ (columns m) r qs ts := by
  have hcols := columns_mod m
  have hpos : 0 < columns m := by
    unfold columns
    split <;> omega
  have htrows : ∀ row ∈ receiver.rngs.map fun g => (receiverRow rng (columns m) r g).1.1,
      row.length = columns m / 8 := List.forall_mem_map.2 fun g _ => (length_receiverRow g hr).1
  have hqrows : ∀ row ∈ (bits sender.s_).zipWith (fun b g => (matchingRow (columns m) r b g).1)
      receiver.rngs, row.length = columns m / 8 := by
    intro row hrow
    rw [← List.map_uncurry_zip_eq_zipWith] at hrow
    obtain ⟨e, -, rfl⟩ := List.mem_map.1 hrow
    exact length_matchingRow e.1 e.2 hr
  obtain ⟨ts, hts, htbits⟩ := exists_transpose (by omega : 128 % 8 = 0) hcols hpos
    (length_flatten hcols (by rw [List.length_map, h.length_rngs]) htrows)
  obtain ⟨qs, hqs, hqbits⟩ := exists_transpose (by omega : 128 % 8 = 0) hcols hpos
    (length_flatten hcols (by
      rw [List.length_zipWith, length_bits, h.length_rngs, Nat.min_self]) hqrows)
  refine ⟨ts, (receiver.rngs.map (receiverRow rng (columns m) r)).map (·.1.2),
    ⟨(receiver.rngs.map (receiverRow rng (columns m) r)).map (·.2)⟩, qs,
    ⟨sender.s, sender.s_, ((bits sender.s_).zipWith (matchingRow (columns m) r)
      receiver.rngs).map (·.2)⟩, ?_, ?_, ⟨h.s_eq, ?_, ?_⟩, rfl, ?_⟩
  · have hflat : (receiver.rngs.map (receiverRow rng (columns m) r)).flatMap (·.1.1) =
        (receiver.rngs.map fun g => (receiverRow rng (columns m) r g).1.1).flatten := by
      rw [List.flatMap_map, List.flatMap_def]
    unfold receiveSetup
    dsimp only
    rw [hflat, hts]
    rfl
  · have hflat : ((bits sender.s_).zipWith (matchingRow (columns m) r) receiver.rngs).flatMap (·.1) =
        ((bits sender.s_).zipWith (fun b g => (matchingRow (columns m) r b g).1)
          receiver.rngs).flatten := by
      rw [List.flatMap_def, List.map_zipWith]
    unfold sendSetup
    dsimp only
    rw [h.s_eq, h.rngs_eq, senderRows_eq, hflat, hqs]
    rfl
  · show ((receiver.rngs.map _).map _).length = 128
    rw [List.length_map, List.length_map, h.length_rngs]
  · show ((bits sender.s_).zipWith _ receiver.rngs).map _ = (bits sender.s_).zipWith _ _
    rw [List.map_zipWith, List.map_map, List.zipWith_map_right]
    congr
    funext b g
    cases b with
    | false => rfl
    | true => rfl
  · intro j hj
    apply BitVec.eq_of_getLsbD_eq
    intro k hk
    have hbk : (bits sender.s_)[k]? = some (sender.s_.getLsbD k) := by
      rw [bits, List.getElem?_map, List.getElem?_range hk]
      rfl
    obtain ⟨g, hg⟩ : ∃ g, receiver.rngs[k]? = some g :=
      ⟨_, List.getElem?_eq_getElem (by rw [h.length_rngs]; exact hk)⟩
    have hqrow : ((bits sender.s_).zipWith (fun b g => (matchingRow (columns m) r b g).1)
        receiver.rngs)[k]? = some (matchingRow (columns m) r (sender.s_.getLsbD k) g).1 := by
      rw [List.getElem?_zipWith, hbk, hg]
    have htrow : (receiver.rngs.map fun g => (receiverRow rng (columns m) r g).1.1)[k]? =
        some (receiverRow rng (columns m) r g).1.1 := by
      rw [List.getElem?_map, hg]
      rfl
    rw [getLsbD_blockAt qs j hk, hqbits k hk j hj, getBit_flatten hcols hqrows hqrow hj,
      getBit_matchingRow _ g hr, BitVec.getLsbD_xor, getLsbD_blockAt ts j hk, htbits k hk j hj,
      getBit_flatten hcols htrows htrow hj]
    cases getBit r j with
    | false => simp
    | true => simp

end Alsz

end EdaBitGen.Ocelot

/-!
# Runs of OT extension

Every call gives the receiver the chosen message of each pair, and leaves the generators in step for the
next call.
-/

namespace EdaBitGen.Ocelot

variable {rng : RowRng}

namespace Kos

open Alsz

variable (rng) in
theorem length_weights (seed : Block) (n : ℕ) : (weights rng seed n).length = n := by
  have hgo : ∀ (n : ℕ) (g : rng.State), (weights.go rng g n).length = n := by
    intro n
    induction n with
    | zero => exact fun g => rfl
    | succ n ih => exact fun g => congrArg (· + 1) (ih _)
  exact hgo n _

theorem coinToss_eq (senderSeed receiverSeed : Block) : coinToss rng senderSeed receiverSeed =
    some (senderSeed ^^^ receiverSeed, senderSeed ^^^ receiverSeed) := by
  unfold coinToss
  dsimp only
  rw [if_neg (not_not.2 rfl), BitVec.xor_comm receiverSeed]

theorem check_foldl {s_ : Block} {ncols : ℕ} {r qs ts : Bytes} (h : Correlated s_ ncols r qs ts)
    (chis : List Block) (k : ℕ) (hk : k + chis.length ≤ ncols) (acc : Block × TwoBlocks) :
    (chis.zipIdx k).foldl (fun check e => check + clmul (blockAt qs e.2) e.1)
      (acc.2 + clmul acc.1 s_) =
    ((((((List.range' k chis.length).map (getBit r)).zip chis).zipIdx k).foldl (fun acc e =>
      (acc.1 ^^^ (if e.1.1 then e.1.2 else 0), acc.2 + clmul (blockAt ts e.2) e.1.2)) acc).2 +
    clmul ((((((List.range' k chis.length).map (getBit r)).zip chis).zipIdx k).foldl (fun acc e =>
      (acc.1 ^^^ (if e.1.1 then e.1.2 else 0), acc.2 + clmul (blockAt ts e.2) e.1.2)) acc).1) s_) := by
  induction chis generalizing k acc with
  | nil => rfl
  | cons chi chis ih =>
    rw [List.length_cons] at hk ⊢
    have hstep : acc.2 + clmul acc.1 s_ + clmul (blockAt qs k) chi =
        acc.2 + clmul (blockAt ts k) chi +
          clmul (acc.1 ^^^ (if getBit r k then chi else 0)) s_ := by
      rw [h k (by omega), clmul_xor, clmul_xor]
      cases getBit r k with
      | false =>
        rw [if_neg Bool.false_ne_true, if_neg Bool.false_ne_true, clmul_zero, clmul_zero]
        abel
      | true =>
        rw [if_pos rfl, if_pos rfl, clmul_comm s_ chi]
        abel
    have hrest := ih (k + 1) (by omega) (acc.1 ^^^ (if getBit r k then chi else 0),
      acc.2 + clmul (blockAt ts k) chi)
    rw [List.zipIdx_cons, List.foldl_cons, hstep]
    exact hrest

theorem check_eq {s_ : Block} {r qs ts : Bytes} {chis : List Block}
    (h : Correlated s_ chis.length r qs ts) (hr : r.length * 8 = chis.length) :
    check s_ qs chis (receiverCheck ts (u8vecToBoolvec r) chis) = some () := by
  have hfold := check_foldl h chis 0 (by omega) (0, 0)
  rw [clmul_zero, add_zero, ← List.range_eq_range', ← hr, ← u8vecToBoolvec_eq] at hfold
  refine if_neg (not_not.2 ?_)
  unfold senderCheck
  rw [hfold, add_assoc]
  exact (congrArg _ (twoBlocks_add_self _)).trans (add_zero _)

end Kos

/-! ## The rows of a call -/

/-- Both parties' blocks for the receiver's bits. -/
def Matching (s_ : Block) (inputs : List Bool) (qs ts : Bytes) : Prop :=
  ∀ j b, inputs[j]? = some b → blockAt qs j = blockAt ts j ^^^ (if b then s_ else 0)

theorem length_boolvec_columns (bv : List Bool) :
    (boolvecToU8vec bv).length = columns bv.length / 8 := by
  rw [length_boolvecToU8vec]
  unfold columns
  by_cases h : bv.length % 8 = 0
  · rw [if_pos h, if_neg (not_not.2 h), Nat.add_zero]
  · rw [if_neg h, if_pos h]
    omega

theorem Kos.columns_padded (n : ℕ) : columns (columns n + 128 + 40) = columns n + 128 + 40 := by
  have hcols := Alsz.columns_mod n
  rw [columns, if_neg (by omega)]

theorem Kos.matching_of_correlated {s_ : Block} {choices : List Bool} {padding qs ts : Bytes}
    (h : Alsz.Correlated s_ (columns choices.length + 128 + 40) (boolvecToU8vec choices ++ padding)
      qs ts) : Matching s_ choices qs ts := by
  intro j b hj
  have hle : choices.length ≤ columns choices.length := by
    unfold columns
    split <;> omega
  have hlt := (List.getElem?_eq_some_iff.1 hj).1
  have hb : getBit (boolvecToU8vec choices ++ padding) j = b := by
    have hcols := Alsz.columns_mod choices.length
    rw [getBit_append _ _ (by rw [length_boolvec_columns]; omega), getBit_boolvecToU8vec,
      List.getD_eq_getElem?_getD, hj]
    rfl
  rw [h j (by omega), hb]

theorem exists_setup (extension : Extension) {sender : Sender rng} {receiver : Receiver rng}
    (h : InStep sender receiver) (call : Call) :
    ∃ qs sender' ts receiver', setup rng extension sender receiver call =
      some ((qs, sender'), ts, receiver') ∧ InStep sender' receiver' ∧
      sender'.s_ = sender.s_ ∧ Matching sender'.s_ call.inputs qs ts := by
  have hlt : ∀ {j b}, call.inputs[j]? = some b → j < call.inputs.length ∧
      call.inputs.getD j false = b := by
    intro j b hj
    refine ⟨(List.getElem?_eq_some_iff.1 hj).1, ?_⟩
    rw [List.getD_eq_getElem?_getD, hj]
    rfl
  have hpos : 0 < call.inputs.length := call.length_inputs ▸ call.count_pos
  have hle : call.inputs.length ≤ columns call.inputs.length := by
    unfold columns
    split <;> omega
  cases extension with
  | alsz =>
    obtain ⟨ts, us, receiver', qs, sender', hreceive, hsend, hstep, hs, hcorrelated⟩ :=
      Alsz.exists_setup h hpos (length_boolvec_columns call.inputs)
    refine ⟨qs, sender', ts, receiver', ?_, hstep, hs, fun j b hj => ?_⟩
    · unfold setup
      dsimp only
      rw [← call.length_inputs, hreceive]
      show (Alsz.sendSetup rng sender us _).bind _ = _
      rw [hsend]
      rfl
    · have ⟨hj, hb⟩ := hlt hj
      rw [hcorrelated j (by omega), getBit_boolvecToU8vec, hb, hs]
  | kos =>
    have hcols := Alsz.columns_mod call.inputs.length
    have hcolumns := Kos.columns_padded call.inputs.length
    have hlen : (boolvecToU8vec call.inputs ++ call.padding).length =
        (columns call.inputs.length + 128 + 40) / 8 := by
      rw [List.length_append, length_boolvec_columns, call.length_padding]
      omega
    obtain ⟨ts, us, receiver', qs, sender', hreceive, hsend, hstep, hs, hcorrelated⟩ :=
      Alsz.exists_setup (m := columns call.inputs.length + 128 + 40) h (by omega)
        (by rw [hcolumns, hlen])
    rw [hcolumns] at hcorrelated
    have hmatching := Kos.matching_of_correlated hcorrelated
    refine ⟨qs, sender', ts, receiver', ?_, hstep, hs, hs ▸ hmatching⟩
    · have hbits : (u8vecToBoolvec (boolvecToU8vec call.inputs ++ call.padding)).length =
          columns call.inputs.length + 128 + 40 := by
        rw [u8vecToBoolvec_eq, List.length_map, List.length_range, hlen]
        omega
      have hchis := Kos.length_weights rng (call.senderSeed ^^^ call.receiverSeed)
        (columns call.inputs.length + 128 + 40)
      rw [← hs, ← hchis] at hcorrelated
      have hcheck := Kos.check_eq hcorrelated (by rw [hchis, hlen]; omega)
      unfold setup
      dsimp only
      rw [← call.length_inputs, hreceive]
      show (Alsz.sendSetup rng sender us _).bind _ = _
      rw [hsend]
      show (Kos.coinToss rng call.senderSeed call.receiverSeed).bind _ = _
      rw [Kos.coinToss_eq, hbits]
      rw [Option.bind_some]
      dsimp only
      rw [hcheck]
      rfl

/-! ## The outputs of a call -/

variable (hash : ℕ → Block → Block)

/-- What a call gives. -/
def Correct (call : Call) (o : Outcome) : Prop :=
  o.unread = [] ∧ match call.sender with
  | .send messages => o.receiverOut = call.inputs.zipWith choose messages
  | .sendCorrelated deltas =>
    List.Forall₂ (fun x delta => x.2 = x.1 ^^^ delta) o.senderOut deltas ∧
      o.receiverOut = call.inputs.zipWith choose o.senderOut
  | .sendRandom m =>
    o.senderOut.length = m ∧ o.receiverOut = call.inputs.zipWith choose o.senderOut

section Rows

variable {s_ : Block} {qs ts : Bytes}

theorem choose_hash {j : ℕ} {b : Bool} (h : blockAt qs j = blockAt ts j ^^^ (if b then s_ else 0)) :
    choose b (hash j (blockAt qs j), hash j (blockAt qs j ^^^ s_)) = hash j (blockAt ts j) := by
  rw [h]
  cases b with
  | false =>
    show hash j (blockAt ts j ^^^ 0#128) = _
    rw [BitVec.xor_zero]
  | true =>
    show hash j (blockAt ts j ^^^ s_ ^^^ s_) = _
    rw [BitVec.xor_assoc, BitVec.xor_self, BitVec.xor_zero]

theorem choose_hash_cons {b : Bool} {inputs : List Bool} {k : ℕ}
    (h : ∀ j b', (b :: inputs)[j]? = some b' →
      blockAt qs (k + j) = blockAt ts (k + j) ^^^ (if b' then s_ else 0)) :
    choose b (hash k (blockAt qs k), hash k (blockAt qs k ^^^ s_)) = hash k (blockAt ts k) ∧
      ∀ j b', inputs[j]? = some b' →
        blockAt qs (k + 1 + j) = blockAt ts (k + 1 + j) ^^^ (if b' then s_ else 0) := by
  constructor
  · exact choose_hash hash (h 0 b rfl)
  · intro j b' hj
    have hj' := h (j + 1) b' hj
    rwa [(by omega : k + (j + 1) = k + 1 + j)] at hj'

theorem xor_cancel (x y : Block) : x ^^^ y ^^^ x = y := by
  rw [BitVec.xor_comm x, BitVec.xor_assoc, BitVec.xor_self, BitVec.xor_zero]

theorem receivePairs_eq (inputs : List Bool) (messages : List (Block × Block)) (k : ℕ)
    (hlen : inputs.length = messages.length)
    (h : ∀ j b, inputs[j]? = some b →
      blockAt qs (k + j) = blockAt ts (k + j) ^^^ (if b then s_ else 0)) :
    receivePairs hash ts (inputs.zipIdx k) ((messages.zipIdx k).flatMap fun (input, j) =>
      let q := blockAt qs j
      [hash j q ^^^ input.1, hash j (q ^^^ s_) ^^^ input.2]) =
        some (inputs.zipWith choose messages, []) := by
  induction inputs generalizing messages k with
  | nil =>
    obtain rfl := List.length_eq_zero_iff.1 hlen.symm
    rfl
  | cons b inputs ih =>
    cases messages with
    | nil => cases hlen
    | cons x messages =>
      obtain ⟨hhash, hrows⟩ := choose_hash_cons hash h
      have hrest := ih messages (k + 1) (Nat.succ.inj hlen) hrows
      rw [List.zipIdx_cons, List.zipIdx_cons, List.flatMap_cons]
      refine (congrArg (fun o => Option.bind o _) hrest).trans ?_
      refine congrArg (fun y => some (y :: _, _)) ?_
      rw [← hhash]
      cases b with
      | false => exact xor_cancel _ _
      | true => exact xor_cancel _ _

theorem receiveCorrelated_eq (inputs : List Bool) (deltas : List Block) (k : ℕ)
    (hlen : inputs.length = deltas.length)
    (h : ∀ j b, inputs[j]? = some b →
      blockAt qs (k + j) = blockAt ts (k + j) ^^^ (if b then s_ else 0)) :
    receiveCorrelated hash ts (inputs.zipIdx k) ((deltas.zipIdx k).map fun (delta, j) =>
      hash j (blockAt qs j ^^^ s_) ^^^ (hash j (blockAt qs j) ^^^ delta)) =
        some (inputs.zipWith choose ((deltas.zipIdx k).map fun (delta, j) =>
          (hash j (blockAt qs j), hash j (blockAt qs j) ^^^ delta)), []) := by
  induction inputs generalizing deltas k with
  | nil =>
    obtain rfl := List.length_eq_zero_iff.1 hlen.symm
    rfl
  | cons b inputs ih =>
    cases deltas with
    | nil => cases hlen
    | cons delta deltas =>
      obtain ⟨hhash, hrows⟩ := choose_hash_cons hash h
      have hrest := ih deltas (k + 1) (Nat.succ.inj hlen) hrows
      rw [List.zipIdx_cons, List.zipIdx_cons, List.map_cons, List.map_cons]
      refine (congrArg (fun o => Option.bind o _) hrest).trans ?_
      refine congrArg (fun y => some (y :: _, _)) ?_
      rw [← hhash]
      cases b with
      | false => exact BitVec.zero_xor
      | true => exact xor_cancel _ _

omit hash in
theorem forall₂_deltas (deltas : List Block) (k : ℕ) (x0 : ℕ → Block) :
    List.Forall₂ (fun x delta => x.2 = x.1 ^^^ delta)
      ((deltas.zipIdx k).map fun e => (x0 e.2, x0 e.2 ^^^ e.1)) deltas := by
  induction deltas generalizing k with
  | nil => exact .nil
  | cons delta deltas ih => exact .cons rfl (ih (k + 1))

theorem random_eq (inputs : List Bool) (h : Matching s_ inputs qs ts) :
    (List.range inputs.length).map (fun j => hash j (blockAt ts j)) =
      inputs.zipWith choose ((List.range inputs.length).map fun j =>
        (hash j (blockAt qs j), hash j (blockAt qs j ^^^ s_))) := by
  apply List.ext_getElem
  · simp
  · intro j hj hj'
    have hlt : j < inputs.length := by
      rwa [List.length_map, List.length_range] at hj
    rw [List.getElem_map, List.getElem_range, List.getElem_zipWith, List.getElem_map,
      List.getElem_range]
    exact (choose_hash hash (h j _ (List.getElem?_eq_getElem hlt))).symm

theorem correct_rows (call : Call) (h : Matching s_ call.inputs qs ts) :
    ∃ out, receiveRows hash ts call.sender call.inputs (sendRows hash s_ qs call.sender).1 =
      some (out, []) ∧ Correct call ⟨(sendRows hash s_ qs call.sender).2, out, []⟩ := by
  have hlen := call.length_inputs
  have hzero : ∀ j b, call.inputs[j]? = some b →
      blockAt qs (0 + j) = blockAt ts (0 + j) ^^^ (if b then s_ else 0) := by
    intro j b hj
    rw [Nat.zero_add]
    exact h j b hj
  unfold Correct
  cases hcall : call.sender with
  | send messages =>
    rw [hcall] at hlen
    exact ⟨_, receivePairs_eq hash call.inputs messages 0 hlen hzero, rfl, rfl⟩
  | sendCorrelated deltas =>
    rw [hcall] at hlen
    refine ⟨call.inputs.zipWith choose (sendRows hash s_ qs (.sendCorrelated deltas)).2, ?_, rfl, ?_,
      rfl⟩
    · unfold sendRows receiveRows
      dsimp only
      rw [List.map_map, List.map_map]
      exact receiveCorrelated_eq hash call.inputs deltas 0 hlen hzero
    · unfold sendRows
      dsimp only
      rw [List.map_map]
      exact forall₂_deltas deltas 0 fun j => hash j (blockAt qs j)
  | sendRandom m =>
    rw [hcall] at hlen
    obtain rfl : call.inputs.length = m := hlen
    refine ⟨_, rfl, rfl, ?_, random_eq hash call.inputs h⟩
    exact (List.length_map _).trans List.length_range

end Rows

theorem runCall_correct (extension : Extension) {sender : Sender rng} {receiver : Receiver rng}
    (h : InStep sender receiver) (call : Call) : ∃ outcome sender' receiver',
      runCall rng hash extension sender receiver call = some (outcome, sender', receiver') ∧
      Correct call outcome ∧ InStep sender' receiver' := by
  obtain ⟨qs, sender', ts, receiver', hsetup, hstep, hs, hmatching⟩ := exists_setup extension h call
  obtain ⟨out, hout, hcorrect⟩ := correct_rows hash call hmatching
  refine ⟨_, sender', receiver', ?_, hcorrect, hstep⟩
  refine (congrArg (fun o => Option.bind o _) hsetup).trans ?_
  exact (congrArg (fun o => Option.bind o _) hout).trans rfl

/-- Every call of a run is correct, for both extensions. -/
theorem otExtension_run (rng : RowRng) (extension : Extension) (base : BaseOts) (calls : List Call) :
    ∃ outcomes sender receiver, run rng hash extension (base.sender rng) (base.receiver rng) calls =
      some (outcomes, sender, receiver) ∧ List.Forall₂ Correct calls outcomes ∧
      InStep sender receiver := by
  have hrun : ∀ (calls : List Call) (sender : Sender rng) (receiver : Receiver rng),
      InStep sender receiver → ∃ outcomes sender' receiver',
        run rng hash extension sender receiver calls = some (outcomes, sender', receiver') ∧
        List.Forall₂ Correct calls outcomes ∧ InStep sender' receiver' := by
    intro calls
    induction calls with
    | nil => exact fun sender receiver h => ⟨[], sender, receiver, rfl, .nil, h⟩
    | cons call calls ih =>
      intro sender receiver h
      obtain ⟨outcome, sender₁, receiver₁, hcall, hcorrect, h₁⟩ := runCall_correct hash extension h call
      obtain ⟨outcomes, sender₂, receiver₂, hcalls, hall, h₂⟩ := ih sender₁ receiver₁ h₁
      refine ⟨outcome :: outcomes, sender₂, receiver₂, ?_, .cons hcorrect hall, h₂⟩
      refine (congrArg (fun o => Option.bind o _) hcall).trans ?_
      exact (congrArg (fun o => Option.bind o _) hcalls).trans rfl
  exact hrun calls _ _ (inStep_base base)

end EdaBitGen.Ocelot
