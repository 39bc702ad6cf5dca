import EdaBitGen.Edabits.Conversion

/-!
# Random edabits from field elements

Both sides of the generation that draws field elements and commits to their bits.  The prover
commits to all bits of a decomposition, the verifier takes as many as its parameter says, and each
bit is a message of its own.
-/

namespace EdaBitGen

open Interaction Party

variable {M D G H K : Type} {p : ℕ}

/-! ## The decomposition of a field element -/

/-- The bits of the canonical representative, lowest first. -/
def bitDecomposition (x : ZMod p) : List Bool :=
  (List.range (numberOfBits p)).map x.val.testBit

def f2OfBool (b : Bool) : F2 := if b then 1 else 0

theorem length_bitDecomposition (x : ZMod p) : (bitDecomposition x).length = numberOfBits p := by
  simp [bitDecomposition]

theorem map_f2OfBool_bitDecomposition (x : ZMod p) :
    (bitDecomposition x).map f2OfBool = Bits.ofNat (numberOfBits p) x.val := by
  rw [bitDecomposition, List.map_map]
  rfl

theorem le_two_pow_numberOfBits (p : ℕ) : p ≤ 2 ^ numberOfBits p :=
  Nat.le_pow_clog (by norm_num) p

variable [Fact p.Prime]

theorem toNat_bitDecomposition (x : ZMod p) :
    Bits.toNat ((bitDecomposition x).map f2OfBool) = x.val := by
  rw [map_f2OfBool_bitDecomposition, Bits.toNat_ofNat,
    Nat.mod_eq_of_lt ((ZMod.val_lt x).trans_le (le_two_pow_numberOfBits p))]

theorem eq_convertBitsToField (x : ZMod p) :
    x = convertBitsToField ((bitDecomposition x).map f2OfBool) := by
  rw [convertBitsToField_eq, toNat_bitDecomposition, ZMod.natCast_zmod_val]

/-! ## The messages of a commitment -/

theorem counts_readSerializable {X σ : Type} [CanonicalSerialize M X] :
    Counts (readSerializable : Party M G σ X) 0 1 := by
  refine Counts.read.bind_silent fun m => ?_
  cases (CanonicalSerialize.ofMsg m : Option X) with
  | none => exact Counts.abort _
  | some x => exact Counts.pure x

theorem counts_readSerializableSeq {X σ : Type} [CanonicalSerialize M X] (n : ℕ) :
    Counts (readSerializableSeq n : Party M G σ (List X)) 0 1 := by
  refine Counts.read.bind_silent fun m => ?_
  cases (CanonicalSerialize.seqOfMsg m : Option (List X)) with
  | none => exact Counts.abort _
  | some xs => exact (Counts.assert _ _).silent_bind fun _ => Counts.pure xs

theorem counts_popVole {α : Type} : Counts (popVole : Party M G (Pool α) α) 0 0 :=
  popVole_eq (M := M) ▸ Counts.act Pool.draw

section Commit

variable {PF FE : Type} [Field PF] [Field FE] [Algebra PF FE] [CanonicalSerialize M PF]

omit [Field FE] [Algebra PF FE] in
theorem FComProver.counts_input1 (x : PF) :
    Counts (FComProver.input1 x : Party M G (FComProver PF FE) FE) 1 0 :=
  counts_popVole.zoom.silent_bind fun r => (Counts.write _).bind_silent fun _ => Counts.pure r.mac

omit [Field FE] [Algebra PF FE] in
theorem FComProver.counts_input (x : List PF) :
    Counts (FComProver.input x : Party M G (FComProver PF FE) (List FE)) 1 0 := by
  have hdraws : Counts (x.mapM fun xi => do
      let r ← (FComProver.random : Party M G (FComProver PF FE) _)
      pure (r.mac, xi - r.value)) (x.length * 0) (x.length * 0) :=
    Counts.mapM fun _ _ => counts_popVole.zoom.silent_bind fun _ => Counts.pure _
  exact hdraws.silent_bind fun _ => (Counts.write _).bind_silent fun _ => Counts.pure _

theorem FComVerifier.counts_input1 :
    Counts (FComVerifier.input1 PF : Party M G (FComVerifier FE) _) 0 1 :=
  counts_popVole.zoom.silent_bind fun _ => counts_readSerializable.bind_silent fun _ =>
    Counts.get.silent_bind fun _ => Counts.pure _

theorem FComVerifier.counts_input (num : ℕ) :
    Counts (FComVerifier.input PF num : Party M G (FComVerifier FE) _) 0 1 := by
  have hdraws : Counts ((List.range num).mapM fun _ =>
      (FComVerifier.random : Party M G (FComVerifier FE) _)) ((List.range num).length * 0)
        ((List.range num).length * 0) :=
    Counts.mapM fun _ _ => counts_popVole.zoom
  refine (Counts.assert _ _).silent_bind fun _ => hdraws.silent_bind fun _ => ?_
  exact (counts_readSerializableSeq num).bind_silent fun _ =>
    Counts.get.silent_bind fun _ => Counts.pure _

end Commit

variable [Field K] [Algebra F2 K] [CanonicalSerialize M F2] [CanonicalSerialize M (ZMod p)]

namespace ProverConv

/-- Commit to the bits of a field element, one message for each. -/
def inputBits (rM : ZMod p) : Party M G (ProverConv K (ZMod p)) (List (MacProver F2 K)) := do
  let bits := (bitDecomposition rM).map f2OfBool
  assert (rM = convertBitsToField bits) "assertion failed: *r_m == convert_bits_to_field(&bits)"
  bits.mapM fun bit => do
    let bitMac ← zoom f2 (FComProver.input1 bit)
    pure ⟨bit, bitMac⟩

/-- The parameter `nb_bits` is a capacity only. -/
def randomEdabitsB2a [Random D (ZMod p)] (_nbBits num : ℕ) :
    Party M (Stream' D) (ProverConv K (ZMod p)) (List (EdabitsProver K (ZMod p))) := do
  let auxRM : List (ZMod p) ← (List.range num).mapM fun _ => random (ZMod p)
  let auxRMMac ← zoom fe (FComProver.input auxRM)
  let auxBits ← auxRM.mapM inputBits
  pure (List.zipWith EdabitsProver.mk auxBits (List.zipWith MacProver.mk auxRM auxRMMac))

end ProverConv

namespace VerifierConv

def inputBits (nbBits : ℕ) : Party M G (VerifierConv K (ZMod p)) (List (MacVerifier K)) :=
  (List.range nbBits).mapM fun _ => zoom f2 (FComVerifier.input1 F2)

def randomEdabitsB2a (nbBits num : ℕ) :
    Party M G (VerifierConv K (ZMod p)) (List (EdabitsVerifier K (ZMod p))) := do
  let auxRMMac ← zoom fe (FComVerifier.input (ZMod p) num)
  let auxBits ← (List.range num).mapM fun _ => inputBits nbBits
  pure (List.zipWith EdabitsVerifier.mk auxBits auxRMMac)

end VerifierConv

section Counts

omit [Field K] [Algebra F2 K] [CanonicalSerialize M (ZMod p)] in
theorem ProverConv.counts_inputBits (rM : ZMod p) :
    Counts (ProverConv.inputBits rM : Party M G (ProverConv K (ZMod p)) _) (numberOfBits p) 0 := by
  have hbit : ∀ bit ∈ (bitDecomposition rM).map f2OfBool, Counts (do
      let bitMac ← zoom ProverConv.f2 (FComProver.input1 bit)
      pure (⟨bit, bitMac⟩ : MacProver F2 K) : Party M G (ProverConv K (ZMod p)) _) 1 0 :=
    fun bit _ => (FComProver.counts_input1 bit).zoom.bind_silent fun _ => Counts.pure _
  have hbits := Counts.mapM hbit
  rw [List.length_map, length_bitDecomposition, Nat.mul_one, Nat.mul_zero] at hbits
  exact (Counts.assert _ _).silent_bind fun _ => hbits

omit [Fact p.Prime] [CanonicalSerialize M (ZMod p)] in
theorem VerifierConv.counts_inputBits (nbBits : ℕ) :
    Counts (VerifierConv.inputBits nbBits : Party M G (VerifierConv K (ZMod p)) _) 0 nbBits := by
  have hbit : ∀ i ∈ List.range nbBits, Counts (zoom VerifierConv.f2 (FComVerifier.input1 F2) :
      Party M G (VerifierConv K (ZMod p)) _) 0 1 := fun _ _ => FComVerifier.counts_input1.zoom
  have hbits := Counts.mapM hbit
  rwa [List.length_range, Nat.mul_one, Nat.mul_zero] at hbits

omit [Field K] [Algebra F2 K] in
theorem ProverConv.counts_randomEdabitsB2a [Random D (ZMod p)] (nbBits num : ℕ) :
    Counts (ProverConv.randomEdabitsB2a nbBits num : Party M (Stream' D) (ProverConv K (ZMod p)) _)
      (1 + num * numberOfBits p) 0 := by
  have hdraw : Draws (EdaBitGen.random (ZMod p) : Party M (Stream' D) (ProverConv K (ZMod p)) _)
      fun _ => True :=
    Draws.draw.bind fun _ _ => Draws.pure trivial
  refine Counts.draws_bind (Draws.mapM (fun _ => hdraw) (List.range num)) fun auxRM hlen => ?_
  have hbits := Counts.mapM (M := M) (G := Stream' D) fun rM (_ : rM ∈ auxRM) =>
    ProverConv.counts_inputBits (K := K) rM
  rw [hlen.1, List.length_range, Nat.mul_zero] at hbits
  exact (FComProver.counts_input auxRM).zoom.bind fun _ => hbits.bind_silent fun _ => Counts.pure _

/-- The verifier reads one message for the field elements and as many for each of them as its
parameter says. -/
theorem VerifierConv.counts_randomEdabitsB2a (nbBits num : ℕ) :
    Counts (VerifierConv.randomEdabitsB2a nbBits num : Party M G (VerifierConv K (ZMod p)) _)
      0 (1 + num * nbBits) := by
  have hbits := Counts.mapM (M := M) (G := G) fun i (_ : i ∈ List.range num) =>
    VerifierConv.counts_inputBits (K := K) (p := p) nbBits
  rw [List.length_range, Nat.mul_zero] at hbits
  exact (FComVerifier.counts_input num).zoom.bind fun _ => hbits.bind_silent fun _ => Counts.pure _

end Counts

/-! ## The two sides in step -/

section Step

variable {Δ₂ : K} {Δₑ : ZMod p}

theorem zipWith_snd {α β γ : Type} {R : α → β → Prop} {xs : List α} {as : List β} (f : β → γ)
    (h : List.Forall₂ R xs as) : List.zipWith (fun _ => f) xs as = as.map f := by
  induction h with
  | nil => rfl
  | cons _ _ ih => rw [List.zipWith_cons_cons, ih, List.map_cons]

omit [CanonicalSerialize M (ZMod p)] in
theorem sync_inputBits (rM : ZMod p) :
    Sync (ConvCorrelated Δ₂ Δₑ) (ProverConv.inputBits rM : Party M G (ProverConv K (ZMod p)) _)
      (VerifierConv.inputBits (numberOfBits p) : Party M H (VerifierConv K (ZMod p)) _)
      fun bs ks => ks = bs.map (MacProver.key Δ₂) ∧
        bs.map MacProver.value = Bits.ofNat (numberOfBits p) rM.val := by
  unfold ProverConv.inputBits VerifierConv.inputBits
  refine Sync.assert_left (eq_convertBitsToField rM) ?_
  rw [map_f2OfBool_bitDecomposition]
  have hbit : ∀ (bit : F2) (i : ℕ), True → Sync (ConvCorrelated Δ₂ Δₑ)
      (do
        let bitMac ← zoom ProverConv.f2 (FComProver.input1 bit)
        pure (⟨bit, bitMac⟩ : MacProver F2 K) : Party M G (ProverConv K (ZMod p)) _)
      (zoom VerifierConv.f2 (FComVerifier.input1 F2) : Party M H (VerifierConv K (ZMod p)) _)
      fun b k => k = b.key Δ₂ ∧ b.value = bit := fun bit i _ => by
    rw [← bind_pure (zoom VerifierConv.f2 (FComVerifier.input1 F2))]
    exact (sync_f2 (sync_input1 bit)).bind fun m k hk => Sync.pure ⟨hk, rfl⟩
  have hpositions : List.Forall₂ (fun (_ : F2) (_ : ℕ) => True)
      (Bits.ofNat (numberOfBits p) rM.val) (List.range (numberOfBits p)) :=
    List.forall₂_iff_get.2 ⟨by simp, fun _ _ _ => trivial⟩
  refine (Sync.mapM_zipWith (F := fun _ => MacProver.key Δ₂) (S := fun bit b => b.value = bit) hbit
    hpositions).mono fun bs ks h => ?_
  obtain ⟨rfl, hvalues⟩ := h
  refine ⟨zipWith_snd _ hvalues, ?_⟩
  exact List.forall₂_eq_eq_eq ▸ (List.forall₂_map_left_iff.2 hvalues.flip)

variable [Random D (ZMod p)]

theorem sync_randomEdabitsB2a (num : ℕ) :
    Sync (ConvCorrelated Δ₂ Δₑ)
      (ProverConv.randomEdabitsB2a (numberOfBits p) num :
        Party M (Stream' D) (ProverConv K (ZMod p)) _)
      (VerifierConv.randomEdabitsB2a (numberOfBits p) num : Party M H (VerifierConv K (ZMod p)) _)
      fun xs ks => ks = xs.map (EdabitsProver.keys Δ₂ Δₑ) ∧ xs.length = num ∧
        ∀ x ∈ xs, x.bits.length = numberOfBits p ∧
          x.value.value = (Bits.toNat (x.bits.map MacProver.value) : ZMod p) := by
  unfold ProverConv.randomEdabitsB2a VerifierConv.randomEdabitsB2a
  have hdraw : Draws (EdaBitGen.random (ZMod p) : Party M (Stream' D) (ProverConv K (ZMod p)) _)
      fun _ => True :=
    Draws.draw.bind fun _ _ => Draws.pure trivial
  refine Sync.draws_left (Draws.mapM (fun _ => hdraw) (List.range num)) fun auxRM hdrawn => ?_
  have hnum : auxRM.length = num := by rw [hdrawn.1, List.length_range]
  refine (sync_inputFe auxRM hnum).bind fun ms ks hms => ?_
  obtain ⟨hms, rfl⟩ := hms
  have hpositions : List.Forall₂ (fun (_ : ZMod p) (_ : ℕ) => True) auxRM (List.range num) :=
    List.forall₂_iff_get.2 ⟨by simp [hnum], fun _ _ _ => trivial⟩
  refine (Sync.mapM_zipWith (F := fun _ => List.map (MacProver.key Δ₂))
    (S := fun rM bs => bs.map MacProver.value = Bits.ofNat (numberOfBits p) rM.val)
    (fun rM _ _ => sync_inputBits rM) hpositions).bind fun auxBits ks hbits => Sync.pure ?_
  obtain ⟨rfl, hvalues⟩ := hbits
  have hlen : auxBits.length = num := by rw [← hvalues.length_eq, hnum]
  refine ⟨?_, by simp [hlen, hms, hnum], fun x hx => ?_⟩
  · rw [zipWith_snd _ hvalues, List.zipWith_map, List.map_zipWith]
    rfl
  · obtain ⟨i, hi, rfl⟩ := List.mem_iff_getElem.1 hx
    simp only [List.length_zipWith] at hi
    have hvalue := (List.forall₂_iff_get.1 hvalues).2 i (by omega) (by omega)
    simp only [List.get_eq_getElem] at hvalue
    simp only [List.getElem_zipWith]
    refine ⟨?_, ?_⟩
    · rw [← List.length_map (f := MacProver.value), hvalue, Bits.length_ofNat]
    · rw [hvalue, ← map_f2OfBool_bitDecomposition, toNat_bitDecomposition, ZMod.natCast_zmod_val]

theorem width_of_lockstep {nbBits num : ℕ} {s : ProverConv K (ZMod p)} {t : VerifierConv K (ZMod p)}
    {g : Stream' D} {h : G}
    {R : (List (EdabitsProver K (ZMod p)) × ProverConv K (ZMod p)) × Stream' D →
      (List (EdabitsVerifier K (ZMod p)) × VerifierConv K (ZMod p)) × G → Prop}
    (hrun : Lockstep (ProverConv.randomEdabitsB2a nbBits num s g : Proc M _)
      (VerifierConv.randomEdabitsB2a nbBits num t h) R) :
    num = 0 ∨ nbBits = numberOfBits p := by
  have hcount := (Counts.of_lockstep (ProverConv.counts_randomEdabitsB2a nbBits num)
    (VerifierConv.counts_randomEdabitsB2a nbBits num) hrun).1
  have hmul : num * numberOfBits p = num * nbBits := by omega
  rcases Nat.eq_zero_or_pos num with hzero | hpos
  · exact Or.inl hzero
  · exact Or.inr (Nat.eq_of_mul_eq_mul_left hpos hmul).symm

/-- Both sides end, with the edabits of the prover and their keys at the verifier, exactly when the
parameter is the width of the field. -/
theorem randomEdabitsB2a_iff (nbBits num : ℕ) (Δ₂ : K) (Δₑ : ZMod p) (s : ProverConv K (ZMod p))
    (g : Stream' D) (h : G) :
    Lockstep (ProverConv.randomEdabitsB2a nbBits num s g : Proc M _)
      (VerifierConv.randomEdabitsB2a nbBits num (s.keys Δ₂ Δₑ) h) (fun x y =>
        y.1.2 = x.1.2.keys Δ₂ Δₑ ∧ y.1.1 = x.1.1.map (EdabitsProver.keys Δ₂ Δₑ) ∧
        x.1.1.length = num ∧ ∀ e ∈ x.1.1, e.bits.length = nbBits ∧
          e.value.value = (Bits.toNat (e.bits.map MacProver.value) : ZMod p)) ↔
      num = 0 ∨ nbBits = numberOfBits p := by
  refine ⟨width_of_lockstep, fun hwidth => ?_⟩
  rcases hwidth with rfl | rfl
  · exact (sync_randomEdabitsB2a 0 s _ rfl g h).mono fun x y hxy => by
      obtain ⟨hkeys, hmap, hlen, -⟩ := hxy
      refine ⟨hkeys, hmap, hlen, ?_⟩
      simp [List.eq_nil_of_length_eq_zero hlen]
  · exact sync_randomEdabitsB2a num s _ rfl g h

/-- One edabit of 61 bits. -/
theorem randomEdabitsB2a_iff_61 :
    let s : ProverConv F40b F61p :=
      ⟨⟨⟨.const ⟨[⟨1, 0⟩], by simp⟩, [], ⟨0, 0⟩⟩⟩, ⟨⟨.const ⟨[⟨1, 0⟩], by simp⟩, [], ⟨0, 0⟩⟩⟩⟩
    let rng : Stream' (Draw F40b F61p) := .const ⟨1, 0, 5, 0, 0⟩
    Lockstep (ProverConv.randomEdabitsB2a 61 1 s rng : Proc (Msg F40b F61p) _)
      (VerifierConv.randomEdabitsB2a 61 1 (s.keys 1 1) rng) (fun x y =>
        y.1.2 = x.1.2.keys 1 1 ∧ y.1.1 = x.1.1.map (EdabitsProver.keys 1 1) ∧
        x.1.1.length = 1 ∧ ∀ e ∈ x.1.1, e.bits.length = 61 ∧
          e.value.value = (Bits.toNat (e.bits.map MacProver.value) : F61p)) :=
  (randomEdabitsB2a_iff 61 1 1 1 _ _ _).2 (Or.inr (by decide))

/-- With 38 bits the prover sends 61 bits of its element and the verifier reads 38. -/
theorem not_randomEdabitsB2a_38 :
    let s : ProverConv F40b F61p :=
      ⟨⟨⟨.const ⟨[⟨1, 0⟩], by simp⟩, [], ⟨0, 0⟩⟩⟩, ⟨⟨.const ⟨[⟨1, 0⟩], by simp⟩, [], ⟨0, 0⟩⟩⟩⟩
    let rng : Stream' (Draw F40b F61p) := .const ⟨1, 0, 5, 0, 0⟩
    ¬Lockstep (ProverConv.randomEdabitsB2a 38 1 s rng : Proc (Msg F40b F61p) _)
      (VerifierConv.randomEdabitsB2a 38 1 (s.keys 1 1) rng) (fun x y =>
        y.1.2 = x.1.2.keys 1 1 ∧ y.1.1 = x.1.1.map (EdabitsProver.keys 1 1) ∧
        x.1.1.length = 1 ∧ ∀ e ∈ x.1.1, e.bits.length = 38 ∧
          e.value.value = (Bits.toNat (e.bits.map MacProver.value) : F61p)) := by
  intro s rng hrun
  rcases width_of_lockstep hrun with hnum | hwidth
  · exact one_ne_zero hnum
  · exact absurd hwidth (by decide)

end Step

end EdaBitGen
