import EdaBitGen.Mpc.Model

/-!
# The combination of private edabits

Two peers in linked states run every operation in step.  What they hold afterwards are shares of
the sum: its low bits, and its value less `2 ^ n` times the carry.
-/

namespace EdaBitGen

open Interaction Party MpcPeer

/-! ## Lists of the two peers -/

/-- Two lists of `n` entries that `S` relates position by position. -/
structure Aligned {α β : Type} (n : ℕ) (S : ℕ → α → β → Prop) (as : List α) (bs : List β) :
    Prop where
  left : as.length = n
  right : bs.length = n
  get : ∀ i (ha : i < as.length) (hb : i < bs.length), S i as[i] bs[i]

namespace Aligned

variable {α β γ δ α' β' : Type} {n : ℕ} {S : ℕ → α → β → Prop} {T : ℕ → γ → δ → Prop}
  {U : ℕ → α' → β' → Prop} {as : List α} {bs : List β} {cs : List γ} {ds : List δ}

theorem map {f : α → γ} {g : β → δ} (h : Aligned n S as bs)
    (hfg : ∀ i a b, S i a b → T i (f a) (g b)) : Aligned n T (as.map f) (bs.map g) :=
  ⟨by simp [h.left], by simp [h.right], fun i _ _ => by simpa using hfg i _ _ (h.get i ..)⟩

theorem zipWith {f : α → γ → α'} {g : β → δ → β'} (h : Aligned n S as bs) (h' : Aligned n T cs ds)
    (hfg : ∀ i a b c d, S i a b → T i c d → U i (f a c) (g b d)) :
    Aligned n U (List.zipWith f as cs) (List.zipWith g bs ds) :=
  ⟨by simp [h.left, h'.left], by simp [h.right, h'.right],
    fun i _ _ => by simpa using hfg i _ _ _ _ (h.get i ..) (h'.get i ..)⟩

theorem slice {m k : ℕ} (h : Aligned m S as bs) (hk : k + n ≤ m) :
    Aligned n (fun i => S (k + i)) ((as.drop k).take n) ((bs.drop k).take n) :=
  ⟨by simp [h.left]; omega, by simp [h.right]; omega, fun i _ _ => by simpa using h.get (k + i) ..⟩

theorem replicate {a : α} {b : β} (h : ∀ i, S i a b) :
    Aligned n S (List.replicate n a) (List.replicate n b) :=
  ⟨by simp, by simp, fun i _ _ => by simpa using h i⟩

theorem eq_map_range {f : ℕ → α} {as bs : List α} (h : Aligned n (fun i a b => a = f i ∧ b = f i) as bs) :
    as = (List.range n).map f ∧ bs = (List.range n).map f :=
  ⟨List.ext_getElem (by simp [h.left]) fun i ha _ => by
      simpa using (h.get i ha (by rw [h.right, ← h.left]; exact ha)).1,
    List.ext_getElem (by simp [h.right]) fun i hb _ => by
      simpa using (h.get i (by rw [h.left, ← h.right]; exact hb) hb).2⟩

theorem concat {a : α} {b : β} (h : Aligned n S as bs) (hab : S n a b) :
    Aligned (n + 1) S (as ++ [a]) (bs ++ [b]) := by
  refine ⟨by simp [h.left], by simp [h.right], fun i ha hb => ?_⟩
  by_cases hi : i < n
  · rw [List.getElem_append_left (by rwa [h.left]), List.getElem_append_left (by rwa [h.right])]
    exact h.get i ..
  · obtain rfl : i = n := by simp [h.left] at ha; omega
    simpa [List.getElem_append_right, h.left, h.right] using hab

theorem mapM {M G H σ τ : Type} {rel : σ → τ → Prop} {f : α → Party M G σ γ} {g : β → Party M H τ δ}
    (h : Aligned n S as bs) (hfg : ∀ i a b, S i a b → Sync rel (f a) (g b) (T i)) :
    Sync rel (as.mapM f) (bs.mapM g) (Aligned n T) := by
  induction as generalizing n S T bs with
  | nil =>
    obtain rfl := List.length_eq_zero_iff.1 (h.right.trans h.left.symm)
    exact Sync.pure ⟨h.left, h.left, by simp⟩
  | cons a as ih =>
    obtain _ | ⟨b, bs⟩ := bs
    · exact absurd (h.left.trans h.right.symm) (by simp)
    obtain rfl := h.left
    rw [List.mapM_cons, List.mapM_cons]
    refine (hfg 0 a b (h.get 0 (by simp) (by simp))).bind fun c d hcd => ?_
    have hrest : Aligned as.length (fun i => S (i + 1)) as bs :=
      ⟨rfl, by simpa using h.right, fun i ha hb => h.get (i + 1) (by simpa) (by simpa)⟩
    refine (ih hrest fun i => hfg (i + 1)).bind fun cs ds hcs => Sync.pure ?_
    refine ⟨by simp [hcs.left], by simp [hcs.right], fun i _ _ => ?_⟩
    cases i with
    | zero => exact hcd
    | succ i => exact hcs.get i ..

end Aligned

theorem Sync.foldlM_positions {M G H σ τ α β : Type} {rel : σ → τ → Prop} {inv : ℕ → α → β → Prop}
    {f : α → ℕ → Party M G σ α} {k : β → ℕ → Party M H τ β} {m : ℕ}
    (h : ∀ i < m, ∀ a b, inv i a b → Sync rel (f a i) (k b i) (inv (i + 1))) {a : α} {b : β}
    (h0 : inv 0 a b) :
    Sync rel ((List.range m).foldlM f a) ((List.range m).foldlM k b) (inv m) := by
  induction m with
  | zero => exact Sync.pure h0
  | succ m ih =>
    rw [List.range_succ, List.foldlM_append, List.foldlM_append]
    refine (ih fun i hi => h i (hi.trans m.lt_succ_self)).bind fun a b hab => ?_
    simpa using h m m.lt_succ_self a b hab

variable {M D G H K PF FE : Type} {p : ℕ} [Fact p.Prime] [Field K] [Algebra F2 K]
  [Field PF] [Field FE] [Algebra PF FE]

/-! ## Shares of a value -/

/-- What the peers hold of the value `v`: each has the key of the other's share. -/
structure Shares (Δ : PeerRole → FE) (v : PF) (a b : AuthenticatedShare PF FE) : Prop where
  first : a.remoteAuth = b.localAuth.key (Δ .first)
  second : b.remoteAuth = a.localAuth.key (Δ .second)
  value : a.localAuth.value + b.localAuth.value = v

omit [Algebra PF FE] in
theorem AuthenticatedShare.add_swap (a b : AuthenticatedShare PF FE) : a.add b = b.add a := by
  simp [add, FComProver.add, FComVerifier.add, add_comm]

namespace Shares

variable {Δ : PeerRole → FE} {v w : PF} {a b c d : AuthenticatedShare PF FE}

theorem zero : Shares Δ (0 : PF) .zero .zero := by
  constructor <;> simp [AuthenticatedShare.zero, MacProver.key]

theorem ownerZero (x : MacProver PF FE) :
    Shares Δ x.value ⟨x, ⟨0⟩⟩ ⟨⟨0, 0⟩, x.key (Δ .second)⟩ := by
  constructor <;> simp [MacProver.key]

theorem add (h : Shares Δ v a b) (h' : Shares Δ w c d) : Shares Δ (v + w) (a.add c) (b.add d) where
  first := by simp [AuthenticatedShare.add, h.first, h'.first]
  second := by simp [AuthenticatedShare.add, h.second, h'.second]
  value := by rw [← h.value, ← h'.value]; exact add_add_add_comm ..

theorem neg (h : Shares Δ v a b) : Shares Δ (-v) a.neg b.neg where
  first := by simp [AuthenticatedShare.neg, h.first]
  second := by simp [AuthenticatedShare.neg, h.second]
  value := by rw [← h.value]; exact (neg_add ..).symm

theorem multConst (h : Shares Δ v a b) (k : PF) :
    Shares Δ (k * v) (a.multConst k) (b.multConst k) where
  first := by simp [AuthenticatedShare.multConst, h.first]
  second := by simp [AuthenticatedShare.multConst, h.second]
  value := by rw [← h.value]; exact (mul_add ..).symm

theorem addConst [DecidableEq PF] (h : Shares Δ v a b) (r t : FComVerifier FE)
    (ht : t.delta = Δ .second) (k : PF) :
    Shares Δ (v + k) (a.addConst .first r k) (b.addConst .second t k) := by
  unfold AuthenticatedShare.addConst
  split_ifs with hk
  · simpa [hk] using h
  · exact ⟨h.first, by simp [h.second, FComProver.affineAddCst, FComVerifier.affineAddCst, ht,
      MacProver.key, add_smul, sub_sub, add_comm], by
      rw [← h.value, add_comm _ k]; exact add_assoc ..⟩

end Shares

structure SharesTriple (Δ₂ : PeerRole → K) (v : F2 × F2 × F2) (s t : SharedBitTriple K) : Prop where
  a : Shares Δ₂ v.1 s.a t.a
  b : Shares Δ₂ v.2.1 s.b t.b
  c : Shares Δ₂ v.2.2 s.c t.c

structure SharesDabit (Δ₂ : PeerRole → K) (Δₑ : PeerRole → ZMod p) (v : F2 × ZMod p)
    (s t : SharedDabit K p) : Prop where
  bit : Shares Δ₂ v.1 s.bit t.bit
  value : Shares Δₑ v.2 s.value t.value

theorem Shares.product {d e : F2} {v : F2 × F2 × F2} {s t : SharedBitTriple K}
    (h : SharesTriple Δ₂ v s t) (r k : FComVerifier K) (hk : k.delta = Δ₂ .second) :
    Shares Δ₂ (v.2.2 + d * v.2.1 + e * v.1 + d * e) (product .first r s d e)
      (product .second k t d e) := by
  have hadd {b z w : F2} {a a' c c' : BitShare K} (h : Shares Δ₂ z a a') (h' : Shares Δ₂ w c c') :
      Shares Δ₂ (z + b * w) (if b = 1 then a.add c else a) (if b = 1 then a'.add c' else a') := by
    rcases Parity.eq_zero_or_one b with rfl | rfl
    · simpa using h
    · simpa using h.add h'
  unfold MpcPeer.product
  have hab := hadd (b := e) (hadd (b := d) h.c h.b) h.a
  rcases Parity.eq_zero_or_one (d * e) with hde | hde
  · simpa [hde] using hab
  · simpa [hde] using hab.addConst r k hk 1

/-! ## Peers in step -/

variable {Δ₂ : PeerRole → K} {Δₑ : PeerRole → ZMod p}

/-- In both directions the verifying peer holds the keys of the other one. -/
structure Peers (Δ₂ : PeerRole → K) (Δₑ : PeerRole → ZMod p) (s t : MpcPeer K p) : Prop where
  outbound : ConvCorrelated (Δ₂ .second) (Δₑ .second) s.localConv t.remoteConv
  inbound : ConvCorrelated (Δ₂ .first) (Δₑ .first) t.localConv s.remoteConv

theorem sync_outbound {α β : Type} {P : Party M G (ProverConv K (ZMod p)) α}
    {Q : Party M H (VerifierConv K (ZMod p)) β} {post : α → β → Prop}
    (h : Sync (ConvCorrelated (Δ₂ .second) (Δₑ .second)) P Q post) :
    Sync (Peers Δ₂ Δₑ) (zoom outbound P) (zoom inbound Q) post :=
  h.zoom (fun _ _ hr => hr.outbound) fun _ _ _ _ hr h => ⟨h, hr.inbound⟩

theorem sync_inbound {α β : Type} {P : Party M G (ProverConv K (ZMod p)) α}
    {Q : Party M H (VerifierConv K (ZMod p)) β} {post : α → β → Prop}
    (h : Sync (ConvCorrelated (Δ₂ .first) (Δₑ .first)) P Q post) :
    Sync (Peers Δ₂ Δₑ) (zoom inbound Q) (zoom outbound P) fun b a => post a b :=
  h.swap.zoom (fun _ _ hr => hr.inbound) fun _ _ _ _ hr h => ⟨hr.outbound, h⟩

/-- The commitments of one field that the two directions run on. -/
structure Linked {σ : Type} (rel : σ → σ → Prop) (L : Lens σ (FComProver PF FE))
    (R : Lens σ (FComVerifier FE)) (Δ : PeerRole → FE) : Prop where
  outbound {M G H α β : Type} {P : Party M G (FComProver PF FE) α}
    {Q : Party M H (FComVerifier FE) β} {post : α → β → Prop}
    (h : Sync (Correlated (Δ .second)) P Q post) : Sync rel (zoom L P) (zoom R Q) post
  inbound {M G H α β : Type} {P : Party M G (FComProver PF FE) α}
    {Q : Party M H (FComVerifier FE) β} {post : α → β → Prop}
    (h : Sync (Correlated (Δ .first)) P Q post) :
    Sync rel (zoom R Q) (zoom L P) fun b a => post a b

omit [Fact p.Prime] in
theorem zoom_comp {σ τ υ α : Type} (L : Lens σ τ) (N : Lens τ υ) (P : Party M G υ α) :
    zoom (L.comp N) P = zoom L (zoom N P) := by
  funext s g
  simp only [zoom_apply, Proc.bind_assoc', Proc.pure_bind']
  rfl

theorem linked_f2 : Linked (Peers Δ₂ Δₑ) (outbound.comp ProverConv.f2)
    (inbound.comp VerifierConv.f2) Δ₂ where
  outbound h := by simpa only [zoom_comp] using sync_outbound (sync_f2 h)
  inbound h := by simpa only [zoom_comp] using sync_inbound (sync_f2 h)

theorem linked_fe : Linked (Peers Δ₂ Δₑ) (outbound.comp ProverConv.fe)
    (inbound.comp VerifierConv.fe) Δₑ where
  outbound h := by simpa only [zoom_comp] using sync_outbound (sync_fe h)
  inbound h := by simpa only [zoom_comp] using sync_inbound (sync_fe h)

section Field

variable {σ : Type} {rel : σ → σ → Prop} {L : Lens σ (FComProver PF FE)}
  {R : Lens σ (FComVerifier FE)} {Δ : PeerRole → FE} [CanonicalSerialize M PF] {n : ℕ} {v : ℕ → PF}

theorem sync_openSharedBatch [DecidableEq FE] [CanonicalSerialize M FE] [Random D FE]
    (hl : Linked rel L R Δ) (C : Primitives M D) {as bs : List (AuthenticatedShare PF FE)}
    (h : Aligned n (fun i => Shares Δ (v i)) as bs) :
    Sync rel (openSharedBatch L R C .first as : Party M G σ _)
      (openSharedBatch L R C .second bs : Party M H σ _)
      fun xs ys => xs = (List.range n).map v ∧ ys = (List.range n).map v := by
  have hna := h.left
  have hnb := h.right
  have hempty : as.isEmpty = bs.isEmpty := by
    rw [Bool.eq_iff_iff, List.isEmpty_iff_length_eq_zero, List.isEmpty_iff_length_eq_zero, hna, hnb]
  have hfirst : as.map (·.remoteAuth) = (bs.map (·.localAuth)).map (MacProver.key (Δ .first)) :=
    List.ext_getElem (by simp [hna, hnb]) fun i _ _ => by simpa using (h.get i ..).first
  have hsecond : bs.map (·.remoteAuth) = (as.map (·.localAuth)).map (MacProver.key (Δ .second)) :=
    List.ext_getElem (by simp [hna, hnb]) fun i _ _ => by simpa using (h.get i ..).second
  unfold openSharedBatch
  rw [hempty]
  split_ifs with hb
  · rw [List.isEmpty_iff_length_eq_zero, hnb] at hb
    exact Sync.pure (by simp [hb])
  · simp only [hfirst, hsecond]
    refine (hl.outbound (sync_openMacs C _)).bind fun _ xs hx => ?_
    refine (hl.inbound (sync_openMacs C _)).bind fun ys _ hy => Sync.pure ?_
    subst hx hy
    constructor <;> refine List.ext_getElem (by simp [hna, hnb]) fun i _ _ => ?_
    · simpa using (h.get i ..).value
    · simpa using (add_comm ..).trans (h.get i ..).value

theorem sync_openAuthenticatedShare [DecidableEq FE] [CanonicalSerialize M FE] [Random D FE]
    (hl : Linked rel L R Δ) (C : Primitives M D) {v : PF} {a b : AuthenticatedShare PF FE}
    (h : Shares Δ v a b) : Sync rel (openAuthenticatedShare L R C .first a : Party M G σ _)
      (openAuthenticatedShare L R C .second b : Party M H σ _) fun x y => x = v ∧ y = v := by
  unfold openAuthenticatedShare
  rw [h.first, h.second]
  refine (hl.outbound (sync_openMacs C [a.localAuth])).bind fun _ xs hx => ?_
  refine (hl.inbound (sync_openMacs C [b.localAuth])).bind fun ys _ hy => ?_
  subst hx hy
  exact Sync.pure ⟨h.value, (add_comm ..).trans h.value⟩

theorem sync_shareOwnedValues [Random D PF] (hl : Linked rel L R Δ) {mask : PF → PF → PF}
    (hmask : ∀ v s, s + mask v s = v) {values : List PF} (hv : values = (List.range n).map v) :
    Sync rel (shareOwnedValues L R mask values : Party M (Stream' D) σ _)
      (receiveSharedValues L R n : Party M H σ _) (Aligned n fun i => Shares Δ (v i)) := by
  have hn : values.length = n := by simp [hv]
  have hdraw : Draws (random PF : Party M (Stream' D) σ PF) fun _ => True :=
    Draws.draw.bind fun _ _ => Draws.pure trivial
  unfold shareOwnedValues receiveSharedValues
  refine Sync.draws_left (Draws.mapM (fun _ => hdraw) values) fun ls hls => ?_
  have hlen : ls.length = n := hls.1.trans hn
  have hrs : (List.zipWith mask values ls).length = n := by simp [hn, hlen]
  have hin := hl.outbound (H := H) (G := Stream' D) (sync_input (M := M) ls)
  rw [hlen] at hin
  refine hin.bind fun lm rk hlm => Sync.write_readSerializableSeq hrs (Sync.flush_left ?_)
  have hin := hl.inbound (H := Stream' D) (G := H) (sync_input (M := M) (List.zipWith mask values ls))
  rw [hrs] at hin
  rw [hn]
  refine hin.bind fun ra rm hrm => Sync.flush_right (Sync.pure ?_)
  obtain ⟨⟨hlm, rfl⟩, hrm, rfl⟩ := And.intro hlm hrm
  refine ⟨by simp [hlm, hrm, hn, hlen], by simp [hlm, hrm, hn, hlen], fun i _ _ => ?_⟩
  constructor <;> simp [hmask, hv]

end Field

/-! ## The adder -/

section Adder

variable [DecidableEq K] [CanonicalSerialize M F2] [CanonicalSerialize M K] [Random D K]
  (C : Primitives M D) {n m : ℕ}

theorem sync_multiplySharedBits {x y : ℕ → F2} {v : ℕ → F2 × F2 × F2}
    (hv : ∀ i, (v i).2.2 = (v i).1 * (v i).2.1)
    {a a' b b' : List (BitShare K)} {s t : List (SharedBitTriple K)}
    (ha : Aligned n (fun i => Shares Δ₂ (x i)) a a') (hb : Aligned n (fun i => Shares Δ₂ (y i)) b b')
    (ht : Aligned n (fun i => SharesTriple Δ₂ (v i)) s t) :
    Sync (Peers Δ₂ Δₑ) (multiplySharedBits C .first a b s : Party M G (MpcPeer K p) _)
      (multiplySharedBits C .second a' b' t : Party M H _ _)
      (Aligned n fun i => Shares Δ₂ (x i * y i)) := by
  unfold multiplySharedBits openSharedBitBatch
  refine (sync_openSharedBatch linked_f2 C
    (ha.zipWith ht fun _ _ _ _ _ h h' => h.add h'.a)).bind fun d d' hd => ?_
  refine (sync_openSharedBatch linked_f2 C
    (hb.zipWith ht fun _ _ _ _ _ h h' => h.add h'.b)).bind fun e e' he => ?_
  obtain ⟨⟨rfl, rfl⟩, rfl, rfl⟩ := And.intro hd he
  have hkey : ∀ x y a b : F2, x * y = a * b + (x + a) * b + (y + b) * a + (x + a) * (y + b) := by
    decide
  refine Sync.gets fun _ u hr => Sync.pure ⟨by simp [ht.left], by simp [ht.right], fun i _ _ => ?_⟩
  rw [hkey (x i) (y i) (v i).1 (v i).2.1, ← hv]
  simpa using Shares.product (ht.get i ..) _ u.remoteConv.fcomF2 (by rw [hr.outbound]; rfl)

/-- The carry into a position of the addition. -/
def carry (x y : ℕ → F2) : ℕ → F2
  | 0 => 0
  | i + 1 => carry x y i + (x i + carry x y i) * (y i + carry x y i)

def sumBit (x y : ℕ → F2) (i : ℕ) : F2 := x i + y i + carry x y i

theorem adds_carry (x y : ℕ → F2) (i : ℕ) :
    Bits.Adds ((List.range i).map x) ((List.range i).map y)
      ((List.range i).map (sumBit x y)) (carry x y i) := by
  induction i with
  | zero => exact .nil
  | succ i ih => simpa [List.range_succ, carry, sumBit] using ih.concat (x i) (y i)

/-- The bits and the value that the peers share. -/
structure SharesEdabit (Δ₂ : PeerRole → K) (Δₑ : PeerRole → ZMod p) (m : ℕ)
    (v : (ℕ → F2) × ZMod p) (s t : SharedEdabit K p) : Prop where
  bits : Aligned m (fun k => Shares Δ₂ (v.1 k)) s.bits t.bits
  value : Shares Δₑ v.2 s.value t.value

variable {A B : ℕ → (ℕ → F2) × ZMod p} {as as' bs bs' : List (SharedEdabit K p)}
  {s t : List (SharedBitTriple K)} {v : ℕ → F2 × F2 × F2}

/-- The peers share the carries into position `i` and the bits of the sums below it. -/
structure Added (Δ₂ : PeerRole → K) (A B : ℕ → (ℕ → F2) × ZMod p) (n i : ℕ)
    (c c' : List (BitShare K) × List (List (BitShare K))) : Prop where
  carries : Aligned n (fun j => Shares Δ₂ (carry (A j).1 (B j).1 i)) c.1 c'.1
  sums : Aligned n (fun j => Aligned i fun k => Shares Δ₂ (sumBit (A j).1 (B j).1 k)) c.2 c'.2

theorem sync_openGlobalEdabits [CanonicalSerialize M (ZMod p)] [Random D (ZMod p)]
    (h : Aligned n (fun j => SharesEdabit Δ₂ Δₑ m (A j)) as as') :
    Sync (Peers Δ₂ Δₑ) (openGlobalEdabits C .first as : Party M G (MpcPeer K p) _)
      (openGlobalEdabits C .second as' : Party M H _ _) fun xs ys =>
        xs = (List.range n).map (fun j => ((List.range m).map (A j).1, (A j).2)) ∧ ys = xs := by
  refine (h.mapM (T := fun j x y => x = ((List.range m).map (A j).1, (A j).2) ∧
    y = ((List.range m).map (A j).1, (A j).2)) fun j a b hab => ?_).mono fun xs ys hxy => ?_
  · refine (hab.bits.mapM fun i _ _ => sync_openAuthenticatedShare linked_f2 C).bind fun x y hx => ?_
    refine (sync_openAuthenticatedShare linked_fe C hab.value).bind fun v w hv => Sync.pure ?_
    obtain ⟨⟨rfl, rfl⟩, rfl, rfl⟩ := And.intro hx.eq_map_range hv
    exact ⟨rfl, rfl⟩
  · exact ⟨hxy.eq_map_range.1, hxy.eq_map_range.2.trans hxy.eq_map_range.1.symm⟩

theorem sync_addPosition (hv : ∀ i, (v i).2.2 = (v i).1 * (v i).2.1)
    (hA : Aligned n (fun j => SharesEdabit Δ₂ Δₑ m (A j)) as as')
    (hB : Aligned n (fun j => SharesEdabit Δ₂ Δₑ m (B j)) bs bs')
    (ht : Aligned (n * m) (fun i => SharesTriple Δ₂ (v i)) s t) {i : ℕ} (hi : i < m)
    {c c' : List (BitShare K) × List (List (BitShare K))} (hc : Added Δ₂ A B n i c c') :
    Sync (Peers Δ₂ Δₑ) (addPosition C .first as bs s c i : Party M G (MpcPeer K p) _)
      (addPosition C .second as' bs' t c' i : Party M H _ _) (Added Δ₂ A B n (i + 1)) := by
  have hcol {A : ℕ → (ℕ → F2) × ZMod p} (j : ℕ) (a b : SharedEdabit K p)
      (h : SharesEdabit Δ₂ Δₑ m (A j) a b) : Sync (Peers Δ₂ Δₑ)
        (index a.bits i : Party M G _ _) (index b.bits i : Party M H _ _)
        (Shares Δ₂ ((A j).1 i)) := by
    have ha : i < a.bits.length := h.bits.left ▸ hi
    have hb : i < b.bits.length := h.bits.right ▸ hi
    rw [index_eq ha, index_eq hb]
    exact Sync.pure (h.bits.get i ha hb)
  have hle : i * n + n ≤ n * m := by rw [← Nat.succ_mul, mul_comm]; exact Nat.mul_le_mul_left n hi
  unfold addPosition
  simp only [hA.left, hA.right]
  refine (hA.mapM hcol).bind fun x x' hx => ?_
  rw [slice_eq (Nat.zero_le n) hB.left.ge, slice_eq (Nat.zero_le n) hB.right.ge,
    slice_eq (Nat.le_add_right ..) (hle.trans ht.left.ge),
    slice_eq (Nat.le_add_right ..) (hle.trans ht.right.ge), pure_bind, pure_bind]
  simp only [List.drop_zero, Nat.sub_zero, List.take_of_length_le hB.left.le,
    List.take_of_length_le hB.right.le, Nat.add_sub_cancel_left]
  refine (hB.mapM hcol).bind fun y y' hy => ?_
  rw [pure_bind, pure_bind]
  have h1 := hx.zipWith hc.carries fun _ _ _ _ _ h h' => h.add h'
  have h2 := hy.zipWith hc.carries fun _ _ _ _ _ h h' => h.add h'
  refine (sync_multiplySharedBits C (fun _ => hv _) h1 h2 (ht.slice hle)).bind fun r r' hr => ?_
  refine Sync.pure ⟨hc.carries.zipWith hr fun _ _ _ _ _ h h' => h.add h', ?_⟩
  refine hc.sums.zipWith (h1.zipWith hy fun _ _ _ _ _ h h' => h.add h') fun j _ _ _ _ h h' => h.concat ?_
  rwa [sumBit, add_right_comm]

theorem sync_addPrivateBitContributions (hn : 0 < n)
    (hv : ∀ i, (v i).2.2 = (v i).1 * (v i).2.1)
    (hA : Aligned n (fun j => SharesEdabit Δ₂ Δₑ m (A j)) as as')
    (hB : Aligned n (fun j => SharesEdabit Δ₂ Δₑ m (B j)) bs bs')
    (ht : Aligned (n * m) (fun i => SharesTriple Δ₂ (v i)) s t) :
    Sync (Peers Δ₂ Δₑ) (addPrivateBitContributions C .first as bs s : Party M G (MpcPeer K p) _)
      (addPrivateBitContributions C .second as' bs' t : Party M H _ _)
      fun d d' => Added Δ₂ A B n m d.swap d'.swap := by
  have ha : 0 < as.length := hA.left ▸ hn
  have hb : 0 < as'.length := hA.right ▸ hn
  unfold addPrivateBitContributions
  rw [if_neg (by simpa using List.ne_nil_of_length_pos ha),
    if_neg (by simpa using List.ne_nil_of_length_pos hb), index_eq ha, index_eq hb, pure_bind,
    pure_bind, (hA.get 0 ha hb).bits.left, (hA.get 0 ha hb).bits.right, hA.left, hA.right]
  have hzero : Added Δ₂ A B n 0 (List.replicate n .zero, List.replicate n [])
      (List.replicate n .zero, List.replicate n []) :=
    ⟨.replicate fun _ => .zero, .replicate fun _ => ⟨rfl, rfl, by simp⟩⟩
  exact (Sync.foldlM_positions (fun i hi _ _ hc => sync_addPosition C hv hA hB ht hi hc)
    hzero).bind fun _ _ hc => Sync.pure hc

theorem sync_convertSharedBitsToField {x : ℕ → F2} {v : ℕ → F2 × ZMod p}
    {b b' : List (BitShare K)} {d d' : List (SharedDabit K p)}
    (hb : Aligned n (fun i => Shares Δ₂ (x i)) b b')
    (hd : Aligned n (fun i => SharesDabit Δ₂ Δₑ (v i)) d d') :
    Sync (Peers Δ₂ Δₑ) (convertSharedBitsToField C .first b d : Party M G (MpcPeer K p) _)
      (convertSharedBitsToField C .second b' d' : Party M H _ _)
      (Aligned n fun i => Shares Δₑ (if x i + (v i).1 = 0 then (v i).2 else -(v i).2 + 1)) := by
  unfold convertSharedBitsToField openSharedBitBatch
  refine (sync_openSharedBatch linked_f2 C
    (hb.zipWith hd fun _ _ _ _ _ h h' => h.add h'.bit)).bind fun e e' he => ?_
  obtain ⟨rfl, rfl⟩ := he
  refine Sync.gets fun _ u hr => Sync.pure ⟨by simp [hd.left], by simp [hd.right], fun i _ _ => ?_⟩
  have hvalue := (hd.get i (by simp_all) (by simp_all)).value
  simp only [List.getElem_zipWith, List.getElem_map, List.getElem_range]
  split_ifs
  · exact hvalue
  · exact hvalue.neg.addConst _ u.remoteConv.fcomFe (by rw [hr.outbound]; rfl) 1

theorem sync_combineWithShared (hn : 0 < n) (hv : ∀ i, (v i).2.2 = (v i).1 * (v i).2.1)
    {own own' : List (PrivateEdabit K p)} {peer peer' : List (SharedEdabit K p)}
    (hA : Aligned n (fun j a b => SharesEdabit Δ₂ Δₑ m (A j) a.shared b) own peer')
    (hB : Aligned n (fun j a b => SharesEdabit Δ₂ Δₑ m (B j) a b.shared) peer own')
    (ht : Aligned (n * m) (fun i => SharesTriple Δ₂ (v i)) s t) {w : ℕ → F2 × ZMod p}
    {d d' : List (SharedDabit K p)} (hd : Aligned n (fun i => SharesDabit Δ₂ Δₑ (w i)) d d') :
    Sync (Peers Δ₂ Δₑ) (combineWithShared C .first own peer m s d : Party M G (MpcPeer K p) _)
      (combineWithShared C .second own' peer' m t d' : Party M H _ _)
      (Aligned n fun j => SharesEdabit Δ₂ Δₑ m (sumBit (A j).1 (B j).1, (A j).2 + (B j).2 +
        -powerTwo m * if carry (A j).1 (B j).1 m + (w j).1 = 0 then (w j).2 else -(w j).2 + 1)) := by
  have hshared := hA.map (T := fun j => SharesEdabit Δ₂ Δₑ m (A j)) (f := PrivateEdabit.shared)
    (g := id) fun _ _ _ h => h
  have hshared' := hB.map (T := fun j => SharesEdabit Δ₂ Δₑ m (B j)) (f := id)
    (g := PrivateEdabit.shared) fun _ _ _ h => h
  rw [List.map_id] at hshared hshared'
  refine (sync_addPrivateBitContributions C hn hv hshared hshared' ht).bind fun c c' hc => ?_
  refine (sync_convertSharedBitsToField C hc.carries hd).bind fun f f' hf => Sync.pure ?_
  have hvalues : Aligned n (fun j => Shares Δₑ ((A j).2 + (B j).2))
      (sumPrivateArithmeticShares own peer) (sumPrivateArithmeticShares own' peer') := by
    unfold sumPrivateArithmeticShares
    nth_rewrite 2 [List.zipWith_comm]
    refine hA.zipWith hB fun _ _ _ _ b h h' => ?_
    rw [b.shared.value.add_swap]
    exact h.value.add h'.value
  exact hc.sums.zipWith (hvalues.zipWith hf fun _ _ _ _ _ h h' => h.add (h'.multConst _))
    fun _ _ _ _ _ h h' => ⟨h, h'⟩

end Adder

/-! ## Triples and dabits -/

theorem exists_map_range {α β : Type} (xs : List α) (f : α → β) {P : β → Prop} {d : β} (hd : P d)
    (h : ∀ x ∈ xs, P (f x)) : ∃ v : ℕ → β, xs.map f = (List.range xs.length).map v ∧ ∀ i, P (v i) := by
  refine ⟨fun i => (xs.map f).getD i d, List.ext_getElem (by simp) fun i hi _ => by
    simp at hi; simp [hi], fun i => ?_⟩
  by_cases hi : i < xs.length
  · simpa [hi] using h _ (List.getElem_mem hi)
  · simpa [hi] using hd

variable [CanonicalSerialize M F2] [Random D F2] {n : ℕ}

theorem sync_shareF2 (v : ℕ → F2) :
    Sync (Peers Δ₂ Δₑ) (shareOwnedF2Values ((List.range n).map v) : Party M (Stream' D) _ _)
      (receiveSharedF2Values n : Party M H (MpcPeer K p) _) (Aligned n fun i => Shares Δ₂ (v i)) :=
  sync_shareOwnedValues linked_f2
    (fun v s => by rw [add_comm v, ← add_assoc, CharTwo.add_self_eq_zero, zero_add]) rfl

theorem sync_shareBitTriples (v : ℕ → F2 × F2 × F2) :
    Sync (Peers Δ₂ Δₑ) (shareBitTriples ((List.range n).map v) : Party M (Stream' D) _ _)
      (receiveBitTriples n : Party M H (MpcPeer K p) _)
      (Aligned n fun i => SharesTriple Δ₂ (v i)) := by
  unfold shareBitTriples receiveBitTriples
  simp only [List.map_map]
  refine (sync_shareF2 _).bind fun a a' ha => (sync_shareF2 _).bind fun b b' hb => ?_
  refine (sync_shareF2 _).bind fun c c' hc => Sync.pure ⟨?_, ?_, fun i _ _ => ?_⟩
  · simp [ha.left, hb.left, hc.left]
  · simp [ha.right, hb.right, hc.right]
  · simpa using ⟨ha.get i .., hb.get i .., hc.get i ..⟩

theorem sync_shareDabits [CanonicalSerialize M (ZMod p)] [Random D (ZMod p)] (v : ℕ → F2 × ZMod p) :
    Sync (Peers Δ₂ Δₑ) (shareDabits ((List.range n).map v) : Party M (Stream' D) (MpcPeer K p) _)
      (receiveDabits n : Party M H (MpcPeer K p) _)
      (Aligned n fun i => SharesDabit Δ₂ Δₑ (v i)) := by
  unfold shareDabits receiveDabits
  simp only [List.map_map]
  refine (sync_shareF2 _).bind fun a a' ha => ?_
  refine (sync_shareOwnedValues linked_fe (fun v s => add_sub_cancel s v) rfl).bind fun b b' hb => ?_
  exact Sync.pure (ha.zipWith hb fun _ _ _ _ _ h h' => ⟨h, h'⟩)

variable [DecidableEq K] [CanonicalSerialize M K] [Random D K] [FiniteField F2 K]

theorem sync_bitTriples : Sync (Peers Δ₂ Δₑ)
    (generateCheckedSharedBitTriples .first n : Party M (Stream' D) (MpcPeer K p) _)
    (generateCheckedSharedBitTriples .second n : Party M (Stream' D) (MpcPeer K p) _)
    fun s t => ∃ v : ℕ → F2 × F2 × F2, (∀ i, (v i).2.2 = (v i).1 * (v i).2.1) ∧
      Aligned n (fun i => SharesTriple Δ₂ (v i)) s t := by
  unfold generateCheckedSharedBitTriples
  split_ifs with hn
  · exact Sync.pure ⟨0, by simp, hn.symm, hn.symm, fun _ h => absurd h (Nat.not_lt_zero _)⟩
  refine (sync_outbound (sync_randomTriples n)).bind fun ts ks hts => ?_
  obtain ⟨hlen, rfl, hmul⟩ := hts
  refine (sync_outbound (sync_f2 (sync_quicksilverCheckMultiply hmul))).bind fun _ _ _ => ?_
  obtain ⟨v, hv, hP⟩ := exists_map_range ts (fun t => (t.1.value, t.2.1.value, t.2.2.value))
    (P := fun v => v.2.2 = v.1 * v.2.1) (d := 0) (by simp) hmul
  rw [hv, hlen]
  exact (sync_shareBitTriples v).mono fun s t h => ⟨v, hP, h⟩

/-- The check says nothing about the triples: after it the first peer shares any values, and the
second one takes them. -/
theorem bitTriples_unchecked (hn : n ≠ 0) (v : ℕ → F2 × F2 × F2) : Sync (Peers Δ₂ Δₑ)
    (do
      let triples ← zoom outbound (ProverConv.randomTriples n)
      zoom outbound (zoom ProverConv.f2 (FComProver.quicksilverCheckMultiply triples))
      shareBitTriples ((List.range n).map v) : Party M (Stream' D) (MpcPeer K p) _)
    (generateCheckedSharedBitTriples .second n : Party M (Stream' D) (MpcPeer K p) _)
    (Aligned n fun i => SharesTriple Δ₂ (v i)) := by
  unfold generateCheckedSharedBitTriples
  rw [if_neg hn]
  refine (sync_outbound (sync_randomTriples n)).bind fun ts ks hts => ?_
  obtain ⟨-, rfl, hmul⟩ := hts
  refine (sync_outbound (sync_f2 (sync_quicksilverCheckMultiply hmul))).bind fun _ _ _ => ?_
  exact sync_shareBitTriples v

theorem bitTriples_unchecked_one : Sync (Peers (p := 2 ^ 61 - 1) (fun _ => (1 : F40b)) fun _ => 1)
    (do
      let triples ← zoom outbound (ProverConv.randomTriples 1)
      zoom outbound (zoom ProverConv.f2 (FComProver.quicksilverCheckMultiply triples))
      shareBitTriples [(0, 0, 1)] : Party (Msg F40b F61p) (Stream' (Draw F40b F61p)) _ _)
    (generateCheckedSharedBitTriples .second 1 : Party _ (Stream' (Draw F40b F61p)) _ _)
    (Aligned 1 fun _ => SharesTriple (fun _ => 1) (0, 0, 1)) :=
  bitTriples_unchecked one_ne_zero fun _ => (0, 0, 1)

variable [CanonicalSerialize M (ZMod p)] [CanonicalSerialize M Block] [Random D (ZMod p)]
  [Random D Block] (C : Primitives M D)

omit [FiniteField F2 K] in
theorem sync_dabits (hcheck : checkParameters p n (fdabitGamma n)) : Sync (Peers Δ₂ Δₑ)
    (generateCheckedSharedDabits C .first n : Party M (Stream' D) (MpcPeer K p) _)
    (generateCheckedSharedDabits C .second n : Party M (Stream' D) (MpcPeer K p) _)
    fun s t => ∃ v : ℕ → F2 × ZMod p, (∀ i, (v i).2 = f2ToFe (v i).1) ∧
      Aligned n (fun i => SharesDabit Δ₂ Δₑ (v i)) s t := by
  unfold generateCheckedSharedDabits
  split_ifs with hn
  · exact Sync.pure ⟨0, by simp [f2ToFe], hn.symm, hn.symm, fun _ h => absurd h (Nat.not_lt_zero _)⟩
  refine (sync_outbound (sync_randomDabits n)).bind fun ds ks hds => ?_
  obtain ⟨rfl, rfl, hd⟩ := hds
  refine (sync_outbound (sync_fdabit C hd (Nat.pos_of_ne_zero hn) hcheck)).bind fun _ _ _ => ?_
  obtain ⟨v, hv, hP⟩ := exists_map_range ds (fun d => (d.bit.value, d.value.value))
    (P := fun v => v.2 = f2ToFe v.1) (d := 0) (by simp [f2ToFe]) hd
  rw [hv]
  exact (sync_shareDabits v).mono fun s t h => ⟨v, hP, h⟩

/-! ## The combination -/

variable {m : ℕ} {A B : ℕ → (ℕ → F2) × ZMod p} {own own' : List (PrivateEdabit K p)}
  {peer peer' : List (SharedEdabit K p)}

theorem combinePrivate_eq (role : PeerRole) (hn : 0 < own.length)
    (hm : own[0].shared.bits.length = m) :
    (combinePrivateIntoGlobalEdabits C role own peer : Party M (Stream' D) (MpcPeer K p) _) = (do
      let triples ← generateCheckedSharedBitTriples role (own.length * m)
      let dabits ← generateCheckedSharedDabits C role own.length
      combineWithShared C role own peer m triples dabits) := by
  rw [combinePrivateIntoGlobalEdabits, if_neg (by simpa using List.ne_nil_of_length_pos hn),
    index_eq hn, pure_bind, hm]

/-- Both peers combine their contributions in step: they end with shares of the low bits of each sum,
and of the sum of the values less `2 ^ m` times the carry. -/
theorem sync_combinePrivateIntoGlobalEdabits (hcheck : checkParameters p n (fdabitGamma n))
    (hA : Aligned n (fun j a b => SharesEdabit Δ₂ Δₑ m (A j) a.shared b) own peer')
    (hB : Aligned n (fun j a b => SharesEdabit Δ₂ Δₑ m (B j) a b.shared) peer own') :
    Sync (Peers Δ₂ Δₑ)
      (combinePrivateIntoGlobalEdabits C .first own peer : Party M (Stream' D) (MpcPeer K p) _)
      (combinePrivateIntoGlobalEdabits C .second own' peer' : Party M (Stream' D) _ _) fun e e' =>
        ∃ E : ℕ → (ℕ → F2) × ZMod p, Aligned n (fun j => SharesEdabit Δ₂ Δₑ m (E j)) e e' ∧
          ∀ j < n, let a := Bits.toNat ((List.range m).map (A j).1)
            let b := Bits.toNat ((List.range m).map (B j).1)
            Bits.toNat ((List.range m).map (E j).1) = (a + b) % 2 ^ m ∧
              (E j).2 = (A j).2 + (B j).2 - 2 ^ m * ((a + b) / 2 ^ m : ℕ) := by
  rcases Nat.eq_zero_or_pos n with rfl | hn
  · unfold combinePrivateIntoGlobalEdabits
    rw [List.length_eq_zero_iff.1 hA.left, List.length_eq_zero_iff.1 hB.right]
    exact Sync.pure ⟨A, ⟨rfl, rfl, by simp⟩, by simp⟩
  have h0 : 0 < own.length := hA.left ▸ hn
  have h0' : 0 < own'.length := hB.right ▸ hn
  rw [combinePrivate_eq C _ h0 (hA.get 0 h0 (hA.right ▸ hn)).bits.left,
    combinePrivate_eq C _ h0' (hB.get 0 (hB.left ▸ hn) h0').bits.right, hA.left, hB.right]
  refine sync_bitTriples.bind fun s t hT => (sync_dabits C hcheck).bind fun d d' hD => ?_
  obtain ⟨⟨v, hv, hT⟩, w, hw, hD⟩ := And.intro hT hD
  refine (sync_combineWithShared C hn hv hA hB hT hD).mono fun e e' he => ⟨_, he, fun j _ => ?_⟩
  have hsum := adds_carry (A j).1 (B j).1 m
  have hdiv := hsum.div_eq
  rw [List.length_map, List.length_range] at hdiv
  refine ⟨by simpa using hsum.toNat_eq, ?_⟩
  rw [hdiv, powerTwo_eq, ← f2ToFe_eq, hw]
  rcases Parity.eq_zero_or_one (carry (A j).1 (B j).1 m) with hc | hc <;>
    rcases Parity.eq_zero_or_one (w j).1 with hb | hb <;>
      simp [hc, hb, f2ToFe, show (1 : F2) + 1 = 0 from rfl, sub_eq_add_neg]

/-- Whatever the randomness, both peers combine their contributions and open the same global edabits:
the low bits of each sum, and the sum of the values less `2 ^ m` times the carry. -/
theorem combinePrivateIntoGlobalEdabits_complete (hcheck : checkParameters p n (fdabitGamma n))
    (hA : Aligned n (fun j a b => SharesEdabit Δ₂ Δₑ m (A j) a.shared b) own peer')
    (hB : Aligned n (fun j a b => SharesEdabit Δ₂ Δₑ m (B j) a b.shared) peer own') :
    Sync (Peers Δ₂ Δₑ)
      (combinePrivateIntoGlobalEdabits C .first own peer >>= openGlobalEdabits C .first :
        Party M (Stream' D) (MpcPeer K p) _)
      (combinePrivateIntoGlobalEdabits C .second own' peer' >>= openGlobalEdabits C .second :
        Party M (Stream' D) (MpcPeer K p) _) fun xs ys =>
        ∃ E : ℕ → (ℕ → F2) × ZMod p,
          xs = (List.range n).map (fun j => ((List.range m).map (E j).1, (E j).2)) ∧ ys = xs ∧
          ∀ j < n, let a := Bits.toNat ((List.range m).map (A j).1)
            let b := Bits.toNat ((List.range m).map (B j).1)
            Bits.toNat ((List.range m).map (E j).1) = (a + b) % 2 ^ m ∧
              (E j).2 = (A j).2 + (B j).2 - 2 ^ m * ((a + b) / 2 ^ m : ℕ) := by
  refine (sync_combinePrivateIntoGlobalEdabits C hcheck hA hB).bind fun e e' he => ?_
  obtain ⟨E, hE, hsum⟩ := he
  exact (sync_openGlobalEdabits C hE).mono fun _ _ h => ⟨E, h.1, h.2, hsum⟩

theorem combinePrivateIntoGlobalEdabits_complete_two :
    let C : Primitives (Msg F40b F61p) (Draw F40b F61p) :=
      ⟨fun _ => .const ⟨0, 0, 0, 0, 0⟩, fun _ => 0⟩
    let zeros : SharedEdabit F40b (2 ^ 61 - 1) := ⟨.replicate 3 .zero, .zero⟩
    let sevens : SharedEdabit F40b (2 ^ 61 - 1) := ⟨.replicate 3 ⟨⟨1, 0⟩, ⟨0⟩⟩, ⟨⟨7, 0⟩, ⟨0⟩⟩⟩
    let keys : SharedEdabit F40b (2 ^ 61 - 1) :=
      ⟨.replicate 3 ⟨⟨0, 0⟩, MacProver.key 1 ⟨(1 : F2), 0⟩⟩, ⟨⟨0, 0⟩, MacProver.key 1 ⟨(7 : F61p), 0⟩⟩⟩
    Sync (Peers (fun _ => 1) (fun _ => 1))
      (combinePrivateIntoGlobalEdabits C .first (.replicate 2 ⟨sevens⟩) (.replicate 2 zeros) >>=
        openGlobalEdabits C .first)
      (combinePrivateIntoGlobalEdabits C .second (.replicate 2 ⟨zeros⟩) (.replicate 2 keys) >>=
        openGlobalEdabits C .second) fun _ _ => True :=
  (combinePrivateIntoGlobalEdabits_complete _ (n := 2) (m := 3) (A := fun _ => (fun _ => 1, 7))
    (B := fun _ => (fun _ => 0, 0)) (by decide)
    (.replicate fun _ => ⟨.replicate fun _ => .ownerZero ⟨1, 0⟩, .ownerZero ⟨7, 0⟩⟩)
    (.replicate fun _ => ⟨.replicate fun _ => .zero, .zero⟩)).mono fun _ _ _ => trivial

/-- A first peer that lets its dabits be checked and then shares `1 / 2` as the value of each. -/
def combineWithHalves (n m : ℕ) (own : List (PrivateEdabit K p)) (peer : List (SharedEdabit K p)) :
    Party M (Stream' D) (MpcPeer K p) (List (SharedEdabit K p)) := do
  let triples ← generateCheckedSharedBitTriples .first (n * m)
  let dabits ← zoom outbound (ProverConv.randomDabits n)
  zoom outbound (ProverConv.fdabit C dabits)
  let dabits ← shareDabits ((List.range n).map fun _ => (0, (1 + 1)⁻¹))
  combineWithShared C .first own peer m triples dabits

/-- The checks do not bind what is shared after them: an honest second peer runs to the end against
that first peer, and not one of the global edabits is consistent. -/
theorem combineWithHalves_accepted (hn : 0 < n) (hcheck : checkParameters p n (fdabitGamma n))
    (hA : Aligned n (fun j a b => SharesEdabit Δ₂ Δₑ m (A j) a.shared b) own peer')
    (hB : Aligned n (fun j a b => SharesEdabit Δ₂ Δₑ m (B j) a b.shared) peer own')
    (hA' : ∀ j < n, (A j).2 = (Bits.toNat ((List.range m).map (A j).1) : ZMod p))
    (hB' : ∀ j < n, (B j).2 = (Bits.toNat ((List.range m).map (B j).1) : ZMod p)) :
    Sync (Peers Δ₂ Δₑ)
      (combineWithHalves C n m own peer : Party M (Stream' D) (MpcPeer K p) _)
      (combinePrivateIntoGlobalEdabits C .second own' peer' : Party M (Stream' D) _ _) fun e e' =>
        ∃ E : ℕ → (ℕ → F2) × ZMod p, Aligned n (fun j => SharesEdabit Δ₂ Δₑ m (E j)) e e' ∧
          ∀ j < n, (E j).2 ≠ (Bits.toNat ((List.range m).map (E j).1) : ZMod p) := by
  have h0 : 0 < own'.length := hB.right ▸ hn
  rw [combinePrivate_eq C _ h0 (hB.get 0 (hB.left ▸ hn) h0).bits.right, hB.right]
  rw [combineWithHalves, one_add_one_eq_two]
  refine sync_bitTriples.bind fun s t hT => ?_
  obtain ⟨v, hv, hT⟩ := hT
  unfold generateCheckedSharedDabits
  rw [if_neg hn.ne', bind_assoc]
  refine (sync_outbound (sync_randomDabits n)).bind fun ds ks hds => ?_
  obtain ⟨rfl, rfl, hd⟩ := hds
  rw [bind_assoc]
  refine (sync_outbound (sync_fdabit C hd hn hcheck)).bind fun _ _ _ => ?_
  refine (sync_shareDabits _).bind fun d d' hD => ?_
  refine (sync_combineWithShared C hn hv hA hB hT hD).mono fun e e' he => ⟨_, he, fun j hj => ?_⟩
  have h2 : (2 : ZMod p) ≠ 0 := fun h2 => by
    obtain rfl := (Nat.prime_dvd_prime_iff_eq (Fact.out) Nat.prime_two).1
      ((ZMod.natCast_eq_zero_iff 2 p).1 h2)
    simp [checkParameters, numberOfBits, show Nat.clog 2 2 = 1 by decide] at hcheck
  have hhalf : (if carry (A j).1 (B j).1 m + 0 = 0 then 2⁻¹ else -2⁻¹ + 1 : ZMod p) = 2⁻¹ := by
    split_ifs
    · rfl
    · field_simp
      norm_num
  have hsum := congrArg (Nat.cast : ℕ → ZMod p) (adds_carry (A j).1 (B j).1 m).sum
  push_cast at hsum
  rw [hhalf, hA' j hj, hB' j hj, hsum, powerTwo_eq, List.length_map, List.length_range]
  intro h
  have hzero : (2 : ZMod p) ^ m * (2 * (carry (A j).1 (B j).1 m).val - 1) = 0 := by
    push_cast at h
    field_simp at h
    linear_combination h
  rcases Parity.eq_zero_or_one (carry (A j).1 (B j).1 m) with hc | hc <;>
    simp [hc, h2, ZMod.val_one] at hzero
  norm_num at hzero

theorem combineWithHalves_accepted_two :
    let C : Primitives (Msg F40b F61p) (Draw F40b F61p) :=
      ⟨fun _ => .const ⟨0, 0, 0, 0, 0⟩, fun _ => 0⟩
    let zeros : SharedEdabit F40b (2 ^ 61 - 1) := ⟨.replicate 3 .zero, .zero⟩
    Sync (Peers (fun _ => 1) (fun _ => 1))
      (combineWithHalves C 2 3 (.replicate 2 ⟨zeros⟩) (.replicate 2 zeros))
      (combinePrivateIntoGlobalEdabits C .second (.replicate 2 ⟨zeros⟩) (.replicate 2 zeros))
      fun _ _ => True :=
  (combineWithHalves_accepted _ (n := 2) (m := 3) (A := fun _ => (fun _ => 0, 0))
    (B := fun _ => (fun _ => 0, 0)) (by decide) (by decide)
    (.replicate fun _ => ⟨.replicate fun _ => .zero, .zero⟩)
    (.replicate fun _ => ⟨.replicate fun _ => .zero, .zero⟩) (fun _ _ => by decide)
    fun _ _ => by decide).mono fun _ _ _ => trivial

end EdaBitGen
