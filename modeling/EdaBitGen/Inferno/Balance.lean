import EdaBitGen.Inferno.Hiding

/-!
# The product of the vectors through the rounds

Before and after each compression the shared product is the product of the shared vectors, for every
challenge: the sharings that the prover sends are the values of the sum of the products of the
polynomials through the chunks.
-/

namespace EdaBitGen.Inferno

open Polynomial

/-! ## Chunks of products -/

section Dots

variable {F : Type} [Field F] {d : ℕ} {xs ys : List F}

theorem sum_map_range (f : ℕ → F) (n : ℕ) :
    ((List.range n).map f).sum = ∑ i ∈ Finset.range n, f i := by
  rw [← List.toFinset_range, List.sum_toFinset _ List.nodup_range]

theorem sum_getD {zs : List F} (h : zs.length ≤ d) :
    ∑ i ∈ Finset.range d, zs.getD i 0 = zs.sum := by
  obtain ⟨m, rfl⟩ := Nat.exists_eq_add_of_le h
  have hzero : ∑ i ∈ Finset.range m, zs.getD (zs.length + i) 0 = 0 :=
    Finset.sum_eq_zero fun i _ => by simp [List.getD_eq_getElem?_getD]
  have hself : (List.range zs.length).map (fun i => zs.getD i 0) = zs :=
    List.ext_getElem (by simp) fun i _ hi => by simp [List.getD_eq_getElem?_getD, hi]
  rw [Finset.sum_range_add, hzero, add_zero, ← sum_map_range, hself]

theorem sum_zipWith (h : xs.length ≤ d) :
    (List.zipWith (· * ·) xs ys).sum =
      ∑ i ∈ Finset.range d, xs.getD i 0 * ys.getD i 0 := by
  have hle : (List.zipWith (· * ·) xs ys).length ≤ d := by
    rw [List.length_zipWith]
    omega
  rw [← sum_getD hle]
  refine Finset.sum_congr rfl fun i _ => ?_
  simp only [List.getD_eq_getElem?_getD, List.getElem?_zipWith]
  cases xs[i]? <;> cases ys[i]? <;> simp

/-- The products of the chunks. -/
def chunkDots (d : ℕ) (xs ys : List F) : List F :=
  List.zipWith (fun a b => (List.zipWith (· * ·) a b).sum) (Chunks.all d xs) (Chunks.all d ys)

theorem sum_chunkDots (hd : 0 < d) (h : xs.length = ys.length) :
    (chunkDots d xs ys).sum = (List.zipWith (· * ·) xs ys).sum := by
  have hdots : chunkDots d xs ys = (Chunks.all d (List.zipWith (· * ·) xs ys)).map List.sum := by
    rw [chunkDots, Chunks.all_zipWith _ _ h, List.map_zipWith]
  rw [hdots, ← List.sum_flatten, Chunks.flatten_all hd]

theorem length_chunkDots (h : xs.length = ys.length) :
    (chunkDots d xs ys).length = (xs.length + d - 1) / d := by
  rw [chunkDots, List.length_zipWith, Chunks.length_all, Chunks.length_all, ← h, Nat.min_self]

end Dots

/-! ## The polynomials of a compression -/

section Polynomials

variable {F : Type} [Field F] {points : List F} {d n : ℕ}

theorem exists_polynomial (h : points.Nodup) {values : List F}
    (hlen : values.length = points.length) :
    ∃ p : F[X], p.degree < points.length ∧ points.map p.eval = values := by
  classical
  refine ⟨Lagrange.interpolate (Finset.range points.length) (fun i => points.getD i 0)
    fun i => values.getD i 0, ?_, List.ext_getElem (by simp [hlen]) fun i hi hi' => ?_⟩
  · simpa using Lagrange.degree_interpolate_lt (fun i => values.getD i 0)
      (NewtonPolynomial.injOn_getD h)
  · have hlt : i < points.length := by simpa using hi
    have heval := Lagrange.eval_interpolate_at_node (fun i => values.getD i 0)
      (NewtonPolynomial.injOn_getD h) (Finset.mem_range.2 hlt)
    simpa [List.getD_eq_getElem?_getD, hlt, hi'] using heval

/-- The sum of the products of the polynomials through the columns of both vectors. -/
noncomputable def productPolynomial (d : ℕ) (f g : ℕ → F[X]) : F[X] :=
  ∑ i ∈ Finset.range d, f i * g i

theorem eval_productPolynomial (d : ℕ) (f g : ℕ → F[X]) (x : F) :
    (productPolynomial d f g).eval x = ∑ i ∈ Finset.range d, (f i).eval x * (g i).eval x := by
  rw [productPolynomial, eval_finsetSum]
  exact Finset.sum_congr rfl fun i _ => eval_mul

theorem degree_productPolynomial (hn : 0 < n) {f g : ℕ → F[X]}
    (hf : ∀ i, (f i).degree < n) (hg : ∀ i, (g i).degree < n) :
    (productPolynomial d f g).degree < (2 * n - 1 : ℕ) := by
  have hnat : ∀ p : F[X], p.degree < n → p.natDegree ≤ n - 1 := by
    intro p hp
    refine natDegree_le_iff_coeff_eq_zero.2 fun m hm => coeff_eq_zero_of_degree_lt (hp.trans_le ?_)
    exact_mod_cast (by omega : n ≤ m)
  refine (degree_lt_iff_coeff_zero _ _).2 fun m hm => ?_
  rw [productPolynomial, finsetSum_coeff]
  refine Finset.sum_eq_zero fun i _ => coeff_eq_zero_of_natDegree_lt ?_
  have hmul := natDegree_mul_le (p := f i) (q := g i)
  have hleft := hnat _ (hf i)
  have hright := hnat _ (hg i)
  omega

/-- A polynomial through a column and what is behind it. -/
structure Through (points : List F) (d n : ℕ) (xs : List F) (mask : ℕ → List F) (i : ℕ)
    (p : F[X]) : Prop where
  degree_lt : p.degree < n
  map_eval : (points.take n).map p.eval = column d xs i ++ mask i

theorem exists_through (hpoints : (points.take n).Nodup) (hn : n ≤ points.length) (xs : List F)
    (mask : ℕ → List F) (hlen : ∀ i, (xs.length + d - 1) / d + (mask i).length = n) :
    ∃ f : ℕ → F[X], ∀ i, Through points d n xs mask i (f i) := by
  have h : ∀ i, ∃ p, Through points d n xs mask i p := by
    intro i
    have htake : (points.take n).length = n := List.length_take_of_le hn
    obtain ⟨p, hdegree, heval⟩ := exists_polynomial hpoints
      (show (column d xs i ++ mask i).length = (points.take n).length by
        rw [List.length_append, length_column, hlen, htake])
    exact ⟨p, by rwa [htake] at hdegree, heval⟩
  exact ⟨fun i => (h i).choose, fun i => (h i).choose_spec⟩

theorem Through.eval_getD {xs : List F} {mask : ℕ → List F} {i : ℕ} {p : F[X]}
    (h : Through points d n xs mask i p) (hn : n ≤ points.length) {j : ℕ} (hjn : j < n)
    (hj : j < (xs.length + d - 1) / d) :
    p.eval (points.getD j 0) = ((Chunks.all d xs).getD j []).getD i 0 := by
  have hget := congrArg (·[j]?) h.map_eval
  have hcol : j < (column d xs i).length := by rwa [length_column]
  have hchunk : j < (Chunks.all d xs).length := by rwa [Chunks.length_all]
  have hpoint : j < points.length := hjn.trans_le hn
  rw [List.getElem?_append_left hcol] at hget
  have hcol : some (p.eval (points.getD j 0)) =
      (Chunks.all d xs)[j]?.map fun chunk => chunk.getD i 0 := by
    simpa [List.getD_eq_getElem?_getD, hjn, hpoint, column] using hget
  rw [List.getElem?_eq_getElem hchunk] at hcol
  have hget' : (Chunks.all d xs).getD j [] = (Chunks.all d xs)[j] := by
    rw [List.getD_eq_getElem?_getD, List.getElem?_eq_getElem hchunk, Option.getD_some]
  rw [hget']
  exact Option.some.inj hcol

theorem map_eval_chunkDots {k : ℕ} (hn : n ≤ points.length) (hkn : k ≤ n) {xs ys : List F}
    (hlen : xs.length = ys.length) (hk : (xs.length + d - 1) / d = k) {mask mask' : ℕ → List F}
    {f g : ℕ → F[X]} (hf : ∀ i, Through points d n xs mask i (f i))
    (hg : ∀ i, Through points d n ys mask' i (g i)) :
    (points.take k).map (productPolynomial d f g).eval = chunkDots d xs ys := by
  refine List.ext_getElem ?_ fun j hj hj' => ?_
  · rw [length_chunkDots hlen, hk, List.length_map, List.length_take_of_le (hkn.trans hn)]
  · have hjk : j < k := by rwa [length_chunkDots hlen, hk] at hj'
    have hpoint : (points.take k)[j]? = some (points.getD j 0) := by
      have hlt : j < points.length := by omega
      simp [hjk, hlt, List.getD_eq_getElem?_getD]
    have hxchunk : j < (Chunks.all d xs).length := by rwa [Chunks.length_all, hk]
    have hychunk : j < (Chunks.all d ys).length := by rwa [Chunks.length_all, ← hlen, hk]
    have hle : ((Chunks.all d xs).getD j []).length ≤ d := by
      rw [List.getD_eq_getElem?_getD, List.getElem?_eq_getElem hxchunk]
      exact Chunks.length_le_of_mem_all (List.getElem_mem hxchunk)
    have hdot : (chunkDots d xs ys)[j]? = some (List.zipWith (· * ·)
        ((Chunks.all d xs).getD j []) ((Chunks.all d ys).getD j [])).sum := by
      rw [chunkDots, List.getElem?_zipWith, List.getD_eq_getElem?_getD,
        List.getD_eq_getElem?_getD, List.getElem?_eq_getElem hxchunk,
        List.getElem?_eq_getElem hychunk]
      rfl
    refine Option.some.inj ?_
    rw [← List.getElem?_eq_getElem, ← List.getElem?_eq_getElem, List.getElem?_map, hpoint, hdot,
      Option.map_some, eval_productPolynomial, sum_zipWith hle]
    refine congrArg some (Finset.sum_congr rfl fun i _ => ?_)
    rw [(hf i).eval_getD hn (hjk.trans_le hkn) (by omega),
      (hg i).eval_getD hn (hjk.trans_le hkn) (by rwa [← hlen, hk])]

theorem map_eval_take {k top : ℕ} (hk : 0 < k) (hkt : k ≤ top) (htop : top ≤ points.length)
    {h : F[X]} {dots : List F} (hdots : (points.take k).map h.eval = dots) :
    (points.take top).map h.eval = dots.take (k - 1) ++ [dots.sum - (dots.take (k - 1)).sum] ++
      (List.range (top - k)).map fun u => h.eval (points.getD (k + u) 0) := by
  have hlen : dots.length = k := by
    rw [← hdots, List.length_map, List.length_take_of_le (hkt.trans htop)]
  have hlast : dots.take (k - 1) ++ [dots.sum - (dots.take (k - 1)).sum] = dots := by
    have hlt : k - 1 < dots.length := by omega
    have hconcat := List.take_concat_get' dots (k - 1) hlt
    have htake : dots.take (k - 1 + 1) = dots := List.take_of_length_le (by omega)
    rw [htake] at hconcat
    have hsum := congrArg List.sum hconcat
    rw [List.sum_append, List.sum_singleton] at hsum
    rw [← hsum, add_sub_cancel_left, hconcat]
  have htail : (points.take top).drop k = (List.range (top - k)).map fun u =>
      points.getD (k + u) 0 := by
    refine List.ext_getElem (by simp [htop]) fun u hu hu' => ?_
    have hlt : k + u < points.length := by
      have : u < top - k := by simpa using hu'
      omega
    simp [List.getD_eq_getElem?_getD, hlt]
  rw [hlast, ← hdots]
  conv_lhs => rw [← List.take_append_drop k (points.take top), List.map_append, List.take_take,
    Nat.min_eq_left hkt, htail, List.map_map]
  rfl

end Polynomials

/-! ## Sharings with their secrets -/

section Valid

variable {F : Type} [Field F] {N : ℕ}

/-- The secret that the prover keeps with a sharing. -/
def secret : SecretSharing F N →ₗ[F] F := LinearMap.snd F _ F

theorem map_reveal {xs : List (SecretSharing F N)} (h : ∀ s ∈ xs, s.Valid) :
    xs.map reveal = xs.map secret :=
  List.map_congr_left h

theorem valid_evalWithBasisPolynomial {xs : List (SecretSharing F N)} (h : ∀ s ∈ xs, s.Valid)
    (polynomial : List F) : (evalWithBasisPolynomial xs polynomial).Valid := by
  change reveal (evalWithBasisPolynomial xs polynomial) = secret _
  rw [← evalWithBasisPolynomial_map, ← evalWithBasisPolynomial_map, map_reveal h]

theorem valid_random (draws : Fin N → F) : (SecretSharing.random draws).Valid :=
  reveal_random draws

theorem valid_compressed (dimension : ℕ) (finalRound : Bool) (polynomial : List F)
    {xs : List (SecretSharing F N)} (h : ∀ s ∈ xs, s.Valid) {masks : ℕ → SecretSharing F N}
    (hmasks : ∀ i, (masks i).Valid) :
    ∀ s ∈ compressed dimension finalRound polynomial xs masks, s.Valid := by
  intro s hs
  obtain ⟨i, -, rfl⟩ := List.mem_map.1 hs
  refine valid_evalWithBasisPolynomial (fun t ht => ?_) polynomial
  rcases List.mem_append.1 ht with ht | ht
  · obtain ⟨chunk, hchunk, rfl⟩ := List.mem_map.1 ht
    obtain ⟨j, -, rfl⟩ := List.mem_map.1 hchunk
    rw [List.getD_eq_getElem?_getD]
    cases hget : ((xs.drop (j * dimension)).take dimension)[i]? with
    | none => exact SecretSharing.valid_zero
    | some t => exact h t (List.mem_of_mem_drop (List.mem_of_mem_take (List.mem_of_getElem? hget)))
  · cases finalRound with
    | false => cases ht
    | true => exact List.mem_singleton.1 ht ▸ hmasks i

/-- The shared product is the product of the shared vectors, and all sharings are of their
secrets. -/
structure Round.Balanced (round : Round (SecretSharing F N)) : Prop where
  length_eq : round.xs.length = round.ys.length
  valid_xs : ∀ s ∈ round.xs, s.Valid
  valid_ys : ∀ s ∈ round.ys, s.Valid
  product : ∃ z, round.z = some z ∧ z.Valid ∧
    reveal z = (List.zipWith (· * ·) round.revealed.1 round.revealed.2).sum

end Valid

/-! ## Compressions -/

section Compression

variable {F : Type} [Field F] [DecidableEq F] {N : ℕ} {float : Float} {compressionFactor : ℕ}
  {finalRound : Bool} {cache : Cache F} {round : Round (SecretSharing F N)}

/-- What is behind a column of secrets in the final round. -/
def maskOf (finalRound : Bool) (masks : ℕ → SecretSharing F N) (i : ℕ) : List F :=
  if finalRound then [secret (masks i)] else []

omit [DecidableEq F] in
theorem map_secret_new (values : List F) (draws : ℕ → Fin N → F) :
    (values.mapIdx fun i value => SecretSharing.new value (draws i)).map secret = values := by
  refine List.ext_getElem (by simp) fun i hi hi' => ?_
  rw [List.getElem_map, List.getElem_mapIdx]
  rfl

omit [DecidableEq F] in
theorem map_dot (d : ℕ) (xs ys : List (SecretSharing F N)) :
    List.zipWith SecretSharing.dot (Chunks.all d xs) (Chunks.all d ys) =
      chunkDots d (xs.map secret) (ys.map secret) := by
  rw [chunkDots, Chunks.all_map, Chunks.all_map, List.zipWith_map]
  congr 1
  funext a b
  rw [List.zipWith_map]
  rfl

omit [DecidableEq F] in
theorem Through.evalWithBasisPolynomial_interpolate {points : List F} {d n : ℕ}
    {xs : List (SecretSharing F N)} {masks : ℕ → SecretSharing F N} {i : ℕ} {p : F[X]}
    (h : Through points d n (xs.map secret) (maskOf finalRound masks) i p) (hpos : 0 < n)
    (hn : n ≤ points.length) (hnodup : (points.take n).Nodup) {m : F}
    (hm : finalRound = true → m = secret (masks i)) (x : F) :
    NewtonPolynomial.evalWithBasisPolynomial (NewtonPolynomial.basisPolynomial (points.take n) x)
      (NewtonPolynomial.interpolate (points.take n)
        ((column d xs i).map (·.2) ++ if finalRound then [m] else [])) = p.eval x := by
  have hlen : (points.take n).length = n := List.length_take_of_le hn
  have hvalues : (column d xs i).map (·.2) ++ (if finalRound then [m] else []) =
      (points.take n).map p.eval := by
    rw [h.map_eval, column_map]
    cases finalRound with
    | false => rfl
    | true => rw [hm rfl]; rfl
  rw [hvalues]
  exact NewtonPolynomial.evalWithBasisPolynomial_interpolate hnodup (hlen.symm ▸ hpos)
    (hlen.symm ▸ h.degree_lt) x

omit [DecidableEq F] in
theorem roundCompressStart_values (draws : RoundDraws F N) (hround : round.Balanced)
    (h : Starts float round.xs.length compressionFactor finalRound cache) :
    let d := float.ceilDiv round.xs.length compressionFactor
    let n := nchunks float round.xs.length compressionFactor finalRound
    2 * n - 1 ≤ cache.points.length → (cache.points.take n).Nodup →
    ∃ hs f g, roundCompressStart float round compressionFactor finalRound cache draws =
        some (hs, draws.masks d finalRound) ∧
      (∀ i, Through cache.points d n (round.xs.map secret)
        (maskOf finalRound fun i => SecretSharing.random (draws.rands i).1) i (f i)) ∧
      (∀ i, Through cache.points d n (round.ys.map secret)
        (maskOf finalRound fun i => SecretSharing.random (draws.rands i).2) i (g i)) ∧
      hs.map secret = (cache.points.take (2 * n - 1)).map (productPolynomial d f g).eval ∧
      ∀ s ∈ hs, s.Valid := by
  intro d n hpoints hnodup
  obtain ⟨z, hz, hzvalid, hproduct⟩ := hround.product
  obtain ⟨hdim, hchunks, hpoly, hbases⟩ := h
  have hn : n = if finalRound then (round.xs.length + d - 1) / d + 1 else
      (round.xs.length + d - 1) / d := rfl
  have hle : n ≤ cache.points.length := by
    cases finalRound with
    | false => simp only [Bool.false_eq_true, if_false] at hn; omega
    | true => simp only [if_true] at hn; omega
  have hmask : ∀ (masks : ℕ → SecretSharing F N) (i : ℕ),
      (round.xs.length + d - 1) / d + (maskOf finalRound masks i).length = n := by
    intro masks i
    cases finalRound with
    | false => exact hn.symm
    | true => exact hn.symm
  obtain ⟨f, hf⟩ := exists_through hnodup hle (d := d) (round.xs.map secret)
    (maskOf finalRound fun i => SecretSharing.random (draws.rands i).1) fun i => by
      rw [List.length_map, hmask]
  obtain ⟨g, hg⟩ := exists_through hnodup hle (d := d) (round.ys.map secret)
    (maskOf finalRound fun i => SecretSharing.random (draws.rands i).2) fun i => by
      rw [List.length_map, ← hround.length_eq, hmask]
  rw [nchunks] at hpoly
  dsimp only [roundCompressStart]
  rw [if_neg hdim, Chunks.length_all, if_neg hchunks, hz, Cache.newtonPolys, if_pos hpoly,
    Cache.newtonBases, if_pos hbases]
  refine ⟨_, f, g, rfl, hf, hg, ?_, ?_⟩
  · have hk : 0 < (round.xs.length + d - 1) / d := Nat.pos_of_ne_zero hchunks
    have hkn : (round.xs.length + d - 1) / d ≤ n := by
      cases finalRound with
      | false => exact hn.ge
      | true => exact (Nat.le_succ _).trans hn.ge
    have hlen : (round.xs.map secret).length = (round.ys.map secret).length := by
      rw [List.length_map, List.length_map, hround.length_eq]
    have hdots := map_eval_chunkDots hle hkn hlen (by rw [List.length_map]) hf hg
    have hsum : (chunkDots d (round.xs.map secret) (round.ys.map secret)).sum = z.2 := by
      rw [sum_chunkDots (Nat.pos_of_ne_zero hdim) hlen, ← hzvalid, ← map_reveal hround.valid_xs,
        ← map_reveal hround.valid_ys]
      exact hproduct.symm
    rw [map_secret_new, map_eval_take hk (hkn.trans (by omega)) hpoints hdots, hsum, ← map_dot, List.take_zipWith]
    congr 1
    have htop : 2 * n - 1 = if finalRound then 2 * ((round.xs.length + d - 1) / d) + 1 else
        2 * ((round.xs.length + d - 1) / d) - 1 := by
      cases finalRound with
      | false => simp only [hn]; rfl
      | true => simp only [hn, if_true]; omega
    rw [htop, List.map_map]
    refine List.map_congr_left fun u _ => ?_
    rw [Function.comp_apply, sum_map_range, eval_productPolynomial]
    refine Finset.sum_congr rfl fun i hi => ?_
    have hi' : i < d := Finset.mem_range.1 hi
    refine congrArg₂ (· * ·)
      ((hf i).evalWithBasisPolynomial_interpolate (by omega) hle hnodup (fun hfinal => ?_) _)
      ((hg i).evalWithBasisPolynomial_interpolate (by omega) hle hnodup (fun hfinal => ?_) _)
    · simp [hfinal, List.getD_eq_getElem?_getD, d, hi', secret]
    · simp [hfinal, List.getD_eq_getElem?_getD, d, hi', secret]
  · intro s hs
    obtain ⟨i, hi⟩ := List.mem_iff_getElem?.1 hs
    rw [List.getElem?_mapIdx] at hi
    obtain ⟨v, -, rfl⟩ := Option.map_eq_some_iff.1 hi
    exact SecretSharing.valid_new _ _

theorem Through.map_secret_compressed {points : List F} {d n : ℕ}
    {xs : List (SecretSharing F N)} {masks : ℕ → SecretSharing F N} {f : ℕ → F[X]}
    (h : ∀ i, Through points d n (xs.map secret) (maskOf finalRound masks) i (f i))
    (hn : n ≤ points.length) (hnodup : (points.take n).Nodup) (challenge : F) :
    (compressed d finalRound (basisPolynomial (LagrangeEvaluator.new (points.take n))
        (points.take n) challenge) xs masks).map secret =
      (List.range d).map fun i => (f i).eval challenge := by
  rw [compressed_map]
  refine List.map_congr_left fun i _ => ?_
  have hdegree : (f i).degree < (points.take n).length := by
    rw [List.length_take_of_le hn]
    exact (h i).degree_lt
  rw [← evalWithBasisPolynomial_eval hnodup hdegree challenge, (h i).map_eval]
  rfl

theorem balanced_compressed {d n : ℕ} (hn : 0 < n) (hpoints : 2 * n - 1 ≤ cache.points.length)
    (hnodup : cache.points.Nodup) (hround : round.Balanced) {masks masks' : ℕ → SecretSharing F N}
    (hmasks : ∀ i, (masks i).Valid) (hmasks' : ∀ i, (masks' i).Valid) {f g : ℕ → F[X]}
    (hf : ∀ i, Through cache.points d n (round.xs.map secret) (maskOf finalRound masks) i (f i))
    (hg : ∀ i, Through cache.points d n (round.ys.map secret) (maskOf finalRound masks') i (g i))
    {hs : List (SecretSharing F N)} (hvalid : ∀ s ∈ hs, s.Valid)
    (hvalues : hs.map secret =
      (cache.points.take (2 * n - 1)).map (productPolynomial d f g).eval) (challenge : F) :
    Round.Balanced ⟨compressed d finalRound (cache.basis n challenge) round.xs masks,
      compressed d finalRound (cache.basis n challenge) round.ys masks',
      some (evalWithBasisPolynomial hs (cache.basis (2 * n - 1) challenge))⟩ := by
  have hle : n ≤ cache.points.length := by omega
  have hnodup' := hnodup.sublist (List.take_sublist n cache.points)
  have hxs := valid_compressed d finalRound (cache.basis n challenge) hround.valid_xs hmasks
  have hys := valid_compressed d finalRound (cache.basis n challenge) hround.valid_ys hmasks'
  have hz := valid_evalWithBasisPolynomial hvalid (cache.basis (2 * n - 1) challenge)
  refine ⟨?_, hxs, hys, _, rfl, hz, ?_⟩
  · rw [length_compressed, length_compressed]
  · have hdegree : (productPolynomial d f g).degree <
        (cache.points.take (2 * n - 1)).length := by
      rw [List.length_take_of_le hpoints]
      exact degree_productPolynomial hn (fun i => (hf i).degree_lt) fun i => (hg i).degree_lt
    have hxs_eq := Through.map_secret_compressed hf hle hnodup' challenge
    have hys_eq := Through.map_secret_compressed hg hle hnodup' challenge
    calc reveal (evalWithBasisPolynomial hs (cache.basis (2 * n - 1) challenge))
      _ = secret (evalWithBasisPolynomial hs (cache.basis (2 * n - 1) challenge)) := hz
      _ = (productPolynomial d f g).eval challenge := by
        rw [← evalWithBasisPolynomial_map, hvalues]
        exact evalWithBasisPolynomial_eval (hnodup.sublist (List.take_sublist _ _)) hdegree challenge
      _ = _ := by
        rw [Round.revealed, map_reveal hxs, map_reveal hys, Cache.basis, hxs_eq, hys_eq,
          List.zipWith_map, List.zipWith_self, sum_map_range, eval_productPolynomial]

theorem balanced_proverRound (hnodup : cache.points.Nodup) (challenge : F) (draws : RoundDraws F N)
    (hround : round.Balanced) {out : Round (SecretSharing F N)}
    (h : proverRound float compressionFactor finalRound cache challenge draws round = some out) :
    out.Balanced := by
  obtain ⟨z, hz, -⟩ := hround.product
  have hsome : round.z.isSome := by rw [hz, Option.isSome_some]
  by_cases hcompress : Compresses float round.xs.length compressionFactor finalRound cache
  · obtain ⟨hstart, hfinish⟩ := hcompress
    have hpoints := Nat.le_of_not_lt hfinish.2.1
    have hn : 0 < nchunks float round.xs.length compressionFactor finalRound := by
      have hchunks := Nat.pos_of_ne_zero hstart.2.1
      rw [nchunks]
      cases finalRound with
      | false => exact hchunks
      | true => exact Nat.succ_pos _
    obtain ⟨hs, f, g, hstart_eq, hf, hg, hvalues, hvalid⟩ := roundCompressStart_values draws hround
      hstart hpoints (hnodup.sublist (List.take_sublist _ _))
    rw [← length_masks draws] at hfinish
    have hround_eq := roundCompressFinish_some challenge hs hfinish
    dsimp only at hround_eq
    rw [compressed_congr _ round.xs fun hfinal i hi =>
        congrArg Prod.fst (getD_masks draws hfinal hi),
      compressed_congr _ round.ys fun hfinal i hi =>
        congrArg Prod.snd (getD_masks draws hfinal hi)] at hround_eq
    rw [proverRound, hstart_eq] at h
    obtain rfl := Option.some.inj (hround_eq.symm.trans h)
    exact balanced_compressed hn hpoints hnodup hround (fun i => valid_random (draws.rands i).1)
      (fun i => valid_random (draws.rands i).2) hf hg hvalid hvalues challenge
  · rw [proverRound_none challenge draws hsome hcompress] at h
    cases h

end Compression

/-! ## The start -/

section Start

variable {Fp F : Type} [Field Fp] [Field F] [Algebra Fp F] {N : ℕ}

/-- The outputs of the multiplications so far are the products of their inputs. -/
structure Circuit.Trace.Products (t : Circuit.Trace (SecretSharing Fp N)) : Prop where
  length_xs : t.xs.length = t.zs.length
  length_ys : t.ys.length = t.zs.length
  valid : ∀ s ∈ t.zs, SecretSharing.Valid s
  product : ∀ p ∈ t.xs.zip (t.ys.zip t.zs), p.2.2.2 = p.1.2 * p.2.1.2

theorem Circuit.Trace.Products.pushMul {t : Circuit.Trace (SecretSharing Fp N)} (h : t.Products)
    (x y : SecretSharing Fp N) (draws : Fin N → Fp) :
    (⟨t.wires ++ [SecretSharing.new (x.2 * y.2) draws], t.xs ++ [x], t.ys ++ [y],
      t.zs ++ [SecretSharing.new (x.2 * y.2) draws]⟩ :
        Circuit.Trace (SecretSharing Fp N)).Products := by
  refine ⟨by simp [h.length_xs], by simp [h.length_ys], ?_, fun p hp => ?_⟩
  · exact List.forall_mem_append.2 ⟨h.valid, List.forall_mem_singleton.2 (SecretSharing.valid_new _ _)⟩
  · rw [List.zip_append h.length_ys, List.zip_append (by simp [h.length_xs, h.length_ys])] at hp
    rcases List.mem_append.1 hp with hp | hp
    · exact h.product p hp
    · obtain rfl := List.mem_singleton.1 hp
      rfl

theorem Circuit.products_evalSecretSharing (circuit : Circuit Fp)
    {inputs : List (SecretSharing Fp N)} {draws : ℕ → Fin N → Fp} {output : SecretSharing Fp N}
    {t : Circuit.Trace (SecretSharing Fp N)}
    (h : circuit.evalSecretSharing inputs draws = some (output, t)) : t.Products := by
  rw [Circuit.evalSecretSharing] at h
  split at h
  · obtain ⟨-, rfl⟩ := Prod.mk.inj (Option.some.inj h)
    generalize circuit.ops = ops
    have hstart : (⟨inputs, [], [], []⟩ : Circuit.Trace (SecretSharing Fp N)).Products :=
      ⟨rfl, rfl, fun _ hs => absurd hs List.not_mem_nil, fun _ hp => absurd hp List.not_mem_nil⟩
    generalize (⟨inputs, [], [], []⟩ : Circuit.Trace (SecretSharing Fp N)) = t at hstart ⊢
    clear h
    induction ops generalizing t with
    | nil => exact hstart
    | cons op ops ih =>
      rw [List.foldl_cons]
      refine ih _ ?_
      cases op with
      | mul n m => exact hstart.pushMul _ _ _
      | add n m => exact ⟨hstart.length_xs, hstart.length_ys, hstart.valid, hstart.product⟩
      | sub n m => exact ⟨hstart.length_xs, hstart.length_ys, hstart.valid, hstart.product⟩
      | constant f => exact ⟨hstart.length_xs, hstart.length_ys, hstart.valid, hstart.product⟩
      | copy n => exact ⟨hstart.length_xs, hstart.length_ys, hstart.valid, hstart.product⟩
  · cases h

theorem valid_multiplyBySuperfield {x : SecretSharing Fp N} (hx : x.Valid) (y : F) :
    (LinearSharing.multiplyBySuperfield x y : SecretSharing F N).Valid :=
  reveal_multiplyBySuperfield hx y

theorem valid_liftIntoSuperfield {x : SecretSharing Fp N} (hx : x.Valid) :
    (LinearSharing.liftIntoSuperfield F x : SecretSharing F N).Valid :=
  reveal_liftIntoSuperfield hx

theorem valid_sum {xs : List (SecretSharing F N)} (h : ∀ s ∈ xs, s.Valid) : xs.sum.Valid := by
  change reveal xs.sum = secret xs.sum
  rw [map_list_sum, map_list_sum, map_reveal h]

theorem balanced_round1 {t : Circuit.Trace (SecretSharing Fp N)} (h : t.Products)
    (hxs : ∀ s ∈ t.xs, SecretSharing.Valid s) (hys : ∀ s ∈ t.ys, SecretSharing.Valid s)
    (challenge : F) : (round1 t.xs t.ys t.zs challenge : Round (SecretSharing F N)).Balanced := by
  have hmem : ∀ {i : ℕ} {p : SecretSharing Fp N × SecretSharing Fp N × SecretSharing Fp N},
      (t.xs.zip (t.ys.zip t.zs))[i]? = some p → p.1.Valid ∧ p.2.1.Valid ∧ p.2.2.Valid ∧
        p.2.2.2 = p.1.2 * p.2.1.2 := by
    intro i p hp
    have hzip := List.mem_of_getElem? hp
    obtain ⟨hx, hyz⟩ := List.of_mem_zip hzip
    obtain ⟨hy, hz⟩ := List.of_mem_zip hyz
    exact ⟨hxs _ hx, hys _ hy, h.valid _ hz, h.product p hzip⟩
  rw [round1]
  generalize t.xs.zip (t.ys.zip t.zs) = ps at hmem
  have hmapIdx : ∀ {A B : Type} {f : ℕ → A → B} {as : List A} {Q : B → Prop},
      (∀ i a, as[i]? = some a → Q (f i a)) → ∀ b ∈ as.mapIdx f, Q b := by
    intro A B f as Q hQ b hb
    obtain ⟨i, hi⟩ := List.mem_iff_getElem?.1 hb
    rw [List.getElem?_mapIdx] at hi
    obtain ⟨a, ha, rfl⟩ := Option.map_eq_some_iff.1 hi
    exact hQ i a ha
  have hvalid_z := valid_sum (hmapIdx fun i p hp =>
    valid_multiplyBySuperfield (hmem hp).2.2.1 ((fun r : F => r * r)^[i] challenge))
  refine ⟨by simp, hmapIdx fun i p hp => valid_multiplyBySuperfield (hmem hp).1 _, ?_, _, rfl,
    hvalid_z, ?_⟩
  · intro s hs
    obtain ⟨p, hp, rfl⟩ := List.mem_map.1 hs
    obtain ⟨i, hi⟩ := List.mem_iff_getElem?.1 hp
    exact valid_liftIntoSuperfield (hmem hi).2.1
  · rw [map_list_sum, Round.revealed]
    refine congrArg List.sum (List.ext_getElem (by simp) fun i hi hi' => ?_)
    have hlt : i < ps.length := by simpa using hi
    obtain ⟨hx, hy, hz, hproduct⟩ := hmem (List.getElem?_eq_getElem hlt)
    simp only [List.getElem_map, List.getElem_zipWith, List.getElem_mapIdx]
    rw [reveal_multiplyBySuperfield hz, reveal_multiplyBySuperfield hx,
      reveal_liftIntoSuperfield hy, hproduct, map_mul]
    ring

end Start

end EdaBitGen.Inferno

/-!
## The prover with its hashes

The prover shares the witness with the draws of the parties' generators, gets each challenge from the
hashes of all parties, and leaves out of the proof what the unopened party holds.
-/

namespace EdaBitGen.Inferno

section Draws

variable {Fp F : Type} {N : ℕ}

/-- A generator after some draws. -/
def Encoding.advance (enc : Encoding Fp F) (rng : enc.Rng) (n : ℕ) : enc.Rng :=
  (fun rng => (enc.random rng).2)^[n] rng

/-- The draw of a generator after some draws. -/
def Encoding.draw (enc : Encoding Fp F) (rng : enc.Rng) (n : ℕ) : Fp :=
  (enc.random (enc.advance rng n)).1

/-- The draws of the parties: for the witness and then for the multiplications from their seeds, and
those of the rounds, which nothing is reconstructed from. -/
def ProverDraws.ofSeeds (enc : Encoding Fp F) (seeds : Fin N → ℕ) (ninputs : ℕ)
    (rounds : ℕ → RoundDraws F N) : ProverDraws Fp F N where
  witness j i := enc.draw (enc.fromSeed (seeds i)) j
  mults j i := enc.draw (enc.advance (enc.fromSeed (seeds i)) ninputs) j
  rounds := rounds

end Draws

/-! ## The prover -/

section Prover

variable {Fp F : Type} [Field Fp] [Field F] [Algebra Fp F] [DecidableEq F] {N : ℕ} {Hash : Type}

/-- The hashes of all parties. -/
def Hashers.hashes (oracle : HashOracle Hash) (hashers : Hashers N) : Fin N → Hash :=
  fun i => oracle.finalize (hashers.hashers i)

/-- What the prover has after some rounds. -/
structure Transcript (F : Type) (N : ℕ) (Hash : Type) where
  round : Round (SecretSharing F N)
  hashers : Hashers N
  commitments : List (Fin N → Hash)
  hs : List (List (SecretSharing F N))
  rands : List (SecretSharing F N × SecretSharing F N)

/-- One compression of the prover. -/
def Transcript.compress (float : Float) (enc : Encoding Fp F) (oracle : HashOracle Hash)
    (compressionFactor : ℕ) (finalRound : Bool) (cache : Cache F) (draws : RoundDraws F N)
    (t : Transcript F N Hash) : Option (Transcript F N Hash) := do
  let (hs, rands) ← roundCompressStart float t.round compressionFactor finalRound cache draws
  let hashers := t.hashers.hashRound enc.toBytes (hs.map (·.1))
  let (challenge, hashers) := hashers.extractChallenge oracle enc.fromUniformBytes .prover
  let round ← roundCompressFinish float t.round compressionFactor finalRound cache challenge rands hs
  some ⟨round, hashers, t.commitments ++ [hashers.hashes oracle], t.hs ++ [hs], rands⟩

/-- The shares without those of the party `exclude`. -/
def OpenedPartiesShares.new (exclude : ℕ) (witness mults : List (SecretSharing Fp N))
    (hs : List (List (SecretSharing F N)))
    (rands : List (SecretSharing F N × SecretSharing F N)) (seeds : Fin N → ℕ) :
    OpenedPartiesShares Fp F N where
  seeds := List.ofFn fun i => if (i : ℕ) = exclude then 0 else seeds i
  witness := witness.map (·.1.2)
  mults := mults.map (·.1.2)
  hs := hs.map fun hs => hs.map fun s => s.extract exclude
  rands := rands.map fun r => (r.1.extract exclude, r.2.extract exclude)

/-- The prover before the first compression. -/
def Transcript.start (enc : Encoding Fp F) (oracle : HashOracle Hash)
    (ws : List (SecretSharing Fp N)) (trace : Circuit.Trace (SecretSharing Fp N)) :
    Transcript F N Hash :=
  let hashers := (Hashers.new N).hashCircuitSharing enc.toBytesPrime (ws.map (·.1))
    (trace.zs.map (·.1))
  let (challenge, hashers) := hashers.extractChallenge oracle enc.fromUniformBytes .prover
  ⟨round1 trace.xs trace.ys trace.zs challenge, hashers, [hashers.hashes oracle], [], []⟩

/-- All compressions, if there are rounds. -/
def Transcript.rounds (float : Float) (enc : Encoding Fp F) (oracle : HashOracle Hash)
    (nrounds compressionFactor : ℕ) (cache : Cache F) (draws : ℕ → RoundDraws F N)
    (t : Transcript F N Hash) : Option (Transcript F N Hash) :=
  if nrounds > 0 then
    (List.range (nrounds + 1)).foldlM (fun t i =>
      t.compress float enc oracle compressionFactor (i = nrounds) cache (draws i)) t
  else some t

/-- The proof, with the challenges from the hashes. -/
def ProofSingle.proveWithHashes (float : Float) (enc : Encoding Fp F) (oracle : HashOracle Hash)
    (circuit : Circuit Fp) (witness : List Fp) (compressionFactor : ℕ) (cache : Cache F)
    (seeds : Fin N → ℕ) (rounds : ℕ → RoundDraws F N) : Option (ProofSingle Fp F N Hash) := do
  if ¬ N.isPowerOfTwo then none else
  let nrounds := nrounds float circuit.nmuls compressionFactor
  let draws := ProverDraws.ofSeeds enc seeds witness.length rounds
  let ws := witness.mapIdx fun i w => SecretSharing.new w (draws.witness i)
  let (output, trace) ← circuit.evalSecretSharing ws draws.mults
  let t ← (Transcript.start enc oracle ws trace).rounds float enc oracle nrounds compressionFactor
    cache draws.rounds
  let output ← OutputShares.new t.round output
  let id := t.hashers.extractUnopenedParty oracle .prover N
  if h : id < N then
    some {
      output := output
      shares := .new id ws trace.zs t.hs t.rands seeds
      unopened := ⟨id, t.commitments.map fun hashes => hashes ⟨id, h⟩,
        t.hashers.hashes oracle ⟨id, h⟩⟩ }
  else none

end Prover

end EdaBitGen.Inferno
