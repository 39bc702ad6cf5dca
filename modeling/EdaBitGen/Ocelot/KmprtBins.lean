import EdaBitGen.Data.Lists
import EdaBitGen.Ocelot.Kmprt

/-!
# The table of a bin

The cells of the points are different, each holds the point's value under its output, and the receiver
reads the cell of its own output.
-/

namespace EdaBitGen.Ocelot.Kmprt

variable {encrypt : Block → Block → Block} {rng : Rng} {compute : Block512 → Block → Block512}

/-! ## Writes to different cells -/

/-- One write after the other. -/
def writes {α : Type} (t : List α) (cs : List (ℕ × α)) : List α :=
  cs.foldl (fun t c => t.set c.1 c.2) t

theorem length_writes {α : Type} (t : List α) (cs : List (ℕ × α)) :
    (writes t cs).length = t.length := by
  induction cs generalizing t with
  | nil => rfl
  | cons c cs ih => exact (ih _).trans List.length_set

theorem getElem?_writes_of_notMem {α : Type} {t : List α} {cs : List (ℕ × α)} {i : ℕ}
    (h : i ∉ cs.map Prod.fst) : (writes t cs)[i]? = t[i]? := by
  induction cs generalizing t with
  | nil => rfl
  | cons c cs ih =>
    rw [List.map_cons, List.mem_cons, not_or] at h
    exact (ih h.2).trans (List.getElem?_set_ne (Ne.symm h.1))

theorem getElem?_writes {α : Type} {t : List α} {cs : List (ℕ × α)}
    (hnodup : (cs.map Prod.fst).Nodup) {c : ℕ × α} (hc : c ∈ cs) (hlt : c.1 < t.length) :
    (writes t cs)[c.1]? = some c.2 := by
  induction cs generalizing t with
  | nil => exact absurd hc List.not_mem_nil
  | cons d cs ih =>
    obtain ⟨hd, hnodup⟩ := List.nodup_cons.1 hnodup
    obtain rfl | hc := List.mem_cons.1 hc
    · exact (getElem?_writes_of_notMem hd).trans (List.getElem?_set_self hlt)
    · exact ih hnodup hc (by rwa [List.length_set])

/-! ## The layout -/

theorem toRange_lt {h : Block} {range i : ℕ} (hrun : toRange h range = some i) : i < range := by
  unfold toRange at hrun
  split at hrun
  · cases hrun
  · cases hrun
    exact Nat.mod_lt _ (by omega)

theorem exists_hashOutput (encrypt : Block → Block → Block) (v : Block) (y : Block512) {m : ℕ}
    (hm : 0 < m) : ∃ h < m, hashOutput encrypt v y m = some h := by
  rw [hashOutput, toRange, if_neg hm.ne']
  exact ⟨_, Nat.mod_lt _ hm, rfl⟩

theorem insertAll_spec {v : Block} {m : ℕ} {map hs : List ℕ} {ys : List Block512}
    (hmap : map.Nodup) (hrun : insertAll encrypt v m map ys = some hs) :
    hs.Nodup ∧ ∃ new, hs = map ++ new ∧
      List.Forall₂ (fun y h => hashOutput encrypt v y m = some h) ys new := by
  induction ys generalizing map with
  | nil =>
    cases hrun
    exact ⟨hmap, [], (List.append_nil _).symm, List.Forall₂.nil⟩
  | cons y ys ih =>
    rw [insertAll] at hrun
    split at hrun
    · cases hrun
    · next h hh =>
      split at hrun
      · cases hrun
      · next hnew =>
        have hmap' : (map ++ [h]).Nodup := by
          rw [← List.concat_eq_append]
          exact hmap.concat hnew
        obtain ⟨hnodup, new, rfl, hall⟩ := ih hmap' hrun
        exact ⟨hnodup, h :: new, List.append_assoc .., List.Forall₂.cons hh hall⟩

theorem sampleKey_spec {m : ℕ} {ys : List Block512} {loops : ℕ} {v v' : Block} {s s' : rng.State}
    {hs : List ℕ} (hrun : sampleKey encrypt rng m ys loops v s = (some hs, v', s')) :
    insertAll encrypt v' m [] ys = some hs := by
  induction loops generalizing v s with
  | zero => cases hrun
  | succ loops ih =>
    rw [sampleKey] at hrun
    split at hrun
    · next hs' hinsert =>
      cases hrun
      exact hinsert
    · exact ih hrun

/-- What the search for a table finds. -/
structure LayoutOk (encrypt : Block → Block → Block) (ys : List Block512) (l : Layout) : Prop where
  pos : 0 < l.m
  nodup : l.hs.Nodup
  hashes : List.Forall₂ (fun y h => hashOutput encrypt l.v y l.m = some h) ys l.hs

theorem findLayout_spec {increment : ℕ} {ys : List Block512} {fuel m : ℕ} {v : Block}
    {s s' : rng.State} {l : Layout} (hm : 0 < m)
    (hrun : findLayout encrypt rng increment ys fuel m v s = some (l, s')) :
    LayoutOk encrypt ys l := by
  induction fuel generalizing m v s with
  | zero => cases hrun
  | succ fuel ih =>
    rw [findLayout] at hrun
    split at hrun
    · next hs v' s₁ hsample =>
      cases hrun
      obtain ⟨hnodup, new, rfl, hall⟩ := insertAll_spec List.nodup_nil (sampleKey_spec hsample)
      exact ⟨hm, hnodup, hall⟩
    · exact ih (by omega) hrun

theorem tableSize_pos (n : ℕ) : 0 < tableSize n := by
  unfold tableSize
  split
  · decide
  · split
    · decide
    · exact Nat.two_pow_pos _

/-! ## The cells -/

/-- The generator before cell `i` of a table is filled. -/
def cellState (rng : Rng) (table : List Block512) (s : rng.State) (i : ℕ) : rng.State :=
  (fillTable rng (table.take i) s).2

/-- The element that is drawn for a cell in place of the sentinel. -/
def drawn (rng : Rng) (table : List Block512) (s : rng.State) (i : ℕ) : Block512 :=
  (rng.genBlock512 (cellState rng table s i)).1

theorem length_fillTable (table : List Block512) (s : rng.State) :
    (fillTable rng table s).1.length = table.length := by
  induction table generalizing s with
  | nil => rfl
  | cons entry table ih => exact congrArg Nat.succ (ih _)

theorem getElem?_fillTable {table : List Block512} {s : rng.State} {i : ℕ} {entry : Block512}
    (hi : table[i]? = some entry) :
    (fillTable rng table s).1[i]? = some (if entry = 0 then drawn rng table s i else entry) := by
  induction table generalizing s i with
  | nil => cases hi
  | cons e table ih =>
    cases i with
    | zero =>
      cases hi
      rw [fillTable, drawn, cellState, List.take_zero, fillTable, List.getElem?_cons_zero, fillCell]
      split <;> rfl
    | succ i =>
      rw [List.getElem?_cons_succ] at hi
      exact ih hi

theorem placeValues_eq (m : ℕ) {hs : List ℕ} {ys : List Block512} {points : List Point} :
    placeValues m hs ys points = writes (List.replicate m 0)
      ((hs.zip (ys.zip points)).map fun c => (c.1, c.2.2.2 ^^^ c.2.1)) := by
  rw [placeValues, writes, List.foldl_map]

theorem length_placeValues (m : ℕ) (hs : List ℕ) (ys : List Block512) (points : List Point) :
    (placeValues m hs ys points).length = m := by
  rw [placeValues_eq, length_writes, List.length_replicate]

theorem getElem?_placeValues {points : List Point} {seed : Block512} {l : Layout}
    (hl : LayoutOk encrypt (points.map fun p => compute seed p.1) l) {q : Point} (hq : q ∈ points) :
    ∃ h, hashOutput encrypt l.v (compute seed q.1) l.m = some h ∧
      (placeValues l.m l.hs (points.map fun p => compute seed p.1) points)[h]? =
        some (q.2 ^^^ compute seed q.1) := by
  obtain ⟨k, hk⟩ := List.mem_iff_getElem?.1 hq
  have hlength := hl.hashes.length_eq
  have hklt : k < points.length := (List.getElem?_eq_some_iff.1 hk).1
  have hklt' : k < l.hs.length := by
    rwa [← hlength, List.length_map]
  have hhash : hashOutput encrypt l.v (compute seed q.1) l.m = some l.hs[k] := by
    have hget := (List.forall₂_iff_get.1 hl.hashes).2 k (by rwa [List.length_map]) hklt'
    simpa [(List.getElem?_eq_some_iff.1 hk).2] using hget
  refine ⟨l.hs[k], hhash, ?_⟩
  have hmem : (l.hs[k], q.2 ^^^ compute seed q.1) ∈
      (l.hs.zip ((points.map fun p => compute seed p.1).zip points)).map
        fun c => (c.1, c.2.2.2 ^^^ c.2.1) := by
    refine List.mem_map.2 ⟨(l.hs[k], compute seed q.1, q), ?_, rfl⟩
    refine List.mem_iff_getElem?.2 ⟨k, ?_⟩
    rw [List.getElem?_zip_eq_some]
    refine ⟨List.getElem?_eq_getElem hklt', ?_⟩
    rw [List.getElem?_zip_eq_some]
    exact ⟨by rw [List.getElem?_map, hk]; rfl, hk⟩
  have hfst : ((l.hs.zip ((points.map fun p => compute seed p.1).zip points)).map
      fun c => (c.1, c.2.2.2 ^^^ c.2.1)).map Prod.fst = l.hs := by
    rw [List.map_map]
    refine List.map_fst_zip ?_
    simp [← hlength]
  rw [placeValues_eq]
  exact getElem?_writes (by rw [hfst]; exact hl.nodup) hmem
    (by rw [List.length_replicate]; exact toRange_lt hhash)

theorem processOprfOutput_spec {fuel : ℕ} {seed : Block512} {points : List Point} {npoints : ℕ}
    {s s' : rng.State} {run : BinRun rng}
    (hrun : processOprfOutput encrypt rng compute fuel seed points npoints s = some (run, s')) :
    LayoutOk encrypt (points.map fun p => compute seed p.1) run.layout ∧
      run.table = placeValues run.layout.m run.layout.hs (points.map fun p => compute seed p.1)
        points := by
  rw [processOprfOutput] at hrun
  split at hrun
  · cases hrun
  · split at hrun
    · cases hrun
    · obtain ⟨⟨layout, s₁⟩, hlayout, hrun⟩ := Option.bind_eq_some_iff.1 hrun
      cases hrun
      exact ⟨findLayout_spec (tableSize_pos _) hlayout, rfl⟩

theorem readTable_eq (h : ℕ) (entries : List Block512) (i : ℕ) (output : Block512)
    (rest : List Msg) :
    readTable h entries.length i output (entries.map .block512 ++ rest) =
      some (output ^^^ (if i ≤ h then entries.getD (h - i) 0 else 0), rest) := by
  have hzero : ∀ x : Block512, x ^^^ 0 = x := fun x => BitVec.xor_zero
  induction entries generalizing i output with
  | nil => rw [List.getD_nil, ite_self, hzero]; rfl
  | cons e entries ih =>
    rw [List.length_cons, List.map_cons, List.cons_append, readTable, ih]
    obtain hlt | rfl | hgt := Nat.lt_trichotomy i h
    · rw [if_neg hlt.ne, if_pos (Nat.succ_le_of_lt hlt), if_pos hlt.le,
        show h - i = h - (i + 1) + 1 by omega, List.getD_cons_succ, hzero]
    · rw [if_pos rfl, if_neg (by omega), if_pos le_rfl, Nat.sub_self, List.getD_cons_zero, hzero]
    · rw [if_neg hgt.ne', if_neg (by omega), if_neg (by omega), hzero]

/-- What the receiver reads for an output: the cell of its hash. -/
def opened (encrypt : Block → Block → Block) (run : BinRun rng) (output : Block512) : Block512 :=
  output ^^^ run.filled.getD ((hashOutput encrypt run.layout.v output run.layout.m).getD 0) 0

variable (encrypt) in
theorem readBin_eq {run : BinRun rng} (hpos : 0 < run.layout.m)
    (hlength : run.table.length = run.layout.m) (output : Block512) (rest : List Msg) :
    readBin encrypt output (run.messages ++ rest) = some (opened encrypt run output, rest) := by
  obtain ⟨h, hlt, hh⟩ := exists_hashOutput encrypt run.layout.v output hpos
  have hfilled : run.filled.length = run.layout.m := (length_fillTable _ _).trans hlength
  have hread := readTable_eq h run.filled 0 output rest
  rw [if_pos (Nat.zero_le h), Nat.sub_zero, hfilled] at hread
  rw [opened, hh, Option.getD_some, ← hread]
  change (hashOutput encrypt run.layout.v output run.layout.m >>= fun h => _) = _
  rw [hh]
  rfl

end EdaBitGen.Ocelot.Kmprt

/-!
# The bins of the two parties

Every item of the receiver is in one of its own bins, and every programmed point is in all of them.
-/

namespace EdaBitGen.Ocelot.Kmprt

variable {encrypt : Block → Block → Block} {params : Parameters} {hashkeys : List Block}

/-- The bins that an input is hashed to. -/
def Candidate (encrypt : Block → Block → Block) (params : Parameters) (hashkeys : List Block)
    (x : Block) (pos : ℕ) : Prop :=
  (∃ key ∈ hashkeys.take params.h1, hashInputKeyed encrypt key x params.m1 = some pos) ∨
    ∃ key ∈ (hashkeys.drop params.h1).take params.h2, ∃ i,
      hashInputKeyed encrypt key x params.m2 = some i ∧ pos = params.m1 + i

/-! ## The receiver's table -/

section Cuckoo

/-- Every stored item is in a bin that it may be in. -/
def Placed (allowed : Block → ℕ → Prop) (items : List (Option Item)) : Prop :=
  ∀ (pos : ℕ) (it : Item), items[pos]? = some (some it) → allowed it.entry pos

/-- The inputs that are stored, with their indices. -/
def stored (items : List (Option Item)) : List (Block × ℕ) :=
  items.filterMap (Option.map fun it => (it.entry, it.index))

theorem stored_set_none {items : List (Option Item)} {i : ℕ} (h : items[i]? = some none)
    (item : Item) :
    (stored (items.set i (some item))).Perm ((item.entry, item.index) :: stored items) :=
  Slots.stored_set_none (fun it : Item => (it.entry, it.index)) h item

theorem stored_set_some {items : List (Option Item)} {i : ℕ} {old : Item}
    (h : items[i]? = some (some old)) (item : Item) :
    ((old.entry, old.index) :: stored (items.set i (some item))).Perm
      ((item.entry, item.index) :: stored items) :=
  Slots.stored_set_some (fun it : Item => (it.entry, it.index)) h item

theorem Placed.set {allowed : Block → ℕ → Prop} {items : List (Option Item)}
    (h : Placed allowed items) {item : Item} {i : ℕ} (hi : allowed item.entry i) :
    Placed allowed (items.set i (some item)) :=
  Slots.forall_set (P := fun j (it : Item) => allowed it.entry j) h hi

/-- What is stored, with the item that has no bin. -/
def inHand : Option Item → List (Block × ℕ)
  | none => []
  | some item => [(item.entry, item.index)]

theorem hashItem_spec {allowed : Block → ℕ → Prop} {h hoffset m moffset : ℕ}
    (hallowed : ∀ (t : ℕ) (key x : Block) (i : ℕ), t < h → hashkeys[hoffset + t]? = some key →
      hashInputKeyed encrypt key x m = some i → allowed x (moffset + i))
    {inserted : List (Block × ℕ)} (attempts : ℕ) {items items' : List (Option Item)} {item : Item}
    {left : Option Item}
    (hrun : hashItem encrypt hashkeys h hoffset m moffset attempts items item =
      some (items', left)) (hplaced : Placed allowed items) (hindex : item.hindex < h)
    (hstored : ((item.entry, item.index) :: stored items).Perm inserted) :
    Placed allowed items' ∧ (inHand left ++ stored items').Perm inserted ∧
      items'.length = items.length := by
  induction attempts generalizing items item with
  | zero =>
    cases hrun
    exact ⟨hplaced, hstored, rfl⟩
  | succ attempts ih =>
    obtain ⟨key, hkey, hrun⟩ := Option.bind_eq_some_iff.1 hrun
    obtain ⟨i, hi, hrun⟩ := Option.bind_eq_some_iff.1 hrun
    have hbin := hallowed item.hindex key item.entry i hindex hkey hi
    split at hrun
    · cases hrun
    · next hnone =>
      cases hrun
      exact ⟨hplaced.set hbin, (stored_set_none hnone item).trans hstored, List.length_set⟩
    · next old hsome =>
      obtain ⟨h₁, h₂, h₃⟩ := ih hrun (hplaced.set hbin) (Nat.mod_lt _ (by omega))
        ((stored_set_some hsome item).trans hstored)
      exact ⟨h₁, h₂, h₃.trans List.length_set⟩

theorem mem_take {α : Type} {l : List α} {i n : ℕ} {a : α} (hi : i < n) (h : l[i]? = some a) :
    a ∈ l.take n := List.mem_of_getElem? (by rwa [List.getElem?_take_of_lt hi])

theorem hashInput_spec (hh1 : 0 < params.h1) (hh2 : 0 < params.h2) {inserted : List (Block × ℕ)}
    {items items' : List (Option Item)} {input : Block × ℕ}
    (hplaced : Placed (Candidate encrypt params hashkeys) items) (hstored : (stored items).Perm inserted)
    (hrun : hashInput encrypt params hashkeys items input = some items') :
    Placed (Candidate encrypt params hashkeys) items' ∧ (stored items').Perm (inserted ++ [input]) ∧
      items'.length = items.length := by
  have hfirst : ∀ (t : ℕ) (key x : Block) (i : ℕ), t < params.h1 → hashkeys[0 + t]? = some key →
      hashInputKeyed encrypt key x params.m1 = some i →
      Candidate encrypt params hashkeys x (0 + i) := by
    intro t key x i ht hkey hi
    rw [Nat.zero_add] at hkey ⊢
    exact Or.inl ⟨key, mem_take ht hkey, hi⟩
  have hsecond : ∀ (t : ℕ) (key x : Block) (i : ℕ), t < params.h2 →
      hashkeys[params.h1 + t]? = some key → hashInputKeyed encrypt key x params.m2 = some i →
      Candidate encrypt params hashkeys x (params.m1 + i) := by
    intro t key x i ht hkey hi
    exact Or.inr ⟨key, mem_take ht (by rwa [List.getElem?_drop]), i, hi, rfl⟩
  have hall : ((input.1, input.2) :: stored items).Perm (inserted ++ [input]) :=
    (hstored.cons _).trans (List.perm_append_singleton _ _).symm
  obtain ⟨⟨items₁, left₁⟩, hrun₁, hrun⟩ := Option.bind_eq_some_iff.1 hrun
  obtain ⟨hplaced₁, hstored₁, hlength₁⟩ := hashItem_spec hfirst N_ATTEMPTS hrun₁ hplaced hh1 hall
  cases left₁ with
  | none =>
    cases hrun
    exact ⟨hplaced₁, hstored₁, hlength₁⟩
  | some left =>
    obtain ⟨⟨items₂, left₂⟩, hrun₂, hrun⟩ := Option.bind_eq_some_iff.1 hrun
    obtain ⟨hplaced₂, hstored₂, hlength₂⟩ :=
      hashItem_spec hsecond N_ATTEMPTS hrun₂ hplaced₁ hh2 hstored₁
    cases left₂ with
    | none =>
      cases hrun
      exact ⟨hplaced₂, hstored₂, hlength₂.trans hlength₁⟩
    | some left => cases hrun

theorem build_spec (hh1 : 0 < params.h1) (hh2 : 0 < params.h2) {inputs : List Block}
    {items : List (Option Item)} (hrun : build encrypt params hashkeys inputs = some items) :
    Placed (Candidate encrypt params hashkeys) items ∧ (stored items).Perm inputs.zipIdx ∧
      items.length = params.m1 + params.m2 := by
  have hpart : ∀ (more inserted : List (Block × ℕ)) (items' : List (Option Item)),
      Placed (Candidate encrypt params hashkeys) items' → (stored items').Perm inserted →
      more.foldlM (hashInput encrypt params hashkeys) items' = some items →
      Placed (Candidate encrypt params hashkeys) items ∧ (stored items).Perm (inserted ++ more) ∧
        items.length = items'.length := by
    intro more
    induction more with
    | nil =>
      intro inserted items' hplaced hstored hrun
      cases hrun
      rw [List.append_nil]
      exact ⟨hplaced, hstored, rfl⟩
    | cons input more ih =>
      intro inserted items' hplaced hstored hrun
      rw [List.foldlM_cons] at hrun
      obtain ⟨items₁, hrun₁, hrun⟩ := Option.bind_eq_some_iff.1 hrun
      obtain ⟨hplaced₁, hstored₁, hlength₁⟩ := hashInput_spec hh1 hh2 hplaced hstored hrun₁
      obtain ⟨h₁, h₂, h₃⟩ := ih _ _ hplaced₁ hstored₁ hrun
      rw [List.append_assoc] at h₂
      exact ⟨h₁, h₂, h₃.trans hlength₁⟩
  have hempty : Placed (Candidate encrypt params hashkeys)
      (List.replicate (params.m1 + params.m2) none) := by
    intro pos it hpos
    rw [List.getElem?_replicate] at hpos
    split at hpos <;> cases hpos
  have hall := hpart inputs.zipIdx [] _ hempty (by simp [stored]) hrun
  simpa using hall

end Cuckoo

/-! ## The sender's bins -/

/-- A bin holds a point. -/
def Holds (bins : List (List Point)) (pos : ℕ) (point : Point) : Prop :=
  ∃ b, bins[pos]? = some b ∧ point ∈ b

theorem Holds.modify {bins : List (List Point)} {pos : ℕ} {point : Point} (h : Holds bins pos point)
    (i : ℕ) (q : Point) : Holds (bins.modify i (· ++ [q])) pos point := by
  obtain ⟨b, hb, hmem⟩ := h
  by_cases hi : i = pos
  · exact ⟨b ++ [q], by simp [hi, hb], List.mem_append_left _ hmem⟩
  · exact ⟨b, by simp [hi, hb], hmem⟩

section Bins

variable {m offset : ℕ} {point : Point}

theorem placeKey_spec {s s' : List (List Point) × List ℕ} {key : Block}
    (hs : ∀ h ∈ s.2, Holds s.1 (offset + h) point)
    (hrun : placeKey encrypt m offset point s key = some s') :
    (∀ pos q, Holds s.1 pos q → Holds s'.1 pos q) ∧ s'.1.length = s.1.length ∧
      (∀ h ∈ s'.2, Holds s'.1 (offset + h) point) ∧
      ∀ h, hashInputKeyed encrypt key point.1 m = some h → Holds s'.1 (offset + h) point := by
  obtain ⟨h, hh, hrun⟩ := Option.bind_eq_some_iff.1 hrun
  split at hrun
  · next hmem =>
    cases hrun
    refine ⟨fun _ _ hq => hq, rfl, hs, fun h' hh' => ?_⟩
    rw [hh] at hh'
    cases hh'
    exact hs h hmem
  · split at hrun
    · next hlt =>
      cases hrun
      have hnew : Holds (s.1.modify (offset + h) (· ++ [point])) (offset + h) point :=
        ⟨s.1[offset + h] ++ [point], by simp [hlt], by simp⟩
      refine ⟨fun _ _ hq => hq.modify _ _, List.length_modify .., fun h' hh' => ?_, fun h' hh' => ?_⟩
      · obtain hold | hold := List.mem_append.1 hh'
        · exact (hs h' hold).modify _ _
        · rw [List.mem_singleton.1 hold]
          exact hnew
      · rw [hh] at hh'
        cases hh'
        exact hnew
    · cases hrun

theorem placeKeys_spec {keys : List Block} {s s' : List (List Point) × List ℕ}
    (hs : ∀ h ∈ s.2, Holds s.1 (offset + h) point)
    (hrun : keys.foldlM (placeKey encrypt m offset point) s = some s') :
    (∀ pos q, Holds s.1 pos q → Holds s'.1 pos q) ∧ s'.1.length = s.1.length ∧
      ∀ key ∈ keys, ∀ h, hashInputKeyed encrypt key point.1 m = some h →
        Holds s'.1 (offset + h) point := by
  induction keys generalizing s with
  | nil =>
    cases hrun
    exact ⟨fun _ _ hq => hq, rfl, fun key hkey => absurd hkey List.not_mem_nil⟩
  | cons key keys ih =>
    rw [List.foldlM_cons] at hrun
    obtain ⟨s₁, hrun₁, hrun⟩ := Option.bind_eq_some_iff.1 hrun
    obtain ⟨hmono₁, hlength₁, hs₁, hkey₁⟩ := placeKey_spec hs hrun₁
    obtain ⟨hmono, hlength, hkeys⟩ := ih hs₁ hrun
    refine ⟨fun pos q hq => hmono pos q (hmono₁ pos q hq), hlength.trans hlength₁, ?_⟩
    intro key' hkey' h hh
    obtain rfl | hmem := List.mem_cons.1 hkey'
    · exact hmono _ _ (hkey₁ h hh)
    · exact hkeys key' hmem h hh

theorem placePoint_spec {bins bins' : List (List Point)}
    (hrun : placePoint encrypt params hashkeys bins point = some bins') :
    (∀ pos q, Holds bins pos q → Holds bins' pos q) ∧ bins'.length = bins.length ∧
      ∀ pos, Candidate encrypt params hashkeys point.1 pos → Holds bins' pos point := by
  obtain ⟨s₁, hrun₁, hrun⟩ := Option.bind_eq_some_iff.1 hrun
  obtain ⟨s₂, hrun₂, hrun⟩ := Option.bind_eq_some_iff.1 hrun
  cases hrun
  obtain ⟨hmono₁, hlength₁, hkeys₁⟩ :=
    placeKeys_spec (fun h hh => absurd hh List.not_mem_nil) hrun₁
  obtain ⟨hmono₂, hlength₂, hkeys₂⟩ :=
    placeKeys_spec (fun h hh => absurd hh List.not_mem_nil) hrun₂
  refine ⟨fun pos q hq => hmono₂ pos q (hmono₁ pos q hq), hlength₂.trans hlength₁, ?_⟩
  rintro pos (⟨key, hkey, hpos⟩ | ⟨key, hkey, i, hi, rfl⟩)
  · have hfirst := hkeys₁ key hkey pos hpos
    rw [Nat.zero_add] at hfirst
    exact hmono₂ pos point hfirst
  · exact hkeys₂ key hkey i hi

theorem fillBins_spec {points : List Point} {bins : List (List Point)}
    (hrun : fillBins encrypt params hashkeys points = some bins) :
    bins.length = params.m1 + params.m2 ∧
      ∀ q ∈ points, ∀ pos, Candidate encrypt params hashkeys q.1 pos → Holds bins pos q := by
  have hpart : ∀ (more : List Point) (bins' : List (List Point)),
      more.foldlM (placePoint encrypt params hashkeys) bins' = some bins →
      (∀ pos q, Holds bins' pos q → Holds bins pos q) ∧ bins.length = bins'.length ∧
        ∀ q ∈ more, ∀ pos, Candidate encrypt params hashkeys q.1 pos → Holds bins pos q := by
    intro more
    induction more with
    | nil =>
      intro bins' hrun
      cases hrun
      exact ⟨fun _ _ hq => hq, rfl, fun q hq => absurd hq List.not_mem_nil⟩
    | cons p more ih =>
      intro bins' hrun
      rw [List.foldlM_cons] at hrun
      obtain ⟨bins₁, hrun₁, hrun⟩ := Option.bind_eq_some_iff.1 hrun
      obtain ⟨hmono₁, hlength₁, hpoint₁⟩ := placePoint_spec hrun₁
      obtain ⟨hmono, hlength, hpoints⟩ := ih bins₁ hrun
      refine ⟨fun pos q hq => hmono pos q (hmono₁ pos q hq), hlength.trans hlength₁, ?_⟩
      intro q hq pos hpos
      obtain rfl | hq := List.mem_cons.1 hq
      · exact hmono pos q (hpoint₁ pos hpos)
      · exact hpoints q hq pos hpos
  obtain ⟨-, hlength, hpoints⟩ := hpart points _ hrun
  exact ⟨by simpa using hlength, hpoints⟩

end Bins

end EdaBitGen.Ocelot.Kmprt
