import Mathlib

/-!
# Tweaks of the label hash

A garbler numbers its gates and its outputs, each with a counter of its own, and hashes labels with
tweaks that it makes from the numbers.  The numbers of gates and of outputs are written to the same
half of a tweak, so some of them are the same for different uses.
-/

namespace EdaBitGen.Garbling

/-! ## Tweaks -/

abbrev Block := BitVec 128

/-- The number is the low half. -/
def tweak (i : ℕ) : Block := BitVec.ofNat 128 (i % 2 ^ 64)

/-- The first number is the high half, the second one the low half. -/
def tweak2 (i j : ℕ) : Block := BitVec.ofNat 128 (i % 2 ^ 64 * 2 ^ 64 + j % 2 ^ 64)

/-- The tweak of an output with a value. -/
def outputTweak (i k : ℕ) : Block :=
  let left := BitVec.ofNat 128 i <<< 64
  left + BitVec.ofNat 128 k

/-- What a label is hashed for. -/
inductive Use
  | halfGate (gate : ℕ)
  | minitable (gate : ℕ)
  | projection (gate : ℕ)
  | output (index value : ℕ)
  deriving DecidableEq

def Use.tweak : Use → Block
  | .halfGate gate => tweak2 gate 0
  | .minitable gate => tweak2 gate 1
  | .projection gate => Garbling.tweak gate
  | .output index value => outputTweak index value

theorem toNat_tweak {i : ℕ} (hi : i < 2 ^ 64) : (tweak i).toNat = i := by
  rw [tweak, BitVec.toNat_ofNat]
  omega

theorem toNat_tweak2 {i j : ℕ} (hi : i < 2 ^ 64) (hj : j < 2 ^ 64) :
    (tweak2 i j).toNat = i * 2 ^ 64 + j := by
  rw [tweak2, BitVec.toNat_ofNat]
  omega

theorem toNat_outputTweak {i k : ℕ} (hi : i < 2 ^ 64) (hk : k < 2 ^ 64) :
    (outputTweak i k).toNat = i * 2 ^ 64 + k := by
  rw [outputTweak, BitVec.toNat_add, BitVec.toNat_shiftLeft, BitVec.toNat_ofNat,
    BitVec.toNat_ofNat, Nat.shiftLeft_eq]
  omega

/-! ## The garbler's counters -/

/-- A modulus of wires. -/
@[ext] structure Modulus where
  val : ℕ
  two_le : 2 ≤ val
  lt : val < 2 ^ 16
  deriving DecidableEq

/-- A call of the garbler, with the moduli of its wires. -/
inductive Call
  | free
  | and
  | mul (q qb : Modulus)
  | proj (qIn qOut : Modulus)
  | output (q : Modulus)

/-- The larger modulus is first. -/
def ordered (q qb : Modulus) : Modulus × Modulus := if q.val < qb.val then (qb, q) else (q, qb)

structure Counters where
  gate : ℕ
  output : ℕ
  uses : List Use

namespace Counters

/-- The next gate and its number, unless the counter overflows. -/
def currentGate (s : Counters) : Option (ℕ × Counters) :=
  if s.gate + 1 < 2 ^ 64 then some (s.gate, { s with gate := s.gate + 1 }) else none

def currentOutput (s : Counters) : Option (ℕ × Counters) :=
  if s.output + 1 < 2 ^ 64 then some (s.output, { s with output := s.output + 1 }) else none

def hash (s : Counters) (uses : List Use) : Counters := { s with uses := s.uses ++ uses }

/-- What a call hashes labels for. -/
def step (s : Counters) : Call → Option Counters
  | .free => some s
  | .and => do
    let (gate, s) ← s.currentGate
    some (s.hash [.halfGate gate])
  | .mul q qb => do
    let (gate, s) ← s.currentGate
    if (ordered q qb).1 ≠ (ordered q qb).2 then
      if (ordered q qb).2.val > 8 then none
      else some (s.hash [.minitable gate, .halfGate gate])
    else some (s.hash [.halfGate gate])
  | .proj _ _ => do
    let (gate, s) ← s.currentGate
    some (s.hash [.projection gate])
  | .output q => do
    let (index, s) ← s.currentOutput
    some (s.hash ((List.range q.val).map fun value => .output index value))

end Counters

/-- What a garbler hashes labels for. -/
def uses (calls : List Call) : Option (List Use) :=
  (calls.foldlM Counters.step ⟨0, 0, []⟩).map Counters.uses

/-- Different uses have different tweaks. -/
def Separated (uses : List Use) : Prop :=
  ∀ u ∈ uses, ∀ v ∈ uses, u ≠ v → u.tweak ≠ v.tweak

/-! ## The gates and the outputs -/

/-- A gate that has a number. -/
inductive Gate
  | half
  | asymmetric
  | projection
  deriving DecidableEq

def Call.gate? : Call → Option Gate
  | .free => none
  | .and => some .half
  | .mul q qb => some (if q = qb then .half else .asymmetric)
  | .proj _ _ => some .projection
  | .output _ => none

def Call.output? : Call → Option Modulus
  | .output q => some q
  | _ => none

def gates (calls : List Call) : List Gate := calls.filterMap Call.gate?

def outputs (calls : List Call) : List Modulus := calls.filterMap Call.output?

/-- A label is hashed for this. -/
def Use.Made (calls : List Call) : Use → Prop
  | .halfGate gate => (gates calls)[gate]? = some .half ∨ (gates calls)[gate]? = some .asymmetric
  | .minitable gate => (gates calls)[gate]? = some .asymmetric
  | .projection gate => (gates calls)[gate]? = some .projection
  | .output index value => ∃ q, (outputs calls)[index]? = some q ∧ value < q.val

/-- The numbers of the gates with half-gates are not numbers of outputs, the numbers of projections
are not values of the first output, and the first gate has no table if the second one is a
projection. -/
structure Separable (calls : List Call) : Prop where
  halfGate : ∀ gate, (Use.halfGate gate).Made calls → (outputs calls).length ≤ gate
  projection : ∀ gate, (Use.projection gate).Made calls → ¬ (Use.output 0 gate).Made calls
  minitable : (Use.minitable 0).Made calls → ¬ (Use.projection 1).Made calls

/-! ## Numbers -/

/-- What the gate with a number hashes labels for. -/
def Gate.uses (number : ℕ) : Gate → List Use
  | .half => [.halfGate number]
  | .asymmetric => [.minitable number, .halfGate number]
  | .projection => [.projection number]

theorem step_cases {s s' : Counters} {call : Call} (h : s.step call = some s') :
    (call.gate? = none ∧ call.output? = none ∧ s' = s) ∨
    (∃ gate, call.gate? = some gate ∧ call.output? = none ∧ s.gate + 1 < 2 ^ 64 ∧
      s' = ⟨s.gate + 1, s.output, s.uses ++ gate.uses s.gate⟩) ∨
    (∃ q, call.gate? = none ∧ call.output? = some q ∧ s.output + 1 < 2 ^ 64 ∧
      s' = ⟨s.gate, s.output + 1,
        s.uses ++ (List.range q.val).map fun value => .output s.output value⟩) := by
  have hgate : ∀ {gate t}, s.currentGate = some (gate, t) →
      s.gate + 1 < 2 ^ 64 ∧ gate = s.gate ∧ t = ⟨s.gate + 1, s.output, s.uses⟩ := by
    intro gate t ht
    rw [Counters.currentGate] at ht
    split at ht
    · obtain ⟨rfl, rfl⟩ := Prod.mk.inj (Option.some.inj ht)
      exact ⟨‹_›, rfl, rfl⟩
    · cases ht
  cases call with
  | free => exact .inl ⟨rfl, rfl, (Option.some.inj h).symm⟩
  | and =>
    obtain ⟨⟨gate, t⟩, ht, h⟩ := Option.bind_eq_some_iff.1 h
    obtain ⟨hlt, rfl, rfl⟩ := hgate ht
    exact .inr (.inl ⟨.half, rfl, rfl, hlt, (Option.some.inj h).symm⟩)
  | proj qIn qOut =>
    obtain ⟨⟨gate, t⟩, ht, h⟩ := Option.bind_eq_some_iff.1 h
    obtain ⟨hlt, rfl, rfl⟩ := hgate ht
    exact .inr (.inl ⟨.projection, rfl, rfl, hlt, (Option.some.inj h).symm⟩)
  | mul q qb =>
    obtain ⟨⟨gate, t⟩, ht, h⟩ := Option.bind_eq_some_iff.1 h
    obtain ⟨hlt, rfl, rfl⟩ := hgate ht
    have hne : (ordered q qb).1 ≠ (ordered q qb).2 ↔ q ≠ qb := by
      rw [ordered]
      split
      · exact not_congr eq_comm
      · exact Iff.rfl
    change (if (ordered q qb).1 ≠ (ordered q qb).2 then _ else _) = _ at h
    refine .inr (.inl ⟨if q = qb then .half else .asymmetric, rfl, rfl, hlt, ?_⟩)
    by_cases heq : q = qb
    · rw [if_neg (hne.not.2 (not_not_intro heq))] at h
      rw [if_pos heq]
      exact (Option.some.inj h).symm
    · rw [if_pos (hne.2 heq)] at h
      rw [if_neg heq]
      split at h
      · cases h
      · exact (Option.some.inj h).symm
  | output q =>
    obtain ⟨⟨index, t⟩, ht, h⟩ := Option.bind_eq_some_iff.1 h
    rw [Counters.currentOutput] at ht
    split at ht
    · obtain ⟨rfl, rfl⟩ := Prod.mk.inj (Option.some.inj ht)
      exact .inr (.inr ⟨q, rfl, rfl, ‹_›, (Option.some.inj h).symm⟩)
    · cases ht

theorem getElem?_concat_eq_some {α : Type} {as : List α} {a b : α} {i : ℕ} :
    (as ++ [a])[i]? = some b ↔ as[i]? = some b ∨ i = as.length ∧ a = b := by
  rcases Nat.lt_trichotomy i as.length with hlt | rfl | hgt
  · rw [List.getElem?_append_left hlt]
    simp [hlt.ne]
  · simp
  · rw [List.getElem?_append_right hgt.le, List.getElem?_singleton,
      if_neg (Nat.sub_pos_of_lt hgt).ne', List.getElem?_eq_none hgt.le]
    simp [hgt.ne']

/-- The counters after some calls. -/
structure Numbered (calls : List Call) (s : Counters) : Prop where
  gate : s.gate = (gates calls).length
  output : s.output = (outputs calls).length
  gate_lt : s.gate < 2 ^ 64
  output_lt : s.output < 2 ^ 64
  mem_uses : ∀ u, u ∈ s.uses ↔ u.Made calls

theorem made_concat_gate {calls : List Call} {call : Call} {gate : Gate}
    (hgate : call.gate? = some gate) (houtput : call.output? = none) (u : Use) :
    u.Made (calls ++ [call]) ↔ u.Made calls ∨ u ∈ gate.uses (gates calls).length := by
  have hgates : gates (calls ++ [call]) = gates calls ++ [gate] := by
    simp [gates, List.filterMap_append, hgate]
  have houtputs : outputs (calls ++ [call]) = outputs calls := by
    simp [outputs, List.filterMap_append, houtput]
  cases u with
  | halfGate number =>
    rw [Use.Made, Use.Made, hgates, getElem?_concat_eq_some, getElem?_concat_eq_some]
    cases gate with
    | half =>
      simp only [Gate.uses, List.mem_singleton, Use.halfGate.injEq, reduceCtorEq, and_true,
        and_false, or_false]
      tauto
    | asymmetric =>
      simp only [Gate.uses, List.mem_cons, List.not_mem_nil, Use.halfGate.injEq, reduceCtorEq,
        and_true, and_false, or_false, false_or]
      tauto
    | projection => simp [Gate.uses]
  | minitable number =>
    rw [Use.Made, Use.Made, hgates, getElem?_concat_eq_some]
    cases gate <;> simp [Gate.uses]
  | projection number =>
    rw [Use.Made, Use.Made, hgates, getElem?_concat_eq_some]
    cases gate <;> simp [Gate.uses]
  | output index value =>
    rw [Use.Made, Use.Made, houtputs]
    cases gate <;> simp [Gate.uses]

theorem made_concat_output {calls : List Call} {call : Call} {q : Modulus}
    (hgate : call.gate? = none) (houtput : call.output? = some q) (u : Use) :
    u.Made (calls ++ [call]) ↔ u.Made calls ∨
      u ∈ (List.range q.val).map fun value => Use.output (outputs calls).length value := by
  have hgates : gates (calls ++ [call]) = gates calls := by
    simp [gates, List.filterMap_append, hgate]
  have houtputs : outputs (calls ++ [call]) = outputs calls ++ [q] := by
    simp [outputs, List.filterMap_append, houtput]
  cases u with
  | halfGate number => simp [Use.Made, hgates]
  | minitable number => simp [Use.Made, hgates]
  | projection number => simp [Use.Made, hgates]
  | output index value =>
    rw [Use.Made, Use.Made, houtputs]
    simp only [getElem?_concat_eq_some, List.mem_map, List.mem_range, Use.output.injEq]
    constructor
    · rintro ⟨r, hr | ⟨rfl, rfl⟩, hvalue⟩
      · exact .inl ⟨r, hr, hvalue⟩
      · exact .inr ⟨value, hvalue, rfl, rfl⟩
    · rintro (⟨r, hr, hvalue⟩ | ⟨_, hvalue, rfl, rfl⟩)
      · exact ⟨r, .inl hr, hvalue⟩
      · exact ⟨q, .inr ⟨rfl, rfl⟩, hvalue⟩

theorem Numbered.step {calls : List Call} {call : Call} {s s' : Counters} (h : Numbered calls s)
    (hstep : s.step call = some s') : Numbered (calls ++ [call]) s' := by
  have hgates : gates (calls ++ [call]) = gates calls ++ call.gate?.toList := by
    cases hgate : call.gate? <;> simp [gates, List.filterMap_append, hgate]
  have houtputs : outputs (calls ++ [call]) = outputs calls ++ call.output?.toList := by
    cases houtput : call.output? <;> simp [outputs, List.filterMap_append, houtput]
  obtain ⟨hgate, houtput, rfl⟩ | ⟨gate, hgate, houtput, hlt, rfl⟩ | ⟨q, hgate, houtput, hlt, rfl⟩ :=
    step_cases hstep
  · rw [hgate, Option.toList_none, List.append_nil] at hgates
    rw [houtput, Option.toList_none, List.append_nil] at houtputs
    refine ⟨hgates ▸ h.gate, houtputs ▸ h.output, h.gate_lt, h.output_lt, fun u => ?_⟩
    rw [h.mem_uses]
    cases u <;> simp only [Use.Made, hgates, houtputs]
  · rw [hgate] at hgates
    rw [houtput, Option.toList_none, List.append_nil] at houtputs
    refine ⟨?_, houtputs ▸ h.output, hlt, h.output_lt, fun u => ?_⟩
    · simp [hgates, h.gate]
    · rw [made_concat_gate hgate houtput, List.mem_append, h.mem_uses, h.gate]
  · rw [hgate, Option.toList_none, List.append_nil] at hgates
    rw [houtput] at houtputs
    refine ⟨hgates ▸ h.gate, ?_, h.gate_lt, hlt, fun u => ?_⟩
    · simp [houtputs, h.output]
    · rw [made_concat_output hgate houtput, List.mem_append, h.mem_uses, h.output]

theorem numbered_run {calls : List Call} {s : Counters}
    (h : calls.foldlM Counters.step ⟨0, 0, []⟩ = some s) : Numbered calls s := by
  induction calls using List.reverseRecOn generalizing s with
  | nil =>
    obtain rfl := Option.some.inj h
    refine ⟨rfl, rfl, by norm_num, by norm_num, fun u => ?_⟩
    cases u <;> simp [Use.Made, gates, outputs]
  | append_singleton calls call ih =>
    rw [List.foldlM_append] at h
    obtain ⟨t, ht, h⟩ := Option.bind_eq_some_iff.1 h
    obtain ⟨t', ht', h⟩ := Option.bind_eq_some_iff.1 h
    obtain rfl := Option.some.inj h
    exact (ih ht).step ht'

theorem mem_uses_iff {calls : List Call} {us : List Use} (h : uses calls = some us) (u : Use) :
    u ∈ us ↔ u.Made calls := by
  obtain ⟨s, hs, rfl⟩ := Option.map_eq_some_iff.1 h
  exact (numbered_run hs).mem_uses u

theorem Use.Made.lt {calls : List Call} {us : List Use} (h : uses calls = some us) :
    (gates calls).length < 2 ^ 64 ∧ (outputs calls).length < 2 ^ 64 := by
  obtain ⟨s, hs, rfl⟩ := Option.map_eq_some_iff.1 h
  have hnumbered := numbered_run hs
  exact ⟨hnumbered.gate ▸ hnumbered.gate_lt, hnumbered.output ▸ hnumbered.output_lt⟩

/-! ## Separation -/

/-- A tweak as a number. -/
def Use.toNat : Use → ℕ
  | .halfGate gate => gate * 2 ^ 64
  | .minitable gate => gate * 2 ^ 64 + 1
  | .projection gate => gate
  | .output index value => index * 2 ^ 64 + value

/-- The numbers of a use fit. -/
def Use.Fits : Use → Prop
  | .halfGate gate => gate < 2 ^ 64
  | .minitable gate => gate < 2 ^ 64
  | .projection gate => gate < 2 ^ 64
  | .output index value => index < 2 ^ 64 ∧ value < 2 ^ 16

theorem Use.toNat_tweak {u : Use} (h : u.Fits) : u.tweak.toNat = u.toNat := by
  cases u with
  | halfGate gate => rw [Use.tweak, toNat_tweak2 h (by norm_num), Nat.add_zero, Use.toNat]
  | minitable gate => exact toNat_tweak2 h (by norm_num)
  | projection gate => exact Garbling.toNat_tweak h
  | output index value => exact toNat_outputTweak h.1 (h.2.trans (by norm_num))

theorem Use.Made.fits {calls : List Call} {us : List Use} (h : uses calls = some us) {u : Use}
    (hu : u.Made calls) : u.Fits := by
  obtain ⟨hgates, houtputs⟩ := Use.Made.lt h
  have hlt : ∀ {gate : ℕ} {g : Gate}, (gates calls)[gate]? = some g → gate < 2 ^ 64 :=
    fun hg => (List.getElem?_eq_some_iff.1 hg).1.trans hgates
  cases u with
  | halfGate gate => exact hu.elim hlt hlt
  | minitable gate => exact hlt hu
  | projection gate => exact hlt hu
  | output index value =>
    obtain ⟨q, hq, hvalue⟩ := hu
    exact ⟨(List.getElem?_eq_some_iff.1 hq).1.trans houtputs, hvalue.trans q.lt⟩

theorem tweak_eq_iff {calls : List Call} {us : List Use} (h : uses calls = some us) {u v : Use}
    (hu : u.Made calls) (hv : v.Made calls) : u.tweak = v.tweak ↔ u.toNat = v.toNat := by
  rw [← BitVec.toNat_inj, Use.toNat_tweak (hu.fits h), Use.toNat_tweak (hv.fits h)]

theorem made_output_zero {calls : List Call} {index : ℕ} :
    (Use.output index 0).Made calls ↔ index < (outputs calls).length := by
  constructor
  · rintro ⟨q, hq, -⟩
    exact (List.getElem?_eq_some_iff.1 hq).1
  · intro hlt
    exact ⟨(outputs calls)[index], List.getElem?_eq_getElem hlt, by
      have := (outputs calls)[index].two_le
      omega⟩

/-- The order of the kinds of uses. -/
def Use.rank : Use → ℕ
  | .halfGate _ => 0
  | .minitable _ => 1
  | .projection _ => 2
  | .output _ _ => 3

theorem Separable.eq_of_toNat_eq {calls : List Call} {us : List Use} (h : uses calls = some us)
    (hseparable : Separable calls) {u v : Use} (hu : u.Made calls) (hv : v.Made calls)
    (heq : u.toNat = v.toNat) : u = v := by
  wlog hrank : u.rank ≤ v.rank generalizing u v
  · exact (this hv hu heq.symm (Nat.le_of_not_le hrank)).symm
  have hfitsu := hu.fits h
  have hfitsv := hv.fits h
  cases u with
  | halfGate gate =>
    cases v with
    | halfGate gate' =>
      simp only [Use.toNat] at heq
      rw [Use.halfGate.injEq]
      omega
    | minitable gate' =>
      simp only [Use.toNat] at heq
      omega
    | projection gate' =>
      simp only [Use.toNat, Use.Fits] at heq hfitsv
      have hgate : gate = 0 := by omega
      have hgate' : gate' = 0 := by omega
      subst hgate hgate'
      have hproj : (gates calls)[0]? = some .projection := hv
      rcases hu with hu | hu <;> rw [hproj] at hu <;> cases hu
    | output index value =>
      -- the value is zero, and the output has the number of the gate
      simp only [Use.toNat, Use.Fits] at heq hfitsv
      obtain rfl : index = gate := by omega
      obtain ⟨q, hq, -⟩ := hv
      exact absurd (List.getElem?_eq_some_iff.1 hq).1 (Nat.not_lt_of_le (hseparable.halfGate _ hu))
  | minitable gate =>
    cases v with
    | halfGate gate' => exact absurd hrank (by simp [Use.rank])
    | minitable gate' =>
      simp only [Use.toNat] at heq
      rw [Use.minitable.injEq]
      omega
    | projection gate' =>
      simp only [Use.toNat, Use.Fits] at heq hfitsv
      have hgate : gate = 0 := by omega
      have hgate' : gate' = 1 := by omega
      subst hgate hgate'
      exact absurd hv (hseparable.minitable hu)
    | output index value =>
      -- the value is one, and the output has the number of the gate
      simp only [Use.toNat, Use.Fits] at heq hfitsv
      obtain rfl : index = gate := by omega
      obtain ⟨q, hq, -⟩ := hv
      exact absurd (List.getElem?_eq_some_iff.1 hq).1
        (Nat.not_lt_of_le (hseparable.halfGate _ (.inr hu)))
  | projection gate =>
    cases v with
    | halfGate gate' => exact absurd hrank (by simp [Use.rank])
    | minitable gate' => exact absurd hrank (by simp [Use.rank])
    | projection gate' =>
      simp only [Use.toNat] at heq
      rw [heq]
    | output index value =>
      simp only [Use.toNat, Use.Fits] at heq hfitsu hfitsv
      obtain rfl : index = 0 := by omega
      obtain rfl : value = gate := by omega
      exact absurd hv (hseparable.projection _ hu)
  | output index value =>
    cases v with
    | halfGate gate' => exact absurd hrank (by simp [Use.rank])
    | minitable gate' => exact absurd hrank (by simp [Use.rank])
    | projection gate' => exact absurd hrank (by simp [Use.rank])
    | output index' value' =>
      simp only [Use.toNat, Use.Fits] at heq hfitsu hfitsv
      rw [Use.output.injEq]
      omega

/-- Different uses have different tweaks exactly if the numbers of the gates and of the outputs do
not overlap. -/
theorem separated_iff {calls : List Call} {us : List Use} (h : uses calls = some us) :
    Separated us ↔ Separable calls := by
  have hmem := mem_uses_iff h
  constructor
  · intro hseparated
    have hne : ∀ {u v : Use}, u.Made calls → v.Made calls → u ≠ v → u.toNat ≠ v.toNat :=
      fun hu hv huv heq => hseparated _ ((hmem _).2 hu) _ ((hmem _).2 hv) huv
        ((tweak_eq_iff h hu hv).2 heq)
    refine ⟨fun gate hgate => ?_, fun gate hgate houtput => ?_, fun htable hproj => ?_⟩
    · by_contra hlt
      exact hne hgate (made_output_zero.2 (Nat.lt_of_not_le hlt)) (by simp) (by simp [Use.toNat])
    · exact hne hgate houtput (by simp) (by simp [Use.toNat])
    · exact hne htable hproj (by simp) (by simp [Use.toNat])
  · intro hseparable u hu v hv huv heq
    have hmadeu := (hmem u).1 hu
    have hmadev := (hmem v).1 hv
    exact huv (hseparable.eq_of_toNat_eq h hmadeu hmadev ((tweak_eq_iff h hmadeu hmadev).1 heq))

/-- The modulus of binary wires. -/
def binary : Modulus := ⟨2, by norm_num, by norm_num⟩

/-- Two projections, and no outputs. -/
theorem separated_iff_projections :
    Separated [.projection 0, .projection 1] ↔
      Separable [.proj binary binary, .proj binary binary] :=
  separated_iff rfl

/-- The first gate and the first output. -/
theorem not_separated_and_output :
    uses [.and, .output binary] = some [.halfGate 0, .output 0 0, .output 0 1] ∧
      ¬ Separated [.halfGate 0, .output 0 0, .output 0 1] := by
  refine ⟨rfl, fun hseparated => ?_⟩
  exact hseparated (.halfGate 0) (by simp) (.output 0 0) (by simp) (by simp) (by decide)

end EdaBitGen.Garbling
