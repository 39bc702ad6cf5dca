import EdaBitGen.FancyGarbling.Parser

/-!
# Circuit files

The old Bristol format, the circuits that are written in it, and what the parser makes of a stream
that has one.
-/

namespace EdaBitGen.FancyGarbling

open Patterns

/-! ## The format -/

/-- White space of a line, with its end. -/
def blank (c : Char) : Bool := c = ' ' || c = '\t' || c = '\r' || c = '\n'

structure IsNumeral (n : ℕ) (a : List Char) : Prop where
  ne_nil : a ≠ []
  digits : ∀ c ∈ a, c.isDigit = true
  value : decimal a = n

/-- Numbers with white space between them and after them. -/
inductive Row : List ℕ → List Char → Prop
  | last {n : ℕ} {a s : List Char} (ha : IsNumeral n a) (hs : ∀ c ∈ s, blank c = true) :
    Row [n] (a ++ s)
  | cons {n : ℕ} {ns : List ℕ} {a s l : List Char} (ha : IsNumeral n a)
    (hs : ∀ c ∈ s, blank c = true) (hne : s ≠ []) (hl : Row ns l) : Row (n :: ns) (a ++ (s ++ l))

/-- The line of some numbers, with white space around them. -/
def NumberLine (ns : List ℕ) (raw : List UInt8) : Prop :=
  ∃ s l, decode raw = some (s ++ l) ∧ (∀ c ∈ s, blank c = true) ∧ Row ns l

def GateType.name : GateType → List Char
  | .andGate => "AND".toList
  | .xorGate => "XOR".toList

/-- The line of a gate. -/
inductive GateLine : Instr → List Char → Prop
  | inv {x z : ℕ} {a b s : List Char} (hx : IsNumeral x a) (hz : IsNumeral z b)
    (hs : ∀ c ∈ s, blank c = true) :
    GateLine (.inv x z) ("1 1 ".toList ++ (a ++ ([' '] ++ (b ++ (" INV".toList ++ s)))))
  | gate {typ : GateType} {x y z : ℕ} {a b d s : List Char} (hx : IsNumeral x a)
    (hy : IsNumeral y b) (hz : IsNumeral z d) (hs : ∀ c ∈ s, blank c = true) :
    GateLine (.gate typ x y z)
      ("2 1 ".toList ++ (a ++ ([' '] ++ (b ++ ([' '] ++ (d ++ ([' '] ++ (typ.name ++ s))))))))

/-- A circuit as a file announces and lists it. -/
structure Netlist where
  header : Header
  gates : List Instr

/-- A stream has a circuit written in it: two lines of numbers, an empty line, a line for each gate,
and nothing more but empty lines. -/
def Netlist.Written (c : Netlist) (bytes : List UInt8) : Prop :=
  ∃ first second third body rest,
    rawLines bytes = first :: second :: third :: (body ++ rest) ∧
    NumberLine [c.header.ngates, c.header.nwires] first ∧
    NumberLine [c.header.n1, c.header.n2, c.header.n3] second ∧
    (∃ l, decode third = some l ∧ '\n' ∈ l ∧ ∀ x ∈ l, blank x = true) ∧
    List.Forall₂ (fun i raw => ∃ l, decode raw = some l ∧ GateLine i (chomp l)) c.gates body ∧
    ∀ raw ∈ rest, ∃ l, decode raw = some l ∧ chomp l = []

/-! ## Reading what is written -/

section Reading

variable {nd : Char → Bool}

theorem digit_of_isDigit {c : Char} (h : c.isDigit = true) : unicodeDigit nd c = true := by
  rw [unicodeDigit, h, Bool.true_or]

theorem not_digit_of_blank {c : Char} (h : blank c = true) : unicodeDigit nd c = false := by
  simp only [blank, Bool.or_eq_true, decide_eq_true_eq] at h
  obtain ((rfl | rfl) | rfl) | rfl := h <;> rfl

theorem space_of_blank {c : Char} (h : blank c = true) : unicodeSpace c = true := by
  simp only [blank, Bool.or_eq_true, decide_eq_true_eq] at h
  obtain ((rfl | rfl) | rfl) | rfl := h <;> rfl

theorem not_space_of_isDigit {c : Char} (h : c.isDigit = true) : unicodeSpace c = false := by
  rw [Char.isDigit, Bool.and_eq_true, decide_eq_true_eq, decide_eq_true_eq, ge_iff_le,
    UInt32.le_iff_toNat_le, UInt32.le_iff_toNat_le] at h
  have hlt : 48 ≤ c.toNat ∧ c.toNat ≤ 57 := h
  simp only [unicodeSpace, Bool.or_eq_false_iff, Bool.and_eq_false_iff, decide_eq_false_iff_not,
    beq_eq_false_iff_ne]
  omega

theorem not_digit_head {s : List Char} (hs : ∀ c ∈ s, blank c = true) :
    ∀ c ∈ s.head?, unicodeDigit nd c = false :=
  fun c hc => not_digit_of_blank (hs c (List.mem_of_mem_head? hc))

theorem IsNumeral.usizeFromStr {n : ℕ} {a : List Char} (h : IsNumeral n a) :
    usizeFromStr a = if n < 2 ^ 64 then some n else none := by
  obtain ⟨x, a', rfl⟩ := List.exists_cons_of_ne_nil h.ne_nil
  have hplus : (x :: a').head? ≠ some '+' := by
    rw [List.head?_cons]
    rintro heq
    cases heq
    exact absurd (h.digits '+' List.mem_cons_self) (by decide)
  rw [FancyGarbling.usizeFromStr]
  simp only [hplus, if_false, h.value]
  exact if_congr ⟨fun h => h.2.2, fun hn => ⟨List.cons_ne_nil _ _, List.all_eq_true.2 h.digits, hn⟩⟩ rfl rfl

theorem not_space_head {n : ℕ} {a l : List Char} (h : IsNumeral n a) :
    ∀ c ∈ (a ++ l).head?, unicodeSpace c = false := by
  obtain ⟨x, a', rfl⟩ := List.exists_cons_of_ne_nil h.ne_nil
  intro c hc
  cases hc
  exact not_space_of_isDigit (h.digits _ List.mem_cons_self)

theorem IsNumeral.cap2int_eq {n idx : ℕ} {a : List Char} {cap : List (List Char)}
    (h : IsNumeral n a) (hcap : cap[idx - 1]? = some a) (hn : n < 2 ^ 64) :
    cap2int cap idx = .ok n := by
  rw [cap2int, hcap]
  simp only [h.usizeFromStr, if_pos hn]

theorem IsNumeral.eq_of_cap2int {n m idx : ℕ} {a : List Char} {cap : List (List Char)}
    (h : IsNumeral n a) (hcap : cap[idx - 1]? = some a) (hint : cap2int cap idx = .ok m) :
    m = n := by
  rw [cap2int, hcap] at hint
  simp only [h.usizeFromStr] at hint
  split at hint
  · next hsome =>
    cases hint
    split at hsome
    · exact (Option.some.inj hsome).symm
    · cases hsome
  · cases hint

theorem matchAt_numeral {n : ℕ} {a l : List Char} {p : List Part} {cs : List (List Char)}
    (h : IsNumeral n a) (hl : ∀ c ∈ l.head?, unicodeDigit nd c = false)
    (hp : matchAt p l = some cs) :
    matchAt (.group (unicodeDigit nd) :: p) (a ++ l) = some (a :: cs) :=
  matchAt_group (fun c hc => digit_of_isDigit (h.digits c hc)) h.ne_nil hl hp

theorem matchAt_blanks {s l : List Char} {p : List Part} {cs : List (List Char)}
    (hs : ∀ c ∈ s, blank c = true) (hne : s ≠ []) (hl : ∀ c ∈ l.head?, unicodeSpace c = false)
    (hp : matchAt p l = some cs) : matchAt (.many unicodeSpace :: p) (s ++ l) = some cs :=
  matchAt_many (fun c hc => space_of_blank (hs c hc)) hne hl hp

variable (nd) in
/-- The pattern of a row of numbers. -/
def rowPattern : ℕ → List Part
  | 0 => []
  | 1 => [.group (unicodeDigit nd)]
  | n + 2 => .group (unicodeDigit nd) :: .many unicodeSpace :: rowPattern (n + 1)

variable (nd) in
theorem matchAt_row {ns : List ℕ} {l : List Char} (h : Row ns l) :
    (∀ c ∈ l.head?, unicodeSpace c = false) ∧
      ∃ cs, matchAt (rowPattern nd ns.length) l = some cs ∧ List.Forall₂ IsNumeral ns cs := by
  induction h with
  | last ha hs =>
    exact ⟨not_space_head ha, _, matchAt_numeral ha (not_digit_head hs) rfl, .cons ha .nil⟩
  | @cons n ns a s l ha hs hne hl ih =>
    obtain ⟨hspace, cs, hmatch, hcs⟩ := ih
    refine ⟨not_space_head ha, a :: cs, ?_, .cons ha hcs⟩
    cases ns with
    | nil => cases hl
    | cons m ns =>
      refine matchAt_numeral ha ?_ (matchAt_blanks hs hne hspace hmatch)
      rw [List.head?_append_of_ne_nil _ hne]
      exact not_digit_head hs

theorem captures_row {s l : List Char} {p : List Part} {cs : List (List Char)}
    (hs : ∀ c ∈ s, blank c = true) (h : matchAt (.group (unicodeDigit nd) :: p) l = some cs) :
    captures (.group (unicodeDigit nd) :: p) (s ++ l) = some cs :=
  captures_group_skip (fun c hc => not_digit_of_blank (hs c hc)) (captures_of_matchAt h)

theorem not_digit_blank_head (l : List Char) :
    ∀ c ∈ ([' '] ++ l).head?, unicodeDigit nd c = false :=
  fun c hc => by
    cases hc
    rfl

theorem captures_inv {x z : ℕ} {a b : List Char} (hx : IsNumeral x a) (hz : IsNumeral z b)
    (s : List Char) :
    captures (invPattern nd) ("1 1 ".toList ++ (a ++ ([' '] ++ (b ++ (" INV".toList ++ s))))) =
      some [a, b] := by
  refine captures_of_matchAt (matchAt_text (matchAt_numeral hx (not_digit_blank_head _) ?_))
  exact matchAt_text (matchAt_numeral hz (not_digit_blank_head ("INV".toList ++ s))
    (matchAt_text rfl))

theorem captures_gate {x y z : ℕ} {a b d : List Char} (typ : GateType) (hx : IsNumeral x a)
    (hy : IsNumeral y b) (hz : IsNumeral z d) (s : List Char) :
    captures (gatePattern nd)
        ("2 1 ".toList ++ (a ++ ([' '] ++ (b ++ ([' '] ++ (d ++ ([' '] ++ (typ.name ++ s)))))))) =
      some [a, b, d, typ.name] := by
  refine captures_of_matchAt (matchAt_text (matchAt_numeral hx (not_digit_blank_head _) ?_))
  refine matchAt_text (matchAt_numeral hy (not_digit_blank_head _) ?_)
  refine matchAt_text (matchAt_numeral hz (not_digit_blank_head _) (matchAt_text ?_))
  cases typ with
  | andGate => exact matchAt_oneOf [] nofun rfl
  | xorGate =>
    refine matchAt_oneOf ["AND".toList] (fun v hv => ?_) rfl
    rw [List.mem_singleton.1 hv]
    rintro ⟨t, ht⟩
    cases ht

theorem regex2captures_eq {re : List Part} {l : List Char} {cs : List (List Char)}
    (h : captures re l = some cs) : regex2captures re l = .ok cs := by
  rw [regex2captures, h]

theorem readLine_eq {raw : List UInt8} {reader : List (List UInt8)} {l : List Char}
    (h : decode raw = some l) : readLine (raw :: reader) = .ok (l, reader) := by
  rw [readLine, h]

theorem GateLine.eq_of_parseInstr {i j : Instr} {l : List Char} (h : GateLine i l)
    (hj : parseInstr nd l = .ok j) : j = i := by
  cases h with
  | @inv _ _ _ _ s hx hz _ =>
    change (regex2captures (invPattern nd) _ >>= _) = _ at hj
    rw [regex2captures_eq (captures_inv hx hz s), ok_bind] at hj
    obtain ⟨x', hx', hj⟩ := exists_of_bind hj
    obtain ⟨z', hz', hj⟩ := exists_of_bind hj
    cases hj
    rw [hx.eq_of_cap2int rfl hx', hz.eq_of_cap2int rfl hz']
  | @gate typ _ _ _ _ _ _ s hx hy hz _ =>
    change (regex2captures (gatePattern nd) _ >>= _) = _ at hj
    rw [regex2captures_eq (captures_gate typ hx hy hz s), ok_bind] at hj
    obtain ⟨x', hx', hj⟩ := exists_of_bind hj
    obtain ⟨y', hy', hj⟩ := exists_of_bind hj
    obtain ⟨z', hz', hj⟩ := exists_of_bind hj
    obtain ⟨typ', htyp, hj⟩ := exists_of_bind hj
    cases hj
    have htyp' : typ' = typ := by
      cases typ <;> cases htyp <;> rfl
    rw [hx.eq_of_cap2int rfl hx', hy.eq_of_cap2int rfl hy', hz.eq_of_cap2int rfl hz', htyp']

theorem eq_of_parseHeader {c : Netlist} {first second third : List UInt8}
    {reader reader' : List (List UInt8)} {h : Header}
    (hfirst : NumberLine [c.header.ngates, c.header.nwires] first)
    (hsecond : NumberLine [c.header.n1, c.header.n2, c.header.n3] second)
    (hparse : parseHeader nd (first :: second :: third :: reader) = .ok (h, reader')) :
    h = c.header ∧ reader' = reader := by
  obtain ⟨s₁, l₁, hdecode₁, hs₁, hrow₁⟩ := hfirst
  obtain ⟨s₂, l₂, hdecode₂, hs₂, hrow₂⟩ := hsecond
  obtain ⟨-, cs₁, hmatch₁, hcs₁⟩ := matchAt_row nd hrow₁
  obtain ⟨-, cs₂, hmatch₂, hcs₂⟩ := matchAt_row nd hrow₂
  obtain _ | @⟨_, a₁, _, _, ha₁, _ | @⟨_, a₂, _, _, ha₂, _ | _⟩⟩ := hcs₁
  obtain _ | @⟨_, b₁, _, _, hb₁, _ | @⟨_, b₂, _, _, hb₂, _ | @⟨_, b₃, _, _, hb₃, _ | _⟩⟩⟩ := hcs₂
  have hcounts : regex2captures (countsPattern nd) (s₁ ++ l₁) = .ok [a₁, a₂] :=
    regex2captures_eq (captures_row hs₁ hmatch₁)
  have hsizes : regex2captures (sizesPattern nd) (s₂ ++ l₂) = .ok [b₁, b₂, b₃] :=
    regex2captures_eq (captures_row hs₂ hmatch₂)
  rw [parseHeader, readLine_eq hdecode₁, ok_bind] at hparse
  simp only [hcounts, ok_bind, readLine_eq hdecode₂, hsizes] at hparse
  obtain ⟨ngates, hngates, hparse⟩ := exists_of_bind hparse
  obtain ⟨nwires, hnwires, hparse⟩ := exists_of_bind hparse
  obtain ⟨n1, hn1, hparse⟩ := exists_of_bind hparse
  obtain ⟨n2, hn2, hparse⟩ := exists_of_bind hparse
  obtain ⟨n3, hn3, hparse⟩ := exists_of_bind hparse
  obtain ⟨⟨l₃, reader''⟩, hthird, hparse⟩ := exists_of_bind hparse
  obtain ⟨_, -, hparse⟩ := exists_of_bind hparse
  cases hparse
  have hreader : reader'' = reader := by
    unfold readLine at hthird
    simp only at hthird
    split at hthird
    · cases hthird
      rfl
    · cases hthird
  rw [ha₁.eq_of_cap2int rfl hngates, ha₂.eq_of_cap2int rfl hnwires, hb₁.eq_of_cap2int rfl hn1,
    hb₂.eq_of_cap2int rfl hn2, hb₃.eq_of_cap2int rfl hn3]
  exact ⟨rfl, hreader⟩

theorem GateLine.ne_nil {i : Instr} {l : List Char} (h : GateLine i l) : l ≠ [] := by
  cases h <;> simp

theorem gateLines_of_written {gates : List Instr} {body rest : List (List UInt8)}
    (hbody : List.Forall₂ (fun i raw => ∃ l, decode raw = some l ∧ GateLine i (chomp l)) gates body)
    (hrest : ∀ raw ∈ rest, ∃ l, decode raw = some l ∧ chomp l = []) :
    List.Forall₂ (fun line i => ∃ l, line = some l ∧ GateLine i l) (gateLines (body ++ rest))
      gates := by
  induction hbody with
  | nil =>
    cases rest with
    | nil => exact .nil
    | cons raw rest =>
      obtain ⟨l, hdecode, hempty⟩ := hrest raw List.mem_cons_self
      rw [List.nil_append, gateLines_of_empty hdecode hempty]
      exact .nil
  | cons hline _ ih =>
    obtain ⟨l, hdecode, hline⟩ := hline
    rw [List.cons_append, gateLines_of_line hdecode hline.ne_nil]
    exact .cons ⟨_, rfl, hline⟩ ih

/-- The circuit of a netlist. -/
def Netlist.toCircuit (c : Netlist) : BinaryCircuit :=
  { BinaryCircuit.withOutputs c.header c.header.n3 with
    gates := (BinaryCircuit.withOutputs c.header c.header.n3).gates ++ Instr.toGates 0 c.gates }

/-- A stream with a circuit written in it is parsed as this circuit, if its lines are taken and there
is room. -/
theorem Netlist.Written.parse_eq {c : Netlist} {bytes : List UInt8} (hc : c.Written bytes)
    {build : ParserBuild} {h : Header} {reader : List (List UInt8)}
    (hheader : parseHeader nd (rawLines bytes) = .ok (h, reader)) (hfits : h.Fits build)
    (hroom : h.n1 + h.n2 + 1 + ((gateLines reader).takeWhile (accepts nd)).length ≤ build.room)
    (haccepts : ∀ line ∈ gateLines reader, accepts nd line = true) :
    h = c.header ∧ BinaryCircuit.parse nd build bytes = .ok c.toCircuit := by
  obtain ⟨first, second, third, body, rest, hraw, hfirst, hsecond, -, hbody, hrest⟩ := hc
  have hparse := BinaryCircuit.parse_of_fits hheader hfits
  rw [hraw] at hheader
  obtain ⟨rfl, rfl⟩ := eq_of_parseHeader hfirst hsecond hheader
  have hlines := gateLines_of_written hbody hrest
  refine ⟨rfl, hparse.trans (parseGates_eq ?_ ?_)⟩
  · refine List.forall₂_iff_zip.2 ⟨hlines.length_eq, fun {line i} hzip => ?_⟩
    obtain ⟨l, rfl, hline⟩ := (List.forall₂_iff_zip.1 hlines).2 hzip
    obtain ⟨-, j, hj⟩ | ⟨hrefused, -⟩ := accepts_cases nd l
    · exact ⟨l, rfl, by rw [hj, hline.eq_of_parseInstr hj]⟩
    · rw [haccepts _ (List.of_mem_zip hzip).1] at hrefused
      cases hrefused
  · rwa [BinaryCircuit.length_withOutputs, ← hlines.length_eq,
      ← List.takeWhile_eq_self_iff.2 haccepts]

end Reading

end EdaBitGen.FancyGarbling
