import EdaBitGen.Inferno.Hiding

/-!
# The wires of a circuit

Every wire after the inputs is what its gate computes from all wires.
-/

namespace EdaBitGen.Inferno

variable {F : Type} [Field F]

/-- What a gate computes from the wires. -/
def opValue (w : ℕ → F) : Op F → F
  | .add i j => w i + w j
  | .mul i j => w i * w j
  | .sub i j => w i - w j
  | .constant f => f
  | .copy i => w i

theorem opValue_congr {w w' : ℕ → F} {op : Op F} (h : ∀ i ∈ op.args, w i = w' i) :
    opValue w op = opValue w' op := by
  cases op with
  | add i j => simp [opValue, h i (by simp [Op.args]), h j (by simp [Op.args])]
  | mul i j => simp [opValue, h i (by simp [Op.args]), h j (by simp [Op.args])]
  | sub i j => simp [opValue, h i (by simp [Op.args]), h j (by simp [Op.args])]
  | constant f => rfl
  | copy i => simp [opValue, h i (by simp [Op.args])]

/-- Add the wire of a gate. -/
def addWire (ws : List F) (op : Op F) : List F := ws ++ [opValue (ws.getD · 0) op]

theorem wires_eq (c : Circuit F) (inp : List F) :
    c.wires inp = c.ops.foldl addWire inp := by
  rw [Circuit.wires]
  congr 1

theorem getD_foldl_addWire_of_lt (ops : List (Op F)) {ws : List F} {k : ℕ} (hk : k < ws.length) :
    (ops.foldl addWire ws).getD k 0 = ws.getD k 0 := by
  induction ops generalizing ws with
  | nil => rfl
  | cons op ops ih =>
    rw [List.foldl_cons, ih, addWire, List.getD_append _ _ _ _ hk]
    rw [addWire, List.length_append]
    omega

theorem getD_foldl_addWire {ops : List (Op F)} {ws : List F}
    (hargs : ∀ s op, ops[s]? = some op → ∀ i ∈ op.args, i < ws.length + s) {s : ℕ} {op : Op F}
    (hop : ops[s]? = some op) :
    (ops.foldl addWire ws).getD (ws.length + s) 0 =
      opValue ((ops.foldl addWire ws).getD · 0) op := by
  induction ops generalizing ws s with
  | nil => cases hop
  | cons first ops ih =>
    have hlen : (addWire ws first).length = ws.length + 1 := by
      rw [addWire, List.length_append, List.length_singleton]
    cases s with
    | zero =>
      obtain rfl := Option.some.inj hop
      have hlt : ws.length < (addWire ws first).length := by omega
      rw [List.foldl_cons, Nat.add_zero, getD_foldl_addWire_of_lt _ hlt]
      have hlast : (addWire ws first).getD ws.length 0 = opValue (ws.getD · 0) first := by
        rw [addWire, List.getD_append_right _ _ _ _ le_rfl, Nat.sub_self]
        rfl
      rw [hlast]
      refine opValue_congr fun i hi => ?_
      have hi' : i < ws.length := hargs 0 first rfl i hi
      rw [getD_foldl_addWire_of_lt _ (by omega), addWire, List.getD_append _ _ _ _ hi']
    | succ s =>
      have hargs' : ∀ s op, ops[s]? = some op → ∀ i ∈ op.args, i < (addWire ws first).length + s := by
        intro s op hs i hi
        have h := hargs (s + 1) op hs i hi
        omega
      have h := ih hargs' (s := s) hop
      rw [hlen] at h
      rw [List.foldl_cons, ← h]
      congr 1
      omega

theorem getD_wires {c : Circuit F} {inp : List F} (hinp : inp.length = c.ninputs)
    {p : Op F × ℕ} (hp : p ∈ c.ops.zipIdx) :
    (c.wires inp).getD (p.2 + c.ninputs) 0 = opValue ((c.wires inp).getD · 0) p.1 := by
  have hargs : ∀ s op, c.ops[s]? = some op → ∀ i ∈ op.args, i < inp.length + s := by
    intro s op hs
    rw [hinp]
    exact c.args_lt (op, s) (List.mem_zipIdx_iff_getElem?.2 hs)
  have h := getD_foldl_addWire hargs (List.mem_zipIdx_iff_getElem?.1 hp)
  rw [wires_eq, Nat.add_comm, ← hinp]
  exact h

end EdaBitGen.Inferno
