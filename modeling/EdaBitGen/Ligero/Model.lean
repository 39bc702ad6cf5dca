import EdaBitGen.Inferno.Model
import EdaBitGen.Ligero.Transcript
import EdaBitGen.Ligero.Params

/-!
# The proof of a circuit

The extended witness is what is on all wires, and then a mask for the witness that is shared with
another proof.  The verifier checks that random combinations of the rows of the interleaved code are
a codeword, that the linear constraints of the circuit hold and that the products are right, each at
the columns that it opens.  A failed assertion and an index out of range are `none`.
-/

namespace EdaBitGen.Ligero

open Inferno (Circuit Op)

variable {F : Type} [Field F]

/-! ## Matrices and vectors -/

/-- Entries with their rows and columns; entries at one place are added. -/
abbrev TriMat (F : Type) := List (ℕ × ℕ × F)

/-- The combination of the rows of a matrix with the given coefficients. -/
def TriMat.combine (P : TriMat F) (ncols : ℕ) (ra : List F) : List F :=
  (List.range ncols).map fun c =>
    ((P.filter fun e => e.2.1 = c).map fun e => e.2.2 * ra.getD e.1 0).sum

/-- The product of two vectors of one length. -/
def dot (xs ys : List F) : Option F :=
  if xs.length = ys.length then some (List.zipWith (· * ·) xs ys).sum else none

/-- Check all, and stop at the first that fails. -/
def checkAll {α : Type} (check : α → Option Bool) : List α → Option Bool
  | [] => some true
  | x :: xs => do if ← check x then checkAll check xs else some false

theorem checkAll_some {α : Type} {check : α → Option Bool} {p : α → Bool} {xs : List α}
    (h : ∀ x ∈ xs, check x = some (p x)) : checkAll check xs = some (xs.all p) := by
  induction xs with
  | nil => rfl
  | cons x xs ih =>
    rw [checkAll, h x List.mem_cons_self, ih fun y hy => h y (List.mem_cons_of_mem _ hy)]
    cases hx : p x <;> simp [hx]

theorem zipWith_ofFn {α β γ : Type} (op : α → β → γ) {m : ℕ} (f : Fin m → α) (g : Fin m → β) :
    List.zipWith op (List.ofFn f) (List.ofFn g) = List.ofFn fun i => op (f i) (g i) := by
  rw [List.ofFn_eq_map, List.ofFn_eq_map, List.ofFn_eq_map, List.zipWith_map, List.zipWith_self]

theorem zip_map_self {α β : Type} (f : α → β) (xs : List α) :
    xs.zip (xs.map f) = xs.map fun x => (x, f x) := by
  induction xs with
  | nil => rfl
  | cons x xs ih => rw [List.map_cons, List.zip_cons_cons, ih, List.map_cons]

theorem dot_ofFn {m : ℕ} (f g : Fin m → F) :
    dot (List.ofFn f) (List.ofFn g) = some (∑ i, f i * g i) := by
  rw [dot, if_pos (by simp), zipWith_ofFn, List.sum_ofFn]

/-- The entries of the rows at a column. -/
def column (rows : List (List F)) (j : ℕ) : List F := rows.map fun row => row.getD j 0

/-! ## Constraints -/

/-- Some consecutive wires. -/
structure Range where
  start : ℕ
  stop : ℕ

namespace Range

def len (r : Range) : ℕ := r.stop - r.start

def indices (r : Range) : List ℕ := List.range' r.start r.len

end Range

structure Public (F : Type) [Field F] [FieldForLigero F] where
  params : Params F
  shared : Range
  sharedMask : Range
  Px : TriMat F
  Py : TriMat F
  Pz : TriMat F
  Padd : TriMat F
  badd : List F

/-- The linear constraint of a gate on the wire `k`. -/
def linear (k : ℕ) : Op F → TriMat F
  | .add i j => [(k, i, 1), (k, j, 1), (k, k, -1)]
  | .mul _ _ => []
  | .sub i j => [(k, i, 1), (k, j, -1), (k, k, -1)]
  | .constant _ => [(k, k, 1)]
  | .copy i => [(k, i, 1), (k, k, -1)]

/-- The left inputs, the right inputs and the outputs of the products. -/
def products (pick : ℕ → ℕ → ℕ → ℕ) (k : ℕ) : Op F → TriMat F
  | .mul i j => [(k, pick i j k, 1)]
  | _ => []

/-- The entries of all gates. -/
def gateEntries (c : Circuit F) (gate : ℕ → Op F → TriMat F) : TriMat F :=
  c.ops.zipIdx.flatMap fun op => gate (op.2 + c.ninputs) op.1

/-- Write the constant of a gate. -/
def setConstant (ninputs : ℕ) (badd : List F) (op : Op F × ℕ) : List F :=
  match op.1 with
  | .constant f => badd.set (op.2 + ninputs) f
  | _ => badd

/-- The constants of the linear constraints. -/
def constants (c : Circuit F) (ml : ℕ) : List F :=
  c.ops.zipIdx.foldl (setConstant c.ninputs) (List.replicate ml 0)

variable [FieldForLigero F]

namespace Public

def numSharedChecks : ℕ := 1

def new (c : Circuit F) (shared : Option Range) : Option (Public F) := do
  let nwires := c.ops.length + c.ninputs
  -- the constraint that the last wire is zero has no column in an empty circuit
  if nwires = 0 then none
  else do
    let params ← Params.new (nwires + 1 + numSharedChecks)
    let ml := params.m * params.l
    some {
      params := params
      shared := shared.getD ⟨0, 0⟩
      sharedMask := ⟨nwires + 1, nwires + 1 + numSharedChecks⟩
      Px := gateEntries c (products fun i _ _ => i)
      Py := gateEntries c (products fun _ j _ => j)
      Pz := gateEntries c (products fun _ _ k => k)
      Padd := gateEntries c linear ++ [(nwires, nwires - 1, 1)]
      badd := constants c ml }

/-- Add the shared checks to the linear constraints. -/
def finalizePadd (pub : Public F) (rshared : List (List F)) (qshared : List F) :
    Option (Public F) :=
  if (∀ row ∈ rshared, row.length = pub.shared.len) ∧ rshared.length = pub.sharedMask.len ∧
      qshared.length = pub.sharedMask.len ∧ ∀ s ∈ pub.shared.indices, s < pub.badd.length then
    some { pub with
      Padd := pub.Padd ++ (pub.sharedMask.indices.zip rshared).flatMap fun row =>
        List.zipWith (fun s r => (row.1, s, r)) pub.shared.indices row.2 ++ [(row.1, row.1, 1)]
      badd := pub.badd.take pub.sharedMask.start ++ qshared ++ pub.badd.drop pub.sharedMask.stop }
  else none

end Public

/-! ## Combinations -/

/-- The coefficients of the polynomials with the combined constraints as rows. -/
def makeRa (params : Params F) (ra : List F) (Pa : TriMat F) : List (List F) :=
  (Chunks.exact params.l (Pa.combine (params.m * params.l) ra)).map params.fft2Inverse

/-- The same for the constraints that a vector is the product of a matrix and the witness. -/
def makeRaImlPaNeg (params : Params F) (ra : List F) (Pa : TriMat F) : List (List F) :=
  let rDotP := TriMat.combine (Pa.map fun e => (e.1, e.2.1, -e.2.2)) (params.m * params.l) ra
  (Chunks.exact params.l (ra ++ rDotP)).map params.fft2Inverse

/-- The polynomials of codewords. -/
def makePa (params : Params F) (Ua : List (List F)) : List (List F) :=
  Ua.map fun row => (params.fft3Inverse row).take (params.k + 1)

/-- The polynomial of the combined linear constraints, with a blinding codeword. -/
def makeQadd (params : Params F) (uadd : List F) (p : List (List F)) (Padd : TriMat F)
    (radd : List F) : List F :=
  ((makeRa params radd Padd).zip p).foldl (fun acc rp => padd acc (params.pmul2 rp.1 rp.2))
    (params.fft3Inverse uadd)

/-- The polynomial of the combined constraints on the inputs or outputs of the products. -/
def makeQa (params : Params F) (p : List (List F)) (Pa : TriMat F) (Ua : List (List F))
    (ua ra : List F) : List F :=
  let pa := Ua.map params.fft3Inverse
  ((makeRaImlPaNeg params ra Pa).zip (pa ++ p)).foldl (fun acc rp =>
    padd acc (params.pmul2 (rp.1.take (params.k + 1)) (rp.2.take (params.k + 1))))
    (params.fft3Inverse ua)

/-- The polynomial of the combined products. -/
def makeP0 (params : Params F) (u0 : List F) (px py pz : List (List F)) (rq : List F) : List F :=
  (rq.zip (px.zip (py.zip pz))).foldl (fun acc row =>
    padd acc ((psub (params.pmul2 row.2.1 row.2.2.1) row.2.2.2).map (· * row.1)))
    (params.fft3Inverse u0)

/-- The values of the shared checks. -/
def makeQshared (w : List F) (shared mask : Range) (rshared : List (List F)) : List F :=
  List.zipWith (fun row x => (List.zipWith (· * ·) row
    ((w.drop shared.start).take shared.len)).sum + x) rshared ((w.drop mask.start).take mask.len)

/-! ## Verification -/

variable [DecidableEq F]

/-- The opened columns are those of the combined codeword. -/
def codeCheck (r v : List F) (Q : List ℕ) (U : List (List F)) (u : List F) : Option Bool :=
  checkAll (fun (j, U_j, u_j) => do some (decide ((← dot r U_j) + u_j = (← v[j]?))))
    (Q.zip (U.zip u))

/-- The sum at the secrets' points. -/
def sumAtSecrets (params : Params F) (q : List F) : F :=
  (((params.fft2Peval q).drop 1).take params.l).sum

/-- The combination of opened rows is the value of the polynomial, at each opened column. -/
def openedCheck (params : Params F) (ra : List (List F)) (q : List F) (Q : List ℕ)
    (Ua : List (List F)) (ua : List F) : Option Bool :=
  let points := ra.map params.fft3
  checkAll (fun (j, Ua_j, ua_j) => do
    some (decide (ua_j + (← dot (column points j) Ua_j) = params.peval3 q (j + 1))))
    (Q.zip (Ua.zip ua))

def additionCheck (pub : Public F) (radd qadd : List F) (Q : List ℕ) (Uw : List (List F))
    (uadd : List F) : Option Bool := do
  let params := pub.params
  if sumAtSecrets params qadd = (← dot pub.badd radd) then
    openedCheck params (makeRa params radd pub.Padd) qadd Q Uw uadd
  else some false

/-- The products are right at the secrets' points and at the opened columns. -/
def quadraticCheck (params : Params F) (rq p0 : List F) (Q : List ℕ) (u0 : List F)
    (Ux Uy Uz : List (List F)) : Option Bool :=
  if ((params.fft2Peval p0).take params.l).tail.all (· = 0) then
    checkAll (fun (j, u0_j, Ux_j, Uy_j, Uz_j) => do
      let Uxyz_j := List.zipWith (· - ·) (List.zipWith (· * ·) Ux_j Uy_j) Uz_j
      some (decide (u0_j + (← dot rq Uxyz_j) = params.peval3 p0 (j + 1))))
      (Q.zip (u0.zip (Ux.zip (Uy.zip Uz))))
  else some false

def multiplicationCheck (pub : Public F) (r1 : Round1 F) (r2 : Round2 F) (Q : List ℕ)
    (Uw Ux Uy Uz : List (List F)) (ux uy uz u0 : List F) : Option Bool := do
  let params := pub.params
  if sumAtSecrets params r2.qx = 0 ∧ sumAtSecrets params r2.qy = 0 ∧
      sumAtSecrets params r2.qz = 0 then
    let with_w := List.zipWith (· ++ ·)
    if ← openedCheck params (makeRaImlPaNeg params r1.rx pub.Px) r2.qx Q (with_w Ux Uw) ux then
      if ← openedCheck params (makeRaImlPaNeg params r1.ry pub.Py) r2.qy Q (with_w Uy Uw) uy then
        if ← openedCheck params (makeRaImlPaNeg params r1.rz pub.Pz) r2.qz Q (with_w Uz Uw) uz then
          quadraticCheck params r1.rq r2.p0 Q u0 Ux Uy Uz
        else some false
      else some false
    else some false
  else some false

end EdaBitGen.Ligero
