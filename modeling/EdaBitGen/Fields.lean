import EdaBitGen.Scuttlebutt

/-!
# The fields of the protocols and their messages

The bits `F2`, the prime field `F61p`, and the messages and draws that carry values of `F2`, of its
extension `K`, of a prime field `F`, and seeds.
-/

namespace EdaBitGen

abbrev F2 := ZMod 2

abbrev F61p := ZMod (2 ^ 61 - 1)

instance factPrimeModulus : Fact (Nat.Prime (2 ^ 61 - 1)) :=
  ⟨lucas_lehmer_sufficiency 61 (by norm_num) (by norm_num)⟩

/-- A prime field is of degree one over itself. -/
instance (p : ℕ) [Fact p.Prime] : FiniteField (ZMod p) (ZMod p) where
  finite := inferInstance
  degree := 1
  fromSubfield := LinearEquiv.funUnique (Fin 1) (ZMod p) (ZMod p)

/-- The binary field of degree 40. -/
abbrev F40b := GaloisField 2 40

noncomputable instance : FiniteField F2 F40b where
  finite := inferInstance
  degree := 40
  fromSubfield :=
    (Module.finBasisOfFinrankEq F2 F40b (GaloisField.finrank 2 (by norm_num))).equivFun.symm

noncomputable instance : DecidableEq F40b := Classical.decEq F40b

/-- A message: a sequence of values of one type. -/
inductive Msg (K F : Type) where
  | bits (xs : List F2)
  | exts (xs : List K)
  | fields (xs : List F)
  | blocks (xs : List Block)

/-- Messages that carry sequences of `X` carry single values too. -/
@[reducible] def CanonicalSerialize.ofSeq {M X : Type} (wrap : List X → M)
    (unwrap : M → Option (List X)) (h : ∀ xs, unwrap (wrap xs) = some xs) :
    CanonicalSerialize M X where
  toMsg x := wrap [x]
  ofMsg m := (unwrap m).bind fun
    | [x] => some x
    | _ => none
  seqToMsg := wrap
  seqOfMsg := unwrap
  ofMsg_toMsg x := by rw [h, Option.bind_some]
  seqOfMsg_seqToMsg := h

namespace Msg

variable {K F : Type}

instance : CanonicalSerialize (Msg K F) F2 :=
  .ofSeq bits (fun | bits xs => some xs | _ => none) fun _ => rfl

instance : CanonicalSerialize (Msg K F) K :=
  .ofSeq exts (fun | exts xs => some xs | _ => none) fun _ => rfl

instance : CanonicalSerialize (Msg K F) F :=
  .ofSeq fields (fun | fields xs => some xs | _ => none) fun _ => rfl

instance : CanonicalSerialize (Msg K F) Block :=
  .ofSeq blocks (fun | blocks xs => some xs | _ => none) fun _ => rfl

end Msg

/-- A draw of a generator, before it is read as a value of one type. -/
structure Draw (K F : Type) where
  bit : F2
  ext : K
  field : F
  block : Block
  index : ℕ

namespace Draw

variable {K F : Type}

instance [Zero K] [Zero F] : Random (Draw K F) F2 :=
  ⟨bit, fun x => ⟨⟨x, 0, 0, 0, 0⟩, rfl⟩⟩

instance [Zero F] : Random (Draw K F) K :=
  ⟨ext, fun x => ⟨⟨0, x, 0, 0, 0⟩, rfl⟩⟩

instance [Zero K] : Random (Draw K F) F :=
  ⟨field, fun x => ⟨⟨0, 0, x, 0, 0⟩, rfl⟩⟩

instance [Zero K] [Zero F] : Random (Draw K F) Block :=
  ⟨block, fun x => ⟨⟨0, 0, 0, x, 0⟩, rfl⟩⟩

end Draw

end EdaBitGen
