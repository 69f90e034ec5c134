import Workflow.SortedMap

/-!
# Identities

States, steps and blobs are named by texts. The kind of thing is part of an identity's type, so that
the name of a state is never taken for the name of a step.
-/

set_option autoImplicit false

namespace Workflow

inductive IdentKind where
  | state
  | step
  | blob

structure Ident (kind : IdentKind) where
  /-- The name; the empty one names nothing. -/
  text : String
  deriving DecidableEq, Repr

abbrev StateId := Ident .state

abbrev StepId := Ident .step

abbrev BlobId := Ident .blob

namespace Ident

variable {kind : IdentKind}

def isEmpty (id : Ident kind) : Bool := id.text.isEmpty

instance : Inhabited (Ident kind) := ⟨⟨""⟩⟩

instance : ToString (Ident kind) := ⟨Ident.text⟩

/-- Names are ordered by their code points. -/
instance : Ord (Ident kind) := ⟨fun a b => compare a.text b.text⟩

theorem compare_def (a b : Ident kind) : compare a b = compare a.text b.text := rfl

instance : Std.TransOrd (Ident kind) where
  eq_swap := by
    intro a b
    simp only [compare_def]
    exact Std.OrientedCmp.eq_swap
  isLE_trans := by
    intro a b c
    simp only [compare_def]
    exact Std.TransCmp.isLE_trans

instance : Std.LawfulEqOrd (Ident kind) where
  compare_self := by
    intro a
    simp only [compare_def]
    exact Std.ReflCmp.compare_self
  eq_of_compare := by
    intro a b h
    have h : a.text = b.text := by
      rw [compare_def] at h
      exact Std.LawfulEqOrd.eq_of_compare h
    cases a
    cases b
    exact congrArg Ident.mk h

end Ident

end Workflow
