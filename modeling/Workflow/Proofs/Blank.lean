import Mathlib.Data.List.TakeWhile
import Workflow.Text.Blank

/-!
# Trimming

Trimming takes the blanks off both ends of a text, and leaves all that stands between other
characters.
-/

set_option autoImplicit false

namespace Workflow.Text

/-- The text neither starts nor ends with a blank. -/
structure Trimmed (cs : List Char) : Prop where
  first : ∀ c, cs.head? = some c → isBlank c = false
  last : ∀ c, cs.getLast? = some c → isBlank c = false

/-- The first text is the second one with blanks around it, which has none at its ends itself. -/
structure Trims (cs inner : List Char) : Prop where
  trimmed : Trimmed inner
  around : ∃ before after, (∀ c ∈ before, isBlank c = true) ∧ (∀ c ∈ after, isBlank c = true) ∧
    cs = before ++ inner ++ after

theorem isBlank_of_isDigit {c : Char} (h : c.isDigit = true) : isBlank c = false := by
  rw [Char.isDigit, Bool.and_eq_true, decide_eq_true_iff, decide_eq_true_iff] at h
  have hlow : 48 ≤ c.toNat := h.1
  have hhigh : c.toNat ≤ 57 := h.2
  simp only [isBlank]
  simp
  omega

/-! ### One end -/

theorem trimStart_append {before : List Char} (h : ∀ c ∈ before, isBlank c = true)
    (rest : List Char) : trimStart (before ++ rest) = trimStart rest :=
  List.dropWhile_append_of_pos h

theorem trimStart_of_not_blank {c : Char} (hc : isBlank c = false) (rest : List Char) :
    trimStart (c :: rest) = c :: rest :=
  List.dropWhile_cons_of_neg (by simp [hc])

theorem trimStart_of_first {cs : List Char} (h : ∀ c, cs.head? = some c → isBlank c = false) :
    trimStart cs = cs := by
  cases cs with
  | nil => rfl
  | cons c rest => exact trimStart_of_not_blank (h c rfl) rest

theorem head?_trimStart (cs : List Char) {c : Char} (h : (trimStart cs).head? = some c) :
    isBlank c = false := by
  have hnot := List.head?_dropWhile_not isBlank cs
  rw [show (cs.dropWhile isBlank).head? = some c from h] at hnot
  exact hnot

theorem exists_trimStart (cs : List Char) :
    ∃ before, (∀ c ∈ before, isBlank c = true) ∧ cs = before ++ trimStart cs :=
  ⟨cs.takeWhile isBlank, fun _ hc => List.mem_takeWhile_imp hc,
    List.takeWhile_append_dropWhile.symm⟩

/-! ### Both ends -/

theorem trim_eq_of_trims {cs inner : List Char} (h : Trims cs inner) : trim cs = inner := by
  obtain ⟨⟨hfirst, hlast⟩, before, after, hbefore, hafter, rfl⟩ := h
  rw [trim, List.append_assoc, trimStart_append hbefore]
  cases inner with
  | nil =>
    have hnone : trimStart after = [] := List.dropWhile_eq_nil_iff.2 hafter
    rw [List.nil_append, hnone]
    rfl
  | cons c rest =>
    have hstart : trimStart (c :: rest ++ after) = c :: rest ++ after :=
      trimStart_of_first fun d hd => hfirst d hd
    have hend : ∀ d ∈ after.reverse, isBlank d = true :=
      fun d hd => hafter d (List.mem_reverse.1 hd)
    rw [hstart, List.reverse_append, trimStart_append hend,
      trimStart_of_first fun d hd => hlast d (List.head?_reverse ▸ hd), List.reverse_reverse]

theorem trims_trim (cs : List Char) : Trims cs (trim cs) := by
  obtain ⟨before, hbefore, hstart⟩ := exists_trimStart cs
  obtain ⟨after, hafter, hend⟩ := exists_trimStart (trimStart cs).reverse
  have hinner : trimStart cs = trim cs ++ after.reverse := by
    rw [trim, ← List.reverse_append, ← hend, List.reverse_reverse]
  refine ⟨⟨fun c hc => ?_, fun c hc => ?_⟩, before, after.reverse, hbefore, fun c hc => ?_, ?_⟩
  · refine head?_trimStart cs ?_
    rw [hinner, List.head?_append, hc]
    rfl
  · rw [trim, List.getLast?_reverse] at hc
    exact head?_trimStart _ hc
  · exact hafter c (List.mem_reverse.1 hc)
  · rw [List.append_assoc, ← hinner, ← hstart]

theorem trim_eq_iff {cs inner : List Char} : trim cs = inner ↔ Trims cs inner := by
  constructor
  · rintro rfl
    exact trims_trim cs
  · exact trim_eq_of_trims

theorem Trimmed.trims {cs : List Char} (h : Trimmed cs) : Trims cs cs :=
  ⟨h, [], [], List.forall_mem_nil _, List.forall_mem_nil _, (List.append_nil cs).symm⟩

end Workflow.Text
