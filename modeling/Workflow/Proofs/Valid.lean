import Mathlib.Logic.Basic
import Workflow.Settings

/-!
# What valid settings ensure

Which settings are valid, and when the spans of time exist that are computed from settings. Valid
ones need not have a time after which a lease has expired: that is not checked.
-/

set_option autoImplicit false

namespace Workflow

namespace Span

theorem add?_eq_none_iff {a b : Span} :
    a.add? b = none ↔ UInt64.size * perSecond ≤ a.nanos + b.nanos := by
  have hadd : a.add? b = if (⟨a.nanos + b.nanos⟩ : Span).fits then some ⟨a.nanos + b.nanos⟩
    else none := rfl
  rw [hadd, fits, ite_eq_right_iff]
  simp

theorem exists_clamp? {low high : Span} (h : ¬ high < low) (d : Span) :
    ∃ e, d.clamp? low high = some e ∧ low ≤ e ∧ e ≤ high := by
  have hbounds : low.nanos ≤ high.nanos := Nat.not_lt.1 h
  refine ⟨_, if_neg h, ?_⟩
  split
  next => exact ⟨Nat.le_refl _, hbounds⟩
  next hlow =>
    split
    next => exact ⟨hbounds, Nat.le_refl _⟩
    next hhigh => exact ⟨Nat.not_lt.1 hlow, Nat.not_lt.1 hhigh⟩

end Span

/-! ### What is checked -/

theorem firstInvalid_eq_ok_iff {checks : List (Bool × Invalid)} :
    firstInvalid checks = .ok () ↔ ∀ check ∈ checks, check.1 = false := by
  induction checks with
  | nil => exact ⟨nofun, fun _ => rfl⟩
  | cons check rest ih =>
    obtain ⟨wrong, why⟩ := check
    rw [firstInvalid, List.forall_mem_cons, ← ih]
    cases wrong with
    | true => exact ⟨nofun, fun h => nomatch h.1⟩
    | false => exact ⟨fun h => ⟨rfl, h⟩, fun h => h.2⟩

theorem RecovererSettings.validate_eq_ok_iff {c : RecovererSettings} :
    c.validate = .ok () ↔ c.metaId.isEmpty = false ∧ ¬ c.maxRetryAfter < c.minRetryAfter ∧
      c.headInterval.isZero = false ∧ c.tailInterval.isZero = false := by
  simp [validate, firstInvalid_eq_ok_iff]

theorem DelayerSettings.validate_eq_ok_iff {c : DelayerSettings} :
    c.validate = .ok () ↔ c.metaId.isEmpty = false ∧ c.fireInterval.isZero = false ∧
      c.horizonInterval.isZero = false ∧ c.freshnessInterval.isZero = false ∧
      c.maxTracked ≠ 0 := by
  simp [validate, firstInvalid_eq_ok_iff, and_assoc]

theorem RecovererSettings.exists_retryAfter? {c : RecovererSettings} (hvalid : c.validate = .ok ())
    (requested : Option Span) :
    ∃ after, c.retryAfter? requested = some after ∧
      c.minRetryAfter ≤ after ∧ after ≤ c.maxRetryAfter :=
  Span.exists_clamp? (validate_eq_ok_iff.1 hvalid).2.1 _

end Workflow
