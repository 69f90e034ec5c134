import Mathlib.Tactic.Common
import Workflow.Proofs.Looping
import Workflow.Proofs.Valid

/-!
# What breaks components with valid settings

A recoverer with valid settings goes on until it is told to stop, and so does a delayer, unless it
has no period for storing its watermark: that one is not checked. Neither starts if the time after
which a lease has expired cannot be represented.
-/

set_option autoImplicit false

namespace Workflow

namespace Scenario

open Event Script

theorem periodic_recovererDuties {c : RecovererSettings} (hvalid : c.validate = .ok ())
    (stale : Span) : ∀ d ∈ recovererDuties c stale, d.period.isZero = false := by
  obtain ⟨-, -, hhead, htail⟩ := RecovererSettings.validate_eq_ok_iff.1 hvalid
  intro d hd
  simp only [recovererDuties, List.mem_cons, List.not_mem_nil, or_false] at hd
  rcases hd with rfl | rfl
  · exact hhead
  · exact htail

/-- All periods of a delayer are checked but the one for storing the watermark. -/
theorem periodic_delayerDuties_iff {c : DelayerSettings} (hvalid : c.validate = .ok ())
    (stale : Span) :
    (∀ d ∈ delayerDuties c stale, d.period.isZero = false) ↔ c.commitInterval.isZero = false := by
  obtain ⟨-, hfire, hhorizon, hfresh, -⟩ := DelayerSettings.validate_eq_ok_iff.1 hvalid
  constructor
  · intro hall
    exact hall ⟨c.commitInterval, false, Delayer.storeWatermark c⟩ (by simp [delayerDuties])
  · intro hcommit d hd
    simp only [delayerDuties, List.mem_cons, List.not_mem_nil, or_false] at hd
    rcases hd with rfl | rfl | rfl | rfl
    · exact hhorizon
    · exact hfresh
    · exact hfire
    · exact hcommit

/-! ### Starting -/

variable {w : World}

theorem leads_startRecoverer_of_valid (key : Nat) {c : RecovererSettings}
    (hvalid : c.validate = .ok ()) :
    Leads (startRecoverer key c) w fun started v =>
      (started = none ↔ c.staleAfter? = none) ∧ ∀ own, started = some (.ok own) →
        ∃ r, v.recoverers.get? own = some r ∧ r.Unbroken := by
  unfold startRecoverer
  rw [hvalid]
  cases c.staleAfter? with
  | none => exact ⟨⟨fun _ => rfl, fun _ => rfl⟩, nofun⟩
  | some stale =>
    simp only [leads_bind]
    refine Leads.mono (P := fun _ _ => True) trivial fun r v _ => ?_
    obtain ⟨f | _, own⟩ := r
    · exact ⟨⟨nofun, nofun⟩, nofun⟩
    · refine ⟨⟨nofun, nofun⟩, fun key' hkey => ?_⟩
      obtain rfl := Except.ok.inj (Option.some.inj hkey)
      refine ⟨_, SortedMap.get?_insert_self .., ?_⟩
      exact Component.Periodic.unbroken (periodic_recovererDuties hvalid stale) nofun

theorem leads_startDelayer_of_valid (key : Nat) {c : DelayerSettings}
    (hvalid : c.validate = .ok ()) :
    Leads (startDelayer key c) w fun started v =>
      (started = none ↔ c.staleAfter? = none) ∧ ∀ own, started = some (.ok own) →
        ∃ d, v.delayers.get? own = some d ∧ (c.commitInterval.isZero = false → d.Unbroken) ∧
          (c.commitInterval.isZero = true → ∀ u, (d.goOn.run u).1.standing = .broken) := by
  unfold startDelayer
  rw [hvalid]
  cases c.staleAfter? with
  | none => exact ⟨⟨fun _ => rfl, fun _ => rfl⟩, nofun⟩
  | some stale =>
    simp only [leads_bind]
    refine Leads.mono (P := fun _ _ => True) trivial fun r v _ => ?_
    obtain ⟨f | _, own⟩ := r
    · exact ⟨⟨nofun, nofun⟩, nofun⟩
    · refine ⟨⟨nofun, nofun⟩, fun key' hkey => ?_⟩
      obtain rfl := Except.ok.inj (Option.some.inj hkey)
      refine ⟨_, SortedMap.get?_insert_self .., fun hcommit => ?_, fun hcommit u => ?_⟩
      · exact Component.Periodic.unbroken ((periodic_delayerDuties_iff hvalid stale).2 hcommit)
          nofun
      · refine Component.standing_goOn_of_not_periodic rfl (fun hall => ?_) u
        have hnot := (periodic_delayerDuties_iff hvalid stale).1 hall
        cases hcommit.symm.trans hnot

/-- With valid settings there is a time for every state to be tried again, and the loop of a
recoverer never breaks. That of a delayer breaks at its first turn if the period for storing the
watermark is zero, and else never. Both break at their start exactly if the time after which a lease
has expired cannot be represented. -/
theorem valid_settings_break_only_unchecked {r : RecovererSettings} {d : DelayerSettings}
    (hr : r.validate = .ok ()) (hd : d.validate = .ok ()) (key : Nat) (w : World) :
    let recoverer := (startRecoverer key r).run w
    let delayer := (startDelayer key d).run w
    (∀ requested, ∃ after, r.retryAfter? requested = some after ∧
      r.minRetryAfter ≤ after ∧ after ≤ r.maxRetryAfter) ∧
    (recoverer.1 = none ↔
      UInt64.size * Span.perSecond ≤ r.failoverWindow.nanos + r.failoverMargin.nanos) ∧
    (∀ own, recoverer.1 = some (.ok own) →
      ∃ c, recoverer.2.recoverers.get? own = some c ∧ c.Unbroken) ∧
    (delayer.1 = none ↔
      UInt64.size * Span.perSecond ≤ d.failoverWindow.nanos + d.failoverMargin.nanos) ∧
    ∀ own, delayer.1 = some (.ok own) →
      ∃ c, delayer.2.delayers.get? own = some c ∧
        (d.commitInterval.isZero = false → c.Unbroken) ∧
        (d.commitInterval.isZero = true → ∀ u, (c.goOn.run u).1.standing = .broken) := by
  intro recoverer delayer
  obtain ⟨hstart, hloop⟩ := leads_startRecoverer_of_valid (w := w) key hr
  obtain ⟨hstart', hloop'⟩ := leads_startDelayer_of_valid (w := w) key hd
  exact ⟨r.exists_retryAfter? hr, hstart.trans Span.add?_eq_none_iff, hloop,
    hstart'.trans Span.add?_eq_none_iff, hloop'⟩

/-- The usual settings, in a world without anything else. -/
theorem valid_settings_break_only_unchecked_of_usual :
    let r : RecovererSettings := { holder := "r" }
    let d : DelayerSettings := { holder := "d" }
    let w : World := .new default .direct default ∅
    r.validate = .ok () ∧ d.validate = .ok () ∧
      (∃ after, r.retryAfter? (some (.ofSecs 5)) = some after ∧ r.minRetryAfter ≤ after) ∧
      (∃ own c, ((startRecoverer 0 r).run w).1 = some (.ok own) ∧
        ((startRecoverer 0 r).run w).2.recoverers.get? own = some c ∧ c.Unbroken) ∧
      ∃ own c, ((startDelayer 0 d).run w).1 = some (.ok own) ∧
        ((startDelayer 0 d).run w).2.delayers.get? own = some c ∧ c.Unbroken := by
  intro r d w
  have hr : ((startRecoverer 0 r).run w).1 = some (.ok 1) := by decide +kernel
  have hd : ((startDelayer 0 d).run w).1 = some (.ok 1) := by decide +kernel
  obtain ⟨hretry, -, hrecoverer, -, hdelayer⟩ :=
    valid_settings_break_only_unchecked (r := r) (d := d) rfl rfl 0 w
  obtain ⟨after, hafter, hmin, -⟩ := hretry (some (.ofSecs 5))
  obtain ⟨c, hc, hunbroken⟩ := hrecoverer 1 hr
  obtain ⟨c', hc', hunbroken', -⟩ := hdelayer 1 hd
  exact ⟨rfl, rfl, ⟨after, hafter, hmin⟩, ⟨1, c, hr, hc, hunbroken⟩, 1, c', hd, hc',
    hunbroken' rfl⟩

/-- A delayer that is to store its watermark all the time has valid settings and starts, and then
its loop breaks. A recoverer with the longest span before it takes over, and a margin, has valid
settings and breaks at its start. -/
theorem valid_settings_break :
    let d : DelayerSettings := { holder := "d", commitInterval := .zero }
    let r : RecovererSettings :=
      { holder := "r", failoverWindow := .ofSecs (UInt64.size - 1), failoverMargin := .ofSecs 1 }
    let w : World := .new default .direct default ∅
    d.validate = .ok () ∧ ((startDelayer 0 d).run w).1 = some (.ok 1) ∧
      (∃ c, ((startDelayer 0 d).run w).2.delayers.get? 1 = some c ∧
        ∀ u, (c.goOn.run u).1.standing = .broken) ∧
      r.validate = .ok () ∧ ((startRecoverer 0 r).run w).1 = none := by
  intro d r w
  have hbegun : ((startDelayer 0 d).run w).1 = some (.ok 1) := by decide +kernel
  have hvalid : r.validate = .ok () := rfl
  obtain ⟨-, hloop⟩ := leads_startDelayer_of_valid (w := w) 0 (rfl : d.validate = .ok ())
  obtain ⟨c, hc, -, hbreaks⟩ := hloop 1 hbegun
  obtain ⟨hbreaks', -⟩ := leads_startRecoverer_of_valid (w := w) 0 hvalid
  refine ⟨rfl, hbegun, ⟨c, hc, hbreaks rfl⟩, hvalid, hbreaks'.2 ?_⟩
  exact Span.add?_eq_none_iff.2 (by decide +kernel)

end Scenario

end Workflow
