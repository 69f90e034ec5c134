import Workflow.Proofs.Event

/-!
# Loops that go on

What one turn does to the loop of a component, and what becomes of a component over all of its
turns. A loop breaks only in its first turn, where its timers are set up, and only if one of its
duties has no period.
-/

set_option autoImplicit false

namespace Workflow.Scenario

namespace Component

open Event

variable {σ : Type} {c c' : Component σ}

/-! ### One turn -/

/-- All duties have a period. -/
def Periodic (c : Component σ) : Prop := ∀ d ∈ c.duties, d.period.isZero = false

/-- What a turn makes of a component. -/
inductive Turned (c : Component σ) : Component σ → Prop
  /-- The timers cannot be set up. -/
  | breaks (hunset : c.timers = none) (hno : ¬ c.Periodic) : Turned c { c with standing := .broken }
  /-- The loop was told to stop. -/
  | ends (hset : c.timers = none → c.Periodic) (hcancelled : c.cancelled = true) :
      Turned c { c with standing := .finished }
  /-- What was due is done, and the loop waits. -/
  | waits (hset : c.timers = none → c.Periodic) (hcancelled : c.cancelled = false) (own : σ)
      (timers : List Timer) : Turned c { c with own := own, timers := some timers }

theorem mapM_eq_none_iff {α β : Type} {f : α → Option β} {l : List α} :
    l.mapM f = none ↔ ∃ a ∈ l, f a = none := by
  induction l with
  | nil => simp
  | cons a rest ih =>
    rw [List.mapM_cons]
    cases hfirst : f a with
    | none => simp [hfirst]
    | some b =>
      have hrest : (∃ a' ∈ a :: rest, f a' = none) ↔ ∃ a' ∈ rest, f a' = none := by
        simp [hfirst]
      rw [hrest, ← ih]
      cases rest.mapM f <;> simp

theorem firstTimers_eq_none_iff {now : Nat} : firstTimers c.duties now = none ↔ ¬ c.Periodic := by
  simp [firstTimers, mapM_eq_none_iff, Periodic]

theorem leads_runDuties (c : Component σ) (fuel : Nat) (timers : List Timer) (w : World) :
    Leads (c.runDuties fuel timers) w fun c' _ =>
      ∃ own timers, c' = { c with own := own, timers := some timers } := by
  induction fuel generalizing c timers w with
  | zero => exact ⟨c.own, timers, rfl⟩
  | succ fuel ih =>
    unfold runDuties
    rw [leads_bind]
    refine Leads.mono (P := fun _ _ => True) trivial fun next v _ => ?_
    obtain ⟨_ | duty, timers⟩ := next
    · exact ⟨c.own, timers, rfl⟩
    · rw [leads_bind]
      exact Leads.mono (P := fun _ _ => True) trivial fun r v _ => ih { c with own := r.2 } timers v

theorem turned_goOn (c : Component σ) (w : World) : Leads c.goOn w fun c' _ => c.Turned c' := by
  unfold goOn
  rw [leads_bind, leads_elapsed]
  split
  next hnone =>
    have hunset : c.timers = none := by
      cases htimers : c.timers with
      | none => rfl
      | some timers =>
        rw [htimers] at hnone
        cases hnone
    rw [hunset] at hnone
    exact .breaks hunset (firstTimers_eq_none_iff.1 hnone)
  next timers hsome =>
    have hset : c.timers = none → c.Periodic := by
      intro hunset
      rw [hunset] at hsome
      refine Classical.byContradiction fun hno => ?_
      cases hsome.symm.trans (firstTimers_eq_none_iff.2 hno)
    split
    next hcancelled => exact .ends hset hcancelled
    next hcancelled =>
      refine (leads_runDuties c patience timers w).mono fun c' v hc' => ?_
      obtain ⟨own, timers, rfl⟩ := hc'
      exact .waits hset (Bool.not_eq_true _ ▸ hcancelled) own timers

theorem Turned.engine_eq (h : c.Turned c') : c'.engine = c.engine := by
  cases h <;> rfl

theorem Turned.cancelled_eq (h : c.Turned c') : c'.cancelled = c.cancelled := by
  cases h <;> rfl

theorem Turned.duties_eq (h : c.Turned c') : c'.duties = c.duties := by
  cases h <;> rfl

/-! ### All turns -/

/-- What becomes of a component in any world: its loop has its turns, and others tell it to stop and
end its work. -/
inductive Later (c : Component σ) : Component σ → Prop
  | refl : Later c c
  | turn {c' : Component σ} (h : Later c c') (w : World) : Later c (c'.goOn.run w).1
  | told {c' : Component σ} (h : Later c c') (own : σ) (cancelled awaited : Bool) :
      Later c { c' with own := own, cancelled := cancelled, awaited := awaited }

/-- Whatever becomes of a component, its loop does not break. -/
def Unbroken (c : Component σ) : Prop := ∀ c', c.Later c' → c'.standing ≠ .broken

theorem Later.duties_eq (h : c.Later c') : c'.duties = c.duties := by
  induction h with
  | refl => rfl
  | turn _ w ih => exact (turned_goOn _ w).duties_eq.trans ih
  | told _ _ _ _ ih => exact ih

/-- A loop whose duties all have a period goes on until it is told to stop. -/
theorem Periodic.unbroken (h : c.Periodic) (halive : c.standing ≠ .broken) : c.Unbroken := by
  intro c' hlater
  induction hlater with
  | refl => exact halive
  | @turn c' hlater w ih =>
    have hperiodic : c'.Periodic := fun d hd => h d (hlater.duties_eq ▸ hd)
    have hturned : c'.Turned (c'.goOn.run w).1 := turned_goOn c' w
    generalize (c'.goOn.run w).1 = next at hturned ⊢
    cases hturned with
    | breaks _ hno => exact absurd hperiodic hno
    | ends => exact nofun
    | waits => exact ih
  | told _ _ _ _ ih => exact ih

theorem standing_goOn_of_not_periodic (hunset : c.timers = none) (hno : ¬ c.Periodic) (w : World) :
    (c.goOn.run w).1.standing = .broken := by
  have hturned : c.Turned (c.goOn.run w).1 := turned_goOn c w
  generalize (c.goOn.run w).1 = next at hturned ⊢
  cases hturned with
  | breaks => rfl
  | ends hset => exact absurd (hset hunset) hno
  | waits hset => exact absurd (hset hunset) hno

end Component

end Workflow.Scenario
