import Workflow.Fault

/-!
# Running effects

Transactions, accesses to a repository and work at a site all change a state of their own and may
fail. What such a computation does to a state is read off step by step.
-/

set_option autoImplicit false

namespace Workflow

/-- A computation that changes a state and may fail. A fault keeps the changes made before it. -/
abbrev Effect (σ α : Type) := ExceptT Fault (StateM σ) α

theorem Fault.bind_eq_ok_iff {α β : Type} {x : Except Fault α} {f : α → Except Fault β} {b : β} :
    (x >>= f) = .ok b ↔ ∃ a, x = .ok a ∧ f a = .ok b := by
  cases x with
  | error fault => simp [bind, Except.bind]
  | ok a => simp [bind, Except.bind]

theorem Fault.bind_eq_error_iff {α β : Type} {x : Except Fault α} {f : α → Except Fault β}
    {fault : Fault} :
    (x >>= f) = .error fault ↔ x = .error fault ∨ ∃ a, x = .ok a ∧ f a = .error fault := by
  cases x with
  | error other => simp [bind, Except.bind]
  | ok a => simp [bind, Except.bind]

theorem Fault.map_eq_ok_iff {α β : Type} {x : Except Fault α} {f : α → β} {b : β} :
    x.map f = .ok b ↔ ∃ a, x = .ok a ∧ f a = b := by
  cases x with
  | error fault => simp [Except.map]
  | ok a => simp [Except.map]

namespace Effect

variable {σ α β : Type}

theorem run_bind (x : Effect σ α) (f : α → Effect σ β) (s : σ) :
    (x >>= f).run.run s =
      match x.run.run s with
      | (.ok a, t) => (f a).run.run t
      | (.error fault, t) => (.error fault, t) := by
  change (match x.run.run s with | (outcome, t) => (ExceptT.bindCont f outcome).run t) = _
  rcases x.run.run s with ⟨fault | a, t⟩
  · rfl
  · rfl

theorem run_get (s : σ) : (get : Effect σ σ).run.run s = (.ok s, s) := rfl

theorem run_modify (f : σ → σ) (s : σ) :
    (modify f : Effect σ PUnit).run.run s = (.ok (), f s) := rfl

theorem run_modifyGet (f : σ → α × σ) (s : σ) :
    (modifyGet f : Effect σ α).run.run s = (.ok (f s).1, (f s).2) := rfl

theorem run_settle (outcome : Except Fault α) (s : σ) :
    (Fault.settle outcome : Effect σ α).run.run s = (outcome, s) := rfl

theorem run_tryCatch (x : Effect σ α) (handle : Fault → Effect σ α) (s : σ) :
    (tryCatch x handle).run.run s =
      match x.run.run s with
      | (.ok a, t) => (.ok a, t)
      | (.error fault, t) => (handle fault).run.run t := by
  change (ExceptT.tryCatch x handle).run.run s = _
  unfold ExceptT.tryCatch ExceptT.mk ExceptT.run StateT.run
  simp only [bind, StateT.bind]
  rcases x s with ⟨fault | a, t⟩
  · rfl
  · rfl

/-! ### What a computation leads to -/

/-- The outcome of a computation that starts in a state, and the state it ends in, satisfy `Q`. -/
def Leads (x : Effect σ α) (s : σ) (Q : Except Fault α → σ → Prop) : Prop :=
  Q (x.run.run s).1 (x.run.run s).2

theorem Leads.mono {x : Effect σ α} {s : σ} {P Q : Except Fault α → σ → Prop} (h : Leads x s P)
    (hpq : ∀ outcome t, P outcome t → Q outcome t) : Leads x s Q :=
  hpq _ _ h

theorem Leads.of_forall {x : Effect σ α} {s : σ} {Q : Except Fault α → σ → Prop}
    (h : ∀ outcome t, Q outcome t) : Leads x s Q :=
  h _ _

section

variable {s : σ}

theorem leads_bind {x : Effect σ α} {f : α → Effect σ β} {Q : Except Fault β → σ → Prop} :
    Leads (x >>= f) s Q ↔ Leads x s fun outcome t =>
      match outcome with
      | .ok a => Leads (f a) t Q
      | .error fault => Q (.error fault) t := by
  unfold Leads
  rw [run_bind]
  rcases x.run.run s with ⟨fault | a, t⟩
  · rfl
  · rfl

theorem Leads.bind {x : Effect σ α} {f : α → Effect σ β} {P : Except Fault α → σ → Prop}
    {Q : Except Fault β → σ → Prop} (h : Leads x s P)
    (hok : ∀ a t, P (.ok a) t → Leads (f a) t Q)
    (herror : ∀ fault t, P (.error fault) t → Q (.error fault) t) : Leads (x >>= f) s Q := by
  rw [leads_bind]
  refine h.mono fun outcome t hP => ?_
  cases outcome with
  | ok a => exact hok a t hP
  | error fault => exact herror fault t hP

theorem leads_tryCatch {x : Effect σ α} {handle : Fault → Effect σ α}
    {Q : Except Fault α → σ → Prop} :
    Leads (tryCatch x handle) s Q ↔ Leads x s fun outcome t =>
      match outcome with
      | .ok a => Q (.ok a) t
      | .error fault => Leads (handle fault) t Q := by
  unfold Leads
  rw [run_tryCatch]
  rcases x.run.run s with ⟨fault | a, t⟩
  · rfl
  · rfl

variable {Q : Except Fault α → σ → Prop}

theorem leads_pure {a : α} : Leads (pure a) s Q ↔ Q (.ok a) s := Iff.rfl

theorem leads_throw {fault : Fault} : Leads (throw fault) s Q ↔ Q (.error fault) s := Iff.rfl

theorem leads_settle {outcome : Except Fault α} :
    Leads (Fault.settle outcome) s Q ↔ Q outcome s := Iff.rfl

theorem leads_discard {x : Effect σ α} {Q : Except Fault Unit → σ → Prop} :
    Leads (discard x) s Q ↔ Leads x s fun outcome t => Q (outcome.map fun _ => ()) t := by
  change Leads (x >>= fun _ => pure ()) s Q ↔ _
  rw [leads_bind]
  unfold Leads
  rcases x.run.run s with ⟨fault | a, t⟩
  · rfl
  · rfl

end

theorem leads_get {s : σ} {Q : Except Fault σ → σ → Prop} : Leads get s Q ↔ Q (.ok s) s := Iff.rfl

theorem leads_set {s t : σ} {Q : Except Fault PUnit → σ → Prop} :
    Leads (set t) s Q ↔ Q (.ok ()) t := Iff.rfl

theorem leads_modify {s : σ} {f : σ → σ} {Q : Except Fault PUnit → σ → Prop} :
    Leads (modify f) s Q ↔ Q (.ok ()) (f s) := Iff.rfl

end Effect

end Workflow
