import Workflow.Proofs.Effect
import Workflow.Scenario.Script

/-!
# Running events

What an event does to a world is read off step by step, as with effects. A loop over a list is one
event after the other.
-/

set_option autoImplicit false

namespace Workflow.Scenario

namespace Event

variable {α β γ : Type} {w : World}

/-- The answer of an event that happens in a world, and the world after it, satisfy `Q`. -/
def Leads (x : Event α) (w : World) (Q : α → World → Prop) : Prop := Q (x.run w).1 (x.run w).2

theorem Leads.mono {x : Event α} {P Q : α → World → Prop} (h : Leads x w P)
    (hpq : ∀ a v, P a v → Q a v) : Leads x w Q :=
  hpq _ _ h

theorem Leads.run_eq {x : Event α} {P : α → World → Prop} (h : Leads x w P) :
    Leads x w fun a v => x.run w = (a, v) ∧ P a v :=
  ⟨rfl, h⟩

theorem run_eq_iff {x : Event α} {p : α × World} :
    x.run w = p ↔ Leads x w fun a v => (a, v) = p := Iff.rfl

theorem leads_bind {x : Event α} {f : α → Event β} {Q : β → World → Prop} :
    Leads (x >>= f) w Q ↔ Leads x w fun a v => Leads (f a) v Q := Iff.rfl

theorem leads_pure {a : α} {Q : α → World → Prop} : Leads (pure a) w Q ↔ Q a w := Iff.rfl

theorem leads_get {Q : World → World → Prop} : Leads get w Q ↔ Q w w := Iff.rfl

theorem leads_set {v : World} {Q : PUnit → World → Prop} : Leads (set v) w Q ↔ Q ⟨⟩ v := Iff.rfl

theorem leads_modify {f : World → World} {Q : PUnit → World → Prop} :
    Leads (modify f) w Q ↔ Q ⟨⟩ (f w) := Iff.rfl

theorem leads_elapsed {Q : Nat → World → Prop} :
    Leads elapsed w Q ↔ Q (w.tick * Timer.perTick) w := Iff.rfl

theorem leads_isDue {t : Timer} {Q : Bool → World → Prop} :
    Leads (isDue t) w Q ↔ Q (t.isDue w.tick) w := Iff.rfl

/-- The world after an event for each element of a list, one after the other. -/
def each (l : List γ) (f : γ → Event PUnit) (w : World) : World :=
  l.foldl (fun v a => ((f a).run v).2) w

theorem leads_forIn {l : List γ} {f : γ → Event PUnit} {Q : PUnit → World → Prop} :
    Leads (forIn l PUnit.unit fun a _ => do f a; pure (ForInStep.yield PUnit.unit)) w Q ↔
      Q ⟨⟩ (each l f w) := by
  induction l generalizing w with
  | nil => rfl
  | cons a rest ih =>
    rw [List.forIn_cons, leads_bind, leads_bind]
    exact ih

theorem each_keeps {P : World → Prop} {l : List γ} {f : γ → Event PUnit}
    (hstep : ∀ a ∈ l, ∀ v, P v → P ((f a).run v).2) (h : P w) : P (each l f w) :=
  List.foldlRecOn l _ h fun v hv a ha => hstep a ha v hv

theorem leads_forIn_of {P : List γ → World → Prop} {f : γ → PUnit → Event (ForInStep PUnit)}
    (hstep : ∀ a rest v, P (a :: rest) v →
      Leads (f a ⟨⟩) v fun step u => step = .yield ⟨⟩ ∧ P rest u) {l : List γ} (h : P l w) :
    Leads (forIn l ⟨⟩ f) w fun _ v => P [] v := by
  induction l generalizing w with
  | nil => exact h
  | cons a rest ih =>
    rw [List.forIn_cons, leads_bind]
    refine (hstep a rest w h).mono fun step v hv => ?_
    obtain ⟨rfl, hrest⟩ := hv
    exact ih hrest

/-! ### Launching -/

/-- The engine of a key. -/
def engineAt (w : World) (key : Nat) : Engine := (w.engines.get? key).getD ⟨w.usual, false, 0⟩

theorem leads_engine {key : Nat} {Q : Engine → World → Prop} :
    Leads (engine key) w Q ↔ Q (engineAt w key) w := Iff.rfl

theorem leads_changeEngine {key : Nat} {f : Engine → Engine} {Q : PUnit → World → Prop} :
    Leads (changeEngine key f) w Q ↔
      Q ⟨⟩ { w with engines := w.engines.insert key (f (engineAt w key)) } := Iff.rfl

theorem leads_newEngine {settings : EngineSettings} {Q : Nat → World → Prop} :
    Leads (newEngine settings) w Q ↔
      Q w.nextKey { w with
        engines := w.engines.insert w.nextKey ⟨settings, true, 0⟩
        nextKey := w.nextKey + 1 } := Iff.rfl

/-- The world after a task was started. -/
def spawned (task : Task) (w : World) : World :=
  { w with
    tasks := w.tasks.insert w.nextKey task
    ready := w.ready ++ [w.nextKey]
    nextKey := w.nextKey + 1 }

/-- The world after the execution of a draft was started. -/
def launched (key : Nat) (d : Draft) (w : World) : World :=
  let e := engineAt w key
  spawned (.execution key (.fresh d))
    { w with engines := w.engines.insert key { e with running := e.running + 1 } }

theorem leads_launch {key : Nat} {d : Draft} {Q : PUnit → World → Prop} :
    Leads (launch key d) w Q ↔
      Q ⟨⟩ (if (engineAt w key).isOpen then launched key d w else w) := by
  unfold launch
  rw [leads_bind, leads_engine]
  split
  · rfl
  · rfl

/-- Where an engine works in a world. -/
def siteAt (w : World) (key : Nat) : Site :=
  ⟨w.repository, w.start + Span.ofMillis w.tick, (engineAt w key).isOpen, []⟩

theorem leads_perform {σ : Type} {key : Nat} {x : Work σ α} {own : σ}
    {Q : Except Fault α × σ → World → Prop} :
    Leads (perform key x own) w Q ↔
      Effect.Leads x (own, siteAt w key) fun outcome p =>
        Q (outcome, p.1)
          (each p.2.launched (launch key) { w with repository := p.2.repository }) := by
  unfold perform
  simp only [leads_bind, leads_engine, leads_get, now, leads_pure, leads_modify, leads_forIn]
  rfl

end Event

theorem Execution.leads_goOn {engine : Nat} {c : Command} {w : World} {Q : Stage → World → Prop} :
    Event.Leads (goOn engine c) w Q ↔
      match c.continuations with
      | [] => Q done w
      | next :: others => Q (.enter next) (Event.each others (Event.launch engine) w) := by
  unfold goOn
  cases c.continuations with
  | nil => rfl
  | cons next others =>
    rw [Event.leads_bind, Event.leads_forIn]
    rfl

end Workflow.Scenario
