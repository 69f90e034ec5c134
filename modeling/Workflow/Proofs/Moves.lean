import Workflow.Proofs.Event

/-!
# What happens in a world

A world goes on by moves, in any order: a task has its turn, a step of a script begins or goes on,
time passes. What a script plays is one such sequence of moves.
-/

set_option autoImplicit false

namespace Workflow.Scenario

/-- The engine whose execution a task is. -/
def Task.engine? : Task → Option Nat
  | execution engine _ => some engine
  | _ => none

/-- The engine whose execution a step of a script begins itself. -/
def Script.executes? (w : World) : Step → Option Nat
  | .execute name _ => some ((w.engineKeys.get? name).getD w.nextKey)
  | _ => none

/-- The engine whose execution a step of a script waits for. -/
def Script.awaits? : Wait → Option Nat
  | .executing engine _ => some engine
  | _ => none

/-- What can happen in a world at any moment: that a task has its turn, whichever it is, that a step
of a script begins or goes on, that time passes, and that somebody reads the reports. -/
inductive Move where
  | poll (key : Nat)
  | begin (step : Step)
  | resume (wait : Wait)
  | jump (own : List Timer)
  | look (a : Answer)

namespace Move

def event : Move → Event Unit
  | poll key => do
    modify fun w => { w with ready := w.ready.erase key }
    Task.goOn key
  | begin step => discard <| Script.begin step
  | resume wait => discard <| Script.resume wait
  | jump own => discard <| Event.jump own
  | look a => discard <| Script.look a

/-- The engine whose execution goes on in a move. -/
def engine? (w : World) : Move → Option Nat
  | poll key => (w.tasks.get? key).bind Task.engine?
  | begin step => Script.executes? w step
  | resume wait => Script.awaits? wait
  | jump _ => none
  | look _ => none

/-- The world after some moves. -/
def after (moves : List Move) (w : World) : World := Event.each moves event w

theorem after_append (moves more : List Move) (w : World) :
    after (moves ++ more) w = after more (after moves w) :=
  List.foldl_append

end Move

namespace Event

/-- Whatever an event does, moves do. -/
def Moves {α : Type} (x : Event α) : Prop := ∀ w, ∃ moves, (x.run w).2 = Move.after moves w

variable {α β : Type}

theorem moves_pure {a : α} : Moves (pure a) := fun _ => ⟨[], rfl⟩

theorem Moves.bind {x : Event α} {f : α → Event β} (hx : Moves x) (hf : ∀ a, Moves (f a)) :
    Moves (x >>= f) := by
  intro w
  obtain ⟨moves, hmoves⟩ := hx w
  obtain ⟨more, hmore⟩ := hf (x.run w).1 (x.run w).2
  refine ⟨moves ++ more, ?_⟩
  rw [Move.after_append, ← hmoves, ← hmore]
  rfl

theorem moves_get_bind {f : World → Event β} (hf : ∀ v, Moves (f v)) : Moves (get >>= f) :=
  fun w => hf w w

theorem leads_runReady {fuel key : Nat} {rest : List Nat} {w : World} (h : w.ready = key :: rest)
    {Q : PUnit → World → Prop} :
    Leads (runReady (fuel + 1)) w Q ↔ Leads (Move.poll key).event w fun _ v =>
      Leads (runReady fuel) v Q := by
  conv =>
    lhs
    unfold runReady
  unfold Move.event
  simp only [leads_bind, leads_get, leads_modify, h, List.erase_cons_head]

theorem moves_runReady (fuel : Nat) : Moves (runReady fuel) := by
  induction fuel with
  | zero => exact moves_pure
  | succ fuel ih =>
    intro w
    cases hready : w.ready with
    | nil =>
      refine ⟨[], ?_⟩
      change Leads (runReady (fuel + 1)) w fun _ v => v = w
      unfold runReady
      simp only [leads_bind, leads_get, hready, leads_pure]
    | cons key rest =>
      obtain ⟨moves, hmoves⟩ := ih ((Move.poll key).event.run w).2
      exact ⟨.poll key :: moves, (leads_runReady (Q := fun _ v => v = _) hready).mpr hmoves⟩

end Event

namespace Script

open Event

theorem moves_await (fuel : Nat) (turn : Turn) : Moves (await fuel turn) := by
  induction fuel generalizing turn with
  | zero => exact moves_pure
  | succ fuel ih =>
    cases turn with
    | answer a => exact moves_pure
    | wait wait =>
      refine Moves.bind (fun w => ⟨[.resume wait], rfl⟩) fun turn => ?_
      cases turn with
      | answer a => exact moves_pure
      | wait wait =>
        refine moves_get_bind fun v => ?_
        split
        · refine Moves.bind (fun w => ⟨[.jump wait.timers], rfl⟩) fun found => ?_
          split
          · exact moves_pure
          · exact ih _
        · exact (moves_runReady turns).bind fun _ => ih _

/-- A script goes through the worlds that some moves lead to. -/
theorem moves_play (steps : List Step) : Moves (play steps) := by
  induction steps with
  | nil => exact moves_pure
  | cons step rest ih =>
    refine Moves.bind (fun w => ⟨[.begin step], rfl⟩) fun turn => ?_
    refine (moves_await patience turn).bind fun a => ?_
    split
    · exact moves_pure
    · exact Moves.bind (fun w => ⟨[.look a], rfl⟩) fun sight => ih.bind fun _ => moves_pure

end Script

end Workflow.Scenario
