import Workflow.Repository

/-!
# Watchers

A watcher follows the log from a revision on and hands out the states that pass its filters, one by
one. What one page brings is kept until it is handed out.
-/

set_option autoImplicit false

namespace Workflow

structure Watcher where
  /-- What is looked for; its revision moves on with the states that were read. -/
  query : StateQuery
  pending : List State
  listens : Bool
  pollInterval : Span

namespace Watcher

def new (q : StateQuery) (r : Repository) (poll : Span) : Watcher := ⟨q, [], r.announces, poll⟩

def absorb (w : Watcher) (page : Page State) : Watcher :=
  { w with
    pending := w.pending ++ page.items
    query := match page.items.getLast? with
      | some s => { w.query with sinceRev := s.rev }
      | none => w.query }

/-- The next state that was read already, and the watcher without it. -/
def pop (w : Watcher) : Option State × Watcher :=
  match w.pending with
  | [] => (none, w)
  | s :: rest => (some s, { w with pending := rest })

/-- The next state, and the watcher without it; reads a page first if none is left. -/
def next (w : Watcher) : Access (Option State × Watcher) :=
  if w.pending.isEmpty then do
    return (w.absorb (← Repository.listStates w.query)).pop
  else
    return w.pop

end Watcher

end Workflow
