import Workflow.Fault
import Workflow.Query

/-!
# The log

Every committed revision of every state, oldest first. Revisions are the positions in the log
counted from one, so they are contiguous over all states. An index keeps the position of the last
entry of each state.
-/

set_option autoImplicit false

namespace Workflow

/-- The committed revisions, with an index of the last one of each state. -/
structure Log where
  entries : List State
  latest : SortedMap StateId Nat
  deriving DecidableEq

namespace Log

def empty : Log := ⟨[], ∅⟩

instance : Inhabited Log := ⟨empty⟩

/-- The revision of the last entry, `0` if there is none. -/
def head (l : Log) : Int := l.entries.length

/-- The revision that the next entry gets. -/
def nextRev (l : Log) : Int := l.head + 1

def append (l : Log) (s : State) : Log :=
  ⟨l.entries ++ [s], l.latest.insert s.id l.entries.length⟩

theorem entries_append (l : Log) (s : State) : (l.append s).entries = l.entries ++ [s] := rfl

theorem head_append (l : Log) (s : State) : (l.append s).head = l.nextRev := by
  simp [head, nextRev, entries_append]

def get? (l : Log) (rev : Int) : Option State :=
  if 1 ≤ rev then l.entries[(rev - 1).toNat]? else none

def latest? (l : Log) (id : StateId) : Option State := (l.latest.get? id).bind (l.entries[·]?)

/-- The revision of the last entry of a state, `0` if it has none. -/
def latestRev (l : Log) (id : StateId) : Int := (l.latest? id).elim 0 State.rev

/-- Whether the entry at a position is the last one of its state. -/
def isLatest (l : Log) (entry : State × Nat) : Bool := l.latest.get? entry.1.id == some entry.2

/-- A revision of a state; revision `0` stands for the latest. -/
def find (l : Log) (id : StateId) (rev : Int) : Except Fault Draft :=
  let found := if rev = 0 then l.latest? id else (l.get? rev).filter (·.id = id)
  match found with
  | some s => .ok (.ofState s)
  | none => .error (.notFound (.state id rev))

/-- The state that was committed last of those whose latest revision carries the labels. -/
def findLabelled (l : Log) (labels : Notes) : Except Fault Draft :=
  match l.entries.zipIdx.reverse.find? fun e => l.isLatest e && e.1.carries labels with
  | some (s, _) => .ok (.ofState s)
  | none => .error (.notFound (.labelled labels))

/-- The position that a search starts from: that after the given revision, or of the last entry. -/
def startOf (l : Log) (sinceRev : Int) : Nat :=
  if sinceRev < 0 then l.entries.length - 1 else sinceRev.toNat

/-- What an entry contributes to the answer of a search. -/
def pick (l : Log) (q : StateQuery) (entry : State × Nat) : Option State :=
  if !q.accepts entry.1 then none
  else if q.latestOnly && !l.isLatest entry then none
  else some entry.1

theorem pick_eq (l : Log) (q : StateQuery) (entry : State × Nat) :
    l.pick q entry =
      if q.accepts entry.1 && (!q.latestOnly || l.isLatest entry) then some entry.1 else none := by
  unfold pick
  cases q.accepts entry.1 <;> cases q.latestOnly <;> cases l.isLatest entry <;> rfl

/-- The first page of what a search finds, oldest revision first. -/
def page (l : Log) (q : StateQuery) : Page State :=
  Page.collect q.pageLength (l.pick q) [] (l.entries.zipIdx.drop (l.startOf q.sinceRev))

theorem page_eq_ofList (l : Log) (q : StateQuery) :
    l.page q = Page.ofList q.pageLength
      (((l.entries.zipIdx.drop (l.startOf q.sinceRev)).filter fun e =>
        q.accepts e.1 && (!q.latestOnly || l.isLatest e)).map Prod.fst) := by
  rw [page, Page.collect_eq_ofList _ _ (Nat.zero_le _), List.nil_append, funext (l.pick_eq q),
    ← List.filterMap_eq_map, List.filterMap_filter]
  rfl

end Log

end Workflow
