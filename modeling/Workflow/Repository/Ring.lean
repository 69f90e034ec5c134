import Workflow.Query

/-!
# Rings

The most recent revisions of a log, without gaps and at most as many as the capacity. A revision
that leaves a gap waits until the gap is filled; when too many wait, the ring is emptied.
-/

set_option autoImplicit false

namespace Workflow

/-- The most recent revisions of a log. -/
structure Ring where
  capacity : Nat
  positive : 0 < capacity
  entries : List State
  waiting : SortedMap Int State

namespace Ring

def usualCapacity : Nat := 1000

/-- How many revisions may wait. -/
def waitingLimit : Nat := 100

/-- An empty ring; a capacity of zero counts as one. -/
def ofCapacity (n : Nat) : Ring := ⟨max n 1, by omega, [], ∅⟩

instance : Inhabited Ring := ⟨ofCapacity usualCapacity⟩

/-- The revision before the first entry. -/
def low? (r : Ring) : Option Int := r.entries.head?.map (·.rev - 1)

def high? (r : Ring) : Option Int := r.entries.getLast?.map State.rev

/-- The ring with another last entry; a full ring drops its first one. -/
def push (r : Ring) (s : State) : Ring :=
  { r with entries := (if r.entries.length = r.capacity then r.entries.tail else r.entries) ++ [s] }

theorem high?_push (r : Ring) (s : State) : (r.push s).high? = some s.rev := by
  simp [high?, push]

/-- A ring that holds no more entries than its capacity does so after another one. -/
theorem length_push_le {r : Ring} (s : State) (h : r.entries.length ≤ r.capacity) :
    (r.push s).entries.length ≤ r.capacity := by
  have hpos := r.positive
  unfold push
  split <;> simp <;> omega

/-- The ring with the given revision, if that continues it. -/
def extend (r : Ring) (waiting : Int × State) : Ring :=
  if r.high? = some (waiting.1 - 1) then r.push waiting.2 else r

/-- The ring with the waiting revisions that continue it; those it has passed are dropped. -/
def settle (r : Ring) : Ring :=
  let grown := r.waiting.entries.foldl extend r
  { grown with waiting := r.waiting.filter fun rev _ => grown.high?.all (· < rev) }

/-- Takes up a revision: one that continues the ring becomes its last entry, a later one waits, an
earlier one is ignored. -/
def offer (r : Ring) (s : State) : Ring :=
  match r.high? with
  | none => (r.push s).settle
  | some high =>
    if s.rev ≤ high then r
    else if s.rev = high + 1 then (r.push s).settle
    else
      let waiting := r.waiting.insert s.rev s
      if waitingLimit < waiting.size then { r with entries := [], waiting := ∅ }
      else { r with waiting := waiting }

/-- The last revision of a state among the entries. -/
def latestRev? (r : Ring) (id : StateId) : Option Int :=
  (r.entries.reverse.find? (·.id = id)).map State.rev

/-- Whether the revision is among the entries. -/
def covers (r : Ring) (rev : Int) : Bool :=
  match r.low?, r.high? with
  | some low, some high => low < rev && rev ≤ high
  | _, _ => false

/-- The entry of a revision. -/
def get? (r : Ring) (rev : Int) : Option State :=
  r.low?.bind fun low => if low < rev then r.entries[(rev - low - 1).toNat]? else none

end Ring

end Workflow
