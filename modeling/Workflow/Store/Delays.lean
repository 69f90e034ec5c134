import Workflow.Query

/-!
# Delayed states

The states that wait for their time. Each gets the next offset when it is put off, and leaves when
it is acknowledged; offsets are never used again.
-/

set_option autoImplicit false

namespace Workflow

structure Delays where
  lastOffset : Int
  items : SortedMap Int Delayed
  deriving DecidableEq

namespace Delays

def empty : Delays := ⟨0, ∅⟩

instance : Inhabited Delays := ⟨empty⟩

/-- Puts a state off, and answers the item. -/
def push (d : Delays) (s : State) (dueAt : Instant) : Delays × Delayed :=
  let item : Delayed := ⟨s, dueAt, d.lastOffset + 1⟩
  (⟨item.offset, d.items.insert item.offset item⟩, item)

theorem offset_push (d : Delays) (s : State) (dueAt : Instant) :
    (d.push s dueAt).2.offset = d.lastOffset + 1 := rfl

theorem lastOffset_push (d : Delays) (s : State) (dueAt : Instant) :
    (d.push s dueAt).1.lastOffset = d.lastOffset + 1 := rfl

theorem get?_push (d : Delays) (s : State) (dueAt : Instant) (offset : Int) :
    (d.push s dueAt).1.items.get? offset =
      if offset = d.lastOffset + 1 then some (d.push s dueAt).2 else d.items.get? offset :=
  SortedMap.get?_insert ..

/-- Drops an item; an offset without one is left as it is. -/
def acknowledge (d : Delays) (offset : Int) : Delays := { d with items := d.items.erase offset }

theorem get?_acknowledge_self (d : Delays) (offset : Int) :
    (d.acknowledge offset).items.get? offset = none :=
  SortedMap.get?_erase_self ..

theorem get?_acknowledge_of_ne (d : Delays) {offset other : Int} (h : other ≠ offset) :
    (d.acknowledge offset).items.get? other = d.items.get? other :=
  SortedMap.get?_erase_of_ne _ h

/-- The first page of what a search finds, smallest offset first. -/
def page (d : Delays) (q : DelayQuery) : Page Delayed :=
  Page.collect q.pageLength some [] (d.items.values.filter q.accepts)

theorem page_eq_ofList (d : Delays) (q : DelayQuery) :
    d.page q = Page.ofList q.pageLength (d.items.values.filter q.accepts) :=
  Page.collect_some ..

end Delays

end Workflow
