import Workflow.Fault

/-!
# The gate

All calls of the store pass a gate, which counts them and lets those fail that are planned to fail.
-/

set_option autoImplicit false

namespace Workflow

/-- The calls that the gate tells apart. -/
inductive Method where
  | findState
  | findLabelled
  | listStates
  | listDelayed
  | delay
  | acknowledge
  | commit
  | storeBlob
  | fetchBlob
  deriving DecidableEq, Repr

namespace Method

def all : List Method :=
  [findState, findLabelled, listStates, listDelayed, delay, acknowledge, commit, storeBlob,
    fetchBlob]

def name : Method → String
  | findState => "get_state_by_id"
  | findLabelled => "get_state_by_labels"
  | listStates => "get_states"
  | listDelayed => "get_delayed_states"
  | delay => "delay"
  | acknowledge => "ack_delayed"
  | commit => "commit"
  | storeBlob => "store_data"
  | fetchBlob => "get_data"

def ofName? (name : String) : Option Method := all.find? (·.name = name)

/-- The place of a call in the list of all. -/
def place : Method → Nat
  | findState => 0
  | findLabelled => 1
  | listStates => 2
  | listDelayed => 3
  | delay => 4
  | acknowledge => 5
  | commit => 6
  | storeBlob => 7
  | fetchBlob => 8

theorem getElem?_all_place (m : Method) : all[m.place]? = some m := by
  cases m <;> rfl

theorem place_injective {a b : Method} (h : a.place = b.place) : a = b := by
  have heq : some a = some b := by rw [← getElem?_all_place a, h, getElem?_all_place]
  exact Option.some.inj heq

instance : Ord Method := ⟨fun a b => compare a.place b.place⟩

theorem compare_def (a b : Method) : compare a b = compare a.place b.place := rfl

instance : Std.TransOrd Method where
  eq_swap := by
    intro a b
    simp only [compare_def]
    exact Std.OrientedCmp.eq_swap
  isLE_trans := by
    intro a b c
    simp only [compare_def]
    exact Std.TransCmp.isLE_trans

instance : Std.LawfulEqOrd Method where
  compare_self := by
    intro a
    simp only [compare_def]
    exact Std.ReflCmp.compare_self
  eq_of_compare := by
    intro a b h
    exact place_injective (Nat.compare_eq_eq.1 h)

end Method

/-- What passes the gate, and how often it was called. -/
structure Gate where
  /-- For the next calls, one after the other, whether they fail. -/
  plans : SortedMap Method (List (Option Fault))
  /-- How often each call was made, failed ones included. -/
  calls : SortedMap Method Nat

namespace Gate

/-- A gate that lets all pass. -/
def free : Gate := ⟨∅, ∅⟩

instance : Inhabited Gate := ⟨free⟩

/-- The gate with a new plan for a call. -/
def plan (g : Gate) (m : Method) (outcomes : List (Option Fault)) : Gate :=
  { g with plans := g.plans.insert m outcomes }

/-- What is planned for the next calls. -/
def planned (g : Gate) (m : Method) : List (Option Fault) := (g.plans.get? m).getD []

/-- Makes a call: counts it, and answers the fault that is planned for it. -/
def enter (g : Gate) (m : Method) : Option Fault × Gate :=
  let counted := { g with calls := g.calls.insert m ((g.calls.get? m).getD 0 + 1) }
  match g.planned m with
  | [] => (none, counted)
  | outcome :: rest => (outcome, counted.plan m rest)

/-- Every call is counted, also one that fails. -/
theorem calls_enter (g : Gate) (m : Method) :
    (g.enter m).2.calls.get? m = some ((g.calls.get? m).getD 0 + 1) := by
  unfold enter
  split <;> simp [plan, SortedMap.get?_insert_self]

end Gate

end Workflow
