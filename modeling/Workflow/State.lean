import Workflow.Ident
import Workflow.Instant

/-!
# States and drafts

A state is the unit of work: it waits at a step, carries labels and annotations, and its revisions
are the entries of one log. A draft is a state under preparation, together with the revision that it
was prepared from and the transitions made since.
-/

set_option autoImplicit false

namespace Workflow

/-- Named texts, as annotations and labels are. -/
abbrev Notes := SortedMap String String

/-- A move between steps, with notes of its own. -/
structure Transition where
  source : StepId
  /-- The step that is moved to; empty once the state has ended. -/
  target : StepId
  annotations : Notes
  deriving DecidableEq

/-- A move from the first step to the second, without notes. -/
def Transition.between (source target : StepId) : Transition := ⟨source, target, ∅⟩

instance : Inhabited Transition := ⟨.between default default⟩

def Transition.note? (t : Transition) (name : String) : Option String := t.annotations.get? name

def Transition.annotate (t : Transition) (name value : String) : Transition :=
  { t with annotations := t.annotations.insert name value }

structure State where
  id : StateId
  /-- The revision, which the store assigns; `0` before the first commit. -/
  rev : Int
  annotations : Notes
  labels : Notes
  transition : Transition
  committedAt : Option Instant
  deriving DecidableEq

namespace State

/-- A state that was never committed and waits at no step. -/
def new (id : StateId) : State := ⟨id, 0, ∅, ∅, default, none⟩

instance : Inhabited State := ⟨new default⟩

/-- The note of a name, looked up in the transition first and then in the state. -/
def note? (s : State) (name : String) : Option String :=
  (s.transition.note? name).orElse fun _ => s.annotations.get? name

def annotate (s : State) (name value : String) : State :=
  { s with annotations := s.annotations.insert name value }

/-- A note of the state shows unless the transition has one of that name. -/
theorem note?_annotate_self {s : State} {name : String} (value : String)
    (h : s.transition.note? name = none) : (s.annotate name value).note? name = some value := by
  have ht : (s.annotate name value).transition = s.transition := rfl
  rw [note?, ht, h]
  exact SortedMap.get?_insert_self ..

def label (s : State) (name value : String) : State :=
  { s with labels := s.labels.insert name value }

def carries (s : State) (labels : Notes) : Bool :=
  labels.entries.all fun (name, value) => s.labels.get? name == some value

end State

/-- A state under preparation. -/
structure Draft where
  current : State
  /-- The revision that it was prepared from, which a commit expects to be the latest. -/
  committed : State
  /-- The transitions left behind since that revision, oldest first. -/
  history : List Transition
  deriving DecidableEq

instance : Inhabited Draft := ⟨default, default, []⟩

namespace Draft

/-- A draft that starts from a state. A state with a revision is what the draft was
prepared from. -/
def ofState (s : State) : Draft := ⟨s, if 0 < s.rev then s else default, []⟩

def id (d : Draft) : StateId := d.current.id

/-- The revision that a commit expects to be the latest; `0` if the state is to be new. -/
def expectedRev (d : Draft) : Int := d.committed.rev

theorem expectedRev_ofState (s : State) :
    (ofState s).expectedRev = if 0 < s.rev then s.rev else 0 := by
  unfold ofState expectedRev
  split <;> rfl

/-- A new draft for another identity, with the labels, notes and transition of this one. -/
def forkTo (d : Draft) (id : StateId) : Draft :=
  ofState { d.current with id := id, rev := 0, committedAt := none }

/-- The draft after a transition; the transition before it joins the history. -/
def move (d : Draft) (next : Transition) : Draft :=
  { d with current := { d.current with transition := next }
           history := d.history ++ [d.current.transition] }

/-- The draft after its commit as the given state. -/
def settle (_ : Draft) (stored : State) : Draft := ⟨stored, stored, []⟩

def update (d : Draft) (change : State → State) : Draft := { d with current := change d.current }

def annotate (d : Draft) (name value : String) : Draft := d.update (·.annotate name value)

end Draft

structure Delayed where
  state : State
  dueAt : Instant
  offset : Int
  deriving DecidableEq

/-- A blob of data, in one of its revisions. -/
structure Blob where
  id : BlobId
  /-- The revision, which the store assigns; `0` before it is stored. -/
  rev : Int
  binary : Bool
  bytes : List UInt8
  deriving DecidableEq

instance : Inhabited Blob := ⟨default, 0, false, []⟩

/-- A reference to a revision of a blob, without its content. -/
def Blob.reference (id : BlobId) (rev : Int) : Blob := ⟨id, rev, false, []⟩

end Workflow
