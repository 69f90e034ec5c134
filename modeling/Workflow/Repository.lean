import Workflow.Repository.Gate
import Workflow.Repository.Ring
import Workflow.Store.Commit

/-!
# Repositories

How a store is reached: through its gate, and through a front that may keep recent revisions in a
ring or offer states alone. An access may fail; what it changed before that stays changed, such as
the counts of calls.
-/

set_option autoImplicit false

namespace Workflow

/-- Recent revisions, and how often they answered a read. -/
structure Cache where
  ring : Ring
  hits : Nat
  misses : Nat

/-- What stands before the gate of a store. -/
inductive Front where
  | direct
  | statesOnly
  | cached (cache : Cache)

structure Repository where
  store : Store
  gate : Gate
  front : Front

instance : Inhabited Repository := ⟨⟨.empty, .free, .direct⟩⟩

/-- An access to a repository. A fault keeps the changes made before it. -/
abbrev Access (α : Type) := ExceptT Fault (StateM Repository) α

namespace Repository

/-- An empty store behind the given front. -/
def new (front : Front) : Repository := ⟨.empty, .free, front⟩

def announces (r : Repository) : Bool :=
  match r.front with
  | .statesOnly => false
  | _ => true

def cache? (r : Repository) : Option Cache :=
  match r.front with
  | .cached c => some c
  | _ => none

/-! ### Behind the front -/

def pass (m : Method) : Access Unit := do
  let r ← get
  let (outcome, gate) := r.gate.enter m
  set { r with gate := gate }
  match outcome with
  | some fault => throw fault
  | none => pure ()

def readStore {α : Type} (m : Method) (f : Store → Except Fault α) : Access α := do
  pass m
  Fault.settle (f (← get).store)

def changeStore {α : Type} (m : Method) (f : Store → Except Fault (Store × α)) : Access α := do
  let (store, a) ← readStore m f
  modify fun r => { r with store := store }
  pure a

/-- Does a transaction on a bundle, past the gate, and answers the bundle as it is afterwards. -/
def transact (m : Method) (x : Transaction Unit) (parts : List Command) :
    Access (List Command) := do
  pass m
  let r ← get
  let (outcome, parts, store) := x.run.run (parts, r.store)
  set { r with store := store }
  Fault.settle outcome
  pure parts

/-! ### The cache -/

/-- Counts a read that the ring answered. -/
def hit : Access Unit :=
  modify fun r => match r.front with
    | .cached c => { r with front := .cached { c with hits := c.hits + 1 } }
    | _ => r

/-- Counts a read that went on to the store, if there is a cache. -/
def miss : Access Unit :=
  modify fun r => match r.front with
    | .cached c => { r with front := .cached { c with misses := c.misses + 1 } }
    | _ => r

/-- Offers revisions to the ring of the cache, if there is one. -/
def offer (states : List State) : Access Unit :=
  modify fun r => match r.front with
    | .cached c => { r with front := .cached { c with ring := states.foldl Ring.offer c.ring } }
    | _ => r

end Repository

/-- The answer of a ring to a search of the log, if the search starts inside it and asks for nothing
that a ring cannot tell. -/
def Ring.page? (r : Ring) (q : StateQuery) : Option (Page State) :=
  if q.sinceTime.isNone && !q.latestOnly && 0 ≤ q.sinceRev then
    match r.low?, r.high? with
    | some low, some high =>
      if low ≤ q.sinceRev ∧ q.sinceRev < high then
        some (Page.collect q.pageLength some []
          (r.entries.filter fun s => q.sinceRev < s.rev && q.accepts s))
      else none
    | _, _ => none
  else none

/-- The answer of a ring to a look-up of a revision, if it covers the revision. -/
def Ring.find? (r : Ring) (id : StateId) (rev : Int) : Option (Except Fault Draft) :=
  if 0 < rev ∧ r.covers rev then
    some (match (r.get? rev).filter (·.id = id) with
      | some s => .ok (.ofState s)
      | none => .error (.notFound (.state id rev)))
  else none

/-- The states of a bundle that a ring already knows in a later revision than their first tracked
part expects. -/
def Ring.conflicts (r : Ring) (parts : List Command) : List StateId :=
  let firsts := Command.firstOfEach [] ((parts.filter Command.isTracked).filterMap Command.draft?)
  (firsts.filter fun d => (r.latestRev? d.id).any (d.expectedRev < ·)).map Draft.id

/-- Puts a state before the first one of a later revision, unless one has its revision already. -/
def Ring.placeByRev (s : State) : List State → List State
  | [] => [s]
  | t :: rest =>
    if s.rev < t.rev then s :: t :: rest
    else if s.rev = t.rev then t :: rest
    else t :: Ring.placeByRev s rest

/-- The committed revisions of the tracked parts of a bundle, each once and in order. -/
def Ring.committed (parts : List Command) : List State :=
  (((parts.filter Command.isTracked).filterMap Command.draft?).map Draft.committed
    |>.filter (0 < ·.rev)).foldl (fun l s => Ring.placeByRev s l) []

namespace Repository

/-! ### Access -/

/-- A revision of a state; revision `0` stands for the latest. -/
def findState (id : StateId) (rev : Int) : Access Draft := do
  match (← get).cache?.bind (·.ring.find? id rev) with
  | some answer =>
    hit
    Fault.settle answer
  | none =>
    miss
    readStore .findState (·.log.find id rev)

/-- The latest state with the labels. -/
def findLabelled (labels : Notes) : Access Draft :=
  readStore .findLabelled (·.log.findLabelled labels)

def listStates (q : StateQuery) : Access (Page State) := do
  match (← get).cache?.bind (·.ring.page? q) with
  | some page =>
    hit
    pure page
  | none =>
    miss
    readStore .listStates fun s => .ok (s.log.page q)

def listDelayed (q : DelayQuery) : Access (Page Delayed) :=
  readStore .listDelayed fun s => .ok (s.delays.page q)

/-- Puts a state off. -/
def delay (s : State) (dueAt : Instant) : Access Delayed :=
  changeStore .delay fun store => .ok (store.delay s dueAt)

/-- Drops a delayed state. -/
def acknowledge (offset : Int) : Access Unit :=
  changeStore .acknowledge fun store => .ok (store.acknowledge offset, ())

/-- Commits a bundle, and answers its parts as they are afterwards. A cache refuses a bundle whose
conflict it can tell. -/
def commit (now : Instant) (parts : List Command) : Access (List Command) := do
  match (← get).cache?.map (·.ring.conflicts parts) with
  | some (id :: ids) => throw (.conflict (id :: ids))
  | _ =>
    let parts ← transact .commit (.commit now) parts
    offer (Ring.committed parts)
    pure parts

/-- Stores a blob, and answers the stored revision. -/
def storeBlob (blob : Blob) : Access Blob := do
  match (← get).front with
  | .statesOnly => throw (.unsupported s!"store_data de {blob.id}")
  | _ =>
    changeStore .storeBlob fun store => .ok (store.storeBlob blob)

/-- A revision of a blob; revision `0` stands for the latest. -/
def fetchBlob (id : BlobId) (rev : Int) : Access Blob := do
  match (← get).front with
  | .statesOnly => throw (.unsupported s!"get_data de {id}")
  | _ => readStore .fetchBlob (·.blobs.fetch id rev)

/-! ### Catching up -/

/-- How many revisions are read at once to catch up. -/
def refreshBatch : Nat := 100

/-- Reads on from the last entry of the ring, page by page, and answers how many revisions were
read. An empty ring only gets the last entry of the log. -/
def refreshLoop : (fuel : Nat) → (read : Nat) → Access Nat
  | 0, read => pure read
  | fuel + 1, read => do
    let since := (← get).cache?.bind (·.ring.high?)
    let q := match since with
      | some rev => { StateQuery.since rev with limit := refreshBatch }
      | none => .last
    let page ← readStore .listStates fun s => .ok (s.log.page q)
    offer page.items
    let read := read + page.items.length
    if page.more && since.isSome then refreshLoop fuel read else pure read

/-- Lets the ring catch up with the log. Every page moves the ring on, so no more pages are read
than there are entries. -/
def refresh : Access Nat := do
  refreshLoop ((← get).store.log.entries.length + 2) 0

end Repository

end Workflow
