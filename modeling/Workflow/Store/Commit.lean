import Workflow.Command.Apply
import Workflow.Store

/-!
# Commits

A bundle takes effect as a whole or not at all. Its parts are staged in order: lookups and reads are
answered from the store as it is before the commit, and parts on one state share one draft, that of
the first of them. Then every tracked state has to be at the revision that its draft expects. Only
then is anything stored: one entry of the log for each tracked state, the blobs, and copies of the
states that are to be delayed, in the revision just committed.

A commit works in place on the store and on the bundle of its caller (`Transaction.commit`).
-/

set_option autoImplicit false

namespace Workflow

/-- The command acting on the draft that is prepared for its state, if there is one. -/
def Command.adopt (drafts : SortedMap StateId Draft) (c : Command) : Command :=
  match c.draft? with
  | none => c
  | some own =>
    match drafts.get? own.id with
    | some prepared => c.withDraft prepared
    | none => c

/-- What the parts of a bundle prepared so far. -/
structure Staging where
  drafts : SortedMap StateId Draft
  /-- The states that get a revision, in the order of their first tracked part. -/
  tracked : List StateId
  writes : List Blob
  issued : Nat

namespace Staging

def start (b : Blobs) : Staging := ⟨∅, [], [], b.issued⟩

/-- The preparations with the draft of a part that took effect. -/
def record (st : Staging) (id : StateId) (c : Command) : Staging :=
  { st with
    drafts := match c.draft? with
      | some d => st.drafts.insert id d
      | none => st.drafts
    tracked := if c.isTracked && !st.tracked.contains id then st.tracked ++ [id] else st.tracked }

/-- The revision that the draft of a state expects to be the latest. -/
def expectedRev (st : Staging) (id : StateId) : Int := (st.drafts.get? id).elim 0 Draft.expectedRev

end Staging

namespace Store

/-- The command with the content of the blob that it refers to. -/
def resolve (s : Store) : Command → Except Fault Command
  | .deref d note (some blob) => do
    let found ← s.blobs.fetch blob.id blob.rev
    .ok (.deref d note (some found))
  | c => .ok c

/-- Prepares a part that acts on a draft. A delay waits for the commit. -/
def stageDraft (s : Store) (st : Staging) (c : Command) (id : StateId) :
    Except Fault (Staging × Command) :=
  match c.adopt st.drafts with
  | .delay r => .ok (st, .delay r)
  | c => do
    let c ← c.apply
    let c ← s.resolve c
    .ok (st.record id c, c)

def stage (s : Store) (st : Staging) (c : Command) : Except Fault (Staging × Command) :=
  match c with
  | .findState id rev _ => do
    let found ← s.log.find id rev
    .ok (st, .findState id rev (some found))
  | .findLabelled labels _ => do
    let found ← s.log.findLabelled labels
    .ok (st, .findLabelled labels (some found))
  | .fetchBlob blob => do
    let found ← s.blobs.fetch blob.id blob.rev
    .ok (st, .fetchBlob found)
  | .storeBlob blob =>
    let (blob, issued) := Blobs.identify st.issued blob
    let blob := s.blobs.number st.writes blob
    .ok ({ st with writes := st.writes ++ [blob], issued := issued }, .storeBlob blob)
  | c =>
    match c.draft? with
    | some d => s.stageDraft st c d.id
    | none => .ok (st, c)

def stageAll (s : Store) : Staging → List Command → Except Fault (Staging × List Command)
  | st, [] => .ok (st, [])
  | st, c :: rest => do
    let (st, c) ← s.stage st c
    let (st, rest) ← s.stageAll st rest
    .ok (st, c :: rest)

/-- The tracked states whose drafts expect another revision than the latest. -/
def conflicts (s : Store) (st : Staging) : List StateId :=
  st.tracked.filter fun id => st.expectedRev id ≠ s.log.latestRev id

/-- The entry of the log for a state that is committed at a time. -/
def entryOf (l : Log) (now : Instant) (s : State) : State :=
  { s with rev := l.nextRev, committedAt := some now }

/-- Adds the drafts of the given states to the log, and settles them. -/
def appendAll (now : Instant) : Log → SortedMap StateId Draft → List StateId →
    Log × SortedMap StateId Draft
  | l, drafts, [] => (l, drafts)
  | l, drafts, id :: rest =>
    match drafts.get? id with
    | some d =>
      let stored := entryOf l now d.current
      appendAll now (l.append stored) (drafts.insert id (d.settle stored)) rest
    | none => appendAll now l drafts rest

/-- A part after the commit: it has the draft as committed, and a delay has its item. -/
def conclude (now : Instant) (drafts : SortedMap StateId Draft) (delays : Delays) (c : Command) :
    Delays × Command :=
  match c.adopt drafts with
  | .delay r =>
    let (copy, dueAt) := r.snapshot r.draft.current now
    let (delays, item) := delays.push copy dueAt
    (delays, .delay { r with result := some item })
  | c => (delays, c)

/-- The parts after the commit, in order. -/
def concludeAll (now : Instant) (drafts : SortedMap StateId Draft) :
    Delays → List Command → Delays × List Command
  | delays, [] => (delays, [])
  | delays, c :: rest =>
    let (delays, c) := conclude now drafts delays c
    let (delays, rest) := concludeAll now drafts delays rest
    (delays, c :: rest)

end Store

/-- Work in place on the bundle of a caller and on a store. A fault keeps the changes made before
it. -/
abbrev Transaction (α : Type) := ExceptT Fault (StateM (List Command × Store)) α

namespace Transaction

variable {α : Type}

def changeLog (f : Log → Log × α) : Transaction α :=
  modifyGet fun (parts, s) =>
    let (log, a) := f s.log
    (a, parts, { s with log := log })

def changeBlobs (f : Blobs → Blobs) : Transaction Unit :=
  modify fun (parts, s) => (parts, { s with blobs := f s.blobs })

def changeDelays (f : Delays → Delays × α) : Transaction α :=
  modifyGet fun (parts, s) =>
    let (delays, a) := f s.delays
    (a, parts, { s with delays := delays })

/-- Hands the bundle back to the caller with other parts. -/
def handBack (parts : List Command) : Transaction Unit := modify fun (_, s) => (parts, s)

def announce : Transaction Unit :=
  modify fun (parts, s) => (parts, { s with announced := s.announced + 1 })

def commit (now : Instant) : Transaction Unit := do
  let (parts, s) ← get
  Fault.settle (Command.validateBundle parts)
  let (st, work) ← Fault.settle (s.stageAll (.start s.blobs) parts)
  Fault.settle (requireNoConflict (s.conflicts st))
  let drafts ← changeLog fun l => Store.appendAll now l st.drafts st.tracked
  changeBlobs fun b => st.writes.foldl Blobs.push { b with issued := st.issued }
  let work ← changeDelays fun d => Store.concludeAll now drafts d work
  handBack work
  unless st.tracked.isEmpty do announce

end Transaction

/-- Commits a bundle, and answers the store and the parts as they are afterwards. -/
def Store.commit (s : Store) (now : Instant) (parts : List Command) :
    Except Fault (Store × List Command) :=
  match (Transaction.commit now).run.run (parts, s) with
  | (.ok (), done, stored) => .ok (stored, done)
  | (.error fault, _, _) => .error fault

end Workflow
