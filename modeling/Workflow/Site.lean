import Workflow.Repository

/-!
# Sites

Where an engine works: a repository, the time, whether executions are still started, and those that
were started. Work at a site may fail; what it changed before that stays changed.
-/

set_option autoImplicit false

namespace Workflow

/-- Where an engine works. -/
structure Site where
  repository : Repository
  now : Instant
  isOpen : Bool
  /-- The drafts whose executions were started, in order. -/
  launched : List Draft

instance : Inhabited Site := ⟨⟨default, default, true, []⟩⟩

/-- Work on a value of its own at a site. A fault keeps the changes made before it. -/
abbrev Work (σ α : Type) := ExceptT Fault (StateM (σ × Site)) α

namespace Work

variable {σ τ α : Type}

/-- An access to the repository of the site. -/
def access (x : Access α) : Work σ α := do
  let (own, site) ← get
  let (outcome, repository) := x.run.run site.repository
  set (own, { site with repository := repository })
  Fault.settle outcome

def own : Work σ σ := do return (← get).1

def change (f : σ → σ) : Work σ Unit := modify fun (own, site) => (f own, site)

def now : Work σ Instant := do return (← get).2.now

/-- Starts the execution of a draft, unless none is started any more. -/
def launch (d : Draft) : Work σ Unit :=
  modify fun (own, site) =>
    (own, if site.isOpen then { site with launched := site.launched ++ [d] } else site)

def within (part : σ → τ) (put : σ → τ → σ) (x : Work τ α) : Work σ α := do
  let (own, site) ← get
  let (outcome, inner, site) := x.run.run (part own, site)
  set (put own inner, site)
  Fault.settle outcome

/-- Commits a bundle, and answers its parts as they are afterwards. -/
def commit (parts : List Command) : Work σ (List Command) := do
  access (Repository.commit (← now) parts)

/-- Commits a bundle; there is no answer if it is in conflict. -/
def commit? (parts : List Command) : Work σ (Option (List Command)) := do
  try
    return some (← commit parts)
  catch fault =>
    if fault.isConflict then pure none else throw fault

def perform (x : Work σ α) (own : σ) (site : Site) : Except Fault α × σ × Site :=
  x.run.run (own, site)

end Work

/-- Does what a command asks for. The command is the value that is worked on: it has its answer
afterwards, and a fault may leave it half way. -/
def dispatch : Work Command Unit := do
  match ← Work.own with
  | .bundle parts =>
    let parts ← Work.commit parts
    Work.change fun _ => .bundle parts
  | .deref d note blob =>
    let c ← Fault.settle (Command.deref d note blob).apply
    Work.change fun _ => c
    if let .deref d note (some blob) := c then
      let found ← Work.access (Repository.fetchBlob blob.id blob.rev)
      Work.change fun _ => .deref d note (some found)
  | .keep _ | .noop => pure ()
  | .delay r =>
    let (copy, dueAt) := r.snapshot r.draft.current (← Work.now)
    let item ← Work.access (Repository.delay copy dueAt)
    Work.change fun _ => .delay { r with result := some item }
  | .execute d => Work.launch d
  | .storeBlob blob =>
    let stored ← Work.access (Repository.storeBlob blob)
    Work.change fun _ => .storeBlob stored
  | .fetchBlob blob =>
    let found ← Work.access (Repository.fetchBlob blob.id blob.rev)
    Work.change fun _ => .fetchBlob found
  | .findState id rev _ =>
    let found ← Work.access (Repository.findState id rev)
    Work.change fun _ => .findState id rev (some found)
  | .findLabelled labels _ =>
    let found ← Work.access (Repository.findLabelled labels)
    Work.change fun _ => .findLabelled labels (some found)
  | .listStates q _ =>
    let page ← Work.access (Repository.listStates q)
    Work.change fun _ => .listStates q (some page)
  | .listDelayed q _ =>
    let page ← Work.access (Repository.listDelayed q)
    Work.change fun _ => .listDelayed q (some page)
  | c =>
    let c ← Fault.settle c.apply
    Work.change fun _ => c

end Workflow
