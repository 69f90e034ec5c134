import Workflow.Proofs.Sparing
import Workflow.Proofs.Stacking

/-!
# Dispatches that fail

A dispatch that fails leaves the store as it was, and the command as well: a command gets its answer
last. Only a command that follows a note is changed before its blob is asked for. Where the note is
a reference and the blob is not found, the command is left with the reference, as if that was the
blob.
-/

set_option autoImplicit false

namespace Workflow

open Effect

/-- The blob and the revision that a note refers to, if it is read as a reference. -/
def State.reference? (s : State) (note : String) : Option (BlobId × Int) :=
  (s.note? note).bind fun raw => (Reference.parse raw).toOption

namespace Command

/-- What a dispatch that fails leaves of a command. -/
def attempted : Command → Command
  | deref d note blob =>
    match d.current.reference? note with
    | some (id, rev) => deref d note (some (.reference id rev))
    | none => deref d note blob
  | c => c

theorem apply_deref (d : Draft) (note : String) (blob : Option Blob) :
    (∃ id rev, d.current.reference? note = some (id, rev) ∧
      (deref d note blob).apply = .ok (deref d note (some (.reference id rev)))) ∨
    d.current.reference? note = none ∧ ∃ fault, (deref d note blob).apply = .error fault := by
  rw [apply, applyDeref, State.reference?]
  cases d.current.note? note with
  | none => exact .inr ⟨rfl, _, rfl⟩
  | some raw =>
    simp only [Option.bind_some]
    cases Reference.parse raw with
    | ok reference => exact .inl ⟨reference.1, reference.2, rfl, rfl⟩
    | error fault => exact .inr ⟨rfl, fault, rfl⟩

theorem attempted_deref {d : Draft} {note : String} {blob : Option Blob} {id : BlobId} {rev : Int}
    (href : d.current.reference? note = some (id, rev)) :
    (deref d note blob).attempted = deref d note (some (.reference id rev)) := by
  simp only [attempted, href]

theorem attempted_ne_iff {c : Command} :
    c.attempted ≠ c ↔ ∃ d note blob id rev, c = .deref d note blob ∧
      d.current.reference? note = some (id, rev) ∧ blob ≠ some (.reference id rev) := by
  constructor
  · intro hne
    cases c with
    | deref d note blob =>
      cases href : d.current.reference? note with
      | none => exact absurd (by simp only [attempted, href]) hne
      | some reference =>
        refine ⟨d, note, blob, reference.1, reference.2, rfl, href, ?_⟩
        rintro rfl
        exact hne (attempted_deref href)
    | _ => exact absurd rfl hne
  · rintro ⟨d, note, blob, id, rev, rfl, href, hne⟩ heq
    rw [attempted_deref href] at heq
    cases heq
    exact hne rfl

end Command

/-- A dispatch succeeds, or it leaves the command that is given and spares the site. -/
def Site.Keeps (site : Site) (kept : Command) (outcome : Except Fault Unit)
    (after : Command × Site) : Prop :=
  ∀ fault, outcome = .error fault → site.Spared after.2 ∧ after.1 = kept

section

variable {c : Command} {site : Site}

theorem keeps_ok {kept : Command} {after : Command × Site} : site.Keeps kept (.ok ()) after :=
  nofun

theorem keeps_self {outcome : Except Fault Unit} : site.Keeps c outcome (c, site) :=
  fun _ _ => ⟨.refl site, rfl⟩

theorem leads_dispatch_apply
    (hrun : dispatch.perform c site = Work.perform (do
      let c ← Fault.settle c.apply
      Work.change fun _ => c) c site) :
    Leads dispatch (c, site) (site.Keeps c) := by
  rw [Work.leads_congr hrun, leads_bind, leads_settle]
  cases c.apply with
  | ok after => exact keeps_ok
  | error fault => exact keeps_self

theorem leads_dispatch_access {α : Type} (x : Access α) (f : α → Command)
    (htries : Leads x site.repository fun outcome r =>
      (∃ a, outcome = .ok a) ∨ r.store = site.repository.store)
    (hrun : dispatch.perform c site = Work.perform (do
      let a ← Work.access x
      Work.change fun _ => f a) c site) :
    Leads dispatch (c, site) (site.Keeps c) := by
  rw [Work.leads_congr hrun, leads_bind, Work.leads_access]
  refine htries.mono fun outcome r hstore => ?_
  cases outcome with
  | ok a => exact keeps_ok
  | error fault =>
    exact fun _ _ => ⟨⟨rfl, hstore.resolve_left fun ⟨_, hok⟩ => nomatch hok⟩, rfl⟩

theorem leads_dispatch_read {α : Type} (x : Access α) (f : α → Command)
    (hspares : Leads x site.repository fun _ r => r.store = site.repository.store)
    (hrun : dispatch.perform c site = Work.perform (do
      let a ← Work.access x
      Work.change fun _ => f a) c site) :
    Leads dispatch (c, site) (site.Keeps c) :=
  leads_dispatch_access x f (hspares.mono fun _ _ hstore => .inr hstore) hrun

theorem leads_dispatch_follow (d : Draft) (note : String) (blob : Option Blob) :
    Leads dispatch (.deref d note blob, site)
      (site.Keeps (Command.deref d note blob).attempted) := by
  unfold dispatch
  rw [leads_bind, Work.leads_own]
  simp only [leads_bind, leads_settle]
  rcases Command.apply_deref d note blob with
    ⟨id, rev, href, happly⟩ | ⟨href, fault, happly⟩
  · rw [Command.attempted_deref href]
    simp only [happly, Work.leads_change, leads_bind, Work.leads_access]
    refine (Repository.spares_fetchBlob id rev).mono fun outcome r hstore => ?_
    cases outcome with
    | ok found => exact keeps_ok
    | error fault => exact fun _ _ => ⟨⟨rfl, hstore⟩, rfl⟩
  · simp only [happly, Command.attempted, href]
    exact keeps_self

theorem leads_dispatch_attempted (c : Command) (site : Site) :
    Leads dispatch (c, site) (site.Keeps c.attempted) := by
  cases c with
  | transit | pause | resume | finish | stack | unstack | refer => exact leads_dispatch_apply rfl
  | keep | noop | execute => exact keeps_ok
  | deref d note blob => exact leads_dispatch_follow d note blob
  | bundle parts =>
    exact leads_dispatch_access (Repository.commit site.now parts) .bundle
      (Repository.tries_commit site.now parts) rfl
  | delay r =>
    let copy := r.snapshot r.draft.current site.now
    exact leads_dispatch_access (Repository.delay copy.1 copy.2)
      (fun item => .delay { r with result := some item })
      (Repository.tries_changeStore .delay _) rfl
  | storeBlob blob =>
    exact leads_dispatch_access (Repository.storeBlob blob) .storeBlob
      (Repository.tries_storeBlob blob) rfl
  | fetchBlob blob =>
    exact leads_dispatch_read (Repository.fetchBlob blob.id blob.rev) .fetchBlob
      (Repository.spares_fetchBlob blob.id blob.rev) rfl
  | findState id rev _ =>
    exact leads_dispatch_read (Repository.findState id rev) (.findState id rev <| some ·)
      (Repository.spares_findState id rev) rfl
  | findLabelled labels _ =>
    exact leads_dispatch_read (Repository.findLabelled labels) (.findLabelled labels <| some ·)
      (Repository.spares_readStore .findLabelled _) rfl
  | listStates q _ =>
    exact leads_dispatch_read (Repository.listStates q) (.listStates q <| some ·)
      (Repository.spares_listStates q) rfl
  | listDelayed q _ =>
    exact leads_dispatch_read (Repository.listDelayed q) (.listDelayed q <| some ·)
      (Repository.spares_readStore .listDelayed _) rfl

end

/-- A dispatch that fails leaves the store as it was. It changes the command exactly if that follows
a note which is read as a reference, and then puts the reference in the place of the blob. -/
theorem failed_dispatch_only_leaves_reference {c : Command} {site : Site} {fault : Fault}
    (h : (dispatch.perform c site).1 = .error fault) :
    let left := dispatch.perform c site
    site.Spared left.2.2 ∧ left.2.1 = c.attempted ∧
      (left.2.1 ≠ c ↔ ∃ d note blob id rev, c = .deref d note blob ∧
        d.current.reference? note = some (id, rev) ∧ blob ≠ some (.reference id rev)) ∧
      ∀ parts, c = .bundle parts → ∀ stored after fault,
        (Transaction.commit site.now).run.run (parts, site.store) = (.error fault, after, stored) →
          after = parts ∧ stored = site.store := by
  intro left
  have hkeeps : site.Keeps c.attempted left.1 left.2 := leads_dispatch_attempted c site
  obtain ⟨hspared, hleft⟩ := hkeeps fault h
  refine ⟨hspared, hleft, ?_, fun parts _ stored after fault hrun => ?_⟩
  · rw [hleft]
    exact Command.attempted_ne_iff
  · rw [Transaction.run_commit] at hrun
    cases hprepare : site.store.prepare parts with
    | error reported =>
      rw [hprepare] at hrun
      cases hrun
      exact ⟨rfl, rfl⟩
    | ok staged =>
      rw [hprepare] at hrun
      cases hrun

/-- A state that does not exist is looked up again by a command that has the answer of before. -/
theorem failed_dispatch_only_leaves_reference_of_missing :
    let c := Command.findState ⟨"s1"⟩ 0 (some default)
    let left := dispatch.perform c default
    left.1 = .error (.notFound (.state ⟨"s1"⟩ 0)) ∧ left.2.1 = c ∧
      left.2.2.store = (default : Site).store := by
  intro c left
  have hfails : left.1 = .error (.notFound (.state ⟨"s1"⟩ 0)) := rfl
  obtain ⟨hspared, hleft, -⟩ := failed_dispatch_only_leaves_reference hfails
  exact ⟨hfails, hleft, hspared.store⟩

/-- The blob of a reference does not exist. The command is left with a blob of this revision that
holds nothing. -/
theorem failed_dispatch_leaves_reference :
    let arrived : State := { State.new ⟨"s1"⟩ with annotations := .ofList [("doc", "data:d1:1")] }
    let c := Command.deref (.ofState arrived) "doc" none
    let left := dispatch.perform c default
    left.1 = .error (.notFound (.blob ⟨"d1"⟩)) ∧
      left.2.1 = .deref (.ofState arrived) "doc" (some ⟨⟨"d1"⟩, 1, false, []⟩) ∧ left.2.1 ≠ c := by
  intro arrived c left
  have href : arrived.reference? "doc" = some (⟨"d1"⟩, 1) := by decide +kernel
  have hfails : left.1 = .error (.notFound (.blob ⟨"d1"⟩)) := by decide +kernel
  have hkeeps : Site.Keeps default c.attempted left.1 left.2 := leads_dispatch_attempted c default
  obtain ⟨-, hleft⟩ := hkeeps _ hfails
  refine ⟨hfails, hleft.trans (Command.attempted_deref href), ?_⟩
  rw [hleft]
  exact Command.attempted_ne_iff.2 ⟨_, _, _, _, _, rfl, href, nofun⟩

end Workflow
