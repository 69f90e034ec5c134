import Workflow.Proofs.Postponing
import Workflow.Proofs.Stacking
import Workflow.Proofs.Storing

/-!
# Dispatching alone and in a bundle

A command that adds nothing to the log can be dispatched by itself or as the only part of a bundle.
There are two ways through the engine then, and both end in what the command does to the store
(`Store.act`): the same answer or the same fault, the same command and the same store afterwards.
-/

set_option autoImplicit false

namespace Workflow

open Effect

namespace Store

open Command

/-! ### What a command does -/

/-- What a command that adds nothing to the log does to a store: the store and the command
afterwards. -/
def act (s : Store) (now : Instant) : Command → Except Fault (Store × Command)
  | .delay r =>
    let (copy, dueAt) := r.snapshot r.draft.current now
    let (s, item) := s.delay copy dueAt
    .ok (s, .delay { r with result := some item })
  | .storeBlob blob =>
    let (s, stored) := s.storeBlob blob
    .ok (s, .storeBlob stored)
  | .fetchBlob blob => do
    let found ← s.blobs.fetch blob.id blob.rev
    .ok (s, .fetchBlob found)
  | .findState id rev _ => do
    let found ← s.log.find id rev
    .ok (s, .findState id rev (some found))
  | .findLabelled labels _ => do
    let found ← s.log.findLabelled labels
    .ok (s, .findLabelled labels (some found))
  | c => do
    let c ← c.apply
    let c ← s.resolve c
    .ok (s, c)

section

variable {s : Store} {c : Command} {now : Instant}

theorem resolve_of_ne (h : c.name ≠ "dereference_data") : s.resolve c = .ok c := by
  cases c <;> first | rfl | exact absurd rfl h

theorem act_of_works {d : Draft} (hd : c.draft? = some d) (hdelay : c.isDelay = false) :
    s.act now c = (s.effect d c).map fun after => (s, after) := by
  have hflat : (do
      let c ← c.apply
      let c ← s.resolve c
      .ok (s, c)) = (c.apply >>= s.resolve).map fun after => (s, after) := by
    cases c.apply with
    | error fault => rfl
    | ok applied =>
      change (s.resolve applied >>= fun after => .ok (s, after)) = (s.resolve applied).map _
      cases s.resolve applied <;> rfl
  rw [effect, withDraft_of_draft? hd, ← hflat]
  cases c <;> first | rfl | (cases hdelay; done) | cases hd

theorem act_of_local {d : Draft} (hd : c.draft? = some d) (hdelay : c.isDelay = false)
    (hname : c.name ≠ "dereference_data") :
    s.act now c = c.apply.map fun after => (s, after) := by
  rw [act_of_works hd hdelay, effect, withDraft_of_draft? hd]
  cases happly : c.apply with
  | error fault => rfl
  | ok after =>
    have hresolve : s.resolve after = .ok after := resolve_of_ne (name_apply happly ▸ hname)
    simp only [bind, Except.bind, hresolve]

/-! ### As the only part of a bundle -/

theorem carryOut_of_untracked {st : Staging} (htracked : st.tracked = []) (work : List Command) :
    s.carryOut now st work =
      let (delays, done) := concludeAll now st.drafts s.delays work
      (done, { s with
        delays := delays
        blobs := st.writes.foldl Blobs.push { s.blobs with issued := st.issued } }) := by
  unfold carryOut
  rw [htracked]
  rfl

theorem validateBundle_singleton (hallowed : c.barredFromBundle = false)
    (hnamed : c.isAnonymous = false) : validateBundle [c] = .ok () := by
  simp [validateBundle, validateParts, hallowed, hnamed]

variable (hallowed : c.barredFromBundle = false) (hnamed : c.isAnonymous = false)

include hallowed hnamed

theorem commit_singleton_of_fails {fault : Fault}
    (hstage : s.stage (.start s.blobs) c = .error fault) : s.commit now [c] = .error fault := by
  rw [commit_eq_error_iff, prepare, validateBundle_singleton hallowed hnamed]
  simp only [stageAll, hstage, bind, Except.bind]

theorem commit_singleton_of_stages {st : Staging} {after : Command}
    (hstage : s.stage (.start s.blobs) c = .ok (st, after)) (htracked : st.tracked = []) :
    s.commit now [c] =
      let (delays, done) := conclude now st.drafts s.delays after
      .ok ({ s with
        delays := delays
        blobs := st.writes.foldl Blobs.push { s.blobs with issued := st.issued } }, [done]) := by
  have hprepare : s.prepare [c] = .ok (st, [after]) := by
    have hconflicts : s.conflicts st = [] := by rw [conflicts, htracked, List.filter_nil]
    rw [prepare, validateBundle_singleton hallowed hnamed]
    simp only [stageAll, hstage, hconflicts, requireNoConflict, bind, Except.bind]
    rfl
  rw [commit_of_prepare hprepare, carryOut_of_untracked htracked]
  rfl

theorem commit_singleton_of_works {d : Draft} (hd : c.draft? = some d)
    (hdelay : c.isDelay = false) (huntracked : c.isTracked = false) :
    s.commit now [c] = (s.effect d c).map fun after => (s, [after]) := by
  have hstage : s.stage (.start s.blobs) c =
      s.effect d c >>= fun after => .ok ((Staging.start s.blobs).record d.id after, after) :=
    stage_of_works hd hdelay
  cases heffect : s.effect d c with
  | error fault =>
    rw [heffect] at hstage
    exact commit_singleton_of_fails hallowed hnamed hstage
  | ok after =>
    rw [heffect] at hstage
    obtain ⟨htracked, e, he, hid, -⟩ := effect_keeps hd heffect
    have hnone : ((Staging.start s.blobs).record d.id after).tracked = [] :=
      tracked_record_of_not (htracked.trans huntracked)
    have hdone : after.isDelay = false := by
      rw [isDelay_eq, name_effect heffect, ← isDelay_eq, hdelay]
    have hadopt : after.adopt ((Staging.start s.blobs).record d.id after).drafts = after := by
      rw [adopt_eq he, Staging.record, he, hid]
      simp only [SortedMap.get?_insert_self, Option.getD_some, withDraft_of_draft? he]
    have hrequest := request?_of_not_delay hdone
    rw [← hadopt] at hrequest
    rw [commit_singleton_of_stages hallowed hnamed hstage hnone, conclude_of_no_request hrequest,
      hadopt]
    rfl

theorem commit_singleton_of_looks {α : Type} {x : Except Fault α} {f : α → Command}
    (hstage : s.stage (.start s.blobs) c = x >>= fun found => .ok (.start s.blobs, f found))
    (hidle : ∀ found, (f found).draft? = none) :
    s.commit now [c] = x.map fun found => (s, [f found]) := by
  cases x with
  | error fault => exact commit_singleton_of_fails hallowed hnamed hstage
  | ok found =>
    have hadopt := adopt_of_no_draft (hidle found) (Staging.start s.blobs).drafts
    have hrequest : (f found).request? = none := by
      have hno := hidle found
      cases hf : f found with
      | delay r =>
        rw [hf] at hno
        cases hno
      | _ => rfl
    rw [← hadopt] at hrequest
    rw [commit_singleton_of_stages hallowed hnamed hstage rfl, conclude_of_no_request hrequest,
      hadopt]
    rfl

theorem commit_singleton (huntracked : c.isTracked = false) :
    s.commit now [c] = (s.act now c).map fun (stored, done) => (stored, [done]) := by
  have hworks {d : Draft} (hd : c.draft? = some d) (hdelay : c.isDelay = false) :
      s.commit now [c] = (s.act now c).map fun (stored, done) => (stored, [done]) := by
    rw [commit_singleton_of_works hallowed hnamed hd hdelay huntracked, act_of_works hd hdelay]
    cases s.effect d c <;> rfl
  have hlooks {α : Type} {x : Except Fault α} {f : α → Command}
      (hstage : s.stage (.start s.blobs) c = x >>= fun found => .ok (.start s.blobs, f found))
      (hact : s.act now c = x >>= fun found => .ok (s, f found))
      (hidle : ∀ found, (f found).draft? = none) :
      s.commit now [c] = (s.act now c).map fun (stored, done) => (stored, [done]) := by
    rw [commit_singleton_of_looks hallowed hnamed hstage hidle, hact]
    cases x <;> rfl
  cases c with
  | stack | unstack | refer | deref => exact hworks rfl rfl
  | fetchBlob | findState | findLabelled => exact hlooks rfl rfl fun _ => rfl
  | delay r => exact commit_singleton_of_stages hallowed hnamed (stage_delay s _ r) rfl
  | storeBlob | noop => exact commit_singleton_of_stages hallowed hnamed rfl rfl
  | transit | pause | resume | finish | keep => cases huntracked
  | execute | listStates | listDelayed | bundle => cases hallowed

end

end Store

/-! ### Through the engine -/

/-- A dispatch at a site comes to a result: it leaves a store and a command, or it fails and the
store stays as it was. -/
def Site.ComesTo (site : Site) (result : Except Fault (Store × Command))
    (outcome : Except Fault Unit) (after : Command × Site) : Prop :=
  ∃ g, match result with
    | .ok (s, done) => outcome = .ok () ∧ after = (done, site.after s g)
    | .error fault => outcome = .error fault ∧ after.2 = site.after site.store g

section

variable {c : Command} {site : Site} (h : site.Plain fun _ _ => False)

include h

theorem leads_storeBlob {σ : Type} {own : σ} {blob : Blob}
    {Q : Except Fault Blob → σ × Site → Prop}
    (hdone : ∀ g, Q (.ok (site.store.storeBlob blob).2)
      (own, site.after (site.store.storeBlob blob).1 g)) :
    Leads (Work.access (Repository.storeBlob blob)) (own, site) Q := by
  have hchange : Leads (Work.access (Repository.changeStore .storeBlob fun s =>
      .ok (s.storeBlob blob))) (own, site) Q := by
    refine Work.leads_changeStore h (fun _ _ _ hnone => hnone.elim)
      (fun _ _ _ hfail => nomatch hfail) fun g s stored _ hok => ?_
    cases hok
    exact hdone g
  rw [Work.leads_access] at hchange ⊢
  unfold Repository.storeBlob
  simp only [leads_bind, leads_get, h.direct]
  exact hchange

omit h in
theorem leads_dispatch_local {d : Draft} (hd : c.draft? = some d) (hdelay : c.isDelay = false)
    (hname : c.name ≠ "dereference_data")
    (hrun : dispatch.perform c site = Work.perform (do
      let c ← Fault.settle c.apply
      Work.change fun _ => c) c site) :
    Leads dispatch (c, site) (site.ComesTo (site.store.act site.now c)) := by
  rw [Work.leads_congr hrun, leads_bind, leads_settle, Store.act_of_local hd hdelay hname]
  cases c.apply with
  | ok after => exact ⟨site.repository.gate, rfl, rfl⟩
  | error fault => exact ⟨site.repository.gate, rfl, rfl⟩

omit h in
theorem leads_dispatch_look {α : Type} (x : Access α) (f : α → Command) {found : Except Fault α}
    (hlook : Leads (Work.access x) (c, site) fun outcome p =>
      outcome = found ∧ ∃ g, p = (c, site.after site.store g))
    (hrun : dispatch.perform c site = Work.perform (do
      let a ← Work.access x
      Work.change fun _ => f a) c site)
    (hact : site.store.act site.now c = found >>= fun a => .ok (site.store, f a)) :
    Leads dispatch (c, site) (site.ComesTo (site.store.act site.now c)) := by
  rw [Work.leads_congr hrun, leads_bind]
  refine hlook.mono fun outcome p hp => ?_
  obtain ⟨rfl, g, rfl⟩ := hp
  rw [hact]
  cases outcome with
  | ok a => exact ⟨g, rfl, rfl⟩
  | error fault => exact ⟨g, rfl, rfl⟩

theorem leads_dispatch_deref (d : Draft) (note : String) (blob : Option Blob) :
    Leads dispatch (.deref d note blob, site)
      (site.ComesTo (site.store.act site.now (.deref d note blob))) := by
  rw [Store.act_of_works rfl rfl, Store.effect, Command.withDraft_of_draft? rfl]
  unfold dispatch
  rw [leads_bind, Work.leads_own]
  simp only [leads_bind, leads_settle]
  cases happly : (Command.deref d note blob).apply with
  | error fault => exact ⟨site.repository.gate, rfl, rfl⟩
  | ok after =>
    obtain ⟨found, rfl⟩ := Command.eq_of_applyDeref happly
    simp only [Work.leads_change, leads_bind]
    refine Store.leads_fetchBlob h (fun _ _ _ hnone => hnone.elim) fun g _ => ?_
    simp only [Store.resolve, bind, Except.bind]
    cases site.store.blobs.fetch found.id found.rev with
    | ok blob => exact ⟨g, rfl, rfl⟩
    | error fault => exact ⟨g, rfl, rfl⟩

theorem leads_dispatch_act (huntracked : c.isTracked = false)
    (hallowed : c.barredFromBundle = false) :
    Leads dispatch (c, site) (site.ComesTo (site.store.act site.now c)) := by
  cases c with
  | stack | unstack | refer => exact leads_dispatch_local rfl rfl (by simp [Command.name]) rfl
  | noop => exact ⟨site.repository.gate, rfl, rfl⟩
  | deref d note blob => exact leads_dispatch_deref h d note blob
  | delay r =>
    unfold dispatch
    rw [leads_bind, Work.leads_own]
    simp only [leads_bind, Work.leads_now]
    refine Work.leads_changeStore h (fun _ _ _ hnone => hnone.elim)
      (fun _ _ _ hfail => nomatch hfail) fun g s item _ hok => ?_
    cases hok
    exact ⟨g, rfl, rfl⟩
  | storeBlob blob =>
    unfold dispatch
    rw [leads_bind, Work.leads_own]
    simp only [leads_bind]
    exact leads_storeBlob h fun g => ⟨g, rfl, rfl⟩
  | fetchBlob blob =>
    refine leads_dispatch_look (Repository.fetchBlob blob.id blob.rev) .fetchBlob ?_ rfl rfl
    exact Store.leads_fetchBlob h (fun _ _ _ hnone => hnone.elim) fun g _ => ⟨rfl, g, rfl⟩
  | findState id rev _ =>
    refine leads_dispatch_look (Repository.findState id rev) (.findState id rev <| some ·) ?_ rfl
      rfl
    exact Work.leads_findState h (fun _ _ _ hnone => hnone.elim) fun g _ => ⟨rfl, g, rfl⟩
  | findLabelled labels _ =>
    refine leads_dispatch_look (Repository.findLabelled labels) (.findLabelled labels <| some ·) ?_
      rfl rfl
    exact Work.leads_readStore h (fun _ _ _ hnone => hnone.elim) fun g _ => ⟨rfl, g, rfl⟩
  | transit | pause | resume | finish | keep => cases huntracked
  | execute | listStates | listDelayed | bundle => cases hallowed

theorem leads_dispatch_bundle (parts : List Command) :
    Leads dispatch (.bundle parts, site) (site.ComesTo
      ((site.store.commit site.now parts).map fun (s, done) => (s, .bundle done))) := by
  unfold dispatch
  rw [leads_bind, Work.leads_own]
  simp only [leads_bind]
  refine Work.leads_commit h (fun _ _ _ hnone => hnone.elim) (fun g fault _ hfail => ?_)
    fun g s done _ hdone => ?_
  · rw [hfail]
    exact ⟨g, rfl, rfl⟩
  · rw [hdone]
    exact ⟨g, rfl, rfl⟩

end

/-- Dispatched by itself or as the only part of a bundle, a command that adds nothing to the log
succeeds or fails alike, with the same fault. Both ways leave the same store, and where they succeed
the bundle holds the command as it is left by itself. -/
theorem dispatch_agrees_with_bundle {c : Command} (huntracked : c.isTracked = false)
    (hallowed : c.barredFromBundle = false) (hnamed : c.isAnonymous = false) {site : Site}
    (hplain : site.Plain fun _ _ => False) :
    let alone := dispatch.perform c site
    let bundled := dispatch.perform (.bundle [c]) site
    alone.1 = bundled.1 ∧ (alone.1 = .ok () → bundled.2.1 = .bundle [alone.2.1]) ∧
      ∃ s g g', alone.2.2 = site.after s g ∧ bundled.2.2 = site.after s g' := by
  have halone := leads_dispatch_act hplain huntracked hallowed
  have hbundled := leads_dispatch_bundle hplain [c]
  rw [Store.commit_singleton hallowed hnamed huntracked] at hbundled
  unfold Leads at halone hbundled
  unfold Work.perform
  generalize dispatch.run.run (c, site) = alone at halone ⊢
  generalize dispatch.run.run (Command.bundle [c], site) = bundled at hbundled ⊢
  obtain ⟨outcome, done, after⟩ := alone
  obtain ⟨outcome', done', after'⟩ := bundled
  cases hact : site.store.act site.now c with
  | ok result =>
    rw [hact] at halone hbundled
    obtain ⟨g, rfl, hafter⟩ := halone
    obtain ⟨g', rfl, hafter'⟩ := hbundled
    cases hafter
    cases hafter'
    exact ⟨rfl, fun _ => rfl, result.1, g, g', rfl, rfl⟩
  | error fault =>
    rw [hact] at halone hbundled
    obtain ⟨g, rfl, hafter⟩ := halone
    obtain ⟨g', rfl, hafter'⟩ := hbundled
    exact ⟨rfl, nofun, site.store, g, g', hafter, hafter'⟩

/-- A blob without an identity gets the same one either way. -/
theorem dispatch_agrees_with_bundle_of_fresh :
    let c := Command.storeBlob ⟨⟨""⟩, 0, true, [1, 2]⟩
    let stored := Command.storeBlob ⟨.generated 1, 1, true, [1, 2]⟩
    let alone := dispatch.perform c default
    let bundled := dispatch.perform (.bundle [c]) default
    c.isTracked = false ∧ c.barredFromBundle = false ∧ c.isAnonymous = false ∧
      (default : Site).Plain (fun _ _ => False) ∧
      alone.1 = bundled.1 ∧ alone.2.1 = stored ∧ bundled.2.1 = .bundle [stored] ∧
      alone.2.2.store = bundled.2.2.store := by
  intro c stored alone bundled
  have hplain : (default : Site).Plain fun _ _ => False := ⟨rfl, fun _ _ h => nomatch h⟩
  have halone : alone.1 = .ok () ∧ alone.2.1 = stored := ⟨rfl, rfl⟩
  obtain ⟨hsame, hdone, s, g, g', hafter, hafter'⟩ :=
    dispatch_agrees_with_bundle (c := c) rfl rfl rfl hplain
  refine ⟨rfl, rfl, rfl, hplain, hsame, halone.2, ?_, ?_⟩
  · rw [← halone.2]
    exact hdone halone.1
  · rw [show alone.2.2 = _ from hafter, show bundled.2.2 = _ from hafter']
    rfl

end Workflow
