import Workflow.Proofs.Event
import Workflow.Proofs.Sparing

/-!
# What a failed start leaves behind

A component that fails to start leaves the store as it was. A service starts its components one
after the other and does not stop those that started before one fails: if it is the recoverer that
fails nothing is left behind, and if it is the delayer the recoverer is, with its loop and its
lease.
-/

set_option autoImplicit false

namespace Workflow

open Effect

namespace Lease

variable {l : Lease} {site : Site}

theorem spares_findState {σ : Type} {own : σ} (id : StateId) :
    Leads (Work.access (Repository.findState id 0)) (own, site) fun _ p => site.Spared p.2 := by
  rw [Work.leads_access]
  exact (Repository.spares_findState id 0).mono fun _ r hstore => ⟨rfl, hstore⟩

theorem tries_tryCommit (c : Command) :
    Leads (tryCommit c) (l, site) fun outcome p => site.Tried (outcome = .ok true) p.2 := by
  unfold tryCommit Work.commit? Work.commit
  simp only [leads_bind, leads_tryCatch, Work.leads_now, Work.leads_access]
  refine (Repository.tries_commit site.now [c]).mono fun outcome r hstore => ?_
  cases outcome with
  | ok parts =>
    exact .inl ⟨rfl, rfl⟩
  | error fault =>
    have hspared : site.Spared { site with repository := r } :=
      ⟨rfl, hstore.resolve_left fun ⟨_, hok⟩ => nomatch hok⟩
    simp only
    split
    · exact .inr hspared
    · exact .inr hspared

theorem spares_refresh : Leads refresh (l, site) fun _ p => site.Spared p.2 := by
  unfold refresh
  rw [leads_bind, Work.leads_own]
  exact (spares_findState l.metaId).bind (fun _ _ hspared => hspared) fun _ _ hspared => hspared

theorem tries_takeOver (stale : Span) :
    Leads (takeOver stale) (l, site) fun outcome p => site.Tried (outcome = .ok true) p.2 := by
  unfold takeOver
  simp only [leads_bind, Work.leads_own]
  split
  · exact .inr (.refl site)
  · simp only [leads_bind, Work.leads_now]
    split
    · exact .inr (.refl site)
    · simp only [leads_bind]
      refine (tries_tryCommit _).mono fun outcome p htried => ?_
      cases outcome with
      | error fault => exact htried
      | ok won =>
        cases won with
        | true => exact htried
        | false =>
          have hspared : site.Spared p.2 := htried.resolve_left fun h => nomatch h.1
          simp only [Bool.false_eq_true, if_false]
          exact spares_refresh.bind (fun _ _ hspared' => .inr (hspared.trans hspared'))
            fun _ _ hspared' => .inr (hspared.trans hspared')

theorem tries_acquire (stale : Span) (prepare : Draft → Draft) :
    Leads (acquire stale prepare) (l, site) fun outcome p => site.Tried (outcome = .ok ()) p.2 := by
  unfold acquire
  simp only [leads_bind, Work.leads_own, leads_tryCatch]
  refine (spares_findState l.metaId).mono fun outcome p hspared => ?_
  cases outcome with
  | ok known =>
    change Leads (discard (takeOver stale)) ({ p.1 with known := known }, p.2) fun outcome q =>
      site.Tried (outcome = .ok ()) q.2
    rw [leads_discard]
    refine (tries_takeOver stale).mono fun outcome q htried => hspared.tried ?_
    cases outcome with
    | ok won => exact htried.imp_left fun h => ⟨rfl, h.2⟩
    | error fault => exact htried.imp_left fun h => nomatch h.1
  | error fault =>
    simp only
    split
    · exact .inr hspared
    · simp only [leads_bind]
      refine (tries_tryCommit _).mono fun outcome q htried => ?_
      have htried' := hspared.tried htried
      cases outcome with
      | error fault => exact htried'.imp_left fun h => nomatch h.1
      | ok won =>
        cases won with
        | true => exact htried'.imp_left fun h => ⟨rfl, h.2⟩
        | false =>
          have hspared' : site.Spared q.2 := htried'.resolve_left fun h => nomatch h.1
          simp only [Bool.false_eq_true, if_false]
          exact spares_refresh.bind (fun _ _ hspared'' => .inr (hspared'.trans hspared''))
            fun _ _ hspared'' => .inr (hspared'.trans hspared'')

end Lease

theorem Recoverer.tries_start (stale : Span) {r : Recoverer} {site : Site} :
    Leads (Recoverer.start stale) (r, site) fun outcome p =>
      site.Tried (outcome = .ok ()) p.2 := by
  unfold Recoverer.start onLease
  simp only [leads_bind, Work.leads_within]
  refine (Lease.tries_acquire stale _).mono fun outcome p htried => ?_
  cases outcome with
  | ok => exact htried
  | error fault => exact htried

theorem Delayer.tries_start (stale : Span) {d : Delayer} {site : Site} :
    Leads (Delayer.start stale) (d, site) fun outcome p => site.Tried (outcome = .ok ()) p.2 := by
  unfold Delayer.start onLease
  simp only [leads_bind, Work.leads_within]
  refine (Lease.tries_acquire stale _).mono fun outcome p htried => ?_
  cases outcome with
  | ok => exact htried
  | error fault => exact htried

namespace Scenario

open Event Script

/-- Nothing changed in a world but what its repository counts and keeps of what was read. -/
structure World.Spared (w v : World) : Prop where
  beside : v = { w with repository := v.repository }
  store : v.repository.store = w.repository.store

/-- The fault that an answer reports. -/
def Answer.fault? : Answer → Option Fault
  | failed f => some f
  | _ => none

theorem Answer.eq_failed_of_fault? {a : Answer} {f : Fault} (h : a.fault? = some f) :
    a = failed f := by
  cases a <;> cases h
  rfl

/-- The loop of a recoverer goes on. -/
structure World.Recovers (w : World) (key : Nat) : Prop where
  task : w.tasks.get? key = some .recoverer
  alive : ∃ c, w.recoverers.get? key = some c ∧ c.standing = .alive ∧ c.cancelled = false

theorem World.Spared.refl (w : World) : w.Spared w := ⟨rfl, rfl⟩

theorem World.Spared.recovers {w v : World} (h : w.Spared v) {key : Nat} (hw : w.Recovers key) :
    v.Recovers key := by
  rw [h.beside]
  exact ⟨hw.task, hw.alive⟩

variable {w : World}

theorem leads_perform_of_tries {σ : Type} {key : Nat} {x : Work σ Unit} {own : σ}
    (htries : ∀ site, Effect.Leads x (own, site) fun outcome p =>
      site.Tried (outcome = .ok ()) p.2) :
    Leads (perform key x own) w fun r v =>
      r.1 = .ok () ∧ v = { w with repository := v.repository } ∨ w.Spared v := by
  rw [leads_perform]
  refine (htries (siteAt w key)).mono fun outcome p htried => ?_
  rcases htried with ⟨hok, hbeside⟩ | hspared
  · have hnone : p.2.launched = [] := by rw [hbeside]; rfl
    rw [hnone]
    exact .inl ⟨hok, rfl⟩
  · have hnone : p.2.launched = [] := by rw [hspared.beside]; rfl
    rw [hnone]
    exact .inr ⟨rfl, hspared.store⟩

theorem leads_startRecoverer (key : Nat) (c : RecovererSettings) :
    Leads (startRecoverer key c) w fun started v =>
      (∀ f, started = some (.error f) → w.Spared v) ∧
        ∀ own, started = some (.ok own) → (engineAt w key).isOpen = true → v.Recovers own := by
  unfold startRecoverer
  cases c.validate with
  | error f => exact ⟨fun _ _ => .refl w, nofun⟩
  | ok =>
    cases c.staleAfter? with
    | none => exact ⟨nofun, nofun⟩
    | some stale =>
      simp only [Event.leads_bind]
      refine (leads_perform_of_tries fun _ => Recoverer.tries_start stale).mono
        fun r v hstarted => ?_
      obtain ⟨outcome, own⟩ := r
      cases outcome with
      | error f =>
        exact ⟨fun _ _ => hstarted.resolve_left (fun h => nomatch h.1), nofun⟩
      | ok =>
        refine ⟨nofun, fun key' hkey hopen => ?_⟩
        have hbeside : v = { w with repository := v.repository } :=
          hstarted.elim And.right World.Spared.beside
        obtain rfl := Except.ok.inj (Option.some.inj hkey)
        refine ⟨SortedMap.get?_insert_self .., _, SortedMap.get?_insert_self .., rfl, ?_⟩
        rw [hbeside]
        exact congrArg not hopen

theorem leads_startDelayer (key : Nat) (c : DelayerSettings) :
    Leads (startDelayer key c) w fun started v =>
      ∀ f, started = some (.error f) → w.Spared v := by
  unfold startDelayer
  cases c.validate with
  | error f => exact fun _ _ => .refl w
  | ok =>
    cases c.staleAfter? with
    | none => exact nofun
    | some stale =>
      simp only [Event.leads_bind]
      refine (leads_perform_of_tries fun _ => Delayer.tries_start stale).mono
        fun r v hstarted => ?_
      obtain ⟨outcome, own⟩ := r
      cases outcome with
      | error f => exact fun _ _ => hstarted.resolve_left fun h => nomatch h.1
      | ok => exact nofun

theorem engineAt_newEngine (settings : EngineSettings) :
    engineAt ((newEngine settings).run w).2 w.nextKey = ⟨settings, true, 0⟩ := by
  change ((w.engines.insert w.nextKey ⟨settings, true, 0⟩).get? w.nextKey).getD _ = _
  rw [SortedMap.get?_insert_self]
  rfl

theorem leads_startService (name : String) (c : ServiceSettings) {ready : World}
    (hready : ((newEngine c.engine).run w).2 = ready) {begun : Option (Except Fault Nat) × World}
    (hbegun : (startRecoverer w.nextKey c.recoverer).run ready = begun) :
    Leads (startService name c) w fun a v => ∀ f, a = .failed f →
      begun.1 = some (.error f) ∧ ready.Spared v ∨
        ∃ key, begun.1 = some (.ok key) ∧ begun.2.Spared v ∧ v.Recovers key := by
  have hopen : (engineAt ready w.nextKey).isOpen = true := by
    rw [← hready, engineAt_newEngine]
  unfold startService
  rw [Event.leads_bind, leads_newEngine, Event.leads_bind]
  change Leads (startRecoverer w.nextKey c.recoverer) ((newEngine c.engine).run w).2 _
  rw [hready]
  refine (leads_startRecoverer w.nextKey c.recoverer).run_eq.mono fun started v hstarted => ?_
  obtain ⟨hrun, hspared, hrecovers⟩ := hstarted
  obtain rfl := hbegun.symm.trans hrun
  rcases started with _ | g | key
  · intro f hfailed
    cases hfailed
  · intro f hfailed
    obtain rfl := Answer.failed.inj hfailed
    exact .inl ⟨rfl, hspared g rfl⟩
  · simp only [Event.leads_bind]
    refine (leads_startDelayer w.nextKey c.delayer).mono fun started v hleft => ?_
    rcases started with _ | g | _
    · intro f hfailed
      cases hfailed
    · intro f _
      exact .inr ⟨key, rfl, hleft g rfl, (hleft g rfl).recovers (hrecovers key rfl hopen)⟩
    · intro f hfailed
      cases hfailed

/-- A service that fails to start leaves nothing behind if its recoverer does not start. Else it
leaves behind what the start of the recoverer did, and the loop of the recoverer goes on. -/
theorem failed_service_leaves_recoverer_or_nothing (w : World) (name : String)
    (c : ServiceSettings) (f : Fault) (h : ((startService name c).run w).1 = .failed f) :
    let ready := ((newEngine c.engine).run w).2
    let begun := (startRecoverer w.nextKey c.recoverer).run ready
    let left := ((startService name c).run w).2
    begun.1 = some (.error f) ∧ ready.Spared left ∨
      ∃ key, begun.1 = some (.ok key) ∧ begun.2.Spared left ∧ left.Recovers key :=
  leads_startService name c rfl rfl f h

/-- A recoverer without a meta state to share is refused. -/
theorem failed_service_leaves_recoverer_or_nothing_of_refused :
    let c : ServiceSettings := ⟨default, { metaId := ⟨""⟩, holder := "r" }, { holder := "d" }⟩
    let w : World := .new default .direct default ∅
    let left := ((startService "v" c).run w).2
    ((startService "v" c).run w).1 = .failed (.invalid .recovererMeta) ∧
      left.repository.store = w.repository.store ∧ left.tasks = w.tasks := by
  intro c w left
  have hfailed : ((startService "v" c).run w).1 = .failed (.invalid .recovererMeta) := rfl
  have hbegun : ((startRecoverer w.nextKey c.recoverer).run ((newEngine c.engine).run w).2).1 =
      some (.error (.invalid .recovererMeta)) := rfl
  rcases failed_service_leaves_recoverer_or_nothing w "v" c _ hfailed with ⟨-, hspared⟩ | hleft
  · have htasks := congrArg World.tasks hspared.beside
    exact ⟨hfailed, hspared.store, htasks⟩
  · obtain ⟨key, hkey, -⟩ := hleft
    cases hbegun.symm.trans hkey

/-- The delayer of a service may not track anything, so that the service does not start. Its
recoverer goes on and holds a lease that nobody held before. -/
theorem failed_service_leaves_recoverer :
    let c : ServiceSettings :=
      ⟨default, { holder := "recoverer" }, { holder := "delayer", maxTracked := 0 }⟩
    let w : World := .new default .direct default ∅
    let left := ((startService "v" c).run w).2
    ((startService "v" c).run w).1 = .failed (.invalid .delayerCapacity) ∧
      left.Recovers 2 ∧ w.repository.store.log.entries = [] ∧
      left.repository.store.log.entries.map (fun e => (e.id, e.holder)) =
        [(c.recoverer.metaId, "recoverer")] := by
  intro c w left
  have hfault : ((startService "v" c).run w).1.fault? = some (.invalid .delayerCapacity) := by
    decide +kernel
  have hfailed := Answer.eq_failed_of_fault? hfault
  have hbegun : ((startRecoverer w.nextKey c.recoverer).run ((newEngine c.engine).run w).2).1 =
      some (.ok 2) := by decide +kernel
  have hrecovers : left.Recovers 2 := by
    rcases leads_startService "v" c rfl rfl _ hfailed with ⟨hno, -⟩ | ⟨key, hkey, -, hgoes⟩
    · cases hbegun.symm.trans hno
    · cases hbegun.symm.trans hkey
      exact hgoes
  exact ⟨hfailed, hrecovers, rfl, by decide +kernel⟩

end Scenario

end Workflow
