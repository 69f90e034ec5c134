import Workflow.Proofs.Recovery

/-!
# What storing the watermark sees

Confirming the lease, and so storing the watermark of recovery, sees no more of the log than its
length and the last meta state. It comes out alike wherever these are the same.
-/

set_option autoImplicit false

namespace Workflow

/-- What confirming a lease sees of a site. -/
structure View where
  now : Instant
  head : Int
  last? : Option State

def Site.view (metaId : StateId) (site : Site) : View :=
  ⟨site.now, site.store.log.head, site.store.log.latest? metaId⟩

/-- The work comes out alike wherever it sees the same: it answers the same, leaves the same of its
own, and adds the same entries. -/
def Effect.Foreseen {σ α : Type} (metaId : StateId) (v : View) (x : Work σ α) (own : σ) : Prop :=
  ∃ outcome next, ∃ added : List State, ∀ site : Site, site.Plain (fun _ _ => False) →
    site.view metaId = v → Effect.Leads x (own, site) fun o p => o = outcome ∧ p.1 = next ∧
      ∃ g, p.2 = site.after (added.foldl Store.record site.store) g

open Effect

namespace Lease

variable {l : Lease} {v : View}

theorem leads_tryCommit_faultless {site : Site} (h : site.Plain fun _ _ => False) {c : Command}
    {d moved : Draft} (hc : c.Moves d moved) {Q : Except Fault Bool → Lease × Site → Prop}
    (hanonymous : ∀ g, g.Allows (fun _ _ => False) → d.id.isEmpty = true →
      Q (.error (.invalid (.anonymous c.name))) (l, site.after site.store g))
    (hwon : ∀ g e, g.Allows (fun _ _ => False) → d.id.isEmpty = false →
      d.expectedRev = site.store.log.latestRev d.id →
      e = Store.entryOf site.store.log site.now moved.current →
      Q (.ok true) ({ l with known := .ofState e, commits := l.commits + 1 },
        site.after (site.store.record e) g))
    (hlost : ∀ g, g.Allows (fun _ _ => False) → d.id.isEmpty = false →
      d.expectedRev ≠ site.store.log.latestRev d.id →
      Q (.ok false) (l, site.after site.store g)) :
    Leads (tryCommit c) (l, site) Q := by
  unfold tryCommit
  simp only [leads_bind]
  refine Work.leads_commit?_faultless h hc hanonymous (fun g e hg hid hrev he => ?_) hlost
  simp only [leads_bind, Work.leads_change, leads_pure, hc.resulting?_eq, Option.getD_some]
  exact hwon g e hg hid hrev he

theorem foreseen_refresh : Foreseen l.metaId v refresh l := by
  cases hlast : v.last? with
  | none =>
    refine ⟨.error (.notFound (.state l.metaId 0)), l, [], fun site h hview => ?_⟩
    have hnone : site.store.log.latest? l.metaId = none := (congrArg View.last? hview).trans hlast
    unfold refresh
    simp only [leads_bind, Work.leads_own]
    refine Work.leads_findState h (fun _ _ _ himpossible => himpossible.elim) fun g _ => ?_
    simp only [Log.find, if_true, hnone]
    exact ⟨trivial, trivial, g, rfl⟩
  | some e =>
    refine ⟨.ok (), { l with known := .ofState e, active := l.active && e.holder == l.holder }, [],
      fun site h hview => ?_⟩
    have hsome : site.store.log.latest? l.metaId = some e := (congrArg View.last? hview).trans hlast
    unfold refresh
    simp only [leads_bind, Work.leads_own]
    refine Work.leads_findState h (fun _ _ _ himpossible => himpossible.elim) fun g _ => ?_
    simp only [Log.find, if_true, hsome]
    exact ⟨rfl, rfl, g, rfl⟩

/-- The draft by which the holder confirms the lease. -/
def claim (l : Lease) (change : Draft.Change) : Draft :=
  (change.apply l.known).annotate Mark.leaseHolder l.holder

theorem leads_confirm_faultless {site : Site} (h : site.Plain fun _ _ => False)
    (hactive : l.active = true) (change : Draft.Change)
    {Q : Except Fault Bool → Lease × Site → Prop}
    (hanonymous : ∀ g, g.Allows (fun _ _ => False) → (l.claim change).id.isEmpty = true →
      Q (.error (.invalid (.anonymous (Command.keep (l.claim change)).name)))
        (l, site.after site.store g))
    (hwon : ∀ g e, g.Allows (fun _ _ => False) → (l.claim change).id.isEmpty = false →
      (l.claim change).expectedRev = site.store.log.latestRev (l.claim change).id →
      e = Store.entryOf site.store.log site.now (l.claim change).current →
      Q (.ok true) ({ l with known := .ofState e, commits := l.commits + 1 },
        site.after (site.store.record e) g))
    (hlost : ∀ g, g.Allows (fun _ _ => False) → (l.claim change).id.isEmpty = false →
      (l.claim change).expectedRev ≠ site.store.log.latestRev (l.claim change).id →
      Leads refresh ({ l with active := false }, site.after site.store g) fun o p =>
        Q (o.map fun _ => false) p) :
    Leads (confirm change.apply) (l, site) Q := by
  obtain ⟨metaId, holder, known, active, commits⟩ := l
  obtain rfl : active = true := hactive
  unfold confirm
  simp only [leads_bind, Work.leads_own, Bool.not_true, Bool.false_eq_true, if_false]
  refine leads_tryCommit_faultless h (Command.moves_keep _) hanonymous ?_ ?_
  · exact hwon
  · intro g hg hid hrev
    simp only [Bool.false_eq_true, if_false, leads_bind, Work.leads_change]
    refine (hlost g hg hid hrev).mono fun o p hp => ?_
    cases o with
    | error fault => exact hp
    | ok _ => exact hp

/-- Confirming the lease sees no more of the log than its length and the last meta state. -/
theorem foreseen_confirm (hknown : l.known.id = l.metaId) (change : Draft.Change) :
    Foreseen l.metaId v (confirm change.apply) l := by
  have hlatest {site : Site} (hview : site.view l.metaId = v) :
      site.store.log.latestRev (l.claim change).id = v.last?.elim 0 State.rev := by
    have hid : (l.claim change).id = l.metaId := (change.id_apply l.known).trans hknown
    rw [← hview, hid]
    rfl
  cases hactive : l.active with
  | false =>
    refine ⟨.ok false, l, [], fun site h _ => ?_⟩
    unfold confirm
    simp only [leads_bind, Work.leads_own, hactive]
    exact ⟨rfl, rfl, site.repository.gate, rfl⟩
  | true =>
    cases hid : (l.claim change).id.isEmpty with
    | true =>
      refine ⟨.error (.invalid (.anonymous (Command.keep (l.claim change)).name)), l, [],
        fun site h _ => ?_⟩
      refine leads_confirm_faultless h hactive change ?_ ?_ ?_
      · exact fun g _ _ => ⟨rfl, rfl, g, rfl⟩
      · exact fun g e _ hid' => nomatch hid.symm.trans hid'
      · exact fun g _ hid' => nomatch hid.symm.trans hid'
    | false =>
      by_cases hrev : (l.claim change).expectedRev = v.last?.elim 0 State.rev
      · let e : State :=
          { (l.claim change).current with rev := v.head + 1, committedAt := some v.now }
        refine ⟨.ok true, { l with known := .ofState e, commits := l.commits + 1 }, [e],
          fun site h hview => ?_⟩
        refine leads_confirm_faultless h hactive change ?_ ?_ ?_
        · exact fun g _ hid' => nomatch hid.symm.trans hid'
        · intro g e' _ _ _ he'
          have heq : e' = e := by
            subst hview
            exact he'
          subst heq
          exact ⟨rfl, rfl, g, rfl⟩
        · exact fun g _ _ hne => absurd (hrev.trans (hlatest hview).symm) hne
      · obtain ⟨outcome, next, added, hrefresh⟩ :=
          foreseen_refresh (l := { l with active := false }) (v := v)
        refine ⟨outcome.map fun _ => false, next, added, fun site h hview => ?_⟩
        refine leads_confirm_faultless h hactive change ?_ ?_ ?_
        · exact fun g _ hid' => nomatch hid.symm.trans hid'
        · exact fun g e _ _ hrev' => absurd (hrev'.trans (hlatest hview)) hrev
        · intro g hg _ _
          refine (hrefresh _ (h.after site.store hg) hview).mono fun o p hp => ?_
          obtain ⟨rfl, hnext, g', hsite⟩ := hp
          exact ⟨rfl, hnext, g', hsite⟩

end Lease

namespace Recoverer

theorem foreseen_storeWatermark {v : View} {r : Recoverer}
    (hknown : r.lease.known.id = r.lease.metaId) (c : RecovererSettings) (now : Instant) :
    Foreseen r.lease.metaId v (storeWatermark c now) r := by
  by_cases hdue : c.commitRevGap < r.watermark - r.storedWatermark ∨
      r.watermark ≠ r.storedWatermark ∧ r.lease.hasPassed c.commitInterval now ∨
      r.lease.hasPassed c.keepalive now
  · obtain ⟨outcome, lease, added, hconfirm⟩ :=
      Lease.foreseen_confirm (v := v) hknown (noting r.watermark)
    let next : Recoverer := { r with lease := lease }
    refine ⟨outcome.map fun _ => (), if outcome.toOption = some false then next.reset else next,
      added, fun site h hview => ?_⟩
    unfold storeWatermark
    simp only [leads_bind, Work.leads_own, if_pos hdue, onLease, Work.leads_within]
    refine (hconfirm site h hview).mono fun o p hp => ?_
    obtain ⟨rfl, rfl, g, hsite⟩ := hp
    cases o with
    | error fault => exact ⟨rfl, rfl, g, hsite⟩
    | ok held =>
      cases held with
      | true => exact ⟨rfl, rfl, g, hsite⟩
      | false => exact ⟨rfl, rfl, g, hsite⟩
  · refine ⟨.ok (), r, [], fun site h _ => ?_⟩
    unfold storeWatermark
    simp only [leads_bind, Work.leads_own, if_neg hdue]
    exact ⟨rfl, rfl, site.repository.gate, rfl⟩

end Recoverer

end Workflow
