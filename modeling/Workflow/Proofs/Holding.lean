import Workflow.Proofs.Retrying

/-!
# Holding the lease

While the holder of a lease is not silent for long enough, no other component adds an entry to the
meta state. A holder that knows the latest entry confirms it without fail, as long as no call fails,
and what it does otherwise leaves the meta state alone.
-/

set_option autoImplicit false

namespace Workflow

open Effect

/-! ### Leases -/

namespace Lease

/-- By the latest entry of the meta state the component may not take the lease. -/
def Barred (metaId : StateId) (holder : String) (stale : Span) (now : Instant) (log : Log) : Prop :=
  ∃ last, log.latest? metaId = some last ∧ ¬ Free holder stale now last

/-- The component holds the lease by the latest entry of the meta state, added at an instant. -/
structure Owns (metaId : StateId) (holder : String) (l : Lease) (log : Log) (since : Instant) :
    Prop where
  fits : Fits metaId holder l log
  active : l.active = true
  latest : log.latest? metaId = some l.known.current
  since_eq : l.known.current.committedAt = some since

variable {allowed : Method → Fault → Prop} {metaId : StateId} {holder : String} {stale : Span}
  {l : Lease} {site : Site}

theorem Owns.bars {log : Log} {since now : Instant} (h : Owns metaId holder l log since)
    (hnamed : holder ≠ "") {other : String} (hother : holder ≠ other)
    (hsoon : ¬ since + stale ≤ now) : Barred metaId other stale now log := by
  refine ⟨_, h.latest, ?_⟩
  have hheld := h.fits.held h.active
  rintro (hnone | hown | ⟨since', hsince', hle⟩)
  · exact hnamed (hheld.symm.trans hnone)
  · exact hother (hheld.symm.trans hown)
  · rw [h.since_eq] at hsince'
    cases hsince'
    exact hsoon hle

theorem owns_of_wrote {log : Log} (hlog : log.Sound) {now : Instant} {notes : Notes} {e : State}
    (h : Wrote metaId holder log now notes l e) (ha : l.active = true) :
    Owns metaId holder l (log.append e) now := by
  refine ⟨h.fits, ha, h.latest?_eq_known hlog, ?_⟩
  rw [h.known]
  exact h.next.time_eq

section

variable (h : site.Plain allowed) (hlog : site.store.log.Sound)

include h hlog

theorem barred_acquire (prepare : Draft.Change)
    (hbar : Barred metaId holder stale site.now site.store.log) :
    Leads (acquire stale prepare.apply) (.new metaId holder, site) fun _ p =>
      p.2.store = site.store := by
  obtain ⟨last, hlast, hno⟩ := hbar
  refine leads_acquire h hlog prepare ?_ ?_ ?_ ?_
  · exact fun _ _ _ _ => rfl
  · exact fun _ _ _ _ _ => rfl
  · exact fun _ _ _ _ hnone => nomatch hnone.symm.trans hlast
  · intro _ _ last' _ _ hlast' hfree
    cases hlast.symm.trans hlast'
    exact absurd hfree hno

variable (hl : Fits metaId holder l site.store.log)

include hl

theorem barred_takeOver (hbar : Barred metaId holder stale site.now site.store.log) :
    Leads (takeOver stale) (l, site) fun _ p => p.2.store = site.store := by
  obtain ⟨last, hlast, hno⟩ := hbar
  refine leads_takeOver h hlog hl (fun _ => rfl) (fun _ _ _ _ _ _ _ _ => rfl) ?_
  intro _ _ _ last' _ _ hlast' hfree
  cases hlast.symm.trans hlast'
  exact absurd hfree hno

theorem barred_confirm (change : Draft.Change)
    (hbar : Barred metaId holder stale site.now site.store.log) :
    Leads (confirm change.apply) (l, site) fun _ p => p.2.store = site.store := by
  obtain ⟨last, hlast, hno⟩ := hbar
  refine leads_confirm h hlog hl change (fun _ => rfl) (fun _ _ _ _ => rfl)
    (fun _ _ _ _ _ _ _ _ => rfl) ?_
  intro ha _ _ _ _ hlast'
  cases hlast.symm.trans hlast'
  exact absurd (.inr (.inl (hl.held ha))) hno

theorem barred_release (change : Draft.Change)
    (hbar : Barred metaId holder stale site.now site.store.log) :
    Leads (release change.apply) (l, site) fun _ p => p.2.store = site.store := by
  obtain ⟨last, hlast, hno⟩ := hbar
  refine leads_release h hlog hl change (fun _ => rfl) (fun _ _ _ _ _ _ _ => rfl) ?_
  intro ha _ _ _ _ hlast'
  cases hlast.symm.trans hlast'
  exact absurd (.inr (.inl (hl.held ha))) hno

end

theorem owns_confirm (h : site.Plain fun _ _ => False) (hlog : site.store.log.Sound)
    {since : Instant} (hl : Owns metaId holder l site.store.log since)
    (hid : metaId.isEmpty = false) (change : Draft.Change)
    {Q : Except Fault Bool → Lease × Site → Prop}
    (hwon : ∀ g l' e, g.Allows (fun _ _ => False) →
      (site.store.log.append e).Sound → Owns metaId holder l' (site.store.log.append e) site.now →
      Q (.ok true) (l', site.after (site.store.record e) g)) :
    Leads (confirm change.apply) (l, site) Q := by
  have hmeta : ((change.apply l.known).annotate Mark.leaseHolder l.holder).id = metaId :=
    (change.id_apply l.known).trans (hl.fits.knows.current_mem.2.trans hl.fits.metaId_eq)
  have hrev : ((change.apply l.known).annotate Mark.leaseHolder l.holder).expectedRev =
      site.store.log.latestRev metaId := by
    have hcommitted : (change.apply l.known).expectedRev = l.known.expectedRev :=
      congrArg State.rev (change.committed_apply l.known)
    refine hcommitted.trans ?_
    rw [Draft.expectedRev, hl.fits.knows.committed_eq hlog, Log.latestRev, hl.latest]
    rfl
  unfold confirm tryCommit
  simp only [leads_bind, Work.leads_own, hl.active, Bool.not_true, Bool.false_eq_true, if_false]
  refine Work.leads_commit?_surely h (Command.moves_keep _) (by rw [hmeta, hid])
    (by rw [hmeta, hrev]) fun g e hg hnext => ?_
  simp only [leads_bind, Work.leads_change, leads_pure, (Command.moves_keep _).resulting?_eq,
    Option.getD_some, if_true]
  rw [hmeta] at hnext
  have hwrote := wrote_of_next (l := { l with known := .ofState e, commits := l.commits + 1 })
    hlog hl.fits.metaId_eq hl.fits.holder_eq hnext rfl fun _ => hl.fits.holder_eq
  exact hwon g _ e hg (hnext.sound hlog) (owns_of_wrote hlog hwrote hl.active)

end Lease

/-! ### Work that leaves the meta state alone -/

/-- Work that added no entry of a state. -/
structure Site.Avoids (allowed : Method → Fault → Prop) (id : StateId) (site site' : Site) :
    Prop where
  plain : site'.Plain allowed
  now_eq : site'.now = site.now
  sound : site'.store.log.Sound
  grows : site.store.log.entries <+: site'.store.log.entries
  of_eq : site'.store.log.of id = site.store.log.of id

section

variable {allowed : Method → Fault → Prop} {id : StateId} {site : Site}

theorem Site.avoids_after (h : site.Plain allowed) (hlog : site.store.log.Sound) {g : Gate}
    (hg : g.Allows allowed) : site.Avoids allowed id (site.after site.store g) :=
  ⟨h.after _ hg, rfl, hlog, List.prefix_rfl, rfl⟩

theorem Site.Avoids.trans {site' site'' : Site} (h : site.Avoids allowed id site')
    (h' : site'.Avoids allowed id site'') : site.Avoids allowed id site'' :=
  ⟨h'.plain, h'.now_eq.trans h.now_eq, h'.sound, h.grows.trans h'.grows,
    h'.of_eq.trans h.of_eq⟩

end

theorem Log.latest?_of_of_eq {l l' : Log} (h : l.Sound) (h' : l'.Sound) {id : StateId}
    (hof : l'.of id = l.of id) : l'.latest? id = l.latest? id := by
  rw [h'.latest?_eq_getLast?, h.latest?_eq_getLast?, hof]

namespace Lease

variable {metaId : StateId} {holder : String} {log log' : Log}

theorem Owns.mono {l : Lease} {since : Instant} (h : Owns metaId holder l log since)
    (hlog : log.Sound) (hlog' : log'.Sound) (hpre : log.entries <+: log'.entries)
    (hof : log'.of metaId = log.of metaId) : Owns metaId holder l log' since :=
  ⟨h.fits.mono hpre, h.active, (Log.latest?_of_of_eq hlog hlog' hof).trans h.latest, h.since_eq⟩

theorem Barred.congr {stale : Span} {now : Instant} (h : Barred metaId holder stale now log)
    (hlog : log.Sound) (hlog' : log'.Sound) (hof : log'.of metaId = log.of metaId) :
    Barred metaId holder stale now log' := by
  unfold Barred
  rw [Log.latest?_of_of_eq hlog hlog' hof]
  exact h

theorem Owns.observe_eq {l : Lease} {since : Instant} (h : Owns metaId holder l log since)
    (hlog : log.Sound) {e : State} (he : e ∈ log.entries) : l.observe e = (l, false) := by
  by_cases hid : e.id = metaId
  · exact h.fits.observe_of_le hlog ((hlog.latest?_eq_some_iff.1 h.latest).2.2 e he hid)
  · rw [observe, if_pos (.inl fun heq => hid (heq.trans h.fits.metaId_eq))]

end Lease

namespace Recoverer

variable {allowed : Method → Fault → Prop} {c : RecovererSettings} {r : Recoverer} {site : Site}

theorem lease_track (e : State) : (r.track c e).lease = r.lease := by
  unfold track
  simp only
  split
  · rfl
  · split
    · rfl
    · rfl

theorem lease_takeEntry {e : State} (he : r.lease.observe e = (r.lease, false)) :
    (r.takeEntry c e).1.lease = r.lease := by
  unfold takeEntry
  simp only [he, Bool.false_eq_true, if_false]
  split
  · rfl
  · split
    · exact lease_track e
    · rfl

theorem lease_takeEntries {items : List State}
    (hitems : ∀ e ∈ items, r.lease.observe e = (r.lease, false)) :
    (r.takeEntries c items).1.lease = r.lease := by
  induction items generalizing r with
  | nil => rfl
  | cons e rest ih =>
    have hlease := lease_takeEntry (c := c) (hitems e List.mem_cons_self)
    unfold takeEntries
    generalize r.takeEntry c e = p at hlease
    obtain ⟨next, lost⟩ := p
    cases lost with
    | true => exact hlease
    | false =>
      refine (ih fun e' he' => ?_).trans hlease
      rw [hlease]
      exact hitems e' (List.mem_cons_of_mem e he')

theorem avoids_readOn (fuel : Nat) (h : site.Plain allowed) (hlog : site.store.log.Sound) :
    Leads (readOn c fuel) (r, site) fun _ p => site.Avoids allowed c.metaId p.2 ∧
      ((∀ e ∈ site.store.log.entries, r.lease.observe e = (r.lease, false)) →
        p.1.lease = r.lease) := by
  induction fuel generalizing r site with
  | zero => exact ⟨Site.avoids_after h hlog h.gate, fun _ => rfl⟩
  | succ fuel ih =>
    unfold readOn
    simp only [leads_bind, Work.leads_own]
    split
    · exact ⟨Site.avoids_after h hlog h.gate, fun _ => rfl⟩
    · simp only [leads_bind]
      refine Work.leads_listStates h
        (fun g fault hg => ⟨Site.avoids_after h hlog hg, fun _ => rfl⟩) fun g hg => ?_
      have hsame : site.Avoids allowed c.metaId (site.after site.store g) :=
        Site.avoids_after h hlog hg
      simp only [Work.leads_change]
      generalize hpage : site.store.log.page
        { StateQuery.since r.sinceRev with limit := c.batchLimit } = page
      have hlease (hknown : ∀ e ∈ site.store.log.entries, r.lease.observe e = (r.lease, false)) :
          (r.takeEntries c page.items).1.lease = r.lease := by
        refine lease_takeEntries fun e he => hknown e ?_
        rw [← hpage] at he
        exact Log.mem_of_mem_page he
      split
      · refine (ih hsame.plain hlog).mono fun _ p hp => ⟨hsame.trans hp.1, fun hknown => ?_⟩
        refine (hp.2 ?_).trans (hlease hknown)
        rw [hlease hknown]
        exact hknown
      · exact ⟨hsame, hlease⟩

theorem avoids_retryAll {list : List (StateId × Stuck)} (h : site.Plain allowed)
    (hlog : site.store.log.Sound)
    (hlist : ∀ entry ∈ list, 0 < entry.2.state.rev ∧ entry.2.state.id ≠ c.metaId) :
    Leads (retryAll c list) (r, site) fun outcome p =>
      outcome = .ok () ∧ site.Avoids allowed c.metaId p.2 ∧ p.1.lease = r.lease := by
  induction list generalizing r site with
  | nil => exact ⟨rfl, Site.avoids_after h hlog h.gate, rfl⟩
  | cons entry rest ih =>
    obtain ⟨id, stuck⟩ := entry
    obtain ⟨hrev, hother⟩ := hlist _ List.mem_cons_self
    have hrest {next : Recoverer} {site' : Site} (hlease : next.lease = r.lease)
        (hfirst : site.Avoids allowed c.metaId site') :
        Leads (retryAll c rest) (next, site') fun outcome p =>
          outcome = .ok () ∧ site.Avoids allowed c.metaId p.2 ∧ p.1.lease = r.lease :=
      (ih hfirst.plain hfirst.sound fun entry hentry =>
        hlist entry (List.mem_cons_of_mem _ hentry)).mono
        fun _ _ hp => ⟨hp.1, hfirst.trans hp.2.1, hp.2.2.trans hlease⟩
    unfold retryAll
    simp only [leads_bind, leads_tryCatch, Work.leads_change]
    refine leads_retry h hrev ?_ ?_ ?_
    · rintro ⟨next, site'⟩ ⟨hplain, -, hstore, hnow, hframe, -⟩
      simp only at hplain hstore hnow hframe
      have hnext := site.store.log.next_tried site.now c.maxAttempts stuck.state
      refine hrest (by rw [hframe]) ⟨hplain, hnow, ?_, ?_, ?_⟩
      · rw [hstore]
        exact hnext.sound hlog
      · rw [hstore]
        exact List.prefix_append _ _
      · rw [hstore, Store.log_record, Log.of_append, hnext.id_eq, if_neg hother]
    · exact fun g hg _ => hrest rfl (Site.avoids_after h hlog hg)
    · intro g fault hg
      simp only [Work.leads_change]
      exact hrest rfl (Site.avoids_after h hlog hg)

theorem avoids_retryTracked {due : StateId × Stuck → Bool} (h : site.Plain allowed)
    (hlog : site.store.log.Sound)
    (hlist : ∀ entry ∈ r.tracked.entries, 0 < entry.2.state.rev ∧ entry.2.state.id ≠ c.metaId) :
    Leads (retryAll c (r.tracked.entries.filter due)) (r, site) fun outcome p =>
      outcome = .ok () ∧ site.Avoids allowed c.metaId p.2 ∧ p.1.lease = r.lease :=
  avoids_retryAll h hlog fun entry hentry => hlist entry (List.mem_filter.1 hentry).1

/-! ### Turns of a component that may not take the lease -/

section

variable {stale : Span} (h : site.Plain allowed) (hlog : site.store.log.Sound)
  (hbar : Lease.Barred c.metaId c.holder stale site.now site.store.log)

include h hlog hbar

theorem barred_start :
    Leads (start stale) (Recoverer.new c, site) fun _ p => p.2.store = site.store := by
  unfold start
  simp only [leads_bind, onLease, Work.leads_within]
  refine (Lease.barred_acquire h hlog (noting 0) hbar).mono fun outcome p hp => ?_
  cases outcome with
  | error fault => exact hp
  | ok _ => exact hp

variable (hl : Lease.Fits c.metaId c.holder r.lease site.store.log)

include hl

theorem barred_storeWatermark (now : Instant) :
    Leads (storeWatermark c now) (r, site) fun _ p => p.2.store = site.store := by
  unfold storeWatermark
  simp only [leads_bind, Work.leads_own]
  split
  · simp only [leads_bind, onLease, Work.leads_within]
    refine (Lease.barred_confirm h hlog hl (noting r.watermark) hbar).mono fun outcome p hp => ?_
    obtain fault | (_ | _) := outcome
    · exact hp
    · exact hp
    · exact hp
  · rfl

theorem barred_scanTail (hlist : ∀ entry ∈ r.tracked.entries,
      0 < entry.2.state.rev ∧ entry.2.state.id ≠ c.metaId) :
    Leads (scanTail c stale) (r, site) fun _ p =>
      p.2.store.log.of c.metaId = site.store.log.of c.metaId := by
  unfold scanTail
  simp only [leads_bind, Work.leads_own]
  split
  next =>
    simp only [leads_bind, Work.leads_now]
    refine (avoids_retryTracked h hlog hlist).mono fun outcome p hp => ?_
    obtain ⟨rfl, havoids, hlease⟩ := hp
    have hl' : Lease.Fits c.metaId c.holder p.1.lease p.2.store.log :=
      hlease ▸ hl.mono havoids.grows
    have hbar' := hbar.congr hlog havoids.sound havoids.of_eq
    rw [← havoids.now_eq] at hbar'
    refine (barred_storeWatermark havoids.plain havoids.sound hbar' hl' site.now).mono
      fun _ p' hp' => ?_
    rw [hp', havoids.of_eq]
  next =>
    simp only [leads_bind, onLease, Work.leads_within]
    refine Lease.leads_refresh h hlog hl (fun g fault hg => rfl) fun g l' hg hl' _ => ?_
    simp only
    refine (Lease.barred_takeOver (h.after _ hg) hlog hl' hbar).mono fun outcome p hp => ?_
    have hof : p.2.store.log.of c.metaId = site.store.log.of c.metaId :=
      congrArg (·.log.of c.metaId) hp
    obtain fault | (_ | _) := outcome
    · exact hof
    · exact hof
    · exact hof

theorem barred_stop :
    Leads stop (r, site) fun _ p => p.2.store = site.store := by
  unfold stop
  simp only [leads_bind, Work.leads_own, leads_tryCatch, onLease, Work.leads_within]
  refine (Lease.barred_release h hlog hl (noting r.watermark) hbar).mono fun outcome p hp => ?_
  cases outcome with
  | error fault => exact hp
  | ok _ => exact hp

end

/-! ### Turns of the holder -/

section

variable (h : site.Plain fun _ _ => False) (hlog : site.store.log.Sound) {since : Instant}
  (hr : Lease.Owns c.metaId c.holder r.lease site.store.log since)

include h hlog hr

omit h in
theorem owns_of_avoids {p : Recoverer × Site} (havoids : site.Avoids allowed c.metaId p.2)
    (hlease : p.1.lease = r.lease) :
    Lease.Owns c.metaId c.holder p.1.lease p.2.store.log since :=
  hlease ▸ hr.mono hlog havoids.sound havoids.grows havoids.of_eq

theorem owns_readOn (fuel : Nat) :
    Leads (readOn c fuel) (r, site) fun _ p =>
      Lease.Owns c.metaId c.holder p.1.lease p.2.store.log since :=
  (avoids_readOn fuel h hlog).mono fun _ _ hp =>
    owns_of_avoids hlog hr hp.1 (hp.2 fun _ he => hr.observe_eq hlog he)

variable (hid : c.metaId.isEmpty = false)

include hid

theorem owns_storeWatermark (now : Instant) :
    Leads (storeWatermark c now) (r, site) fun _ p => ∃ since',
      Lease.Owns c.metaId c.holder p.1.lease p.2.store.log since' ∧
        (since' = site.now ∨ since' = since ∧ ¬ since + c.keepalive ≤ now) := by
  unfold storeWatermark
  simp only [leads_bind, Work.leads_own]
  split
  next =>
    simp only [leads_bind, onLease, Work.leads_within]
    refine Lease.owns_confirm h hlog hr hid (noting r.watermark) fun g l' e hg _ hl' => ?_
    exact ⟨site.now, hl', .inl rfl⟩
  next hearly =>
    refine ⟨since, hr, .inr ⟨rfl, fun hle => hearly (.inr (.inr ?_))⟩⟩
    exact (hr.fits.passed_iff hlog).2 ⟨since, hr.since_eq, hle⟩

theorem owns_scanTail (stale : Span) (hlist : ∀ entry ∈ r.tracked.entries,
      0 < entry.2.state.rev ∧ entry.2.state.id ≠ c.metaId) :
    Leads (scanTail c stale) (r, site) fun _ p => ∃ since',
      Lease.Owns c.metaId c.holder p.1.lease p.2.store.log since' ∧
        (since' = site.now ∨ since' = since ∧ ¬ since + c.keepalive ≤ site.now) := by
  unfold scanTail
  simp only [leads_bind, Work.leads_own, hr.active, if_true, Work.leads_now]
  refine (avoids_retryTracked h hlog hlist).mono fun outcome p hp => ?_
  obtain ⟨rfl, havoids, hlease⟩ := hp
  have hstored := owns_storeWatermark havoids.plain havoids.sound
    (owns_of_avoids hlog hr havoids hlease) hid site.now
  rw [havoids.now_eq] at hstored
  exact hstored

end

/-! ### Turns in which a component gets the lease -/

section

variable (h : site.Plain allowed) (hlog : site.store.log.Sound)

include h hlog

theorem owns_of_start (stale : Span) :
    Leads (start stale) (Recoverer.new c, site) fun outcome p => outcome = .ok () →
      p.1.lease.active = true →
        Lease.Owns c.metaId c.holder p.1.lease p.2.store.log site.now := by
  unfold start
  simp only [leads_bind, onLease, Work.leads_within]
  refine Lease.leads_acquire h hlog (noting 0) ?_ ?_ ?_ ?_
  · intro _ _ _ _ hok
    cases hok
  · exact fun _ l' _ _ hidle _ ha => absurd (hidle.symm.trans ha) (by simp)
  · exact fun _ l' e _ _ hwrote ha _ _ => Lease.owns_of_wrote hlog hwrote ha
  · exact fun _ l' _ e _ _ _ hwrote ha _ _ => Lease.owns_of_wrote hlog hwrote ha

theorem owns_of_scanTail (hl : Lease.Fits c.metaId c.holder r.lease site.store.log)
    (hidle : r.lease.active = false) (stale : Span) :
    Leads (scanTail c stale) (r, site) fun _ p => p.1.lease.active = true →
      Lease.Owns c.metaId c.holder p.1.lease p.2.store.log site.now := by
  have hno {l : Lease} (hl : l.active = false) (ha : l.active = true) : False := by
    rw [hl] at ha
    cases ha
  unfold scanTail
  simp only [leads_bind, Work.leads_own, hidle, Bool.false_eq_true, if_false, onLease,
    Work.leads_within]
  refine Lease.leads_refresh h hlog hl (fun g fault hg ha => (hno hidle ha).elim)
    fun g l' hg hl' hsame => ?_
  have hidle' : l'.active = false := Bool.eq_false_iff.2 fun ha => hno hidle (hsame ha)
  simp only
  refine Lease.leads_takeOver (h.after _ hg) hlog hl' ?_ ?_ ?_
  · exact fun ha => (hno hidle' ha).elim
  · intro _ g' l'' outcome _ _ hidle'' _
    obtain fault | (_ | _) := outcome
    · exact fun ha => (hno hidle'' ha).elim
    · exact fun ha => (hno hidle'' ha).elim
    · exact fun ha => (hno hidle'' ha).elim
  · exact fun _ g' l'' _ e _ _ _ hwrote ha _ => Lease.owns_of_wrote hlog hwrote ha

theorem idle_stop (hl : Lease.Fits c.metaId c.holder r.lease site.store.log) :
    Leads stop (r, site) fun _ p => p.1.lease.active = false := by
  unfold stop
  simp only [leads_bind, Work.leads_own, leads_tryCatch, onLease, Work.leads_within]
  refine Lease.leads_release h hlog hl (noting r.watermark) ?_ ?_ ?_
  · exact fun hidle => hidle
  · intro _ g l' outcome _ _ hidle
    cases outcome with
    | error fault => exact hidle
    | ok _ => exact hidle
  · exact fun _ g l' e _ _ _ hidle => hidle

end

end Recoverer

end Workflow
