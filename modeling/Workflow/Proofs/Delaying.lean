import Workflow.Proofs.Firing
import Workflow.Proofs.Group
import Workflow.Proofs.Horizon

/-!
# Delayers leave no item behind

Delayers share a meta state, and others put states off and commit other states. However their scans,
their starts and their stops follow each other, and whatever calls fail, an item stays in reach of
the delayer that holds the lease, and of the watermark that it stored.
-/

set_option autoImplicit false

namespace Workflow

namespace Store

/-- A later store: entries of the log and items are only added. -/
structure Grows (s later : Store) : Prop where
  log : s.log.entries <+: later.log.entries
  delays : s.delays.Grows later.delays

/-- The watermark in the meta state has all items in question ahead of it. -/
structure Marked (asked : Delayed → Prop) (metaId : StateId) (limit : Instant) (s : Store) :
    Prop where
  log : s.log.Sound
  delays : s.delays.Sound
  covered : ∀ last, s.log.latest? metaId = some last →
    s.delays.Covered asked limit last.delayMark

theorem grows_refl (s : Store) : s.Grows s := ⟨List.prefix_rfl, Delays.grows_refl _⟩

theorem Grows.trans {s later latest : Store} (h : s.Grows later) (h' : later.Grows latest) :
    s.Grows latest :=
  ⟨h.log.trans h'.log, h.delays.trans h'.delays⟩

theorem grows_record (s : Store) (e : State) : s.Grows (s.record e) :=
  ⟨List.prefix_append _ _, Delays.grows_refl _⟩

theorem grows_acknowledge (s : Store) (offset : Int) : s.Grows (s.acknowledge offset) :=
  ⟨List.prefix_rfl, Delays.grows_acknowledge _ _⟩

section

variable {asked : Delayed → Prop} {metaId : StateId} {limit limit' : Instant} {s later : Store}

theorem marked_empty : empty.Marked asked metaId limit :=
  ⟨Log.sound_empty, Delays.sound_empty, fun _ hlast => nomatch (show none = some _ from hlast)⟩

theorem Marked.mono (h : s.Marked asked metaId limit) (hgrows : s.Grows later)
    (hlog : later.log.Sound) (hdelays : later.delays.Sound)
    (hsame : later.log.latest? metaId = s.log.latest? metaId) (hlimit : limit ≤ limit') :
    later.Marked asked metaId limit' :=
  ⟨hlog, hdelays, fun last hlast =>
    (h.covered last (hsame ▸ hlast)).mono hgrows.delays hlimit hdelays⟩

variable {now : Instant} {notes : Notes} {e : State}

theorem Marked.record (h : s.Marked asked metaId limit) (hnext : s.log.Next now metaId notes e)
    (hcovered : s.delays.Covered asked limit e.delayMark) :
    (s.record e).Marked asked metaId limit := by
  refine ⟨hnext.sound h.log, h.delays, fun last hlast => ?_⟩
  rw [log_record, hnext.latest?_append h.log, if_pos rfl] at hlast
  cases hlast
  exact hcovered

theorem Marked.record_other (h : s.Marked asked metaId limit) {id : StateId}
    (hnext : s.log.Next now id notes e) (hother : id ≠ metaId) :
    (s.record e).Marked asked metaId limit := by
  refine h.mono (s.grows_record e) (hnext.sound h.log) h.delays ?_ (Instant.le_refl limit)
  rw [log_record, hnext.latest?_append h.log, if_neg hother]

theorem Marked.acknowledge (h : s.Marked asked metaId limit) (offset : Int) :
    (s.acknowledge offset).Marked asked metaId limit :=
  h.mono (s.grows_acknowledge offset) h.log (h.delays.acknowledge offset) rfl
    (Instant.le_refl limit)

end

end Store

namespace Delayer

/-- What holds of every delayer. -/
structure Watches (asked : Delayed → Prop) (metaId : StateId) (holder : String) (limit : Instant)
    (d : Delayer) (s : Store) : Prop where
  lease : Lease.Fits metaId holder d.lease s.log
  reaches : d.lease.active = true → d.Reaches asked metaId limit s.delays

theorem Watches.mono {asked : Delayed → Prop} {metaId : StateId} {holder : String}
    {limit limit' : Instant} {d : Delayer} {s later : Store}
    (h : d.Watches asked metaId holder limit s) (hgrows : s.Grows later)
    (hlater : later.delays.Sound) (hlimit : limit ≤ limit') :
    d.Watches asked metaId holder limit' later :=
  ⟨h.lease.mono hgrows.log, fun ha => (h.reaches ha).mono hgrows.delays hlater hlimit⟩

/-- What work of a delayer leaves behind. -/
structure Leaves (asked : Delayed → Prop) (metaId : StateId) (holder : String) (limit : Instant)
    (s : Store) (p : Delayer × Site) : Prop where
  marked : p.2.store.Marked asked metaId limit
  grows : s.Grows p.2.store
  watches : p.1.Watches asked metaId holder limit p.2.store

open Effect

variable {allowed : Method → Fault → Prop} {asked : Delayed → Prop} {metaId : StateId}
  {holder : String} {limit : Instant} {c : DelayerSettings} {d : Delayer} {site : Site}

/-! ### Reading on -/

/-- How reading the items of a window ends. -/
structure Reads (allowed : Method → Fault → Prop) (since before : Instant) (start : Int)
    (d : Delayer) (s : Store) (outcome : Except Fault (Int × Bool)) (p : Delayer × Site) :
    Prop where
  plain : p.2.Plain allowed
  store : p.2.store = s
  gathers : Gathers s.delays d p.1
  pulled : ∀ upTo complete, outcome = .ok (upTo, complete) →
    Pulled s.delays since before start d p.1 upTo complete

theorem leads_pullLoop (fuel : Nat) (h : site.Plain allowed) (hs : site.store.delays.Sound)
    (since before : Instant) (start : Int) :
    Leads (pullLoop c since before fuel start) (d, site)
      (Reads allowed since before start d site.store) := by
  have hnone (d : Delayer) (start : Int) :=
    pulled_none site.store.delays since before start d
  -- each page starts after the furthest item of the page before, so what they gather adds up
  induction fuel generalizing d site start with
  | zero =>
    refine ⟨h, rfl, gathers_refl _ _, fun upTo complete heq => ?_⟩
    cases heq
    exact hnone d start
  | succ fuel ih =>
    unfold pullLoop
    simp only [leads_bind, Work.leads_own]
    split
    · refine ⟨h, rfl, gathers_refl _ _, fun upTo complete heq => ?_⟩
      cases heq
      exact hnone d start
    · simp only [leads_bind]
      refine Work.leads_listDelayed h ?_ ?_
      · exact fun g fault hg => ⟨h.after _ hg, rfl, gathers_refl _ _, nofun⟩
      · intro g hg
        simp only [Work.leads_change]
        generalize hpage : site.store.delays.page
          { since, before, offset := start, limit := c.batchLimit } = page
        have hpulled := pulled_page (d := d) hs hpage
        split
        next hmore =>
          rw [hmore] at hpulled
          refine (ih (h.after _ hg) hs _ hnone).mono fun outcome p hp => ?_
          exact ⟨hp.plain, hp.store, hpulled.toGathers.trans hp.gathers,
            fun upTo complete heq => hpulled.trans (hp.pulled upTo complete heq)⟩
        next hlast =>
          rw [Bool.eq_false_iff.2 hlast] at hpulled
          refine ⟨h.after _ hg, rfl, hpulled.toGathers, fun upTo complete heq => ?_⟩
          cases heq
          exact hpulled

theorem leads_pull (h : site.Plain allowed) (hs : site.store.delays.Sound) (since before : Instant)
    (start : Int) :
    Leads (pull c since before start) (d, site)
      (Reads allowed since before start d site.store) := by
  unfold pull
  simp only [leads_bind, leads_get]
  exact leads_pullLoop _ h hs since before start

theorem leaves_same (site : Site) (hs : site.store.Marked asked metaId limit)
    (hd : d.Watches asked metaId holder limit site.store) :
    Leaves asked metaId holder limit site.store (d, site) :=
  ⟨hs, Store.grows_refl _, hd⟩

section

variable (hs : site.store.Marked asked metaId limit)
  (hd : d.Watches asked metaId holder limit site.store)

include hs

theorem leaves_read (next : Delayer) {site' : Site} (hstore : site'.store = site.store)
    (hfits : Lease.Fits metaId holder next.lease site.store.log)
    (hreaches : next.Reaches asked metaId limit site.store.delays) :
    Leaves asked metaId holder limit site.store (next, site') := by
  refine ⟨?_, ?_, ?_⟩
  · rw [hstore]
    exact hs
  · rw [hstore]
    exact Store.grows_refl _
  · rw [hstore]
    exact ⟨hfits, fun _ => hreaches⟩

include hd

variable (h : site.Plain allowed)
  (hspares : ∀ o x, site.store.delays.items.get? o = some x → x.Spares metaId)

include h hspares

theorem leads_scanFresh (hlimit : site.now + c.horizonLookahead = limit)
    (hasked : ∀ x, asked x → .epoch ≤ x.dueAt)
    (hseen : d.lease.active = true → ∀ o x, site.store.delays.items.get? o = some x → asked x →
      d.tracked.get? o ≠ some x → x.dueAt < d.since →
      (if d.offset = 0 then .epoch else site.now - c.freshnessLookback) ≤ x.dueAt) :
    Leads (scanFresh c) (d, site) fun _ p => Leaves asked metaId holder limit site.store p := by
  unfold scanFresh
  simp only [leads_bind, Work.leads_own]
  split
  next ha =>
    simp only [leads_bind, Work.leads_now]
    have hreaches := hd.reaches ha
    refine (leads_pull h hs.delays _ _ _).mono fun outcome p hp => ?_
    have hlease : p.1.lease = d.lease := by
      rw [hp.gathers.frame]
    cases outcome with
    | error fault =>
      refine leaves_read hs p.1 hp.store (hlease ▸ hd.lease) ?_
      exact hreaches.gathers hs.delays hspares hp.gathers
    | ok answer =>
      obtain ⟨upTo, complete⟩ := answer
      simp only
      have hpulled := hp.pulled upTo complete rfl
      rw [hlimit] at hpulled
      refine leaves_read hs { p.1 with offset := upTo } hp.store (hlease ▸ hd.lease) ?_
      exact hreaches.fresh hs.delays hspares hpulled hasked (hseen ha)
  next => exact leaves_same _ hs hd

end

/-! ### Firing -/

/-- How firing an item ends: with the item acknowledged, or with nothing changed but the log. -/
structure Fires (allowed : Method → Fault → Prop) (asked : Delayed → Prop) (metaId : StateId)
    (limit : Instant) (x : Delayed) (d : Delayer) (s : Store) (outcome : Except Fault Unit)
    (p : Delayer × Site) : Prop where
  plain : p.2.Plain allowed
  marked : p.2.store.Marked asked metaId limit
  grows : s.Grows p.2.store
  frame : p.1.lease = d.lease ∧ p.1.mark = d.mark ∧ p.1.tracked = d.tracked
  delays : p.2.store.delays =
    if outcome matches .ok () then s.delays.acknowledge x.offset else s.delays

section

variable {x : Delayed}

theorem Ends.fires {outcome : Except Fault Unit} {p : Delayer × Site}
    (h : Ends allowed x d site outcome p) (hsite : site.Plain allowed)
    (hs : site.store.Marked asked metaId limit) (hspares : x.Spares metaId) :
    Fires allowed asked metaId limit x d site.store outcome p := by
  have hframe : p.1.lease = d.lease ∧ p.1.mark = d.mark ∧ p.1.tracked = d.tracked := by
    rw [h.frame]
    exact ⟨rfl, rfl, rfl⟩
  have hnext : site.store.log.Next site.now x.state.id x.state.annotations
      (Store.entryOf site.store.log site.now x.state) := ⟨rfl, rfl, rfl, rfl⟩
  suffices hstore : p.2.store.Marked asked metaId limit ∧ site.store.Grows p.2.store from
    ⟨h.plain hsite, hstore.1, hstore.2, hframe, h.delays⟩
  cases h with
  | fired _ _ hcommits =>
    rw [Site.store_launching]
    have hrecorded := hs.record_other hnext (hspares hcommits)
    exact ⟨hrecorded.acknowledge x.offset,
      (Store.grows_record _ _).trans (Store.grows_acknowledge _ _)⟩
  | unacknowledged _ _ _ hcommits =>
    exact ⟨hs.record_other hnext (hspares hcommits), Store.grows_record _ _⟩
  | skipped => exact ⟨hs.acknowledge x.offset, Store.grows_acknowledge _ _⟩
  | kept => exact ⟨hs, Store.grows_refl _⟩
  | uncommitted =>
    rw [Site.store_launching]
    exact ⟨hs.acknowledge x.offset, Store.grows_acknowledge _ _⟩

theorem leads_fireAll {items : List Delayed} (h : site.Plain allowed)
    (hs : site.store.Marked asked metaId limit)
    (hl : Lease.Fits metaId holder d.lease site.store.log)
    (hd : d.Reaches asked metaId limit site.store.delays)
    (hspares : ∀ x ∈ items, x.Spares metaId) :
    Leads (fireAll items) (d, site) fun _ p =>
      Leaves asked metaId holder limit site.store p := by
  induction items generalizing d site with
  | nil => exact ⟨hs, Store.grows_refl _, hl, fun _ => hd⟩
  | cons x rest ih =>
    unfold fireAll
    simp only [leads_bind, leads_tryCatch]
    have hrest (next : Delayer) {site' : Site} (hplain : site'.Plain allowed)
        (hmarked : site'.store.Marked asked metaId limit) (hgrows : site.store.Grows site'.store)
        (hlease : next.lease = d.lease)
        (hreaches : next.Reaches asked metaId limit site'.store.delays) :
        Leads (fireAll rest) (next, site') fun _ p =>
          Leaves asked metaId holder limit site.store p := by
      have hfits : Lease.Fits metaId holder next.lease site'.store.log :=
        hlease ▸ hl.mono hgrows.log
      refine (ih hplain hmarked hfits hreaches fun y hy =>
        hspares y (List.mem_cons_of_mem _ hy)).mono fun _ p hp => ?_
      exact ⟨hp.marked, hgrows.trans hp.grows, hp.watches⟩
    refine (leads_fire h x).mono fun outcome p hends => ?_
    obtain ⟨hplain, hmarked, hgrows, ⟨hlease, hmark, htracked⟩, hdelays⟩ :=
      hends.fires h hs (hspares x List.mem_cons_self)
    cases outcome with
    | ok _ =>
      simp only at hdelays
      refine hrest { p.1 with tracked := p.1.tracked.erase x.offset } hplain hmarked hgrows hlease
        ?_
      rw [hdelays]
      exact hd.acknowledged hs.delays hmark (by rw [htracked])
    | error fault =>
      simp only at hdelays
      refine hrest p.1 hplain hmarked hgrows hlease ?_
      rw [hdelays]
      exact hd.congr hmark htracked

theorem leads_scanDue (h : site.Plain allowed) (hs : site.store.Marked asked metaId limit)
    (hd : d.Watches asked metaId holder limit site.store) :
    Leads scanDue (d, site) fun _ p => Leaves asked metaId holder limit site.store p := by
  unfold scanDue
  simp only [leads_bind, Work.leads_own]
  split
  next ha =>
    simp only [leads_bind, Work.leads_now]
    have hreaches := hd.reaches ha
    refine leads_fireAll h hs hd.lease hreaches fun x hx => ?_
    obtain ⟨hvalue, -⟩ := List.mem_filter.1 (List.mem_mergeSort.1 hx)
    obtain ⟨o, hget⟩ := d.tracked.mem_values_iff.1 hvalue
    exact (hreaches.tracked o x hget).2.2.1
  next => exact leaves_same _ hs hd

end

section

variable (hs : site.store.Marked asked metaId limit)
  (hd : d.Watches asked metaId holder limit site.store) (h : site.Plain allowed)
  (hspares : ∀ o x, site.store.delays.items.get? o = some x → x.Spares metaId)

include hs hd h hspares

/-! ### The lease -/

omit hd h hspares in
theorem leaves_idle (next : Delayer) {g : Gate}
    (hfits : Lease.Fits metaId holder next.lease site.store.log)
    (hidle : next.lease.active = false) :
    Leaves asked metaId holder limit site.store (next, site.after site.store g) :=
  ⟨hs, Store.grows_refl _, hfits, fun ha => absurd (hidle.symm.trans ha) (by simp)⟩

omit hd h hspares in
theorem leaves_record (next : Delayer) {l' : Lease} {notes : Notes} {named : String} {e : State}
    {g : Gate} (hwrote : Lease.Wrote metaId holder site.store.log site.now
      (notes.insert Mark.leaseHolder named) l' e)
    (hcovered : site.store.delays.Covered asked limit e.delayMark) (hlease : next.lease = l')
    (hreaches : l'.active = true → next.Reaches asked metaId limit site.store.delays) :
    Leaves asked metaId holder limit site.store (next, site.after (site.store.record e) g) := by
  refine ⟨hs.record hwrote.next hcovered, Store.grows_record _ e, ?_, fun ha => ?_⟩
  · rw [hlease]
    exact hwrote.fits
  · rw [hlease] at ha
    exact hreaches ha

omit hd h hspares in
theorem leaves_taken (next : Delayer) {l' : Lease} {last e : State} {g : Gate}
    (hlast : site.store.log.latest? metaId = some last)
    (hwrote : Lease.Wrote metaId holder site.store.log site.now
      (last.annotations.insert Mark.leaseHolder holder) l' e) (hlease : next.lease = l') :
    Leaves asked metaId holder limit site.store
      (next.reset, site.after (site.store.record e) g) := by
  have hmark := State.delayMark_taken hwrote.next.notes_eq
  have hcovered := hs.covered last hlast
  have hknown : next.lease.known.current = e := by
    rw [hlease, hwrote.known]
    rfl
  refine leaves_record hs _ hwrote (hmark ▸ hcovered) hlease fun _ => reaches_reset ?_
  rw [hknown, hmark]
  exact hcovered

theorem leads_scanHorizon (stale : Span) (hlimit : site.now + c.horizonLookahead = limit) :
    Leads (scanHorizon c stale) (d, site) fun _ p =>
      Leaves asked metaId holder limit site.store p := by
  unfold scanHorizon
  simp only [leads_bind, Work.leads_own]
  split
  next ha =>
    simp only [leads_bind, Work.leads_now]
    rw [hlimit]
    split
    next =>
      simp only [leads_bind]
      have hreaches := hd.reaches ha
      refine (leads_pull h hs.delays _ _ _).mono fun outcome p hp => ?_
      have hlease : p.1.lease = d.lease := by
        rw [hp.gathers.frame]
      have hgathered := leaves_read hs p.1 hp.store (hlease ▸ hd.lease)
        (hreaches.gathers hs.delays hspares hp.gathers)
      cases outcome with
      | error fault => exact hgathered
      | ok answer =>
        obtain ⟨upTo, complete⟩ := answer
        simp only
        split
        next hall =>
          subst hall
          refine leaves_read hs { p.1 with since := limit } hp.store (hlease ▸ hd.lease) ?_
          exact hreaches.horizon hs.delays hspares (hp.pulled upTo true rfl) (Instant.le_refl limit)
        next => exact hgathered
    next => exact leaves_same _ hs hd
  next hidle =>
    have hidle := Bool.eq_false_iff.2 hidle
    simp only [leads_bind, onLease, Work.leads_within]
    refine Lease.leads_refresh h hs.log hd.lease ?_ ?_
    · exact fun g fault _ => leaves_idle hs d hd.lease hidle
    · intro g l' hgate hl' hsame
      have hidle' : l'.active = false := Bool.eq_false_iff.2 fun ha' =>
        absurd (hidle.symm.trans (hsame ha')) (by simp)
      refine Lease.leads_takeOver (h.after _ hgate) hs.log hl' ?_ ?_ ?_
      · exact fun ha' => absurd (hidle'.symm.trans ha') (by simp)
      · intro _ g' l'' outcome _ hl'' hidle'' hne
        match outcome, hne with
        | .ok true, hne => exact absurd rfl hne
        | .ok false, _ => exact leaves_idle hs { d with lease := l'' } hl'' hidle''
        | .error _, _ => exact leaves_idle hs { d with lease := l'' } hl'' hidle''
      · intro _ g' l'' last e _ hlast _ hwrote _
        exact leaves_taken hs { d with lease := l'' } hlast hwrote rfl

omit hspares in
theorem leads_storeWatermark (hasked : ∀ x, asked x → .epoch ≤ x.dueAt) :
    Leads (storeWatermark c) (d, site) fun _ p =>
      Leaves asked metaId holder limit site.store p := by
  unfold storeWatermark
  simp only [leads_bind, Work.leads_own]
  split
  next ha =>
    simp only [leads_bind, Work.leads_now]
    split
    next =>
      have hreaches := hd.reaches ha
      simp only [leads_bind, onLease, Work.leads_within]
      refine Lease.leads_confirm h hs.log hd.lease (noting d.watermark) ?_ ?_ ?_ ?_
      · exact fun hidle => absurd (hidle.symm.trans ha) (by simp)
      · exact fun _ g fault _ => leaves_same (site.after site.store g) hs hd
      · intro _ g l' outcome _ hl' hidle hne
        match outcome, hne with
        | .ok true, hne => exact absurd rfl hne
        | .ok false, _ => exact leaves_idle hs (reset { d with lease := l' }) hl' hidle
        | .error _, _ => exact leaves_idle hs { d with lease := l' } hl' hidle
      · intro _ g l' e _ _ hwrote
        refine leaves_record hs { d with lease := l' } hwrote ?_ rfl fun _ => ?_
        · exact hreaches.covered.noted hs.delays hasked hwrote.next.notes_eq
        · exact hreaches.congr rfl rfl
    next => exact leaves_same _ hs hd
  next => exact leaves_same _ hs hd

omit hspares in
theorem leads_stop (hasked : ∀ x, asked x → .epoch ≤ x.dueAt) :
    Leads stop (d, site) fun _ p => Leaves asked metaId holder limit site.store p := by
  unfold stop
  simp only [leads_bind, Work.leads_own, leads_tryCatch, onLease, Work.leads_within]
  refine Lease.leads_release h hs.log hd.lease (noting d.watermark) ?_ ?_ ?_
  · exact fun hidle => leaves_idle hs { d with tracked := ∅ } hd.lease hidle
  · intro _ g l' outcome _ hl' hidle
    cases outcome with
    | ok _ => exact leaves_idle hs { d with lease := l', tracked := ∅ } hl' hidle
    | error _ => exact leaves_idle hs { d with lease := l', tracked := ∅ } hl' hidle
  · intro ha g l' e _ _ hwrote hidle
    refine leaves_record hs { d with lease := l', tracked := ∅ } hwrote ?_ rfl fun ha' => ?_
    · exact (hd.reaches ha).covered.noted hs.delays hasked hwrote.next.notes_eq
    · exact absurd (hidle.symm.trans ha') (by simp)

end

theorem leads_start (h : site.Plain allowed) (hs : site.store.Marked asked c.metaId limit)
    (hasked : ∀ x, asked x → .epoch ≤ x.dueAt) (stale : Span) :
    Leads (start stale) (Delayer.new c, site) fun outcome p =>
      p.2.store.Marked asked c.metaId limit ∧ site.store.Grows p.2.store ∧
        (outcome = .ok () → p.1.Watches asked c.metaId c.holder limit p.2.store) := by
  unfold start
  simp only [leads_bind, onLease, Work.leads_within]
  have hdone {p : Delayer × Site} (hleaves : Leaves asked c.metaId c.holder limit site.store p) :
      p.2.store.Marked asked c.metaId limit ∧ site.store.Grows p.2.store ∧
        (Except.ok (ε := Fault) () = .ok () →
          p.1.Watches asked c.metaId c.holder limit p.2.store) :=
    ⟨hleaves.marked, hleaves.grows, fun _ => hleaves.watches⟩
  refine Lease.leads_acquire h hs.log (noting (.epoch, 0)) ?_ ?_ ?_ ?_
  · exact fun g l' fault _ => ⟨hs, Store.grows_refl _, nofun⟩
  · intro g l' _ hl' hidle
    exact hdone (leaves_idle hs (reset { Delayer.new c with lease := l' }) (g := g) hl' hidle)
  · intro g l' e _ _ hwrote _
    have hcovered : site.store.delays.Covered asked limit e.delayMark :=
      (Delays.covered_first hs.delays).noted hs.delays hasked hwrote.next.notes_eq
    refine hdone (leaves_record hs (reset { Delayer.new c with lease := l' }) (g := g) hwrote
      hcovered rfl fun _ => reaches_reset ?_)
    have hknown : l'.known.current = e := congrArg Draft.current hwrote.known
    rw [hknown]
    exact hcovered
  · intro g l' last e _ hlast _ hwrote _
    exact hdone (leaves_taken hs { Delayer.new c with lease := l' } (g := g) hlast hwrote
      rfl)

end Delayer

end Workflow
