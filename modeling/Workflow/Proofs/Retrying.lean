import Workflow.Proofs.Clock
import Workflow.Proofs.Watermark

/-!
# Only stuck states are tried again

What a recoverer tracks may have been paused, ended or advanced by others, and the recoverer may
have lost the lease without knowing. Still every entry by which it tries a state again follows
directly on one that was stuck long enough. Others may act at any time between two scans, and also
while a scan is under way, between two pages or between two states.
-/

set_option autoImplicit false

namespace Workflow

namespace Recoverer

/-- The entry leaves its state stuck long enough to be tried again. -/
structure Overdue (c : RecovererSettings) (now : Instant) (e : State) : Prop where
  other : e.id ≠ c.metaId
  recoverable : e.recoverable = true
  running : e.isEnded = false ∧ e.isPaused = false
  waited : ∃ since after, e.committedAt = some since ∧
    c.retryAfter? e.retryAfter? = some after ∧ since + after ≤ now

/-- What a recoverer may track of a state: an entry of the log, which is overdue from the noted time
on. -/
structure Noted (c : RecovererSettings) (l : Log) (id : StateId) (stuck : Stuck) : Prop where
  mem : stuck.state ∈ l.entries
  id_eq : stuck.state.id = id
  overdue : Overdue c stuck.retryAt stuck.state

def AllNoted (c : RecovererSettings) (l : Log) (tracked : SortedMap StateId Stuck) : Prop :=
  ∀ id stuck, tracked.get? id = some stuck → Noted c l id stuck

/-- What holds of every recoverer. -/
structure Tracks (c : RecovererSettings) (r : Recoverer) (l : Log) : Prop where
  lease : Lease.Fits c.metaId c.holder r.lease l
  tracked : AllNoted c l r.tracked

/-- The entries that a recoverer adds to a log at a time: meta states, and those by which it tries a
state again whose last entry is overdue. -/
structure Adds (c : RecovererSettings) (now : Instant) (l longer : Log) : Prop where
  grows : l.entries <+: longer.entries
  added : ∀ x ∈ longer.entries, x ∈ l.entries ∨ x.id = c.metaId ∨
    ∃ e, longer.Precedes e x ∧ Overdue c now e ∧
      x = { e.tried c.maxAttempts with rev := x.rev, committedAt := some now }

/-- What work of a recoverer leaves behind. It counts each entry that it adds to another state than
the meta state. -/
structure Works (allowed : Method → Fault → Prop) (c : RecovererSettings) (now : Instant)
    (r : Recoverer) (s : Store) (p : Recoverer × Site) : Prop where
  plain : p.2.Plain allowed
  sound : p.2.store.log.Sound
  adds : Adds c now s.log p.2.store.log
  tracks : p.1.Tracks c p.2.store.log
  tries : p.1.tries + s.log.others c.metaId = r.tries + p.2.store.log.others c.metaId

section

variable {c : RecovererSettings} {now : Instant} {l longer : Log}

theorem Overdue.mono {later : Instant} {e : State} (h : Overdue c now e) (hle : now ≤ later) :
    Overdue c later e := by
  obtain ⟨since, after, hsince, hafter, hwaited⟩ := h.waited
  exact ⟨h.other, h.recoverable, h.running, since, after, hsince, hafter,
    Instant.le_trans hwaited hle⟩

theorem Noted.mono {id : StateId} {stuck : Stuck} (h : Noted c l id stuck)
    (hpre : l.entries <+: longer.entries) : Noted c longer id stuck :=
  ⟨hpre.subset h.mem, h.id_eq, h.overdue⟩

theorem allNoted_empty : AllNoted c l ∅ := fun _ stuck hget =>
  nomatch (show none = some stuck from hget)

section

variable {tracked : SortedMap StateId Stuck} (h : AllNoted c l tracked)

include h

theorem AllNoted.mono (hpre : l.entries <+: longer.entries) : AllNoted c longer tracked :=
  fun id stuck hget => (h id stuck hget).mono hpre

theorem AllNoted.erase (id : StateId) : AllNoted c l (tracked.erase id) := by
  intro id' stuck hget
  rw [SortedMap.get?_erase] at hget
  split at hget
  · cases hget
  · exact h id' stuck hget

theorem AllNoted.insert {id : StateId} {stuck : Stuck} (hstuck : Noted c l id stuck) :
    AllNoted c l (tracked.insert id stuck) := by
  intro id' stuck' hget
  rw [SortedMap.get?_insert] at hget
  split at hget
  next heq =>
    cases hget
    exact heq ▸ hstuck
  next => exact h id' stuck' hget

end

theorem Tracks.mono {r : Recoverer} (h : r.Tracks c l) (hpre : l.entries <+: longer.entries) :
    r.Tracks c longer :=
  ⟨h.lease.mono hpre, h.tracked.mono hpre⟩

theorem adds_refl (c : RecovererSettings) (now : Instant) (l : Log) : Adds c now l l :=
  ⟨List.prefix_rfl, fun _ hx => .inl hx⟩

theorem Adds.trans {longest : Log} (h : Adds c now l longer) (h' : Adds c now longer longest) :
    Adds c now l longest := by
  refine ⟨h.grows.trans h'.grows, fun x hx => ?_⟩
  rcases h'.added x hx with hold | hnew
  · rcases h.added x hold with hold | hmeta | ⟨e, hprecedes, hrest⟩
    · exact .inl hold
    · exact .inr (.inl hmeta)
    · exact .inr (.inr ⟨e, hprecedes.mono h'.grows, hrest⟩)
  · exact .inr hnew

theorem adds_meta {notes : Notes} {at' : Instant} {e : State}
    (hnext : l.Next at' c.metaId notes e) : Adds c now l (l.append e) := by
  refine ⟨List.prefix_append _ _, fun x hx => ?_⟩
  rcases List.mem_append.1 hx with hold | hnew
  · exact .inl hold
  · obtain rfl := List.mem_singleton.1 hnew
    exact .inr (.inl hnext.id_eq)

theorem adds_tried (hl : l.Sound) {e : State} (he : e ∈ l.entries)
    (hlatest : e.rev = l.latestRev e.id) (hdue : Overdue c now e) :
    Adds c now l (l.append (Store.entryOf l now (e.tried c.maxAttempts))) := by
  refine ⟨List.prefix_append _ _, fun x hx => ?_⟩
  rcases List.mem_append.1 hx with hold | hnew
  · exact .inl hold
  · obtain rfl := List.mem_singleton.1 hnew
    have hid : (Store.entryOf l now (e.tried c.maxAttempts)).id = e.id :=
      (e.tried_keeps c.maxAttempts).1
    refine .inr (.inr ⟨e, hl.precedes_append ?_, hdue, rfl⟩)
    rw [hid]
    exact hl.latest?_of_rev_eq he hlatest

variable {allowed : Method → Fault → Prop} {r : Recoverer} {s : Store}

theorem works_refl {site : Site} (h : site.Plain allowed) (hl : site.store.log.Sound)
    (now : Instant) {next : Recoverer} (hnext : next.Tracks c site.store.log)
    (htries : next.tries = r.tries) : Works allowed c now r site.store (next, site) :=
  ⟨h, hl, adds_refl c now _, hnext, by rw [htries]⟩

theorem Works.trans {next : Recoverer} {site : Site} {p : Recoverer × Site}
    (h : Works allowed c now r s (next, site)) (h' : Works allowed c now next site.store p) :
    Works allowed c now r s p := by
  have hfirst := h.tries
  have hrest := h'.tries
  simp only at hfirst
  exact ⟨h'.plain, h'.sound, h.adds.trans h'.adds, h'.tracks, by omega⟩

theorem works_kept (hl : s.log.Sound) {lease : Lease} {site : Site}
    (hkeeps : Lease.Keeps allowed c.metaId c.holder s (lease, site)) {next : Recoverer}
    (hlease : next.lease = lease) (htries : next.tries = r.tries)
    (htracked : AllNoted c s.log next.tracked) :
    Works allowed c now r s (next, site) := by
  have hfits : Lease.Fits c.metaId c.holder next.lease site.store.log := hlease ▸ hkeeps.fits
  rcases hkeeps.store with hstore | ⟨at', notes, e, hnext, hstore⟩
  · simp only at hstore
    subst hstore
    exact works_refl hkeeps.plain hl now ⟨hfits, htracked⟩ htries
  · simp only at hstore
    have hadds : Adds c now s.log site.store.log := by
      rw [hstore]
      exact adds_meta hnext
    refine ⟨hkeeps.plain, ?_, hadds, ⟨hfits, htracked.mono hadds.grows⟩, ?_⟩
    · rw [hstore]
      exact hnext.sound hl
    · rw [hstore, htries, Store.log_record, Log.others_append, if_pos hnext.id_eq]
      rfl

end

/-! ### Reading on -/

section

variable {c : RecovererSettings} {r : Recoverer} {l : Log}

theorem tracks_track (h : r.Tracks c l) {e : State} (he : e ∈ l.entries) (hother : e.id ≠ c.metaId)
    (hrecoverable : e.recoverable = true) : (r.track c e).Tracks c l := by
  unfold track
  simp only
  split
  · exact ⟨h.lease, h.tracked.erase e.id⟩
  next hrunning =>
    simp only [Bool.or_eq_true, not_or, Bool.not_eq_true] at hrunning
    split
    next since after hsince hafter =>
      have hnoted : Noted c l e.id ⟨e, since + after⟩ :=
        ⟨he, rfl, hother, hrecoverable, hrunning, since, after, hsince, hafter, Instant.le_refl _⟩
      exact ⟨h.lease, h.tracked.insert hnoted⟩
    next => exact ⟨h.lease, h.tracked⟩

theorem tries_track (e : State) : (r.track c e).tries = r.tries := by
  unfold track
  simp only
  split
  · rfl
  · split
    · rfl
    · rfl

theorem tracks_takeEntry (h : r.Tracks c l) {e : State} (he : e ∈ l.entries) :
    (r.takeEntry c e).1.Tracks c l ∧ (r.takeEntry c e).1.tries = r.tries := by
  have hread : Tracks c { r with sinceRev := e.rev } l := ⟨h.lease, h.tracked⟩
  unfold takeEntry
  simp only
  split
  next =>
    have hobserved := h.lease.observe he
    split
    · exact ⟨⟨hobserved, allNoted_empty⟩, rfl⟩
    · exact ⟨⟨hobserved, h.tracked⟩, rfl⟩
  next hother =>
    rw [h.lease.metaId_eq] at hother
    split
    next hrecoverable => exact ⟨tracks_track hread he hother hrecoverable, tries_track e⟩
    next => exact ⟨hread, rfl⟩

theorem tracks_takeEntries (h : r.Tracks c l) {items : List State}
    (hitems : ∀ e ∈ items, e ∈ l.entries) :
    (r.takeEntries c items).1.Tracks c l ∧ (r.takeEntries c items).1.tries = r.tries := by
  induction items generalizing r with
  | nil => exact ⟨h, rfl⟩
  | cons e rest ih =>
    obtain ⟨htracks, htries⟩ := tracks_takeEntry h (hitems e List.mem_cons_self)
    unfold takeEntries
    generalize r.takeEntry c e = p at htracks htries
    obtain ⟨next, lost⟩ := p
    cases lost with
    | true => exact ⟨htracks, htries⟩
    | false =>
      obtain ⟨hrest, hsame⟩ := ih htracks fun e' he' => hitems e' (List.mem_cons_of_mem e he')
      exact ⟨hrest, hsame.trans htries⟩

end

open Effect

section

variable {allowed : Method → Fault → Prop} {c : RecovererSettings} {r : Recoverer} {site : Site}

theorem works_readOn (fuel : Nat) (h : site.Plain allowed) (hl : site.store.log.Sound)
    (hr : r.Tracks c site.store.log) (now : Instant) :
    Leads (readOn c fuel) (r, site) fun _ p => Works allowed c now r site.store p := by
  induction fuel generalizing r site with
  | zero => exact works_refl h hl now hr rfl
  | succ fuel ih =>
    unfold readOn
    simp only [leads_bind, Work.leads_own]
    split
    · exact works_refl h hl now hr rfl
    · simp only [leads_bind]
      refine Work.leads_listStates h ?_ ?_
      · exact fun g fault hg => works_refl (h.after _ hg) hl now hr rfl
      · intro g hg
        simp only [Work.leads_change]
        generalize hpage : site.store.log.page
          { StateQuery.since r.sinceRev with limit := c.batchLimit } = page
        have hitems : ∀ e ∈ page.items, e ∈ site.store.log.entries := by
          intro e he
          rw [← hpage] at he
          exact Log.mem_of_mem_page he
        obtain ⟨htracks, htries⟩ := tracks_takeEntries hr hitems
        have hread : Works allowed c now r site.store
            ((r.takeEntries c page.items).1, site.after site.store g) :=
          works_refl (h.after _ hg) hl now htracks htries
        split
        next =>
          exact (ih (h.after _ hg) hl htracks).mono fun _ p hp => hread.trans hp
        next => exact hread

theorem works_scanHead (h : site.Plain allowed) (hl : site.store.log.Sound)
    (hr : r.Tracks c site.store.log) (now : Instant) :
    Leads (scanHead c) (r, site) fun _ p => Works allowed c now r site.store p := by
  unfold scanHead
  simp only [leads_bind, Work.leads_own]
  split
  · simp only [leads_bind, leads_get]
    exact works_readOn _ h hl hr now
  · exact works_refl h hl now hr rfl

/-! ### Trying again -/

theorem retryAll_append (states more : List (StateId × Stuck)) :
    retryAll c (states ++ more) = (do retryAll c states; retryAll c more) := by
  induction states with
  | nil => rfl
  | cons entry rest ih =>
    obtain ⟨id, stuck⟩ := entry
    rw [List.cons_append, retryAll, retryAll, ih]
    simp only [bind_assoc]

theorem works_retryAll {list : List (StateId × Stuck)} (h : site.Plain allowed)
    (hl : site.store.log.Sound) (hr : r.Tracks c site.store.log)
    (hlist : ∀ entry ∈ list, Noted c site.store.log entry.1 entry.2 ∧
      entry.2.retryAt ≤ site.now) :
    Leads (retryAll c list) (r, site) fun _ p => Works allowed c site.now r site.store p := by
  induction list generalizing r site with
  | nil => exact works_refl h hl site.now hr rfl
  | cons entry rest ih =>
    obtain ⟨id, stuck⟩ := entry
    obtain ⟨hnoted, hdue⟩ := hlist _ List.mem_cons_self
    have herased := hr.tracked.erase id
    have hrest {next : Recoverer} {site' : Site} (hnow : site'.now = site.now)
        (hfirst : Works allowed c site.now r site.store (next, site')) :
        Leads (retryAll c rest) (next, site') fun _ p =>
          Works allowed c site.now r site.store p := by
      refine (ih hfirst.plain hfirst.sound hfirst.tracks fun entry hentry => ?_).mono
        fun _ p hp => hfirst.trans (hnow ▸ hp)
      obtain ⟨hnoted, hdue⟩ := hlist entry (List.mem_cons_of_mem _ hentry)
      exact ⟨hnoted.mono hfirst.adds.grows, hnow ▸ hdue⟩
    unfold retryAll
    simp only [leads_bind, leads_tryCatch, Work.leads_change]
    refine leads_retry h (hl.rev_of_mem hnoted.mem).1 ?_ ?_ ?_
    · rintro ⟨next, site'⟩ ⟨hplain, hlatest, hstore, hnow, hframe, htries⟩
      simp only at hplain hstore hnow hframe htries
      have hnext := site.store.log.next_tried site.now c.maxAttempts stuck.state
      have hadds := adds_tried hl hnoted.mem hlatest (hnoted.overdue.mono hdue)
      have hother : stuck.state.id ≠ c.metaId := hnoted.overdue.other
      refine hrest hnow ⟨hplain, ?_, ?_, ?_, ?_⟩
      · rw [hstore]
        exact hnext.sound hl
      · rw [hstore]
        exact hadds
      · rw [hframe, hstore]
        exact ⟨hr.lease.mono hadds.grows, herased.mono hadds.grows⟩
      · rw [htries, hstore, Store.log_record, Log.others_append, hnext.id_eq, if_neg hother]
        change r.tries + 1 + _ = _
        omega
    · exact fun g hg _ => hrest rfl (works_refl (h.after _ hg) hl site.now ⟨hr.lease, herased⟩ rfl)
    · intro g fault hg
      simp only [Work.leads_change]
      have hback := herased.insert hnoted
      exact hrest rfl (works_refl (h.after _ hg) hl site.now ⟨hr.lease, hback⟩ rfl)

/-! ### The lease -/

theorem works_storeWatermark (h : site.Plain allowed) (hl : site.store.log.Sound)
    (hr : r.Tracks c site.store.log) (now at' : Instant) :
    Leads (storeWatermark c at') (r, site) fun _ p => Works allowed c now r site.store p := by
  unfold storeWatermark
  simp only [leads_bind, Work.leads_own]
  split
  · simp only [leads_bind, onLease, Work.leads_within]
    refine (Lease.keeps_confirm h hl hr.lease (noting r.watermark)).mono fun outcome p hp => ?_
    cases outcome with
    | error fault => exact works_kept hl hp rfl rfl hr.tracked
    | ok held =>
      cases held with
      | true => exact works_kept hl hp rfl rfl hr.tracked
      | false => exact works_kept hl hp rfl rfl allNoted_empty
  · exact works_refl h hl now hr rfl

theorem works_scanTail (h : site.Plain allowed) (hl : site.store.log.Sound)
    (hr : r.Tracks c site.store.log) (stale : Span) :
    Leads (scanTail c stale) (r, site) fun _ p => Works allowed c site.now r site.store p := by
  unfold scanTail
  simp only [leads_bind, Work.leads_own]
  split
  next =>
    simp only [leads_bind, Work.leads_now]
    refine (works_retryAll h hl hr fun entry hentry => ?_).mono fun outcome p hp => ?_
    · obtain ⟨hmem, hdue⟩ := List.mem_filter.1 hentry
      exact ⟨hr.tracked _ _ (r.tracked.get?_eq_some_iff.2 hmem), by simpa using hdue⟩
    · cases outcome with
      | error fault => exact hp
      | ok _ =>
        exact (works_storeWatermark hp.plain hp.sound hp.tracks site.now site.now).mono
          fun _ _ hp' => hp.trans hp'
  next =>
    simp only [leads_bind, onLease, Work.leads_within]
    refine (Lease.keeps_refresh h hl hr.lease).mono fun outcome p hp => ?_
    obtain ⟨hkeeps, hstore⟩ := hp
    have hrefreshed : Works allowed c site.now r site.store ({ r with lease := p.1 }, p.2) :=
      works_kept hl hkeeps rfl rfl hr.tracked
    cases outcome with
    | error fault => exact hrefreshed
    | ok _ =>
      simp only
      refine (Lease.keeps_takeOver hkeeps.plain hrefreshed.sound hkeeps.fits).mono
        fun outcome' p' hp' => ?_
      have hsame := hrefreshed.tracks.tracked
      cases outcome' with
      | error fault => exact hrefreshed.trans (works_kept hrefreshed.sound hp' rfl rfl hsame)
      | ok taken =>
        cases taken with
        | false => exact hrefreshed.trans (works_kept hrefreshed.sound hp' rfl rfl hsame)
        | true => exact hrefreshed.trans (works_kept hrefreshed.sound hp' rfl rfl allNoted_empty)

theorem works_stop (h : site.Plain allowed) (hl : site.store.log.Sound)
    (hr : r.Tracks c site.store.log) (now : Instant) :
    Leads stop (r, site) fun _ p => Works allowed c now r site.store p := by
  unfold stop
  simp only [leads_bind, Work.leads_own, leads_tryCatch, onLease, Work.leads_within]
  refine (Lease.keeps_release h hl hr.lease (noting r.watermark)).mono fun outcome p hp => ?_
  cases outcome with
  | ok _ => exact works_kept hl hp rfl rfl allNoted_empty
  | error _ => exact works_kept hl hp rfl rfl allNoted_empty

theorem adds_start (h : site.Plain allowed) (hl : site.store.log.Sound) (stale : Span)
    (now : Instant) :
    Leads (start stale) (Recoverer.new c, site) fun outcome p =>
      p.2.store.log.Sound ∧ Adds c now site.store.log p.2.store.log ∧
        (outcome = .ok () → p.1.Tracks c p.2.store.log) := by
  unfold start
  simp only [leads_bind, onLease, Work.leads_within]
  refine (Lease.keeps_acquire h hl (noting 0)).mono fun outcome p hp => ?_
  obtain ⟨hstore, hfits⟩ := hp
  have hadds : p.2.store.log.Sound ∧ Adds c now site.store.log p.2.store.log := by
    rcases hstore with hstore | ⟨at', notes, e, hnext, hstore⟩
    · rw [hstore]
      exact ⟨hl, adds_refl c now _⟩
    · rw [hstore]
      exact ⟨hnext.sound hl, adds_meta hnext⟩
  cases outcome with
  | error fault => exact ⟨hadds.1, hadds.2, fun hok => absurd hok (by simp)⟩
  | ok _ => exact ⟨hadds.1, hadds.2, fun _ => ⟨hfits rfl, allNoted_empty⟩⟩

end

/-! ### Groups of recoverers that others interrupt -/

/-- What a recoverer does in a turn: a whole piece of work, or a part of a scan, before which and
after which others may act. -/
inductive Part where
  | whole (op : Op)
  | page
  | states (ids : StateId → Bool)
  | watermark

variable {ι : Type}

def parts (c : ι → RecovererSettings) : Role ι Recoverer Part where
  start := (role c).start
  work i
    | .whole op => (role c).work i op
    | .page => do
      if (← Work.own).lease.active then
        readOn (c i) 1
    | .states ids => do
      let r ← Work.own
      if r.lease.active then
        let now ← Work.now
        retryAll (c i) (r.tracked.entries.filter fun e => e.2.retryAt ≤ now ∧ ids e.1 = true)
    | .watermark => do
      if (← Work.own).lease.active then
        storeWatermark (c i) (← Work.now)

/-- What a turn adds to the log. -/
def AddsIn (c : ι → RecovererSettings) (s s' : Store) : Turn ι Part → Prop
  | .start i m | .work i _ m => Adds (c i) m.now s.log s'.log
  | .call _ => s.log.entries <+: s'.log.entries

theorem addsIn_refl (c : ι → RecovererSettings) (s : Store) (t : Turn ι Part) :
    AddsIn c s s t := by
  cases t with
  | start i m => exact adds_refl _ _ _
  | work i part m => exact adds_refl _ _ _
  | call request => exact List.prefix_rfl

theorem AddsIn.grows {c : ι → RecovererSettings} {s s' : Store} {t : Turn ι Part}
    (h : AddsIn c s s' t) : s.log.entries <+: s'.log.entries := by
  cases t with
  | start i m => exact Adds.grows h
  | work i part m => exact Adds.grows h
  | call request => exact h

section

variable {c : ι → RecovererSettings} {i : ι} {m : Moment} {s : Store} (hl : s.log.Sound)

include hl

theorem adds_begin {own : Recoverer} {x : Work Recoverer Unit}
    (hx : (parts c).start i = some (own, x)) :
    Leads x (own, m.site s) fun outcome p =>
      p.2.store.log.Sound ∧ Adds (c i) m.now s.log p.2.store.log ∧
        (outcome = .ok () → p.1.Tracks (c i) p.2.store.log) := by
  simp only [parts, role] at hx
  split at hx
  next =>
    cases hx
    exact adds_start (m.plain_site s) hl _ m.now
  next => cases hx

theorem works_part {r : Recoverer} (hr : r.Tracks (c i) s.log) (part : Part) :
    Leads ((parts c).work i part) (r, m.site s) fun _ p =>
      Works (fun _ _ => True) (c i) m.now r s p := by
  have hplain := m.plain_site s
  have hidle : Works (fun _ _ => True) (c i) m.now r s (r, m.site s) :=
    works_refl hplain hl m.now hr rfl
  cases part with
  | whole op =>
    cases op with
    | scanHead => exact works_scanHead hplain hl hr m.now
    | scanTail =>
      simp only [parts, role]
      split
      · exact works_scanTail hplain hl hr _
      · exact hidle
    | stop => exact works_stop hplain hl hr m.now
  | page =>
    simp only [parts, leads_bind, Work.leads_own]
    split
    · exact works_readOn 1 hplain hl hr m.now
    · exact hidle
  | states ids =>
    simp only [parts, leads_bind, Work.leads_own]
    split
    · simp only [leads_bind, Work.leads_now]
      refine works_retryAll hplain hl hr fun entry hentry => ?_
      obtain ⟨hmem, hdue⟩ := List.mem_filter.1 hentry
      rw [decide_eq_true_iff] at hdue
      exact ⟨hr.tracked _ _ (r.tracked.get?_eq_some_iff.2 hmem), hdue.1⟩
    · exact hidle
  | watermark =>
    simp only [parts, leads_bind, Work.leads_own]
    split
    · simp only [leads_bind, Work.leads_now]
      exact works_storeWatermark hplain hl hr m.now m.now
    · exact hidle

end

open Workflow.Group

variable [DecidableEq ι] {c : ι → RecovererSettings}

/-- The log is sound, and every recoverer that is there tracks entries of it. -/
def Sighted (c : ι → RecovererSettings) (g : Group ι Recoverer) : Prop :=
  Holds (fun s => s.log.Sound) (fun i r s => r.Tracks (c i) s.log) g

theorem Sighted.step {g : Group ι Recoverer} (h : Sighted c g) (t : Turn ι Part) :
    Sighted c (g.step (parts c) t) ∧ AddsIn c g.store (g.step (parts c) t).store t := by
  refine Holds.step_alike h (fun s s' => AddsIn c s s' t) (fun s => addsIn_refl c s t) ?_ id
    ?_ ?_ ?_
  · exact fun i r s s' hr _ hadds => hr.mono hadds.grows
  · rintro i m own x rfl hx hl
    exact adds_begin hl hx
  · rintro i part m r rfl - hl hr
    exact (works_part hl hr part).mono fun _ p hp => ⟨hp.sound, hp.adds, hp.tracks⟩
  · rintro request rfl hl
    exact ⟨Store.sound_serve hl request, Store.prefix_serve _ request⟩

section

variable (c) {turns : List (Turn ι Part)} {k : Nat}

theorem sighted_run (hk : k ≤ turns.length) : Sighted c (run (parts c) (turns.take k)) := by
  refine run_induction (P := fun _ g => Sighted c g) (holds_empty Log.sound_empty) ?_ k hk
  exact fun k t _ h => (h.step t).1

/-- The log after the first turns of a run. -/
def logAt (turns : List (Turn ι Part)) (k : Nat) : Log :=
  (run (parts c) (turns.take k)).store.log

theorem addsIn_turn {t : Turn ι Part} (hat : turns[k]? = some t) :
    AddsIn c (run (parts c) (turns.take k)).store (run (parts c) (turns.take (k + 1))).store t := by
  have hk := Nat.le_of_lt (List.getElem?_eq_some_iff.1 hat).1
  rw [run_take_succ hat]
  exact ((sighted_run c hk).step t).2

end

/-- Whenever a recoverer adds entries to other states than the meta state, which it counts, each of
them follows directly on an entry that was stuck long enough by its settings, and is the next
attempt or the end of that one. -/
theorem only_stuck_states_are_retried {turns : List (Turn ι Part)} {k : Nat} {i : ι} {part : Part}
    {m : Moment} {r : Recoverer} (hat : turns[k]? = some (.work i part m))
    (hi : (run (parts c) (turns.take k)).member i = some r) :
    (∃ next, (run (parts c) (turns.take (k + 1))).member i = some next ∧
      next.tries + (logAt c turns k).others (c i).metaId =
        r.tries + (logAt c turns (k + 1)).others (c i).metaId) ∧
    ∀ x ∈ (logAt c turns (k + 1)).entries, x ∉ (logAt c turns k).entries → x.id ≠ (c i).metaId →
      ∃ e, (logAt c turns (k + 1)).Precedes e x ∧ Overdue (c i) m.now e ∧
        x = { e.tried (c i).maxAttempts with rev := x.rev, committedAt := some m.now } := by
  have hk := Nat.le_of_lt (List.getElem?_eq_some_iff.1 hat).1
  have hsighted := sighted_run c hk
  have hworks := works_part (m := m) hsighted.store (hsighted.member i r hi) part
  obtain ⟨next, hnext, hadds, htries⟩ := step_work (r := parts c)
    (Q := fun next s => Adds (c i) m.now (logAt c turns k) s.log ∧
      next.tries + (logAt c turns k).others (c i).metaId =
        r.tries + s.log.others (c i).metaId) hi
    (hworks.mono fun _ p hp => ⟨hp.adds, hp.tries⟩)
  rw [← run_take_succ hat] at hnext hadds htries
  refine ⟨⟨next, hnext, htries⟩, fun x hx hnew hother => ?_⟩
  exact ((hadds.added x hx).resolve_left hnew).resolve_left hother

/-- A recoverer that was deposed without knowing tries a state again. -/
theorem only_stuck_states_are_retried_of_deposed :
    let moment (n : Nat) : Moment := ⟨Instant.epoch + Span.ofSecs n, true, .free⟩
    let c (second : Bool) : RecovererSettings :=
      { metaId := ⟨"m"⟩, holder := if second then "b" else "a" }
    let work : Draft := .ofState { (default : State) with id := ⟨"w"⟩ }
    let turns : List (Turn Bool Part) :=
      [.start false (moment 0), .start true (moment 1),
        .call (.commit (moment 2).now [.keep work]), .work false (.whole .scanHead) (moment 10),
        .work true (.whole .scanTail) (moment 400),
        .work false (.states fun id => id = ⟨"w"⟩) (moment 401)]
    ∃ r other, turns[5]? = some (.work false (.states fun id => id = ⟨"w"⟩) (moment 401)) ∧
      (run (parts c) (turns.take 5)).member false = some r ∧ r.lease.active = true ∧
      (run (parts c) (turns.take 5)).member true = some other ∧ other.lease.active = true ∧
      ∃ x e, x ∈ (logAt c turns 6).entries ∧ x ∉ (logAt c turns 5).entries ∧ x.id = ⟨"w"⟩ ∧
        (logAt c turns 6).Precedes e x ∧ Overdue (c false) (moment 401).now e ∧
        x = { e.tried (c false).maxAttempts with
          rev := x.rev, committedAt := some (moment 401).now } := by
  intro moment c work turns
  have hat : turns[5]? = some (.work false (.states fun id => id = ⟨"w"⟩) (moment 401)) := rfl
  have hfirst : ∃ r ∈ (run (parts c) (turns.take 5)).member false, r.lease.active = true := by
    decide +kernel
  have hsecond : ∃ r ∈ (run (parts c) (turns.take 5)).member true, r.lease.active = true := by
    decide +kernel
  have hadded : ∃ x ∈ (logAt c turns 6).entries, x ∉ (logAt c turns 5).entries ∧
      x.id = ⟨"w"⟩ := by
    decide +kernel
  obtain ⟨r, hr, hactive⟩ := hfirst
  obtain ⟨other, hother, hactive'⟩ := hsecond
  obtain ⟨x, hx, hnew, hid⟩ := hadded
  obtain ⟨e, hprecedes, hdue, heq⟩ :=
    (only_stuck_states_are_retried hat hr).2 x hx hnew (by rw [hid]; decide)
  exact ⟨r, other, hat, hr, hactive, hother, hactive', x, e, hx, hnew, hid, hprecedes, hdue, heq⟩

end Recoverer

end Workflow
