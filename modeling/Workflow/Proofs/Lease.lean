import Workflow.Lease
import Workflow.Proofs.Single

/-!
# What the operations of a lease do

An operation of a lease leaves the log as it is or adds one entry, the next one of the meta state.
It adds one only if the component knows the entry before.
-/

set_option autoImplicit false

namespace Workflow

/-- A change of a draft that keeps its state and the revision that it was prepared from. -/
structure Draft.Change where
  apply : Draft → Draft
  id_apply : ∀ d, (apply d).id = d.id
  committed_apply : ∀ d, (apply d).committed = d.committed

/-- The change that does nothing. -/
def Draft.Change.unchanged : Draft.Change := ⟨fun d => d, fun _ => rfl, fun _ => rfl⟩

namespace Lease

/-- The component knows an entry of the meta state. -/
def Knows (l : Lease) (log : Log) : Prop :=
  ∃ e ∈ log.entries, e.id = l.metaId ∧ l.known = .ofState e

section

variable {l : Lease} {log : Log} (h : l.Knows log)

include h

theorem Knows.mono {longer : Log} (hpre : log.entries <+: longer.entries) : l.Knows longer := by
  obtain ⟨e, he, hid, hknown⟩ := h
  exact ⟨e, hpre.subset he, hid, hknown⟩

theorem Knows.current_mem : l.known.current ∈ log.entries ∧ l.known.current.id = l.metaId := by
  obtain ⟨e, he, hid, hknown⟩ := h
  rw [hknown]
  exact ⟨he, hid⟩

variable (hlog : log.Sound)

include hlog

theorem Knows.committed_eq : l.known.committed = l.known.current := by
  obtain ⟨e, he, -, hknown⟩ := h
  rw [hknown, Draft.ofState, if_pos (hlog.rev_of_mem he).1]

theorem Knows.latest? (hrev : l.known.expectedRev = log.latestRev l.metaId) :
    log.latest? l.metaId = some l.known.current := by
  obtain ⟨hmem, hid⟩ := h.current_mem
  rw [Draft.expectedRev, h.committed_eq hlog] at hrev
  rw [← hid] at hrev ⊢
  exact hlog.latest?_of_rev_eq hmem hrev

end

/-- What holds of a component all along: it knows an entry of the meta state, and if it takes itself
for the holder, that entry names it. -/
structure Fits (metaId : StateId) (holder : String) (l : Lease) (log : Log) : Prop where
  metaId_eq : l.metaId = metaId
  holder_eq : l.holder = holder
  knows : l.Knows log
  held : l.active = true → l.known.current.holder = holder

/-- The component has added an entry with the given notes to the log, and knows it. -/
structure Wrote (metaId : StateId) (holder : String) (log : Log) (now : Instant) (notes : Notes)
    (l : Lease) (e : State) : Prop where
  next : log.Next now metaId notes e
  fits : Fits metaId holder l (log.append e)
  known : l.known = .ofState e

/-- Whether a component may take the lease after the last entry of the meta state. -/
def Free (holder : String) (stale : Span) (now : Instant) (last : State) : Prop :=
  last.holder = "" ∨ last.holder = holder ∨
    ∃ since, last.committedAt = some since ∧ since + stale ≤ now

theorem holder_of_notes {e : State} {notes : Notes} {holder : String}
    (h : e.annotations = notes.insert Mark.leaseHolder holder) : e.holder = holder := by
  rw [State.holder, h, SortedMap.get?_insert_self, Option.getD_some]

section

variable {metaId : StateId} {holder : String} {l : Lease} {log : Log}

theorem Fits.mono {longer : Log} (h : Fits metaId holder l log)
    (hpre : log.entries <+: longer.entries) : Fits metaId holder l longer :=
  ⟨h.metaId_eq, h.holder_eq, h.knows.mono hpre, h.held⟩

theorem Fits.observe (h : Fits metaId holder l log) {e : State} (he : e ∈ log.entries) :
    Fits metaId holder (l.observe e).1 log := by
  unfold Lease.observe
  split
  next => exact h
  next hnew =>
    simp only [not_or, not_not] at hnew
    refine ⟨h.metaId_eq, h.holder_eq, ⟨e, he, hnew.1, rfl⟩, fun ha => ?_⟩
    have hsame : e.holder = l.holder := by
      by_contra hne
      simp [hne] at ha
    exact hsame.trans h.holder_eq

variable (hlog : log.Sound)

include hlog

theorem Fits.observe_of_le (h : Fits metaId holder l log) {e : State}
    (hrev : e.rev ≤ l.known.current.rev) : l.observe e = (l, false) := by
  rw [Lease.observe, h.knows.committed_eq hlog, if_pos (.inr hrev)]

theorem Fits.observe_of_lt (h : Fits metaId holder l log) (ha : l.active = true) {e : State}
    (hid : e.id = metaId) (hrev : l.known.current.rev < e.rev) (hother : e.holder ≠ holder) :
    (l.observe e).2 = true ∧ (l.observe e).1.active = false := by
  have hnew : ¬ (e.id ≠ l.metaId ∨ e.rev ≤ l.known.current.rev) := by
    rintro (hne | hle)
    · exact hne (hid.trans h.metaId_eq.symm)
    · omega
  rw [Lease.observe, h.knows.committed_eq hlog, if_neg hnew]
  simp [ha, h.holder_eq, hother]

theorem fits_of_latest? (hmeta : l.metaId = metaId) (hholder : l.holder = holder) {e : State}
    (he : log.latest? metaId = some e) (hknown : l.known = .ofState e)
    (hheld : l.active = true → e.holder = holder) : Fits metaId holder l log := by
  obtain ⟨hmem, hid, -⟩ := hlog.latest?_eq_some_iff.1 he
  refine ⟨hmeta, hholder, ⟨e, hmem, hid.trans hmeta.symm, hknown⟩, fun ha => ?_⟩
  rw [hknown]
  exact hheld ha

theorem wrote_of_next (hmeta : l.metaId = metaId) (hholder : l.holder = holder) {now : Instant}
    {notes : Notes} {named : String} {e : State}
    (hnext : log.Next now metaId (notes.insert Mark.leaseHolder named) e)
    (hknown : l.known = .ofState e) (hheld : l.active = true → named = holder) :
    Wrote metaId holder log now (notes.insert Mark.leaseHolder named) l e := by
  refine ⟨hnext, fits_of_latest? (hnext.sound hlog) hmeta hholder ?_ hknown fun ha => ?_, hknown⟩
  · rw [hnext.latest?_append hlog, if_pos rfl]
  · exact (holder_of_notes hnext.notes_eq).trans (hheld ha)

theorem Wrote.latest?_eq_known {now : Instant} {notes : Notes} {e : State}
    (h : Wrote metaId holder log now notes l e) :
    (log.append e).latest? metaId = some l.known.current := by
  rw [h.next.latest?_append hlog, if_pos rfl, h.known]
  rfl

theorem Fits.passed_iff (h : Fits metaId holder l log) {stale : Span} {now : Instant} :
    l.hasPassed stale now = true ↔
      ∃ since, l.known.current.committedAt = some since ∧ since + stale ≤ now := by
  obtain ⟨p, hp⟩ := List.mem_iff_getElem?.1 h.knows.current_mem.1
  obtain ⟨since, hsince⟩ := Option.isSome_iff_exists.1 (hlog.dated p _ hp)
  rw [hasPassed, lastCommit?, h.knows.committed_eq hlog, hsince]
  simp

end

/-! ### Commits of the meta state -/

open Effect Command

variable {allowed : Method → Fault → Prop} {l : Lease} {site : Site} (h : site.Plain allowed)

include h

theorem leads_tryCommit {c : Command} {d moved : Draft} (hc : c.Moves d moved)
    {Q : Except Fault Bool → Lease × Site → Prop}
    (hwon : ∀ g e, g.Allows allowed → d.expectedRev = site.store.log.latestRev d.id →
      site.store.log.Next site.now d.id d.current.annotations e →
      Q (.ok true) ({ l with known := .ofState e, commits := l.commits + 1 },
        site.after (site.store.record e) g))
    (hlost : ∀ g, g.Allows allowed → Q (.ok false) (l, site.after site.store g))
    (hfault : ∀ g fault, g.Allows allowed → Q (.error fault) (l, site.after site.store g)) :
    Leads (tryCommit c) (l, site) Q := by
  unfold tryCommit
  simp only [leads_bind]
  refine Work.leads_commit?_single h hc ?_ ?_ ?_
  · intro g e hg hrev hnext
    simp only [leads_bind, Work.leads_change, leads_pure, hc.resulting?_eq, Option.getD_some]
    exact hwon g e hg hrev hnext
  · intro g hg _
    exact hlost g hg
  · exact hfault

theorem leads_findLatest {id : StateId} {Q : Except Fault Draft → Lease × Site → Prop}
    (hfault : ∀ g fault, g.Allows allowed → Q (.error fault) (l, site.after site.store g))
    (hfound : ∀ g e, g.Allows allowed → site.store.log.latest? id = some e →
      Q (.ok (.ofState e)) (l, site.after site.store g)) :
    Leads (Work.access (Repository.findState id 0)) (l, site) Q := by
  refine Work.leads_findState h (fun g fault hg _ => hfault g fault hg) ?_
  intro g hg
  unfold Log.find
  simp only [if_true]
  cases he : site.store.log.latest? id with
  | none => exact hfault g _ hg
  | some e => exact hfound g e hg he

variable {metaId : StateId} {holder : String} (hlog : site.store.log.Sound)

section

variable (hl : Fits metaId holder l site.store.log)

include hlog hl

/-- A commit that starts from what the component knows adds an entry only if that is the latest. -/
theorem leads_tryCommit_known {c : Command} (change : Draft.Change) {named : String} {moved : Draft}
    (hc : c.Moves ((change.apply l.known).annotate Mark.leaseHolder named) moved)
    {Q : Except Fault Bool → Lease × Site → Prop}
    (hwon : ∀ g e, g.Allows allowed → site.store.log.latest? metaId = some l.known.current →
      site.store.log.Next site.now metaId
        ((change.apply l.known).current.annotations.insert Mark.leaseHolder named) e →
      Q (.ok true) ({ l with known := .ofState e, commits := l.commits + 1 },
        site.after (site.store.record e) g))
    (hlost : ∀ g, g.Allows allowed → Q (.ok false) (l, site.after site.store g))
    (hfault : ∀ g fault, g.Allows allowed → Q (.error fault) (l, site.after site.store g)) :
    Leads (tryCommit c) (l, site) Q := by
  have hid : ((change.apply l.known).annotate Mark.leaseHolder named).id = l.metaId :=
    (change.id_apply l.known).trans hl.knows.current_mem.2
  refine leads_tryCommit h hc ?_ hlost hfault
  intro g e hg hrev hnext
  rw [hid] at hrev hnext
  rw [hl.metaId_eq] at hnext
  refine hwon g e hg ?_ hnext
  rw [← hl.metaId_eq]
  refine hl.knows.latest? hlog ?_
  rw [← hrev]
  exact congrArg State.rev (change.committed_apply l.known).symm

/-! ### The operations -/

theorem leads_refresh {Q : Except Fault Unit → Lease × Site → Prop}
    (hfault : ∀ g fault, g.Allows allowed → Q (.error fault) (l, site.after site.store g))
    (hsynced : ∀ g l', g.Allows allowed → Fits metaId holder l' site.store.log →
      (l'.active = true → l.active = true) → Q (.ok ()) (l', site.after site.store g)) :
    Leads refresh (l, site) Q := by
  unfold refresh
  simp only [leads_bind, Work.leads_own]
  refine leads_findLatest h hfault fun g e hg he => ?_
  rw [hl.metaId_eq] at he
  refine hsynced g _ hg (fits_of_latest? hlog hl.metaId_eq hl.holder_eq he rfl fun ha => ?_) ?_
  · simp only [Bool.and_eq_true, beq_iff_eq] at ha
    exact ha.2.trans hl.holder_eq
  · intro ha
    simp only [Bool.and_eq_true] at ha
    exact ha.1

theorem leads_takeOver {stale : Span} {Q : Except Fault Bool → Lease × Site → Prop}
    (hactive : l.active = true → Q (.ok true) (l, site))
    (hkept : l.active = false → ∀ g l' outcome, g.Allows allowed →
      Fits metaId holder l' site.store.log → l'.active = false → outcome ≠ .ok true →
      Q outcome (l', site.after site.store g))
    (hwon : l.active = false → ∀ g l' last e, g.Allows allowed →
      site.store.log.latest? metaId = some last → Free holder stale site.now last →
      Wrote metaId holder site.store.log site.now
        (last.annotations.insert Mark.leaseHolder holder) l' e → l'.active = true →
      Q (.ok true) (l', site.after (site.store.record e) g)) :
    Leads (takeOver stale) (l, site) Q := by
  unfold takeOver
  simp only [leads_bind, Work.leads_own]
  cases ha : l.active with
  | true => exact hactive ha
  | false =>
    simp only [Bool.false_eq_true, if_false, leads_bind, Work.leads_now]
    split
    next => exact hkept ha site.repository.gate l (.ok false) h.gate hl ha (by simp)
    next hfree =>
      simp only [leads_bind]
      refine leads_tryCommit_known h hlog hl .unchanged (moves_resume _) ?_ ?_ ?_
      · intro g e hg hlast hnext
        rw [hl.holder_eq] at hnext hfree
        refine hwon ha g _ _ e hg hlast ?_ (wrote_of_next hlog ?_ ?_ hnext ?_ fun _ => rfl) ?_
        · by_contra hno
          simp only [Free, not_or, ← hl.passed_iff hlog, Bool.not_eq_true] at hno
          exact hfree ⟨hno.1, hno.2.1, by rw [hno.2.2]; rfl⟩
        · exact hl.metaId_eq
        · exact hl.holder_eq
        · rfl
        · rfl
      · intro g hg
        simp only [Bool.false_eq_true, if_false, leads_bind]
        refine leads_refresh (h.after site.store hg) hlog hl ?_ ?_
        · exact fun g' fault hg' => hkept ha g' l (.error fault) hg' hl ha (by simp)
        · intro g' l' hg' hl' hsame
          refine hkept ha g' l' (.ok false) hg' hl' ?_ (by simp)
          exact Bool.eq_false_iff.2 fun ha' => absurd (hsame ha') (by simp [ha])
      · exact fun g fault hg => hkept ha g l (.error fault) hg hl ha (by simp)

theorem leads_confirm (change : Draft.Change) {Q : Except Fault Bool → Lease × Site → Prop}
    (hidle : l.active = false → Q (.ok false) (l, site))
    (hfault : l.active = true → ∀ g fault, g.Allows allowed →
      Q (.error fault) (l, site.after site.store g))
    (hlost : l.active = true → ∀ g l' outcome, g.Allows allowed →
      Fits metaId holder l' site.store.log → l'.active = false → outcome ≠ .ok true →
      Q outcome (l', site.after site.store g))
    (hwon : l.active = true → ∀ g l' e, g.Allows allowed →
      site.store.log.latest? metaId = some l.known.current →
      Wrote metaId holder site.store.log site.now
        ((change.apply l.known).current.annotations.insert Mark.leaseHolder holder) l' e →
      Q (.ok true) (l', site.after (site.store.record e) g)) :
    Leads (confirm change.apply) (l, site) Q := by
  unfold confirm
  simp only [leads_bind, Work.leads_own]
  cases ha : l.active with
  | false => exact hidle ha
  | true =>
    simp only [Bool.not_true, Bool.false_eq_true, if_false, leads_bind]
    refine leads_tryCommit_known h hlog hl change (moves_keep _) ?_ ?_ (hfault ha)
    · intro g e hg hlast hnext
      rw [hl.holder_eq] at hnext
      refine hwon ha g _ e hg hlast (wrote_of_next hlog ?_ ?_ hnext ?_ fun _ => rfl)
      · exact hl.metaId_eq
      · exact hl.holder_eq
      · rfl
    · intro g hg
      simp only [Bool.false_eq_true, if_false, leads_bind, Work.leads_change]
      have hidle : Fits metaId holder { l with active := false } site.store.log :=
        ⟨hl.metaId_eq, hl.holder_eq, hl.knows, nofun⟩
      refine leads_refresh (h.after site.store hg) hlog hidle ?_ ?_
      · exact fun g' fault hg' => hlost ha g' _ (.error fault) hg' hidle rfl (by simp)
      · intro g' l' hg' hl' hsame
        exact hlost ha g' l' (.ok false) hg' hl' (Bool.eq_false_iff.2 fun ha' => nomatch hsame ha')
          (by simp)

theorem leads_release (change : Draft.Change) {Q : Except Fault Unit → Lease × Site → Prop}
    (hidle : l.active = false → Q (.ok ()) (l, site))
    (hlost : l.active = true → ∀ g l' outcome, g.Allows allowed →
      Fits metaId holder l' site.store.log → l'.active = false →
      Q outcome (l', site.after site.store g))
    (hwon : l.active = true → ∀ g l' e, g.Allows allowed →
      site.store.log.latest? metaId = some l.known.current →
      Wrote metaId holder site.store.log site.now
        ((change.apply l.known).current.annotations.insert Mark.leaseHolder "") l' e →
      l'.active = false → Q (.ok ()) (l', site.after (site.store.record e) g)) :
    Leads (release change.apply) (l, site) Q := by
  unfold release
  simp only [leads_bind, Work.leads_own]
  cases ha : l.active with
  | false => exact hidle ha
  | true =>
    simp only [Bool.not_true, Bool.false_eq_true, if_false, leads_bind, Work.leads_change,
      leads_discard]
    have hidle : Fits metaId holder { l with active := false } site.store.log :=
      ⟨hl.metaId_eq, hl.holder_eq, hl.knows, nofun⟩
    refine leads_tryCommit_known h hlog hidle change (moves_pause _) ?_ ?_ ?_
    · intro g e hg hlast hnext
      refine hwon ha g _ e hg hlast (wrote_of_next hlog ?_ ?_ hnext ?_ nofun) rfl
      · exact hl.metaId_eq
      · exact hl.holder_eq
      · rfl
    · exact fun g hg => hlost ha g _ (.ok ()) hg hidle rfl
    · exact fun g fault hg => hlost ha g _ (.error fault) hg hidle rfl

end

section

include hlog

theorem leads_create {prepare : Draft.Change} {Q : Except Fault Bool → Lease × Site → Prop}
    (hwon : ∀ g e, g.Allows allowed → site.store.log.latest? metaId = none →
      site.store.log.Next site.now metaId
        ((prepare.apply (Draft.ofState (.new metaId)).disableRecovery).current.annotations.insert
          Mark.leaseHolder holder) e →
      Q (.ok true) ({ l with known := .ofState e, commits := l.commits + 1 },
        site.after (site.store.record e) g))
    (hlost : ∀ g, g.Allows allowed → Q (.ok false) (l, site.after site.store g))
    (hfault : ∀ g fault, g.Allows allowed → Q (.error fault) (l, site.after site.store g)) :
    Leads (tryCommit (.pause ((prepare.apply
      (Draft.ofState (.new metaId)).disableRecovery).annotate Mark.leaseHolder holder) none ∅))
      (l, site) Q := by
  let first := (Draft.ofState (.new metaId)).disableRecovery
  have hid : ((prepare.apply first).annotate Mark.leaseHolder holder).id = metaId :=
    prepare.id_apply first
  have hnew : ((prepare.apply first).annotate Mark.leaseHolder holder).expectedRev = 0 :=
    congrArg State.rev (prepare.committed_apply first)
  refine leads_tryCommit h (moves_pause _) ?_ hlost hfault
  intro g e hg hrev hnext
  rw [hid] at hrev hnext
  rw [hnew] at hrev
  refine hwon g e hg ?_ hnext
  cases hlast : site.store.log.latest? metaId with
  | none => rfl
  | some last =>
    have hpos := (hlog.rev_of_mem (hlog.latest?_eq_some_iff.1 hlast).1).1
    rw [Log.latestRev, hlast, Option.elim_some] at hrev
    omega

theorem leads_acquire {stale : Span} (prepare : Draft.Change)
    {Q : Except Fault Unit → Lease × Site → Prop}
    (hfault : ∀ g l' fault, g.Allows allowed → Q (.error fault) (l', site.after site.store g))
    (hkept : ∀ g l', g.Allows allowed → Fits metaId holder l' site.store.log → l'.active = false →
      Q (.ok ()) (l', site.after site.store g))
    (hfirst : ∀ g l' e, g.Allows allowed → site.store.log.latest? metaId = none →
      Wrote metaId holder site.store.log site.now
        ((prepare.apply (Draft.ofState (.new metaId)).disableRecovery).current.annotations.insert
          Mark.leaseHolder holder) l' e → l'.active = true →
      Q (.ok ()) (l', site.after (site.store.record e) g))
    (hwon : ∀ g l' last e, g.Allows allowed → site.store.log.latest? metaId = some last →
      Free holder stale site.now last →
      Wrote metaId holder site.store.log site.now
        (last.annotations.insert Mark.leaseHolder holder) l' e → l'.active = true →
      Q (.ok ()) (l', site.after (site.store.record e) g)) :
    Leads (acquire stale prepare.apply) (.new metaId holder, site) Q := by
  unfold acquire
  simp only [leads_bind, Work.leads_own, leads_tryCatch]
  refine leads_findLatest h ?_ ?_
  · intro g fault hg
    simp only
    split
    next => exact hfault g _ fault hg
    next =>
      simp only [leads_bind]
      refine leads_create (h.after site.store hg) hlog ?_ ?_ ?_
      · intro g' e hg' hnone hnext
        refine hfirst g' _ e hg' hnone (wrote_of_next hlog ?_ ?_ hnext ?_ fun _ => rfl) ?_
        · rfl
        · rfl
        · rfl
        · rfl
      · intro g' hg'
        simp only [Bool.false_eq_true, if_false, leads_bind, refresh, Work.leads_own]
        refine leads_findLatest (h.after site.store hg') ?_ ?_
        · exact fun g'' fault hg'' => hfault g'' _ fault hg''
        · intro g'' e hg'' he
          refine hkept g'' _ hg'' (fits_of_latest? hlog ?_ ?_ he ?_ nofun) rfl
          · rfl
          · rfl
          · rfl
      · exact fun g' fault hg' => hfault g' _ fault hg'
  · intro g last hg hlast
    change Leads (discard (takeOver stale))
      ({ Lease.new metaId holder with known := .ofState last }, site.after site.store g) Q
    have hl : Fits metaId holder { Lease.new metaId holder with known := .ofState last }
        site.store.log :=
      fits_of_latest? hlog rfl rfl hlast rfl nofun
    rw [leads_discard]
    refine leads_takeOver (h.after site.store hg) hlog hl nofun ?_ ?_
    · intro _ g' l' outcome hg' hl' ha' _
      cases outcome with
      | error fault => exact hfault g' l' fault hg'
      | ok b => exact hkept g' l' hg' hl' ha'
    · exact fun _ g' l' last' e hg' hlast' hfree hwrote ha' =>
        hwon g' l' last' e hg' hlast' hfree hwrote ha'

end

/-! ### What every operation keeps -/

/-- What an operation leaves behind: the store as it was or with the next entry of the meta state,
and a component that knows an entry of it. -/
structure Keeps (allowed : Method → Fault → Prop) (metaId : StateId) (holder : String) (s : Store)
    (p : Lease × Site) : Prop where
  plain : p.2.Plain allowed
  store : p.2.store = s ∨ ∃ now notes e, s.log.Next now metaId notes e ∧ p.2.store = s.record e
  fits : Fits metaId holder p.1 p.2.store.log

theorem keeps_same {l' : Lease} {g : Gate} (hg : g.Allows allowed)
    (hl' : Fits metaId holder l' site.store.log) :
    Keeps allowed metaId holder site.store (l', site.after site.store g) :=
  ⟨h.after _ hg, .inl rfl, hl'⟩

theorem keeps_wrote {l' : Lease} {g : Gate} {notes : Notes} {e : State} (hg : g.Allows allowed)
    (hwrote : Wrote metaId holder site.store.log site.now notes l' e) :
    Keeps allowed metaId holder site.store (l', site.after (site.store.record e) g) :=
  ⟨h.after _ hg, .inr ⟨_, _, e, hwrote.next, rfl⟩, hwrote.fits⟩

include hlog

theorem keeps_acquire {stale : Span} (prepare : Draft.Change) :
    Leads (acquire stale prepare.apply) (.new metaId holder, site) fun outcome p =>
      (p.2.store = site.store ∨ ∃ now notes e, site.store.log.Next now metaId notes e ∧
        p.2.store = site.store.record e) ∧
      (outcome = .ok () → Fits metaId holder p.1 p.2.store.log) := by
  refine leads_acquire h hlog prepare ?_ ?_ ?_ ?_
  · exact fun g l' fault _ => ⟨.inl rfl, nofun⟩
  · exact fun g l' _ hl' _ => ⟨.inl rfl, fun _ => hl'⟩
  · exact fun g l' e _ _ hwrote _ => ⟨.inr ⟨_, _, e, hwrote.next, rfl⟩, fun _ => hwrote.fits⟩
  · exact fun g l' last e _ _ _ hwrote _ =>
      ⟨.inr ⟨_, _, e, hwrote.next, rfl⟩, fun _ => hwrote.fits⟩

variable (hl : Fits metaId holder l site.store.log)

include hl

theorem keeps_refresh :
    Leads refresh (l, site) fun _ p => Keeps allowed metaId holder site.store p ∧
      p.2.store = site.store := by
  refine leads_refresh h hlog hl ?_ ?_
  · exact fun g fault hg => ⟨keeps_same h hg hl, rfl⟩
  · exact fun g l' hg hl' _ => ⟨keeps_same h hg hl', rfl⟩

theorem keeps_takeOver {stale : Span} :
    Leads (takeOver stale) (l, site) fun _ p => Keeps allowed metaId holder site.store p := by
  refine leads_takeOver h hlog hl ?_ ?_ ?_
  · exact fun _ => keeps_same (g := site.repository.gate) h h.gate hl
  · exact fun _ g l' outcome hg hl' _ _ => keeps_same h hg hl'
  · exact fun _ g l' last e hg _ _ hwrote _ => keeps_wrote h hg hwrote

theorem keeps_confirm (change : Draft.Change) :
    Leads (confirm change.apply) (l, site) fun _ p => Keeps allowed metaId holder site.store p := by
  refine leads_confirm h hlog hl change ?_ ?_ ?_ ?_
  · exact fun _ => keeps_same (g := site.repository.gate) h h.gate hl
  · exact fun _ g fault hg => keeps_same h hg hl
  · exact fun _ g l' outcome hg hl' _ _ => keeps_same h hg hl'
  · exact fun _ g l' e hg _ hwrote => keeps_wrote h hg hwrote

theorem keeps_release (change : Draft.Change) :
    Leads (release change.apply) (l, site) fun _ p => Keeps allowed metaId holder site.store p := by
  refine leads_release h hlog hl change ?_ ?_ ?_
  · exact fun _ => keeps_same (g := site.repository.gate) h h.gate hl
  · exact fun _ g l' outcome hg hl' _ => keeps_same h hg hl'
  · exact fun _ g l' e hg _ hwrote _ => keeps_wrote h hg hwrote

end Lease

end Workflow
