import Workflow.Proofs.Searching
import Workflow.Proofs.Watermark

/-!
# Reading on is one pass

A recoverer reads the log in pages, and whether it reads on depends on how much it tracks. While
there is room, and while no entry shows that the lease was lost, all pages together do what one pass
over the entries beyond the watermark does (`Recoverer.Scanned`), however long the pages are.
-/

set_option autoImplicit false

namespace Workflow

theorem Log.Sound.length_found_le {l : Log} (h : l.Sound) {q : StateQuery} (hneg : q.sinceRev < 0) :
    (l.found q).length ≤ 1 := by
  by_contra hlong
  have hlast (p : Nat) (hp : p < (l.found q).length) : (l.found q)[p].rev = l.head := by
    have hbehind := (mem_found_iff.1 (List.getElem_mem hp)).behind
    rwa [if_pos hneg] at hbehind
  have hlt := List.pairwise_iff_getElem.1 (h.pairwise_found q) 0 1 (by omega) (by omega)
    Nat.zero_lt_one
  rw [hlast, hlast] at hlt
  omega

theorem Log.Sound.dated_of_mem_found {l : Log} (h : l.Sound) {q : StateQuery} {e : State}
    (he : e ∈ l.found q) : e.committedAt.isSome := by
  obtain ⟨p, hp⟩ := List.mem_iff_getElem?.1 (mem_found_iff.1 he).mem
  exact h.dated p e hp

theorem Log.Sound.page_since {l : Log} (h : l.Sound) (rev : Int) (limit : Nat) :
    let page := l.page { StateQuery.since rev with limit := limit }
    (page.more = false → page.items = l.found (.since rev)) ∧
      (page.more = true → ∃ last, page.items.getLast? = some last ∧
        l.found (.since rev) = page.items ++ l.found (.since last.rev)) := by
  intro page
  let q := { StateQuery.since rev with limit := limit }
  have hpage : page = Page.ofList q.pageLength (l.found (.since rev)) := h.page_eq_found q
  have hpos := q.pageLength_pos
  constructor
  · intro hdone
    rw [hpage] at hdone ⊢
    exact Page.items_of_not_more hdone
  · intro hmore
    have hlonger := Page.more_ofList_iff.1 (hpage ▸ hmore)
    have hsince : 0 ≤ q.sinceRev := by
      by_contra hneg
      have hone : (l.found (.since rev)).length ≤ 1 := h.length_found_le (Int.not_le.1 hneg)
      omega
    have hitems : page.items = (l.found (.since rev)).take q.pageLength := by
      rw [hpage, Page.items_ofList]
    obtain ⟨last, hlast⟩ : ∃ last, page.items.getLast? = some last := by
      refine Option.ne_none_iff_exists'.1 fun hnone => ?_
      have hlen := congrArg List.length (List.getLast?_eq_none_iff.1 hnone)
      rw [hitems, List.length_take, List.length_nil] at hlen
      omega
    obtain ⟨-, hafter⟩ := h.found_after_page hsince hlast
    have hrest : l.found (.since last.rev) = (l.found (.since rev)).drop q.pageLength := hafter
    exact ⟨last, hlast, by rw [hrest, hitems, List.take_append_drop]⟩

namespace Lease

/-- The entry may be read without losing the lease: unless it is known already, a meta state names
this component. -/
def Admits (l : Lease) (e : State) : Prop :=
  e.id = l.metaId → l.known.committed.rev < e.rev → e.holder = l.holder

/-- An entry of its own keeps a component the holder that it was. -/
structure Continues (l l' : Lease) : Prop where
  metaId : l'.metaId = l.metaId
  holder : l'.holder = l.holder
  active : l'.active = l.active
  newer : l.known.committed.rev ≤ l'.known.committed.rev

section

variable {l l' l'' : Lease}

theorem continues_refl (l : Lease) : l.Continues l := ⟨rfl, rfl, rfl, Int.le_refl _⟩

theorem Continues.trans (h : l.Continues l') (h' : l'.Continues l'') : l.Continues l'' where
  metaId := h'.metaId.trans h.metaId
  holder := h'.holder.trans h.holder
  active := h'.active.trans h.active
  newer := Int.le_trans h.newer h'.newer

theorem Continues.admits (h : l.Continues l') {e : State} (he : l.Admits e) : l'.Admits e := by
  intro hid hrev
  rw [h.holder]
  exact he (hid.trans h.metaId) (Int.lt_of_le_of_lt h.newer hrev)

theorem observe_of_admits {e : State} (h : l.Admits e) :
    (l.observe e).2 = false ∧ l.Continues (l.observe e).1 := by
  unfold observe
  split
  next => exact ⟨rfl, continues_refl l⟩
  next hnew =>
    rw [not_or, not_not, Int.not_le] at hnew
    have hheld := h hnew.1 hnew.2
    have hcommitted : (Draft.ofState e).committed.rev = if 0 < e.rev then e.rev else 0 :=
      Draft.expectedRev_ofState e
    refine ⟨by simp [hheld], rfl, rfl, by simp [hheld], ?_⟩
    show l.known.committed.rev ≤ (Draft.ofState e).committed.rev
    rw [hcommitted]
    split <;> omega

end

end Lease

namespace Recoverer

open Effect

/-! ### One pass -/

/-- Whether recovery looks after an entry: it is none of the meta state, and has not disabled it. -/
def minds (r : Recoverer) (e : State) : Bool := e.id ≠ r.lease.metaId && e.recoverable

/-- What is tracked of a state whose last entry is the given one. -/
def stuck? (c : RecovererSettings) (e : State) : Option Stuck :=
  if e.isEnded || e.isPaused then none
  else
    match e.committedAt, c.retryAfter? e.retryAfter? with
    | some committedAt, some after => some ⟨e, committedAt + after⟩
    | _, _ => none

/-- The recoverer after one pass over entries. Of each state that it looks after, it tracks what the
last of these entries leaves to track. -/
structure Scanned (c : RecovererSettings) (r : Recoverer) (entries : List State) (r' : Recoverer) :
    Prop where
  sinceRev : r'.sinceRev = (entries.getLast?.map State.rev).getD r.sinceRev
  headRev : r'.headRev = ((entries.filter r.minds).getLast?.map State.rev).getD r.headRev
  tracked : ∀ id, r'.tracked.get? id =
    match (entries.filter fun e => r.minds e && decide (e.id = id)).getLast? with
    | some e => stuck? c e
    | none => r.tracked.get? id
  added : r'.added = r.added + entries.countP fun e => r.minds e && !(e.isEnded || e.isPaused)
  completed : r'.completed = r.completed + entries.countP fun e =>
    r.minds e && (e.isEnded || e.isPaused)
  retried : r'.retried = r.retried
  dropped : r'.dropped = r.dropped
  lease : r.lease.Continues r'.lease

section

variable {c : RecovererSettings} {r r' : Recoverer} {entries : List State} {e : State}

theorem stuck?_of_running (hc : ¬ c.maxRetryAfter < c.minRetryAfter)
    (hdated : e.committedAt.isSome) (hrunning : (e.isEnded || e.isPaused) = false) :
    ∃ committedAt after, e.committedAt = some committedAt ∧
      c.retryAfter? e.retryAfter? = some after ∧
      stuck? c e = some ⟨e, committedAt + after⟩ := by
  obtain ⟨committedAt, hat⟩ := Option.isSome_iff_exists.1 hdated
  obtain ⟨after, hafter⟩ : ∃ after, c.retryAfter? e.retryAfter? = some after := ⟨_, if_neg hc⟩
  refine ⟨committedAt, after, hat, hafter, ?_⟩
  unfold stuck?
  rw [hrunning, hat, hafter]
  rfl

theorem scanned_refl (c : RecovererSettings) (r : Recoverer) : Scanned c r [] r :=
  ⟨rfl, rfl, fun _ => rfl, rfl, rfl, rfl, rfl, Lease.continues_refl _⟩

theorem Scanned.minds_eq (h : Scanned c r entries r') : r'.minds = r.minds := by
  funext e
  rw [minds, minds, h.lease.metaId]

theorem Scanned.trans {more : List State} {r'' : Recoverer} (h : Scanned c r entries r')
    (h' : Scanned c r' more r'') : Scanned c r (entries ++ more) r'' where
  sinceRev := by
    rw [h'.sinceRev, h.sinceRev, List.getLast?_append]
    cases more.getLast? <;> rfl
  headRev := by
    rw [h'.headRev, h.headRev, h.minds_eq, List.filter_append, List.getLast?_append]
    cases (more.filter r.minds).getLast? <;> rfl
  tracked := by
    intro id
    rw [h'.tracked, h.tracked, h.minds_eq, List.filter_append, List.getLast?_append]
    cases (more.filter fun e => r.minds e && decide (e.id = id)).getLast? <;> rfl
  added := by
    rw [h'.added, h.added, h.minds_eq, List.countP_append, Nat.add_assoc]
  completed := by
    rw [h'.completed, h.completed, h.minds_eq, List.countP_append, Nat.add_assoc]
  retried := h'.retried.trans h.retried
  dropped := h'.dropped.trans h.dropped
  lease := h.lease.trans h'.lease

theorem scanned_of_not_minds {lease : Lease} (hlease : r.lease.Continues lease)
    (hnone : r.minds e = false) : Scanned c r [e] { r with sinceRev := e.rev, lease := lease } := by
  constructor
  case lease => exact hlease
  all_goals simp [hnone]

theorem scanned_track (hc : ¬ c.maxRetryAfter < c.minRetryAfter) (hdated : e.committedAt.isSome)
    (hminds : r.minds e = true) : Scanned c r [e] (track c { r with sinceRev := e.rev } e) := by
  unfold track
  cases hsettled : e.isEnded || e.isPaused with
  | true =>
    have hnone : stuck? c e = none := by
      unfold stuck?
      rw [hsettled]
      rfl
    constructor
    case lease => exact Lease.continues_refl _
    case tracked =>
      intro id
      by_cases hid : e.id = id
      · simp [hminds, hid, hnone, SortedMap.get?_erase]
      · simp [hid, SortedMap.get?_erase]
    all_goals simp [hminds, hsettled, -Bool.not_or]
  | false =>
    obtain ⟨committedAt, after, hat, hafter, hstuck⟩ := stuck?_of_running hc hdated hsettled
    rw [hat, hafter]
    constructor
    case lease => exact Lease.continues_refl _
    case tracked =>
      intro id
      by_cases hid : e.id = id
      · simp [hminds, hid, hstuck, SortedMap.get?_insert]
      · simp [hid, Ne.symm hid, SortedMap.get?_insert]
    all_goals simp [hminds, hsettled, -Bool.not_or]

theorem scanned_takeEntry (hc : ¬ c.maxRetryAfter < c.minRetryAfter)
    (hdated : e.committedAt.isSome) (hown : r.lease.Admits e) :
    (r.takeEntry c e).2 = false ∧ Scanned c r [e] (r.takeEntry c e).1 := by
  unfold takeEntry
  simp only
  split
  next hid =>
    obtain ⟨hkept, hlease⟩ := Lease.observe_of_admits hown
    rw [hkept]
    exact ⟨rfl, scanned_of_not_minds hlease (by simp [minds, hid])⟩
  next hid =>
    split
    next hrecoverable =>
      exact ⟨rfl, scanned_track hc hdated (by simp [minds, hid, hrecoverable])⟩
    next hdisabled =>
      exact ⟨rfl, scanned_of_not_minds (Lease.continues_refl _) (by simp [minds, hdisabled])⟩

theorem scanned_takeEntries (hc : ¬ c.maxRetryAfter < c.minRetryAfter)
    (hdated : ∀ e ∈ entries, e.committedAt.isSome) (hown : ∀ e ∈ entries, r.lease.Admits e) :
    (r.takeEntries c entries).2 = false ∧ Scanned c r entries (r.takeEntries c entries).1 := by
  induction entries generalizing r with
  | nil => exact ⟨rfl, scanned_refl c r⟩
  | cons e rest ih =>
    obtain ⟨hdate, hdates⟩ := List.forall_mem_cons.1 hdated
    obtain ⟨hfirst, hrest⟩ := List.forall_mem_cons.1 hown
    obtain ⟨hkept, hone⟩ := scanned_takeEntry hc hdate hfirst
    unfold takeEntries
    generalize r.takeEntry c e = p at hkept hone
    obtain ⟨next, lost⟩ := p
    obtain rfl : lost = false := hkept
    obtain ⟨hlast, hmore⟩ := ih (r := next) hdates fun f hf => hone.lease.admits (hrest f hf)
    exact ⟨hlast, hone.trans hmore⟩

theorem takeEntries_append {more : List State} (h : (r.takeEntries c entries).2 = false) :
    r.takeEntries c (entries ++ more) = (r.takeEntries c entries).1.takeEntries c more := by
  induction entries generalizing r with
  | nil => rfl
  | cons e rest ih =>
    rw [List.cons_append, takeEntries.eq_2, takeEntries.eq_2]
    rw [takeEntries.eq_2] at h
    generalize r.takeEntry c e = p at h
    obtain ⟨next, lost⟩ := p
    cases lost with
    | true => cases h
    | false => exact ih h

theorem takeEntries_limit (limit : Nat) (r : Recoverer) (entries : List State) :
    r.takeEntries { c with batchLimit := limit } entries = r.takeEntries c entries := by
  induction entries generalizing r with
  | nil => rfl
  | cons e rest ih =>
    unfold takeEntries
    have hone : r.takeEntry { c with batchLimit := limit } e = r.takeEntry c e := rfl
    rw [hone]
    rcases r.takeEntry c e with ⟨next, _ | _⟩
    · exact ih next
    · rfl

end

/-! ### Page by page -/

/-- While there are entries to come, fewer states are tracked than may be. -/
def HasRoom (c : RecovererSettings) (r : Recoverer) (entries : List State) : Prop :=
  ∀ k < entries.length, (r.takeEntries c (entries.take k)).1.tracked.size < c.maxTracked

section

variable {c : RecovererSettings} {r : Recoverer} {site : Site}

/-- Reading page by page does what one pass over all that is found does. -/
theorem leads_readOn_found (h : site.Plain fun _ _ => False) (hlog : site.store.log.Sound)
    (hc : ¬ c.maxRetryAfter < c.minRetryAfter) (limit : Nat) {entries : List State}
    (hfound : site.store.log.found (.since r.sinceRev) = entries)
    (hown : ∀ e ∈ entries, r.lease.Admits e) (hroom : HasRoom c r entries) {fuel : Nat}
    (hfuel : entries.length < fuel) :
    Leads (readOn { c with batchLimit := limit } fuel) (r, site) fun outcome p =>
      outcome = .ok () ∧ p.1 = (r.takeEntries c entries).1 ∧
        ∃ g, p.2 = site.after site.store g := by
  induction fuel generalizing r site entries with
  | zero => omega
  | succ fuel ih =>
    unfold readOn
    simp only [leads_bind, Work.leads_own]
    split
    next hfull =>
      have hnone : entries = [] := by
        by_contra hsome
        have hlt := hroom 0 (List.length_pos_iff.2 hsome)
        exact absurd hfull (Nat.not_le.2 hlt)
      subst hnone
      exact ⟨rfl, rfl, site.repository.gate, rfl⟩
    next =>
      have hdated : ∀ e ∈ entries, e.committedAt.isSome := fun e he =>
        hlog.dated_of_mem_found (hfound ▸ he)
      simp only [leads_bind]
      refine Work.leads_listStates_of_allowed h (fun _ _ _ hnone => hnone.elim) fun g hg => ?_
      simp only [Work.leads_change, takeEntries_limit]
      obtain ⟨hdone, hnext⟩ := hlog.page_since r.sinceRev limit
      generalize site.store.log.page { StateQuery.since r.sinceRev with limit := limit } = page
        at hdone hnext
      cases hmore : page.more with
      | false =>
        obtain rfl : page.items = entries := (hdone hmore).trans hfound
        rw [Bool.and_false]
        exact ⟨rfl, rfl, g, rfl⟩
      | true =>
        obtain ⟨last, hlast, hsplit⟩ := hnext hmore
        generalize hrest : site.store.log.found (.since last.rev) = rest at hsplit
        obtain rfl : entries = page.items ++ rest := hfound.symm.trans hsplit
        obtain ⟨hdates, -⟩ := List.forall_mem_append.1 hdated
        obtain ⟨hitems, hothers⟩ := List.forall_mem_append.1 hown
        obtain ⟨hkept, hscanned⟩ := scanned_takeEntries (c := c) hc hdates hitems
        rw [hkept]
        have hsince : (r.takeEntries c page.items).1.sinceRev = last.rev := by
          rw [hscanned.sinceRev, hlast]
          rfl
        have hlength : 0 < page.items.length := by
          rw [List.length_pos_iff, ← List.getLast?_isSome, hlast]
          rfl
        rw [List.length_append] at hfuel
        refine (ih (h.after _ hg) hlog (hsince ▸ hrest)
          (fun e he => hscanned.lease.admits (hothers e he)) (fun k hk => ?_) (by omega)).mono ?_
        · have hprefix := hroom (page.items.length + k)
            (by rw [List.length_append]; omega)
          rw [List.take_length_add_append, takeEntries_append hkept] at hprefix
          exact hprefix
        · rintro outcome p ⟨hok, hread, g', hsite⟩
          rw [takeEntries_append hkept]
          exact ⟨hok, hread, g', hsite⟩

end

/-- Whatever the length of its pages, the head scan of an active recoverer comes to an end and does
one pass over the entries beyond the revision that it read up to; behind a negative one there is no
more than the last entry of the log. It tracks a state that it looks after exactly if the last of
these entries of the state is neither ended nor paused, with that entry and the time to try it
again, and it keeps what it tracked of other states. -/
theorem head_scan_is_one_pass {c : RecovererSettings} {r : Recoverer} {site : Site}
    (h : site.Plain fun _ _ => False) (hlog : site.store.log.Sound) (hc : c.validate = .ok ())
    (ha : r.lease.active = true)
    (hown : ∀ e ∈ site.store.log.found (.since r.sinceRev), r.lease.Admits e)
    (hroom : HasRoom c r (site.store.log.found (.since r.sinceRev))) :
    let entries := site.store.log.entries.filter (site.store.log.isBehind r.sinceRev)
    ∃ r', (∀ limit,
        Leads (scanHead { c with batchLimit := limit }) (r, site) (fun outcome p =>
          outcome = .ok () ∧ p.1 = r' ∧ ∃ g, p.2 = site.after site.store g) ∧
        ∀ fuel, site.store.log.entries.length < fuel →
          Leads (readOn { c with batchLimit := limit } fuel) (r, site) fun outcome p =>
            outcome = .ok () ∧ p.1 = r' ∧ ∃ g, p.2 = site.after site.store g) ∧
      Scanned c r entries r' ∧
      ∀ id, match (entries.filter fun e => r.minds e && decide (e.id = id)).getLast? with
        | some e =>
          if e.isEnded || e.isPaused then r'.tracked.get? id = none
          else ∃ committedAt after, e.committedAt = some committedAt ∧
            c.retryAfter? e.retryAfter? = some after ∧
            r'.tracked.get? id = some ⟨e, committedAt + after⟩
        | none => r'.tracked.get? id = r.tracked.get? id := by
  intro entries
  have hbounds := (RecovererSettings.validate_eq_ok_iff.1 hc).2.1
  have hentries : site.store.log.found (.since r.sinceRev) = entries := by
    refine List.filter_congr fun e _ => ?_
    simp [StateQuery.since, StateQuery.accepts]
  rw [hentries] at hown hroom
  have hdated : ∀ e ∈ entries, e.committedAt.isSome := fun e he =>
    hlog.dated_of_mem_found (hentries ▸ he)
  obtain ⟨-, hscanned⟩ := scanned_takeEntries hbounds hdated hown
  have hlength : entries.length ≤ site.store.log.entries.length := List.length_filter_le _ _
  have hread (limit fuel : Nat) (hfuel : site.store.log.entries.length < fuel) :=
    leads_readOn_found h hlog hbounds limit hentries hown hroom (Nat.lt_of_le_of_lt hlength hfuel)
  refine ⟨_, fun limit => ⟨?_, hread limit⟩, hscanned, fun id => ?_⟩
  · unfold scanHead
    simp only [leads_bind, Work.leads_own, ha, if_true, leads_get]
    exact hread limit _ (Nat.lt_add_of_pos_right (Nat.zero_lt_succ 1))
  · have htracked := hscanned.tracked id
    generalize hlast : (entries.filter fun e => r.minds e && decide (e.id = id)).getLast? = last
      at htracked
    cases last with
    | none => exact htracked
    | some e =>
      have he := List.mem_of_mem_filter (List.mem_of_getLast? hlast)
      simp only at htracked ⊢
      split
      next hsettled =>
        rw [htracked, stuck?, if_pos hsettled]
      next hrunning =>
        obtain ⟨committedAt, after, hat, hafter, hstuck⟩ :=
          stuck?_of_running hbounds (hdated e he) (Bool.eq_false_iff.2 hrunning)
        exact ⟨committedAt, after, hat, hafter, htracked.trans hstuck⟩

/-- One state moves and ends, another moves, and the holder of the lease has confirmed it. -/
theorem head_scan_is_one_pass_of_four_entries :
    let c : RecovererSettings := { holder := "r" }
    let a : State := .new ⟨"a"⟩
    let confirmed := (Draft.ofState (.new c.metaId)).disableRecovery.annotate Mark.leaseHolder "r"
    let requests : List Store.Request :=
      [.commit default [.transit (.ofState a) ⟨"x"⟩ ∅],
        .commit default [.transit (.ofState (.new ⟨"b"⟩)) ⟨"x"⟩ ∅],
        .commit default [.finish (.ofState { a with rev := 1 }) ∅],
        .commit default [.pause confirmed none ∅]]
    let site : Site := ⟨⟨Store.run requests, .free, .direct⟩, default, true, []⟩
    let r : Recoverer := { Recoverer.new c with lease := ⟨c.metaId, "r", default, true, 0⟩ }
    (site.Plain (fun _ _ => False) ∧ c.validate = .ok () ∧ r.lease.active = true ∧
      (∀ e ∈ site.store.log.found (.since r.sinceRev), r.lease.Admits e) ∧
      HasRoom c r (site.store.log.found (.since r.sinceRev))) ∧
    ∃ r', (∀ limit, Leads (scanHead { c with batchLimit := limit }) (r, site) fun outcome p =>
        outcome = .ok () ∧ p.1 = r' ∧ ∃ g, p.2 = site.after site.store g) ∧
      r'.sinceRev = 4 ∧ r'.tracked.get? ⟨"a"⟩ = none ∧
      (∃ stuck ∈ r'.tracked.get? ⟨"b"⟩, stuck.state.rev = 2 ∧
        stuck.retryAt = (default : Instant) + Span.ofSecs 120) ∧
      r'.added = 2 ∧ r'.completed = 1 := by
  intro c a confirmed requests site r
  have hplain : site.Plain fun _ _ => False := ⟨rfl, fun _ _ h => nomatch h⟩
  have hown : ∀ e ∈ site.store.log.found (.since r.sinceRev), r.lease.Admits e := by
    unfold Lease.Admits
    decide +kernel
  have hroom : HasRoom c r (site.store.log.found (.since r.sinceRev)) := by
    unfold HasRoom
    decide +kernel
  have hlog : site.store.log.Sound := by
    unfold Site.store
    exact Store.sound_run requests
  have hvalid : c.validate = .ok () := by decide +kernel
  have ha : r.lease.active = true := rfl
  obtain ⟨r', hscan, hscanned, -⟩ := head_scan_is_one_pass hplain hlog hvalid ha hown hroom
  refine ⟨⟨hplain, hvalid, ha, hown, hroom⟩, r', fun limit => (hscan limit).1, ?_, ?_, ?_, ?_, ?_⟩
  · rw [hscanned.sinceRev]
    decide +kernel
  · rw [hscanned.tracked]
    decide +kernel
  · rw [hscanned.tracked]
    decide +kernel
  · rw [hscanned.added]
    decide +kernel
  · rw [hscanned.completed]
    decide +kernel

/-- From a negative watermark, which a meta state may have, an active recoverer reads no more than
the last entry of the log: it does not track a state beyond the watermark whose last entry is
neither ended nor paused. -/
theorem head_scan_leaves_out_behind_negative_watermark :
    let c : RecovererSettings := { holder := "r" }
    let unheld := ((Draft.ofState (.new c.metaId)).disableRecovery.annotate Mark.leaseHolder
      "").annotate Mark.recoverySinceRev "-1"
    let requests : List Store.Request :=
      [.commit default [.pause unheld none ∅],
        .commit default [.transit (.ofState (.new ⟨"a"⟩)) ⟨"x"⟩ ∅]]
    let site : Site := ⟨⟨Store.run requests, .free, .direct⟩, default, true, []⟩
    let started := (start (.ofSecs 360)).perform (Recoverer.new c) site
    let scanned := (scanHead c).perform started.2.1 started.2.2
    started.2.1.lease.active = true ∧ started.2.1.sinceRev = -1 ∧
      (∀ e ∈ started.2.2.store.log.entries, started.2.1.lease.Admits e) ∧
      (∃ e ∈ started.2.2.store.log.latest? ⟨"a"⟩, started.2.1.minds e = true ∧
        (e.isEnded || e.isPaused) = false ∧ started.2.1.sinceRev < e.rev) ∧
      scanned.1.isOk = true ∧ scanned.2.1.tracked.get? ⟨"a"⟩ = none ∧ scanned.2.1.added = 0 := by
  intro c unheld requests site started scanned
  unfold Lease.Admits
  refine ⟨?_, ?_, ?_, ?_, ?_, ?_, ?_⟩
  all_goals decide +kernel

end Recoverer

end Workflow
