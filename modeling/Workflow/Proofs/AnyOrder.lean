import Workflow.Proofs.Foreseeing
import Workflow.Proofs.Retrying

/-!
# The tail scan in any order

The states that are due come in no certain order. What becomes of each only depends on the log
before the scan, since the others add no entry of it, and what the scan does afterwards sees no more
of the log than its length and the last meta state. So two orders lead to the same recoverer, and to
logs that differ in the order of the new entries only.
-/

set_option autoImplicit false

namespace Workflow

/-- A state but for its revision. -/
def State.unnumbered (s : State) : State := { s with rev := 0 }

namespace Recoverer

open Effect

/-- A state that is tried again, and what becomes of it. -/
structure Visit where
  id : StateId
  stuck : Stuck
  verdict : Verdict

/-- Trying a state again, with what the log tells of it. -/
def judge (c : RecovererSettings) (l : Log) (x : StateId × Stuck) : Visit :=
  ⟨x.1, x.2, verdict c l x.2.state⟩

/-- The entry that trying a state again adds, but for its revision. -/
def Visit.entry (c : RecovererSettings) (now : Instant) (v : Visit) : State :=
  { v.stuck.state.tried c.maxAttempts with rev := 0, committedAt := some now }

/-- What became of a state that was tracked, as a recoverer shows before and after. -/
def seen (before after : Recoverer) (id : StateId) : Verdict :=
  if (after.tracked.get? id).isSome then .refused
  else if before.retried < after.retried then .retried
  else if before.dropped < after.dropped then .ended
  else .advanced

/-- What becomes of states that are tried one after the other, each as the recoverer shows right
before and after it. -/
def verdicts (c : RecovererSettings) :
    List (StateId × Stuck) → Recoverer → Site → List (StateId × Verdict)
  | [], _, _ => []
  | x :: rest, r, site =>
    let (_, next, site') := (retryAll c [x]).perform r site
    (x.1, seen r next x.1) :: verdicts c rest next site'

/-- What some visits leave behind. -/
structure Passed (c : RecovererSettings) (visits : List Visit) (r : Recoverer) (site : Site)
    (p : Recoverer × Site) : Prop where
  plain : p.2.Plain fun _ _ => False
  sound : p.2.store.log.Sound
  frame : p.1 = { r with
    tracked := p.1.tracked, retried := p.1.retried, dropped := p.1.dropped }
  tracked : ∀ id, p.1.tracked.get? id =
    if visits.any fun v => v.id = id && v.verdict ≠ .refused then none else r.tracked.get? id
  retried : p.1.retried = r.retried + visits.countP (·.verdict = .retried)
  dropped : p.1.dropped = r.dropped + visits.countP (·.verdict = .ended)
  added : ∃ new, p.2.store.log.entries = site.store.log.entries ++ new ∧
    new.map State.unnumbered = (visits.filter (·.verdict.adds)).map (Visit.entry c site.now) ∧
    p.2.store = { site.store with
      log := p.2.store.log, announced := site.store.announced + new.length }
  started : ∃ new, p.2.launched = site.launched ++ new ∧
    new.map (·.current.unnumbered) =
      if site.isOpen then (visits.filter (·.verdict = .retried)).map (Visit.entry c site.now)
      else []
  here : p.2.now = site.now ∧ p.2.isOpen = site.isOpen

section

variable {c : RecovererSettings} {r : Recoverer} {site : Site}

theorem passed_refl (h : site.Plain fun _ _ => False) (hlog : site.store.log.Sound) :
    Passed c [] r site (r, site) where
  plain := h
  sound := hlog
  frame := rfl
  tracked := fun _ => rfl
  retried := rfl
  dropped := rfl
  added := ⟨[], (List.append_nil _).symm, rfl, rfl⟩
  started := ⟨[], (List.append_nil _).symm, by simp⟩
  here := ⟨rfl, rfl⟩

theorem Passed.trans {visits more : List Visit} {p q : Recoverer × Site}
    (h : Passed c visits r site p) (h' : Passed c more p.1 p.2 q) :
    Passed c (visits ++ more) r site q where
  plain := h'.plain
  sound := h'.sound
  frame := by
    rw [h'.frame, h.frame]
  tracked := by
    intro id
    rw [h'.tracked, h.tracked, List.any_append]
    cases more.any fun v => v.id = id && v.verdict ≠ .refused <;> simp
  retried := by
    rw [h'.retried, h.retried, List.countP_append, Nat.add_assoc]
  dropped := by
    rw [h'.dropped, h.dropped, List.countP_append, Nat.add_assoc]
  added := by
    obtain ⟨new, hentries, hnew, hstore⟩ := h.added
    obtain ⟨new', hentries', hnew', hstore'⟩ := h'.added
    refine ⟨new ++ new', ?_, ?_, ?_⟩
    · rw [hentries', hentries, List.append_assoc]
    · rw [List.map_append, hnew, hnew', h.here.1, List.filter_append, List.map_append]
    · rw [hstore', hstore, List.length_append, Nat.add_assoc]
  started := by
    obtain ⟨new, hlaunched, hnew⟩ := h.started
    obtain ⟨new', hlaunched', hnew'⟩ := h'.started
    refine ⟨new ++ new', ?_, ?_⟩
    · rw [hlaunched', hlaunched, List.append_assoc]
    · rw [List.map_append, hnew, hnew', h.here.1, h.here.2, List.filter_append, List.map_append]
      split <;> rfl
  here := ⟨h'.here.1.trans h.here.1, h'.here.2.trans h.here.2⟩

/-! ### One state -/

section

variable {v : Visit} {tracked : SortedMap StateId Stuck} {g : Gate}
  (h : site.Plain fun _ _ => False) (hlog : site.store.log.Sound)
  (hg : g.Allows fun _ _ => False)
  (htracked : ∀ id, tracked.get? id =
    if v.id = id ∧ v.verdict ≠ .refused then none else r.tracked.get? id)

include h hlog hg htracked

theorem passed_of_kept (hnone : v.verdict.adds = false) :
    Passed c [v] r site ({ r with tracked := tracked }, site.after site.store g) := by
  have hretried : v.verdict ≠ .retried := fun heq => by rw [heq] at hnone; cases hnone
  have hended : v.verdict ≠ .ended := fun heq => by rw [heq] at hnone; cases hnone
  refine ⟨h.after _ hg, hlog, rfl, fun id => ?_, ?_, ?_, ⟨[], ?_, ?_, rfl⟩, ⟨[], ?_, ?_⟩, rfl, rfl⟩
  case refine_1 => simpa using htracked id
  all_goals simp [hretried, hended, hnone]

variable {e : State} (he : e = Store.entryOf site.store.log site.now
  (v.stuck.state.tried c.maxAttempts))

include he

theorem passed_of_ended (hended : v.verdict = .ended) :
    Passed c [v] r site ({ r with tracked := tracked, dropped := r.dropped + 1 },
      site.after (site.store.record e) g) := by
  have hsound : (site.store.log.append e).Sound :=
    he ▸ (site.store.log.next_tried site.now c.maxAttempts v.stuck.state).sound hlog
  have hentry : e.unnumbered = v.entry c site.now := he ▸ rfl
  refine ⟨h.after _ hg, hsound, rfl, fun id => ?_, ?_, ?_, ⟨[e], rfl, ?_, rfl⟩, ⟨[], ?_, ?_⟩,
    rfl, rfl⟩
  case refine_1 => simpa using htracked id
  all_goals simp [hended, hentry, Verdict.adds]

theorem passed_of_retried (hretried : v.verdict = .retried) :
    Passed c [v] r site ({ r with tracked := tracked, retried := r.retried + 1 },
      (site.after (site.store.record e) g).launching (.ofState e)) := by
  have hsound : (site.store.log.append e).Sound :=
    he ▸ (site.store.log.next_tried site.now c.maxAttempts v.stuck.state).sound hlog
  have hentry : e.unnumbered = v.entry c site.now := he ▸ rfl
  have hstore : ((site.after (site.store.record e) g).launching (.ofState e)).store =
      site.store.record e := Site.store_launching ..
  refine ⟨(h.after _ hg).launching _, ?_, rfl, fun id => ?_, ?_, ?_, ⟨[e], ?_, ?_, ?_⟩, ?_, ?_⟩
  case refine_1 => rwa [hstore]
  case refine_2 => simpa using htracked id
  case refine_5 =>
    rw [hstore]
    rfl
  case refine_7 =>
    rw [hstore]
    rfl
  case refine_8 =>
    rw [Site.launched_launching]
    cases hopen : site.isOpen with
    | true => exact ⟨[.ofState e], by simp [hopen], by simp [hretried, ← hentry, Draft.ofState]⟩
    | false => exact ⟨[], by simp [hopen], by simp⟩
  all_goals simp [hretried, hentry, Verdict.adds]

end

theorem leads_retryAll_one (h : site.Plain fun _ _ => False) (hlog : site.store.log.Sound)
    {x : StateId × Stuck} (hget : r.tracked.get? x.1 = some x.2) :
    Leads (retryAll c [x]) (r, site) fun outcome p =>
      outcome = .ok () ∧ Passed c [judge c site.store.log x] r site p := by
  obtain ⟨id, stuck⟩ := x
  have herased (hkept : verdict c site.store.log stuck.state ≠ .refused) (id' : StateId) :
      (r.tracked.erase id).get? id' =
        if (judge c site.store.log (id, stuck)).id = id' ∧
            (judge c site.store.log (id, stuck)).verdict ≠ .refused then none
        else r.tracked.get? id' := by
    split
    next heq => exact heq.1 ▸ SortedMap.get?_erase_self ..
    next hne => exact SortedMap.get?_erase_of_ne _ fun heq => hne ⟨heq.symm, hkept⟩
  unfold retryAll
  simp only [leads_bind, leads_tryCatch, Work.leads_change]
  refine leads_retry_cases h stuck.state (fun _ _ _ himpossible => himpossible.elim)
    (fun _ _ _ himpossible => himpossible.elim) ?_ ?_ ?_ ?_
  · intro g fault hg hverdict
    refine ⟨rfl, passed_of_kept h hlog hg (fun id' => ?_) ?_⟩
    · rw [if_neg fun hkept => hkept.2 hverdict]
      exact SortedMap.get?_insert_erase hget id'
    · exact congrArg Verdict.adds hverdict
  · intro g hg hverdict
    have hkept := herased (by rw [hverdict]; decide)
    exact ⟨rfl, passed_of_kept h hlog hg hkept (congrArg Verdict.adds hverdict)⟩
  · intro g e hg hverdict he
    have hkept := herased (by rw [hverdict]; decide)
    exact ⟨rfl, passed_of_ended h hlog hg hkept he hverdict⟩
  · intro g e hg hverdict he
    have hkept := herased (by rw [hverdict]; decide)
    exact ⟨rfl, passed_of_retried h hlog hg hkept he hverdict⟩

/-! ### All states -/

theorem verdict_congr {l l' : Log} {x : State} (h : l'.latest? x.id = l.latest? x.id) :
    verdict c l' x = verdict c l x := by
  unfold verdict Log.latestRev
  rw [h]

theorem Passed.latest?_eq {visits : List Visit} {p : Recoverer × Site}
    (h : Passed c visits r site p) (hlog : site.store.log.Sound) {id : StateId}
    (hother : ∀ v ∈ visits, v.stuck.state.id ≠ id) :
    p.2.store.log.latest? id = site.store.log.latest? id := by
  obtain ⟨new, hentries, hnew, -⟩ := h.added
  have hnone : new.filter (·.id = id) = [] := by
    refine List.filter_eq_nil_iff.2 fun e he heq => ?_
    have hmem : e.unnumbered ∈ (visits.filter (·.verdict.adds)).map (Visit.entry c site.now) :=
      hnew ▸ List.mem_map_of_mem he
    obtain ⟨v, hv, hentry⟩ := List.mem_map.1 hmem
    have hid := congrArg State.id hentry
    change (v.stuck.state.tried c.maxAttempts).id = e.id at hid
    rw [(v.stuck.state.tried_keeps c.maxAttempts).1] at hid
    exact hother v (List.mem_of_mem_filter hv) (hid.trans (of_decide_eq_true heq))
  rw [h.sound.latest?_eq_getLast?, hlog.latest?_eq_getLast?, Log.of, hentries, List.filter_append,
    hnone, List.append_nil]
  rfl

theorem Passed.seen_eq {x : StateId × Stuck} {p : Recoverer × Site}
    (h : Passed c [judge c site.store.log x] r site p) (hget : r.tracked.get? x.1 = some x.2) :
    seen r p.1 x.1 = verdict c site.store.log x.2.state := by
  have htracked := h.tracked x.1
  have hretried := h.retried
  have hdropped := h.dropped
  unfold seen
  cases hverdict : verdict c site.store.log x.2.state with
  | refused => simp [htracked, judge, hverdict, hget]
  | retried => simp [htracked, hretried, judge, hverdict]
  | ended => simp [htracked, hretried, hdropped, judge, hverdict]
  | advanced => simp [htracked, hretried, hdropped, judge, hverdict]

theorem Passed.rest {x : StateId × Stuck} {p : Recoverer × Site}
    (h : Passed c [judge c site.store.log x] r site p) (hlog : site.store.log.Sound)
    (hid : x.2.state.id = x.1) {rest : List (StateId × Stuck)} (hnotin : x.1 ∉ rest.map Prod.fst)
    (hrest : ∀ y ∈ rest, r.tracked.get? y.1 = some y.2 ∧ y.2.state.id = y.1) :
    (∀ y ∈ rest, p.1.tracked.get? y.1 = some y.2 ∧ y.2.state.id = y.1) ∧
      ∀ y ∈ rest, verdict c p.2.store.log y.2.state = verdict c site.store.log y.2.state := by
  have hne (y : StateId × Stuck) (hy : y ∈ rest) : x.1 ≠ y.1 :=
    fun heq => hnotin (heq ▸ List.mem_map_of_mem hy)
  constructor
  · intro y hy
    obtain ⟨hget, hkey⟩ := hrest y hy
    refine ⟨?_, hkey⟩
    rw [h.tracked, List.any_cons, List.any_nil, Bool.or_false, judge,
      decide_eq_false (hne y hy), Bool.false_and, if_neg Bool.false_ne_true]
    exact hget
  · intro y hy
    refine verdict_congr (h.latest?_eq hlog fun v hv heq => hne y hy ?_)
    obtain rfl := List.mem_singleton.1 hv
    rw [← hid, ← (hrest y hy).2]
    exact heq

section

variable {states : List (StateId × Stuck)} (h : site.Plain fun _ _ => False)
  (hlog : site.store.log.Sound) (hnodup : (states.map Prod.fst).Nodup)
  (hstates : ∀ x ∈ states, r.tracked.get? x.1 = some x.2 ∧ x.2.state.id = x.1)

include h hlog hnodup hstates

theorem leads_retryAll_passed :
    Leads (retryAll c states) (r, site) fun outcome p =>
      outcome = .ok () ∧ Passed c (states.map (judge c site.store.log)) r site p := by
  induction states generalizing r site with
  | nil => exact ⟨rfl, passed_refl h hlog⟩
  | cons x rest ih =>
    obtain ⟨⟨hget, hid⟩, hrest⟩ := List.forall_mem_cons.1 hstates
    obtain ⟨hnotin, hnodup⟩ := List.nodup_cons.1 hnodup
    rw [← List.singleton_append, retryAll_append]
    refine (leads_retryAll_one h hlog hget).bind (fun _ p hp => ?_)
      fun fault p hp => absurd hp.1 (by simp)
    obtain ⟨htracked, hsame⟩ := hp.2.rest hlog hid hnotin hrest
    refine (ih hp.2.plain hp.2.sound hnodup htracked).mono fun outcome q hq => ⟨hq.1, ?_⟩
    have hjudge : rest.map (judge c p.2.store.log) = rest.map (judge c site.store.log) :=
      List.map_congr_left fun y hy => congrArg (Visit.mk y.1 y.2) (hsame y hy)
    rw [List.map_append, ← hjudge]
    exact hp.2.trans hq.2

theorem verdicts_eq :
    verdicts c states r site = states.map fun x => (x.1, verdict c site.store.log x.2.state) := by
  induction states generalizing r site with
  | nil => rfl
  | cons x rest ih =>
    obtain ⟨⟨hget, hid⟩, hrest⟩ := List.forall_mem_cons.1 hstates
    obtain ⟨hnotin, hnodup⟩ := List.nodup_cons.1 hnodup
    obtain ⟨-, hpassed⟩ := leads_retryAll_one (c := c) h hlog hget
    obtain ⟨htracked, hsame⟩ := hpassed.rest hlog hid hnotin hrest
    have hseen := hpassed.seen_eq hget
    unfold verdicts Work.perform
    generalize (retryAll c [x]).run.run (r, site) = result at hpassed htracked hsame hseen ⊢
    obtain ⟨outcome, next, site'⟩ := result
    simp only
    rw [ih hpassed.plain hpassed.sound hnodup htracked, List.map_cons]
    refine congrArg₂ List.cons (congrArg (Prod.mk x.1) hseen) ?_
    · exact List.map_congr_left fun y hy => congrArg (Prod.mk y.1) (hsame y hy)

end

end

/-! ### Two orders -/

/-- Two stores that are alike but for the order of the entries that were added to a log. -/
structure Reordered (l : Log) (s s' : Store) : Prop where
  entries : ∃ new new', s.log.entries = l.entries ++ new ∧ s'.log.entries = l.entries ++ new' ∧
    (new.map State.unnumbered).Perm (new'.map State.unnumbered) ∧
    new.map State.rev = new'.map State.rev
  rest : { s with log := l } = { s' with log := l }

theorem Reordered.foldl_record {l : Log} (added : List State) {s s' : Store}
    (h : Reordered l s s') :
    Reordered l (added.foldl Store.record s) (added.foldl Store.record s') := by
  induction added generalizing s s' with
  | nil => exact h
  | cons e added ih =>
    refine ih ⟨?_, ?_⟩
    · obtain ⟨new, new', hnew, hnew', hperm, hrevs⟩ := h.entries
      refine ⟨new ++ [e], new' ++ [e], ?_, ?_, ?_, ?_⟩
      · rw [Store.log_record, Log.entries_append, hnew, List.append_assoc]
      · rw [Store.log_record, Log.entries_append, hnew', List.append_assoc]
      · rw [List.map_append, List.map_append]
        exact hperm.append_right _
      · rw [List.map_append, List.map_append, hrevs]
    · exact congrArg (fun s : Store => { s with announced := s.announced + 1 }) h.rest

section

variable {c : RecovererSettings} {r : Recoverer} {site : Site} {visits visits' : List Visit}
  {p p' : Recoverer × Site}

theorem Passed.head_eq (h : Passed c visits r site p) :
    p.2.store.log.head = site.store.log.head + visits.countP (·.verdict.adds) := by
  obtain ⟨new, hentries, hnew, -⟩ := h.added
  have hlen := congrArg List.length hnew
  rw [List.length_map, List.length_map, ← List.countP_eq_length_filter] at hlen
  rw [Log.head, hentries, List.length_append, hlen]
  exact Int.natCast_add ..

variable (h : Passed c visits r site p) (h' : Passed c visits' r site p')
  (hperm : visits.Perm visits')

include h h' hperm

theorem Passed.own_eq : p.1 = p'.1 := by
  have htracked : p.1.tracked = p'.1.tracked := SortedMap.ext_get? fun id => by
    rw [h.tracked, h'.tracked, hperm.any_eq]
  have hretried : p.1.retried = p'.1.retried := by
    rw [h.retried, h'.retried, hperm.countP_eq]
  have hdropped : p.1.dropped = p'.1.dropped := by
    rw [h.dropped, h'.dropped, hperm.countP_eq]
  rw [h.frame, h'.frame, htracked, hretried, hdropped]

theorem Passed.view_eq (hlog : site.store.log.Sound) {metaId : StateId}
    (hother : ∀ v ∈ visits, v.stuck.state.id ≠ metaId) : p.2.view metaId = p'.2.view metaId := by
  have hother' : ∀ v ∈ visits', v.stuck.state.id ≠ metaId :=
    fun v hv => hother v (hperm.mem_iff.2 hv)
  unfold Site.view
  rw [h.here.1, h'.here.1, h.head_eq, h'.head_eq, hperm.countP_eq, h.latest?_eq hlog hother,
    h'.latest?_eq hlog hother']

theorem Passed.reordered : Reordered site.store.log p.2.store p'.2.store := by
  obtain ⟨new, hentries, hnew, hstore⟩ := h.added
  obtain ⟨new', hentries', hnew', hstore'⟩ := h'.added
  have hadded : (new.map State.unnumbered).Perm (new'.map State.unnumbered) := by
    rw [hnew, hnew']
    exact (hperm.filter _).map _
  have hlen : new.length = new'.length := by
    simpa using hadded.length_eq
  refine ⟨⟨new, new', hentries, hentries', hadded, ?_⟩, ?_⟩
  · have hrevs := h.sound.revs
    have hrevs' := h'.sound.revs
    rw [hentries, List.map_append, List.length_append, hlen, ← List.length_append, ← hentries',
      ← hrevs', hentries', List.map_append] at hrevs
    exact List.append_cancel_left hrevs
  · rw [hstore, hstore', hlen]

theorem Passed.launched_perm :
    (p.2.launched.map (·.current.unnumbered)).Perm (p'.2.launched.map (·.current.unnumbered)) := by
  obtain ⟨new, hlaunched, hnew⟩ := h.started
  obtain ⟨new', hlaunched', hnew'⟩ := h'.started
  rw [hlaunched, hlaunched', List.map_append, List.map_append, hnew, hnew']
  refine List.Perm.append_left _ ?_
  split
  · exact (hperm.filter _).map _
  · exact List.Perm.refl _

end

/-! ### A whole pass -/

/-- The tracked states that are to be tried again, in the order of the map. -/
def due (r : Recoverer) (now : Instant) : List (StateId × Stuck) :=
  r.tracked.entries.filter (·.2.retryAt ≤ now)

/-- A scan of the tail that tries states again in the given order. -/
def tailPass (c : RecovererSettings) (order : List (StateId × Stuck)) : Work Recoverer Unit := do
  let now ← Work.now
  retryAll c order
  storeWatermark c now

theorem perform_scanTail {c : RecovererSettings} {r : Recoverer} (hactive : r.lease.active = true)
    (site : Site) (stale : Span) :
    (scanTail c stale).perform r site = (tailPass c (r.due site.now)).perform r site := by
  unfold scanTail Work.perform
  change StateT.run (ExceptT.run (if r.lease.active then _ else _)) _ = _
  rw [if_pos hactive]
  rfl

theorem leads_tailPass {c : RecovererSettings} {order : List (StateId × Stuck)} {r next : Recoverer}
    {site : Site} {P : Recoverer × Site → Prop} {outcome : Except Fault Unit} {added : List State}
    (hretry : Leads (retryAll c order) (r, site) fun o p => o = .ok () ∧ P p)
    (hstore : ∀ p, P p → Leads (storeWatermark c site.now) p fun o q => o = outcome ∧ q.1 = next ∧
      ∃ g, q.2 = p.2.after (added.foldl Store.record p.2.store) g) :
    Leads (tailPass c order) (r, site) fun o q => o = outcome ∧ q.1 = next ∧
      ∃ p g, P p ∧ q.2 = p.2.after (added.foldl Store.record p.2.store) g := by
  unfold tailPass
  simp only [leads_bind, Work.leads_now]
  refine hretry.mono fun o p hp => ?_
  obtain ⟨rfl, hp⟩ := hp
  refine (hstore p hp).mono fun o q hq => ?_
  obtain ⟨houtcome, hnext, g, hsite⟩ := hq
  exact ⟨houtcome, hnext, p, g, hp, hsite⟩

/-- What two passes over the same states in different orders have in common. -/
structure Alike (l : Log) (own other : Except Fault Unit × Recoverer × Site) : Prop where
  outcome : own.1 = other.1
  recoverer : own.2.1 = other.2.1
  store : Reordered l own.2.2.store other.2.2.store
  launched : (own.2.2.launched.map (·.current.unnumbered)).Perm
    (other.2.2.launched.map (·.current.unnumbered))

theorem alike_of_perm {c : RecovererSettings} {r : Recoverer} {site : Site}
    (h : site.Plain fun _ _ => False) (hlog : site.store.log.Sound)
    (hknown : r.lease.known.id = r.lease.metaId) {order other : List (StateId × Stuck)}
    (hperm : order.Perm other) (hnodup : (order.map Prod.fst).Nodup)
    (hstates : ∀ x ∈ order, r.tracked.get? x.1 = some x.2 ∧ x.2.state.id = x.1)
    (hother : ∀ x ∈ order, x.1 ≠ r.lease.metaId) :
    Alike site.store.log ((tailPass c order).perform r site)
      ((tailPass c other).perform r site) := by
  have hown := leads_retryAll_passed (c := c) h hlog hnodup hstates
  have hits := leads_retryAll_passed (c := c) h hlog ((hperm.map _).nodup_iff.1 hnodup)
    fun x hx => hstates x (hperm.mem_iff.2 hx)
  obtain ⟨q, hq⟩ : ∃ q, Passed c (order.map (judge c site.store.log)) r site q := ⟨_, hown.2⟩
  have hperm' := hperm.map (judge c site.store.log)
  have hothers : ∀ v ∈ order.map (judge c site.store.log), v.stuck.state.id ≠ r.lease.metaId := by
    intro v hv
    obtain ⟨x, hx, rfl⟩ := List.mem_map.1 hv
    exact (hstates x hx).2 ▸ hother x hx
  have hlease : q.1.lease = r.lease := by rw [hq.frame]
  obtain ⟨outcome, next, added, hstore⟩ := foreseen_storeWatermark
    (v := q.2.view r.lease.metaId) (r := q.1) (hlease ▸ hknown) c site.now
  have hthen {visits : List Visit} (hvisits : (order.map (judge c site.store.log)).Perm visits)
      (p : Recoverer × Site) (hp : Passed c visits r site p) :
      Leads (storeWatermark c site.now) p fun o p' => o = outcome ∧ p'.1 = next ∧
        ∃ g, p'.2 = p.2.after (added.foldl Store.record p.2.store) g := by
    have hview := (hq.view_eq hp hvisits hlog hothers).symm
    have hsame := hq.own_eq hp hvisits
    obtain ⟨own, site'⟩ := p
    obtain rfl : q.1 = own := hsame
    exact hstore site' hp.plain (hlease ▸ hview)
  obtain ⟨ho, hnext, p, g, hp, hsite⟩ := leads_tailPass hown (hthen (List.Perm.refl _))
  obtain ⟨ho', hnext', p', g', hp', hsite'⟩ := leads_tailPass hits (hthen hperm')
  refine ⟨ho.trans ho'.symm, hnext.trans hnext'.symm, ?_, ?_⟩
  · have hstores := congrArg Site.store hsite
    have hstores' := congrArg Site.store hsite'
    have hreordered := (hp.reordered hp' hperm').foldl_record added
    rw [Site.store_after] at hstores hstores'
    exact hstores ▸ hstores' ▸ hreordered
  · have hlaunched := congrArg Site.launched hsite
    have hlaunched' := congrArg Site.launched hsite'
    rw [Site.launched_after] at hlaunched hlaunched'
    exact hlaunched ▸ hlaunched' ▸ hp.launched_perm hp' hperm'

/-! ### Groups of recoverers -/

open Workflow.Group

variable {ι : Type} {c : ι → RecovererSettings}

theorem mem_due {g : Group ι Recoverer} (hg : Sighted c g) {i : ι} {r : Recoverer}
    (hi : g.member i = some r) {now : Instant} {x : StateId × Stuck} (hx : x ∈ r.due now) :
    r.tracked.get? x.1 = some x.2 ∧ x.2.state.id = x.1 ∧ x.1 ≠ r.lease.metaId := by
  have htracks := hg.member i r hi
  have hget : r.tracked.get? x.1 = some x.2 :=
    r.tracked.get?_eq_some_iff.2 (List.mem_of_mem_filter hx)
  have hnoted := htracks.tracked x.1 x.2 hget
  refine ⟨hget, hnoted.id_eq, ?_⟩
  rw [htracks.lease.metaId_eq, ← hnoted.id_eq]
  exact hnoted.overdue.other

theorem nodup_due (r : Recoverer) (now : Instant) : ((r.due now).map Prod.fst).Nodup :=
  r.tracked.nodup_keys.sublist (List.filter_sublist.map _)

variable [DecidableEq ι]

/-- Whatever happened before, it does not matter in which order an active recoverer tries the due
states again: what becomes of each is told by the log before, the recoverer is the same afterwards,
and the logs differ in the order of the new entries only. -/
theorem tail_scan_in_any_order {turns : List (Turn ι Part)} {i : ι} {m : Moment} {r : Recoverer}
    {order other : List (StateId × Stuck)} (hi : (run (parts c) turns).member i = some r)
    (hactive : r.lease.active = true) (hgate : m.gate.Allows fun _ _ => False)
    (horder : order.Perm (r.due m.now)) (hother : other.Perm (r.due m.now)) :
    let site := m.site (run (parts c) turns).store
    (∀ stale, (scanTail (c i) stale).perform r site =
      (tailPass (c i) (r.due m.now)).perform r site) ∧
    verdicts (c i) order r site =
      order.map (fun x => (x.1, verdict (c i) site.store.log x.2.state)) ∧
    verdicts (c i) other r site =
      other.map (fun x => (x.1, verdict (c i) site.store.log x.2.state)) ∧
    Alike site.store.log ((tailPass (c i) order).perform r site)
      ((tailPass (c i) other).perform r site) := by
  intro site
  have hsighted : Sighted c (run (parts c) turns) := by
    simpa using sighted_run c (Nat.le_refl turns.length)
  have hplain : site.Plain fun _ _ => False := m.plain hgate _
  have hlog : site.store.log.Sound := hsighted.store
  have hdue {states : List (StateId × Stuck)} (hperm : states.Perm (r.due m.now)) :
      (states.map Prod.fst).Nodup ∧
        ∀ x ∈ states, r.tracked.get? x.1 = some x.2 ∧ x.2.state.id = x.1 ∧ x.1 ≠ r.lease.metaId :=
    ⟨(hperm.map _).nodup_iff.2 (r.nodup_due m.now),
      fun x hx => mem_due hsighted hi (hperm.mem_iff.1 hx)⟩
  obtain ⟨hnodup, hstates⟩ := hdue horder
  obtain ⟨hnodup', hstates'⟩ := hdue hother
  have hknown := (hsighted.member i r hi).lease.knows.current_mem.2
  refine ⟨fun stale => perform_scanTail hactive site stale, ?_, ?_, ?_⟩
  · exact verdicts_eq hplain hlog hnodup fun x hx => ⟨(hstates x hx).1, (hstates x hx).2.1⟩
  · exact verdicts_eq hplain hlog hnodup' fun x hx => ⟨(hstates' x hx).1, (hstates' x hx).2.1⟩
  · exact alike_of_perm hplain hlog hknown (horder.trans hother.symm) hnodup
      (fun x hx => ⟨(hstates x hx).1, (hstates x hx).2.1⟩) fun x hx => (hstates x hx).2.2

/-- Of three due states one has advanced, which comes first or last. -/
theorem tail_scan_in_any_order_of_three :
    let moment (n : Nat) : Moment := ⟨Instant.epoch + Span.ofSecs n, true, .free⟩
    let c (_ : Unit) : RecovererSettings := { metaId := ⟨"m"⟩, holder := "a" }
    let work (name : String) : Draft := .ofState { (default : State) with id := ⟨name⟩ }
    let turns : List (Turn Unit Part) :=
      [.start () (moment 0), .call (.commit (moment 1).now [.keep (work "u"), .keep (work "v")]),
        .call (.commit (moment 2).now [.keep (work "w")]), .work () (.whole .scanHead) (moment 10),
        .call (.commit (moment 11).now
          [.keep (.ofState { (default : State) with id := ⟨"u"⟩, rev := 2 })])]
    let site := (moment 400).site (run (parts c) turns).store
    ∃ r, (run (parts c) turns).member () = some r ∧ r.lease.active = true ∧
      (verdicts (c ()) (r.due (moment 400).now) r site) =
        [(⟨"u"⟩, .advanced), (⟨"v"⟩, .retried), (⟨"w"⟩, .retried)] ∧
      (verdicts (c ()) (r.due (moment 400).now).reverse r site) =
        [(⟨"w"⟩, .retried), (⟨"v"⟩, .retried), (⟨"u"⟩, .advanced)] ∧
      Alike site.store.log ((tailPass (c ()) (r.due (moment 400).now)).perform r site)
        ((tailPass (c ()) (r.due (moment 400).now).reverse).perform r site) := by
  intro moment c work turns site
  have hmember : ∃ r ∈ (run (parts c) turns).member (), r.lease.active = true ∧
      ((r.due (moment 400).now).map fun x => (x.1, verdict (c ()) site.store.log x.2.state)) =
        [(⟨"u"⟩, .advanced), (⟨"v"⟩, .retried), (⟨"w"⟩, .retried)] := by
    decide +kernel
  obtain ⟨r, hr, hactive, hverdicts⟩ := hmember
  obtain ⟨-, hown, hits, halike⟩ := tail_scan_in_any_order (m := moment 400) hr hactive
    (fun _ _ h => nomatch h) (List.Perm.refl _) (List.reverse_perm _)
  refine ⟨r, hr, hactive, hown.trans hverdicts, hits.trans ?_, halike⟩
  rw [List.map_reverse]
  exact congrArg List.reverse hverdicts

end Recoverer

end Workflow
