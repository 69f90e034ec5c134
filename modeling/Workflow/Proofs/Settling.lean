import Workflow.Proofs.Uncommitted

/-!
# What a look for due items settles

A look fires the due items one after the other, the earliest first. Unless the storage fails, each
of them leaves the map and the store, whether its state had advanced or not. Only an item whose
commit is refused stays, since its state has no identity: nothing keeps such a state from being put
off.
-/

set_option autoImplicit false

namespace Workflow

namespace Delayer

open Effect

/-- The item is to be committed, and its commit is refused. -/
def refused (x : Delayed) : Bool := commits x && x.state.id.isEmpty

/-- What firing some items leaves behind if the storage does not fail. -/
structure Settles (items : List Delayed) (d : Delayer) (site : Site) (p : Delayer × Site) :
    Prop where
  plain : p.2.Plain fun _ _ => False
  frame : p.1 = { d with tracked := p.1.tracked, fired := p.1.fired, skipped := p.1.skipped }
  tracked : ∀ o, p.1.tracked.get? o =
    if items.any fun x => x.offset = o && !refused x then none else d.tracked.get? o
  delays : ∀ o, p.2.store.delays.items.get? o =
    if items.any fun x => x.offset = o && !refused x then none
    else site.store.delays.items.get? o
  counted : p.1.fired + p.1.skipped = d.fired + d.skipped + items.countP (!refused ·)
  committed : ∃ new, p.2.store.log.entries = site.store.log.entries ++ new ∧
    (new.map fun e => { e with rev := 0 }).Sublist ((items.filter commits).map fun x =>
      { x.state with rev := 0, committedAt := some site.now })
  started : ∃ new, p.2.launched = site.launched ++ new ∧
    (new.map Draft.id).Sublist (items.map (·.state.id))
  now : p.2.now = site.now

section

variable {d : Delayer} {site : Site}

theorem settles_nil (h : site.Plain fun _ _ => False) : Settles [] d site (d, site) where
  plain := h
  frame := rfl
  tracked := fun _ => rfl
  delays := fun _ => rfl
  counted := rfl
  committed := ⟨[], (List.append_nil _).symm, List.Sublist.refl _⟩
  started := ⟨[], (List.append_nil _).symm, List.Sublist.refl _⟩
  now := rfl

theorem Settles.trans {items more : List Delayed} {p q : Delayer × Site}
    (h : Settles items d site p) (h' : Settles more p.1 p.2 q) :
    Settles (items ++ more) d site q where
  plain := h'.plain
  frame := by
    rw [h'.frame, h.frame]
  tracked := by
    intro o
    rw [h'.tracked, h.tracked, List.any_append]
    cases more.any fun x => x.offset = o && !refused x <;> simp
  delays := by
    intro o
    rw [h'.delays, h.delays, List.any_append]
    cases more.any fun x => x.offset = o && !refused x <;> simp
  counted := by
    rw [h'.counted, h.counted, List.countP_append, Nat.add_assoc]
  committed := by
    obtain ⟨new, hentries, hnew⟩ := h.committed
    obtain ⟨new', hentries', hnew'⟩ := h'.committed
    rw [h.now] at hnew'
    refine ⟨new ++ new', ?_, ?_⟩
    · rw [hentries', hentries, List.append_assoc]
    · rw [List.map_append, List.filter_append, List.map_append]
      exact hnew.append hnew'
  started := by
    obtain ⟨new, hlaunched, hnew⟩ := h.started
    obtain ⟨new', hlaunched', hnew'⟩ := h'.started
    refine ⟨new ++ new', ?_, ?_⟩
    · rw [hlaunched', hlaunched, List.append_assoc]
    · rw [List.map_append, List.map_append]
      exact hnew.append hnew'
  now := h'.now.trans h.now

/-! ### One item -/

theorem get?_erase_done {x : Delayed} (hx : refused x = false) (m : SortedMap Int Delayed)
    (o : Int) : (m.erase x.offset).get? o =
      if [x].any fun x => x.offset = o && !refused x then none else m.get? o := by
  rw [List.any_cons, List.any_nil, hx, Bool.not_false, Bool.and_true, Bool.or_false]
  split
  next heq =>
    rw [← of_decide_eq_true heq]
    exact SortedMap.get?_erase_self ..
  next hne => exact SortedMap.get?_erase_of_ne _ fun heq => hne (decide_eq_true heq.symm)

theorem exists_started (site : Site) (next : Draft) :
    ∃ new, (site.launching next).launched = site.launched ++ new ∧
      (new.map Draft.id).Sublist [next.id] := by
  rw [Site.launched_launching]
  split
  next => exact ⟨[next], rfl, List.Sublist.refl _⟩
  next => exact ⟨[], (List.append_nil _).symm, List.nil_sublist _⟩

section

variable (h : site.Plain fun _ _ => False) {x : Delayed} {g : Gate}
  (hg : g.Allows fun _ _ => False)

include h hg

theorem settles_of_refused (hx : refused x = true) :
    Settles [x] d site (d, site.after site.store g) := by
  refine ⟨h.after _ hg, rfl, fun o => ?_, fun o => ?_, ?_, ⟨[], ?_, List.nil_sublist _⟩,
    ⟨[], ?_, List.nil_sublist _⟩, rfl⟩
  all_goals simp [hx]

theorem settles_of_skipped (hx : refused x = false) :
    Settles [x] d site ({ d with tracked := d.tracked.erase x.offset, skipped := d.skipped + 1 },
      site.after (site.store.acknowledge x.offset) g) := by
  refine ⟨h.after _ hg, rfl, get?_erase_done hx _, get?_erase_done hx _, ?_,
    ⟨[], (List.append_nil _).symm, List.nil_sublist _⟩,
    ⟨[], (List.append_nil _).symm, List.nil_sublist _⟩, rfl⟩
  simp [hx, Nat.add_assoc]

theorem settles_of_uncommitted (hx : refused x = false) :
    Settles [x] d site ({ d with tracked := d.tracked.erase x.offset, fired := d.fired + 1 },
      (site.after (site.store.acknowledge x.offset) g).launching (.ofState x.state)) := by
  have hstore := Site.store_launching (site.after (site.store.acknowledge x.offset) g)
    (.ofState x.state)
  refine ⟨(h.after _ hg).launching _, rfl, get?_erase_done hx _, ?_, ?_,
    ⟨[], ?_, List.nil_sublist _⟩, exists_started _ _, Site.now_launching ..⟩
  · rw [hstore]
    exact get?_erase_done hx _
  · simp [hx, Nat.add_right_comm]
  · rw [hstore]
    exact (List.append_nil _).symm

theorem settles_of_fired (hx : refused x = false) (hcommits : commits x = true) {e : State}
    (he : e = Store.entryOf site.store.log site.now x.state) :
    Settles [x] d site ({ d with tracked := d.tracked.erase x.offset, fired := d.fired + 1 },
      (site.after ((site.store.record e).acknowledge x.offset) g).launching (.ofState e)) := by
  have hstore := Site.store_launching (site.after ((site.store.record e).acknowledge x.offset) g)
    (.ofState e)
  have hid : e.id = x.state.id := he ▸ rfl
  refine ⟨(h.after _ hg).launching _, rfl, get?_erase_done hx _, ?_, ?_, ⟨[e], ?_, ?_⟩, ?_,
    Site.now_launching ..⟩
  · rw [hstore]
    exact get?_erase_done hx _
  · simp [hx, Nat.add_right_comm]
  · rw [hstore]
    rfl
  · simp [hcommits, he, Store.entryOf]
  · rw [List.map_singleton, ← hid]
    exact exists_started _ _

end

theorem leads_fireAll_one (h : site.Plain fun _ _ => False) (x : Delayed) :
    Leads (fireAll [x]) (d, site) fun outcome p => outcome = .ok () ∧ Settles [x] d site p := by
  unfold fireAll
  simp only [leads_bind, leads_tryCatch]
  refine leads_fire_cases h x (fun _ _ _ _ himpossible => himpossible.elim) ?_
    (fun _ _ _ _ himpossible => himpossible.elim) ?_ ?_ ?_
  · intro g fault hg hcommits hid
    exact ⟨rfl, settles_of_refused h hg (by rw [refused, hcommits, hid, Bool.and_true])⟩
  · intro g e hg hcommits hid _ he
    exact ⟨rfl, settles_of_fired h hg (by rw [refused, hid, Bool.and_false]) hcommits he⟩
  · rintro g hg _ (⟨hid, -⟩ | ⟨_, himpossible, -⟩)
    · exact ⟨rfl, settles_of_skipped h hg (by rw [refused, hid, Bool.and_false])⟩
    · exact himpossible.elim
  · intro g hg hcommits
    exact ⟨rfl, settles_of_uncommitted h hg (by rw [refused, hcommits, Bool.false_and])⟩

/-! ### All items -/

theorem leads_fireAll_settles (h : site.Plain fun _ _ => False) (items : List Delayed) :
    Leads (fireAll items) (d, site) fun outcome p => outcome = .ok () ∧ Settles items d site p := by
  induction items generalizing d site with
  | nil => exact ⟨rfl, settles_nil h⟩
  | cons x rest ih =>
    rw [← List.singleton_append, fireAll_append]
    refine (leads_fireAll_one h x).bind (fun _ p hp => ?_) fun fault p hp => absurd hp.1 (by simp)
    exact (ih hp.2.plain).mono fun outcome q hq => ⟨hq.1, hp.2.trans hq.2⟩

end

theorem afterFiring_eq_foldl (items : List Delayed) (p : Delayer × Site) :
    afterFiring items p = items.foldl (fun p x => afterFiring [x] p) p := by
  induction items generalizing p with
  | nil => rfl
  | cons x rest ih => rw [List.foldl_cons, ← ih, ← afterFiring_append, List.singleton_append]

/-! ### The items that are due -/

/-- The item is due earlier than the other one, or at the same time with a smaller offset. -/
def Earlier (a b : Delayed) : Prop :=
  a.dueAt < b.dueAt ∨ a.dueAt = b.dueAt ∧ a.offset < b.offset

theorem firesBefore_iff {a b : Delayed} : firesBefore a b = true ↔
    a.dueAt < b.dueAt ∨ a.dueAt = b.dueAt ∧ a.offset ≤ b.offset := by
  simp [firesBefore]

theorem firesBefore_trans (a b c : Delayed) (hab : firesBefore a b = true)
    (hbc : firesBefore b c = true) : firesBefore a c = true := by
  rw [firesBefore_iff, Instant.lt_iff] at *
  rcases hab with hab | ⟨hab, hoffset⟩
  · rcases hbc with hbc | ⟨hbc, -⟩
    · omega
    · rw [← hbc]
      exact .inl hab
  · rcases hbc with hbc | ⟨hbc, hoffset'⟩
    · rw [hab]
      exact .inl hbc
    · exact .inr ⟨hab.trans hbc, Int.le_trans hoffset hoffset'⟩

theorem firesBefore_total (a b : Delayed) : (firesBefore a b || firesBefore b a) = true := by
  rw [Bool.or_eq_true, firesBefore_iff, firesBefore_iff]
  by_cases heq : a.dueAt = b.dueAt
  · rcases Int.le_total a.offset b.offset with hle | hle
    · exact .inl (.inr ⟨heq, hle⟩)
    · exact .inr (.inr ⟨heq.symm, hle⟩)
  · rcases Instant.lt_or_lt_of_ne heq with hlt | hlt
    · exact .inl (.inl hlt)
    · exact .inr (.inl hlt)

section

variable {d : Delayer} {s : Delays} (h : d.Keyed s)

include h

theorem Keyed.mem_due_iff {now : Instant} {x : Delayed} :
    x ∈ d.due now ↔ d.tracked.get? x.offset = some x ∧ x.dueAt ≤ now := by
  unfold due
  rw [List.mem_mergeSort, List.mem_filter, SortedMap.mem_values_iff, decide_eq_true_iff]
  constructor
  · rintro ⟨⟨o, hget⟩, hdue⟩
    exact ⟨(h o x hget).1 ▸ hget, hdue⟩
  · rintro ⟨hget, hdue⟩
    exact ⟨⟨x.offset, hget⟩, hdue⟩

theorem Keyed.nodup_offsets (now : Instant) : ((d.due now).map Delayed.offset).Nodup := by
  have hkeys : d.tracked.values.map Delayed.offset = d.tracked.entries.map Prod.fst := by
    unfold SortedMap.values
    rw [List.map_map]
    exact List.map_congr_left fun e he => (h e.1 e.2 (d.tracked.get?_eq_some_iff.2 he)).1
  have hvalues : (d.tracked.values.map Delayed.offset).Nodup := hkeys ▸ d.tracked.nodup_keys
  have hperm := (List.mergeSort_perm (d.tracked.values.filter (·.dueAt ≤ now)) firesBefore).map
    Delayed.offset
  exact hperm.nodup_iff.2 (hvalues.sublist (List.filter_sublist.map _))

theorem Keyed.pairwise_due (now : Instant) : (d.due now).Pairwise Earlier := by
  have hsorted : (d.due now).Pairwise fun a b => firesBefore a b = true :=
    List.pairwise_mergeSort firesBefore_trans firesBefore_total _
  have hoffsets : (d.due now).Pairwise fun a b => a.offset ≠ b.offset :=
    List.pairwise_map.1 (h.nodup_offsets now)
  refine hsorted.imp₂ (fun a b hbefore hne => ?_) hoffsets
  rcases firesBefore_iff.1 hbefore with hlt | ⟨heq, hle⟩
  · exact .inl hlt
  · exact .inr ⟨heq, by omega⟩

end

/-! ### Groups of delayers -/

open Workflow.Group

variable {ι : Type} [DecidableEq ι] {c : ι → DelayerSettings}

theorem leads_scanDue_settles {d : Delayer} {site : Site} (h : site.Plain fun _ _ => False)
    (hactive : d.lease.active = true) :
    Leads scanDue (d, site) fun outcome p => outcome = .ok () ∧
      p = afterFiring (d.due site.now) (d, site) ∧ Settles (d.due site.now) d site p := by
  unfold scanDue
  simp only [leads_bind, Work.leads_own, hactive, if_true, Work.leads_now]
  have hsettles := leads_fireAll_settles (d := d) h (d.due site.now)
  exact ⟨hsettles.1, rfl, hsettles.2⟩

/-- Whatever happened before, an active delayer fires exactly those items that it tracks and that
are due, one after the other, the earliest first. Unless the storage fails, all of them leave the
map and the store and are counted, but for those whose commit is refused, and nothing else changes
in the map or in the store of delayed states. -/
theorem due_items_are_settled_unless_refused {turns : List (Turn ι Part)} {i : ι} {m : Moment}
    {d : Delayer} (hi : (run (parts c) turns).member i = some d) (hactive : d.lease.active = true)
    (hgate : m.gate.Allows fun _ _ => False) :
    let site := m.site (run (parts c) turns).store
    let result := scanDue.perform d site
    (∀ x, x ∈ d.due m.now ↔ d.tracked.get? x.offset = some x ∧ x.dueAt ≤ m.now) ∧
    (d.due m.now).Pairwise Earlier ∧
    result.1 = .ok () ∧
    result.2 = (d.due m.now).foldl (fun p x => afterFiring [x] p) (d, site) ∧
    Settles (d.due m.now) d site result.2 := by
  intro site result
  have hkeyed : d.Keyed (run (parts c) turns).store.delays := by
    have hrun := keyed_run (c := c) (Nat.le_refl turns.length) (i := i) (d := d)
    rw [List.take_length] at hrun
    exact hrun hi
  obtain ⟨hok, heq, hsettles⟩ := leads_scanDue_settles (m.plain hgate _) hactive
  refine ⟨fun x => hkeyed.mem_due_iff, hkeyed.pairwise_due m.now, hok, ?_, hsettles⟩
  rw [← afterFiring_eq_foldl]
  exact heq

/-- Of three due items one is refused, one is skipped and one is fired. -/
theorem due_items_are_settled_unless_refused_of_three :
    let moment (n : Nat) : Moment := ⟨Instant.epoch + Span.ofSecs n, true, .free⟩
    let c (_ : Unit) : DelayerSettings := { metaId := ⟨"m"⟩, holder := "a" }
    let work : State := { (default : State) with id := ⟨"w"⟩ }
    let turns : List (Turn Unit Part) :=
      [.start () (moment 0), .call (.commit (moment 1).now [.keep (.ofState work)]),
        .call (.delay { work with rev := 2 } (moment 20).now),
        .call (.delay default (moment 15).now),
        .call (.delay { work with rev := 1 } (moment 15).now),
        .work () (.whole .scanFresh) (moment 10)]
    let site := (moment 30).site (run (parts c) turns).store
    ∃ d, (run (parts c) turns).member () = some d ∧ d.lease.active = true ∧
      (d.tracked.values.filter (·.dueAt ≤ (moment 30).now)).map (fun x => (x.offset, refused x)) =
        [(1, false), (2, true), (3, false)] ∧
      (d.due (moment 30).now).Pairwise Earlier ∧
      Settles (d.due (moment 30).now) d site (scanDue.perform d site).2 := by
  intro moment c work turns site
  have hmember : ∃ d ∈ (run (parts c) turns).member (), d.lease.active = true ∧
      (d.tracked.values.filter (·.dueAt ≤ (moment 30).now)).map (fun x => (x.offset, refused x)) =
        [(1, false), (2, true), (3, false)] := by
    decide +kernel
  obtain ⟨d, hd, hactive, hdue⟩ := hmember
  obtain ⟨-, hpairwise, -, -, hsettles⟩ := due_items_are_settled_unless_refused
    (m := moment 30) hd hactive fun _ _ h => nomatch h
  exact ⟨d, hd, hactive, hdue, hpairwise, hsettles⟩

/-- A due item whose state has no identity stays in the map and in the store, look after look, and
is not counted. -/
theorem due_item_stays_of_anonymous :
    let moment (n : Nat) : Moment := ⟨Instant.epoch + Span.ofSecs n, true, .free⟩
    let c (_ : Unit) : DelayerSettings := { metaId := ⟨"m"⟩, holder := "a" }
    let before : List (Turn Unit Part) :=
      [.start () (moment 0), .call (.delay default (moment 15).now),
        .work () (.whole .scanFresh) (moment 10)]
    let looks : List (Turn Unit Part) :=
      [.work () (.whole .scanDue) (moment 20), .work () (.whole .scanDue) (moment 30)]
    let x : Delayed := ⟨default, (moment 15).now, 1⟩
    ∃ d ∈ (run (parts c) before).member (), d.lease.active = true ∧ x ∈ d.due (moment 20).now ∧
      ∃ next ∈ (run (parts c) (before ++ looks)).member (), next.lease.active = true ∧
        next.tracked.get? x.offset = some x ∧
        (run (parts c) (before ++ looks)).store.delays.items.get? x.offset = some x ∧
        next.fired + next.skipped = d.fired + d.skipped := by
  decide +kernel

end Delayer

end Workflow
