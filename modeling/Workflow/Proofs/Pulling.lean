import Workflow.Proofs.Delaying
import Workflow.Proofs.Paging

/-!
# Pulling the items of a window

A delayer pulls items page by page, and stops at the last page or when it tracks as many as it may.
The cursor counts offsets while the bound counts what is tracked, so a page may move the one without
the other. Still there are no more pages than items, and all items up to the offset that is answered
are tracked.
-/

set_option autoImplicit false

namespace Workflow

theorem Delays.Sound.furthest_page {d : Delays} (h : d.Sound) (q : DelayQuery) :
    furthest q.offset (d.page q).items = d.next q := by
  have hlt : furthest q.offset (d.page q).items < d.next q + 1 :=
    furthest_lt (Int.lt_add_one_of_le (h.offset_le_next q)) fun _ hx =>
      Int.lt_add_one_of_le (h.le_next hx)
  have hle := d.next_le_furthest q
  omega

namespace Delayer

open Effect

/-! ### Pages without a bound on their number -/

/-- The page that pulling reads next. -/
def nextQuery (c : DelayerSettings) (since before : Instant) (offset : Int) : DelayQuery :=
  { since, before, offset, limit := c.batchLimit }

/-- How pulling ends that goes from page to page while there is room and more to come, with no bound
on the number of pages. -/
inductive Pulls (c : DelayerSettings) (s : Delays) (since before : Instant) :
    Delayer → Int → Delayer → Int → Bool → Prop
  | full {d : Delayer} {offset : Int} (hfull : c.maxTracked ≤ d.tracked.size) :
      Pulls c s since before d offset d offset false
  | last {d : Delayer} {offset : Int} {page : Page Delayed} (hroom : d.tracked.size < c.maxTracked)
      (hpage : s.page (nextQuery c since before offset) = page) (hlast : page.more = false) :
      Pulls c s since before d offset (page.items.foldl track d)
        (Delays.furthest offset page.items) true
  | more {d next : Delayer} {offset upTo : Int} {complete : Bool} {page : Page Delayed}
      (hroom : d.tracked.size < c.maxTracked)
      (hpage : s.page (nextQuery c since before offset) = page) (hmore : page.more = true)
      (hrest : Pulls c s since before (page.items.foldl track d)
        (Delays.furthest offset page.items) next upTo complete) :
      Pulls c s since before d offset next upTo complete

theorem get?_foldl_track {items : List Delayed} {d : Delayer} {o : Int} {x : Delayed}
    (hx : (items.foldl track d).tracked.get? o = some x) :
    d.tracked.get? o = some x ∨ x ∈ items ∧ x.offset = o := by
  induction items generalizing d with
  | nil => exact .inl hx
  | cons y rest ih =>
    rcases ih hx with hfirst | ⟨hmem, hat⟩
    · have hget : (d.track y).tracked.get? o =
          (d.tracked.get? o).or (if o = y.offset then some y else none) :=
        SortedMap.get?_insertNew _ _ _ _
      rw [hget, Option.or_eq_some_iff] at hfirst
      rcases hfirst with hold | ⟨-, hnew⟩
      · exact .inl hold
      · split at hnew
        next heq =>
          cases hnew
          exact .inr ⟨List.mem_cons_self, heq.symm⟩
        next => cases hnew
    · exact .inr ⟨List.mem_cons_of_mem y hmem, hat⟩

section

variable {c : DelayerSettings} {s : Delays} {since before : Instant} {d next : Delayer}
  {start upTo : Int} {complete : Bool} (h : Pulls c s since before d start next upTo complete)

include h

theorem Pulls.full_of_incomplete (hincomplete : complete = false) :
    c.maxTracked ≤ next.tracked.size := by
  induction h with
  | full hfull => exact hfull
  | last => cases hincomplete
  | more _ _ _ _ ih => exact ih hincomplete

variable (hs : s.Sound)

include hs

theorem Pulls.pulled : Pulled s since before start d next upTo complete := by
  induction h with
  | full => exact pulled_none s since before _ _
  | @last d start page _ hpage hlast =>
    have hpulled := pulled_page (d := d) hs hpage
    rw [hlast] at hpulled
    exact hpulled
  | @more d next start upTo complete page _ hpage hmore _ ih =>
    have hpulled := pulled_page (d := d) hs hpage
    rw [hmore] at hpulled
    exact hpulled.trans ih

theorem Pulls.gained {o : Int} {x : Delayed} (hx : next.tracked.get? o = some x) :
    d.tracked.get? o = some x ∨ s.items.get? o = some x ∧ since ≤ x.dueAt ∧ x.dueAt < before ∧
      start < o ∧ o ≤ upTo := by
  have hpage {d : Delayer} {start : Int} {page : Page Delayed}
      (hpage : s.page (nextQuery c since before start) = page)
      (hx : (page.items.foldl track d).tracked.get? o = some x) :
      d.tracked.get? o = some x ∨ s.items.get? o = some x ∧ since ≤ x.dueAt ∧ x.dueAt < before ∧
        start < o ∧ o ≤ Delays.furthest start page.items := by
    rcases get?_foldl_track hx with hold | ⟨hmem, rfl⟩
    · exact .inl hold
    · have hfurthest := (Delays.le_furthest start page.items).2 x hmem
      rw [← hpage] at hmem
      obtain ⟨hstored, haccepts⟩ := hs.get?_of_mem_page hmem
      unfold DelayQuery.accepts nextQuery at haccepts
      simp only [Bool.and_eq_true, decide_eq_true_eq] at haccepts
      exact .inr ⟨hstored, haccepts.1.2, haccepts.2, haccepts.1.1, hfurthest⟩
  induction h with
  | full => exact .inl hx
  | last _ hread _ => exact hpage hread hx
  | @more d next start upTo complete page _ hread _ hrest ih =>
    have hstart := (Delays.le_furthest start page.items).1
    have hend := (hrest.pulled hs).start_le
    rcases ih hx with hfirst | ⟨hstored, hsince, hbefore, hlt, hle⟩
    · rcases hpage hread hfirst with hold | ⟨hstored, hsince, hbefore, hlt, hle⟩
      · exact .inl hold
      · exact .inr ⟨hstored, hsince, hbefore, hlt, Int.le_trans hle hend⟩
    · exact .inr ⟨hstored, hsince, hbefore, Int.lt_of_le_of_lt hstart hlt, hle⟩

theorem Pulls.get?_of_passed {o : Int} {x : Delayed} (hx : s.items.get? o = some x)
    (hsince : since ≤ x.dueAt) (hbefore : x.dueAt < before) (hstart : start < o)
    (hpassed : complete = true ∨ o ≤ upTo) :
    next.tracked.get? o = some ((d.tracked.get? o).getD x) := by
  have hpulled := h.pulled hs
  cases hold : d.tracked.get? o with
  | some y => exact hpulled.keeps o y hold
  | none =>
    obtain ⟨y, hy⟩ := Option.isSome_iff_exists.1
      (hpulled.found o x hx hsince hbefore hstart hpassed)
    rcases hpulled.finds o y hy with hnone | hstored
    · cases hold.symm.trans hnone
    · rw [hy, Option.some.inj (hstored.symm.trans hx)]
      rfl

end

/-! ### The end of the loop -/

/-- How many items of the window lie beyond an offset. -/
def ahead (c : DelayerSettings) (s : Delays) (since before : Instant) (offset : Int) : Nat :=
  (s.items.values.filter (nextQuery c since before offset).accepts).length

theorem ahead_le_size (c : DelayerSettings) (s : Delays) (since before : Instant) (offset : Int) :
    ahead c s since before offset ≤ s.items.size := by
  refine Nat.le_trans (List.length_filter_le ..) ?_
  rw [SortedMap.values, List.length_map, SortedMap.size]

/-- Listing delayed states is not planned to fail. -/
def Lists (site : Site) : Prop := site.repository.gate.Allows fun m _ => m ≠ .listDelayed

section

variable {c : DelayerSettings} {d : Delayer} {site : Site}

/-- The loop ends as if the number of its pages had no bound: each page but the last one leaves
fewer items ahead. -/
theorem leads_pullLoop_unbounded {fuel : Nat} (h : Lists site) (hs : site.store.delays.Sound)
    {since before : Instant} {start : Int}
    (hfuel : ahead c site.store.delays since before start < fuel) :
    Leads (pullLoop c since before fuel start) (d, site) fun outcome p =>
      p.2.store = site.store ∧ ∃ upTo complete, outcome = .ok (upTo, complete) ∧
        Pulls c site.store.delays since before d start p.1 upTo complete := by
  induction fuel generalizing d site start with
  | zero => omega
  | succ fuel ih =>
    unfold pullLoop
    simp only [leads_bind, Work.leads_own]
    split
    next hfull => exact ⟨rfl, start, false, rfl, .full hfull⟩
    next hroom =>
      have hroom := Nat.lt_of_not_le hroom
      simp only [leads_bind]
      refine Work.leads_readStore_of_gate h (fun _ _ _ hallowed => absurd rfl hallowed)
        fun g hg => ?_
      simp only [Work.leads_change]
      have hless := hs.length_after_page (q := nextQuery c since before start)
      rw [← hs.furthest_page] at hless
      unfold nextQuery at hless
      generalize hpage : site.store.delays.page
        { since, before, offset := start, limit := c.batchLimit } = page at hless ⊢
      split
      next hmore =>
        have hahead : ahead c site.store.delays since before (Delays.furthest start page.items) <
            ahead c site.store.delays since before start := hless hmore
        have hfuel := Nat.lt_of_lt_of_le hahead (Nat.le_of_lt_succ hfuel)
        have hlists : Lists (site.after site.store g) := hg
        refine (ih hlists hs hfuel).mono fun outcome p hp => ?_
        obtain ⟨hstore, upTo, complete, hok, hrest⟩ := hp
        exact ⟨hstore, upTo, complete, hok, .more hroom hpage hmore hrest⟩
      next hlast =>
        exact ⟨rfl, _, true, rfl, .last hroom hpage (Bool.eq_false_iff.2 hlast)⟩

end

/-- Unless listing fails, pulling ends, as it would if the number of pages had no bound. It only
adds to what is tracked: items of the window beyond the offset where it starts, and all of them up
to the offset that it answers, or all of the window if it says so. If it does not, as many are
tracked as may be. -/
theorem pull_gathers_up_to_its_offset (requests : List Store.Request) {site : Site}
    (hstore : site.store = Store.run requests) (h : Lists site) (c : DelayerSettings) (d : Delayer)
    (since before : Instant) (start : Int) :
    let items := site.store.delays.items
    ∃ upTo complete next site',
      (pull c since before start).perform d site = (.ok (upTo, complete), next, site') ∧
        Pulls c site.store.delays since before d start next upTo complete ∧
        site'.store = site.store ∧ next = { d with tracked := next.tracked } ∧ start ≤ upTo ∧
        (∀ o x, items.get? o = some x → since ≤ x.dueAt → x.dueAt < before → start < o →
          complete = true ∨ o ≤ upTo → next.tracked.get? o = some ((d.tracked.get? o).getD x)) ∧
        (∀ o x, d.tracked.get? o = some x → next.tracked.get? o = some x) ∧
        (∀ o x, next.tracked.get? o = some x → d.tracked.get? o = some x ∨
          items.get? o = some x ∧ since ≤ x.dueAt ∧ x.dueAt < before ∧ start < o ∧ o ≤ upTo) ∧
        (complete = false → c.maxTracked ≤ next.tracked.size) := by
  intro items
  have hs : site.store.delays.Sound :=
    hstore ▸ Store.delays_foldl_serve Delays.sound_empty requests
  have hsize := ahead_le_size c site.store.delays since before start
  have hends : Leads (pull c since before start) (d, site) fun outcome p =>
      p.2.store = site.store ∧ ∃ upTo complete, outcome = .ok (upTo, complete) ∧
        Pulls c site.store.delays since before d start p.1 upTo complete := by
    unfold pull
    simp only [leads_bind, leads_get]
    exact leads_pullLoop_unbounded h hs
      (Nat.lt_of_le_of_lt hsize (Nat.lt_add_of_pos_right Nat.two_pos))
  unfold Leads at hends
  unfold Work.perform
  generalize (pull c since before start).run.run (d, site) = result at hends ⊢
  obtain ⟨outcome, next, site'⟩ := result
  obtain ⟨hsame, upTo, complete, rfl, hpulls⟩ := hends
  have hpulled := hpulls.pulled hs
  exact ⟨upTo, complete, next, site', rfl, hpulls, hsame, hpulled.frame, hpulled.start_le,
    fun _ _ => hpulls.get?_of_passed hs, hpulled.keeps, fun _ _ => hpulls.gained hs,
    hpulls.full_of_incomplete⟩

/-- Three items wait, and another than the second of them is tracked under its offset. One more is
read if two may be tracked. -/
theorem pull_gathers_up_to_its_offset_of_three :
    let due (n : Nat) := Instant.epoch + Span.ofSecs n
    let put (n : Nat) : Store.Request := .delay (.new ⟨"w"⟩) (due n)
    let requests := [put 30, put 10, put 20]
    let repository : Repository := ⟨Store.run requests, .free, .direct⟩
    let site : Site := ⟨repository, .epoch, true, []⟩
    let c : DelayerSettings := { holder := "a", maxTracked := 2, batchLimit := 1 }
    let other : Delayed := ⟨.new ⟨"v"⟩, due 15, 2⟩
    let d := (Delayer.new c).track other
    (site.store = Store.run requests ∧ Lists site) ∧
      ∃ next site', (pull c .epoch (due 60) 0).perform d site = (.ok (1, false), next, site') ∧
        next.tracked.get? 1 = some ⟨.new ⟨"w"⟩, due 30, 1⟩ ∧
        next.tracked.get? 2 = some other ∧ 2 ≤ next.tracked.size := by
  intro due put requests repository site c other d
  have hlists : Lists site := fun _ _ hmem => nomatch hmem
  have hends : ((pull c .epoch (due 60) 0).perform d site).1 = .ok (1, false) := by
    decide +kernel
  have hstored : site.store.delays.items.get? 1 = some ⟨.new ⟨"w"⟩, due 30, 1⟩ := by
    decide +kernel
  obtain ⟨upTo, complete, next, site', hperform, -, -, -, -, hpassed, hkept, -, hfull⟩ :=
    pull_gathers_up_to_its_offset requests rfl hlists c d .epoch (due 60) 0
  rw [hperform] at hends
  cases hends
  have hnone : d.tracked.get? 1 = none := by decide +kernel
  have hgot := hpassed 1 _ hstored (by decide) (by decide) (by decide) (.inr (by decide))
  rw [hnone] at hgot
  exact ⟨⟨rfl, hlists⟩, next, site', hperform, hgot, hkept 2 other (by decide), hfull rfl⟩

end Delayer

end Workflow
