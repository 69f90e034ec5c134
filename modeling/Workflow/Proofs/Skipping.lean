import Workflow.Proofs.FiringOnce

/-!
# Items that are given up

An item is given up where its state is beyond the snapshot. The commit of the snapshot puts it
there as well, so if the acknowledgement that follows fails, the item is still tracked, but the next
firing gives it up and no firing ever starts its execution.
-/

set_option autoImplicit false

namespace Workflow

namespace Delayer.Firing

open Workflow.Group

variable {ι : Type} [DecidableEq ι] {c : ι → DelayerSettings} {turns : List (Turn ι Part)}
  {x : Delayed}

/-- Firing the item gives it up. -/
def Skips (f : Firing c turns x) : Prop := f.after.1.skipped ≠ f.before.1.skipped

/-- What the delayer tracks once the item was fired. -/
def left (f : Firing c turns x) : SortedMap Int Delayed := (f.stage (f.place + 1)).1.tracked

/-- When the item is fired, the state is beyond the snapshot, and not only by commits of it. -/
def Overtaken (f : Firing c turns x) : Prop :=
  ∃ e ∈ f.before.2.store.log.of x.state.id, x.state.rev < e.rev ∧
    ∀ g : Firing c turns x, g.Commits → e ≠ g.entry

theorem left_eq (f : Firing c turns x) : f.left =
    if f.outcome matches .ok () then f.before.1.tracked.erase x.offset
    else f.before.1.tracked := by
  have hframe := (f.ends fun _ _ _ => trivial).frame
  unfold left
  rw [stage_succ]
  cases f.outcome with
  | ok _ => rw [hframe]; rfl
  | error _ => rw [hframe]; rfl

section

variable {f : Firing c turns x}

theorem Commits.launches (h : f.Commits) :
    f.outcome = .ok () ∧ (f.moment.isOpen = true → f.Launches) ∨
      (∃ fault, f.outcome = .error fault) ∧ ¬ f.Launches := by
  have hends := f.ends fun _ _ _ => trivial
  have hopen := f.here.2
  unfold Commits at h
  unfold Launches
  generalize f.after = p, f.outcome = outcome at hends h
  cases hends with
  | fired =>
    refine .inl ⟨rfl, fun hisOpen => ?_⟩
    rw [Site.launched_launching, Site.isOpen_after, if_pos (hopen.trans hisOpen)]
    simp
  | unacknowledged _ fault => exact .inr ⟨⟨fault, rfl⟩, fun hne => hne rfl⟩
  | skipped => exact absurd rfl h
  | kept => exact absurd rfl h
  | uncommitted =>
    rw [Site.store_launching] at h
    exact absurd rfl h

theorem skips_of_ok (hx : commits x = true) (hnot : ¬ f.Commits) (hok : f.outcome = .ok ()) :
    f.Skips := by
  have hends := f.ends fun _ _ _ => trivial
  unfold Commits at hnot
  unfold Skips
  generalize f.after = p, f.outcome = outcome at hends hnot hok
  cases hends with
  | fired =>
    rw [Site.store_launching] at hnot
    exact absurd (Log.append_ne _ _) hnot
  | unacknowledged => cases hok
  | skipped => exact Nat.succ_ne_self _
  | kept => cases hok
  | uncommitted _ _ hcommits => exact absurd (hx.symm.trans hcommits) (by simp)

theorem Skips.ends (h : f.Skips) (hhonest : f.moment.gate.Allows Fault.Honest) :
    f.outcome = .ok () ∧ ¬ f.Commits ∧ ¬ f.Launches ∧
      (Draft.ofState x.state).expectedRev ≠ f.before.2.store.log.latestRev x.state.id := by
  have hends := f.ends hhonest
  unfold Skips at h
  unfold Commits Launches
  generalize f.after = p, f.outcome = outcome at hends h
  cases hends with
  | fired => exact absurd rfl h
  | unacknowledged => exact absurd rfl h
  | skipped _ _ _ hwhy =>
    refine ⟨rfl, fun hne => hne rfl, fun hne => hne rfl, hwhy.resolve_right ?_⟩
    rintro ⟨fault, hallowed, hconflict⟩
    exact absurd ((hallowed rfl).symm.trans hconflict) (by simp)
  | kept => exact absurd rfl h
  | uncommitted => exact absurd rfl h

theorem Commits.precedes {g : Firing c turns x} (hg : g.Commits) (hf : ¬ f.Commits)
    (hmem : g.entry ∈ f.before.2.store.log.entries) : g.Precedes f := by
  rcases g.precedes_or f with hfirst | hlater | ⟨hturn, hplace⟩
  · exact hfirst
  · have hsame : f.after.2.store.log = f.before.2.store.log := not_not.1 hf
    have hpre := hlater.grows
    rw [hsame] at hpre
    have hrev := (g.sound.log.rev_of_mem (hpre.subset hmem)).2
    have hnext : g.entry.rev = g.before.2.store.log.head + 1 := rfl
    omega
  · exact absurd (eq_of_turn_eq hturn hplace ▸ hg) hf

theorem overtaken_or (hf : ¬ f.Commits)
    (hne : (Draft.ofState x.state).expectedRev ≠ f.before.2.store.log.latestRev x.state.id) :
    f.before.2.store.log.latestRev x.state.id < x.state.rev ∨ f.Overtaken ∨
      ∃ g : Firing c turns x, g.Precedes f ∧ g.Commits ∧
        f.before.2.store.log.latest? x.state.id = some g.entry := by
  rw [Draft.expectedRev_ofState] at hne
  cases hlast : f.before.2.store.log.latest? x.state.id with
  | none =>
    have hrev : f.before.2.store.log.latestRev x.state.id = 0 := by
      rw [Log.latestRev, hlast, Option.elim_none]
    rw [hrev] at hne ⊢
    split at hne
    next hpos => exact .inl hpos
    next => exact absurd rfl hne
  | some e =>
    have hrev : f.before.2.store.log.latestRev x.state.id = e.rev := by
      rw [Log.latestRev, hlast, Option.elim_some]
    obtain ⟨hmem, hid, -⟩ := f.sound.log.latest?_eq_some_iff.1 hlast
    have hpos := (f.sound.log.rev_of_mem hmem).1
    rw [hrev] at hne ⊢
    by_cases hbehind : e.rev < x.state.rev
    · exact .inl hbehind
    · have hbeyond : x.state.rev < e.rev := by
        split at hne <;> omega
      by_cases hown : ∃ g : Firing c turns x, g.Commits ∧ e = g.entry
      · obtain ⟨g, hg, rfl⟩ := hown
        exact .inr (.inr ⟨g, hg.precedes hf hmem, hg, rfl⟩)
      · refine .inr (.inl ⟨e, Log.mem_of_iff.2 ⟨hmem, hid⟩, hbeyond, fun g hg heq => ?_⟩)
        exact hown ⟨g, hg, heq⟩

/-- A commit whose acknowledgement fails is the last thing that comes of an item. -/
theorem Commits.lost (hx : commits x = true) (h : f.Commits) (hnot : ¬ f.Launches)
    (hfails : f.outcome ≠ .ok ()) (g : Firing c turns x) :
    ¬ g.Launches ∧ (g.outcome = .ok () → g.Skips) := by
  refine ⟨fun hg => hnot ?_, fun hok => skips_of_ok hx (fun hg => hfails ?_) hok⟩
  · have hcommits := (g.launched_eq.resolve_left hg).1 hx
    rwa [eq_of_commits h hcommits]
  · rwa [eq_of_commits h hg]

end

end Delayer.Firing

namespace Delayer

open Workflow.Group

variable {ι : Type} [DecidableEq ι] {c : ι → DelayerSettings} {turns : List (Turn ι Part)}
  {x : Delayed}

/-- An item that is to be committed is given up only where its snapshot is not the latest revision:
the state is behind it, or beyond it through somebody else, or a firing committed the snapshot
before. A firing that commits the snapshot starts the execution, and with that the item leaves the
map. But if the acknowledgement fails, the item stays, no firing ever starts its execution, and all
the firings that do not fail give it up. -/
theorem skipped_item_was_overtaken_or_committed (hx : commits x = true)
    (hhonest : ∀ t ∈ turns, t.Allows Fault.Honest) (f : Firing c turns x) :
    (f.Skips → f.after.2.store.delays = f.before.2.store.delays.acknowledge x.offset ∧
      ¬ f.Commits ∧ ¬ f.Launches ∧
      (f.before.2.store.log.latestRev x.state.id < x.state.rev ∨ f.Overtaken ∨
        ∃ g : Firing c turns x, g.Precedes f ∧ g.Commits ∧
          f.before.2.store.log.latest? x.state.id = some g.entry)) ∧
    (f.Commits →
      f.outcome = .ok () ∧ (f.moment.isOpen = true → f.Launches) ∧
          f.left = f.before.1.tracked.erase x.offset ∨
        (∃ fault, f.outcome = .error fault) ∧ f.left = f.before.1.tracked ∧
          ∀ g : Firing c turns x, ¬ g.Launches ∧ (g.outcome = .ok () → g.Skips)) := by
  constructor
  · intro hskips
    have hgate : f.moment.gate.Allows Fault.Honest :=
      hhonest _ (List.mem_of_getElem? f.at_turn)
    obtain ⟨hok, hnot, hlaunches, hne⟩ := hskips.ends hgate
    have hacknowledged := (f.ends hgate).delays
    rw [hok] at hacknowledged
    exact ⟨hacknowledged, hnot, hlaunches, Firing.overtaken_or hnot hne⟩
  · intro hcommits
    have hleft := f.left_eq
    rcases hcommits.launches with ⟨hok, hlaunches⟩ | ⟨⟨fault, hfails⟩, hnot⟩
    · rw [hok] at hleft
      exact .inl ⟨hok, hlaunches, hleft⟩
    · rw [hfails] at hleft
      have hnotOk : f.outcome ≠ .ok () := by
        rw [hfails]
        exact nofun
      exact .inr ⟨⟨fault, hfails⟩, hleft, hcommits.lost hx hnot hnotOk⟩

/-- Another client moves the state before the item is due. -/
theorem skipped_item_was_overtaken_or_committed_of_move :
    let moment (n : Nat) : Moment := ⟨Instant.epoch + Span.ofSecs n, true, .free⟩
    let c (_ : Unit) : DelayerSettings := { metaId := ⟨"m"⟩, holder := "a" }
    let work : State := { (default : State) with id := ⟨"w"⟩ }
    let moved : State := { work with rev := 2, transition := .between default ⟨"next"⟩ }
    let x : Delayed := ⟨{ work with rev := 2 }, Instant.epoch + Span.ofSecs 50, 1⟩
    let turns : List (Turn Unit Part) :=
      [.start () (moment 0), .call (.commit (moment 1).now [.keep (.ofState work)]),
        .call (.delay x.state x.dueAt), .work () (.whole .scanFresh) (moment 10),
        .call (.commit (moment 20).now [.keep (.ofState moved)]),
        .work () (.whole .scanDue) (moment 60)]
    commits x = true ∧ (∀ t ∈ turns, t.Allows Fault.Honest) ∧
      ∃ f : Firing c turns x, f.Skips ∧ f.Overtaken ∧ ¬ f.Commits ∧ ¬ f.Launches := by
  intro moment c work moved x turns
  have hx : commits x = true := by decide
  have hhonest : ∀ t ∈ turns, t.Allows Fault.Honest := by
    have hfree : Gate.free.Allows Fault.Honest := nofun
    simp only [turns, List.forall_mem_cons]
    exact ⟨hfree, trivial, trivial, hfree, trivial, hfree, List.forall_mem_nil _⟩
  have hfiring : ∃ d ∈ (run (parts c) (turns.take 5)).member (),
      (d.firedIn (moment 60).now (.whole .scanDue))[0]? = some x ∧
      ((fire x).run.run (d, (moment 60).site (run (parts c) (turns.take 5)).store)).2.1.skipped ≠
        d.skipped := by
    decide +kernel
  have hlatest : ((run (parts c) (turns.take 5)).store.log.latest? x.state.id).map
      (fun e => (e.rev, e.transition)) = some (3, moved.transition) := by
    decide +kernel
  obtain ⟨d, hd, hplace, hskipped⟩ := hfiring
  obtain ⟨f, -, -, -, hbefore⟩ := Firing.exists_first rfl hd hplace
  have hskips : f.Skips := by
    unfold Firing.Skips Firing.after
    rw [hbefore]
    exact hskipped
  obtain ⟨e, he, hfacts⟩ := Option.map_eq_some_iff.1 hlatest
  obtain ⟨hrev, htransition⟩ := Prod.mk.inj hfacts
  have hlast : f.before.2.store.log.latest? x.state.id = some e := by
    rw [hbefore]
    exact he
  obtain ⟨-, hnot, hlaunches, hwhy⟩ :=
    (skipped_item_was_overtaken_or_committed hx hhonest f).1 hskips
  refine ⟨hx, hhonest, f, hskips, ?_, hnot, hlaunches⟩
  rcases hwhy with hbehind | hovertaken | ⟨g, -, -, hown⟩
  · rw [Log.latestRev, hlast, Option.elim_some, hrev] at hbehind
    exact absurd hbehind (by decide)
  · exact hovertaken
  · obtain rfl := Option.some.inj (hlast.symm.trans hown)
    have hkept : g.entry.transition = x.state.transition := rfl
    have hmoved : x.state.transition ≠ moved.transition := by decide
    exact absurd (hkept.symm.trans htransition) hmoved

/-- An acknowledgement fails for want of room. The delayer then gives the item up, though nobody but
itself advanced the state, and the execution is never started. -/
theorem committed_item_is_skipped_of_full_storage :
    let moment (n : Nat) (gate : Gate) : Moment := ⟨Instant.epoch + Span.ofSecs n, true, gate⟩
    let full : Gate := Gate.free.plan .acknowledge [some (.storage "full")]
    let c (_ : Unit) : DelayerSettings := { metaId := ⟨"m"⟩, holder := "a" }
    let work : State := { (default : State) with id := ⟨"w"⟩ }
    let x : Delayed := ⟨{ work with rev := 2 }, Instant.epoch + Span.ofSecs 50, 1⟩
    let turns : List (Turn Unit Part) :=
      [.start () (moment 0 .free), .call (.commit (moment 1 .free).now [.keep (.ofState work)]),
        .call (.delay x.state x.dueAt), .work () (.whole .scanFresh) (moment 10 .free),
        .work () (.whole .scanDue) (moment 60 full),
        .work () (.whole .scanDue) (moment 61 .free)]
    commits x = true ∧ (∀ t ∈ turns, t.Allows Fault.Honest) ∧
      ∃ f g : Firing c turns x, f.Commits ∧ f.Precedes g ∧ g.Skips ∧ ¬ g.Overtaken ∧
        g.left.get? x.offset = none ∧ ∀ h : Firing c turns x, ¬ h.Launches := by
  intro moment full c work x turns
  have hx : commits x = true := by decide
  have hhonest : ∀ t ∈ turns, t.Allows Fault.Honest := by
    have hfree : Gate.free.Allows Fault.Honest := nofun
    have hfull : full.Allows Fault.Honest := hfree.plan fun _ _ => nofun
    simp only [turns, List.forall_mem_cons]
    exact ⟨hfree, trivial, trivial, hfree, hfull, hfree, List.forall_mem_nil _⟩
  have hfirst : ∃ d ∈ (run (parts c) (turns.take 4)).member (),
      (d.firedIn (moment 60 full).now (.whole .scanDue))[0]? = some x ∧
      ((fire x).run.run
          (d, (moment 60 full).site (run (parts c) (turns.take 4)).store)).2.2.store.log ≠
        (run (parts c) (turns.take 4)).store.log ∧
      ((fire x).run.run
          (d, (moment 60 full).site (run (parts c) (turns.take 4)).store)).2.2.launched = [] := by
    decide +kernel
  have hsecond : ∃ d ∈ (run (parts c) (turns.take 5)).member (),
      (d.firedIn (moment 61 .free).now (.whole .scanDue))[0]? = some x ∧
      ((fire x).run.run
          (d, (moment 61 .free).site (run (parts c) (turns.take 5)).store)).2.1.skipped ≠
        d.skipped := by
    decide +kernel
  have hbeyond : ∀ e ∈ (run (parts c) (turns.take 5)).store.log.of x.state.id, x.state.rev < e.rev →
      e = Store.entryOf (run (parts c) (turns.take 4)).store.log (moment 60 full).now x.state := by
    decide +kernel
  obtain ⟨d, hd, hplace, hwrites, hnone⟩ := hfirst
  obtain ⟨d', hd', hplace', hskips'⟩ := hsecond
  obtain ⟨f, hturn, -, hmoment, hbefore⟩ := Firing.exists_first rfl hd hplace
  obtain ⟨g, hturn', -, -, hbefore'⟩ := Firing.exists_first rfl hd' hplace'
  have hcommits : f.Commits := by
    unfold Firing.Commits Firing.after
    rw [hbefore, Moment.store_site]
    exact hwrites
  have hnot : ¬ f.Launches := by
    unfold Firing.Launches Firing.after
    rw [hbefore]
    exact not_not.2 hnone
  have hfails : f.outcome ≠ .ok () := by
    rcases hcommits.launches with ⟨-, hlaunches⟩ | ⟨⟨fault, hfault⟩, -⟩
    · exact absurd (hlaunches (by rw [hmoment])) hnot
    · rw [hfault]
      exact nofun
  have hskips : g.Skips := by
    unfold Firing.Skips Firing.after
    rw [hbefore']
    exact hskips'
  have hok := (hskips.ends (hhonest _ (List.mem_of_getElem? g.at_turn))).1
  have hgone : g.left.get? x.offset = none := by
    rw [g.left_eq, hok]
    exact SortedMap.get?_erase_self _ _
  have howned : ¬ g.Overtaken := by
    rintro ⟨e, he, hrev, hforeign⟩
    refine hforeign f hcommits ?_
    unfold Firing.entry
    rw [hbefore', Moment.store_site] at he
    rw [hbefore, Moment.store_site, hmoment]
    exact hbeyond e he hrev
  exact ⟨hx, hhonest, f, g, hcommits, .inl (by omega), hskips, howned, hgone,
    fun h => (hcommits.lost hx hnot hfails h).1⟩

end Delayer

end Workflow
