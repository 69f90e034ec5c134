import Workflow.Proofs.Firings

/-!
# An item is committed once

The snapshot of an item is committed only where its revision is still the latest of the state, and
then never is again. So of all firings of an item, by whichever delayers and however they fail, one
at most commits it, and no other one starts an execution.
-/

set_option autoImplicit false

namespace Workflow

namespace Delayer.Firing

open Workflow.Group

variable {ι : Type} [DecidableEq ι] {c : ι → DelayerSettings} {turns : List (Turn ι Part)}
  {x : Delayed}

/-- Firing the item adds to the log. -/
def Commits (f : Firing c turns x) : Prop := f.after.2.store.log ≠ f.before.2.store.log

/-- Firing the item starts an execution. -/
def Launches (f : Firing c turns x) : Prop := f.after.2.launched ≠ f.before.2.launched

/-- The entry of the snapshot, if firing the item commits it. -/
def entry (f : Firing c turns x) : State :=
  Store.entryOf f.before.2.store.log f.moment.now x.state

section

variable {f : Firing c turns x}

theorem Commits.committed (h : f.Commits) :
    commits x = true ∧
      (Draft.ofState x.state).expectedRev = f.before.2.store.log.latestRev x.state.id ∧
      f.after.2.store.log = f.before.2.store.log.append f.entry := by
  have hends := (f.ends fun _ _ _ => trivial).log.resolve_left h
  rw [f.here.1] at hends
  exact hends

theorem Commits.latest (h : f.Commits) :
    0 < x.state.rev ∧ f.before.2.store.log.latestRev x.state.id = x.state.rev ∨
      x.state.rev ≤ 0 ∧ f.before.2.store.log.latest? x.state.id = none := by
  obtain ⟨-, hrev, -⟩ := h.committed
  rw [Draft.expectedRev_ofState] at hrev
  split at hrev
  next hpos => exact .inl ⟨hpos, hrev.symm⟩
  next hpos =>
    refine .inr ⟨Int.not_lt.1 hpos, ?_⟩
    cases hlast : f.before.2.store.log.latest? x.state.id with
    | none => rfl
    | some last =>
      have hmem := (f.sound.log.latest?_eq_some_iff.1 hlast).1
      have hlow := (f.sound.log.rev_of_mem hmem).1
      rw [Log.latestRev, hlast, Option.elim_some] at hrev
      omega

theorem Commits.advanced (h : f.Commits) {l : Log} (hl : l.Sound)
    (hpre : f.after.2.store.log.entries <+: l.entries) :
    (Draft.ofState x.state).expectedRev < l.latestRev x.state.id := by
  obtain ⟨-, hrev, hlog⟩ := h.committed
  obtain ⟨more, hmore⟩ := hpre
  have hsplit : l.entries = f.before.2.store.log.entries ++ (f.entry :: more) := by
    rw [← hmore, hlog, Log.entries_append, List.append_assoc, List.singleton_append]
  have hmem : x.state.id ∈ (f.entry :: more).map State.id := List.mem_cons_self
  rw [hrev, f.sound.log.latestRev_eq, hl.latestRev_eq]
  exact hl.lastRev_lt hsplit hmem

theorem launched_eq (f : Firing c turns x) :
    f.after.2.launched = f.before.2.launched ∨
      (commits x = true → f.Commits) ∧
        ∃ next, f.after.2.launched = f.before.2.launched ++ [next] := by
  have hends := f.ends fun _ _ _ => trivial
  unfold Commits
  generalize f.after = p, f.outcome = outcome at hends
  cases hends with
  | fired g hg hcommits hrev =>
    rw [Site.launched_launching, Site.store_launching]
    split
    · exact .inr ⟨fun _ => Log.append_ne _ _, _, rfl⟩
    · exact .inl rfl
  | unacknowledged => exact .inl rfl
  | skipped => exact .inl rfl
  | kept => exact .inl rfl
  | uncommitted g hg hcommits =>
    rw [Site.launched_launching]
    split
    · exact .inr ⟨fun hx => absurd (hx.symm.trans hcommits) (by simp), _, rfl⟩
    · exact .inl rfl

theorem eq_of_commits {f g : Firing c turns x} (hf : f.Commits) (hg : g.Commits) : f = g := by
  have hnever {f g : Firing c turns x} (hf : f.Commits) (hg : g.Commits) : ¬ f.Precedes g := by
    intro hprecedes
    have hlt := hf.advanced g.sound.log hprecedes.grows
    obtain ⟨-, hrev, -⟩ := hg.committed
    omega
  rcases f.precedes_or g with hfirst | hlater | ⟨hturn, hplace⟩
  · exact absurd hfirst (hnever hf hg)
  · exact absurd hlater (hnever hg hf)
  · exact eq_of_turn_eq hturn hplace

end

end Delayer.Firing

namespace Delayer

open Workflow.Group

variable {ι : Type} [DecidableEq ι] {c : ι → DelayerSettings} {turns : List (Turn ι Part)}
  {x : Delayed}

/-- Of all firings of an item that is to be committed, one at most commits its snapshot and one at
most starts its execution, once. The commit comes when the item is due, and only if the revision of
the snapshot is still the latest of the state. -/
theorem delayed_commit_happens_once (hx : commits x = true) (f : Firing c turns x) :
    (f.Commits → x.dueAt ≤ f.moment.now ∧
      f.after.2.store.log = f.before.2.store.log.append f.entry ∧
      (0 < x.state.rev ∧ f.before.2.store.log.latestRev x.state.id = x.state.rev ∨
        x.state.rev ≤ 0 ∧ f.before.2.store.log.latest? x.state.id = none)) ∧
    (f.Launches → f.Commits ∧ ∃ next, f.after.2.launched = f.before.2.launched ++ [next]) ∧
    ∀ g : Firing c turns x,
      (f.Commits → g.Commits → f = g) ∧ (f.Launches → g.Launches → f = g) := by
  have hlaunches (f : Firing c turns x) (h : f.Launches) :
      f.Commits ∧ ∃ next, f.after.2.launched = f.before.2.launched ++ [next] := by
    obtain ⟨hcommits, hnext⟩ := f.launched_eq.resolve_left h
    exact ⟨hcommits hx, hnext⟩
  refine ⟨fun h => ⟨f.dueAt_le, h.committed.2.2, h.latest⟩, hlaunches f, fun g => ⟨?_, ?_⟩⟩
  · exact Firing.eq_of_commits
  · exact fun hf hg => Firing.eq_of_commits (hlaunches f hf).1 (hlaunches g hg).1

/-- Two delayers that take themselves for the holder track the item: the first one commits it, the
second one does not. -/
theorem delayed_commit_happens_once_of_deposed :
    let moment (n : Nat) : Moment := ⟨Instant.epoch + Span.ofSecs n, true, .free⟩
    let c (second : Bool) : DelayerSettings :=
      { metaId := ⟨"m"⟩, holder := if second then "b" else "a" }
    let work : State := { (default : State) with id := ⟨"w"⟩ }
    let x : Delayed := ⟨{ work with rev := 2 }, Instant.epoch + Span.ofSecs 50, 1⟩
    let turns : List (Turn Bool Part) :=
      [.start false (moment 0), .call (.commit (moment 1).now [.keep (.ofState work)]),
        .start true (moment 2), .call (.delay x.state x.dueAt),
        .work false (.whole .scanFresh) (moment 10), .work true (.whole .scanHorizon) (moment 400),
        .work true (.whole .scanFresh) (moment 401), .work false (.whole .scanDue) (moment 402),
        .work true (.whole .scanDue) (moment 403)]
    commits x = true ∧ ∃ f g : Firing c turns x, f.member = false ∧ g.member = true ∧
      f.Commits ∧ f.before.2.store.log.latestRev x.state.id = x.state.rev ∧ f.Launches ∧
      ¬ g.Commits ∧ ¬ g.Launches := by
  intro moment c work x turns
  have hx : commits x = true := by decide
  have hfirst : ∃ d ∈ (run (parts c) (turns.take 7)).member false,
      (d.firedIn (moment 402).now (.whole .scanDue))[0]? = some x ∧
      ((fire x).run.run (d, (moment 402).site (run (parts c) (turns.take 7)).store)).2.2.launched ≠
        [] := by
    decide +kernel
  have hsecond : ∃ d ∈ (run (parts c) (turns.take 8)).member true,
      (d.firedIn (moment 403).now (.whole .scanDue))[0]? = some x := by
    decide +kernel
  obtain ⟨d, hd, hplace, hlaunches⟩ := hfirst
  obtain ⟨d', hd', hplace'⟩ := hsecond
  obtain ⟨f, hturn, hmember, -, hbefore⟩ := Firing.exists_first rfl hd hplace
  obtain ⟨g, hturn', hmember', -, -⟩ := Firing.exists_first rfl hd' hplace'
  have hne : f ≠ g := by
    rintro rfl
    omega
  have hf : f.Launches := by
    unfold Firing.Launches Firing.after
    rw [hbefore]
    exact hlaunches
  obtain ⟨hcommitted, hlaunched, honce⟩ := delayed_commit_happens_once hx f
  have hcommits := (hlaunched hf).1
  have hlatest : f.before.2.store.log.latestRev x.state.id = x.state.rev := by
    rcases (hcommitted hcommits).2.2 with ⟨-, heq⟩ | ⟨hle, -⟩
    · exact heq
    · exact absurd hle (by decide)
  exact ⟨hx, f, g, hmember, hmember', hcommits, hlatest, hf,
    fun hg => hne ((honce g).1 hcommits hg), fun hg => hne ((honce g).2 hf hg)⟩

end Delayer

end Workflow
