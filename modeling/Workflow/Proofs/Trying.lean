import Workflow.Proofs.Single
import Workflow.Recoverer

/-!
# Trying a state again

A state that is tried again gets one more entry: with the number of the next attempt, or, if it has
no attempt left, as one that has ended. The entry is added only if the state did not advance.
-/

set_option autoImplicit false

namespace Workflow

namespace State

/-- The state with the number of its next attempt. -/
def nextAttempt (s : State) : State :=
  { s with
    transition := s.transition.annotate Mark.recoveryAttempt (toString (s.attempt + 1)) }

/-- The state that has ended, coming from the step where it waited. -/
def abandoned (s : State) : State :=
  { s with
    transition := ⟨s.transition.target, default, (∅ : Notes).insert Mark.lifecycle Mark.ended⟩ }

/-- What trying again makes of a state: its next attempt, or its end if it has no attempt left. -/
def tried (limit : Nat) (s : State) : State :=
  if s.attempt < s.maxAttempts limit then s.nextAttempt else s.abandoned

theorem tried_keeps (limit : Nat) (s : State) :
    (s.tried limit).id = s.id ∧ (s.tried limit).annotations = s.annotations := by
  unfold tried
  split
  · exact ⟨rfl, rfl⟩
  · exact ⟨rfl, rfl⟩

end State

theorem Log.next_tried (l : Log) (now : Instant) (limit : Nat) (s : State) :
    l.Next now s.id s.annotations (Store.entryOf l now (s.tried limit)) :=
  ⟨(s.tried_keeps limit).1, rfl, rfl, (s.tried_keeps limit).2⟩

namespace Recoverer

/-- How many times a recoverer tried a state again or ended one. -/
def tries (r : Recoverer) : Nat := r.retried + r.dropped

/-- How trying a state again ends that did not advance. -/
structure Retried (allowed : Method → Fault → Prop) (c : RecovererSettings) (x : State)
    (r : Recoverer) (site : Site) (p : Recoverer × Site) : Prop where
  plain : p.2.Plain allowed
  latest : x.rev = site.store.log.latestRev x.id
  store : p.2.store =
    site.store.record (Store.entryOf site.store.log site.now (x.tried c.maxAttempts))
  now : p.2.now = site.now
  frame : p.1 = { r with retried := p.1.retried, dropped := p.1.dropped }
  tries : p.1.tries = r.tries + 1

/-- What becomes of a state that is tried again. -/
inductive Verdict where
  | retried
  | ended
  /-- It advanced in the meantime, and is not tracked any more. -/
  | advanced
  /-- Its commit is refused, and it stays tracked. -/
  | refused
  deriving DecidableEq

/-- Whether the state gets another entry. -/
def Verdict.adds : Verdict → Bool
  | retried | ended => true
  | advanced | refused => false

/-- What becomes of a state, as the log tells before. -/
def verdict (c : RecovererSettings) (l : Log) (x : State) : Verdict :=
  if x.id.isEmpty then .refused
  else if (Draft.ofState x).expectedRev ≠ l.latestRev x.id then .advanced
  else if x.attempt < x.maxAttempts c.maxAttempts then .retried
  else .ended

section

variable {c : RecovererSettings} {l : Log} {x : State}

theorem verdict_of_anonymous (hid : x.id.isEmpty = true) : verdict c l x = .refused := if_pos hid

theorem verdict_of_advanced (hid : x.id.isEmpty = false)
    (hrev : (Draft.ofState x).expectedRev ≠ l.latestRev x.id) : verdict c l x = .advanced := by
  rw [verdict, hid, if_neg Bool.false_ne_true, if_pos hrev]

theorem verdict_of_latest (hid : x.id.isEmpty = false)
    (hrev : (Draft.ofState x).expectedRev = l.latestRev x.id) :
    verdict c l x = if x.attempt < x.maxAttempts c.maxAttempts then .retried else .ended := by
  rw [verdict, hid, if_neg Bool.false_ne_true, if_neg (not_not.2 hrev)]

theorem expectedRev_eq_of_adds (h : (verdict c l x).adds = true) :
    (Draft.ofState x).expectedRev = l.latestRev x.id := by
  by_contra hrev
  unfold verdict at h
  rw [if_pos hrev] at h
  split at h
  · cases h
  · cases h

theorem expectedRev_ne_of_advanced (h : verdict c l x = .advanced) :
    (Draft.ofState x).expectedRev ≠ l.latestRev x.id := by
  intro hrev
  unfold verdict at h
  rw [if_neg (not_not.2 hrev)] at h
  split at h
  · cases h
  · split at h
    · cases h
    · cases h

end

open Effect

section

variable {allowed : Method → Fault → Prop} {c : RecovererSettings} {r : Recoverer} {site : Site}
  (h : site.Plain allowed)

include h

/-- Trying a state again goes as the log tells, unless a fault is planned for its commit. -/
theorem leads_retry_cases (x : State) {Q : Except Fault Unit → Recoverer × Site → Prop}
    (hconflict : ∀ g fault, g.Allows allowed → allowed .commit fault → fault.isConflict = true →
      Q (.ok ()) (r, site.after site.store g))
    (hfault : ∀ g fault, g.Allows allowed → allowed .commit fault →
      Q (.error fault) (r, site.after site.store g))
    (hrefused : ∀ g fault, g.Allows allowed → verdict c site.store.log x = .refused →
      Q (.error fault) (r, site.after site.store g))
    (hadvanced : ∀ g, g.Allows allowed → verdict c site.store.log x = .advanced →
      Q (.ok ()) (r, site.after site.store g))
    (hended : ∀ g e, g.Allows allowed → verdict c site.store.log x = .ended →
      e = Store.entryOf site.store.log site.now (x.tried c.maxAttempts) →
      Q (.ok ()) ({ r with dropped := r.dropped + 1 }, site.after (site.store.record e) g))
    (hretried : ∀ g e, g.Allows allowed → verdict c site.store.log x = .retried →
      e = Store.entryOf site.store.log site.now (x.tried c.maxAttempts) →
      Q (.ok ()) ({ r with retried := r.retried + 1 },
        (site.after (site.store.record e) g).launching (.ofState e))) :
    Leads (retry c x) (r, site) Q := by
  unfold retry
  simp only
  split
  next hspent =>
    have hleft : ¬ x.attempt < x.maxAttempts c.maxAttempts := by omega
    have htried : x.tried c.maxAttempts = x.abandoned := if_neg hleft
    simp only [leads_bind]
    refine Work.leads_commit?_cases h (Command.moves_finish _) hconflict hfault ?_ ?_ ?_
    · exact fun g hg hid => hrefused g _ hg (verdict_of_anonymous (x := x) hid)
    · intro g e hg hid hrev he
      refine hended g e hg ((verdict_of_latest (x := x) hid hrev).trans (if_neg hleft)) ?_
      rw [htried]
      exact he
    · exact fun g hg hid hrev => hadvanced g hg (verdict_of_advanced (x := x) hid hrev)
  next hleft =>
    have hleft' : x.attempt < x.maxAttempts c.maxAttempts := by omega
    have htried : x.tried c.maxAttempts = x.nextAttempt := if_pos hleft'
    simp only [leads_bind]
    refine Work.leads_commit?_cases h (Command.moves_keep _) hconflict hfault ?_ ?_ ?_
    · exact fun g hg hid => hrefused g _ hg (verdict_of_anonymous (x := x) hid)
    · intro g e hg hid hrev he
      simp only [leads_bind, Work.leads_change, (Command.moves_keep _).resulting?_eq,
        Work.leads_launch]
      refine hretried g e hg ((verdict_of_latest (x := x) hid hrev).trans (if_pos hleft')) ?_
      rw [htried]
      exact he
    · exact fun g hg hid hrev => hadvanced g hg (verdict_of_advanced (x := x) hid hrev)

theorem leads_retry {x : State} (hx : 0 < x.rev)
    {Q : Except Fault Unit → Recoverer × Site → Prop}
    (hdone : ∀ p, Retried allowed c x r site p → Q (.ok ()) p)
    (hlost : ∀ g, g.Allows allowed →
      (x.rev ≠ site.store.log.latestRev x.id ∨
        ∃ fault, allowed .commit fault ∧ fault.isConflict = true) →
      Q (.ok ()) (r, site.after site.store g))
    (hfault : ∀ g fault, g.Allows allowed → Q (.error fault) (r, site.after site.store g)) :
    Leads (retry c x) (r, site) Q := by
  have hexpected : (Draft.ofState x).expectedRev = x.rev := by
    rw [Draft.expectedRev_ofState, if_pos hx]
  have hlatest (hadds : (verdict c site.store.log x).adds = true) :
      x.rev = site.store.log.latestRev x.id :=
    hexpected.symm.trans (expectedRev_eq_of_adds hadds)
  refine leads_retry_cases h x ?_ (fun g fault hg _ => hfault g fault hg)
    (fun g fault hg _ => hfault g fault hg) ?_ ?_ ?_
  · exact fun g fault hg hallowed hconflict => hlost g hg (.inr ⟨fault, hallowed, hconflict⟩)
  · intro g hg hadvanced
    exact hlost g hg (.inl (hexpected ▸ expectedRev_ne_of_advanced hadvanced))
  · rintro g e hg hended rfl
    exact hdone _ ⟨h.after _ hg, hlatest (congrArg Verdict.adds hended), rfl, rfl, rfl, rfl⟩
  · rintro g e hg hretried rfl
    refine hdone _ ⟨(h.after _ hg).launching _, hlatest (congrArg Verdict.adds hretried),
      Site.store_launching .., Site.now_launching .., rfl, ?_⟩
    simp only [tries]
    omega

end

end Recoverer

end Workflow
