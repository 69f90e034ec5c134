import Workflow.Proofs.Access
import Workflow.Proofs.Staging

/-!
# Commits of one part

A bundle of one tracked part adds one entry to the log if the draft of the part expects the latest
revision of its state, and nothing else changes.
-/

set_option autoImplicit false

namespace Workflow

namespace Command

/-- The local effect of a tracked command gives its draft another transition. -/
structure Moves (c : Command) (d moved : Draft) : Prop where
  draft : c.draft? = some d
  tracked : c.isTracked = true
  apply : c.apply = .ok (c.withDraft moved)
  notes : moved.current.annotations = d.current.annotations

theorem moves_keep (d : Draft) : Moves (.keep d) d d := ⟨rfl, rfl, rfl, rfl⟩

theorem moves_pause (d : Draft) :
    Moves (.pause d none ∅) d (d.advance d.current.transition.target ∅ (some Mark.paused)) :=
  ⟨rfl, rfl, rfl, rfl⟩

theorem moves_resume (d : Draft) :
    Moves (.resume d none ∅) d (d.advance d.current.transition.target ∅ (some Mark.resumed)) :=
  ⟨rfl, rfl, rfl, rfl⟩

theorem moves_finish (d : Draft) :
    Moves (.finish d ∅) d (d.advance default ∅ (some Mark.ended)) :=
  ⟨rfl, rfl, rfl, rfl⟩

section

variable {c : Command} {d moved : Draft} (h : c.Moves d moved)

include h

theorem Moves.keeps : moved.id = d.id ∧ moved.committed = d.committed := by
  obtain ⟨e, he, hid, hcommitted⟩ := (apply_keeps h.apply).2 d h.draft
  obtain rfl : moved = e := by
    rw [draft?_withDraft h.draft] at he
    exact Option.some.inj he
  exact ⟨hid, hcommitted⟩

theorem Moves.isDelay_eq : c.isDelay = false := by
  have htracked := h.tracked
  cases c <;> first | rfl | cases htracked

theorem Moves.resolve_eq (s : Store) (e : Draft) :
    s.resolve (c.withDraft e) = .ok (c.withDraft e) := by
  have htracked := h.tracked
  cases c <;> first | rfl | cases htracked

theorem Moves.resulting?_eq (e : Draft) : (bundle [c.withDraft e]).resulting? = some e := by
  have htracked := h.tracked
  cases c <;> first | rfl | cases htracked

theorem Moves.validate_eq :
    validateBundle [c] =
      if d.id.isEmpty then .error (.invalid (.anonymous c.name)) else .ok () := by
  have htracked := h.tracked
  have hbarred : c.barredFromBundle = false := by
    cases c <;> first | rfl | cases htracked
  simp [validateBundle, validateParts, hbarred, isAnonymous, h.draft]

end

end Command

namespace Store

open Command

/-- The store with another entry in its log. -/
def record (s : Store) (e : State) : Store :=
  { s with log := s.log.append e, announced := s.announced + 1 }

@[simp] theorem log_record (s : Store) (e : State) : (s.record e).log = s.log.append e := rfl

section

variable {c : Command} {d moved : Draft} (h : c.Moves d moved)

include h

theorem stageAll_single (s : Store) :
    s.stageAll (.start s.blobs) [c] =
      .ok ((Staging.start s.blobs).record d.id (c.withDraft moved), [c.withDraft moved]) := by
  have hwith := withDraft_of_draft? h.draft
  rw [stageAll, stage_of_works h.draft h.isDelay_eq, Staging.start, SortedMap.get?_empty,
    Option.getD_none, effect, hwith, h.apply]
  change ((s.resolve (c.withDraft moved) >>= fun after => _) >>= _) = _
  rw [h.resolve_eq]
  rfl

theorem record_single (s : Store) :
    (Staging.start s.blobs).record d.id (c.withDraft moved) =
      ⟨(∅ : SortedMap StateId Draft).insert d.id moved, [d.id], [], s.blobs.issued⟩ := by
  have htracked : (c.withDraft moved).isTracked = true := by
    rw [isTracked_withDraft, h.tracked]
  simp [Staging.record, Staging.start, draft?_withDraft h.draft, htracked]

theorem prepare_single (s : Store) :
    s.prepare [c] =
      if d.id.isEmpty then .error (.invalid (.anonymous c.name))
      else if d.expectedRev = s.log.latestRev d.id then
        .ok (⟨(∅ : SortedMap StateId Draft).insert d.id moved, [d.id], [], s.blobs.issued⟩,
          [c.withDraft moved])
      else .error (.conflict [d.id]) := by
  have hexpected : moved.expectedRev = d.expectedRev := congrArg State.rev h.keeps.2
  rw [prepare, h.validate_eq]
  split
  · rfl
  · rw [stageAll_single h, record_single h]
    simp only [bind, Except.bind, conflicts, Staging.expectedRev, SortedMap.get?_insert_self,
      List.filter_cons, Option.elim_some, hexpected, List.filter_nil]
    by_cases heq : d.expectedRev = s.log.latestRev d.id
    · simp only [heq, ne_eq, not_true_eq_false, decide_false, Bool.false_eq_true, if_false, if_true]
      rfl
    · simp only [heq, ne_eq, not_false_eq_true, decide_true, if_false, if_true]
      rfl

theorem carryOut_single (s : Store) (now : Instant) :
    s.carryOut now ⟨(∅ : SortedMap StateId Draft).insert d.id moved, [d.id], [], s.blobs.issued⟩
        [c.withDraft moved] =
      ([c.withDraft (.ofState (entryOf s.log now moved.current))],
        s.record (entryOf s.log now moved.current)) := by
  have hsettle : moved.settle (entryOf s.log now moved.current) =
      .ofState (entryOf s.log now moved.current) := by
    have hpos : 0 < (entryOf s.log now moved.current).rev := by
      simp only [entryOf, Log.nextRev, Log.head]
      omega
    rw [Draft.ofState, if_pos hpos, Draft.settle]
  have hdelay : (c.withDraft (moved.settle (entryOf s.log now moved.current))).isDelay = false := by
    rw [isDelay_withDraft, h.isDelay_eq]
  have hadopt : (c.withDraft moved).adopt
      (((∅ : SortedMap StateId Draft).insert d.id moved).insert d.id
        (moved.settle (entryOf s.log now moved.current))) =
      c.withDraft (moved.settle (entryOf s.log now moved.current)) := by
    rw [adopt_eq (draft?_withDraft h.draft moved), h.keeps.1, SortedMap.get?_insert_self,
      Option.getD_some]
    cases c <;> rfl
  simp only [carryOut, appendAll, SortedMap.get?_insert_self, concludeAll, conclude, hadopt]
  rw [← hsettle]
  generalize c.withDraft (moved.settle (entryOf s.log now moved.current)) = w at hdelay
  cases w <;> first | rfl | cases hdelay

/-- A commit of one tracked part is refused without an identity, in conflict unless the draft
expects the latest revision of its state, and otherwise adds one entry. -/
theorem commit_single (s : Store) (now : Instant) :
    s.commit now [c] =
      if d.id.isEmpty then .error (.invalid (.anonymous c.name))
      else if d.expectedRev = s.log.latestRev d.id then
        .ok (s.record (entryOf s.log now moved.current),
          [c.withDraft (.ofState (entryOf s.log now moved.current))])
      else .error (.conflict [d.id]) := by
  have hprepare := prepare_single h s
  split at hprepare
  next hempty => exact (commit_eq_error_iff.2 hprepare).trans (if_pos hempty).symm
  next hid =>
    rw [if_neg hid]
    split at hprepare
    next heq =>
      rw [if_pos heq]
      exact commit_eq_ok_iff.2 ⟨_, _, hprepare, carryOut_single h s now⟩
    next hne =>
      rw [if_neg hne]
      exact commit_eq_error_iff.2 hprepare

end

end Store

namespace Work

open Effect

variable {σ : Type} {allowed : Method → Fault → Prop} {own : σ} {site : Site}

theorem leads_commit?_cases (h : site.Plain allowed) {c : Command} {d moved : Draft}
    (hc : c.Moves d moved) {Q : Except Fault (Option (List Command)) → σ × Site → Prop}
    (hconflict : ∀ g fault, g.Allows allowed → allowed .commit fault → fault.isConflict = true →
      Q (.ok none) (own, site.after site.store g))
    (hfault : ∀ g fault, g.Allows allowed → allowed .commit fault →
      Q (.error fault) (own, site.after site.store g))
    (hanonymous : ∀ g, g.Allows allowed → d.id.isEmpty = true →
      Q (.error (.invalid (.anonymous c.name))) (own, site.after site.store g))
    (hwon : ∀ g e, g.Allows allowed → d.id.isEmpty = false →
      d.expectedRev = site.store.log.latestRev d.id →
      e = Store.entryOf site.store.log site.now moved.current →
      Q (.ok (some [c.withDraft (.ofState e)])) (own, site.after (site.store.record e) g))
    (hlost : ∀ g, g.Allows allowed → d.id.isEmpty = false →
      d.expectedRev ≠ site.store.log.latestRev d.id → Q (.ok none)
        (own, site.after site.store g)) :
    Leads (Work.commit? [c]) (own, site) Q := by
  have hcommit := Store.commit_single hc site.store site.now
  unfold Work.commit?
  simp only [leads_tryCatch, leads_bind]
  refine leads_commit h ?_ ?_ ?_
  · intro g fault hg hallowed
    simp only
    split
    next hlate => exact hconflict g fault hg hallowed hlate
    next => exact hfault g fault hg hallowed
  · intro g fault hg herror
    rw [hcommit] at herror
    simp only
    split at herror
    next hid =>
      cases herror
      exact hanonymous g hg hid
    next hid =>
      split at herror
      next => cases herror
      next hne =>
        cases herror
        exact hlost g hg (Bool.eq_false_iff.2 hid) hne
  · intro g s done hg hok
    rw [hcommit] at hok
    split at hok
    next => cases hok
    next hid =>
      split at hok
      next heq =>
        cases hok
        exact hwon g _ hg (Bool.eq_false_iff.2 hid) heq rfl
      next => cases hok

theorem leads_commit?_entry (h : site.Plain allowed) {c : Command} {d moved : Draft}
    (hc : c.Moves d moved) {Q : Except Fault (Option (List Command)) → σ × Site → Prop}
    (hwon : ∀ g e, g.Allows allowed → d.expectedRev = site.store.log.latestRev d.id →
      e = Store.entryOf site.store.log site.now moved.current →
      Q (.ok (some [c.withDraft (.ofState e)])) (own, site.after (site.store.record e) g))
    (hlost : ∀ g, g.Allows allowed →
      (d.expectedRev ≠ site.store.log.latestRev d.id ∨
        ∃ fault, allowed .commit fault ∧ fault.isConflict = true) →
      Q (.ok none) (own, site.after site.store g))
    (hfault : ∀ g fault, g.Allows allowed → Q (.error fault) (own, site.after site.store g)) :
    Leads (Work.commit? [c]) (own, site) Q := by
  refine leads_commit?_cases h hc ?_ (fun g fault hg _ => hfault g fault hg)
    (fun g hg _ => hfault g _ hg) (fun g e hg _ => hwon g e hg)
    fun g hg _ hne => hlost g hg (.inl hne)
  exact fun g fault hg hallowed hconflict => hlost g hg (.inr ⟨fault, hallowed, hconflict⟩)

theorem leads_commit?_single (h : site.Plain allowed) {c : Command} {d moved : Draft}
    (hc : c.Moves d moved) {Q : Except Fault (Option (List Command)) → σ × Site → Prop}
    (hwon : ∀ g e, g.Allows allowed → d.expectedRev = site.store.log.latestRev d.id →
      site.store.log.Next site.now d.id d.current.annotations e →
      Q (.ok (some [c.withDraft (.ofState e)])) (own, site.after (site.store.record e) g))
    (hlost : ∀ g, g.Allows allowed →
      (d.expectedRev ≠ site.store.log.latestRev d.id ∨
        ∃ fault, allowed .commit fault ∧ fault.isConflict = true) →
      Q (.ok none) (own, site.after site.store g))
    (hfault : ∀ g fault, g.Allows allowed → Q (.error fault) (own, site.after site.store g)) :
    Leads (Work.commit? [c]) (own, site) Q := by
  refine leads_commit?_entry h hc ?_ hlost hfault
  rintro g e hg hrev rfl
  exact hwon g _ hg hrev ⟨hc.keeps.1, rfl, rfl, hc.notes⟩

theorem leads_commit?_faultless (h : site.Plain fun _ _ => False) {c : Command} {d moved : Draft}
    (hc : c.Moves d moved) {Q : Except Fault (Option (List Command)) → σ × Site → Prop}
    (hanonymous : ∀ g, g.Allows (fun _ _ => False) → d.id.isEmpty = true →
      Q (.error (.invalid (.anonymous c.name))) (own, site.after site.store g))
    (hwon : ∀ g e, g.Allows (fun _ _ => False) → d.id.isEmpty = false →
      d.expectedRev = site.store.log.latestRev d.id →
      e = Store.entryOf site.store.log site.now moved.current →
      Q (.ok (some [c.withDraft (.ofState e)])) (own, site.after (site.store.record e) g))
    (hlost : ∀ g, g.Allows (fun _ _ => False) → d.id.isEmpty = false →
      d.expectedRev ≠ site.store.log.latestRev d.id → Q (.ok none)
        (own, site.after site.store g)) :
    Leads (Work.commit? [c]) (own, site) Q :=
  leads_commit?_cases h hc (fun _ _ _ himpossible => himpossible.elim)
    (fun _ _ _ himpossible => himpossible.elim) hanonymous hwon hlost

theorem leads_commit?_surely (h : site.Plain fun _ _ => False) {c : Command} {d moved : Draft}
    (hc : c.Moves d moved) (hid : d.id.isEmpty = false)
    (hrev : d.expectedRev = site.store.log.latestRev d.id)
    {Q : Except Fault (Option (List Command)) → σ × Site → Prop}
    (hwon : ∀ g e, g.Allows (fun _ _ => False) →
      site.store.log.Next site.now d.id d.current.annotations e →
      Q (.ok (some [c.withDraft (.ofState e)])) (own, site.after (site.store.record e) g)) :
    Leads (Work.commit? [c]) (own, site) Q := by
  refine leads_commit?_faultless h hc (fun g _ hempty => ?_) (fun g e hg _ _ he => ?_)
    fun g _ _ hne => ?_
  · cases hid.symm.trans hempty
  · exact hwon g e hg (he ▸ ⟨hc.keeps.1, rfl, rfl, hc.notes⟩)
  · exact absurd hrev hne

end Work

end Workflow
