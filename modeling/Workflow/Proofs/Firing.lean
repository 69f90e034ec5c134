import Workflow.Delayer
import Workflow.Proofs.Single

/-!
# Firing an item

Firing an item takes a commit, unless the item asks for none, then the acknowledgement, then the
start of the execution. Each of the first two may fail, and what was done before it stays done.
-/

set_option autoImplicit false

namespace Workflow

namespace Delayer

/-- How firing an item ends. -/
inductive Ends (allowed : Method → Fault → Prop) (x : Delayed) (d : Delayer) (site : Site) :
    Except Fault Unit → Delayer × Site → Prop
  | fired (g : Gate) (hg : g.Allows allowed) (hcommits : commits x = true)
      (hrev : (Draft.ofState x.state).expectedRev = site.store.log.latestRev x.state.id) :
      Ends allowed x d site (.ok ()) ({ d with fired := d.fired + 1 },
        (site.after ((site.store.record (Store.entryOf site.store.log site.now x.state)).acknowledge
          x.offset) g).launching
            (.ofState (Store.entryOf site.store.log site.now x.state)))
  | unacknowledged (g : Gate) (fault : Fault) (hg : g.Allows allowed) (hcommits : commits x = true)
      (hrev : (Draft.ofState x.state).expectedRev = site.store.log.latestRev x.state.id) :
      Ends allowed x d site (.error fault) (d,
        site.after (site.store.record (Store.entryOf site.store.log site.now x.state)) g)
  | skipped (g : Gate) (hg : g.Allows allowed) (hcommits : commits x = true)
      (hwhy : (Draft.ofState x.state).expectedRev ≠ site.store.log.latestRev x.state.id ∨
        ∃ fault, allowed .commit fault ∧ fault.isConflict = true) :
      Ends allowed x d site (.ok ()) ({ d with skipped := d.skipped + 1 },
        site.after (site.store.acknowledge x.offset) g)
  | kept (g : Gate) (fault : Fault) (hg : g.Allows allowed) :
      Ends allowed x d site (.error fault) (d, site.after site.store g)
  | uncommitted (g : Gate) (hg : g.Allows allowed) (hcommits : commits x = false) :
      Ends allowed x d site (.ok ()) ({ d with fired := d.fired + 1 },
        (site.after (site.store.acknowledge x.offset) g).launching (.ofState x.state))

section

variable {allowed : Method → Fault → Prop} {x : Delayed} {d : Delayer} {site : Site}
  {outcome : Except Fault Unit} {p : Delayer × Site} (h : Ends allowed x d site outcome p)

include h

theorem Ends.plain (hsite : site.Plain allowed) : p.2.Plain allowed := by
  cases h with
  | fired g hg => exact (hsite.after _ hg).launching _
  | unacknowledged g fault hg => exact hsite.after _ hg
  | skipped g hg => exact hsite.after _ hg
  | kept g fault hg => exact hsite.after _ hg
  | uncommitted g hg => exact (hsite.after _ hg).launching _

theorem Ends.here : p.2.now = site.now ∧ p.2.isOpen = site.isOpen := by
  cases h with
  | fired => simp
  | unacknowledged => simp
  | skipped => simp
  | kept => simp
  | uncommitted => simp

theorem Ends.frame : p.1 = { d with fired := p.1.fired, skipped := p.1.skipped } := by
  cases h <;> rfl

theorem Ends.log : p.2.store.log = site.store.log ∨
    commits x = true ∧
      (Draft.ofState x.state).expectedRev = site.store.log.latestRev x.state.id ∧
      p.2.store.log = site.store.log.append (Store.entryOf site.store.log site.now x.state) := by
  cases h with
  | fired _ _ hcommits hrev =>
    rw [Site.store_launching]
    exact .inr ⟨hcommits, hrev, rfl⟩
  | unacknowledged _ _ _ hcommits hrev => exact .inr ⟨hcommits, hrev, rfl⟩
  | skipped => exact .inl rfl
  | kept => exact .inl rfl
  | uncommitted =>
    rw [Site.store_launching]
    exact .inl rfl

end

theorem Ends.delays {allowed : Method → Fault → Prop} {x : Delayed} {d : Delayer} {site : Site}
    {outcome : Except Fault Unit} {p : Delayer × Site} :
    Ends allowed x d site outcome p → p.2.store.delays =
      if outcome matches .ok () then site.store.delays.acknowledge x.offset
      else site.store.delays := by
  intro h
  cases h with
  | fired =>
    rw [Site.store_launching]
    rfl
  | unacknowledged => rfl
  | skipped => rfl
  | kept => rfl
  | uncommitted =>
    rw [Site.store_launching]
    rfl

open Effect

section

variable {allowed : Method → Fault → Prop} {d : Delayer} {site : Site} (h : site.Plain allowed)

include h

theorem leads_acknowledge {offset : Int} {Q : Except Fault Unit → Delayer × Site → Prop}
    {next : Work Delayer Unit}
    (hdone : ∀ g, g.Allows allowed →
      Leads next (d, site.after (site.store.acknowledge offset) g) Q)
    (hfault : ∀ g fault, g.Allows allowed → allowed .acknowledge fault →
      Q (.error fault) (d, site.after site.store g)) :
    Leads (do Work.access (Repository.acknowledge offset); next) (d, site) Q := by
  simp only [leads_bind]
  exact Work.leads_acknowledge_of_allowed h hfault hdone

/-- Firing an item goes as the log tells, unless a fault is planned for one of its calls. -/
theorem leads_fire_cases (x : Delayed) {Q : Except Fault Unit → Delayer × Site → Prop}
    (hplanned : ∀ g m fault, g.Allows allowed → allowed m fault →
      Q (.error fault) (d, site.after site.store g))
    (hanonymous : ∀ g fault, g.Allows allowed → commits x = true →
      x.state.id.isEmpty = true → Q (.error fault) (d, site.after site.store g))
    (hunacknowledged : ∀ g fault e, g.Allows allowed → allowed .acknowledge fault →
      commits x = true → (Draft.ofState x.state).expectedRev = site.store.log.latestRev x.state.id →
      e = Store.entryOf site.store.log site.now x.state →
      Q (.error fault) (d, site.after (site.store.record e) g))
    (hfired : ∀ g e, g.Allows allowed → commits x = true → x.state.id.isEmpty = false →
      (Draft.ofState x.state).expectedRev = site.store.log.latestRev x.state.id →
      e = Store.entryOf site.store.log site.now x.state →
      Q (.ok ()) ({ d with fired := d.fired + 1 },
        (site.after ((site.store.record e).acknowledge x.offset) g).launching (.ofState e)))
    (hskipped : ∀ g, g.Allows allowed → commits x = true →
      (x.state.id.isEmpty = false ∧
          (Draft.ofState x.state).expectedRev ≠ site.store.log.latestRev x.state.id ∨
        ∃ fault, allowed .commit fault ∧ fault.isConflict = true) →
      Q (.ok ()) ({ d with skipped := d.skipped + 1 },
        site.after (site.store.acknowledge x.offset) g))
    (huncommitted : ∀ g, g.Allows allowed → commits x = false →
      Q (.ok ()) ({ d with fired := d.fired + 1 },
        (site.after (site.store.acknowledge x.offset) g).launching (.ofState x.state))) :
    Leads (fire x) (d, site) Q := by
  have hskip {g : Gate} (hg : g.Allows allowed) (hcommits : commits x = true)
      (hwhy : x.state.id.isEmpty = false ∧
          (Draft.ofState x.state).expectedRev ≠ site.store.log.latestRev x.state.id ∨
        ∃ fault, allowed .commit fault ∧ fault.isConflict = true) :
      Leads (skip x) (d, site.after site.store g) Q := by
    unfold skip
    refine leads_acknowledge (h.after _ hg) (fun g' hg' => ?_) fun g' fault hg' hallowed => ?_
    · exact hskipped g' hg' hcommits hwhy
    · exact hplanned g' _ fault hg' hallowed
  unfold fire
  simp only
  split
  next hcommits =>
    simp only [leads_bind]
    refine Work.leads_commit?_cases h (Command.moves_keep _) ?_ ?_ ?_ ?_ ?_
    · intro g fault hg hallowed hconflict
      exact hskip hg hcommits (.inr ⟨fault, hallowed, hconflict⟩)
    · exact fun g fault hg hallowed => hplanned g _ fault hg hallowed
    · exact fun g hg hid => hanonymous g _ hg hcommits hid
    · intro g e hg hid hrev he
      simp only [(Command.moves_keep _).resulting?_eq]
      unfold continueWith
      refine leads_acknowledge (h.after _ hg) (fun g' hg' => ?_) fun g' fault hg' hallowed => ?_
      · simp only [leads_bind, Work.leads_change, Work.leads_launch]
        exact hfired g' e hg' hcommits hid hrev he
      · exact hunacknowledged g' fault e hg' hallowed hcommits hrev he
    · exact fun g hg hid hrev => hskip hg hcommits (.inl ⟨hid, hrev⟩)
  next hcommits =>
    unfold continueWith
    refine leads_acknowledge h (fun g' hg' => ?_) fun g' fault hg' hallowed => ?_
    · simp only [leads_bind, Work.leads_change, Work.leads_launch]
      exact huncommitted g' hg' (Bool.eq_false_iff.2 hcommits)
    · exact hplanned g' _ fault hg' hallowed

theorem leads_fire (x : Delayed) : Leads (fire x) (d, site) (Ends allowed x d site) := by
  refine leads_fire_cases h x ?_ ?_ ?_ ?_ ?_ ?_
  · exact fun g _ fault hg _ => .kept g fault hg
  · exact fun g fault hg _ _ => .kept g fault hg
  · rintro g fault e hg _ hcommits hrev rfl
    exact .unacknowledged g fault hg hcommits hrev
  · rintro g e hg hcommits _ hrev rfl
    exact .fired g hg hcommits hrev
  · exact fun g hg hcommits hwhy => .skipped g hg hcommits (hwhy.imp_left And.right)
  · exact fun g hg hcommits => .uncommitted g hg hcommits

end

end Delayer

end Workflow
