import Workflow.Proofs.Transaction
import Workflow.Site

/-!
# Accesses

Work at a site that reaches its store directly. A call fails as its gate has planned it, and then
nothing changes but the gate; otherwise it is served by the store.
-/

set_option autoImplicit false

namespace Workflow

/-- That states advanced is for the store to say: a commit that is made to fail does not claim
it. -/
def Fault.Honest (m : Method) (fault : Fault) : Prop := m = .commit → fault.isConflict = false

namespace Gate

/-- All faults that are planned are of an allowed kind. -/
def Allows (allowed : Method → Fault → Prop) (g : Gate) : Prop :=
  ∀ m fault, some fault ∈ g.planned m → allowed m fault

variable {allowed : Method → Fault → Prop} {g : Gate}

theorem planned_plan (g : Gate) (m m' : Method) (outcomes : List (Option Fault)) :
    (g.plan m outcomes).planned m' = if m' = m then outcomes else g.planned m' := by
  unfold planned plan
  simp only [SortedMap.get?_insert]
  split <;> rfl

theorem Allows.plan (h : g.Allows allowed) {m : Method} {outcomes : List (Option Fault)}
    (hplan : ∀ fault, some fault ∈ outcomes → allowed m fault) :
    (g.plan m outcomes).Allows allowed := by
  intro m' fault hmem
  rw [planned_plan] at hmem
  split at hmem
  next heq => exact heq ▸ hplan fault hmem
  next => exact h m' fault hmem

theorem Allows.enter (h : g.Allows allowed) (m : Method) : (g.enter m).2.Allows allowed := by
  unfold Gate.enter
  cases hplan : g.planned m with
  | nil => exact h
  | cons outcome rest =>
    intro m' fault hfault
    rw [planned_plan] at hfault
    split at hfault
    next heq =>
      rw [heq]
      exact h m fault (hplan ▸ List.mem_cons_of_mem _ hfault)
    next => exact h m' fault hfault

theorem Allows.of_enter (h : g.Allows allowed) {m : Method} {fault : Fault}
    (hfault : (g.enter m).1 = some fault) : allowed m fault := by
  unfold Gate.enter at hfault
  cases hplan : g.planned m with
  | nil =>
    rw [hplan] at hfault
    cases hfault
  | cons outcome rest =>
    rw [hplan] at hfault
    obtain rfl : outcome = some fault := hfault
    exact h m fault (hplan ▸ List.mem_cons_self)

end Gate

namespace Site

def store (site : Site) : Store := site.repository.store

/-- The site once its repository has another store and another gate. -/
def after (site : Site) (s : Store) (g : Gate) : Site :=
  { site with repository := ⟨s, g, site.repository.front⟩ }

/-- The site reaches its store directly, and only faults of an allowed kind are planned. -/
structure Plain (allowed : Method → Fault → Prop) (site : Site) : Prop where
  direct : site.repository.front = .direct
  gate : site.repository.gate.Allows allowed

@[simp] theorem store_after (site : Site) (s : Store) (g : Gate) : (site.after s g).store = s := rfl

@[simp] theorem now_after (site : Site) (s : Store) (g : Gate) :
    (site.after s g).now = site.now := rfl

@[simp] theorem isOpen_after (site : Site) (s : Store) (g : Gate) :
    (site.after s g).isOpen = site.isOpen := rfl

@[simp] theorem launched_after (site : Site) (s : Store) (g : Gate) :
    (site.after s g).launched = site.launched := rfl

/-- The site after an execution was started, if it still starts any. -/
def launching (site : Site) (d : Draft) : Site :=
  if site.isOpen then { site with launched := site.launched ++ [d] } else site

@[simp] theorem repository_launching (site : Site) (d : Draft) :
    (site.launching d).repository = site.repository := by
  unfold launching
  split
  · rfl
  · rfl

theorem launched_launching (site : Site) (d : Draft) :
    (site.launching d).launched =
      if site.isOpen then site.launched ++ [d] else site.launched := by
  unfold launching
  split
  · rfl
  · rfl

@[simp] theorem now_launching (site : Site) (d : Draft) : (site.launching d).now = site.now := by
  unfold launching
  split
  · rfl
  · rfl

@[simp] theorem isOpen_launching (site : Site) (d : Draft) :
    (site.launching d).isOpen = site.isOpen := by
  unfold launching
  split
  · rfl
  · rfl

@[simp] theorem store_launching (site : Site) (d : Draft) :
    (site.launching d).store = site.store :=
  congrArg Repository.store (site.repository_launching d)

variable {allowed : Method → Fault → Prop} {site : Site}

theorem Plain.after (h : site.Plain allowed) (s : Store) {g : Gate} (hg : g.Allows allowed) :
    (site.after s g).Plain allowed :=
  ⟨h.direct, hg⟩

theorem Plain.launching (h : site.Plain allowed) (d : Draft) :
    (site.launching d).Plain allowed := by
  constructor
  · rw [repository_launching]
    exact h.direct
  · rw [repository_launching]
    exact h.gate

end Site

namespace Work

open Effect

variable {σ τ α : Type}

/-! ### Work on a value of its own -/

section

variable {own : σ} {site : Site}

theorem leads_own {Q : Except Fault σ → σ × Site → Prop} :
    Leads Work.own (own, site) Q ↔ Q (.ok own) (own, site) := Iff.rfl

theorem leads_now {Q : Except Fault Instant → σ × Site → Prop} :
    Leads Work.now (own, site) Q ↔ Q (.ok site.now) (own, site) := Iff.rfl

theorem leads_change {f : σ → σ} {Q : Except Fault Unit → σ × Site → Prop} :
    Leads (Work.change f) (own, site) Q ↔ Q (.ok ()) (f own, site) := Iff.rfl

theorem leads_launch {d : Draft} {Q : Except Fault Unit → σ × Site → Prop} :
    Leads (Work.launch d) (own, site) Q ↔ Q (.ok ()) (own, site.launching d) := Iff.rfl

theorem leads_congr {x y : Work σ α} (h : x.perform own site = y.perform own site)
    {Q : Except Fault α → σ × Site → Prop} :
    Leads x (own, site) Q ↔ Leads y (own, site) Q := by
  unfold Work.perform at h
  unfold Leads
  rw [h]

theorem leads_within {part : σ → τ} {put : σ → τ → σ} {x : Work τ α}
    {Q : Except Fault α → σ × Site → Prop} :
    Leads (Work.within part put x) (own, site) Q ↔
      Leads x (part own, site) fun outcome p => Q outcome (put own p.1, p.2) := Iff.rfl

theorem leads_access {x : Access α} {Q : Except Fault α → σ × Site → Prop} :
    Leads (Work.access x) (own, site) Q ↔
      Leads x site.repository fun outcome r => Q outcome (own, { site with repository := r }) :=
  Iff.rfl

end

/-! ### Calls of the store -/

theorem leads_readStore_of_gate {allowed : Method → Fault → Prop} {own : σ} {site : Site}
    (h : site.repository.gate.Allows allowed) {Q : Except Fault α → σ × Site → Prop} {m : Method}
    {f : Store → Except Fault α}
    (hfault : ∀ g fault, g.Allows allowed → allowed m fault →
      Q (.error fault) (own, site.after site.store g))
    (hanswer : ∀ g, g.Allows allowed → Q (f site.store) (own, site.after site.store g)) :
    Leads (Work.access (Repository.readStore m f)) (own, site) Q := by
  have hgate := h.enter m
  rw [leads_access]
  unfold Repository.readStore Repository.pass
  simp only [leads_bind, leads_get, leads_set]
  cases hplan : (site.repository.gate.enter m).1 with
  | some fault => exact hfault _ fault hgate (h.of_enter hplan)
  | none => exact hanswer _ hgate

section

variable {allowed : Method → Fault → Prop} {own : σ} {site : Site} (h : site.Plain allowed)
  {Q : Except Fault α → σ × Site → Prop}

include h

theorem leads_readStore {m : Method} {f : Store → Except Fault α}
    (hfault : ∀ g fault, g.Allows allowed → allowed m fault →
      Q (.error fault) (own, site.after site.store g))
    (hanswer : ∀ g, g.Allows allowed → Q (f site.store) (own, site.after site.store g)) :
    Leads (Work.access (Repository.readStore m f)) (own, site) Q :=
  leads_readStore_of_gate h.gate hfault hanswer

theorem leads_findState {id : StateId} {rev : Int} {Q : Except Fault Draft → σ × Site → Prop}
    (hfault : ∀ g fault, g.Allows allowed → allowed .findState fault →
      Q (.error fault) (own, site.after site.store g))
    (hanswer : ∀ g, g.Allows allowed →
      Q (site.store.log.find id rev) (own, site.after site.store g)) :
    Leads (Work.access (Repository.findState id rev)) (own, site) Q := by
  have hread := leads_readStore h (f := (·.log.find id rev)) hfault hanswer
  rw [leads_access] at hread ⊢
  unfold Repository.findState Repository.miss
  simp only [leads_bind, leads_get, Repository.cache?, h.direct, Option.bind_none, leads_modify]
  exact hread

theorem leads_listStates_of_allowed {q : StateQuery}
    {Q : Except Fault (Page State) → σ × Site → Prop}
    (hfault : ∀ g fault, g.Allows allowed → allowed .listStates fault →
      Q (.error fault) (own, site.after site.store g))
    (hanswer : ∀ g, g.Allows allowed →
      Q (.ok (site.store.log.page q)) (own, site.after site.store g)) :
    Leads (Work.access (Repository.listStates q)) (own, site) Q := by
  have hread := leads_readStore h (m := .listStates) (f := fun s => .ok (s.log.page q)) hfault
    hanswer
  rw [leads_access] at hread ⊢
  unfold Repository.listStates Repository.miss
  simp only [leads_bind, leads_get, Repository.cache?, h.direct, Option.bind_none, leads_modify]
  exact hread

theorem leads_listStates {q : StateQuery} {Q : Except Fault (Page State) → σ × Site → Prop}
    (hfault : ∀ g fault, g.Allows allowed → Q (.error fault) (own, site.after site.store g))
    (hanswer : ∀ g, g.Allows allowed →
      Q (.ok (site.store.log.page q)) (own, site.after site.store g)) :
    Leads (Work.access (Repository.listStates q)) (own, site) Q :=
  leads_listStates_of_allowed h (fun g fault hg _ => hfault g fault hg) hanswer

theorem leads_listDelayed {q : DelayQuery} {Q : Except Fault (Page Delayed) → σ × Site → Prop}
    (hfault : ∀ g fault, g.Allows allowed → Q (.error fault) (own, site.after site.store g))
    (hanswer : ∀ g, g.Allows allowed →
      Q (.ok (site.store.delays.page q)) (own, site.after site.store g)) :
    Leads (Work.access (Repository.listDelayed q)) (own, site) Q :=
  leads_readStore h (fun g fault hg _ => hfault g fault hg) hanswer

theorem leads_changeStore {m : Method} {f : Store → Except Fault (Store × α)}
    (hfault : ∀ g fault, g.Allows allowed → allowed m fault →
      Q (.error fault) (own, site.after site.store g))
    (hfail : ∀ g fault, g.Allows allowed → f site.store = .error fault →
      Q (.error fault) (own, site.after site.store g))
    (hdone : ∀ g s a, g.Allows allowed → f site.store = .ok (s, a) →
      Q (.ok a) (own, site.after s g)) :
    Leads (Work.access (Repository.changeStore m f)) (own, site) Q := by
  have hread : Leads (Work.access (Repository.readStore m f)) (own, site) fun outcome p =>
      match outcome with
      | .ok (s, a) => Q (.ok a) (p.1, p.2.after s p.2.repository.gate)
      | .error fault => Q (.error fault) p := by
    refine leads_readStore h hfault fun g hg => ?_
    cases hf : f site.store with
    | error fault => exact hfail g fault hg hf
    | ok result => exact hdone g result.1 result.2 hg hf
  rw [leads_access] at hread ⊢
  unfold Repository.changeStore
  rw [leads_bind]
  refine hread.mono fun outcome r hr => ?_
  cases outcome with
  | error fault => exact hr
  | ok result =>
    simp only [leads_bind, leads_modify, leads_pure]
    exact hr

theorem leads_acknowledge_of_allowed {offset : Int} {Q : Except Fault Unit → σ × Site → Prop}
    (hfault : ∀ g fault, g.Allows allowed → allowed .acknowledge fault →
      Q (.error fault) (own, site.after site.store g))
    (hdone : ∀ g, g.Allows allowed →
      Q (.ok ()) (own, site.after (site.store.acknowledge offset) g)) :
    Leads (Work.access (Repository.acknowledge offset)) (own, site) Q := by
  refine leads_changeStore h hfault (fun _ _ _ hfail => nomatch hfail) fun g s a hg hok => ?_
  cases hok
  exact hdone g hg

theorem leads_commit {parts : List Command} {Q : Except Fault (List Command) → σ × Site → Prop}
    (hfault : ∀ g fault, g.Allows allowed → allowed .commit fault →
      Q (.error fault) (own, site.after site.store g))
    (hfail : ∀ g fault, g.Allows allowed → site.store.commit site.now parts = .error fault →
      Q (.error fault) (own, site.after site.store g))
    (hdone : ∀ g s done, g.Allows allowed → site.store.commit site.now parts = .ok (s, done) →
      Q (.ok done) (own, site.after s g)) :
    Leads (Work.commit parts) (own, site) Q := by
  obtain ⟨⟨s, g, front⟩, now, isOpen, launched⟩ := site
  obtain ⟨hdirect, hg⟩ := h
  obtain rfl : front = .direct := hdirect
  unfold Work.commit
  simp only [leads_bind, leads_now, leads_access]
  unfold Repository.commit Repository.transact Repository.pass Repository.offer
  simp only [leads_bind, leads_get, leads_set, Repository.cache?, Option.map_none]
  cases hplan : (g.enter .commit).1 with
  | some fault =>
    simp only [leads_throw]
    exact hfault _ fault (hg.enter .commit) (hg.of_enter hplan)
  | none =>
    simp only [leads_pure, Transaction.run_commit]
    cases hprepare : s.prepare parts with
    | error fault =>
      simp only [leads_bind, leads_set, leads_settle]
      exact hfail _ fault (hg.enter .commit) (Store.commit_eq_error_iff.2 hprepare)
    | ok staged =>
      obtain ⟨st, work⟩ := staged
      simp only [leads_bind, leads_set, leads_settle, leads_pure, leads_modify]
      exact hdone _ _ _ (hg.enter .commit) (Store.commit_eq_ok_iff.2 ⟨st, work, hprepare, rfl⟩)

end

end Work

end Workflow
