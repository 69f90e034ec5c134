import Workflow.Proofs.Cached

/-!
# Reads through a cache

Whatever a cache answers is what the wrapped repository would answer, or what it would answer if its
log were cut after the last entry of the ring. Nothing is cut off if no entry was added past the
cache since its ring was filled.
-/

set_option autoImplicit false

namespace Workflow

namespace Visit

/-- One of the offers of the visit meets an empty ring. -/
def Fills (r : Repository) (v : Visit) : Prop :=
  ∃ n, n < (v.offers r).length ∧ (((v.offers r).take n).foldl Ring.offer r.ring).entries = []

def isLate : Visit → Bool
  | arrive _ => true
  | _ => false

end Visit

namespace Repository

open Effect

/-! ### Caches that miss nothing -/

section

variable {r : Repository} (h : r.Mirrored) {v : Visit}

include h

theorem Mirrored.exists_drop (hv : v.isLate = false) :
    ∃ n, v.offers r = (r.visit v).store.log.entries.drop n := by
  cases v with
  | call request =>
    have hentries := (h.visited (.call request)).entries fun _ => nofun
    refine ⟨r.store.log.entries.length, ?_⟩
    rw [hentries, List.drop_left]
    rfl
  | refresh =>
    have hentries := (h.visited .refresh).entries fun _ => nofun
    refine ⟨r.ring.high?.elim (r.store.log.entries.length - 1) Int.toNat, ?_⟩
    rw [hentries]
    change r.lag = _
    unfold lag Visit.adds
    rw [List.append_nil]
  | arrive => cases hv
  | direct | findState | findLabelled | listStates | listDelayed | fetchBlob =>
    exact ⟨_, (List.drop_length).symm⟩

theorem Mirrored.reaches_of_fills (hv : v.isLate = false) (hfills : v.Fills r) :
    (r.visit v).ring.Reaches (r.visit v).store.log.head := by
  obtain ⟨hlog, hpre⟩ := h.grows v
  obtain ⟨n, hdrop⟩ := h.exists_drop hv
  obtain ⟨k, hk, hempty⟩ := hfills
  rw [(h.visited v).becomes.ring, hdrop]
  rw [hdrop] at hk hempty
  rw [List.length_drop] at hk
  exact (h.mirrors.mono hpre).reaches_offers_of_empty hlog (by omega) hempty

/-- A ring that has the end of the log keeps it, unless the log grows behind its back. -/
theorem Mirrored.reaches_visit (hreach : r.ring.Reaches r.store.log.head)
    (hdirect : ∀ request, v = .direct request → (r.visit v).store.log = r.store.log) :
    (r.visit v).ring.Reaches (r.visit v).store.log.head := by
  have hvisited := h.visited v
  obtain ⟨hlog, hpre⟩ := h.grows v
  have hsame (hentries : (r.visit v).store.log.entries = r.store.log.entries) :
      (r.visit v).ring.Reaches (r.visit v).store.log.head := by
    have hhead : (r.visit v).store.log.head = r.store.log.head := by
      unfold Log.head
      rw [hentries]
    have hpassed : ∀ s ∈ v.offers r, r.ring.Reaches s.rev := by
      intro s hs
      obtain ⟨high, hhigh, hle⟩ := hreach
      have hrev := (hlog.rev_of_mem (h.offers_mem hs)).2
      exact ⟨high, hhigh, by omega⟩
    rw [hvisited.becomes.ring, Ring.offers_of_reaches hpassed, hhead]
    exact hreach
  cases v with
  | call request =>
    have hentries := hvisited.entries fun _ => nofun
    have hdrop : (Visit.call request).offers r =
        (r.visit (.call request)).store.log.entries.drop r.store.log.entries.length := by
      rw [hentries, List.drop_left]
      rfl
    rw [hvisited.becomes.ring, hdrop]
    exact (h.mirrors.mono hpre).reaches_offers_drop hlog hreach
  | direct request => exact hsame (congrArg Log.entries (hdirect request rfl))
  | _ =>
    refine hsame ?_
    rw [hvisited.entries fun _ => nofun]
    exact List.append_nil _

end

/-! ### What is read -/

/-- What an access answers. -/
def answer {α : Type} (r : Repository) (x : Access α) : Except Fault α := (x.run.run r).1

/-- The repository that the cache wraps. -/
def wrapped (r : Repository) : Repository := { r with front := .direct }

/-- The repository with its log cut after a revision. -/
def cutAfter (r : Repository) (rev : Int) : Repository :=
  { r with store := { r.store with log := r.store.log.upTo rev } }

theorem answer_findState_of_direct {r : Repository} (hopen : r.gate.Open)
    (hfront : r.front = .direct) (id : StateId) (rev : Int) :
    r.answer (findState id rev) = r.store.log.find id rev := by
  have hread : Leads (findState id rev) r fun outcome _ =>
      outcome = r.store.log.find id rev := by
    unfold findState miss
    simp only [leads_bind, leads_get, cache?, hfront, Option.bind_none, leads_modify]
    exact leads_readStore_open hopen fun _ _ => rfl
  exact hread

theorem answer_listStates_of_direct {r : Repository} (hopen : r.gate.Open)
    (hfront : r.front = .direct) (q : StateQuery) :
    r.answer (listStates q) = .ok (r.store.log.page q) := by
  have hread : Leads (listStates q) r fun outcome _ => outcome = .ok (r.store.log.page q) := by
    unfold listStates miss
    simp only [leads_bind, leads_get, cache?, hfront, Option.bind_none, leads_modify]
    exact leads_readStore_open hopen fun _ _ => rfl
  exact hread

section

variable {r : Repository} (h : r.Mirrored)

include h

theorem Mirrored.answer_findState (id : StateId) (rev : Int) :
    r.answer (findState id rev) = r.wrapped.answer (findState id rev) := by
  have hcached : r.answer (findState id rev) =
      (r.ring.find? id rev).getD (r.store.log.find id rev) := (leads_findState h.cached id rev).1
  rw [hcached, answer_findState_of_direct (r := r.wrapped) h.cached.gate rfl]
  cases hfound : r.ring.find? id rev with
  | none => rfl
  | some answer => exact h.mirrors.eq_find_of_find? h.log hfound

theorem Mirrored.answer_listStates_of_serves {q : StateQuery} (hserves : r.ring.Serves q) :
    ∃ high, r.ring.high? = some high ∧
      r.answer (listStates q) = (r.wrapped.cutAfter high).answer (listStates q) := by
  obtain ⟨high, hhigh, hpage⟩ := h.mirrors.page?_of_serves h.log hserves
  refine ⟨high, hhigh, ?_⟩
  have hcached : r.answer (listStates q) = .ok ((r.ring.page? q).getD (r.store.log.page q)) :=
    (leads_listStates h.cached q).1
  rw [hcached, hpage,
    answer_listStates_of_direct (r := r.wrapped.cutAfter high) h.cached.gate rfl]
  rfl

theorem Mirrored.answer_listStates_of_not_serves {q : StateQuery} (hno : ¬ r.ring.Serves q) :
    r.answer (listStates q) = r.wrapped.answer (listStates q) := by
  have hcached : r.answer (listStates q) = .ok ((r.ring.page? q).getD (r.store.log.page q)) :=
    (leads_listStates h.cached q).1
  rw [hcached, Ring.page?_of_not_serves hno,
    answer_listStates_of_direct (r := r.wrapped) h.cached.gate rfl]
  rfl

theorem Mirrored.cutAfter_head : r.wrapped.cutAfter r.store.log.head = r.wrapped := by
  have hwhole := h.log.upTo_head
  unfold cutAfter
  change { r.wrapped with store := { r.store with log := r.store.log.upTo r.store.log.head } } = _
  rw [hwhole]
  rfl

end

/-! ### Reads of a run -/

section

variable {capacity : Nat} {visits : List Visit} {k : Nat} {v : Visit}

theorem run_take_succ (hat : visits[k]? = some v) :
    run capacity (visits.take (k + 1)) = (run capacity (visits.take k)).visit v := by
  rw [List.take_add_one, hat, Option.toList_some, run_append_singleton]

theorem reaches_run (hat : visits[k]? = some v) (hv : v.isLate = false)
    (hfills : v.Fills (run capacity (visits.take k)))
    (hdirect : ∀ j request, k < j → visits[j]? = some (.direct request) →
      (run capacity (visits.take (j + 1))).store.log = (run capacity (visits.take j)).store.log)
    {n : Nat} (hkn : k + 1 ≤ n) (hn : n ≤ visits.length) :
    (run capacity (visits.take n)).ring.Reaches
      (run capacity (visits.take n)).store.log.head := by
  induction n, hkn using Nat.le_induction with
  | base =>
    rw [run_take_succ hat]
    exact (mirrored_run capacity _).reaches_of_fills hv hfills
  | succ n hkn ih =>
    have hnext : visits[n]? = some visits[n] := List.getElem?_eq_getElem hn
    have hreach := ih (Nat.le_of_lt hn)
    rw [run_take_succ hnext]
    refine (mirrored_run capacity _).reaches_visit hreach fun request hrequest => ?_
    rw [← run_take_succ hnext]
    exact hdirect n request hkn (hrequest ▸ hnext)

end

/-- Whatever clients did, a revision that is looked up through the cache is what the wrapped
repository has. A search that the ring answers finds what the wrapped repository would show if its
log were cut after the last entry of the ring; any other search is answered by the wrapped
repository. If nothing was added past the cache since its ring was filled, nothing is cut off. -/
theorem cached_reads_refine_reads (capacity : Nat) (visits : List Visit) :
    let r := run capacity visits
    (∀ id rev, r.answer (findState id rev) = r.wrapped.answer (findState id rev)) ∧
    (∀ q, r.ring.Serves q → ∃ high, r.ring.high? = some high ∧
      r.answer (listStates q) = (r.wrapped.cutAfter high).answer (listStates q)) ∧
    (∀ q, ¬ r.ring.Serves q → r.answer (listStates q) = r.wrapped.answer (listStates q)) ∧
    ∀ k v, visits[k]? = some v → v.isLate = false → v.Fills (run capacity (visits.take k)) →
      (∀ j request, k < j → visits[j]? = some (.direct request) →
        (run capacity (visits.take (j + 1))).store.log =
          (run capacity (visits.take j)).store.log) →
      r.ring.high? = some r.store.log.head ∧ r.wrapped.cutAfter r.store.log.head = r.wrapped ∧
        ∀ q, r.answer (listStates q) = r.wrapped.answer (listStates q) := by
  intro r
  have h : r.Mirrored := mirrored_run capacity visits
  refine ⟨h.answer_findState, fun q => h.answer_listStates_of_serves,
    fun q => h.answer_listStates_of_not_serves, fun k v hat hv hfills hdirect => ?_⟩
  have hreach : r.ring.Reaches r.store.log.head := by
    have hlt := (List.getElem?_eq_some_iff.1 hat).1
    have hend := reaches_run hat hv hfills hdirect (Nat.succ_le_of_lt hlt) (Nat.le_refl _)
    rwa [List.take_length] at hend
  have hhigh : r.ring.high? = some r.store.log.head := h.mirrors.high?_of_reaches_head h.log hreach
  refine ⟨hhigh, h.cutAfter_head, fun q => ?_⟩
  by_cases hserves : r.ring.Serves q
  · obtain ⟨high, hsame, hanswer⟩ := h.answer_listStates_of_serves hserves
    rw [hhigh] at hsame
    cases hsame
    rw [hanswer, h.cutAfter_head]
  · exact h.answer_listStates_of_not_serves hserves

/-- Two states are created past the cache, which catches up, and a third one through it. -/
theorem cached_reads_refine_reads_of_refresh :
    let create (id : String) : Store.Request := .commit default [.keep (.ofState (.new ⟨id⟩))]
    let visits : List Visit :=
      [.direct (create "a"), .direct (create "b"), .refresh, .call (create "c")]
    let r := run 1 visits
    Visit.Fills (run 1 (visits.take 2)) .refresh ∧ r.ring.low? = some 2 ∧ r.ring.high? = some 3 ∧
      r.wrapped.cutAfter 3 = r.wrapped ∧
      ∀ q, r.answer (listStates q) = r.wrapped.answer (listStates q) := by
  intro create visits r
  have hfills : Visit.Fills (run 1 (visits.take 2)) .refresh :=
    ⟨0, by decide +kernel, by decide +kernel⟩
  have hdirect : ∀ j request, 2 < j → visits[j]? = some (.direct request) →
      (run 1 (visits.take (j + 1))).store.log = (run 1 (visits.take j)).store.log := by
    intro j request hj hat
    have hlt : j < 4 := (List.getElem?_eq_some_iff.1 hat).1
    obtain rfl : j = 3 := by omega
    cases hat
  have hhead : (run 1 visits).store.log.head = 3 := by decide +kernel
  have hlow : (run 1 visits).ring.low? = some 2 := by decide +kernel
  obtain ⟨hhigh, hcut, hlists⟩ :=
    (cached_reads_refine_reads 1 visits).2.2.2 2 .refresh rfl rfl hfills hdirect
  rw [hhead] at hhigh hcut
  exact ⟨hfills, hlow, hhigh, hcut, hlists⟩

end Repository

end Workflow
