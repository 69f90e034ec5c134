import Workflow.Proofs.Cached

/-!
# Refreshes catch up

A refresh goes on from the last entry of the ring. That entry moves with every page and with what
waited behind a gap, while the ring drops its first entries; still the last page ends with the head
of the log, and nothing waits beyond the head.
-/

set_option autoImplicit false

namespace Workflow

namespace Ring

/-! ### What waits is ahead -/

/-- The ring holds no more entries than its capacity, and what waits is beyond its last entry. So
nothing waits in an empty ring. -/
structure Tidy (r : Ring) : Prop where
  bounded : r.entries.length ≤ r.capacity
  ahead : ∀ rev s, r.waiting.get? rev = some s → ∃ high, r.high? = some high ∧ high < rev

theorem tidy_of_empty {r : Ring} (hentries : r.entries = []) (hwaiting : r.waiting = ∅) :
    r.Tidy := by
  refine ⟨?_, fun rev s hs => ?_⟩
  · rw [hentries]
    exact Nat.zero_le _
  · rw [hwaiting, SortedMap.get?_empty] at hs
    cases hs

theorem tidy_ofCapacity (n : Nat) : (ofCapacity n).Tidy := tidy_of_empty rfl rfl

variable {r : Ring}

theorem length_extend_le (h : r.entries.length ≤ r.capacity) (w : Int × State) :
    (r.extend w).entries.length ≤ (r.extend w).capacity := by
  unfold extend
  split
  · exact length_push_le _ h
  · exact h

theorem isSome_high?_extend (h : r.high?.isSome) (w : Int × State) :
    (r.extend w).high?.isSome := by
  unfold extend
  split
  · rw [high?_push]
    rfl
  · exact h

theorem tidy_settle (hbounded : r.entries.length ≤ r.capacity) (hhigh : r.high?.isSome) :
    r.settle.Tidy := by
  have hfit : (r.waiting.entries.foldl extend r).entries.length ≤
      (r.waiting.entries.foldl extend r).capacity :=
    List.foldlRecOn (motive := fun grown : Ring => grown.entries.length ≤ grown.capacity) _ _
      hbounded fun _ hle w _ => length_extend_le hle w
  have hsome : (r.waiting.entries.foldl extend r).high?.isSome :=
    List.foldlRecOn (motive := fun grown : Ring => grown.high?.isSome) _ _ hhigh
      fun _ hgrown w _ => isSome_high?_extend hgrown w
  refine ⟨hfit, fun rev s hs => ?_⟩
  obtain ⟨high, hgrown⟩ := Option.isSome_iff_exists.1 hsome
  have hkept := (SortedMap.get?_filter_eq_some_iff _ |>.1 hs).2
  rw [hgrown] at hkept
  exact ⟨high, hgrown, of_decide_eq_true hkept⟩

theorem Tidy.settle_push (h : r.Tidy) (s : State) : (r.push s).settle.Tidy := by
  refine tidy_settle (length_push_le s h.bounded) ?_
  rw [high?_push]
  rfl

theorem Tidy.offer (h : r.Tidy) (s : State) : (r.offer s).Tidy := by
  rcases r.offer_cases s with ⟨_, heq⟩ | ⟨_, _, _, heq⟩ | ⟨_, heq⟩ | ⟨high, hhigh, hgap, _, heq⟩
  · rw [heq]
    exact h.settle_push s
  · rw [heq]
    exact h
  · rw [heq]
    exact tidy_of_empty rfl rfl
  · rw [heq]
    refine ⟨h.bounded, fun rev t ht => ?_⟩
    rw [SortedMap.get?_insert] at ht
    split at ht
    next hkey => exact ⟨high, hhigh, by omega⟩
    next => exact h.ahead rev t ht

theorem capacity_settle (r : Ring) : r.settle.capacity = r.capacity := by
  have hgrown : (r.waiting.entries.foldl extend r).capacity = r.capacity := by
    refine List.foldlRecOn (motive := fun grown : Ring => grown.capacity = r.capacity) _ _ rfl
      fun grown hsame w _ => ?_
    unfold extend
    split
    · exact hsame
    · exact hsame
  exact hgrown

theorem capacity_offer (r : Ring) (s : State) : (r.offer s).capacity = r.capacity := by
  rcases r.offer_cases s with ⟨_, heq⟩ | ⟨_, _, _, heq⟩ | ⟨_, heq⟩ | ⟨_, _, _, _, heq⟩
  · rw [heq]
    exact capacity_settle _
  · rw [heq]
  · rw [heq]
  · rw [heq]

variable {l : Log}

theorem Mirrors.waiting_eq_empty (h : r.Mirrors l) (hl : l.Sound) (htidy : r.Tidy)
    (hhigh : ∀ high, r.high? = some high → high = l.head) : r.waiting = ∅ := by
  refine SortedMap.ext_get? fun rev => ?_
  rw [SortedMap.get?_empty, Option.eq_none_iff_forall_ne_some]
  intro s hs
  obtain ⟨hmem, hrev⟩ := h.waiting rev s hs
  obtain ⟨high, hlast, hlt⟩ := htidy.ahead rev s hs
  have hle := (hl.rev_of_mem hmem).2
  rw [hhigh high hlast, ← hrev] at hlt
  omega

theorem Mirrors.suffix_of_high? (h : r.Mirrors l) (hl : l.Sound)
    (hhigh : r.high? = some l.head) : r.entries <:+ l.entries := by
  have hne : r.entries ≠ [] := fun hnil => by
    rw [high?_eq_none_iff.2 hnil] at hhigh
    cases hhigh
  have hlow : r.low? = some ((r.entries.head hne).rev - 1) := by
    rw [low?, List.head?_eq_some_head hne, Option.map_some]
  obtain ⟨a, b, hsplit, -, hend⟩ := h.exists_window hl hlow hhigh
  have hlen := congrArg List.length hsplit
  rw [List.length_append] at hlen
  have hnil : b = [] := List.eq_nil_of_length_eq_zero (by unfold Log.head at hend; omega)
  rw [hnil, List.append_nil] at hsplit
  exact ⟨a, hsplit.symm⟩

end Ring

namespace Repository

open Effect

variable {r : Repository}

/-! ### Rings of runs -/

theorem ring_run {P : Ring → Prop} {capacity : Nat} (hnew : P (Ring.ofCapacity capacity))
    (hoffer : ∀ ring s, P ring → P (ring.offer s)) (visits : List Visit) :
    P (run capacity visits).ring := by
  induction visits using List.reverseRecOn with
  | nil => exact hnew
  | append_singleton visits v ih =>
    rw [run_append_singleton, ((mirrored_run capacity visits).visited v).becomes.ring]
    exact List.foldlRecOn (motive := P) _ _ ih fun ring hring s _ => hoffer ring s hring

theorem tidy_run (capacity : Nat) (visits : List Visit) : (run capacity visits).ring.Tidy :=
  ring_run (Ring.tidy_ofCapacity capacity) (fun _ s h => h.offer s) visits

theorem capacity_run (capacity : Nat) (visits : List Visit) :
    (run capacity visits).ring.capacity = max capacity 1 := by
  refine ring_run (P := fun ring => ring.capacity = max capacity 1) rfl (fun ring s h => ?_) visits
  rw [Ring.capacity_offer, h]

/-! ### Refreshes -/

theorem Mirrored.high?_offers_lag (h : r.Mirrored) (hne : r.store.log.entries ≠ []) :
    (r.lag.foldl Ring.offer r.ring).high? = some r.store.log.head := by
  have hlag : ∀ s ∈ r.lag, s ∈ r.store.log.entries := fun s hs => List.mem_of_mem_drop hs
  refine (h.mirrors.offers h.log hlag).high?_of_reaches_head h.log ?_
  unfold lag
  cases hhigh : r.ring.high? with
  | some high =>
    have hpos := (h.mirrors.high_bounds h.log hhigh).1
    exact h.mirrors.reaches_offers_drop h.log ⟨high, hhigh, by rw [Option.elim_some]; omega⟩
  | none =>
    have hlen : 0 < r.store.log.entries.length := List.length_pos_iff.2 hne
    rw [Option.elim_none]
    refine h.mirrors.reaches_offers_of_empty h.log (k := 0) (by omega) ?_
    exact Ring.high?_eq_none_iff.1 hhigh

theorem leads_refresh_of_nil (h : r.Cached) (hlog : r.store.log.entries = [])
    (hring : r.ring.high? = none) :
    Leads refresh r fun outcome r' => outcome = .ok 0 ∧ r'.front = r.front := by
  obtain ⟨c, hc⟩ := h.front
  have hhigh : c.ring.high? = none := by
    rw [← hring, ring, cache?, hc]
    rfl
  unfold refresh
  rw [leads_bind, leads_get]
  simp only [refreshLoop_succ, refreshTurn, leads_bind, leads_get, cache?, hc, Option.bind_some,
    hhigh, refreshQuery]
  refine leads_readStore_open h.gate fun g _ => ?_
  simp only [offer, leads_modify, leads_pure, hc, items_page_last, hlog, List.drop_nil,
    List.foldl_nil, List.length_nil, Option.isSome_none, Bool.and_false]
  exact ⟨rfl, rfl⟩

/-- Whatever clients did before, a refresh ends, as it would if the number of pages had no bound.
From then on the ring is a run of the last entries of the log, no longer than its capacity, and
nothing waits. If the log is empty, the cache stays as it is. -/
theorem refresh_catches_up (capacity : Nat) (visits : List Visit) :
    let r := run capacity visits
    ∃ n r', refresh.run.run r = (.ok n, r') ∧ CatchesUp r 0 (.ok n) r' ∧ r'.store = r.store ∧
      (r.store.log.entries = [] → n = 0 ∧ r'.front = r.front) ∧
      (r.store.log.entries ≠ [] →
        r'.ring.entries ≠ [] ∧ r'.ring.high? = some r.store.log.head ∧ r'.ring.waiting = ∅ ∧
          r'.ring.entries <:+ r.store.log.entries ∧
          r'.ring.entries.length ≤ r'.ring.capacity ∧ r'.ring.capacity = max capacity 1) := by
  intro r
  have h : r.Mirrored := mirrored_run capacity visits
  have hrefresh := leads_refresh h.cached h.log h.mirrors
  have hnil := leads_refresh_of_nil h.cached
  unfold Leads at hrefresh hnil
  have hvisit : r.visit .refresh = (refresh.run.run r).2 := visit_of_discard rfl
  generalize refresh.run.run r = result at hrefresh hnil hvisit
  obtain ⟨outcome, r'⟩ := result
  obtain ⟨hup, ⟨n, rfl⟩, hbecomes⟩ := hrefresh
  obtain rfl : run capacity (visits ++ [.refresh]) = r' := by rw [run_append_singleton, hvisit]
  have h' : (run capacity (visits ++ [.refresh])).Mirrored := mirrored_run capacity _
  have htidy := tidy_run capacity (visits ++ [.refresh])
  have hcapacity := capacity_run capacity (visits ++ [.refresh])
  generalize run capacity (visits ++ [.refresh]) = r' at *
  refine ⟨n, r', rfl, hup, hbecomes.store, fun hempty => ?_, fun hne => ?_⟩
  · have hring : r.ring.entries = [] := List.eq_nil_of_infix_nil (hempty ▸ h.mirrors.window)
    obtain ⟨hread, hfront⟩ := hnil hempty (Ring.high?_eq_none_iff.2 hring)
    exact ⟨Except.ok.inj hread, hfront⟩
  · have hhigh : r'.ring.high? = some r.store.log.head := by
      rw [hbecomes.ring]
      exact h.high?_offers_lag hne
    rw [← hbecomes.store] at hhigh ⊢
    refine ⟨fun hnone => ?_, hhigh, ?_, h'.mirrors.suffix_of_high? h'.log hhigh, htidy.bounded,
      hcapacity⟩
    · rw [Ring.high?_eq_none_iff.2 hnone] at hhigh
      cases hhigh
    · refine h'.mirrors.waiting_eq_empty h'.log htidy fun high hlast => ?_
      rw [hhigh] at hlast
      exact (Option.some.inj hlast).symm

/-- A state is created through the cache and one past it. The next one through the cache waits until
the cache catches up, and then the full ring drops the first one. -/
theorem refresh_catches_up_of_gap :
    let create (id : String) : Store.Request := .commit default [.keep (.ofState (.new ⟨id⟩))]
    let r := run 2 [.call (create "a"), .direct (create "b"), .call (create "c")]
    r.ring.high? = some 1 ∧ r.ring.waiting.size = 1 ∧
      ∃ n r', refresh.run.run r = (.ok n, r') ∧ CatchesUp r 0 (.ok n) r' ∧
        r'.ring.high? = some 3 ∧ r'.ring.waiting = ∅ ∧
          r'.ring.entries <:+ r.store.log.entries ∧ r'.ring.entries.length ≤ r'.ring.capacity := by
  intro create r
  obtain ⟨n, r', hrun, hup, -, -, hends⟩ :=
    refresh_catches_up 2 [.call (create "a"), .direct (create "b"), .call (create "c")]
  have hlen : r.store.log.entries.length = 3 := by decide +kernel
  obtain ⟨-, hhigh, hwaiting, hsuffix, hbounded, -⟩ := hends fun hnil => by
    rw [hnil] at hlen
    cases hlen
  unfold Log.head at hhigh
  rw [hlen] at hhigh
  exact ⟨by decide +kernel, by decide +kernel, n, r', hrun, hup, hhigh, hwaiting, hsuffix, hbounded⟩

end Repository

end Workflow
