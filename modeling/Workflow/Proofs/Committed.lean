import Mathlib.Data.List.Nodup
import Workflow.Proofs.Outcome
import Workflow.Repository

/-!
# What a commit hands back

The tracked parts of a bundle come back with drafts that are settled as the entries that the commit
added. So what a cache learns from the bundle are exactly these entries, in the order of the log.
-/

set_option autoImplicit false

namespace Workflow

open Command

/-! ### In the order of the log -/

namespace Ring

theorem mem_placeByRev {s x : State} {l : List State} (h : x ∈ placeByRev s l) : x = s ∨ x ∈ l := by
  induction l with
  | nil => exact .inl (List.mem_singleton.1 h)
  | cons t rest ih =>
    unfold placeByRev at h
    split at h
    · exact List.mem_cons.1 h
    · split at h
      · exact .inr h
      · rcases List.mem_cons.1 h with rfl | h
        · exact .inr List.mem_cons_self
        · exact (ih h).imp_right (List.mem_cons_of_mem _)

theorem exists_rev_placeByRev {s x : State} {l : List State} (h : x = s ∨ x ∈ l) :
    ∃ y ∈ placeByRev s l, y.rev = x.rev := by
  induction l with
  | nil => exact ⟨s, List.mem_cons_self, by rw [h.resolve_right List.not_mem_nil]⟩
  | cons t rest ih =>
    unfold placeByRev
    split
    · exact ⟨x, List.mem_cons.2 h, rfl⟩
    · split
      next heq =>
        rcases h with rfl | h
        · exact ⟨t, List.mem_cons_self, heq.symm⟩
        · exact ⟨x, h, rfl⟩
      next =>
        by_cases hx : x = t
        · exact ⟨t, List.mem_cons_self, by rw [hx]⟩
        · have hrest : x = s ∨ x ∈ rest :=
            h.imp_right fun hmem => (List.mem_cons.1 hmem).resolve_left hx
          obtain ⟨y, hy, hrev⟩ := ih hrest
          exact ⟨y, List.mem_cons_of_mem _ hy, hrev⟩

theorem pairwise_placeByRev {s : State} {l : List State}
    (h : l.Pairwise fun a b => a.rev < b.rev) :
    (placeByRev s l).Pairwise fun a b => a.rev < b.rev := by
  induction l with
  | nil => exact List.pairwise_singleton _ _
  | cons t rest ih =>
    obtain ⟨hfirst, hrest⟩ := List.pairwise_cons.1 h
    unfold placeByRev
    split
    next hlt =>
      refine List.pairwise_cons.2 ⟨fun x hx => ?_, h⟩
      rcases List.mem_cons.1 hx with rfl | hx
      · exact hlt
      · exact Int.lt_trans hlt (hfirst x hx)
    next hge =>
      split
      next => exact h
      next hne =>
        refine List.pairwise_cons.2 ⟨fun x hx => ?_, ih hrest⟩
        rcases mem_placeByRev hx with rfl | hx
        · omega
        · exact hfirst x hx

theorem placed_spec (states : List State) :
    let placed := states.foldl (fun l s => placeByRev s l) []
    placed.Pairwise (fun a b => a.rev < b.rev) ∧ (∀ x ∈ placed, x ∈ states) ∧
      ∀ x ∈ states, ∃ y ∈ placed, y.rev = x.rev := by
  induction states using List.reverseRecOn with
  | nil => exact ⟨List.Pairwise.nil, fun _ hx => hx, fun _ hx => absurd hx List.not_mem_nil⟩
  | append_singleton states s ih =>
    obtain ⟨hsorted, hsub, hall⟩ := ih
    simp only [List.foldl_append, List.foldl_cons, List.foldl_nil]
    refine ⟨pairwise_placeByRev hsorted, fun x hx => ?_, fun x hx => ?_⟩
    · rcases mem_placeByRev hx with rfl | hx
      · simp
      · exact List.mem_append_left _ (hsub x hx)
    · rcases List.mem_append.1 hx with hx | hx
      · obtain ⟨y, hy, hrev⟩ := hall x hx
        obtain ⟨z, hz, hrev'⟩ := exists_rev_placeByRev (s := s) (.inr hy)
        exact ⟨z, hz, hrev'.trans hrev⟩
      · exact exists_rev_placeByRev (.inl (List.mem_singleton.1 hx))

theorem placed_eq {states sorted : List State} (hsorted : sorted.Pairwise fun a b => a.rev < b.rev)
    (hmem : ∀ x, x ∈ states ↔ x ∈ sorted) :
    states.foldl (fun l s => placeByRev s l) [] = sorted := by
  obtain ⟨hplaced, hsub, hall⟩ := placed_spec states
  have hne {a b : State} (hlt : a.rev < b.rev) : a.rev ≠ b.rev := Int.ne_of_lt hlt
  have hrevs : (sorted.map State.rev).Nodup := by
    rw [List.nodup_iff_pairwise_ne, List.pairwise_map]
    exact hsorted.imp hne
  have hnodup {l : List State} (hl : l.Pairwise fun a b => a.rev < b.rev) : l.Nodup :=
    hl.imp fun hlt heq => hne hlt (congrArg State.rev heq)
  have hperm : (states.foldl (fun l s => placeByRev s l) []).Perm sorted := by
    rw [List.perm_ext_iff_of_nodup (hnodup hplaced) (hnodup hsorted)]
    intro x
    refine ⟨fun hx => (hmem x).1 (hsub x hx), fun hx => ?_⟩
    obtain ⟨y, hy, hrev⟩ := hall x ((hmem x).2 hx)
    obtain rfl : y = x := List.inj_on_of_nodup_map hrevs ((hmem y).1 (hsub y hy)) hx hrev
    exact hy
  refine hperm.eq_of_pairwise (fun a b _ _ hab hba => ?_) hplaced hsorted
  exact absurd (Int.lt_trans hab hba) (Int.lt_irrefl _)

end Ring

namespace Store

section

variable {s stored : Store} (hsound : s.log.Sound) {now : Instant} {parts done : List Command}
  (h : s.commit now parts = .ok (stored, done))

include hsound h

theorem committed_of_done :
    (∀ c ∈ done, ∀ d, c.isTracked = true → c.draft? = some d →
      d.committed ∈ stored.log.entries ∧ s.log.head < d.committed.rev) ∧
    ∀ id ∈ trackedIds parts, ∃ c ∈ done, ∃ d, c.isTracked = true ∧ c.draft? = some d ∧
      d.committed.id = id ∧ d.committed ∈ stored.log.entries ∧ s.log.head < d.committed.rev := by
  have hstored := sound_of_commit hsound h
  constructor
  · intro c hc d htracked hd
    obtain ⟨e, he, hnew, rfl⟩ := settled_of_commit hsound h hc htracked hd
    exact ⟨(hstored.latest?_eq_some_iff.1 he).1, hnew⟩
  · intro id hid
    obtain ⟨c, hc, hcid⟩ := mem_trackedIds_iff.1 hid
    obtain ⟨back, hback, hname, hkept⟩ := exists_of_mem_right (kinds_of_commit hsound h).flip hc
    have hbackid : back.trackedId? = some id := by
      rw [← hcid]
      exact trackedId?_congr hname hkept
    unfold trackedId? at hbackid
    split at hbackid
    next htracked =>
      obtain ⟨d, hd, rfl⟩ := Option.map_eq_some_iff.1 hbackid
      obtain ⟨e, he, hnew, rfl⟩ := settled_of_commit hsound h hback htracked hd
      exact ⟨back, hback, _, htracked, hd, rfl, (hstored.latest?_eq_some_iff.1 he).1, hnew⟩
    next => cases hbackid

theorem entries_of_commit : stored.log.entries = s.log.entries ++ Ring.committed done := by
  obtain ⟨added, hentries, hids, -⟩ := exists_added_of_commit hsound h
  obtain ⟨honly, hall⟩ := committed_of_done hsound h
  have hstored := sound_of_commit hsound h
  have hadded : added.Pairwise fun a b => a.rev < b.rev := by
    have hsorted := hstored.rev_lt
    rw [hentries] at hsorted
    exact (List.pairwise_append.1 hsorted).2.1
  have hcommitted : Ring.committed done = added := by
    refine Ring.placed_eq hadded fun x => ?_
    rw [List.mem_filter, List.mem_map]
    constructor
    · rintro ⟨⟨d, hd, rfl⟩, -⟩
      obtain ⟨c, hc, hcd⟩ := List.mem_filterMap.1 hd
      obtain ⟨hc, hct⟩ := List.mem_filter.1 hc
      obtain ⟨hin, hlt⟩ := honly c hc d hct hcd
      exact mem_added_of_lt hsound hentries hin hlt
    · intro hx
      obtain ⟨c, hc, d, hct, hcd, hkeep, hin, hlt⟩ :=
        hall x.id (hids ▸ List.mem_map_of_mem hx)
      have hnodup := nodup_trackedIds parts
      rw [← hids] at hnodup
      obtain rfl : d.committed = x := List.inj_on_of_nodup_map hnodup
        (mem_added_of_lt hsound hentries hin hlt) hx hkeep
      exact ⟨⟨d, List.mem_filterMap.2 ⟨c, List.mem_filter.2 ⟨hc, hct⟩, hcd⟩, rfl⟩,
        decide_eq_true (hstored.rev_of_mem hin).1⟩
  rw [hcommitted, hentries]

end

end Store

end Workflow
