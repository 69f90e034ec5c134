import Workflow.Proofs.Commit

/-!
# No update is lost

Of all commits of a run, an entry of a state comes from one that expected the revision of the entry
of the state before it. Revisions of a state never come back, so only one commit can succeed on a
revision; all later ones that expect it fail with a conflict.
-/

set_option autoImplicit false

namespace Workflow

namespace Store

open Command

theorem expectedRev_of_added {s stored : Store} (hsound : s.log.Sound) {now : Instant}
    {parts done : List Command} (h : s.commit now parts = .ok (stored, done)) {p : Nat} {e : State}
    (hnew : s.log.entries.length ≤ p) (he : stored.log.entries[p]? = some e) :
    e.id ∈ trackedIds parts ∧
      expectedRev e.id parts = Log.lastRev (stored.log.entries.take p) e.id := by
  obtain ⟨added, hentries, hids, -⟩ := exists_added_of_commit hsound h
  have hstale := ((exists_commit_ok_iff hsound).1 ⟨stored, done, h⟩).2
  obtain ⟨k, rfl⟩ := Nat.exists_eq_add_of_le hnew
  rw [hentries, List.getElem?_append_right hnew, Nat.add_sub_cancel_left] at he
  have hid : (trackedIds parts)[k]? = some e.id := by
    rw [← hids, List.getElem?_map, he]
    rfl
  have htracked := List.mem_of_getElem? hid
  refine ⟨htracked, ?_⟩
  have hnone : e.id ∉ (added.take k).map State.id := by
    rw [List.map_take, hids]
    intro hmem
    obtain ⟨j, hj⟩ := List.mem_iff_getElem?.1 hmem
    rw [List.getElem?_take] at hj
    split at hj
    next hjk =>
      have hlt := (List.getElem?_eq_some_iff.1 hj).1
      have heq := (List.getElem?_inj hlt (nodup_trackedIds parts)).1 (hj.trans hid.symm)
      omega
    next => cases hj
  rw [hentries, List.take_append, List.take_of_length_le hnew, Nat.add_sub_cancel_left,
    Log.lastRev_append_of_notMem s.log.entries hnone]
  exact stale_eq_nil_iff.1 hstale e.id htracked

/-! ### Commits of a run -/

/-- The call at a position of a run is a commit of a bundle, and it succeeds. -/
def Commits (requests : List Request) (i : Nat) (parts : List Command) : Prop :=
  ∃ now stored done, requests[i]? = some (.commit now parts) ∧
    (run (requests.take i)).commit now parts = .ok (stored, done)

theorem run_take_succ {requests : List Request} {i : Nat} {r : Request}
    (h : requests[i]? = some r) :
    run (requests.take (i + 1)) = (run (requests.take i)).serve r := by
  rw [List.take_add_one, h, Option.toList_some, run_append_singleton]

theorem Commits.lt {requests : List Request} {i : Nat} {parts : List Command}
    (h : Commits requests i parts) : i < requests.length := by
  obtain ⟨now, stored, done, hi, -⟩ := h
  exact (List.getElem?_eq_some_iff.1 hi).1

theorem Commits.append {requests : List Request} {i : Nat} {parts : List Command}
    (h : Commits requests i parts) (more : List Request) :
    Commits (requests ++ more) i parts := by
  have hlt := h.lt
  obtain ⟨now, stored, done, hi, hok⟩ := h
  refine ⟨now, stored, done, ?_, ?_⟩
  · rw [List.getElem?_append_left hlt, hi]
  · rw [List.take_append_of_le_length (Nat.le_of_lt hlt), hok]

/-- Every entry was added by a commit that expected the revision of the entry before. -/
theorem exists_commits_of_entry {requests : List Request} {p : Nat} {e : State}
    (he : (run requests).log.entries[p]? = some e) :
    ∃ i parts, Commits requests i parts ∧
      (run (requests.take i)).log.entries.length ≤ p ∧
      (run (requests.take (i + 1))).log.entries[p]? = some e ∧
      e.id ∈ trackedIds parts ∧
      expectedRev e.id parts = Log.lastRev ((run requests).log.entries.take p) e.id := by
  induction requests using List.reverseRecOn with
  | nil => cases he
  | append_singleton requests r ih =>
    obtain ⟨added, hadded⟩ := prefix_run requests [r]
    by_cases hold : p < (run requests).log.entries.length
    · rw [← hadded, List.getElem?_append_left hold] at he
      obtain ⟨i, parts, hcommits, hbefore, hafter, htracked, hrev⟩ := ih he
      have hlt := hcommits.lt
      refine ⟨i, parts, hcommits.append [r], ?_, ?_, htracked, ?_⟩
      · rw [List.take_append_of_le_length (Nat.le_of_lt hlt)]
        exact hbefore
      · rw [List.take_append_of_le_length hlt]
        exact hafter
      · rw [← hadded, List.take_append_of_le_length (Nat.le_of_lt hold)]
        exact hrev
    · have hnew := Nat.le_of_not_lt hold
      rw [run_append_singleton] at he ⊢
      rcases log_serve (run requests) r with hsame | ⟨now, parts, done, rfl, hok⟩
      · rw [hsame, List.getElem?_eq_none hnew] at he
        cases he
      · have hat : (requests ++ [Request.commit now parts])[requests.length]? =
            some (.commit now parts) := List.getElem?_concat_length
        have hstep := run_take_succ hat
        rw [List.take_left] at hstep
        obtain ⟨htracked, hrev⟩ := expectedRev_of_added (sound_run requests) hok hnew he
        have hcommits : Commits (requests ++ [.commit now parts]) requests.length parts := by
          refine ⟨now, (run requests).serve (.commit now parts), done, hat, ?_⟩
          rw [List.take_left]
          exact hok
        refine ⟨requests.length, parts, hcommits, ?_, ?_, htracked, hrev⟩
        · rw [List.take_left]
          exact hnew
        · rw [hstep]
          exact he

theorem expectedRev_lt_of_commits {requests : List Request} {i j : Nat} {parts : List Command}
    (h : Commits requests i parts) (hij : i < j) {id : StateId} (hid : id ∈ trackedIds parts) :
    expectedRev id parts < Log.lastRev (run (requests.take j)).log.entries id := by
  obtain ⟨now, stored, done, hi, hok⟩ := h
  have hsound := sound_run (requests.take i)
  have hstale := stale_eq_nil_iff.1 ((exists_commit_ok_iff hsound).1 ⟨stored, done, hok⟩).2
  obtain ⟨added, hentries, hids, -⟩ := exists_added_of_commit hsound hok
  have hstored : run (requests.take (i + 1)) = stored :=
    (run_take_succ hi).trans (serve_commit_of_ok hok)
  have hlater :
      (run (requests.take (i + 1))).log.entries <+: (run (requests.take j)).log.entries := by
    obtain ⟨more, hmore⟩ := List.take_prefix_take_left (l := requests) (show i + 1 ≤ j from hij)
    rw [← hmore]
    exact prefix_run _ more
  calc expectedRev id parts = Log.lastRev (run (requests.take i)).log.entries id := hstale id hid
    _ < Log.lastRev stored.log.entries id := by
      have hsound' := hstored ▸ sound_run (requests.take (i + 1))
      exact hsound'.lastRev_lt hentries (hids ▸ hid)
    _ ≤ Log.lastRev (run (requests.take j)).log.entries id := by
      rw [← hstored]
      exact (sound_run (requests.take j)).lastRev_mono hlater id

/-- Every entry of a run was added by a commit that expected the revision of the entry before of the
same state, or `0` if there is none. Of all commits that track a state with the same expected
revision only one succeeds; each later one fails, with a conflict on that state if it prepares. -/
theorem no_update_is_lost (requests : List Request) :
    (∀ (p : Nat) (e : State), (run requests).log.entries[p]? = some e →
      ∃ i parts, Commits requests i parts ∧
        (run (requests.take i)).log.entries.length ≤ p ∧
        (run (requests.take (i + 1))).log.entries[p]? = some e ∧
        e.id ∈ trackedIds parts ∧
        expectedRev e.id parts = Log.lastRev ((run requests).log.entries.take p) e.id) ∧
    ∀ (i j : Nat) (parts later : List Command) (now : Instant) (id : StateId), i < j →
      Commits requests i parts → requests[j]? = some (.commit now later) →
      id ∈ trackedIds parts → id ∈ trackedIds later →
      expectedRev id later = expectedRev id parts →
      ¬ Commits requests j later ∧
        ((run (requests.take j)).Prepares later → ∃ ids,
          (run (requests.take j)).commit now later = .error (.conflict ids) ∧ id ∈ ids) := by
  refine ⟨fun p e he => exists_commits_of_entry he, ?_⟩
  intro i j parts later now id hij hcommits hj hid hid' hsame
  have hsound := sound_run (requests.take j)
  have hpast := expectedRev_lt_of_commits hcommits hij hid
  have hstale : id ∈ (run (requests.take j)).stale later := by
    rw [stale, List.mem_filter]
    exact ⟨hid', decide_eq_true (by omega)⟩
  have hne := List.ne_nil_of_mem hstale
  constructor
  · rintro ⟨now', stored, done, -, hok⟩
    exact hne ((exists_commit_ok_iff hsound).1 ⟨stored, done, hok⟩).2
  · intro hprepares
    refine ⟨_, commit_eq_error_iff.2 ?_, hstale⟩
    exact (prepare_eq_conflict_iff hsound).2 ⟨hprepares, rfl, hne⟩

example :
    let a : Command := .keep (.ofState (.new ⟨"a"⟩))
    (run [.commit default [a]]).commit default [a] = .error (.conflict [⟨"a"⟩]) := rfl

end Store

end Workflow
