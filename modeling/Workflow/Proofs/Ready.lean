import Workflow.Proofs.Continuing
import Workflow.Proofs.Group
import Workflow.Proofs.Lookup
import Workflow.Proofs.Outcome

/-!
# Going on from a committed bundle

A committed bundle is ready to be gone on with. All its parts on one state have one draft, that of
the latest entry of the state if it is tracked, and these are the drafts that the bundle continues.
So who goes on with them is in no conflict with what was just committed.
-/

set_option autoImplicit false

namespace Workflow

namespace Store

open Command

/-! ### Keeping states -/

section

variable {s : Store} {drafts : List Draft}

theorem replay_keep (s : Store) (d : Draft) (drafts : List Draft) :
    s.replay d (drafts.map keep) = .ok d := by
  induction drafts generalizing d with
  | nil => rfl
  | cons _ rest ih => exact ih d

theorem prepares_keep (hne : drafts ≠ []) (hnamed : ∀ d ∈ drafts, d.id.isEmpty = false) :
    s.Prepares (drafts.map keep) where
  valid := by
    refine validateBundle_eq_ok_iff.2 ⟨by simpa using hne, fun c hc => ?_⟩
    obtain ⟨d, hd, rfl⟩ := List.mem_map.1 hc
    exact ⟨rfl, hnamed d hd⟩
  answered := by
    intro c hc
    obtain ⟨d, -, rfl⟩ := List.mem_map.1 hc
    trivial
  applied := by
    intro id first _
    rw [onState, List.filter_map]
    exact ⟨first, replay_keep s first _⟩

theorem stale_keep (hsound : s.log.Sound)
    (hlatest : ∀ d ∈ drafts, d.expectedRev = s.log.latestRev d.id) :
    s.stale (drafts.map keep) = [] := by
  refine stale_eq_nil_iff.2 fun id hid => ?_
  obtain ⟨first, hfirst, rfl⟩ := exists_firstDraft hid
  have hmem : first ∈ drafts := by
    obtain ⟨c, hfind, hc⟩ := Option.bind_eq_some_iff.1 hfirst
    obtain ⟨d, hd, rfl⟩ := List.mem_map.1 (List.mem_of_find?_eq_some hfind)
    cases hc
    exact hd
  rw [expectedRev, hfirst, Option.elim_some, hlatest first hmem, hsound.latestRev_eq]

theorem commit_keep (hsound : s.log.Sound) (hnamed : ∀ d ∈ drafts, d.id.isEmpty = false)
    (hlatest : ∀ d ∈ drafts, d.expectedRev = s.log.latestRev d.id) (now : Instant) :
    (∀ ids, s.commit now (drafts.map keep) ≠ .error (.conflict ids)) ∧
      (drafts ≠ [] → ∃ kept done, s.commit now (drafts.map keep) = .ok (kept, done)) := by
  have hstale := stale_keep hsound hlatest
  constructor
  · intro ids hconflict
    obtain ⟨-, hids, hne⟩ := (prepare_eq_conflict_iff hsound).1 (commit_eq_error_iff.1 hconflict)
    exact hne (hids.trans hstale)
  · intro hne
    exact (exists_commit_ok_iff hsound).2 ⟨prepares_keep hne hnamed, hstale⟩

end

/-! ### One draft for each state -/

section

variable {s stored : Store} (hsound : s.log.Sound) {now : Instant} {parts done : List Command}
  (h : s.commit now parts = .ok (stored, done))

include hsound h

theorem exists_shared_of_commit {c : Command} (hc : c ∈ parts) {id : StateId}
    (hworks : c.worksOn id = true) :
    ∃ d, d.id = id ∧ (∀ back ∈ done, back.draftId? = some id → back.draft? = some d) ∧
      (id ∈ trackedIds parts → ∃ e, stored.log.latest? id = some e ∧ d = ⟨e, e, []⟩) := by
  have hstored := sound_of_commit hsound h
  obtain ⟨-, own, hown, rfl⟩ := worksOn_iff.1 hworks
  have hfirst : firstDraft? own.id parts ≠ none := by
    rw [ne_eq, firstDraft?_eq_none_iff]
    exact List.ne_nil_of_mem (List.mem_filter.2 ⟨hc, hworks⟩)
  obtain ⟨d, houtcome⟩ := exists_outcome_of_part hsound h hc hown
  refine ⟨d, houtcome.id_eq hstored, fun back hback hid => ?_, fun htracked => ?_⟩
  · obtain ⟨d', hd', hid'⟩ := Option.map_eq_some_iff.1 hid
    obtain ⟨c', -, own', -, houtcome'⟩ := exists_outcome_of_back hsound h hback hd'
    have hsame : own'.id = own.id := (houtcome'.id_eq hstored).symm.trans hid'
    rw [hd', houtcome.unique houtcome' hsame hfirst]
  · obtain ⟨e, he, -, rfl⟩ := houtcome.of_tracked htracked
    exact ⟨e, he, rfl⟩

theorem back_of_continuation {d : Draft} (hd : d ∈ (bundle done).continuations) {back : Command}
    (hback : back ∈ done) (hid : back.draftId? = some d.id) : back.draft? = some d := by
  obtain ⟨hids, hentries⟩ := continuations_of_commit hsound h
  obtain ⟨e, he, hde⟩ := hentries d hd
  obtain ⟨c, hc, hcontinued⟩ : ∃ c ∈ parts, c.continuedId? = some d.id := by
    rw [← List.mem_filterMap, ← List.mem_eraseDups, ← hids]
    exact List.mem_map_of_mem hd
  have htracked := trackedId?_of_continuedId? hcontinued
  obtain ⟨shared, -, hall, hlast⟩ :=
    exists_shared_of_commit hsound h hc (worksOn_of_trackedId? htracked)
  obtain ⟨e', he', rfl⟩ := hlast (mem_trackedIds_iff.2 ⟨c, hc, htracked⟩)
  rw [he] at he'
  cases he'
  rw [hall back hback hid, hde]

theorem commit_continuations (hnamed : s.log.Named) {between : List Request}
    (hspared : ∀ r ∈ between, ∀ d ∈ (bundle done).continuations, r.Spares d.id) (later : Instant) :
    let next := (bundle done).continuations
    let t := between.foldl serve stored
    (∀ ids, t.commit later (next.map keep) ≠ .error (.conflict ids)) ∧
      (next ≠ [] → ∃ kept again, t.commit later (next.map keep) = .ok (kept, again)) := by
  intro next t
  have hstored := sound_of_commit hsound h
  have hlatest (d : Draft) (hd : d ∈ next) : ∃ e, t.log.latest? d.id = some e ∧ d = ⟨e, e, []⟩ := by
    obtain ⟨e, he, hde⟩ := (continuations_of_commit hsound h).2 d hd
    refine ⟨e, ?_, hde⟩
    rw [latest?_foldl_serve (fun r hr => hspared r hr d hd) hstored, he]
  have htsound : t.log.Sound := sound_foldl_serve hstored between
  have htnamed : t.log.Named :=
    named_foldl_serve hstored (serve_commit_of_ok h ▸ named_serve hsound hnamed _) between
  refine commit_keep htsound (fun d hd => ?_) (fun d hd => ?_) later
  · obtain ⟨e, he, hde⟩ := hlatest d hd
    obtain ⟨hmem, hid, -⟩ := htsound.latest?_eq_some_iff.1 he
    exact hid ▸ htnamed e hmem
  · obtain ⟨e, he, hde⟩ := hlatest d hd
    rw [Log.latestRev, he, Option.elim_some, hde]
    rfl

end

/-- In every state that a run reaches, a bundle that commits is ready to be gone on with. Its parts
come back as they stood; all those on a state that one of them works on have one draft, which is the
latest entry of the state if that is tracked. The bundle continues each state once that one of its
parts continues, in the order of these parts, with that draft. As long as nobody else commits one of
the states that it continues, keeping all of them in one bundle is not in conflict. -/
theorem committed_bundle_is_ready (requests : List Request) (now : Instant)
    (parts done : List Command) (stored : Store)
    (h : (run requests).commit now parts = .ok (stored, done)) :
    let next := (bundle done).continuations
    List.Forall₂ (fun c back => back.name = c.name ∧ back.draftId? = c.draftId?) parts done ∧
    (∀ id, (∃ c ∈ parts, c.worksOn id = true) → ∃ d, d.id = id ∧
      (∀ back ∈ done, back.draftId? = some id → back.draft? = some d) ∧
      (id ∈ trackedIds parts → ∃ e, stored.log.latest? id = some e ∧ d = ⟨e, e, []⟩)) ∧
    next.map Draft.id = (parts.filterMap continuedId?).eraseDups ∧ (next.map Draft.id).Nodup ∧
    (∀ d ∈ next, ∀ back ∈ done, back.draftId? = some d.id → back.draft? = some d) ∧
    ∀ between : List Request, (∀ r ∈ between, ∀ d ∈ next, r.Spares d.id) → ∀ later,
      let t := between.foldl serve stored
      (∀ ids, t.commit later (next.map keep) ≠ .error (.conflict ids)) ∧
      (next ≠ [] → ∃ kept again, t.commit later (next.map keep) = .ok (kept, again)) := by
  intro next
  have hsound := sound_run requests
  have hids := (continuations_of_commit hsound h).1
  refine ⟨kinds_of_commit hsound h, ?shared, hids, ?nodup, ?continued, ?kept⟩
  case shared =>
    rintro id ⟨c, hc, hworks⟩
    exact exists_shared_of_commit hsound h hc hworks
  case nodup =>
    rw [hids]
    exact nodup_eraseDups _
  case continued => exact fun d hd back hback hid => back_of_continuation hsound h hd hback hid
  case kept =>
    exact fun between hspared later =>
      commit_continuations hsound h (named_run requests) hspared later

/-- A state moves on and is resumed beside one that is kept, with a delay before all; a blob is
stored in between. -/
theorem committed_bundle_is_ready_of_two :
    let a : Draft := .ofState (.new ⟨"a"⟩)
    let b : Draft := .ofState (.new ⟨"b"⟩)
    let parts : List Command := [.delay ⟨a, none, .ofSecs 50, none, true, ∅, none⟩,
      .transit a ⟨"x"⟩ ∅, .keep b, .resume (a.annotate "late" "yes") none ∅]
    ∃ stored done, (run []).commit default parts = .ok (stored, done) ∧
      (bundle done).continuations.map Draft.id = [⟨"a"⟩, ⟨"b"⟩] ∧
      (∃ e, stored.log.latest? ⟨"a"⟩ = some e ∧
        ∀ back ∈ done, back.draftId? = some ⟨"a"⟩ → back.draft? = some ⟨e, e, []⟩) ∧
      ∃ kept again, (stored.serve (.storeBlob default)).commit default
        ((bundle done).continuations.map keep) = .ok (kept, again) := by
  intro a b parts
  have hrun : ((run []).commit default parts).map (fun _ => ()) = .ok () := by
    simp only [parts, a, b]
    rfl
  obtain ⟨⟨stored, done⟩, hcommit, -⟩ := Fault.map_eq_ok_iff.1 hrun
  obtain ⟨-, hshared, hids, -, -, hkept⟩ :=
    committed_bundle_is_ready [] default parts done stored hcommit
  have hab : (parts.filterMap continuedId?).eraseDups = [⟨"a"⟩, ⟨"b"⟩] := by
    simp only [parts, a, b]
    rfl
  obtain ⟨d, -, hall, hlast⟩ := hshared ⟨"a"⟩ ⟨.transit a ⟨"x"⟩ ∅, by simp [parts], rfl⟩
  obtain ⟨e, he, rfl⟩ := hlast (by simp only [parts, a, b]; decide)
  refine ⟨stored, done, hcommit, hids.trans hab, ⟨e, he, hall⟩, ?_⟩
  refine (hkept [.storeBlob default] ?_ default).2 fun hnone => ?_
  · simp [Request.Spares]
  · rw [hab, hnone] at hids
    cases hids

end Store

end Workflow
