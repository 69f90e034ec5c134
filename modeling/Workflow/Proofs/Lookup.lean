import Workflow.Proofs.Commit
import Workflow.Proofs.Single

/-!
# Looking states up

A lookup by revision finds the entry of that revision if it belongs to the state, a lookup of the
latest revision the newest entry of the state, and a lookup by labels the last of the newest entries
that carry them. The draft found expects the revision of its entry, so a commit on it is in conflict
exactly once the entry is no longer the newest of its state.
-/

set_option autoImplicit false

namespace Workflow

theorem State.carries_iff {s : State} {labels : Notes} :
    s.carries labels = true ↔
      ∀ name value, labels.get? name = some value → s.labels.get? name = some value := by
  unfold carries
  rw [List.all_eq_true]
  constructor
  · intro h name value hlabel
    exact beq_iff_eq.1 (h (name, value) (labels.get?_eq_some_iff.1 hlabel))
  · rintro h ⟨name, value⟩ hmem
    exact beq_iff_eq.2 (h name value (labels.get?_eq_some_iff.2 hmem))

namespace Log

/-- The entry is the one of its state with the greatest revision. -/
def Newest (l : Log) (e : State) : Prop :=
  e ∈ l.entries ∧ ∀ f ∈ l.entries, f.id = e.id → f.rev ≤ e.rev

instance (l : Log) (e : State) : Decidable (l.Newest e) :=
  inferInstanceAs (Decidable (_ ∧ ∀ f ∈ l.entries, f.id = e.id → f.rev ≤ e.rev))

/-- The newest entry of a state that carries the labels. -/
def Bears (l : Log) (labels : Notes) (e : State) : Prop :=
  l.Newest e ∧ ∀ name value, labels.get? name = some value → e.labels.get? name = some value

/-- The newest entries that carry the labels, in order. -/
def bearing (l : Log) (labels : Notes) : List State :=
  l.entries.filter fun e => l.Newest e && e.carries labels

theorem mem_bearing_iff {l : Log} {labels : Notes} {e : State} :
    e ∈ l.bearing labels ↔ l.Bears labels e := by
  rw [bearing, List.mem_filter, Bool.and_eq_true, decide_eq_true_iff, State.carries_iff]
  exact ⟨fun he => he.2, fun he => ⟨he.1.1, he⟩⟩

/-- Every entry belongs to a state with a name. -/
def Named (l : Log) : Prop := ∀ e ∈ l.entries, e.id.isEmpty = false

theorem getLast?_eq_some_iff_of_pairwise {entries : List State} {e : State}
    (hsorted : entries.Pairwise fun e f => e.rev < f.rev) :
    entries.getLast? = some e ↔ e ∈ entries ∧ ∀ f ∈ entries, f.rev ≤ e.rev := by
  constructor
  · intro hlast
    refine ⟨List.mem_of_getLast? hlast, fun f hf => ?_⟩
    obtain ⟨before, rfl⟩ := List.getLast?_eq_some_iff.1 hlast
    rcases List.mem_append.1 hf with hf | hf
    · exact Int.le_of_lt ((List.pairwise_append.1 hsorted).2.2 f hf e List.mem_cons_self)
    · exact Int.le_of_eq (congrArg State.rev (List.mem_singleton.1 hf))
  · rintro ⟨hmem, hmax⟩
    obtain ⟨before, after, rfl⟩ := List.append_of_mem hmem
    cases after with
    | nil => exact List.getLast?_concat
    | cons f after =>
      have hle := hmax f (by simp)
      have hlater := (List.pairwise_append.1 hsorted).2.1
      have hlt := (List.pairwise_cons.1 hlater).1 f List.mem_cons_self
      omega

section

variable {l : Log} (h : l.Sound)

include h

theorem Sound.get?_eq_some_iff {rev : Int} {e : State} :
    l.get? rev = some e ↔ e ∈ l.entries ∧ e.rev = rev := by
  unfold get?
  constructor
  · intro he
    split at he
    next hpos =>
      have hrev := h.numbered _ e he
      exact ⟨List.mem_of_getElem? he, by omega⟩
    next => cases he
  · rintro ⟨hmem, rfl⟩
    obtain ⟨p, hp⟩ := List.mem_iff_getElem?.1 hmem
    have hrev := h.numbered p e hp
    rw [if_pos (by omega), show (e.rev - 1).toNat = p by omega, hp]

theorem Sound.latest?_eq_some_iff_newest {id : StateId} {e : State} :
    l.latest? id = some e ↔ l.Newest e ∧ e.id = id := by
  rw [h.latest?_eq_some_iff]
  constructor
  · rintro ⟨hmem, rfl, hmax⟩
    exact ⟨⟨hmem, hmax⟩, rfl⟩
  · rintro ⟨⟨hmem, hmax⟩, rfl⟩
    exact ⟨hmem, rfl, hmax⟩

theorem Sound.newest_iff {e : State} (he : e ∈ l.entries) :
    l.Newest e ↔ l.latestRev e.id = e.rev := by
  constructor
  · intro hnewest
    have hlast : l.latest? e.id = some e := h.latest?_eq_some_iff_newest.2 ⟨hnewest, rfl⟩
    rw [latestRev, hlast, Option.elim_some]
  · intro hrev
    exact (h.latest?_eq_some_iff_newest.1 (h.latest?_of_rev_eq he hrev.symm)).1

theorem Sound.isLatest_eq {x : State × Nat} (hx : x ∈ l.entries.zipIdx) :
    l.isLatest x = decide (l.Newest x.1) := by
  obtain ⟨e, p⟩ := x
  have hp : l.entries[p]? = some e := List.mk_mem_zipIdx_iff_getElem?.1 hx
  have hrev := h.numbered p e hp
  rw [isLatest, Bool.eq_iff_iff, beq_iff_eq, decide_eq_true_iff, h.indexed]
  constructor
  · rintro ⟨-, hmax⟩
    refine ⟨List.mem_of_getElem? hp, fun f hf hid => ?_⟩
    obtain ⟨q, hq⟩ := List.mem_iff_getElem?.1 hf
    have hle := hmax q f hq hid
    have hfrev := h.numbered q f hq
    change f.rev ≤ e.rev
    omega
  · rintro ⟨-, hmax⟩
    refine ⟨⟨e, hp, rfl⟩, fun q f hq hid => ?_⟩
    have hle : f.rev ≤ e.rev := hmax f (List.mem_of_getElem? hq) hid
    have hfrev := h.numbered q f hq
    omega

/-! ### By revision -/

theorem Sound.ofState_eq {e : State} (he : e ∈ l.entries) : Draft.ofState e = ⟨e, e, []⟩ := by
  rw [Draft.ofState, if_pos (h.rev_of_mem he).1]

theorem Sound.found_eq_some_iff {id : StateId} {rev : Int} {e : State} :
    (if rev = 0 then l.latest? id else (l.get? rev).filter (·.id = id)) = some e ↔
      e.id = id ∧ if rev = 0 then l.Newest e else e ∈ l.entries ∧ e.rev = rev := by
  split
  next => rw [h.latest?_eq_some_iff_newest, and_comm]
  next =>
    rw [Option.filter_eq_some_iff, h.get?_eq_some_iff, decide_eq_true_iff, and_comm]

theorem Sound.find_eq_ok_iff {id : StateId} {rev : Int} {d : Draft} :
    l.find id rev = .ok d ↔
      ∃ e, (e.id = id ∧ if rev = 0 then l.Newest e else e ∈ l.entries ∧ e.rev = rev) ∧
        d = ⟨e, e, []⟩ := by
  have hmem {e : State} (he : if rev = 0 then l.Newest e else e ∈ l.entries ∧ e.rev = rev) :
      e ∈ l.entries := by
    split at he
    · exact he.1
    · exact he.1
  simp only [← h.found_eq_some_iff]
  unfold find
  generalize hfound : (if rev = 0 then l.latest? id else (l.get? rev).filter (·.id = id)) = found
  cases found with
  | none => simp
  | some e =>
    have he := h.ofState_eq (hmem (h.found_eq_some_iff.1 hfound).2)
    simp [he, eq_comm]

theorem Sound.find_eq_ok_iff_of_ne_zero {id : StateId} {rev : Int} {d : Draft} (hrev : rev ≠ 0) :
    l.find id rev = .ok d ↔ ∃ e ∈ l.entries, e.id = id ∧ e.rev = rev ∧ d = ⟨e, e, []⟩ := by
  rw [h.find_eq_ok_iff]
  refine exists_congr fun e => ?_
  rw [if_neg hrev]
  constructor
  · exact fun ⟨⟨hid, hmem, heq⟩, hd⟩ => ⟨hmem, hid, heq, hd⟩
  · exact fun ⟨hmem, hid, heq, hd⟩ => ⟨⟨hid, hmem, heq⟩, hd⟩

theorem Sound.find_zero_eq_ok_iff {id : StateId} {d : Draft} :
    l.find id 0 = .ok d ↔ ∃ e, l.Newest e ∧ e.id = id ∧ d = ⟨e, e, []⟩ := by
  rw [h.find_eq_ok_iff]
  refine exists_congr fun e => ?_
  rw [if_pos rfl, and_comm (a := e.id = id), and_assoc]

theorem Sound.found_eq_none_iff {id : StateId} {rev : Int} :
    (if rev = 0 then l.latest? id else (l.get? rev).filter (·.id = id)) = none ↔
      ∀ e ∈ l.entries, e.id = id → rev ≠ 0 ∧ e.rev ≠ rev := by
  split
  next hzero =>
    rw [h.latest?_eq_none_iff]
    exact forall₂_congr fun e he =>
      ⟨fun hne hid => absurd hid hne, fun hne hid => (hne hid).1 hzero⟩
  next hrev =>
    simp only [Option.eq_none_iff_forall_ne_some, Option.filter_eq_some_iff, ne_eq,
      h.get?_eq_some_iff, decide_eq_true_iff]
    constructor
    · exact fun hno e he hid => ⟨hrev, fun heq => hno e ⟨⟨he, heq⟩, hid⟩⟩
    · rintro hno e ⟨⟨he, heq⟩, hid⟩
      exact (hno e he hid).2 heq

theorem Sound.find_eq_error_iff {id : StateId} {rev : Int} {fault : Fault} :
    l.find id rev = .error fault ↔
      fault = .notFound (.state id rev) ∧ ∀ e ∈ l.entries, e.id = id → rev ≠ 0 ∧ e.rev ≠ rev := by
  rw [← h.found_eq_none_iff]
  unfold find
  generalize (if rev = 0 then l.latest? id else (l.get? rev).filter (·.id = id)) = found
  cases found <;> simp [eq_comm]

/-! ### By labels -/

theorem Sound.find?_reverse_zipIdx (labels : Notes) :
    (l.entries.zipIdx.reverse.find? fun e => l.isLatest e && e.1.carries labels).map Prod.fst =
      (l.bearing labels).getLast? := by
  have hfilter : l.entries.zipIdx.filter (fun e => l.isLatest e && e.1.carries labels) =
      l.entries.zipIdx.filter fun e => l.Newest e.1 && e.1.carries labels :=
    List.filter_congr fun x hx => by rw [h.isLatest_eq hx]
  have hfst : (l.entries.zipIdx.filter fun e => l.Newest e.1 && e.1.carries labels).map Prod.fst =
      l.bearing labels := by
    unfold bearing
    conv => rhs; rw [← List.zipIdx_map_fst 0 l.entries, List.filter_map]
    rfl
  rw [← List.head?_filter, List.filter_reverse, List.head?_reverse, hfilter, ← hfst,
    List.getLast?_map]

theorem Sound.findLabelled_eq (labels : Notes) :
    l.findLabelled labels =
      (l.bearing labels).getLast?.elim (.error (.notFound (.labelled labels))) fun e =>
        .ok ⟨e, e, []⟩ := by
  have hfst := h.find?_reverse_zipIdx labels
  unfold findLabelled
  cases hfound : l.entries.zipIdx.reverse.find? fun e => l.isLatest e && e.1.carries labels with
  | none =>
    rw [hfound, Option.map_none] at hfst
    rw [← hfst]
    rfl
  | some x =>
    rw [hfound, Option.map_some] at hfst
    have hmem := (mem_bearing_iff.1 (List.mem_of_getLast? hfst.symm)).1.1
    rw [← hfst, Option.elim_some, ← h.ofState_eq hmem]

theorem Sound.findLabelled_eq_ok_iff {labels : Notes} {d : Draft} :
    l.findLabelled labels = .ok d ↔
      ∃ e, (l.Bears labels e ∧ ∀ f, l.Bears labels f → f.rev ≤ e.rev) ∧ d = ⟨e, e, []⟩ := by
  have hlast (e : State) : (l.bearing labels).getLast? = some e ↔
      l.Bears labels e ∧ ∀ f, l.Bears labels f → f.rev ≤ e.rev := by
    have hsorted : (l.bearing labels).Pairwise fun e f => e.rev < f.rev := h.rev_lt.filter _
    rw [getLast?_eq_some_iff_of_pairwise hsorted]
    simp only [mem_bearing_iff]
  rw [h.findLabelled_eq]
  simp only [← hlast]
  cases (l.bearing labels).getLast? with
  | none => simp
  | some e => simp [eq_comm]

theorem Sound.findLabelled_eq_error_iff {labels : Notes} {fault : Fault} :
    l.findLabelled labels = .error fault ↔
      fault = .notFound (.labelled labels) ∧ ∀ e, ¬ l.Bears labels e := by
  have hnone : (l.bearing labels).getLast? = none ↔ ∀ e, ¬ l.Bears labels e := by
    rw [List.getLast?_eq_none_iff, List.eq_nil_iff_forall_not_mem]
    simp only [mem_bearing_iff]
  rw [h.findLabelled_eq, ← hnone]
  cases (l.bearing labels).getLast? with
  | none => simp [eq_comm]
  | some e => simp

end

end Log

namespace Store

open Command

/-! ### Names -/

theorem named_serve {s : Store} (hsound : s.log.Sound) (h : s.log.Named) (r : Request) :
    (s.serve r).log.Named := by
  rcases log_serve s r with hsame | ⟨now, parts, done, -, hcommit⟩
  · rw [hsame]
    exact h
  · obtain ⟨added, hentries, hids, -⟩ := exists_added_of_commit hsound hcommit
    intro e he
    rw [hentries] at he
    rcases List.mem_append.1 he with hold | hnew
    · exact h e hold
    · have htracked : e.id ∈ trackedIds parts := hids ▸ List.mem_map_of_mem hnew
      obtain ⟨c, hc, hid⟩ := mem_trackedIds_iff.1 htracked
      obtain ⟨d, hd, hdid⟩ := Option.map_eq_some_iff.1 (draftId?_of_trackedId? hid)
      have hvalid := ((exists_commit_ok_iff hsound).1 ⟨_, _, hcommit⟩).1.valid
      have hnamed := ((validateBundle_eq_ok_iff.1 hvalid).2 c hc).2
      rw [isAnonymous, hd, Option.any_some, hdid] at hnamed
      exact hnamed

theorem named_foldl_serve {s : Store} (hsound : s.log.Sound) (h : s.log.Named)
    (requests : List Request) : (requests.foldl serve s).log.Named := by
  induction requests generalizing s with
  | nil => exact h
  | cons r requests ih => exact ih (sound_serve hsound r) (named_serve hsound h r)

theorem named_run (requests : List Request) : (run requests).log.Named :=
  named_foldl_serve Log.sound_empty (s := empty) (fun _ he => nomatch he) requests

/-! ### Commits on what was found -/

section

variable {s : Store} (hsound : s.log.Sound) {e : State} (he : e ∈ s.log.entries) (now : Instant)

include hsound he

theorem conflict_on_iff_not_newest {parts : List Command} (hprepares : s.Prepares parts)
    (htracked : e.id ∈ trackedIds parts) (hfirst : firstDraft? e.id parts = some ⟨e, e, []⟩) :
    (∃ ids, s.commit now parts = .error (.conflict ids) ∧ e.id ∈ ids) ↔ ¬ s.log.Newest e := by
  have hexpected : expectedRev e.id parts = e.rev := by
    rw [expectedRev, hfirst]
    rfl
  have hstale : e.id ∈ s.stale parts ↔ ¬ s.log.Newest e := by
    rw [stale, List.mem_filter, decide_eq_true_iff, hexpected, hsound.newest_iff he,
      ← hsound.latestRev_eq]
    exact ⟨fun h heq => h.2 heq.symm, fun h => ⟨htracked, fun heq => h heq.symm⟩⟩
  rw [← hstale]
  constructor
  · rintro ⟨ids, hconflict, hmem⟩
    obtain ⟨-, rfl, -⟩ := (prepare_eq_conflict_iff hsound).1 (commit_eq_error_iff.1 hconflict)
    exact hmem
  · intro hmem
    refine ⟨s.stale parts, commit_eq_error_iff.2 ?_, hmem⟩
    exact (prepare_eq_conflict_iff hsound).2 ⟨hprepares, rfl, List.ne_nil_of_mem hmem⟩

theorem exists_commit_keep_iff (hnamed : s.log.Named) :
    (∃ done, s.commit now [.keep ⟨e, e, []⟩] = .ok done) ↔ s.log.Newest e := by
  have hcommit := commit_single (moves_keep ⟨e, e, []⟩) s now
  have hid : Draft.id ⟨e, e, []⟩ = e.id := rfl
  have hrev : Draft.expectedRev ⟨e, e, []⟩ = e.rev := rfl
  rw [hid, hrev, if_neg (by simp [hnamed e he])] at hcommit
  rw [hcommit, hsound.newest_iff he]
  constructor
  · rintro ⟨done, hdone⟩
    split at hdone
    next heq => exact heq.symm
    next => cases hdone
  · intro heq
    exact ⟨_, if_pos heq.symm⟩

end

/-- In every log that a run reaches, lookups find exactly what there is: by revision the entry of
that revision of the state, without one the newest entry of the state, by labels the last of the
newest entries that carry them. What was found can be committed exactly while it is the newest entry
of its state. -/
theorem lookups_are_exact (requests : List Request) :
    let l := (run requests).log
    (∀ id rev d, rev ≠ 0 →
      (l.find id rev = .ok d ↔ ∃ e ∈ l.entries, e.id = id ∧ e.rev = rev ∧ d = ⟨e, e, []⟩)) ∧
    (∀ id d, l.find id 0 = .ok d ↔ ∃ e, l.Newest e ∧ e.id = id ∧ d = ⟨e, e, []⟩) ∧
    (∀ id rev fault, l.find id rev = .error fault ↔
      fault = .notFound (.state id rev) ∧
        ∀ e ∈ l.entries, e.id = id → rev ≠ 0 ∧ e.rev ≠ rev) ∧
    (∀ labels d, l.findLabelled labels = .ok d ↔
      ∃ e, l.Bears labels e ∧ (∀ f, l.Bears labels f → f.rev ≤ e.rev) ∧ d = ⟨e, e, []⟩) ∧
    (∀ labels fault, l.findLabelled labels = .error fault ↔
      fault = .notFound (.labelled labels) ∧ ∀ e, ¬ l.Bears labels e) ∧
    ∀ e ∈ l.entries, ∀ more now,
      let t := run (requests ++ more)
      ((∃ done, t.commit now [.keep ⟨e, e, []⟩] = .ok done) ↔ t.log.Newest e) ∧
      ∀ parts, t.Prepares parts → e.id ∈ trackedIds parts →
        firstDraft? e.id parts = some ⟨e, e, []⟩ →
        ((∃ ids, t.commit now parts = .error (.conflict ids) ∧ e.id ∈ ids) ↔
          ¬ t.log.Newest e) := by
  intro l
  have hsound : l.Sound := sound_run requests
  refine ⟨fun id rev d hrev => hsound.find_eq_ok_iff_of_ne_zero hrev,
    fun id d => hsound.find_zero_eq_ok_iff, fun id rev fault => hsound.find_eq_error_iff,
    fun labels d => ?labelled, fun labels fault => hsound.findLabelled_eq_error_iff, ?commits⟩
  case labelled =>
    rw [hsound.findLabelled_eq_ok_iff]
    simp only [and_assoc]
  case commits =>
    intro e he more now t
    have ht : t.log.Sound := sound_run (requests ++ more)
    have hmem : e ∈ t.log.entries := (prefix_run requests more).subset he
    refine ⟨exists_commit_keep_iff ht hmem now (named_run (requests ++ more)), ?_⟩
    intro parts hprepares htracked hfirst
    exact conflict_on_iff_not_newest ht hmem now hprepares htracked hfirst

example :
    let old : State := (State.new ⟨"a"⟩).label "kind" "x"
    let bare : State := { State.new ⟨"a"⟩ with rev := 1 }
    let s := run [.commit default [.keep (.ofState old)], .commit default [.keep (.ofState bare)]]
    s.log.entries.length = 2 ∧ s.log.findLabelled (SortedMap.ofList [("kind", "x")]) =
      .error (.notFound (.labelled (SortedMap.ofList [("kind", "x")]))) := by
  decide +kernel

end Store

end Workflow
