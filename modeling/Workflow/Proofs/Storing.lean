import Workflow.Proofs.Access
import Workflow.Proofs.Splitting

/-!
# Storing blobs

A revision of a blob is given out at once, or while a bundle is staged and nothing of it is stored
yet. Either way it is the place that the blob then gets among the revisions of its identity, and
nothing that is stored changes or moves afterwards.
-/

set_option autoImplicit false

namespace Workflow

/-- A blob comes back with its content, under its own identity or, without one, a generated one. -/
structure Blob.StoredAs (asked back : Blob) : Prop where
  bytes : back.bytes = asked.bytes
  binary : back.binary = asked.binary
  kept : asked.id.isEmpty = false → back.id = asked.id
  fresh : asked.id.isEmpty = true → ∃ n, back.id = .generated n

namespace Command

/-- The blob of a command that stores one. -/
def toStore? : Command → Option Blob
  | storeBlob blob => some blob
  | _ => none

theorem toStore?_eq_some_iff {c : Command} {blob : Blob} :
    c.toStore? = some blob ↔ c = .storeBlob blob := by
  cases c <;> simp [toStore?]

/-- A part that stores a blob comes back with it as it was stored. -/
def HandsBack (c back : Command) : Prop :=
  ∀ blob, c.toStore? = some blob → ∃ stored, back.toStore? = some stored ∧ blob.StoredAs stored

end Command

namespace Blobs

/-- The blobs are those that were stored so far, in order: each identity has its own as revisions
`1`, `2` and so on. -/
structure Records (b : Blobs) (history : List Blob) : Prop where
  versions : ∀ id, b.of id = history.filter (·.id = id)
  numbered : ∀ (id : BlobId) (p : Nat) (v : Blob), (b.of id)[p]? = some v → v.rev = (p : Int) + 1
  known : ∀ id, b.revisions.get? id ≠ some []

theorem records_empty : empty.Records [] :=
  ⟨fun _ => rfl, fun _ _ _ hv => (nomatch hv), fun _ h => (nomatch h)⟩

section

variable {b : Blobs} {history : List Blob}

theorem Records.issue (h : b.Records history) (n : Nat) :
    ({ b with issued := n } : Blobs).Records history :=
  ⟨h.versions, h.numbered, h.known⟩

theorem Records.push (h : b.Records history) {blob : Blob}
    (hrev : blob.rev = ((b.of blob.id).length : Int) + 1) :
    (b.push blob).Records (history ++ [blob]) := by
  have hof (id : BlobId) : (b.push blob).of id = b.of id ++ [blob].filter (·.id = id) :=
    of_foldl_push [blob] b id
  constructor
  case versions =>
    intro id
    rw [hof, h.versions, List.filter_append]
  case numbered =>
    intro id p v hv
    rw [hof] at hv
    by_cases hid : blob.id = id
    · subst hid
      have hself : [blob].filter (·.id = blob.id) = [blob] := by simp
      rw [hself, List.getElem?_append] at hv
      split at hv
      next => exact h.numbered _ p v hv
      next hp =>
        obtain ⟨hlast, rfl⟩ : p - (b.of blob.id).length = 0 ∧ blob = v := by
          simpa [List.getElem?_singleton] using hv
        rw [hrev]
        omega
    · rw [List.filter_cons_of_neg (by simpa using hid), List.filter_nil, List.append_nil] at hv
      exact h.numbered id p v hv
  case known =>
    intro id hnone
    by_cases hid : id = blob.id
    · subst hid
      have hself := of_push_self b blob
      rw [of, hnone] at hself
      exact absurd hself.symm (List.append_ne_nil_of_right_ne_nil _ (List.cons_ne_nil _ _))
    · rw [Blobs.push, SortedMap.get?_insert_of_ne _ _ hid] at hnone
      exact h.known id hnone

theorem rev_number (b : Blobs) (blob : Blob) :
    (b.number [] blob).rev = ((b.of (b.number [] blob).id).length : Int) + 1 := by
  unfold number
  simp

theorem Records.push_ahead {n : Nat} {writes : List Blob}
    (h : (writes.foldl Blobs.push { b with issued := n }).Records history) (m : Nat) (blob : Blob) :
    ((writes ++ [b.number writes blob]).foldl Blobs.push { b with issued := m }).Records
      (history ++ [b.number writes blob]) := by
  have hsame := number_foldl_push b n writes [] blob
  rw [List.append_nil] at hsame
  have hnext := rev_number (writes.foldl Blobs.push { b with issued := n }) blob
  rw [hsame] at hnext
  rw [foldl_push_append writes _ b n m]
  exact (h.issue m).push hnext

end

theorem storedAs_number (b : Blobs) (ahead : List Blob) (issued : Nat) (blob : Blob) :
    blob.StoredAs (b.number ahead (identify issued blob).1) := by
  unfold identify
  cases hid : blob.id.isEmpty with
  | true => exact ⟨rfl, rfl, fun h => (nomatch hid.symm.trans h), fun _ => ⟨issued + 1, rfl⟩⟩
  | false => exact ⟨rfl, rfl, fun _ => rfl, fun h => (nomatch hid.symm.trans h)⟩

/-! ### Reading -/

section

variable {b : Blobs} {history : List Blob} (h : b.Records history)

include h

theorem Records.revs (id : BlobId) :
    (b.of id).map Blob.rev = (List.range (b.of id).length).map (Nat.cast · + 1) := by
  apply List.ext_getElem
  · rw [List.length_map, List.length_map, List.length_range]
  · intro p hp _
    rw [List.length_map] at hp
    rw [List.getElem_map, List.getElem_map, List.getElem_range]
    exact h.numbered id p _ (List.getElem?_eq_getElem hp)

theorem Records.get?_eq {id : BlobId} {blob : Blob} (hmem : blob ∈ history) (hid : blob.id = id) :
    b.revisions.get? id = some (history.filter (·.id = id)) := by
  have hof := h.versions id
  unfold of at hof
  cases hget : b.revisions.get? id with
  | none =>
    rw [hget] at hof
    have hin : blob ∈ history.filter (·.id = id) := List.mem_filter.2 ⟨hmem, decide_eq_true hid⟩
    rw [← hof] at hin
    cases hin
  | some versions =>
    rw [hget] at hof
    exact congrArg some hof

theorem Records.get?_eq_none {id : BlobId} (hnone : ∀ blob ∈ history, blob.id ≠ id) :
    b.revisions.get? id = none := by
  have hof := h.versions id
  rw [List.filter_eq_nil_iff.2 fun blob hmem => by simpa using hnone blob hmem] at hof
  unfold of at hof
  cases hget : b.revisions.get? id with
  | none => rfl
  | some versions =>
    rw [hget] at hof
    obtain rfl : versions = [] := hof
    exact absurd hget (h.known id)

theorem Records.fetch_of_mem {blob : Blob} (hmem : blob ∈ history) :
    b.fetch blob.id blob.rev = .ok blob := by
  have hin : blob ∈ history.filter (·.id = blob.id) :=
    List.mem_filter.2 ⟨hmem, decide_eq_true rfl⟩
  obtain ⟨p, hp⟩ := List.mem_iff_getElem?.1 hin
  have hrev : blob.rev = (p : Int) + 1 := by
    refine h.numbered blob.id p blob ?_
    rw [h.versions]
    exact hp
  have hplace : (blob.rev - 1).toNat = p := by omega
  unfold fetch
  simp only [h.get?_eq hmem rfl]
  rw [if_neg (by omega), if_pos (by omega), hplace, hp]

theorem Records.fetch_zero {id : BlobId} {blob : Blob}
    (hlast : (history.filter (·.id = id)).getLast? = some blob) : b.fetch id 0 = .ok blob := by
  have hin := List.mem_filter.1 (List.mem_of_getLast? hlast)
  unfold fetch
  simp only [h.get?_eq hin.1 (of_decide_eq_true hin.2), if_true, hlast]

theorem Records.fetch_of_unknown {id : BlobId} (hnone : ∀ blob ∈ history, blob.id ≠ id)
    (rev : Int) : b.fetch id rev = .error (.notFound (.blob id)) := by
  unfold fetch
  rw [h.get?_eq_none hnone]

theorem Records.fetch_of_missing {id : BlobId} {rev : Int} (hzero : rev ≠ 0)
    (hknown : ∃ blob ∈ history, blob.id = id)
    (hnone : ∀ blob ∈ history, blob.id = id → blob.rev ≠ rev) :
    b.fetch id rev = .error (.notFound (.blobRevision id rev)) := by
  obtain ⟨other, hother, hid⟩ := hknown
  unfold fetch
  simp only [h.get?_eq hother hid, if_neg hzero]
  by_cases hpos : 1 ≤ rev
  · rw [if_pos hpos]
    cases hp : (history.filter (·.id = id))[(rev - 1).toNat]? with
    | none => rfl
    | some blob =>
      have hin := List.mem_filter.1 (List.mem_of_getElem? hp)
      have hrev := h.numbered id _ blob (by rw [h.versions]; exact hp)
      exact absurd (by omega) (hnone blob hin.1 (of_decide_eq_true hin.2))
  · rw [if_neg hpos]

end

end Blobs

namespace Store

open Command Blobs

/-! ### Staging -/

section

variable {s : Store} {st st' : Staging} {history : List Blob}

theorem writes_of_stage {c after : Command} (h : s.stage st c = .ok (st', after))
    (hnone : c.toStore? = none) : st'.writes = st.writes ∧ after.toStore? = none := by
  by_cases hidle : ∀ id, c.worksOn id = false
  · rcases cases_of_idle hidle h with ⟨r, rfl, rfl⟩ | ⟨hc, -, -⟩
    · rw [stage_delay] at h
      cases h
      exact ⟨rfl, rfl⟩
    · cases c with
      | findState id rev result | findLabelled labels result | fetchBlob blob =>
        obtain ⟨found, -, hok⟩ := Fault.bind_eq_ok_iff.1 h
        cases hok
        exact ⟨rfl, rfl⟩
      | noop | listStates _ _ | listDelayed _ _ | bundle _ =>
        cases h
        exact ⟨rfl, rfl⟩
      | storeBlob _ => cases hnone
      | _ => cases hc
  · obtain ⟨d, hd, hdelay⟩ := exists_draft_of_not_idle hidle
    rw [stage_of_works hd hdelay] at h
    obtain ⟨_, heffect, hst⟩ := Fault.bind_eq_ok_iff.1 h
    cases hst
    obtain ⟨-, e, he, -⟩ := effect_keeps hd heffect
    refine ⟨rfl, ?_⟩
    cases after <;> first | rfl | cases he

theorem records_stage (h : (st.writes.foldl Blobs.push { s.blobs with issued := st.issued }).Records
      (history ++ st.writes)) {c after : Command} (hstage : s.stage st c = .ok (st', after)) :
    (st'.writes.foldl Blobs.push { s.blobs with issued := st'.issued }).Records
        (history ++ st'.writes) ∧
      st'.writes = st.writes ++ after.toStore?.toList ∧ c.HandsBack after := by
  cases hc : c.toStore? with
  | none =>
    obtain ⟨hwrites, hafter⟩ := writes_of_stage hstage hc
    rw [hwrites, hafter]
    refine ⟨?_, (List.append_nil _).symm, fun blob hblob => nomatch hc.symm.trans hblob⟩
    rw [foldl_push_issued] at h ⊢
    exact h.issue st'.issued
  | some blob =>
    obtain rfl := toStore?_eq_some_iff.1 hc
    cases hstage
    have hnext := h.push_ahead (identify st.issued blob).2 (identify st.issued blob).1
    rw [List.append_assoc] at hnext
    refine ⟨hnext, rfl, fun asked hasked => ?_⟩
    cases hasked
    exact ⟨_, rfl, storedAs_number s.blobs st.writes st.issued blob⟩

theorem records_stageAll
    (h : (st.writes.foldl Blobs.push { s.blobs with issued := st.issued }).Records
      (history ++ st.writes)) {parts work : List Command}
    (hstage : s.stageAll st parts = .ok (st', work)) :
    (st'.writes.foldl Blobs.push { s.blobs with issued := st'.issued }).Records
        (history ++ st'.writes) ∧
      st'.writes = st.writes ++ work.filterMap toStore? ∧
      List.Forall₂ HandsBack parts work := by
  induction parts generalizing st work with
  | nil =>
    cases hstage
    exact ⟨h, (List.append_nil _).symm, .nil⟩
  | cons c rest ih =>
    obtain ⟨st₁, after, work', hone, hall, rfl⟩ := stageAll_cons_eq_ok_iff.1 hstage
    obtain ⟨hnext, hwrites, hback⟩ := records_stage h hone
    obtain ⟨hlast, hwrites', hbacks⟩ := ih hnext hall
    refine ⟨hlast, ?_, .cons hback hbacks⟩
    rw [hwrites', hwrites, List.append_assoc]
    cases hafter : after.toStore? with
    | none => rw [List.filterMap_cons_none hafter]; rfl
    | some blob => rw [List.filterMap_cons_some hafter]; rfl

end

/-! ### Calls -/

/-- The blobs that a call hands back as stored, in order. A call that fails hands back none. -/
def stores (s : Store) : Request → List Blob
  | .commit now parts =>
    match s.commit now parts with
    | .ok (_, done) => done.filterMap Command.toStore?
    | .error _ => []
  | .storeBlob blob => [(s.storeBlob blob).2]
  | .delay _ _ | .acknowledge _ => []

/-- The blobs that some calls, one after the other, hand back as stored. -/
def stored : Store → List Request → List Blob
  | _, [] => []
  | s, r :: rest => s.stores r ++ stored (s.serve r) rest

theorem stored_append (s : Store) (requests more : List Request) :
    s.stored (requests ++ more) = s.stored requests ++ (requests.foldl serve s).stored more := by
  induction requests generalizing s with
  | nil => rfl
  | cons r requests ih => simp only [List.cons_append, stored, ih, List.append_assoc,
      List.foldl_cons]

theorem toStore?_conclude (now : Instant) (drafts : SortedMap StateId Draft) (delays : Delays)
    (c : Command) : (conclude now drafts delays c).2.toStore? = c.toStore? := by
  have hadopt : (c.adopt drafts).toStore? = c.toStore? := by
    cases hd : c.draft? with
    | none => rw [adopt_of_no_draft hd]
    | some d =>
      rw [adopt_eq hd]
      cases c <;> rfl
  unfold conclude
  split
  next r hr =>
    rw [hr] at hadopt
    exact hadopt
  next => exact hadopt

theorem filterMap_concludeAll (now : Instant) (drafts : SortedMap StateId Draft) (delays : Delays)
    (work : List Command) :
    (concludeAll now drafts delays work).2.filterMap toStore? = work.filterMap toStore? := by
  induction work generalizing delays with
  | nil => rfl
  | cons c work ih =>
    have hrest := ih (conclude now drafts delays c).1
    simp only [concludeAll, List.filterMap_cons, toStore?_conclude, hrest]

theorem handsBack_concludeAll (now : Instant) (drafts : SortedMap StateId Draft)
    {parts work : List Command} (h : List.Forall₂ HandsBack parts work) (delays : Delays) :
    List.Forall₂ HandsBack parts (concludeAll now drafts delays work).2 := by
  induction h generalizing delays with
  | nil => exact .nil
  | cons hone _ ih =>
    refine .cons (fun blob hblob => ?_) (ih _)
    obtain ⟨stored, hstored, hsame⟩ := hone blob hblob
    exact ⟨stored, (toStore?_conclude ..).trans hstored, hsame⟩

section

variable {s : Store} {history : List Blob}

theorem records_commit (hsound : s.log.Sound) (h : s.blobs.Records history) {stored : Store}
    {now : Instant} {parts done : List Command}
    (hcommit : s.commit now parts = .ok (stored, done)) :
    stored.blobs.Records (history ++ done.filterMap toStore?) ∧
      List.Forall₂ HandsBack parts done := by
  obtain ⟨st, work, hprepare, hdone⟩ := commit_eq_ok_iff.1 hcommit
  obtain ⟨-, hstaged, -⟩ := (prepare_eq_ok_iff hsound).1 hprepare
  have hstart : ((Staging.start s.blobs).writes.foldl Blobs.push
      { s.blobs with issued := (Staging.start s.blobs).issued }).Records
        (history ++ (Staging.start s.blobs).writes) := by
    rw [show history ++ (Staging.start s.blobs).writes = history from List.append_nil _]
    exact h
  obtain ⟨hrecords, hwrites, hback⟩ := records_stageAll hstart hstaged
  cases hdone
  refine ⟨?_, handsBack_concludeAll now _ hback _⟩
  rw [filterMap_concludeAll, ← show st.writes = work.filterMap toStore? from hwrites]
  exact hrecords

theorem records_storeBlob (h : s.blobs.Records history) (blob : Blob) :
    (s.storeBlob blob).1.blobs.Records (history ++ [(s.storeBlob blob).2]) ∧
      blob.StoredAs (s.storeBlob blob).2 := by
  have hissued := h.issue (identify s.blobs.issued blob).2
  exact ⟨hissued.push (rev_number s.blobs _), storedAs_number s.blobs [] s.blobs.issued blob⟩

theorem records_serve (hsound : s.log.Sound) (h : s.blobs.Records history) (r : Request) :
    (s.serve r).blobs.Records (history ++ s.stores r) := by
  cases r with
  | commit now parts =>
    cases hcommit : s.commit now parts with
    | error fault =>
      rw [serve_commit_of_error hcommit, stores, hcommit, List.append_nil]
      exact h
    | ok result =>
      rw [serve_commit_of_ok hcommit, stores, hcommit]
      exact (records_commit hsound h hcommit).1
  | storeBlob blob => exact (records_storeBlob h blob).1
  | delay state dueAt | acknowledge offset =>
    rw [stores, List.append_nil]
    exact h

theorem records_foldl_serve (hsound : s.log.Sound) (h : s.blobs.Records history)
    (requests : List Request) :
    (requests.foldl serve s).blobs.Records (history ++ s.stored requests) := by
  induction requests generalizing s history with
  | nil =>
    rw [stored, List.append_nil]
    exact h
  | cons r requests ih =>
    have hrest := ih (sound_serve hsound r) (records_serve hsound h r)
    rw [List.append_assoc] at hrest
    exact hrest

end

theorem records_run (requests : List Request) :
    (run requests).blobs.Records (empty.stored requests) :=
  records_foldl_serve (s := empty) Log.sound_empty records_empty requests

/-! ### Reading a blob -/

section

open Effect

variable {allowed : Method → Fault → Prop} {σ : Type} {own : σ} {site : Site}

theorem leads_fetchBlob (h : site.Plain allowed) {id : BlobId} {rev : Int}
    {Q : Except Fault Blob → σ × Site → Prop}
    (hfault : ∀ g fault, g.Allows allowed → allowed .fetchBlob fault →
      Q (.error fault) (own, site.after site.store g))
    (hanswer : ∀ g, g.Allows allowed →
      Q (site.store.blobs.fetch id rev) (own, site.after site.store g)) :
    Leads (Work.access (Repository.fetchBlob id rev)) (own, site) Q := by
  have hread := Work.leads_readStore h (f := (·.blobs.fetch id rev)) hfault hanswer
  rw [Work.leads_access] at hread ⊢
  unfold Repository.fetchBlob
  simp only [leads_bind, leads_get, h.direct]
  exact hread

theorem leads_dispatch_fetchBlob (h : site.Plain fun _ _ => False) (blob : Blob) :
    Leads dispatch (.fetchBlob blob, site) fun outcome after =>
      after.2.store = site.store ∧
        match site.store.blobs.fetch blob.id blob.rev with
        | .ok found => outcome = .ok () ∧ after.1 = .fetchBlob found
        | .error fault => outcome = .error fault ∧ after.1 = .fetchBlob blob := by
  unfold dispatch
  rw [leads_bind, Work.leads_own]
  simp only [leads_bind]
  refine leads_fetchBlob h (fun _ _ _ hnone => hnone.elim) fun g _ => ?_
  cases site.store.blobs.fetch blob.id blob.rev with
  | ok found => exact ⟨rfl, rfl, rfl⟩
  | error fault => exact ⟨rfl, rfl, rfl⟩

end

/-- In every state that a run reaches, an identity has the blobs stored under it, in order and as
revisions `1`, `2` and so on. A blob comes back from storing it with its content and the identity
and the revision under which it is found from then on. Revision `0` of an identity is the one
stored last; no other revision and no other identity is found, and then the caller keeps the
reference that was asked for. -/
theorem blob_revisions_are_contiguous_and_permanent (requests : List Request) :
    let s := run requests
    let history := empty.stored requests
    (∀ id, s.blobs.of id = history.filter (·.id = id) ∧
      (s.blobs.of id).map Blob.rev =
        (List.range (s.blobs.of id).length).map (Nat.cast · + 1)) ∧
    (∀ blob : Blob, blob.StoredAs (s.storeBlob blob).2) ∧
    (∀ now parts, match s.commit now parts with
      | .ok (_, done) => List.Forall₂ HandsBack parts done
      | .error _ => s.serve (.commit now parts) = s) ∧
    (∀ r more, ∀ blob ∈ s.stores r,
      (run (requests ++ r :: more)).blobs.fetch blob.id blob.rev = .ok blob) ∧
    (∀ blob ∈ history, ∀ more,
      (run (requests ++ more)).blobs.fetch blob.id blob.rev = .ok blob) ∧
    (∀ id blob, (history.filter (·.id = id)).getLast? = some blob →
      s.blobs.fetch id 0 = .ok blob) ∧
    (∀ id, (∀ blob ∈ history, blob.id ≠ id) →
      ∀ rev, s.blobs.fetch id rev = .error (.notFound (.blob id))) ∧
    (∀ id rev, rev ≠ 0 → (∃ blob ∈ history, blob.id = id) →
      (∀ blob ∈ history, blob.id = id → blob.rev ≠ rev) →
      s.blobs.fetch id rev = .error (.notFound (.blobRevision id rev))) ∧
    ∀ (site : Site) (blob : Blob), site.store = s → site.Plain (fun _ _ => False) →
      Effect.Leads dispatch (.fetchBlob blob, site) fun outcome after =>
        after.2.store = s ∧ match s.blobs.fetch blob.id blob.rev with
          | .ok found => outcome = .ok () ∧ after.1 = .fetchBlob found
          | .error fault => outcome = .error fault ∧ after.1 = .fetchBlob blob := by
  intro s history
  have hsound : s.log.Sound := sound_run requests
  have h : s.blobs.Records history := records_run requests
  have hlater {blob : Blob} (more : List Request)
      (hmem : blob ∈ empty.stored (requests ++ more)) :
      (run (requests ++ more)).blobs.fetch blob.id blob.rev = .ok blob :=
    (records_run (requests ++ more)).fetch_of_mem hmem
  refine ⟨fun id => ⟨h.versions id, h.revs id⟩, fun blob => (records_storeBlob h blob).2, ?_, ?_,
    ?_, fun id blob => h.fetch_zero, fun id => h.fetch_of_unknown,
    fun id rev => h.fetch_of_missing, ?_⟩
  · intro now parts
    cases hcommit : s.commit now parts with
    | error fault => exact serve_commit_of_error hcommit
    | ok result => exact (records_commit hsound h hcommit).2
  · intro r more blob hmem
    refine hlater (r :: more) ?_
    rw [stored_append, stored]
    exact List.mem_append_right _ (List.mem_append_left _ hmem)
  · intro blob hmem more
    refine hlater more ?_
    rw [stored_append]
    exact List.mem_append_left _ hmem
  · intro site blob hstore hplain
    rw [← hstore]
    exact leads_dispatch_fetchBlob hplain blob

end Store

end Workflow
