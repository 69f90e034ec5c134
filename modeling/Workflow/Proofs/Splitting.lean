import Workflow.Proofs.Apart
import Workflow.Proofs.Committed

/-!
# Splitting bundles

Where two bundles that are apart are committed one after the other, they leave the same log, blobs,
delayed states and parts as both committed as one. The parts after are staged on those before as
they are on the store that these leave.
-/

set_option autoImplicit false

namespace Workflow

/-! ### Blobs -/

namespace Blobs

theorem of_foldl_push (writes : List Blob) (b : Blobs) (id : BlobId) :
    (writes.foldl push b).of id = b.of id ++ writes.filter (·.id = id) := by
  induction writes generalizing b with
  | nil => simp
  | cons blob writes ih =>
    rw [List.foldl_cons, ih, List.filter_cons]
    by_cases hid : blob.id = id
    · subst hid
      rw [of_push_self, if_pos (decide_eq_true rfl), List.append_assoc]
      rfl
    · rw [of_push_of_ne b (Ne.symm hid), if_neg (by simpa using hid)]

theorem foldl_push_issued (writes : List Blob) (b : Blobs) (n : Nat) :
    writes.foldl push { b with issued := n } = { writes.foldl push b with issued := n } := by
  induction writes generalizing b with
  | nil => rfl
  | cons blob writes ih => exact ih (b.push blob)

theorem foldl_push_append (writes more : List Blob) (b : Blobs) (m n : Nat) :
    (writes ++ more).foldl push { b with issued := n } =
      more.foldl push { writes.foldl push { b with issued := m } with issued := n } := by
  have hm := foldl_push_issued writes b m
  have hn := foldl_push_issued writes b n
  rw [List.foldl_append, hn, hm]

theorem number_foldl_push (b : Blobs) (n : Nat) (writes ahead : List Blob) (blob : Blob) :
    (writes.foldl push { b with issued := n }).number ahead blob =
      b.number (writes ++ ahead) blob := by
  have hof : ({ b with issued := n } : Blobs).of blob.id = b.of blob.id := rfl
  unfold number
  rw [of_foldl_push, hof, List.filter_append, List.length_append, List.length_append]
  congr 1
  omega

end Blobs

/-! ### Staging -/

/-- A whole bundle is staged as its first parts, and then the others on a store of their own. -/
structure Staging.Joins (first second whole : Staging) : Prop where
  drafts : ∀ id, whole.drafts.get? id = (second.drafts.get? id).or (first.drafts.get? id)
  tracked : whole.tracked = first.tracked ++ second.tracked
  writes : whole.writes = first.writes ++ second.writes
  issued : whole.issued = second.issued

namespace Staging

variable {first second whole : Staging}

theorem joins_start {b : Blobs} (h : b.issued = first.issued) : Joins first (start b) first :=
  ⟨fun _ => rfl, (List.append_nil _).symm, (List.append_nil _).symm, h.symm⟩

/-- A state that the first parts leave alone. -/
def Spares (st : Staging) (id : StateId) : Prop := st.drafts.get? id = none ∧ id ∉ st.tracked

theorem Joins.get?_of_spares (h : Joins first second whole) {id : StateId}
    (hspares : first.Spares id) : whole.drafts.get? id = second.drafts.get? id := by
  rw [h.drafts, hspares.1, Option.or_none]

theorem Joins.record (h : Joins first second whole) {id : StateId} (hspares : first.Spares id)
    (c : Command) : Joins first (second.record id c) (whole.record id c) := by
  refine ⟨fun other => ?_, ?_, h.writes, h.issued⟩
  · unfold Staging.record
    cases c.draft? with
    | none => exact h.drafts other
    | some d =>
      simp only [SortedMap.get?_insert]
      split
      next => rfl
      next => exact h.drafts other
  · unfold Staging.record
    have hcontains : whole.tracked.contains id = second.tracked.contains id := by
      rw [h.tracked, List.contains_append, List.contains_eq_mem id first.tracked,
        decide_eq_false hspares.2, Bool.false_or]
    rw [hcontains, h.tracked]
    cases c.isTracked && !second.tracked.contains id with
    | true => exact List.append_assoc ..
    | false => rfl

end Staging

namespace Store

open Command

section

variable {s t : Store} {first second second' whole : Staging}

theorem stage_of_joins
    (ht : t.blobs = first.writes.foldl Blobs.push { s.blobs with issued := first.issued })
    (h : Staging.Joins first second whole) {c after : Command} (hquiet : c.asks = false)
    (hspares : ∀ id, c.draftId? = some id → first.Spares id)
    (hstage : t.stage second c = .ok (second', after)) :
    ∃ whole', s.stage whole c = .ok (whole', after) ∧ Staging.Joins first second' whole' := by
  by_cases hidle : ∀ id, c.worksOn id = false
  · rcases isDelay_or_of_idle hidle with hdelay | hnone
    · cases c with
      | delay r =>
        have hdraft := h.get?_of_spares (hspares r.draft.id rfl)
        change t.stageDraft second (.delay r) r.draft.id = _ at hstage
        rw [stageDraft, adopt_eq (c := .delay r) rfl] at hstage
        cases hstage
        refine ⟨whole, ?_, h⟩
        change s.stageDraft whole (.delay r) r.draft.id = _
        rw [stageDraft, adopt_eq (c := .delay r) rfl, hdraft]
        rfl
      | _ => cases hdelay
    · cases c with
      | storeBlob blob =>
        cases hstage
        rw [ht, Blobs.number_foldl_push, ← h.writes, ← h.issued]
        refine ⟨_, rfl, h.drafts, h.tracked, ?_, rfl⟩
        change whole.writes ++ _ = _
        rw [h.writes, List.append_assoc]
      | noop | listStates _ _ | listDelayed _ _ | bundle _ =>
        cases hstage
        exact ⟨whole, rfl, h⟩
      | findState id rev result | findLabelled labels result | fetchBlob blob => cases hquiet
      | _ => cases hnone
  · obtain ⟨d, hd, hdelay⟩ := exists_draft_of_not_idle hidle
    have hspare := hspares d.id (by rw [draftId?, hd, Option.map_some])
    rw [stage_of_works hd hdelay] at hstage ⊢
    obtain ⟨applied, heffect, hok⟩ := Fault.bind_eq_ok_iff.1 hstage
    cases hok
    rw [effect_of_not_asks hquiet] at heffect
    rw [h.get?_of_spares hspare, effect_of_not_asks hquiet, heffect]
    exact ⟨_, rfl, h.record hspare _⟩

theorem stageAll_of_joins
    (ht : t.blobs = first.writes.foldl Blobs.push { s.blobs with issued := first.issued })
    (h : Staging.Joins first second whole) {parts work : List Command}
    (hquiet : ∀ c ∈ parts, c.asks = false)
    (hspares : ∀ c ∈ parts, ∀ id, c.draftId? = some id → first.Spares id)
    (hstage : t.stageAll second parts = .ok (second', work)) :
    ∃ whole', s.stageAll whole parts = .ok (whole', work) ∧ Staging.Joins first second' whole' := by
  induction parts generalizing second whole work with
  | nil =>
    cases hstage
    exact ⟨whole, rfl, h⟩
  | cons c rest ih =>
    obtain ⟨hc, hquiet⟩ := List.forall_mem_cons.1 hquiet
    obtain ⟨hspare, hspares⟩ := List.forall_mem_cons.1 hspares
    obtain ⟨second₁, after, work₂, hone, hall, rfl⟩ := stageAll_cons_eq_ok_iff.1 hstage
    obtain ⟨whole₁, hone', hjoins⟩ := stage_of_joins ht h hc hspare hone
    obtain ⟨whole₂, hall', hjoins'⟩ := ih hjoins hquiet hspares hall
    exact ⟨whole₂, stageAll_cons_eq_ok_iff.2 ⟨whole₁, after, work₂, hone', hall', rfl⟩, hjoins'⟩

end

theorem stageAll_append {s : Store} {st st' st'' : Staging} {as bs workA workB : List Command}
    (ha : s.stageAll st as = .ok (st', workA)) (hb : s.stageAll st' bs = .ok (st'', workB)) :
    s.stageAll st (as ++ bs) = .ok (st'', workA ++ workB) := by
  induction as generalizing st workA with
  | nil =>
    cases ha
    exact hb
  | cons c rest ih =>
    obtain ⟨st₁, after, work₂, hone, hall, rfl⟩ := stageAll_cons_eq_ok_iff.1 ha
    exact stageAll_cons_eq_ok_iff.2 ⟨st₁, after, work₂ ++ workB, hone, ih hall, rfl⟩

/-! ### The states that are staged -/

section

variable {s : Store} {st st' : Staging}

theorem draftId?_of_stage {c after : Command} (h : s.stage st c = .ok (st', after)) {id : StateId}
    (hid : st'.drafts.get? id ≠ none) : st.drafts.get? id ≠ none ∨ c.draftId? = some id := by
  obtain ⟨-, ⟨-, hdrafts, -⟩ | ⟨d, hd, -, -, rfl⟩⟩ := cases_of_stage h
  · exact .inl (hdrafts ▸ hid)
  · by_cases heq : id = d.id
    · exact .inr (by rw [draftId?, hd, Option.map_some, heq])
    · rw [get?_record_of_ne heq] at hid
      exact .inl hid

theorem stageAll_keeps_ids (hkeyed : st.Keyed) {parts work : List Command}
    (h : s.stageAll st parts = .ok (st', work)) :
    work.map draftId? = parts.map draftId? ∧
      ∀ id, st'.drafts.get? id ≠ none →
        st.drafts.get? id ≠ none ∨ ∃ c ∈ parts, c.draftId? = some id := by
  induction parts generalizing st work with
  | nil =>
    cases h
    exact ⟨rfl, fun id hid => .inl hid⟩
  | cons c rest ih =>
    obtain ⟨st₁, after, work₂, hone, hall, rfl⟩ := stageAll_cons_eq_ok_iff.1 h
    obtain ⟨hkeyed', hid⟩ := keeps_stage hkeyed hone
    obtain ⟨hids, hdrafts⟩ := ih hkeyed' hall
    refine ⟨by rw [List.map_cons, List.map_cons, hid, hids], fun id hne => ?_⟩
    rcases hdrafts id hne with hbefore | ⟨c', hc', hown⟩
    · exact (draftId?_of_stage hone hbefore).imp_right fun hown => ⟨c, List.mem_cons_self, hown⟩
    · exact .inr ⟨c', List.mem_cons_of_mem _ hc', hown⟩

end

/-! ### Entries and concluded parts -/

theorem appendAll_append (now : Instant) (l : Log) (drafts : SortedMap StateId Draft)
    (ids more : List StateId) :
    appendAll now l drafts (ids ++ more) =
      appendAll now (appendAll now l drafts ids).1 (appendAll now l drafts ids).2 more := by
  induction ids generalizing l drafts with
  | nil => rfl
  | cons id ids ih =>
    simp only [List.cons_append, appendAll]
    cases drafts.get? id with
    | none => exact ih l drafts
    | some d => exact ih _ _

theorem appendAll_congr (now : Instant) (l : Log) {drafts others : SortedMap StateId Draft}
    (ids : List StateId) (h : ∀ id ∈ ids, drafts.get? id = others.get? id) :
    (appendAll now l drafts ids).1 = (appendAll now l others ids).1 ∧
      ∀ id, drafts.get? id = others.get? id →
        (appendAll now l drafts ids).2.get? id = (appendAll now l others ids).2.get? id := by
  induction ids generalizing l drafts others with
  | nil => exact ⟨rfl, fun _ hid => hid⟩
  | cons first ids ih =>
    obtain ⟨hfirst, hrest⟩ := List.forall_mem_cons.1 h
    unfold appendAll
    rw [hfirst]
    cases others.get? first with
    | none => exact ih l hrest
    | some d =>
      have hinsert (settled : Draft) (id : StateId) (hid : drafts.get? id = others.get? id) :
          (drafts.insert first settled).get? id = (others.insert first settled).get? id := by
        rw [SortedMap.get?_insert, SortedMap.get?_insert, hid]
      obtain ⟨hlog, hdrafts⟩ := ih (l.append (entryOf l now d.current)) fun id hid =>
        hinsert (d.settle (entryOf l now d.current)) id (hrest id hid)
      exact ⟨hlog, fun id hid => hdrafts id (hinsert _ id hid)⟩

theorem concludeAll_append (now : Instant) (drafts : SortedMap StateId Draft) (delays : Delays)
    (work more : List Command) :
    concludeAll now drafts delays (work ++ more) =
      ((concludeAll now drafts (concludeAll now drafts delays work).1 more).1,
        (concludeAll now drafts delays work).2 ++
          (concludeAll now drafts (concludeAll now drafts delays work).1 more).2) := by
  induction work generalizing delays with
  | nil => rfl
  | cons c work ih =>
    rw [List.cons_append, concludeAll]
    simp only [ih]
    rfl

theorem concludeAll_congr (now : Instant) {drafts others : SortedMap StateId Draft}
    {work : List Command}
    (h : ∀ c ∈ work, ∀ id, c.draftId? = some id → drafts.get? id = others.get? id)
    (delays : Delays) :
    concludeAll now drafts delays work = concludeAll now others delays work := by
  induction work generalizing delays with
  | nil => rfl
  | cons c work ih =>
    obtain ⟨hc, hrest⟩ := List.forall_mem_cons.1 h
    have hadopt : c.adopt drafts = c.adopt others := by
      unfold adopt
      cases hd : c.draft? with
      | none => rfl
      | some d =>
        simp only [hc d.id (by rw [draftId?, hd, Option.map_some])]
    have hone : conclude now drafts delays c = conclude now others delays c := by
      unfold conclude
      rw [hadopt]
    simp only [concludeAll, hone, ih hrest]

/-! ### Committing -/

section

variable {first second whole : Staging}

theorem appendAll_of_joins (now : Instant) (h : Staging.Joins first second whole)
    (hfirst : ∀ id ∈ first.tracked, second.Spares id)
    (hsecond : ∀ id ∈ second.tracked, first.Spares id) (l : Log) :
    let before := appendAll now l first.drafts first.tracked
    let after := appendAll now before.1 second.drafts second.tracked
    let joined := appendAll now l whole.drafts whole.tracked
    joined.1 = after.1 ∧
      (∀ id, second.Spares id → joined.2.get? id = before.2.get? id) ∧
      ∀ id, first.Spares id → joined.2.get? id = after.2.get? id := by
  intro before after joined
  have hearly (id : StateId) (hspares : second.Spares id) :
      whole.drafts.get? id = first.drafts.get? id := by
    rw [h.drafts, hspares.1, Option.none_or]
  obtain ⟨hlog, hdrafts⟩ := appendAll_congr now l first.tracked fun id hid =>
    hearly id (hfirst id hid)
  have hlate (id : StateId) (hspares : first.Spares id) :
      (appendAll now l whole.drafts first.tracked).2.get? id = second.drafts.get? id := by
    rw [get?_appendAll_of_notMem now l whole.drafts hspares.2, h.get?_of_spares hspares]
  obtain ⟨hlog', hdrafts'⟩ := appendAll_congr now before.1 second.tracked fun id hid =>
    hlate id (hsecond id hid)
  have hjoined : joined =
      appendAll now before.1 (appendAll now l whole.drafts first.tracked).2 second.tracked := by
    rw [← hlog, ← appendAll_append, ← h.tracked]
  refine ⟨hjoined ▸ hlog', fun id hspares => ?_, fun id hspares => ?_⟩
  · rw [hjoined, get?_appendAll_of_notMem _ _ _ hspares.2]
    exact hdrafts id (hearly id hspares)
  · rw [hjoined]
    exact hdrafts' id (hlate id hspares)

/-- What the first parts and then the others change, and what all change at once, is the same. -/
theorem carryOut_of_joins (s : Store) (now : Instant) (h : Staging.Joins first second whole)
    (hfirst : ∀ id ∈ first.tracked, second.Spares id)
    (hsecond : ∀ id ∈ second.tracked, first.Spares id) {workA workB : List Command}
    (hworkA : ∀ c ∈ workA, ∀ id, c.draftId? = some id → second.Spares id)
    (hworkB : ∀ c ∈ workB, ∀ id, c.draftId? = some id → first.Spares id) :
    let before := s.carryOut now first workA
    let after := before.2.carryOut now second workB
    let joined := s.carryOut now whole (workA ++ workB)
    joined.1 = before.1 ++ after.1 ∧ joined.2.log = after.2.log ∧ joined.2.blobs = after.2.blobs ∧
      joined.2.delays = after.2.delays := by
  intro before after joined
  obtain ⟨hlog, hearly, hlate⟩ := appendAll_of_joins now h hfirst hsecond s.log
  have hA := concludeAll_congr now (fun c hc id hid => hearly id (hworkA c hc id hid)) s.delays
  have hB := concludeAll_congr now (fun c hc id hid => hlate id (hworkB c hc id hid))
    before.2.delays
  have hdone : concludeAll now (appendAll now s.log whole.drafts whole.tracked).2 s.delays
      (workA ++ workB) = (after.2.delays, before.1 ++ after.1) := by
    rw [concludeAll_append, hA]
    change ((concludeAll now _ before.2.delays workB).1,
      before.1 ++ (concludeAll now _ before.2.delays workB).2) = _
    rw [hB]
    rfl
  have hparts := congrArg Prod.snd hdone
  have hdelays := congrArg Prod.fst hdone
  refine ⟨hparts, hlog, ?_, hdelays⟩
  change whole.writes.foldl Blobs.push { s.blobs with issued := whole.issued } = _
  rw [h.writes, h.issued]
  exact Blobs.foldl_push_append ..

end

section

variable {s : Store} {st : Staging} {parts work : List Command} {id : StateId}
  (h : s.stageAll (.start s.blobs) parts = .ok (st, work))

include h

theorem exists_draftId_of_mem_tracked (hid : id ∈ st.tracked) :
    ∃ c ∈ parts, c.draftId? = some id := by
  rw [tracked_of_stageAll h] at hid
  obtain ⟨c, hc, htracked⟩ := mem_trackedIds_iff.1 hid
  exact ⟨c, hc, draftId?_of_trackedId? htracked⟩

theorem exists_draftId_of_mem_work {c : Command} (hc : c ∈ work) (hid : c.draftId? = some id) :
    ∃ c ∈ parts, c.draftId? = some id := by
  obtain ⟨hids, -⟩ := stageAll_keeps_ids (Staging.keyed_start _) h
  have hmem : some id ∈ work.map draftId? := List.mem_map.2 ⟨c, hc, hid⟩
  rw [hids] at hmem
  exact List.mem_map.1 hmem

theorem spares_of_stageAll (hnone : ¬ ∃ c ∈ parts, c.draftId? = some id) : st.Spares id := by
  obtain ⟨-, hdrafts⟩ := stageAll_keeps_ids (Staging.keyed_start _) h
  refine ⟨?_, fun hmem => hnone (exists_draftId_of_mem_tracked h hmem)⟩
  by_contra hsome
  exact (hdrafts id hsome).elim (fun hstart => hstart rfl) hnone

end

theorem commit_append_of_commit {s first second : Store} (hs : s.log.Sound) {now : Instant}
    {as bs doneA doneB : List Command} (hapart : Apart as bs) (has : as ≠ []) (hbs : bs ≠ [])
    (hquiet : ∀ c ∈ bs, c.asks = false) (hfirst : s.commit now as = .ok (first, doneA))
    (hsecond : first.commit now bs = .ok (second, doneB)) :
    ∃ stored, s.commit now (as ++ bs) = .ok (stored, doneA ++ doneB) ∧
      stored.log = second.log ∧ stored.blobs = second.blobs ∧ stored.delays = second.delays := by
  have hfirstSound := sound_of_commit hs hfirst
  obtain ⟨stored, done, hjoined⟩ :=
    (exists_commit_append_iff hs hapart has hbs hquiet now).2
      ⟨first, doneA, second, doneB, hfirst, hsecond⟩
  obtain ⟨stA, workA, hprepA, hdoneA⟩ := commit_eq_ok_iff.1 hfirst
  obtain ⟨stB, workB, hprepB, hdoneB⟩ := commit_eq_ok_iff.1 hsecond
  obtain ⟨stAB, workAB, hprepAB, hdoneAB⟩ := commit_eq_ok_iff.1 hjoined
  obtain ⟨-, hstagedA, -⟩ := (prepare_eq_ok_iff hs).1 hprepA
  obtain ⟨-, hstagedB, -⟩ := (prepare_eq_ok_iff hfirstSound).1 hprepB
  obtain ⟨-, hstagedAB, -⟩ := (prepare_eq_ok_iff hs).1 hprepAB
  have hspareA (id : StateId) (hin : ∃ b ∈ bs, b.draftId? = some id) : stA.Spares id :=
    spares_of_stageAll hstagedA fun hin' => hapart id hin' hin
  have hspareB (id : StateId) (hin : ∃ a ∈ as, a.draftId? = some id) : stB.Spares id :=
    spares_of_stageAll hstagedB (hapart id hin)
  -- The parts after are staged on those before as they are on the store that these leave.
  have hblobs :
      first.blobs = stA.writes.foldl Blobs.push { s.blobs with issued := stA.issued } := by
    obtain rfl := congrArg Prod.snd hdoneA
    rfl
  have hissued : first.blobs.issued = stA.issued := by rw [hblobs, Blobs.foldl_push_issued]
  obtain ⟨whole, hrest, hjoins⟩ := stageAll_of_joins hblobs (Staging.joins_start hissued) hquiet
    (fun b hb id hid => hspareA id ⟨b, hb, hid⟩) hstagedB
  obtain ⟨rfl, rfl⟩ := Prod.mk.inj
    (Except.ok.inj (hstagedAB.symm.trans (stageAll_append hstagedA hrest)))
  have hsame := carryOut_of_joins s now hjoins
    (fun id hid => hspareB id (exists_draftId_of_mem_tracked hstagedA hid))
    (fun id hid => hspareA id (exists_draftId_of_mem_tracked hstagedB hid))
    (fun c hc id hid => hspareB id (exists_draftId_of_mem_work hstagedA hc hid))
    (fun c hc id hid => hspareA id (exists_draftId_of_mem_work hstagedB hc hid))
  simp only [hdoneA, hdoneB, hdoneAB] at hsame
  obtain ⟨rfl, hkept⟩ := hsame
  exact ⟨stored, hjoined, hkept⟩

/-- In every state that a run reaches, a bundle can be split between two lists of parts that have no
state in common, if the second asks the store for nothing: committing all at once succeeds exactly
if committing one list after the other at the same time does, and then leads to the same log, the
same blobs, the same delayed states and the same parts. -/
theorem commit_append_iff_and_eq_commit_commit (requests : List Request) (now : Instant)
    {as bs : List Command} (has : as ≠ []) (hbs : bs ≠ []) (hapart : Apart as bs)
    (hquiet : ∀ c ∈ bs, c.asks = false) :
    let s := run requests
    ((∃ stored done, s.commit now (as ++ bs) = .ok (stored, done)) ↔
      ∃ first doneA second doneB, s.commit now as = .ok (first, doneA) ∧
        first.commit now bs = .ok (second, doneB)) ∧
    ∀ first doneA second doneB, s.commit now as = .ok (first, doneA) →
      first.commit now bs = .ok (second, doneB) →
      ∃ stored, s.commit now (as ++ bs) = .ok (stored, doneA ++ doneB) ∧
        stored.log = second.log ∧ stored.blobs = second.blobs ∧ stored.delays = second.delays := by
  intro s
  have hs : s.log.Sound := sound_run requests
  exact ⟨exists_commit_append_iff hs hapart has hbs hquiet now,
    fun _ _ _ _ => commit_append_of_commit hs hapart has hbs hquiet⟩

/-- Both lists store a revision of one blob and a blob without identity, and delay their state. -/
theorem commit_append_iff_and_eq_commit_commit_of_blobs :
    let a : Draft := .ofState (.new ⟨"a"⟩)
    let b : Draft := .ofState (.new ⟨"b"⟩)
    let later (d : Draft) : Command := .delay ⟨d, some ⟨"later"⟩, .ofSecs 5, none, false, ∅, none⟩
    let requests : List Request := [.storeBlob ⟨⟨"shared"⟩, 0, false, [1]⟩]
    let shared : Command := .storeBlob ⟨⟨"shared"⟩, 0, false, [2]⟩
    let fresh : Command := .storeBlob ⟨⟨""⟩, 0, true, []⟩
    let as := [.transit a ⟨"next"⟩ ∅, shared, fresh, later a]
    let bs := [later b, fresh, .keep b, shared, .pause b none ∅]
    let s := run requests
    (as ≠ [] ∧ bs ≠ [] ∧ Apart as bs ∧ ∀ c ∈ bs, c.asks = false) ∧
      ∃ first doneA second doneB stored, s.commit default as = .ok (first, doneA) ∧
        first.commit default bs = .ok (second, doneB) ∧
        s.commit default (as ++ bs) = .ok (stored, doneA ++ doneB) ∧
        stored.log = second.log ∧ stored.blobs = second.blobs ∧ stored.delays = second.delays := by
  intro a b later requests shared fresh as bs s
  have hids : ∀ id ∈ as.filterMap draftId?, id ∉ bs.filterMap draftId? := by decide
  have hapart : Apart as bs := fun id ⟨c, hc, hid⟩ ⟨c', hc', hid'⟩ =>
    hids id (List.mem_filterMap.2 ⟨c, hc, hid⟩) (List.mem_filterMap.2 ⟨c', hc', hid'⟩)
  have hquiet : ∀ c ∈ bs, c.asks = false := by decide
  have has : as ≠ [] := List.cons_ne_nil _ _
  have hbs : bs ≠ [] := List.cons_ne_nil _ _
  have hall := commit_append_iff_and_eq_commit_commit requests default has hbs hapart hquiet
  have htogether : ∃ stored done, s.commit default (as ++ bs) = .ok (stored, done) := by
    have hok : (s.commit default (as ++ bs)).toOption.isSome = true := by decide +kernel
    cases hcommit : s.commit default (as ++ bs) with
    | error fault =>
      rw [hcommit] at hok
      cases hok
    | ok result => exact ⟨result.1, result.2, rfl⟩
  obtain ⟨first, doneA, second, doneB, hfirst, hsecond⟩ := hall.1.1 htogether
  obtain ⟨stored, hstored, hsame⟩ := hall.2 first doneA second doneB hfirst hsecond
  exact ⟨⟨has, hbs, hapart, hquiet⟩, first, doneA, second, doneB, stored, hfirst, hsecond, hstored,
    hsame⟩

end Store

end Workflow
