import Workflow.Proofs.Dispatching
import Workflow.Proofs.Reference

/-!
# References are followed

A reference to a stored blob is noted in the state, and read from the notes of the state. Notes of
the transition go before them, so the blob is found again unless the transition has a note of that
name that refers to something else.
-/

set_option autoImplicit false

namespace Workflow

open Effect

theorem State.note?_annotate (s : State) (name value : String) :
    (s.annotate name value).note? name = some ((s.transition.note? name).getD value) := by
  have ht : (s.annotate name value).transition = s.transition := rfl
  cases hnote : s.transition.note? name with
  | none => exact s.note?_annotate_self value hnote
  | some first =>
    rw [note?, ht, hnote]
    rfl

namespace Store

/-- A text refers to a blob: it is read as a reference, and there the store has the blob. -/
def RefersTo (s : Store) (raw : String) (blob : Blob) : Prop :=
  ∃ id rev, Reference.parse raw = .ok (id, rev) ∧ s.blobs.fetch id rev = .ok blob

section

variable {s : Store} {history : List Blob} (h : s.blobs.Records history) {blob : Blob}
  (hmem : blob ∈ s.blobs.of blob.id)

include h hmem

theorem rev_pos_of_mem : 0 < blob.rev := by
  obtain ⟨p, hp⟩ := List.mem_iff_getElem?.1 hmem
  have hrev := h.numbered blob.id p blob hp
  omega

theorem refersTo_format (hid : blob.id.isEmpty = false)
    (hfits : Numeral.fitsInt64 blob.rev = true) :
    s.RefersTo (Reference.format blob.id blob.rev) blob := by
  rw [h.versions, List.mem_filter] at hmem
  exact ⟨blob.id, blob.rev, Reference.parse_of_spells (Reference.spells_format hid hfits),
    h.fetch_of_mem hmem.1⟩

end

theorem effect_deref_eq_ok_iff {s : Store} {d : Draft} {note raw : String}
    (hnote : d.current.note? note = some raw) {found : Option Blob} {blob : Blob} :
    s.effect d (.deref d note found) = .ok (.deref d note (some blob)) ↔ s.RefersTo raw blob := by
  have happly : ((Command.deref d note found).withDraft d).apply =
      Reference.parse raw >>= fun r => .ok (.deref d note (some (.reference r.1 r.2))) := by
    rw [Command.withDraft_of_draft? rfl, Command.apply, Command.applyDeref, hnote]
  unfold effect
  rw [happly]
  constructor
  · intro h
    obtain ⟨applied, hparsed, hresolve⟩ := Fault.bind_eq_ok_iff.1 h
    obtain ⟨⟨id, rev⟩, hparse, hok⟩ := Fault.bind_eq_ok_iff.1 hparsed
    cases hok
    obtain ⟨stored, hfetch, hok⟩ := Fault.bind_eq_ok_iff.1 hresolve
    cases hok
    exact ⟨id, rev, hparse, hfetch⟩
  · rintro ⟨id, rev, hparse, hfetch⟩
    rw [hparse]
    change s.blobs.fetch id rev >>= _ = _
    rw [hfetch]
    rfl

end Store

theorem perform_deref {site : Site} (hplain : site.Plain fun _ _ => False) (d : Draft)
    (note : String) (found : Option Blob) (c : Command) :
    let result := dispatch.perform (.deref d note found) site
    result.2.2.store = site.store ∧
      (result.1 = .ok () ∧ result.2.1 = c ↔
        site.store.effect d (.deref d note found) = .ok c) := by
  have hleads := leads_dispatch_deref hplain d note found
  rw [Store.act_of_works rfl rfl] at hleads
  unfold Leads at hleads
  unfold Work.perform
  generalize dispatch.run.run (Command.deref d note found, site) = result at hleads ⊢
  obtain ⟨outcome, done, after⟩ := result
  cases heffect : site.store.effect d (.deref d note found) with
  | ok applied =>
    rw [heffect] at hleads
    obtain ⟨g, rfl, hafter⟩ := hleads
    cases hafter
    simp
  | error fault =>
    rw [heffect] at hleads
    obtain ⟨g, rfl, rfl⟩ := hleads
    simp

theorem perform_refer {blob : Blob} (hid : blob.id.isEmpty = false) (hrev : 0 < blob.rev)
    (d : Draft) (note : String) (site : Site) :
    dispatch.perform (.refer d blob note) site =
      (.ok (), .refer (d.annotate note (Reference.format blob.id blob.rev)) blob note, site) := by
  have happly : (Command.refer d blob note).apply =
      .ok (.refer (d.annotate note (Reference.format blob.id blob.rev)) blob note) := by
    rw [Command.apply, Command.applyRefer, hid, decide_eq_false (by omega), Bool.or_false]
    rfl
  exact (Command.perform_settle (.refer d blob note) site).trans (by rw [happly])

/-- A reference to a stored blob can always be noted. It is then followed to this blob, and changes
nothing else, unless the transition has a note of the same name that refers to another blob or to
none. -/
theorem referred_blob_is_read_unless_overridden (requests : List Store.Request) {blob : Blob}
    (hmem : blob ∈ (Store.run requests).blobs.of blob.id) (hid : blob.id.isEmpty = false)
    (hfits : Numeral.fitsInt64 blob.rev = true) (d : Draft) (note : String) {site : Site}
    (hstore : site.store = Store.run requests) (hplain : site.Plain fun _ _ => False) :
    let referred := d.annotate note (Reference.format blob.id blob.rev)
    dispatch.perform (.refer d blob note) site = (.ok (), .refer referred blob note, site) ∧
      ∀ found,
        let result := dispatch.perform (.deref referred note found) site
        result.2.2.store = site.store ∧
          (result.1 = .ok () ∧ result.2.1 = .deref referred note (some blob) ↔
            ∀ raw, d.current.transition.note? note = some raw → site.store.RefersTo raw blob) := by
  intro referred
  have hrecords := Store.records_run requests
  rw [← hstore] at hrecords hmem
  refine ⟨perform_refer hid (Store.rev_pos_of_mem hrecords hmem) d note site, fun found => ?_⟩
  have hnote : referred.current.note? note =
      some ((d.current.transition.note? note).getD (Reference.format blob.id blob.rev)) :=
    d.current.note?_annotate note _
  have hformat := Store.refersTo_format hrecords hmem hid hfits
  obtain ⟨hkept, hread⟩ :=
    perform_deref hplain referred note found (.deref referred note (some blob))
  refine ⟨hkept, hread.trans ((Store.effect_deref_eq_ok_iff hnote).trans ?_)⟩
  cases d.current.transition.note? note with
  | none => exact ⟨fun _ _ => nofun, fun _ => hformat⟩
  | some first =>
    constructor
    · rintro hfirst raw ⟨⟩
      exact hfirst
    · exact fun hall => hall first rfl

/-- The second of two revisions is referred to; the transition has a note of another name. -/
theorem referred_blob_is_read_unless_overridden_of_revision :
    let asked (bytes : List UInt8) : Blob := ⟨⟨"d1"⟩, 0, false, bytes⟩
    let requests : List Store.Request :=
      [.storeBlob (asked [117, 110, 111]), .storeBlob (asked [100, 111, 115])]
    let blob : Blob := ⟨⟨"d1"⟩, 2, false, [100, 111, 115]⟩
    let site : Site := ⟨⟨Store.run requests, .free, .direct⟩, default, true, []⟩
    let arrival : Transition := ⟨default, ⟨"a"⟩, .ofList [("other", "data:d1:1")]⟩
    let d : Draft := .ofState { State.new ⟨"s1"⟩ with transition := arrival }
    let referred := d.annotate "doc" "data:d1:2"
    blob ∈ (Store.run requests).blobs.of blob.id ∧ blob.id.isEmpty = false ∧
      Numeral.fitsInt64 blob.rev = true ∧ site.Plain (fun _ _ => False) ∧
      dispatch.perform (.refer d blob "doc") site = (.ok (), .refer referred blob "doc", site) ∧
      (dispatch.perform (.deref referred "doc" none) site).1 = .ok () ∧
      (dispatch.perform (.deref referred "doc" none) site).2.1 =
        .deref referred "doc" (some blob) := by
  intro asked requests blob site arrival d referred
  have hmem : blob ∈ (Store.run requests).blobs.of blob.id := by decide +kernel
  have hplain : site.Plain fun _ _ => False := ⟨rfl, fun _ _ h => nomatch h⟩
  have hfree : d.current.transition.note? "doc" = none := by decide +kernel
  have hformat : Reference.format blob.id blob.rev = "data:d1:2" := by decide +kernel
  obtain ⟨hrefer, hderef⟩ :=
    referred_blob_is_read_unless_overridden requests hmem rfl rfl d "doc" rfl hplain
  rw [hformat] at hrefer hderef
  obtain ⟨-, hread⟩ := hderef none
  obtain ⟨hok, hdone⟩ := hread.2 fun raw hraw => by
    rw [hfree] at hraw
    cases hraw
  exact ⟨hmem, rfl, rfl, hplain, hrefer, hok, hdone⟩

/-- The first revision was noted in the transition, so it is read although the second one is
referred to afterwards. -/
theorem referred_blob_is_overridden_by_transition :
    let asked (bytes : List UInt8) : Blob := ⟨⟨"d1"⟩, 0, false, bytes⟩
    let requests : List Store.Request :=
      [.storeBlob (asked [117, 110, 111]), .storeBlob (asked [100, 111, 115])]
    let first : Blob := ⟨⟨"d1"⟩, 1, false, [117, 110, 111]⟩
    let blob : Blob := ⟨⟨"d1"⟩, 2, false, [100, 111, 115]⟩
    let site : Site := ⟨⟨Store.run requests, .free, .direct⟩, default, true, []⟩
    let arrival : Transition := ⟨default, ⟨"a"⟩, .ofList [("doc", "data:d1:1")]⟩
    let d : Draft := .ofState { State.new ⟨"s1"⟩ with transition := arrival }
    let referred := d.annotate "doc" "data:d1:2"
    blob ∈ (Store.run requests).blobs.of blob.id ∧ blob.id.isEmpty = false ∧
      Numeral.fitsInt64 blob.rev = true ∧ site.Plain (fun _ _ => False) ∧
      dispatch.perform (.refer d blob "doc") site = (.ok (), .refer referred blob "doc", site) ∧
      (dispatch.perform (.deref referred "doc" none) site).1 = .ok () ∧
      (dispatch.perform (.deref referred "doc" none) site).2.1 =
        .deref referred "doc" (some first) ∧
      first ≠ blob := by
  intro asked requests first blob site arrival d referred
  have hplain : site.Plain fun _ _ => False := ⟨rfl, fun _ _ h => nomatch h⟩
  have hformat : Reference.format blob.id blob.rev = "data:d1:2" := by decide +kernel
  have hrefer := perform_refer (by decide : blob.id.isEmpty = false) (by decide) d "doc" site
  rw [hformat] at hrefer
  have hnote : referred.current.note? "doc" = some "data:d1:1" := by decide +kernel
  have hfirst : site.store.RefersTo "data:d1:1" first :=
    ⟨⟨"d1"⟩, 1, by decide +kernel, by decide +kernel⟩
  obtain ⟨-, hread⟩ :=
    perform_deref hplain referred "doc" none (.deref referred "doc" (some first))
  obtain ⟨hok, hdone⟩ := hread.2 ((Store.effect_deref_eq_ok_iff hnote).2 hfirst)
  exact ⟨by decide +kernel, rfl, rfl, hplain, hrefer, hok, hdone, by decide⟩

end Workflow
