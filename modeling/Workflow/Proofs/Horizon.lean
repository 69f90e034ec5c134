import Workflow.Delayer
import Workflow.Proofs.Clock
import Workflow.Proofs.Delays
import Workflow.Proofs.Lease
import Workflow.Proofs.Written

/-!
# What a delayer keeps in reach

The delayer that holds the lease tracks an item, or its horizon has not come to it, or the item was
put off after all that was seen behind the horizon. The watermark that it may store leaves as much
in reach.
-/

set_option autoImplicit false

namespace Workflow

/-- The watermark of the delayed states in a meta state. -/
def State.delayMark (s : State) : Instant × Int :=
  (((s.annotations.get? Mark.delayerSince).bind Instant.parse?).getD .epoch,
    ((s.annotations.get? Mark.delayerOffset).bind fun v => Numeral.int64? v.toList).getD 0)

/-- Whoever reads on from the mark may come across the item: it is not due before the horizon, or
has a later offset. -/
def Delayed.Ahead (x : Delayed) (mark : Instant × Int) : Prop :=
  mark.1 ≤ x.dueAt ∨ mark.2 < x.offset

/-- Firing the item does not commit the state. -/
def Delayed.Spares (id : StateId) (x : Delayed) : Prop :=
  Delayer.commits x = true → x.state.id ≠ id

instance (id : StateId) (x : Delayed) : Decidable (x.Spares id) :=
  inferInstanceAs (Decidable (_ → _))

namespace Delays

/-- A mark whose offset was given and whose horizon does not go beyond the limit. -/
structure Within (limit : Instant) (d : Delays) (mark : Instant × Int) : Prop where
  offset : 0 ≤ mark.2 ∧ mark.2 ≤ d.lastOffset
  since : mark.1 ≤ .epoch ∨ mark.1 ≤ limit

/-- Such a mark with all items in question ahead of it. -/
structure Covered (asked : Delayed → Prop) (limit : Instant) (d : Delays) (mark : Instant × Int) :
    Prop extends Within limit d mark where
  ahead : ∀ o x, d.items.get? o = some x → asked x → x.Ahead mark

section

variable {asked : Delayed → Prop} {limit limit' : Instant} {d later : Delays} {mark : Instant × Int}
  (hgrows : d.Grows later) (hlimit : limit ≤ limit')

include hgrows hlimit

theorem Within.mono (h : d.Within limit mark) : later.Within limit' mark :=
  ⟨⟨h.offset.1, Int.le_trans h.offset.2 hgrows.lastOffset_le⟩,
    h.since.imp_right fun hle => Instant.le_trans hle hlimit⟩

theorem Covered.mono (hlater : later.Sound) (h : d.Covered asked limit mark) :
    later.Covered asked limit' mark := by
  refine ⟨h.toWithin.mono hgrows hlimit, fun o x hx hasked => ?_⟩
  rcases hgrows.old_or_new o x hx with hold | hnew
  · exact h.ahead o x hold hasked
  · have hoffset := hlater.offset_eq o x hx
    have hle := h.offset.2
    exact .inr (by omega)

end

end Delays

/-! ### Stored watermarks -/

/-- Noting a watermark of the delayed states in a meta state. -/
def Delayer.noting (mark : Instant × Int) : Draft.Change :=
  ⟨Delayer.noteWatermark mark, fun _ => rfl, fun _ => rfl⟩

section

variable {e : State} {named : String}

theorem State.delayMark_taken {last : State}
    (h : e.annotations = last.annotations.insert Mark.leaseHolder named) :
    e.delayMark = last.delayMark := by
  rw [delayMark, h, SortedMap.get?_insert_of_ne _ _ (by decide),
    SortedMap.get?_insert_of_ne _ _ (by decide)]
  rfl

theorem State.delayMark_noted {d : Draft} {mark : Instant × Int} (hoffset : 0 ≤ mark.2)
    (h : e.annotations =
      ((Delayer.noting mark).apply d).current.annotations.insert Mark.leaseHolder named) :
    (e.delayMark.1 = mark.1 ∨ e.delayMark.1 = .epoch) ∧
      (e.delayMark.2 = mark.2 ∨ e.delayMark.2 = 0) := by
  have hsince : ((Delayer.noting mark).apply d).current.annotations.get? Mark.delayerSince =
      some mark.1.format :=
    (SortedMap.get?_insert_of_ne _ _ (by decide)).trans (SortedMap.get?_insert_self ..)
  have hnoted : ((Delayer.noting mark).apply d).current.annotations.get? Mark.delayerOffset =
      some (toString mark.2) := SortedMap.get?_insert_self ..
  obtain ⟨since, offset⟩ := mark
  obtain ⟨n, rfl⟩ := Int.eq_ofNat_of_zero_le hoffset
  rw [State.delayMark, h, SortedMap.get?_insert_of_ne _ _ (by decide),
    SortedMap.get?_insert_of_ne _ _ (by decide), hsince, hnoted, Option.bind_some, Option.bind_some,
    Instant.parse?_format, Numeral.int64?_toString]
  simp only
  constructor
  · split
    · exact .inl rfl
    · exact .inr rfl
  · split
    · exact .inl rfl
    · exact .inr rfl

variable {asked : Delayed → Prop} {limit : Instant} {s : Delays}

theorem Delays.Covered.noted {d : Draft} {mark : Instant × Int} (h : s.Covered asked limit mark)
    (hs : s.Sound) (hasked : ∀ x, asked x → .epoch ≤ x.dueAt)
    (hnotes : e.annotations =
      ((Delayer.noting mark).apply d).current.annotations.insert Mark.leaseHolder named) :
    s.Covered asked limit e.delayMark := by
  obtain ⟨hsince, hoffset⟩ := State.delayMark_noted h.offset.1 hnotes
  have hbounds := h.offset
  refine ⟨⟨by omega, ?_⟩, fun o x hx hq => ?_⟩
  · rcases hsince with heq | heq
    · rw [heq]
      exact h.since
    · rw [heq]
      exact .inl (Instant.le_refl _)
  · have hgiven := hs.given o x hx
    have hat := hs.offset_eq o x hx
    rcases h.ahead o x hx hq with hdue | hlater
    · rcases hsince with heq | heq
      · exact .inl (heq ▸ hdue)
      · exact .inl (heq ▸ hasked x hq)
    · exact .inr (by omega)

theorem Delays.covered_first (hs : s.Sound) : s.Covered asked limit (.epoch, 0) := by
  refine ⟨⟨⟨Int.le_refl 0, hs.lastOffset_nonneg⟩, .inl (Instant.le_refl _)⟩,
    fun o x hx _ => .inr ?_⟩
  have hgiven := hs.given o x hx
  have hat := hs.offset_eq o x hx
  change 0 < x.offset
  omega

end

namespace Delayer

/-- Where a delayer reads on. -/
def mark (d : Delayer) : Instant × Int := (d.since, d.offset)

/-- What holds of a delayer that takes itself for the holder: it tracks items that are as they were
put off, and all items in question that it does not track are ahead of it. -/
structure Reaches (asked : Delayed → Prop) (metaId : StateId) (limit : Instant) (d : Delayer)
    (s : Delays) : Prop where
  within : s.Within limit d.mark
  tracked : ∀ o x, d.tracked.get? o = some x → o ≤ s.lastOffset ∧ x.offset = o ∧
    x.Spares metaId ∧ ∀ y, s.items.get? o = some y → y = x
  ahead : ∀ o x, s.items.get? o = some x → asked x → d.tracked.get? o = some x ∨ x.Ahead d.mark

section

variable {asked : Delayed → Prop} {metaId : StateId} {limit limit' : Instant} {d : Delayer}
  {s later : Delays}

theorem Reaches.mono (h : d.Reaches asked metaId limit s) (hgrows : s.Grows later)
    (hlater : later.Sound) (hlimit : limit ≤ limit') : d.Reaches asked metaId limit' later := by
  have hwithin := h.within.mono hgrows hlimit
  refine ⟨hwithin, fun o x hx => ?_, fun o x hx hq => ?_⟩
  · obtain ⟨hle, hoffset, hspares, hsame⟩ := h.tracked o x hx
    refine ⟨Int.le_trans hle hgrows.lastOffset_le, hoffset, hspares, fun y hy => ?_⟩
    rcases hgrows.old_or_new o y hy with hold | hnew
    · exact hsame y hold
    · omega
  · rcases hgrows.old_or_new o x hx with hold | hnew
    · exact h.ahead o x hold hq
    · have hoffset := hlater.offset_eq o x hx
      have hle := h.within.offset.2
      exact .inr (.inr (by omega))

theorem Reaches.covered (h : d.Reaches asked metaId limit s) :
    s.Covered asked limit d.watermark := by
  obtain ⟨hsince, hdue⟩ :=
    Instant.foldl_min_le d.since (d.tracked.values.map Delayed.dueAt)
  refine ⟨⟨h.within.offset, h.within.since.imp (Instant.le_trans hsince) (Instant.le_trans hsince)⟩,
    fun o x hx hq => ?_⟩
  rcases h.ahead o x hx hq with htracked | hahead | hlater
  · have hvalue := d.tracked.mem_values_iff.2 ⟨o, htracked⟩
    exact .inl (hdue _ (List.mem_map.2 ⟨x, hvalue, rfl⟩))
  · exact .inl (Instant.le_trans hsince hahead)
  · exact .inr hlater

theorem reaches_reset (h : s.Covered asked limit d.lease.known.current.delayMark) :
    d.reset.Reaches asked metaId limit s :=
  ⟨h.toWithin, fun _ _ hx => (nomatch hx), fun o x hx hq => .inr (h.ahead o x hx hq)⟩

theorem Reaches.congr (h : d.Reaches asked metaId limit s) {next : Delayer}
    (hmark : next.mark = d.mark) (htracked : next.tracked = d.tracked) :
    next.Reaches asked metaId limit s := by
  refine ⟨hmark ▸ h.within, fun o x hx => ?_, fun o x hx hq => ?_⟩
  · exact h.tracked o x (htracked ▸ hx)
  · rw [hmark, htracked]
    exact h.ahead o x hx hq

theorem Reaches.acknowledged (h : d.Reaches asked metaId limit s) (hs : s.Sound) {offset : Int}
    {next : Delayer} (hmark : next.mark = d.mark)
    (htracked : next.tracked = d.tracked.erase offset) :
    next.Reaches asked metaId limit (s.acknowledge offset) := by
  have hlater := h.mono (Delays.grows_acknowledge s offset) (hs.acknowledge offset)
    (Instant.le_refl limit)
  refine ⟨?_, fun o x hx => ?_, fun o x hx hq => ?_⟩
  · rw [hmark]
    exact hlater.within
  · rw [htracked, SortedMap.get?_erase] at hx
    split at hx
    · cases hx
    · exact hlater.tracked o x hx
  · have hne := (Delays.get?_of_acknowledge hx).1
    rw [hmark, htracked, SortedMap.get?_erase_of_ne _ hne]
    exact hlater.ahead o x hx hq

end

/-! ### Reading on -/

/-- The delayer tracks what it tracked before, and items of the store. -/
structure Gathers (s : Delays) (d next : Delayer) : Prop where
  frame : next = { d with tracked := next.tracked }
  keeps : ∀ o x, d.tracked.get? o = some x → next.tracked.get? o = some x
  finds : ∀ o x, next.tracked.get? o = some x →
    d.tracked.get? o = some x ∨ s.items.get? o = some x

/-- It gathered the items of a window after one offset, up to another or all of them. -/
structure Pulled (s : Delays) (since before : Instant) (start : Int) (d next : Delayer) (upTo : Int)
    (complete : Bool) : Prop extends Gathers s d next where
  start_le : start ≤ upTo
  upTo_le : upTo ≤ max start s.lastOffset
  found : ∀ o x, s.items.get? o = some x → since ≤ x.dueAt → x.dueAt < before → start < o →
    complete = true ∨ o ≤ upTo → (next.tracked.get? o).isSome

section

variable {s : Delays} {d next last : Delayer}

theorem gathers_refl (s : Delays) (d : Delayer) : Gathers s d d :=
  ⟨rfl, fun _ _ hx => hx, fun _ _ hx => .inl hx⟩

theorem Gathers.trans (h : Gathers s d next) (h' : Gathers s next last) : Gathers s d last := by
  refine ⟨?_, fun o x hx => h'.keeps o x (h.keeps o x hx), fun o x hx => ?_⟩
  · rw [h'.frame, h.frame]
  · rcases h'.finds o x hx with hold | hnew
    · exact h.finds o x hold
    · exact .inr hnew

theorem Gathers.isSome (h : Gathers s d next) {o : Int} (ho : (d.tracked.get? o).isSome) :
    (next.tracked.get? o).isSome := by
  obtain ⟨x, hx⟩ := Option.isSome_iff_exists.1 ho
  rw [h.keeps o x hx]
  rfl

theorem gathers_track {x : Delayed} (hx : s.items.get? x.offset = some x) :
    Gathers s d (d.track x) ∧ ((d.track x).tracked.get? x.offset).isSome := by
  have hget : ∀ o, (d.track x).tracked.get? o =
      (d.tracked.get? o).or (if o = x.offset then some x else none) :=
    fun o => SortedMap.get?_insertNew _ _ _ _
  refine ⟨⟨rfl, fun o y hy => ?_, fun o y hy => ?_⟩, ?_⟩
  · rw [hget, hy, Option.some_or]
  · rw [hget, Option.or_eq_some_iff] at hy
    rcases hy with hold | ⟨-, hnew⟩
    · exact .inl hold
    · split at hnew
      next heq =>
        cases hnew
        exact .inr (heq ▸ hx)
      next => cases hnew
  · rw [hget, if_pos rfl]
    cases d.tracked.get? x.offset <;> rfl

theorem gathers_foldl {items : List Delayed}
    (hitems : ∀ x ∈ items, s.items.get? x.offset = some x) :
    Gathers s d (items.foldl track d) ∧
      ∀ x ∈ items, ((items.foldl track d).tracked.get? x.offset).isSome := by
  induction items generalizing d with
  | nil => exact ⟨gathers_refl s d, fun _ hx => nomatch hx⟩
  | cons y rest ih =>
    obtain ⟨hfirst, hy⟩ := gathers_track (d := d) (hitems y List.mem_cons_self)
    obtain ⟨hrest, hsparess⟩ :=
      ih (d := d.track y) fun x hx => hitems x (List.mem_cons_of_mem _ hx)
    refine ⟨hfirst.trans hrest, fun x hx => ?_⟩
    rcases List.mem_cons.1 hx with rfl | hx
    · exact hrest.isSome hy
    · exact hsparess x hx

theorem pulled_none (s : Delays) (since before : Instant) (start : Int) (d : Delayer) :
    Pulled s since before start d d start false := by
  refine ⟨gathers_refl s d, Int.le_refl start, by omega, fun o x _ _ _ hlt hend => ?_⟩
  rcases hend with hend | hle
  · cases hend
  · omega

theorem pulled_page (hs : s.Sound) {since before : Instant} {start : Int} {limit : Nat}
    {page : Page Delayed} (hpage : s.page { since, before, offset := start, limit } = page) :
    Pulled s since before start d (page.items.foldl track d) (Delays.furthest start page.items)
      (!page.more) := by
  subst hpage
  have hitems : ∀ x ∈ (s.page { since, before, offset := start, limit }).items,
      s.items.get? x.offset = some x :=
    fun x hx => (hs.get?_of_mem_page hx).1
  obtain ⟨hgathers, htracked⟩ := gathers_foldl (d := d) hitems
  refine ⟨hgathers, (Delays.le_furthest start _).1, ?_, fun o x hx hsince hbefore ho hend => ?_⟩
  · have hlt : Delays.furthest start _ < max start s.lastOffset + 1 :=
      Delays.furthest_lt (by omega) fun x hx => by
        have hgiven := (hs.given _ x (hitems x hx)).2
        omega
    omega
  · have hat := hs.offset_eq o x hx
    have hmem : x ∈ (s.page { since, before, offset := start, limit }).items := by
      refine hs.mem_page hx ?_ (hend.imp (fun hlast => ?_) fun hle => hle)
      · unfold DelayQuery.accepts
        simp only [Bool.and_eq_true, decide_eq_true_eq]
        exact ⟨⟨by omega, hsince⟩, hbefore⟩
      · simpa using hlast
    rw [← hat]
    exact htracked x hmem

theorem Pulled.trans {since before : Instant} {start middle upTo : Int} {complete : Bool}
    (h : Pulled s since before start d next middle false)
    (h' : Pulled s since before middle next last upTo complete) :
    Pulled s since before start d last upTo complete := by
  have hfirst := h.start_le
  have hfirst' := h.upTo_le
  have hrest := h'.start_le
  have hrest' := h'.upTo_le
  refine ⟨h.toGathers.trans h'.toGathers, by omega, by omega,
    fun o x hx hsince hbefore ho hend => ?_⟩
  by_cases hle : o ≤ middle
  · exact h'.isSome (h.found o x hx hsince hbefore ho (.inr hle))
  · exact h'.found o x hx hsince hbefore (by omega) hend

variable {asked : Delayed → Prop} {metaId : StateId} {limit : Instant}
  (h : d.Reaches asked metaId limit s) (hs : s.Sound)
  (hspares : ∀ o x, s.items.get? o = some x → x.Spares metaId)

include h hs hspares

theorem Reaches.gathers (hnext : Gathers s d next) : next.Reaches asked metaId limit s := by
  have hmark : next.mark = d.mark := by
    rw [hnext.frame]
    rfl
  refine ⟨hmark ▸ h.within, fun o x hx => ?_, fun o x hx hq => ?_⟩
  · rcases hnext.finds o x hx with hold | hitem
    · exact h.tracked o x hold
    · refine ⟨(hs.given o x hitem).2, hs.offset_eq o x hitem, hspares o x hitem, fun y hy => ?_⟩
      exact Option.some.inj (hy.symm.trans hitem)
  · rw [hmark]
    exact (h.ahead o x hx hq).imp_left (hnext.keeps o x)

theorem Reaches.tracked_of_isSome (hnext : Gathers s d next) {o : Int} {x : Delayed}
    (hx : s.items.get? o = some x) (hfound : (next.tracked.get? o).isSome) :
    next.tracked.get? o = some x := by
  obtain ⟨y, hy⟩ := Option.isSome_iff_exists.1 hfound
  rw [((h.gathers hs hspares hnext).tracked o y hy).2.2.2 x hx, hy]

theorem Reaches.horizon {before : Instant} {upTo : Int}
    (hp : Pulled s d.since before 0 d next upTo true) (hbefore : before ≤ limit) :
    Reaches asked metaId limit { next with since := before } s := by
  have hgathered := h.gathers hs hspares hp.toGathers
  have hoffset : next.offset = d.offset := by
    rw [hp.frame]
  refine ⟨⟨hgathered.within.offset, .inr hbefore⟩, hgathered.tracked, fun o x hx hq => ?_⟩
  rcases h.ahead o x hx hq with htracked | hdue | hlater
  · exact .inl (hp.keeps o x htracked)
  · by_cases hlt : x.dueAt < before
    · have hfound := hp.found o x hx hdue hlt (hs.given o x hx).1 (.inl rfl)
      exact .inl (h.tracked_of_isSome hs hspares hp.toGathers hx hfound)
    · exact .inr (.inl (Instant.not_lt_iff.1 hlt))
  · refine .inr (.inr ?_)
    change next.offset < x.offset
    rw [hoffset]
    exact hlater

/-- Items that a look behind the horizon passes are tracked, or due after the horizon, unless they
were due before it looked. -/
theorem Reaches.fresh {since : Instant} {upTo : Int} {complete : Bool}
    (hp : Pulled s since limit d.offset d next upTo complete)
    (hasked : ∀ x, asked x → .epoch ≤ x.dueAt)
    (hseen : ∀ o x, s.items.get? o = some x → asked x → d.tracked.get? o ≠ some x →
      x.dueAt < d.since → since ≤ x.dueAt) :
    Reaches asked metaId limit { next with offset := upTo } s := by
  have hgathered := h.gathers hs hspares hp.toGathers
  have hsince : next.since = d.since := by
    rw [hp.frame]
  have hwithin := h.within
  have hstart := hp.start_le
  have hend := hp.upTo_le
  obtain ⟨hlow, hhigh⟩ : 0 ≤ d.offset ∧ d.offset ≤ s.lastOffset := hwithin.offset
  refine ⟨⟨?_, hgathered.within.since⟩, hgathered.tracked, fun o x hx hq => ?_⟩
  · change 0 ≤ upTo ∧ upTo ≤ s.lastOffset
    omega
  · have hat := hs.offset_eq o x hx
    rcases h.ahead o x hx hq with htracked | hdue | hlater
    · exact .inl (hp.keeps o x htracked)
    · exact .inr (.inl (hsince ▸ hdue))
    · change d.offset < x.offset at hlater
      by_cases htracked : d.tracked.get? o = some x
      · exact .inl (hp.keeps o x htracked)
      by_cases hdue : d.since ≤ x.dueAt
      · exact .inr (.inl (hsince ▸ hdue))
      by_cases hpassed : upTo < x.offset
      · exact .inr (.inr hpassed)
      · have hbefore : x.dueAt < limit := by
          rw [← Instant.not_le_iff]
          intro hlimit
          rcases hwithin.since with hepoch | hle
          · exact hdue (Instant.le_trans hepoch (hasked x hq))
          · exact hdue (Instant.le_trans hle hlimit)
        have hlow := hseen o x hx hq htracked (Instant.not_le_iff.1 hdue)
        have hfound := hp.found o x hx hlow hbefore (by omega) (.inr (by omega))
        exact .inl (h.tracked_of_isSome hs hspares hp.toGathers hx hfound)

end

end Delayer

end Workflow
