import Workflow.Proofs.Delaying

/-!
# No waiting item is lost

In every run of delayers that share a meta state, an item that waits is tracked by the delayer that
holds the lease, or lies ahead of it, unless a look behind the horizon came too late for it.
-/

set_option autoImplicit false

namespace Workflow

namespace Delayer

/-- What a delayer does in a turn. -/
inductive Op where
  | scanHorizon
  | scanFresh
  | scanDue
  | storeWatermark
  | stop

variable {ι : Type}

def role (c : ι → DelayerSettings) : Role ι Delayer Op where
  start i :=
    match (c i).validate, (c i).staleAfter? with
    | .ok _, some stale => some (.new (c i), start stale)
    | _, _ => none
  work i
    | .scanHorizon =>
      match (c i).staleAfter? with
      | some stale => scanHorizon (c i) stale
      | none => pure ()
    | .scanFresh => scanFresh (c i)
    | .scanDue => scanDue
    | .storeWatermark => storeWatermark (c i)
    | .stop => stop

/-- From when on a delayer looks for items behind its horizon. -/
def freshFrom (c : DelayerSettings) (d : Delayer) (now : Instant) : Instant :=
  if d.offset = 0 then .epoch else now - c.freshnessLookback

/-- The look of a delayer behind its horizon comes too late for an item that only it could find. -/
structure LooksTooLate (c : DelayerSettings) (d : Delayer) (now : Instant) (x : Delayed) :
    Prop where
  active : d.lease.active = true
  untracked : x ∉ d.tracked.values
  behind : x.dueAt < d.since
  late : x.dueAt < d.freshFrom c now

section

variable {c : ι → DelayerSettings} {metaId : StateId} {i : ι} {m : Moment} {s : Store}
  {asked : Delayed → Prop} {limit : Instant} {d : Delayer}

variable (hmeta : ∀ i, (c i).metaId = metaId) (hs : s.Marked asked metaId limit)
  (hasked : ∀ x, asked x → .epoch ≤ x.dueAt)

include hmeta hs hasked

theorem leads_begin {own : Delayer} {x : Work Delayer Unit}
    (hx : (role c).start i = some (own, x)) :
    Effect.Leads x (own, m.site s) fun outcome p =>
      p.2.store.Marked asked metaId limit ∧ s.Grows p.2.store ∧
        (outcome = .ok () → p.1.Watches asked metaId (c i).holder limit p.2.store) := by
  obtain rfl := hmeta i
  simp only [role] at hx
  split at hx
  next =>
    cases hx
    exact leads_start (m.plain_site s) hs hasked _
  next => cases hx

omit hmeta in
theorem leads_work (hd : d.Watches asked metaId (c i).holder limit s)
    (hspares : ∀ o x, s.delays.items.get? o = some x → x.Spares metaId)
    (hlimit : m.now + (c i).horizonLookahead = limit) (op : Op)
    (hfresh : op = .scanFresh → ∀ o x, s.delays.items.get? o = some x → asked x →
      ¬ LooksTooLate (c i) d m.now x) :
    Effect.Leads ((role c).work i op) (d, m.site s) fun _ p =>
      Leaves asked metaId (c i).holder limit s p := by
  have hplain := m.plain_site s
  cases op with
  | scanHorizon =>
    simp only [role]
    split
    · exact leads_scanHorizon hs hd hplain hspares _ hlimit
    · exact leaves_same (m.site s) hs hd
  | scanFresh =>
    refine leads_scanFresh hs hd hplain hspares hlimit hasked ?_
    intro ha o x hx hq huntracked hbehind
    by_contra hlate
    refine hfresh rfl o x hx hq ⟨ha, ?_, hbehind, Instant.not_le_iff.1 hlate⟩
    intro hvalue
    obtain ⟨o', ho'⟩ := d.tracked.mem_values_iff.1 hvalue
    have hat := ((hd.reaches ha).tracked o' x ho').2.1
    have hat' := hs.delays.offset_eq o x hx
    exact huntracked ((hat.symm.trans hat') ▸ ho')
  | scanDue => exact leads_scanDue hplain hs hd
  | storeWatermark => exact leads_storeWatermark hs hd hplain hasked
  | stop => exact leads_stop hs hd hplain hasked

end

/-! ### Runs -/

open Workflow.Group

variable [DecidableEq ι]

/-- The items that wait after the first turns of a run. -/
def waiting (c : ι → DelayerSettings) (turns : List (Turn ι Op)) (k : Nat) : List Delayed :=
  (run (role c) (turns.take k)).store.delays.items.values

/-- A look behind the horizon came too late for an item that waited. -/
def LeftBehind (c : ι → DelayerSettings) (turns : List (Turn ι Op)) (x : Delayed) : Prop :=
  ∃ k i m d, turns[k]? = some (.work i .scanFresh m) ∧
    (run (role c) (turns.take k)).member i = some d ∧ x ∈ waiting c turns k ∧
      LooksTooLate (c i) d m.now x

/-- Delayers share a meta state, which nobody else commits or puts off to be committed, and a clock,
and look ahead as far as each other. -/
structure Shared (c : ι → DelayerSettings) (metaId : StateId) (ahead : Span) (start : Instant)
    (elapsed : Nat → Span) (turns : List (Turn ι Op)) : Prop where
  metaId_eq : ∀ i, (c i).metaId = metaId
  ahead_eq : ∀ i, (c i).horizonLookahead = ahead
  timed : Turn.Timed start elapsed turns
  spared : ∀ t ∈ turns, t.Spares metaId
  spares : ∀ k ≤ turns.length, ∀ x ∈ waiting c turns k, x.Spares metaId

section

variable {c : ι → DelayerSettings} {metaId : StateId} {ahead : Span} {start : Instant}
  {elapsed : Nat → Span} {turns : List (Turn ι Op)}

/-- An item that should be found: it is due in 1970 or later, and no look came too late for it. -/
def Due (c : ι → DelayerSettings) (turns : List (Turn ι Op)) (x : Delayed) : Prop :=
  .epoch ≤ x.dueAt ∧ ¬ LeftBehind c turns x

/-- The store is marked before the horizon of the next turn, and every delayer watches it. -/
def Attended (c : ι → DelayerSettings) (metaId : StateId) (asked : Delayed → Prop) (limit : Instant)
    (g : Group ι Delayer) : Prop :=
  Holds (fun s => s.Marked asked metaId limit)
    (fun i d s => d.Watches asked metaId (c i).holder limit s) g

section

variable (h : Shared c metaId ahead start elapsed turns)

include h

theorem Shared.attended_step {k : Nat} {t : Turn ι Op} (hat : turns[k]? = some t)
    (hg : Attended c metaId (Due c turns) (start + elapsed k + ahead)
      (run (role c) (turns.take k))) :
    Attended c metaId (Due c turns) (start + elapsed k + ahead)
      ((run (role c) (turns.take k)).step (role c) t) := by
  have hlt := (List.getElem?_eq_some_iff.1 hat).1
  refine (Holds.step_alike hg Store.Grows Store.grows_refl ?_ id ?_ ?_ ?_).1
  · intro i d s s' hd hs' hgrows
    exact hd.mono hgrows hs'.delays (Instant.le_refl _)
  · rintro i m own x rfl hx hs
    exact leads_begin h.metaId_eq hs (fun _ hq => hq.1) hx
  · rintro i op m d rfl hi hs hd
    have hlimit : m.now + (c i).horizonLookahead = start + elapsed k + ahead := by
      rw [h.timed.now_eq k _ m hat rfl, h.ahead_eq]
    have hvalue {o : Int} {x : Delayed}
        (hx : (run (role c) (turns.take k)).store.delays.items.get? o = some x) :
        x ∈ waiting c turns k := (SortedMap.mem_values_iff _).2 ⟨o, hx⟩
    refine (leads_work hs (fun _ hq => hq.1) hd ?_ hlimit op ?_).mono fun _ p hp => ?_
    · exact fun o x hx => h.spares k (Nat.le_of_lt hlt) x (hvalue hx)
    · rintro rfl o x hx hq hlate
      exact hq.2 ⟨k, i, m, d, hat, hi, hvalue hx, hlate⟩
    · exact ⟨hp.marked, hp.grows, hp.watches⟩
  · rintro request rfl hs
    have hspared := h.spared _ (List.mem_of_getElem? hat)
    obtain ⟨hdelays, hgrows⟩ := Store.delays_serve hs.delays request
    have hall : (run (role c) (turns.take k)).store.Grows
        ((run (role c) (turns.take k)).store.serve request) :=
      ⟨Store.prefix_serve _ request, hgrows⟩
    exact ⟨hs.mono hall (Store.sound_serve hs.log request) hdelays
      (Store.Request.Spares.latest?_serve hspared hs.log) (Instant.le_refl _), hall⟩

theorem Shared.limit_mono {j k : Nat} (hjk : j ≤ k) :
    start + elapsed j + ahead ≤ start + elapsed k + ahead := by
  have hle : (elapsed j).nanos ≤ (elapsed k).nanos := h.timed.mono j k hjk
  rw [Instant.add_add start (elapsed j) ahead, Instant.add_add start (elapsed k) ahead]
  exact Instant.add_mono h.timed.start_lt (Nat.add_le_add_right hle _)

theorem Shared.attended_run {k : Nat} (hk : k ≤ turns.length) :
    Attended c metaId (Due c turns) (start + elapsed k + ahead)
      (run (role c) (turns.take k)) := by
  refine run_induction
    (P := fun k g => Attended c metaId (Due c turns) (start + elapsed k + ahead) g)
    (holds_empty Store.marked_empty) ?_ k hk
  intro k t hat hg
  have hlimit := h.limit_mono (Nat.le_succ k)
  have hnext := h.attended_step hat hg
  have hdelays := hnext.store.delays
  refine hnext.imp (fun hs => ?_) fun i d hd => ?_
  · exact hs.mono (Store.grows_refl _) hs.log hdelays rfl hlimit
  · exact hd.mono (Store.grows_refl _) hdelays hlimit

end

/-- No look of an active delayer behind its horizon begins after an item is due that waits. -/
def LooksInTime (c : ι → DelayerSettings) (turns : List (Turn ι Op)) : Prop :=
  ∀ k i m d, turns[k]? = some (.work i .scanFresh m) →
    (run (role c) (turns.take k)).member i = some d → d.lease.active = true →
    ∀ x ∈ waiting c turns k, m.now - (c i).freshnessLookback ≤ x.dueAt

theorem LooksInTime.of_all {first : Instant}
    (hdue : ∀ k ≤ turns.length, ∀ x ∈ waiting c turns k, first ≤ x.dueAt)
    (hall : ∀ k < turns.length, ∀ m ∈ turns[k]?.bind Turn.moment?,
      ∀ i, m.now - (c i).freshnessLookback ≤ first) :
    LooksInTime c turns := by
  intro k i m d hat _ _ x hx
  have hk := (List.getElem?_eq_some_iff.1 hat).1
  refine Instant.le_trans (hall k hk m ?_ i) (hdue k (Nat.le_of_lt hk) x hx)
  rw [hat]
  rfl

theorem LooksInTime.not_leftBehind (hfresh : LooksInTime c turns)
    (hdue : ∀ k ≤ turns.length, ∀ x ∈ waiting c turns k, .epoch ≤ x.dueAt) (x : Delayed) :
    ¬ LeftBehind c turns x := by
  rintro ⟨k, i, m, d, hat, hi, hwaits, hlate⟩
  have hk := Nat.le_of_lt (List.getElem?_eq_some_iff.1 hat).1
  refine Instant.not_le_iff.2 hlate.late ?_
  unfold freshFrom
  split
  · exact hdue k hk x hwaits
  · exact hfresh k i m d hat hi hlate.active x hwaits

/-- If all items are due in 1970 or later and no look behind the horizon comes too late for one of
them, all that wait lie ahead of the watermark that was stored last: whoever takes over from it can
reach them. -/
theorem stored_watermark_reaches_all (h : Shared c metaId ahead start elapsed turns)
    (hfresh : LooksInTime c turns)
    (hdue : ∀ k ≤ turns.length, ∀ x ∈ waiting c turns k, .epoch ≤ x.dueAt) :
    ∀ last, (run (role c) turns).store.log.latest? metaId = some last →
      ∀ x ∈ waiting c turns turns.length,
        last.delayMark.1 ≤ x.dueAt ∨ last.delayMark.2 < x.offset := by
  intro last hlast x hx
  have hasked : Due c turns x :=
    ⟨hdue turns.length (Nat.le_refl _) x hx, hfresh.not_leftBehind hdue x⟩
  have hmarked := (h.attended_run (Nat.le_refl _)).store
  unfold waiting at hx
  rw [List.take_length] at hmarked hx
  obtain ⟨o, hget⟩ := (SortedMap.mem_values_iff _).1 hx
  exact (hmarked.covered last hlast).ahead o x hget hasked

end

/-- The second item is put off behind the horizon, where only the offset of the watermark leads the
second delayer to it. -/
theorem stored_watermark_reaches_all_of_late_item :
    let start := Instant.epoch + Span.ofSecs 1000000000
    let elapsed (k : Nat) := Span.ofSecs (10 * k)
    let moment (k : Nat) : Moment := ⟨start + elapsed k, true, .free⟩
    let c (second : Bool) : DelayerSettings :=
      { metaId := ⟨"m"⟩, holder := if second then "b" else "a" }
    let turns : List (Turn Bool Op) :=
      [.start false (moment 0), .call (.delay (.new ⟨"v"⟩) (start + Span.ofSecs 50)),
        .work false .scanFresh (moment 2), .work false .scanHorizon (moment 3),
        .call (.delay (.new ⟨"w"⟩) (start + Span.ofSecs 60)), .work false .scanDue (moment 5),
        .work false .stop (moment 6), .start true (moment 7)]
    Shared c ⟨"m"⟩ (.ofSecs 60) start elapsed turns ∧ LooksInTime c turns ∧
      (∀ k ≤ turns.length, ∀ x ∈ waiting c turns k, .epoch ≤ x.dueAt) ∧
      ∃ last x, (run (role c) turns).store.log.latest? ⟨"m"⟩ = some last ∧
        waiting c turns turns.length = [x] ∧ x.dueAt = start + Span.ofSecs 60 ∧
        last.delayMark = (start + Span.ofSecs 90, 1) ∧
        (last.delayMark.1 ≤ x.dueAt ∨ last.delayMark.2 < x.offset) := by
  intro start elapsed moment c turns
  have hwaits : ∀ k ≤ turns.length, ∀ x ∈ waiting c turns k, start ≤ x.dueAt ∧ x.Spares ⟨"m"⟩ := by
    decide +kernel
  have hmono : ∀ j k, j ≤ k → elapsed j ≤ elapsed k :=
    fun j k hjk => Nat.mul_le_mul_right _ (Nat.mul_le_mul_left 10 hjk)
  have hspared : ∀ t ∈ turns, t.Spares ⟨"m"⟩ := by
    simp [turns, Turn.Spares, Store.Request.Spares]
  have hshared : Shared c ⟨"m"⟩ (.ofSecs 60) start elapsed turns :=
    ⟨fun _ => rfl, fun _ => rfl, .of_all (by decide +kernel) hmono (by decide +kernel), hspared,
      fun k hk x hx => (hwaits k hk x hx).2⟩
  have hfresh : LooksInTime c turns :=
    .of_all (fun k hk x hx => (hwaits k hk x hx).1) (by decide +kernel)
  have hdue : ∀ k ≤ turns.length, ∀ x ∈ waiting c turns k, .epoch ≤ x.dueAt :=
    fun k hk x hx => Instant.le_trans (by decide +kernel) (hwaits k hk x hx).1
  have hlast : ∃ last ∈ (run (role c) turns).store.log.latest? ⟨"m"⟩,
      last.delayMark = (start + Span.ofSecs 90, 1) := by
    decide +kernel
  have hone : (waiting c turns turns.length).map Delayed.dueAt = [start + Span.ofSecs 60] := by
    decide +kernel
  obtain ⟨last, hlast, hmark⟩ := hlast
  obtain ⟨x, hx, hat⟩ := List.map_eq_singleton_iff.1 hone
  have hahead := stored_watermark_reaches_all hshared hfresh hdue last hlast x (by simp [hx])
  exact ⟨hshared, hfresh, hdue, last, x, hlast, hx, hat, hmark, hahead⟩

/-- The next look of a delayer behind its horizon, with all the turns before it. -/
abbrev andLook (turns : List (Turn ι Op)) (i : ι) (m : Moment) : List (Turn ι Op) :=
  turns ++ [.work i .scanFresh m]

section

variable {c : ι → DelayerSettings} {metaId : StateId} {ahead : Span} {start : Instant}
  {elapsed : Nat → Span} {turns : List (Turn ι Op)} {i : ι} {m : Moment} {d : Delayer} {x : Delayed}

/-- If the next look behind the horizon does not leave a waiting item behind, the delayer tracks it,
or has not come to it, or it is not due before that look begins. -/
theorem seen_of_not_leftBehind (hi : (run (role c) turns).member i = some d)
    (ha : d.lease.active = true) (hx : x ∈ waiting c turns turns.length)
    (hnone : ¬ LeftBehind c (andLook turns i m) x) :
    x ∈ d.tracked.values ∨ d.since ≤ x.dueAt ∨ d.freshFrom (c i) m.now ≤ x.dueAt := by
  by_contra hno
  obtain ⟨huntracked, hbehind, hlate⟩ := not_or.1 hno |>.imp_right not_or.1
  refine hnone ⟨turns.length, i, m, d, List.getElem?_concat_length, ?_, ?_, ha, huntracked, ?_, ?_⟩
  · rw [List.take_left]
    exact hi
  · unfold waiting at hx ⊢
    rwa [List.take_left, ← List.take_length (l := turns)]
  · exact Instant.not_le_iff.1 hbehind
  · exact Instant.not_le_iff.1 hlate

/-- Whenever a delayer holds the lease, it tracks an item that waits, or its horizon has not come to
the item, or its next look behind the horizon finds it: unless that look or one before it comes too
late. -/
theorem waiting_items_stay_in_reach (h : Shared c metaId ahead start elapsed (andLook turns i m)) :
    ∀ d, (run (role c) turns).member i = some d → d.lease.active = true →
      ∀ x ∈ waiting c turns turns.length,
        .epoch ≤ x.dueAt ∨ .epoch ≤ m.now - (c i).freshnessLookback →
        ¬ LeftBehind c (andLook turns i m) x →
        x ∈ d.tracked.values ∨ d.since ≤ x.dueAt ∨
          d.offset < x.offset ∧ d.freshFrom (c i) m.now ≤ x.dueAt := by
  intro d hi ha x hx hdue hnone
  rcases seen_of_not_leftBehind hi ha hx hnone with htracked | hahead | hseen
  · exact .inl htracked
  · exact .inr (.inl hahead)
  have hasked : .epoch ≤ x.dueAt := by
    rcases hdue with hdue | hpast
    · exact hdue
    · refine Instant.le_trans ?_ hseen
      unfold freshFrom
      split
      · exact Instant.le_refl _
      · exact hpast
  have hrun := h.attended_run (k := turns.length) (by rw [List.length_append]; omega)
  rw [List.take_left] at hrun
  unfold waiting at hx
  rw [List.take_length] at hx
  obtain ⟨o, hget⟩ := (SortedMap.mem_values_iff _).1 hx
  rcases ((hrun.member i d hi).reaches ha).ahead o x hget ⟨hasked, hnone⟩ with
    htracked | hahead | hlater
  · exact .inl ((SortedMap.mem_values_iff _).2 ⟨o, htracked⟩)
  · exact .inr (.inl hahead)
  · exact .inr (.inr ⟨hlater, hseen⟩)

end

/-- The horizon was beyond the second item when it was put off, so only the look behind it finds the
item. -/
theorem waiting_items_stay_in_reach_of_late_item :
    let start := Instant.epoch + Span.ofSecs 1000000000
    let elapsed (k : Nat) := Span.ofSecs (10 * k)
    let moment (k : Nat) : Moment := ⟨start + elapsed k, true, .free⟩
    let c : Unit → DelayerSettings := fun _ => { holder := "a" }
    let turns : List (Turn Unit Op) :=
      [.start () (moment 0), .call (.delay (.new ⟨"v"⟩) (start + Span.ofSecs 50)),
        .work () .scanFresh (moment 2), .work () .scanHorizon (moment 3),
        .call (.delay (.new ⟨"w"⟩) (start + Span.ofSecs 60))]
    Shared c (c ()).metaId (.ofSecs 60) start elapsed (andLook turns () (moment 5)) ∧
      ∃ d x, (run (role c) turns).member () = some d ∧ d.lease.active = true ∧
        x ∈ waiting c turns turns.length ∧ .epoch ≤ x.dueAt ∧
        ¬ LeftBehind c (andLook turns () (moment 5)) x ∧
        x ∉ d.tracked.values ∧ x.dueAt < d.since ∧
        d.offset < x.offset ∧ d.freshFrom (c ()) (moment 5).now ≤ x.dueAt := by
  intro start elapsed moment c turns
  generalize hall : andLook turns () (moment 5) = all
  have hwaits : ∀ k ≤ all.length, ∀ x ∈ waiting c all k,
      start ≤ x.dueAt ∧ x.Spares (c ()).metaId := by
    subst hall
    decide +kernel
  have hmono : ∀ j k, j ≤ k → elapsed j ≤ elapsed k :=
    fun j k hjk => Nat.mul_le_mul_right _ (Nat.mul_le_mul_left 10 hjk)
  have hspared : ∀ t ∈ all, t.Spares (c ()).metaId := by
    subst hall
    simp [turns, Turn.Spares, Store.Request.Spares]
  have hshared : Shared c (c ()).metaId (.ofSecs 60) start elapsed all :=
    ⟨fun _ => rfl, fun _ => rfl, .of_all (by decide +kernel) hmono (by subst hall; decide +kernel),
      hspared, fun k hk x hx => (hwaits k hk x hx).2⟩
  have hlook : ∀ k < all.length, ∀ m ∈ all[k]?.bind Turn.moment?,
      m.now - (c ()).freshnessLookback ≤ start := by
    subst hall
    decide +kernel
  have hfresh : LooksInTime c all :=
    .of_all (fun k hk x hx => (hwaits k hk x hx).1) fun k hk m hm _ => hlook k hk m hm
  have hdue : ∀ k ≤ all.length, ∀ x ∈ waiting c all k, .epoch ≤ x.dueAt :=
    fun k hk x hx => Instant.le_trans (by decide +kernel) (hwaits k hk x hx).1
  have hfound : ∃ d ∈ (run (role c) turns).member (), d.lease.active = true ∧
      ∃ x ∈ waiting c turns turns.length, .epoch ≤ x.dueAt ∧ x ∉ d.tracked.values ∧
        x.dueAt < d.since := by
    decide +kernel
  obtain ⟨d, hd, ha, x, hx, hat, huntracked, hbehind⟩ := hfound
  have hnone := hfresh.not_leftBehind hdue x
  subst hall
  have hreach := waiting_items_stay_in_reach hshared d hd ha x hx (.inl hat) hnone
  have hlook := (hreach.resolve_left huntracked).resolve_left (Instant.not_le_iff.2 hbehind)
  exact ⟨hshared, d, x, hd, ha, hx, hat, hnone, huntracked, hbehind, hlook⟩

/-- While no delayer was there, the item that was put off last came to lie before all that the next
one looks at. -/
theorem waiting_item_out_of_reach_of_outage :
    let start := Instant.epoch + Span.ofSecs 1000000000
    let elapsed (k : Nat) := Span.ofSecs (if k ≤ 6 then k else 90000)
    let moment (k : Nat) : Moment := ⟨start + elapsed k, true, .free⟩
    let c : Unit → DelayerSettings := fun _ => { holder := "a" }
    let turns : List (Turn Unit Op) :=
      [.start () (moment 0), .call (.delay (.new ⟨"v"⟩) start), .work () .scanHorizon (moment 2),
        .work () .scanFresh (moment 3), .work () .scanDue (moment 4),
        .call (.delay (.new ⟨"w"⟩) (start + Span.ofSecs 30)), .work () .stop (moment 6),
        .start () (moment 7)]
    Shared c (c ()).metaId (.ofSecs 60) start elapsed (andLook turns () (moment 8)) ∧
      ∃ d x, (run (role c) turns).member () = some d ∧ d.lease.active = true ∧
        x ∈ waiting c turns turns.length ∧ .epoch ≤ x.dueAt ∧
        ¬ (x ∈ d.tracked.values ∨ d.since ≤ x.dueAt ∨
          d.offset < x.offset ∧ d.freshFrom (c ()) (moment 8).now ≤ x.dueAt) := by
  intro start elapsed moment c turns
  have hmono : ∀ j k, j ≤ k → elapsed j ≤ elapsed k := by
    intro j k hjk
    refine Nat.mul_le_mul_right _ ?_
    split <;> split <;> omega
  have hspared : ∀ t ∈ andLook turns () (moment 8), t.Spares (c ()).metaId := by
    simp [turns, Turn.Spares, Store.Request.Spares]
  have hshared : Shared c (c ()).metaId (.ofSecs 60) start elapsed (andLook turns () (moment 8)) :=
    ⟨fun _ => rfl, fun _ => rfl, .of_all (by decide +kernel) hmono (by decide +kernel), hspared,
      by decide +kernel⟩
  have hfound : ∃ d ∈ (run (role c) turns).member (), d.lease.active = true ∧
      ∃ x ∈ waiting c turns turns.length, .epoch ≤ x.dueAt ∧
        ¬ (x ∈ d.tracked.values ∨ d.since ≤ x.dueAt ∨
          d.offset < x.offset ∧ d.freshFrom (c ()) (moment 8).now ≤ x.dueAt) := by
    decide +kernel
  obtain ⟨d, hd, ha, x, hx, hrest⟩ := hfound
  exact ⟨hshared, d, x, hd, ha, hx, hrest⟩

end Delayer

end Workflow
