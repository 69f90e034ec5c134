import Workflow.Proofs.FiringOnce

/-!
# Items that are not to be committed

No commit decides who executes an item that is not to be committed, and an acknowledgement succeeds
also where the item is gone. Once it is gone, nobody reads it from the store any more, so only a
delayer fires it again that tracked it before and took itself for the holder of the lease already. A
delayer that was deposed does, until it next stores its watermark.
-/

set_option autoImplicit false

namespace Workflow

/-- No item stands under the offset, and none ever will: it was given before. -/
structure Delays.Gone (offset : Int) (d : Delays) : Prop where
  given : offset ≤ d.lastOffset
  missing : d.items.get? offset = none

theorem Delays.Gone.mono {offset : Int} {d later : Delays} (h : d.Gone offset)
    (hgrows : d.Grows later) : later.Gone offset := by
  refine ⟨Int.le_trans h.given hgrows.lastOffset_le, ?_⟩
  rw [Option.eq_none_iff_forall_ne_some]
  intro x hx
  rcases hgrows.old_or_new offset x hx with hold | hnew
  · rw [h.missing] at hold
    cases hold
  · have hgiven := h.given
    omega

/-- The component knows the latest entry of the meta state. -/
def Lease.Informed (l : Lease) (log : Log) : Prop := log.latest? l.metaId = some l.known.current

theorem Lease.Fits.holder_eq_of_informed {metaId : StateId} {holder holder' : String} {l l' : Lease}
    {log : Log} (h : Fits metaId holder l log) (h' : Fits metaId holder' l' log)
    (ha : l.active = true) (ha' : l'.active = true) (hinformed : l.Informed log)
    (hinformed' : l'.Informed log) : holder = holder' := by
  unfold Informed at hinformed hinformed'
  rw [h.metaId_eq] at hinformed
  rw [h'.metaId_eq, hinformed] at hinformed'
  rw [← h.held ha, ← h'.held ha', Option.some.inj hinformed']

namespace Delayer

/-- The delayer tracks items under their offsets, which were given. -/
def Keyed (d : Delayer) (s : Delays) : Prop :=
  ∀ o x, d.tracked.get? o = some x → x.offset = o ∧ o ≤ s.lastOffset

/-- The delayer takes itself for the holder of the lease, and tracks the item. -/
structure Awaits (x : Delayed) (d : Delayer) : Prop where
  active : d.lease.active = true
  tracked : d.tracked.get? x.offset = some x

/-- What a delayer tracks after a piece of work stands in the store, or it was tracked before, and
by a holder of the lease if the delayer is one now. -/
def Carries (s : Delays) (d next : Delayer) : Prop :=
  ∀ o x, next.tracked.get? o = some x → s.items.get? o = some x ∨
    d.tracked.get? o = some x ∧ (next.lease.active = true → d.lease.active = true)

section

variable {s later : Delays} {d next : Delayer}

theorem carries_of_tracked (htracked : ∀ o x, next.tracked.get? o = some x →
    d.tracked.get? o = some x) (hactive : next.lease.active = true → d.lease.active = true) :
    Carries s d next :=
  fun o x hx => .inr ⟨htracked o x hx, hactive⟩

theorem carries_of_empty (h : next.tracked = ∅) : Carries s d next := by
  intro o x hx
  rw [h] at hx
  cases hx

theorem Gathers.carries (h : Gathers s d next) : Carries s d next := by
  intro o x hx
  refine (h.finds o x hx).symm.imp_right fun hold => ⟨hold, fun ha => ?_⟩
  rw [h.frame] at ha
  exact ha

theorem Keyed.carries (h : d.Keyed s) (hs : s.Sound) (hcarries : Carries s d next)
    (hgrows : s.Grows later) : next.Keyed later := by
  intro o x hx
  have hle := hgrows.lastOffset_le
  rcases hcarries o x hx with hitem | ⟨hold, -⟩
  · have hgiven := (hs.given o x hitem).2
    exact ⟨hs.offset_eq o x hitem, by omega⟩
  · obtain ⟨hoffset, hgiven⟩ := h o x hold
    exact ⟨hoffset, by omega⟩

theorem Awaits.of_carries {x : Delayed} (h : next.Awaits x) (hgone : s.Gone x.offset)
    (hcarries : Carries s d next) : d.Awaits x := by
  rcases hcarries x.offset x h.tracked with hitem | ⟨hold, hactive⟩
  · rw [hgone.missing] at hitem
    cases hitem
  · exact ⟨hactive h.active, hold⟩

theorem Keyed.nodup_values (h : d.Keyed s) : d.tracked.values.Nodup := by
  have hoffset : ∀ e ∈ d.tracked.entries, e.2.offset = e.1 := fun e he =>
    (h e.1 e.2 (d.tracked.get?_eq_some_iff.2 he)).1
  unfold SortedMap.values
  rw [List.nodup_iff_pairwise_ne, List.pairwise_map]
  refine d.tracked.sorted.imp_of_mem fun {a b} ha hb hlt heq => ?_
  rw [← hoffset a ha, ← hoffset b hb, heq] at hlt
  exact absurd hlt (by simp)

theorem Keyed.nodup_firedIn (h : d.Keyed s) (now : Instant) (part : Part) :
    (d.firedIn now part).Nodup := by
  have hdue : (d.due now).Nodup :=
    (List.mergeSort_perm _ _).nodup_iff.2 (h.nodup_values.filter _)
  unfold firedIn
  split
  · split
    · exact hdue
    · exact List.nodup_nil
  · split
    · exact hdue.filter _
    · exact List.nodup_nil
  · exact List.nodup_nil

theorem Keyed.awaits_of_mem_firedIn (h : d.Keyed s) {now : Instant} {part : Part} {x : Delayed}
    (hx : x ∈ d.firedIn now part) : d.Awaits x := by
  have hdue (hmem : x ∈ d.due now) : d.tracked.get? x.offset = some x := by
    obtain ⟨o, ho⟩ :=
      d.tracked.mem_values_iff.1 (List.mem_filter.1 (List.mem_mergeSort.1 hmem)).1
    rw [(h o x ho).1]
    exact ho
  unfold firedIn at hx
  split at hx
  · split at hx
    next ha => exact ⟨ha, hdue hx⟩
    next => exact absurd hx List.not_mem_nil
  · split at hx
    next ha => exact ⟨ha, hdue (List.mem_filter.1 hx).1⟩
    next => exact absurd hx List.not_mem_nil
  · exact absurd hx List.not_mem_nil

end

/-! ### What delayers carry from turn to turn -/

open Effect

section

variable {allowed : Method → Fault → Prop} {metaId : StateId} {holder : String}
  {c : DelayerSettings} {d : Delayer} {site : Site} (h : site.Plain allowed)

include h

theorem shrinks_fireAll (items : List Delayed) :
    Leads (fireAll items) (d, site) fun _ p => p.1.lease = d.lease ∧
      ∀ o x, p.1.tracked.get? o = some x → d.tracked.get? o = some x := by
  induction items generalizing d site with
  | nil => exact ⟨rfl, fun _ _ hx => hx⟩
  | cons x rest ih =>
    have hrest {next : Delayer} {site' : Site} (hplain : site'.Plain allowed)
        (hlease : next.lease = d.lease)
        (htracked : ∀ o y, next.tracked.get? o = some y → d.tracked.get? o = some y) :
        Leads (fireAll rest) (next, site') fun _ p => p.1.lease = d.lease ∧
          ∀ o y, p.1.tracked.get? o = some y → d.tracked.get? o = some y :=
      (ih hplain).mono fun _ p hp =>
        ⟨hp.1.trans hlease, fun o y hy => htracked o y (hp.2 o y hy)⟩
    unfold fireAll
    simp only [leads_bind, leads_tryCatch]
    refine (leads_fire h x).mono fun outcome p hends => ?_
    have hlease : p.1.lease = d.lease := by rw [hends.frame]
    have htracked : p.1.tracked = d.tracked := by rw [hends.frame]
    cases outcome with
    | ok _ =>
      refine hrest (hends.plain h) hlease fun o y hy => ?_
      rw [SortedMap.get?_erase, htracked] at hy
      split at hy
      · cases hy
      · exact hy
    | error _ => exact hrest (hends.plain h) hlease fun o y hy => htracked ▸ hy

theorem carries_fireAll (items : List Delayed) :
    Leads (fireAll items) (d, site) fun _ p => Carries site.store.delays d p.1 :=
  (shrinks_fireAll h items).mono fun _ p hp =>
    carries_of_tracked hp.2 fun ha => by rw [← hp.1]; exact ha

variable (hs : site.store.Sound) (hl : Lease.Fits metaId holder d.lease site.store.log)

include hs hl

theorem carries_scanHorizon (stale : Span) :
    Leads (scanHorizon c stale) (d, site) fun _ p => Carries site.store.delays d p.1 := by
  unfold scanHorizon
  simp only [leads_bind, Work.leads_own]
  split
  next =>
    simp only [leads_bind, Work.leads_now]
    split
    · simp only [leads_bind]
      refine (leads_pull h hs.delays _ _ _).mono fun outcome p hp => ?_
      have hcarries := hp.gathers.carries
      cases outcome with
      | error fault => exact hcarries
      | ok answer =>
        simp only
        split
        · exact hcarries
        · exact hcarries
    · exact carries_of_tracked (fun _ _ hx => hx) id
  next =>
    simp only [leads_bind, onLease, Work.leads_within]
    refine Lease.leads_refresh h hs.log hl ?_ ?_
    · exact fun g fault _ => carries_of_tracked (fun _ _ hx => hx) id
    · intro g l' hg hl' hsame
      simp only
      refine Lease.leads_takeOver (h.after _ hg) hs.log hl' ?_ ?_ ?_
      · exact fun _ => carries_of_empty rfl
      · intro _ g' l'' outcome _ _ hidle hne
        have hkept : Carries site.store.delays d { d with lease := l'' } :=
          carries_of_tracked (fun _ _ hx => hx) fun ha => absurd (hidle.symm.trans ha) (by simp)
        cases outcome with
        | error fault => exact hkept
        | ok taken =>
          cases taken with
          | false => exact hkept
          | true => exact absurd rfl hne
      · exact fun _ g' l'' last e _ _ _ _ _ => carries_of_empty rfl

omit hl in
theorem carries_scanFresh :
    Leads (scanFresh c) (d, site) fun _ p => Carries site.store.delays d p.1 := by
  unfold scanFresh
  simp only [leads_bind, Work.leads_own]
  split
  next =>
    simp only [leads_bind, Work.leads_now]
    refine (leads_pull h hs.delays _ _ _).mono fun outcome p hp => ?_
    cases outcome with
    | error fault => exact hp.gathers.carries
    | ok answer => exact hp.gathers.carries
  next => exact carries_of_tracked (fun _ _ hx => hx) id

theorem carries_storeWatermark :
    Leads (storeWatermark c) (d, site) fun _ p => Carries site.store.delays d p.1 := by
  have hsame (l : Lease) (hactive : l.active = true → d.lease.active = true) :
      Carries site.store.delays d { d with lease := l } :=
    carries_of_tracked (fun _ _ hx => hx) hactive
  unfold storeWatermark
  simp only [leads_bind, Work.leads_own]
  split
  next ha =>
    simp only [leads_bind, Work.leads_now]
    split
    · simp only [leads_bind, onLease, Work.leads_within]
      refine Lease.leads_confirm h hs.log hl (noting d.watermark) ?_ ?_ ?_ ?_
      · exact fun _ => carries_of_empty rfl
      · exact fun _ g fault _ => hsame d.lease id
      · intro _ g l' outcome _ _ _ hne
        cases outcome with
        | error fault => exact hsame l' fun _ => ha
        | ok held =>
          cases held with
          | false => exact carries_of_empty rfl
          | true => exact absurd rfl hne
      · exact fun _ g l' e _ _ _ => hsame l' fun _ => ha
    · exact hsame d.lease id
  next => exact hsame d.lease id

end

theorem empty_stop (p : Delayer × Site) : Leads stop p fun _ q => q.1.tracked = ∅ := by
  obtain ⟨d, site⟩ := p
  unfold stop
  simp only [leads_bind, Work.leads_own, leads_tryCatch]
  refine Leads.of_forall fun outcome q => ?_
  cases outcome with
  | ok _ => rfl
  | error _ => rfl

theorem empty_start (c : DelayerSettings) (stale : Span) (site : Site) :
    Leads (start stale) (Delayer.new c, site) fun _ q => q.1.tracked = ∅ := by
  unfold start
  simp only [leads_bind, onLease, Work.leads_within]
  refine Leads.of_forall fun outcome q => ?_
  cases outcome with
  | ok _ => rfl
  | error _ => rfl

section

variable {ι : Type} {c : ι → DelayerSettings} {i : ι} {m : Moment} {s : Store}

theorem empty_begin {own : Delayer} {x : Work Delayer Unit}
    (hx : (parts c).start i = some (own, x)) :
    Leads x (own, m.site s) fun _ p => p.1.tracked = ∅ := by
  simp only [parts, role] at hx
  split at hx
  next =>
    cases hx
    exact empty_start _ _ _
  next => cases hx

theorem carries_part {d : Delayer} (hs : s.Sound)
    (hl : Lease.Fits (c i).metaId (c i).holder d.lease s.log) (part : Part) :
    Leads ((parts c).work i part) (d, m.site s) fun _ p => Carries s.delays d p.1 := by
  have hplain : (m.site s).Plain fun _ _ => True := m.plain_site s
  have hidle : Carries s.delays d d := carries_of_tracked (fun _ _ hx => hx) id
  cases part with
  | whole op =>
    cases op with
    | scanHorizon =>
      simp only [parts, role]
      split
      · exact carries_scanHorizon hplain hs hl _
      · exact hidle
    | scanFresh => exact carries_scanFresh hplain hs
    | scanDue =>
      simp only [parts, role, scanDue, leads_bind, Work.leads_own]
      split
      · simp only [leads_bind, Work.leads_now]
        exact carries_fireAll hplain _
      · exact hidle
    | storeWatermark => exact carries_storeWatermark hplain hs hl
    | stop => exact (empty_stop _).mono fun _ p hp => carries_of_empty hp
  | page since before offset =>
    simp only [parts, leads_bind, Work.leads_own]
    split
    · rw [leads_discard]
      exact (leads_pullLoop 1 hplain hs.delays since before offset).mono
        fun _ p hp => hp.gathers.carries
    · exact hidle
  | items which =>
    simp only [parts, leads_bind, Work.leads_own]
    split
    · simp only [leads_bind, Work.leads_now]
      exact carries_fireAll hplain _
    · exact hidle

end

section

open Workflow.Group

variable {ι : Type} [DecidableEq ι] {c : ι → DelayerSettings}

theorem Steady.carries {g : Group ι Delayer} (h : Steady c g) (t : Turn ι Part) {i : ι}
    {next : Delayer} (hi : (g.step (parts c) t).member i = some next) :
    next.tracked = ∅ ∨ ∃ d, g.member i = some d ∧ Carries g.store.delays d next := by
  have hholds : Holds (fun s => s = g.store) (fun i d _ => g.member i = some d) g :=
    ⟨rfl, fun _ _ hd => hd⟩
  have hnext : Holds (fun _ => True)
      (fun i next _ => next.tracked = ∅ ∨
        ∃ d, g.member i = some d ∧ Carries g.store.delays d next) (g.step (parts c) t) := by
    refine (hholds.step (fun _ _ _ => True) (fun _ => trivial) ?_ (fun _ => trivial) ?_ ?_ ?_).1
    · intro i _ d _ _ _ hd _ _ _
      exact .inr ⟨d, hd, carries_of_tracked (fun _ _ hx => hx) id⟩
    · intro i m own x _ hx _
      exact (empty_begin hx).mono fun _ _ hp => ⟨trivial, trivial, fun _ => .inl hp⟩
    · intro i part m d _ hd _ _
      exact (carries_part h.store (h.member i d hd) part).mono
        fun _ p hp => ⟨trivial, trivial, .inr ⟨d, hd, hp⟩⟩
    · exact fun _ _ _ => ⟨trivial, trivial⟩
  exact hnext.member i next hi

variable {turns : List (Turn ι Part)}

theorem grows_run {j k : Nat} (hjk : j ≤ k) (hk : k ≤ turns.length) :
    (run (parts c) (turns.take j)).store.Grows (run (parts c) (turns.take k)).store := by
  induction k, hjk using Nat.le_induction with
  | base => exact Store.grows_refl _
  | succ k _ ih =>
    have hstep := ((steady_run c (Nat.le_of_lt hk)).step turns[k]).2
    rw [run_take_succ (List.getElem?_eq_getElem hk)]
    exact (ih (Nat.le_of_lt hk)).trans hstep

theorem keyed_run {k : Nat} (hk : k ≤ turns.length) {i : ι} {d : Delayer}
    (hd : (run (parts c) (turns.take k)).member i = some d) :
    d.Keyed (run (parts c) (turns.take k)).store.delays := by
  refine (run_induction (P := fun _ g => Holds (fun _ => True) (fun _ d s => d.Keyed s.delays) g)
    (holds_empty trivial) (fun k t hat hkeyed => ?_) k hk).member i d hd
  have hsteady := steady_run c (Nat.le_of_lt (List.getElem?_eq_some_iff.1 hat).1)
  refine ⟨trivial, fun i next hi => ?_⟩
  rcases hsteady.carries t hi with hempty | ⟨d, hd, hcarries⟩
  · intro o x hx
    rw [hempty] at hx
    cases hx
  · have hgrows := (hsteady.step t).2
    exact (hkeyed.member i d hd).carries hsteady.store.delays hcarries hgrows.delays

/-- Who awaits an item that is gone awaited it all the time since. -/
theorem awaits_before {x : Delayed} {j k : Nat} (hjk : j ≤ k) (hk : k ≤ turns.length)
    (hgone : (run (parts c) (turns.take j)).store.delays.Gone x.offset) {i : ι} {next : Delayer}
    (hnext : (run (parts c) (turns.take k)).member i = some next) (hawaits : next.Awaits x) :
    ∃ d, (run (parts c) (turns.take j)).member i = some d ∧ d.Awaits x := by
  induction k, hjk using Nat.le_induction generalizing next with
  | base => exact ⟨next, hnext, hawaits⟩
  | succ k hjk ih =>
    have hlt := Nat.le_of_lt hk
    rw [run_take_succ (List.getElem?_eq_getElem hk)] at hnext
    rcases (steady_run c hlt).carries turns[k] hnext with hempty | ⟨d, hd, hcarries⟩
    · have htracked := hawaits.tracked
      rw [hempty] at htracked
      cases htracked
    · have hgone' := hgone.mono (grows_run hjk hlt).delays
      exact ih hlt hd (hawaits.of_carries hgone' hcarries)

end

namespace Firing

open Workflow.Group

variable {ι : Type} [DecidableEq ι] {c : ι → DelayerSettings} {turns : List (Turn ι Part)}
  {x : Delayed} (f : Firing c turns x)

theorem keyed : f.delayer.Keyed (run (parts c) (turns.take f.turn)).store.delays :=
  keyed_run (Nat.le_of_lt f.turn_lt) f.there

theorem awaits : f.delayer.Awaits x :=
  f.keyed.awaits_of_mem_firedIn (List.mem_of_getElem? f.at_place)

theorem eq_of_same_turn {f g : Firing c turns x} (hturn : f.turn = g.turn) : f = g := by
  refine eq_of_turn_eq hturn ?_
  obtain ⟨turn, place, member, part, moment, delayer, hat, hthere, hx⟩ := f
  obtain ⟨turn', place', member', part', moment', delayer', hat', hthere', hx'⟩ := g
  obtain rfl : turn = turn' := hturn
  cases hat.symm.trans hat'
  cases hthere.symm.trans hthere'
  have hnodup := (keyed_run (Nat.le_of_lt (List.getElem?_eq_some_iff.1 hat).1) hthere).nodup_firedIn
    moment.now part
  exact (List.getElem?_inj (List.getElem?_eq_some_iff.1 hx).1 hnodup).1 (hx.trans hx'.symm)

theorem Precedes.turn_lt {f g : Firing c turns x} (h : f.Precedes g) : f.turn < g.turn := by
  refine h.resolve_right fun hsame => ?_
  have hplace := congrArg Firing.place (eq_of_same_turn hsame.1)
  omega

theorem gone_of_ok (hok : f.outcome = .ok ()) {n : Nat} (hn : f.place < n) :
    (f.stage n).2.store.delays.Gone x.offset ∧ (f.stage n).1.tracked.get? x.offset = none := by
  have hfree : f.moment.gate.Allows fun _ _ => True := fun _ _ _ => trivial
  have hfirst : f.stage (f.place + 1) =
      ({ f.after.1 with tracked := f.after.1.tracked.erase x.offset }, f.after.2) := by
    rw [stage_succ, hok]
  have hdelays : f.after.2.store.delays = f.before.2.store.delays.acknowledge x.offset := by
    have hends := (f.ends hfree).delays
    rwa [hok, if_pos rfl] at hends
  have hgone : (f.stage (f.place + 1)).2.store.delays.Gone x.offset := by
    rw [hfirst, hdelays]
    refine ⟨?_, Delays.get?_acknowledge_self _ _⟩
    have hgiven := (f.keyed x.offset x f.awaits.tracked).2
    exact Int.le_trans hgiven (f.keeps_stage hfree f.place).1.grows.delays.lastOffset_le
  have hkeeps := (f.keeps_stage hfree (f.place + 1)).1
  obtain ⟨k, rfl⟩ := Nat.exists_eq_add_of_le (Nat.succ_le_of_lt hn)
  rw [stage_add]
  refine ⟨hgone.mono (keeps_fireAll hkeeps.plain hkeeps.sound hkeeps.fits _).1.grows.delays, ?_⟩
  rw [Option.eq_none_iff_forall_ne_some]
  intro y hy
  have hold : (f.stage (f.place + 1)).1.tracked.get? x.offset = some y :=
    (shrinks_fireAll hkeeps.plain _).2 x.offset y hy
  rw [hfirst, SortedMap.get?_erase_self] at hold
  cases hold

theorem Precedes.awaited {f g : Firing c turns x} (h : f.Precedes g) (hok : f.outcome = .ok ()) :
    g.member ≠ f.member ∧
      ∃ d, (run (parts c) (turns.take f.turn)).member g.member = some d ∧ d.Awaits x := by
  obtain ⟨n, hn, hrun⟩ := f.run_succ
  obtain ⟨hgone, hdropped⟩ := f.gone_of_ok hok hn
  have hgone' : (run (parts c) (turns.take (f.turn + 1))).store.delays.Gone x.offset := by
    rw [hrun]
    exact hgone
  obtain ⟨d, hd, hawaits⟩ := awaits_before (Nat.succ_le_of_lt h.turn_lt) (Nat.le_of_lt g.turn_lt)
    hgone' g.there g.awaits
  rw [hrun] at hd
  by_cases hsame : g.member = f.member
  · rw [hsame] at hd
    simp only [Function.update_self, Option.some.injEq] at hd
    subst hd
    exact absurd (hdropped.symm.trans hawaits.tracked) (by simp)
  · simp only [Function.update_of_ne hsame] at hd
    exact ⟨hsame, d, hd, hawaits⟩

theorem exists_launching {k : Nat} {i : ι} {part : Part} {m : Moment}
    (hat : turns[k]? = some (.work i part m))
    (hfirst : ∃ d ∈ (run (parts c) (turns.take k)).member i,
      (d.firedIn m.now part)[0]? = some x ∧
        ((fire x).run.run (d, m.site (run (parts c) (turns.take k)).store)).2.2.launched ≠ []) :
    ∃ f : Firing c turns x, f.turn = k ∧ f.member = i ∧ f.Launches := by
  obtain ⟨d, hd, hplace, hlaunches⟩ := hfirst
  obtain ⟨f, hturn, hmember, -, hbefore⟩ := exists_first hat hd hplace
  refine ⟨f, hturn, hmember, ?_⟩
  unfold Launches after
  rw [hbefore]
  exact hlaunches

theorem Launches.of_uncommitted {f : Firing c turns x} (h : f.Launches) (hx : commits x = false) :
    f.outcome = .ok () ∧ f.after.2.store.log = f.before.2.store.log ∧
      f.after.2.launched = f.before.2.launched ++ [.ofState x.state] := by
  have hends := f.ends fun _ _ _ => trivial
  unfold Launches at h
  generalize f.after = p, f.outcome = outcome at hends h
  cases hends with
  | fired g hg hcommits => exact absurd (hcommits.symm.trans hx) (by simp)
  | unacknowledged g fault hg hcommits => exact absurd (hcommits.symm.trans hx) (by simp)
  | skipped g hg hcommits => exact absurd (hcommits.symm.trans hx) (by simp)
  | kept => exact absurd rfl h
  | uncommitted g hg hcommits =>
    refine ⟨rfl, by rw [Site.store_launching]; rfl, ?_⟩
    rw [Site.launched_launching] at h ⊢
    split at h
    next hopen => rw [if_pos hopen]; rfl
    next => exact absurd rfl h

end Firing

open Workflow.Group

variable {ι : Type} [DecidableEq ι] {c : ι → DelayerSettings} {turns : List (Turn ι Part)}
  {x : Delayed}

/-- An item that is not to be committed is executed when it is due, once by each delayer at most.
Another delayer executes it as well only if it awaited it already at the first execution, when both
took themselves for the holder of the lease, and then one of them did not know the latest entry of
the meta state. -/
theorem uncommitted_item_is_executed_once_by_each {metaId : StateId}
    (hmeta : ∀ i, (c i).metaId = metaId) (hdistinct : Function.Injective fun i => (c i).holder)
    (hx : commits x = false) (f : Firing c turns x) (hf : f.Launches) :
    let log := (run (parts c) (turns.take f.turn)).store.log
    (x.dueAt ≤ f.moment.now ∧ f.after.2.store.log = f.before.2.store.log ∧
      f.after.2.launched = f.before.2.launched ++ [.ofState x.state]) ∧
    (∀ g : Firing c turns x, g.Launches → g.member = f.member → g = f) ∧
    ∀ g : Firing c turns x, f.Precedes g → g.member ≠ f.member ∧
      ∃ d, (run (parts c) (turns.take f.turn)).member g.member = some d ∧ d.Awaits x ∧
        ¬ (f.delayer.lease.Informed log ∧ d.lease.Informed log) := by
  intro log
  obtain ⟨hok, hlog, hlaunched⟩ := hf.of_uncommitted hx
  refine ⟨⟨f.dueAt_le, hlog, hlaunched⟩, fun g hg hsame => ?_, fun g hprecedes => ?_⟩
  · rcases f.precedes_or g with hlater | hearlier | ⟨hturn, -⟩
    · exact absurd hsame (hlater.awaited hok).1
    · exact absurd hsame.symm (hearlier.awaited (hg.of_uncommitted hx).1).1
    · exact Firing.eq_of_same_turn hturn.symm
  · obtain ⟨hother, d, hd, hawaits⟩ := hprecedes.awaited hok
    have hsteady := steady_run c (Nat.le_of_lt f.turn_lt)
    have hfits := hsteady.member f.member f.delayer f.there
    have hfits' := hsteady.member g.member d hd
    refine ⟨hother, d, hd, hawaits, fun hinformed => hother (hdistinct ?_)⟩
    rw [hmeta] at hfits hfits'
    exact hfits'.holder_eq_of_informed hfits hawaits.active f.awaits.active hinformed.2 hinformed.1

/-- The only delayer executes the item once. -/
theorem uncommitted_item_is_executed_once_by_each_of_single :
    let moment (n : Nat) : Moment := ⟨Instant.epoch + Span.ofSecs n, true, .free⟩
    let c (_ : Unit) : DelayerSettings := { metaId := ⟨"m"⟩, holder := "a" }
    let work : State := { (default : State) with id := ⟨"w"⟩, rev := 2 }
    let request : DelayRequest := ⟨.ofState work, none, .ofSecs 50, none, false, ∅, none⟩
    let item := request.snapshot work (moment 3).now
    let x : Delayed := ⟨item.1, item.2, 1⟩
    let turns : List (Turn Unit Part) :=
      [.start () (moment 0),
        .call (.commit (moment 1).now [.keep (.ofState { work with rev := 0 })]),
        .call (.commit (moment 3).now [.delay request]), .work () (.whole .scanFresh) (moment 10),
        .work () (.whole .scanDue) (moment 60), .work () (.whole .scanFresh) (moment 70),
        .work () (.whole .scanDue) (moment 80)]
    commits x = false ∧ ∃ f : Firing c turns x, f.Launches ∧
      ∀ g : Firing c turns x, g.Launches → g = f := by
  intro moment c work request item x turns
  have hx : commits x = false := by decide
  have hfirst : ∃ d ∈ (run (parts c) (turns.take 4)).member (),
      (d.firedIn (moment 60).now (.whole .scanDue))[0]? = some x ∧
      ((fire x).run.run (d, (moment 60).site (run (parts c) (turns.take 4)).store)).2.2.launched ≠
        [] := by
    decide +kernel
  obtain ⟨f, -, -, hf⟩ := Firing.exists_launching rfl hfirst
  have hmeta : ∀ i, (c i).metaId = ⟨"m"⟩ := fun _ => rfl
  have hone := (uncommitted_item_is_executed_once_by_each hmeta (fun _ _ _ => rfl) hx f hf).2.1
  exact ⟨hx, f, hf, fun g hg => hone g hg rfl⟩

/-- Two delayers that take themselves for the holder track the item: both execute it. -/
theorem uncommitted_item_is_executed_twice_of_deposed :
    let moment (n : Nat) : Moment := ⟨Instant.epoch + Span.ofSecs n, true, .free⟩
    let c (second : Bool) : DelayerSettings :=
      { metaId := ⟨"m"⟩, holder := if second then "b" else "a" }
    let work : State := { (default : State) with id := ⟨"w"⟩, rev := 2 }
    let request : DelayRequest := ⟨.ofState work, none, .ofSecs 50, none, false, ∅, none⟩
    let item := request.snapshot work (moment 3).now
    let x : Delayed := ⟨item.1, item.2, 1⟩
    let turns : List (Turn Bool Part) :=
      [.start false (moment 0),
        .call (.commit (moment 1).now [.keep (.ofState { work with rev := 0 })]),
        .start true (moment 2), .call (.commit (moment 3).now [.delay request]),
        .work false (.whole .scanFresh) (moment 10), .work true (.whole .scanHorizon) (moment 400),
        .work true (.whole .scanFresh) (moment 401), .work true (.whole .scanDue) (moment 402),
        .work false (.whole .scanDue) (moment 403)]
    (Function.Injective fun i => (c i).holder) ∧ commits x = false ∧
      ∃ f g : Firing c turns x, f.Precedes g ∧ f.member = true ∧ g.member = false ∧ f.Launches ∧
        g.Launches := by
  intro moment c work request item x turns
  have hdistinct : Function.Injective fun i => (c i).holder := by
    intro i j h
    cases i <;> cases j <;> first | rfl | exact absurd h (by decide)
  have hx : commits x = false := by decide
  have hfirst : ∃ d ∈ (run (parts c) (turns.take 7)).member true,
      (d.firedIn (moment 402).now (.whole .scanDue))[0]? = some x ∧
      ((fire x).run.run (d, (moment 402).site (run (parts c) (turns.take 7)).store)).2.2.launched ≠
        [] := by
    decide +kernel
  have hsecond : ∃ d ∈ (run (parts c) (turns.take 8)).member false,
      (d.firedIn (moment 403).now (.whole .scanDue))[0]? = some x ∧
      ((fire x).run.run (d, (moment 403).site (run (parts c) (turns.take 8)).store)).2.2.launched ≠
        [] := by
    decide +kernel
  obtain ⟨f, hturn, hmember, hf⟩ := Firing.exists_launching rfl hfirst
  obtain ⟨g, hturn', hmember', hg⟩ := Firing.exists_launching rfl hsecond
  exact ⟨hdistinct, hx, f, g, .inl (by omega), hmember, hmember', hf, hg⟩

end Delayer

end Workflow
