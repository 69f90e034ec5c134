import Workflow.Proofs.Waiting

/-!
# Firings of a run

Delayers take turns and fire the items that are due, each of them when the ones before it were
fired. Others may act between two turns, and also between two items. Whatever they do, entries are
only added to the log, so what a firing did to the log is there for every later one.
-/

set_option autoImplicit false

namespace Workflow

structure Store.Sound (s : Store) : Prop where
  log : s.log.Sound
  delays : s.delays.Sound

namespace Delayer

/-- What work of any delayer leaves behind. -/
structure Keeps (allowed : Method → Fault → Prop) (metaId : StateId) (holder : String) (s : Store)
    (p : Delayer × Site) : Prop where
  plain : p.2.Plain allowed
  sound : p.2.store.Sound
  grows : s.Grows p.2.store
  fits : Lease.Fits metaId holder p.1.lease p.2.store.log

open Effect

section

variable {allowed : Method → Fault → Prop} {metaId : StateId} {holder : String}
  {c : DelayerSettings} {d : Delayer} {site : Site} {s : Store}

theorem Keeps.after {s' : Store} {p : Delayer × Site} (h : Keeps allowed metaId holder s' p)
    (hgrows : s.Grows s') : Keeps allowed metaId holder s p :=
  ⟨h.plain, h.sound, hgrows.trans h.grows, h.fits⟩

theorem keeps_lease (hs : s.Sound) {p : Lease × Site}
    (h : Lease.Keeps allowed metaId holder s p) (next : Delayer) (hlease : next.lease = p.1) :
    Keeps allowed metaId holder s (next, p.2) := by
  have hfits : Lease.Fits metaId holder next.lease p.2.store.log := hlease ▸ h.fits
  rcases h.store with hstore | ⟨now, notes, e, hnext, hstore⟩
  · refine ⟨h.plain, ?_, ?_, hfits⟩
    · rw [hstore]
      exact hs
    · rw [hstore]
      exact Store.grows_refl s
  · refine ⟨h.plain, ?_, ?_, hfits⟩
    · rw [hstore]
      exact ⟨hnext.sound hs.log, hs.delays⟩
    · rw [hstore]
      exact Store.grows_record s e

section

variable (h : site.Plain allowed) (hs : site.store.Sound)
  (hl : Lease.Fits metaId holder d.lease site.store.log)

include h hs hl

theorem keeps_same : Keeps allowed metaId holder site.store (d, site) :=
  ⟨h, hs, Store.grows_refl _, hl⟩

omit h in
theorem Reads.keeps {since before : Instant} {start : Int} {outcome : Except Fault (Int × Bool)}
    {p : Delayer × Site} (hreads : Reads allowed since before start d site.store outcome p) :
    Keeps allowed metaId holder site.store p := by
  have hlease : p.1.lease = d.lease := by
    rw [hreads.gathers.frame]
  refine ⟨hreads.plain, ?_, ?_, ?_⟩
  · rw [hreads.store]
    exact hs
  · rw [hreads.store]
    exact Store.grows_refl _
  · rw [hreads.store, hlease]
    exact hl

theorem keeps_scanHorizon (stale : Span) :
    Leads (scanHorizon c stale) (d, site) fun _ p =>
      Keeps allowed metaId holder site.store p := by
  unfold scanHorizon
  simp only [leads_bind, Work.leads_own]
  split
  next =>
    simp only [leads_bind, Work.leads_now]
    split
    · simp only [leads_bind]
      refine (leads_pull h hs.delays _ _ _).mono fun outcome p hp => ?_
      have hread := hp.keeps hs hl
      cases outcome with
      | error fault => exact hread
      | ok answer =>
        simp only
        split
        · exact ⟨hread.plain, hread.sound, hread.grows, hread.fits⟩
        · exact hread
    · exact keeps_same h hs hl
  next =>
    simp only [leads_bind, onLease, Work.leads_within]
    refine (Lease.keeps_refresh h hs.log hl).mono fun outcome p hp => ?_
    have hrefreshed := keeps_lease hs hp.1 { d with lease := p.1 } rfl
    cases outcome with
    | error fault => exact hrefreshed
    | ok _ =>
      simp only
      refine (Lease.keeps_takeOver hrefreshed.plain hrefreshed.sound.log hrefreshed.fits).mono
        fun outcome' p' hp' => ?_
      have htaken (next : Delayer) (hlease : next.lease = p'.1) :=
        (keeps_lease hrefreshed.sound hp' next hlease).after hrefreshed.grows
      cases outcome' with
      | error fault => exact htaken { d with lease := p'.1 } rfl
      | ok taken =>
        cases taken with
        | false => exact htaken { d with lease := p'.1 } rfl
        | true => exact htaken (reset { d with lease := p'.1 }) rfl

theorem keeps_scanFresh :
    Leads (scanFresh c) (d, site) fun _ p => Keeps allowed metaId holder site.store p := by
  unfold scanFresh
  simp only [leads_bind, Work.leads_own]
  split
  next =>
    simp only [leads_bind, Work.leads_now]
    refine (leads_pull h hs.delays _ _ _).mono fun outcome p hp => ?_
    have hread := hp.keeps hs hl
    cases outcome with
    | error fault => exact hread
    | ok answer => exact ⟨hread.plain, hread.sound, hread.grows, hread.fits⟩
  next => exact keeps_same h hs hl

theorem keeps_storeWatermark :
    Leads (storeWatermark c) (d, site) fun _ p => Keeps allowed metaId holder site.store p := by
  unfold storeWatermark
  simp only [leads_bind, Work.leads_own]
  split
  next =>
    simp only [leads_bind, Work.leads_now]
    split
    · simp only [leads_bind, onLease, Work.leads_within]
      refine (Lease.keeps_confirm h hs.log hl (noting d.watermark)).mono fun outcome p hp => ?_
      cases outcome with
      | error fault => exact keeps_lease hs hp { d with lease := p.1 } rfl
      | ok held =>
        cases held with
        | true => exact keeps_lease hs hp { d with lease := p.1 } rfl
        | false => exact keeps_lease hs hp (reset { d with lease := p.1 }) rfl
    · exact keeps_same h hs hl
  next => exact keeps_same h hs hl

theorem keeps_stop :
    Leads stop (d, site) fun _ p => Keeps allowed metaId holder site.store p := by
  unfold stop
  simp only [leads_bind, Work.leads_own, leads_tryCatch, onLease, Work.leads_within]
  refine (Lease.keeps_release h hs.log hl (noting d.watermark)).mono fun outcome p hp => ?_
  cases outcome with
  | ok _ => exact keeps_lease hs hp { d with lease := p.1, tracked := ∅ } rfl
  | error _ => exact keeps_lease hs hp { d with lease := p.1, tracked := ∅ } rfl

omit h in
theorem Ends.keeps {x : Delayed} {outcome : Except Fault Unit} {p : Delayer × Site}
    (hends : Ends allowed x d site outcome p) (h : site.Plain allowed) :
    Keeps allowed metaId holder site.store p := by
  have hgrows : site.store.log.entries <+: p.2.store.log.entries := by
    rcases hends.log with hlog | ⟨-, -, hlog⟩
    · rw [hlog]
    · rw [hlog]
      exact List.prefix_append _ _
  have hdelays := hends.delays
  refine ⟨hends.plain h, ⟨?_, ?_⟩, ⟨hgrows, ?_⟩, ?_⟩
  · rcases hends.log with hlog | ⟨-, -, hlog⟩
    · rw [hlog]
      exact hs.log
    · rw [hlog]
      exact hs.log.append rfl rfl
  · rw [hdelays]
    split
    · exact hs.delays.acknowledge _
    · exact hs.delays
  · rw [hdelays]
    split
    · exact Delays.grows_acknowledge _ _
    · exact Delays.grows_refl _
  · rw [hends.frame]
    exact hl.mono hgrows

theorem keeps_fireAll (items : List Delayed) :
    Leads (fireAll items) (d, site) fun _ p =>
      Keeps allowed metaId holder site.store p ∧ p.2.now = site.now ∧
        p.2.isOpen = site.isOpen := by
  induction items generalizing d site with
  | nil => exact ⟨keeps_same h hs hl, rfl, rfl⟩
  | cons x rest ih =>
    have hrest {next : Delayer} {site' : Site}
        (hhere : site'.now = site.now ∧ site'.isOpen = site.isOpen)
        (hfirst : Keeps allowed metaId holder site.store (next, site')) :
        Leads (fireAll rest) (next, site') fun _ p =>
          Keeps allowed metaId holder site.store p ∧ p.2.now = site.now ∧
            p.2.isOpen = site.isOpen := by
      refine (ih hfirst.plain hfirst.sound hfirst.fits).mono fun _ p hp => ?_
      obtain ⟨hkeeps, hnow, hopen⟩ := hp
      exact ⟨hkeeps.after hfirst.grows, hnow.trans hhere.1, hopen.trans hhere.2⟩
    unfold fireAll
    simp only [leads_bind, leads_tryCatch]
    refine (leads_fire h x).mono fun outcome p hends => ?_
    have hfirst : Keeps allowed metaId holder site.store p := hends.keeps hs hl h
    cases outcome with
    | ok _ => exact hrest hends.here ⟨hfirst.plain, hfirst.sound, hfirst.grows, hfirst.fits⟩
    | error _ => exact hrest hends.here hfirst

end

theorem keeps_start (h : site.Plain allowed) (hs : site.store.Sound) (stale : Span) :
    Leads (start stale) (Delayer.new c, site) fun outcome p =>
      p.2.store.Sound ∧ site.store.Grows p.2.store ∧
        (outcome = .ok () → Lease.Fits c.metaId c.holder p.1.lease p.2.store.log) := by
  unfold start
  simp only [leads_bind, onLease, Work.leads_within]
  refine (Lease.keeps_acquire h hs.log (noting (.epoch, 0))).mono fun outcome p hp => ?_
  obtain ⟨hstore, hfits⟩ := hp
  have hkept : p.2.store.Sound ∧ site.store.Grows p.2.store := by
    rcases hstore with hstore | ⟨now, notes, e, hnext, hstore⟩
    · rw [hstore]
      exact ⟨hs, Store.grows_refl _⟩
    · rw [hstore]
      exact ⟨⟨hnext.sound hs.log, hs.delays⟩, Store.grows_record _ e⟩
  cases outcome with
  | error fault => exact ⟨hkept.1, hkept.2, fun hok => absurd hok (by simp)⟩
  | ok _ => exact ⟨hkept.1, hkept.2, fun _ => hfits rfl⟩

end

/-! ### One item after the other -/

/-- A delayer and its site after it fired some items. -/
def afterFiring (items : List Delayed) (p : Delayer × Site) : Delayer × Site :=
  ((fireAll items).run.run p).2

theorem fireAll_append (items more : List Delayed) :
    fireAll (items ++ more) = (do fireAll items; fireAll more) := by
  induction items with
  | nil => rfl
  | cons x rest ih =>
    rw [List.cons_append, fireAll, fireAll, ih]
    simp only [bind_assoc]

theorem fireAll_ok (items : List Delayed) (p : Delayer × Site) :
    Leads (fireAll items) p fun outcome _ => outcome = .ok () := by
  induction items generalizing p with
  | nil => rfl
  | cons x rest ih =>
    unfold fireAll
    simp only [leads_bind, leads_tryCatch]
    refine Leads.of_forall fun outcome p' => ?_
    cases outcome with
    | ok _ => exact ih _
    | error _ => exact ih _

theorem afterFiring_append (items more : List Delayed) (p : Delayer × Site) :
    afterFiring (items ++ more) p = afterFiring more (afterFiring items p) := by
  have hok := fireAll_ok items p
  unfold Leads at hok
  unfold afterFiring
  rw [fireAll_append, run_bind]
  generalize (fireAll items).run.run p = result at hok
  obtain ⟨outcome, p'⟩ := result
  simp only at hok
  rw [hok]

theorem afterFiring_singleton (x : Delayed) (p : Delayer × Site) :
    afterFiring [x] p =
      match (fire x).run.run p with
      | (.ok _, d, site) => ({ d with tracked := d.tracked.erase x.offset }, site)
      | (.error _, d, site) => (d, site) := by
  unfold afterFiring fireAll
  rw [run_bind, run_tryCatch, run_bind]
  rcases (fire x).run.run p with ⟨fault | _, d, site⟩
  · rfl
  · rfl

/-! ### Groups of delayers that others interrupt -/

/-- What a delayer does in a turn: a whole piece of work, or a part of a scan, before which and
after which others may act. -/
inductive Part where
  | whole (op : Op)
  | page (since before : Instant) (offset : Int)
  | items (which : Delayed → Bool)

variable {ι : Type}

def parts (c : ι → DelayerSettings) : Role ι Delayer Part where
  start := (role c).start
  work i
    | .whole op => (role c).work i op
    | .page since before offset => do
      if (← Work.own).lease.active then
        discard <| pullLoop (c i) since before 1 offset
    | .items which => do
      let d ← Work.own
      if d.lease.active then
        fireAll ((d.due (← Work.now)).filter which)

/-- The items that a delayer fires in a turn, in this order. -/
def firedIn (d : Delayer) (now : Instant) : Part → List Delayed
  | .whole .scanDue => if d.lease.active then d.due now else []
  | .items which => if d.lease.active then (d.due now).filter which else []
  | _ => []

theorem dueAt_of_mem_firedIn {d : Delayer} {now : Instant} {part : Part} {x : Delayed}
    (hx : x ∈ d.firedIn now part) : x.dueAt ≤ now := by
  have hdue (hmem : x ∈ d.due now) : x.dueAt ≤ now := by
    simpa using (List.mem_filter.1 (List.mem_mergeSort.1 hmem)).2
  unfold firedIn at hx
  split at hx
  · split at hx
    · exact hdue hx
    · exact absurd hx List.not_mem_nil
  · split at hx
    · exact hdue (List.mem_filter.1 hx).1
    · exact absurd hx List.not_mem_nil
  · exact absurd hx List.not_mem_nil

section

variable {c : ι → DelayerSettings} {i : ι} {m : Moment} {s : Store}
  {allowed : Method → Fault → Prop} (hm : m.gate.Allows allowed) (hs : s.Sound)

include hm hs

theorem keeps_begin {own : Delayer} {x : Work Delayer Unit}
    (hx : (parts c).start i = some (own, x)) :
    Leads x (own, m.site s) fun outcome p =>
      p.2.store.Sound ∧ s.Grows p.2.store ∧
        (outcome = .ok () → Lease.Fits (c i).metaId (c i).holder p.1.lease p.2.store.log) := by
  simp only [parts, role] at hx
  split at hx
  next =>
    cases hx
    exact keeps_start (Moment.plain hm s) hs _
  next => cases hx

variable {d : Delayer} (hl : Lease.Fits (c i).metaId (c i).holder d.lease s.log)

include hl

theorem keeps_part (part : Part) :
    Leads ((parts c).work i part) (d, m.site s) fun _ p =>
      Keeps allowed (c i).metaId (c i).holder s p := by
  have hplain : (m.site s).Plain allowed := Moment.plain hm s
  have hidle : Keeps allowed (c i).metaId (c i).holder s (d, m.site s) := keeps_same hplain hs hl
  cases part with
  | whole op =>
    cases op with
    | scanHorizon =>
      simp only [parts, role]
      split
      · exact keeps_scanHorizon hplain hs hl _
      · exact hidle
    | scanFresh => exact keeps_scanFresh hplain hs hl
    | scanDue =>
      simp only [parts, role, scanDue, leads_bind, Work.leads_own]
      split
      · simp only [leads_bind, Work.leads_now]
        exact (keeps_fireAll hplain hs hl _).mono fun _ _ hp => hp.1
      · exact hidle
    | storeWatermark => exact keeps_storeWatermark hplain hs hl
    | stop => exact keeps_stop hplain hs hl
  | page since before offset =>
    simp only [parts, leads_bind, Work.leads_own]
    split
    · rw [leads_discard]
      have hsound : (m.site s).store.Sound := hs
      exact (leads_pullLoop 1 hplain hs.delays since before offset).mono
        fun _ _ hp => hp.keeps hsound hl
    · exact hidle
  | items which =>
    simp only [parts, leads_bind, Work.leads_own]
    split
    · simp only [leads_bind, Work.leads_now]
      exact (keeps_fireAll hplain hs hl _).mono fun _ _ hp => hp.1
    · exact hidle

omit hm hs hl in
theorem leads_part_of_fires (part : Part) (hfires : d.firedIn m.now part ≠ []) :
    Leads ((parts c).work i part) (d, m.site s) fun _ p =>
      p = afterFiring (d.firedIn m.now part) (d, m.site s) := by
  cases part with
  | whole op =>
    cases op with
    | scanDue =>
      simp only [parts, role, scanDue, firedIn, leads_bind, Work.leads_own]
      split
      · simp only [leads_bind, Work.leads_now]
        rfl
      · rfl
    | _ => exact absurd rfl hfires
  | page => exact absurd rfl hfires
  | items which =>
    simp only [parts, firedIn, leads_bind, Work.leads_own]
    split
    · simp only [leads_bind, Work.leads_now]
      rfl
    · rfl

end

open Workflow.Group

variable [DecidableEq ι] {c : ι → DelayerSettings}

/-- The store is sound, and every delayer that is there fits its log. -/
def Steady (c : ι → DelayerSettings) (g : Group ι Delayer) : Prop :=
  Holds (fun s => s.Sound) (fun i d s => Lease.Fits (c i).metaId (c i).holder d.lease s.log) g

theorem Steady.step {g : Group ι Delayer} (h : Steady c g) (t : Turn ι Part) :
    Steady c (g.step (parts c) t) ∧ g.store.Grows (g.step (parts c) t).store := by
  have hany (m : Moment) : m.gate.Allows fun _ _ => True := fun _ _ _ => trivial
  refine Holds.step_alike h Store.Grows Store.grows_refl ?_ id ?_ ?_ ?_
  · exact fun i d s s' hd _ hgrows => hd.mono hgrows.log
  · rintro i m own x rfl hx hs
    exact keeps_begin (hany m) hs hx
  · rintro i part m d rfl - hs hd
    exact (keeps_part (hany m) hs hd part).mono fun _ p hp => ⟨hp.sound, hp.grows, hp.fits⟩
  · rintro request rfl hs
    obtain ⟨hdelays, hgrows⟩ := Store.delays_serve hs.delays request
    exact ⟨⟨Store.sound_serve hs.log request, hdelays⟩, Store.prefix_serve _ request, hgrows⟩

section

variable (c) {turns : List (Turn ι Part)}

theorem steady_run {k : Nat} (hk : k ≤ turns.length) :
    Steady c (run (parts c) (turns.take k)) := by
  refine run_induction (P := fun _ g => Steady c g)
    (holds_empty ⟨Log.sound_empty, Delays.sound_empty⟩) ?_ k hk
  exact fun k t _ h => (h.step t).1

theorem prefix_run {j k : Nat} (hjk : j ≤ k) (hk : k ≤ turns.length) :
    (run (parts c) (turns.take j)).store.log.entries <+:
      (run (parts c) (turns.take k)).store.log.entries := by
  refine log_mono hk (fun n t hat => ?_) hjk
  have hn := Nat.le_of_lt (List.getElem?_eq_some_iff.1 hat).1
  rw [run_take_succ hat]
  exact ((steady_run c hn).step t).2.log

end

/-- A delayer fires an item: the turn, and which of the items of the turn it is. -/
structure Firing (c : ι → DelayerSettings) (turns : List (Turn ι Part)) (x : Delayed) where
  turn : Nat
  place : Nat
  member : ι
  part : Part
  moment : Moment
  delayer : Delayer
  at_turn : turns[turn]? = some (.work member part moment)
  there : (run (parts c) (turns.take turn)).member member = some delayer
  at_place : (delayer.firedIn moment.now part)[place]? = some x

namespace Firing

variable {turns : List (Turn ι Part)} {x y : Delayed}

/-- The delayer and its site at the start of the turn. -/
def start (f : Firing c turns x) : Delayer × Site :=
  (f.delayer, f.moment.site (run (parts c) (turns.take f.turn)).store)

/-- The delayer and its site when so many items of the turn are fired. -/
def stage (f : Firing c turns x) (n : Nat) : Delayer × Site :=
  afterFiring ((f.delayer.firedIn f.moment.now f.part).take n) f.start

/-- The delayer and its site when the item is about to be fired. -/
def before (f : Firing c turns x) : Delayer × Site := f.stage f.place

/-- How firing the item ends. -/
def outcome (f : Firing c turns x) : Except Fault Unit := ((fire x).run.run f.before).1

/-- The delayer and its site when the item was fired. -/
def after (f : Firing c turns x) : Delayer × Site := ((fire x).run.run f.before).2

/-- The firing takes place before the other one. -/
def Precedes (f : Firing c turns x) (g : Firing c turns y) : Prop :=
  f.turn < g.turn ∨ f.turn = g.turn ∧ f.place < g.place

theorem turn_lt (f : Firing c turns x) : f.turn < turns.length :=
  (List.getElem?_eq_some_iff.1 f.at_turn).1

theorem eq_of_turn_eq {f g : Firing c turns x} (hturn : f.turn = g.turn)
    (hplace : f.place = g.place) : f = g := by
  obtain ⟨turn, place, member, part, moment, delayer, hat, hthere, hx⟩ := f
  obtain ⟨turn', place', member', part', moment', delayer', hat', hthere', hx'⟩ := g
  obtain rfl : turn = turn' := hturn
  obtain rfl : place = place' := hplace
  cases hat.symm.trans hat'
  cases hthere.symm.trans hthere'
  rfl

theorem exists_first {k : Nat} {i : ι} {part : Part} {m : Moment} {d : Delayer}
    (hat : turns[k]? = some (.work i part m))
    (hthere : d ∈ (run (parts c) (turns.take k)).member i)
    (hplace : (d.firedIn m.now part)[0]? = some x) :
    ∃ f : Firing c turns x, f.turn = k ∧ f.member = i ∧ f.moment = m ∧
      f.before = (d, m.site (run (parts c) (turns.take k)).store) := by
  refine ⟨⟨k, 0, i, part, m, d, hat, hthere, hplace⟩, rfl, rfl, rfl, ?_⟩
  unfold before stage
  rw [List.take_zero]
  rfl

theorem precedes_or (f : Firing c turns x) (g : Firing c turns y) :
    f.Precedes g ∨ g.Precedes f ∨ f.turn = g.turn ∧ f.place = g.place := by
  unfold Precedes
  omega

section

variable (f : Firing c turns x)

theorem stage_add (n m : Nat) :
    f.stage (n + m) =
      afterFiring (((f.delayer.firedIn f.moment.now f.part).drop n).take m) (f.stage n) := by
  unfold stage
  rw [List.take_add, afterFiring_append]

theorem stage_succ :
    f.stage (f.place + 1) =
      match f.outcome with
      | .ok _ => ({ f.after.1 with tracked := f.after.1.tracked.erase x.offset }, f.after.2)
      | .error _ => f.after := by
  have hone : ((f.delayer.firedIn f.moment.now f.part).drop f.place).take 1 = [x] := by
    rw [List.take_one, List.head?_drop, f.at_place, Option.toList_some]
  rw [stage_add, hone, afterFiring_singleton]
  unfold outcome after before
  rcases (fire x).run.run (f.stage f.place) with ⟨fault | _, d, site⟩
  · rfl
  · rfl

theorem site_stage_succ : (f.stage (f.place + 1)).2 = f.after.2 := by
  rw [stage_succ]
  split
  · rfl
  · rfl

variable {allowed : Method → Fault → Prop} (hallowed : f.moment.gate.Allows allowed)

include hallowed

theorem keeps_stage (n : Nat) :
    Keeps allowed (c f.member).metaId (c f.member).holder f.start.2.store (f.stage n) ∧
      (f.stage n).2.now = f.moment.now ∧ (f.stage n).2.isOpen = f.moment.isOpen := by
  have hsteady := steady_run c (Nat.le_of_lt f.turn_lt)
  have hfits := hsteady.member f.member f.delayer f.there
  exact keeps_fireAll (Moment.plain hallowed _) hsteady.store hfits _

theorem ends : Ends allowed x f.before.1 f.before.2 f.outcome f.after :=
  leads_fire (f.keeps_stage hallowed f.place).1.plain x

end

section

variable (f : Firing c turns x)

theorem sound : f.before.2.store.Sound :=
  (f.keeps_stage (fun _ _ _ => trivial) f.place).1.sound

theorem here : f.before.2.now = f.moment.now ∧ f.before.2.isOpen = f.moment.isOpen :=
  (f.keeps_stage (fun _ _ _ => trivial) f.place).2

theorem dueAt_le : x.dueAt ≤ f.moment.now :=
  dueAt_of_mem_firedIn (List.mem_of_getElem? f.at_place)

/-! ### What is there for later firings -/

theorem prefix_stage {n m : Nat} (h : n ≤ m) :
    (f.stage n).2.store.log.entries <+: (f.stage m).2.store.log.entries := by
  obtain ⟨k, rfl⟩ := Nat.exists_eq_add_of_le h
  have hkeeps := (f.keeps_stage (fun _ _ _ => trivial) n).1
  rw [stage_add]
  exact (keeps_fireAll hkeeps.plain hkeeps.sound hkeeps.fits _).1.grows.log

theorem prefix_before :
    (run (parts c) (turns.take f.turn)).store.log.entries <+: f.before.2.store.log.entries :=
  (f.keeps_stage (fun _ _ _ => trivial) f.place).1.grows.log

theorem run_succ : ∃ n, f.place < n ∧
    run (parts c) (turns.take (f.turn + 1)) =
      ⟨(f.stage n).2.store, Function.update (run (parts c) (turns.take f.turn)).member f.member
        (some (f.stage n).1)⟩ := by
  have hfires : f.delayer.firedIn f.moment.now f.part ≠ [] := by
    intro hnil
    have hplace := f.at_place
    rw [hnil] at hplace
    cases hplace
  have hturn : Effect.Leads ((parts c).work f.member f.part) f.start fun _ p =>
      p = f.stage (f.delayer.firedIn f.moment.now f.part).length := by
    unfold stage
    rw [List.take_length]
    exact leads_part_of_fires f.part hfires
  refine ⟨_, (List.getElem?_eq_some_iff.1 f.at_place).1, ?_⟩
  rw [run_take_succ f.at_turn]
  unfold Group.step Work.perform
  simp only [f.there]
  unfold Effect.Leads start at hturn
  generalize ((parts c).work f.member f.part).run.run _ = result at hturn
  obtain ⟨outcome, own, site⟩ := result
  rw [← hturn]

theorem prefix_run_succ : f.after.2.store.log.entries <+:
    (run (parts c) (turns.take (f.turn + 1))).store.log.entries := by
  obtain ⟨n, hn, hrun⟩ := f.run_succ
  rw [hrun, ← f.site_stage_succ]
  exact f.prefix_stage hn

variable {f}

theorem Precedes.grows {g : Firing c turns y} (h : f.Precedes g) :
    f.after.2.store.log.entries <+: g.before.2.store.log.entries := by
  rcases h with hturn | ⟨hturn, hplace⟩
  · have hrun := prefix_run c (Nat.succ_le_of_lt hturn) (Nat.le_of_lt g.turn_lt)
    exact (f.prefix_run_succ.trans hrun).trans g.prefix_before
  · obtain ⟨turn, place, member, part, moment, delayer, hat, hthere, hx⟩ := f
    obtain ⟨turn', place', member', part', moment', delayer', hat', hthere', hy⟩ := g
    obtain rfl : turn = turn' := hturn
    cases hat.symm.trans hat'
    cases hthere.symm.trans hthere'
    let f : Firing c turns x := ⟨turn, place, member, part, moment, delayer, hat, hthere, hx⟩
    have hstage : f.after.2.store.log.entries <+: (f.stage place').2.store.log.entries := by
      rw [← f.site_stage_succ]
      exact f.prefix_stage hplace
    exact hstage

end

end Firing

end Delayer

end Workflow
