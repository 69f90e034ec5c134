import Workflow.Proofs.Firings
import Workflow.Proofs.Retrying

/-!
# How much is tracked

A recoverer and a delayer look before each page whether they track fewer items than they may, and
the page that they read then adds at most its own length. Nothing else adds to what is tracked: what
is put back was there before. So the bound is exceeded by less than a page, whatever the store
holds, whoever changes it, and whichever calls fail.
-/

set_option autoImplicit false

namespace Workflow

/-! ### Lengths of pages -/

theorem Ring.length_items_page? {r : Ring} {q : StateQuery} {page : Page State}
    (h : r.page? q = some page) : page.items.length ≤ q.pageLength := by
  unfold page? at h
  split at h
  · split at h
    · split at h
      · cases h
        exact Page.length_collect_le _ _ (Nat.zero_le _)
      · cases h
    · cases h
  · cases h

namespace Repository

open Effect

theorem leads_readStore_ok {α : Type} (m : Method) (f : Store → Except Fault α) (r : Repository) :
    Leads (readStore m f) r fun outcome _ => ∀ a, outcome = .ok a → f r.store = .ok a := by
  unfold readStore pass
  simp only [leads_bind, leads_get, leads_set]
  split
  next fault _ => exact fun a heq => nomatch heq
  next => exact fun a heq => heq

theorem leads_listStates_ok (q : StateQuery) (r : Repository) :
    Leads (listStates q) r fun outcome _ =>
      ∀ page, outcome = .ok page → page.items.length ≤ q.pageLength := by
  unfold listStates
  simp only [leads_bind, leads_get]
  split
  next page hpage =>
    obtain ⟨cache, -, hpage⟩ := Option.bind_eq_some_iff.1 hpage
    intro page' heq
    cases heq
    exact Ring.length_items_page? hpage
  next =>
    unfold miss
    simp only [leads_bind, leads_modify]
    refine (leads_readStore_ok _ _ _).mono fun outcome _ hread page heq => ?_
    cases hread page heq
    exact Page.length_collect_le _ _ (Nat.zero_le _)

theorem leads_listDelayed_ok (q : DelayQuery) (r : Repository) :
    Leads (listDelayed q) r fun outcome _ =>
      ∀ page, outcome = .ok page → page.items.length ≤ q.pageLength := by
  unfold listDelayed
  refine (leads_readStore_ok _ _ _).mono fun outcome _ hread page heq => ?_
  cases hread page heq
  exact Page.length_collect_le _ _ (Nat.zero_le _)

end Repository

/-! ### What work maintains -/

namespace Work

open Effect

variable {σ τ α β : Type} {P : σ → Prop}

/-- At any site, and also if it fails, the work leaves its own value with a property that this had
before. -/
def Maintains (P : σ → Prop) (x : Work σ α) : Prop :=
  ∀ own site, P own → Leads x (own, site) fun _ p => P p.1

theorem maintains_pure (a : α) : Maintains P (pure a) := fun _ _ h => h

theorem maintains_throw (fault : Fault) : Maintains P (throw fault : Work σ α) := fun _ _ h => h

theorem maintains_own : Maintains P Work.own := fun _ _ h => h

theorem maintains_now : Maintains P Work.now := fun _ _ h => h

theorem maintains_access (x : Access α) : Maintains P (Work.access x) := fun _ _ h => h

theorem maintains_launch (d : Draft) : Maintains P (Work.launch d) := fun _ _ h => h

theorem maintains_change {f : σ → σ} (h : ∀ own, P own → P (f own)) :
    Maintains P (Work.change f) :=
  fun own _ hown => h own hown

theorem maintains_within (part : σ → τ) {put : σ → τ → σ}
    (h : ∀ own inner, P own → P (put own inner)) (x : Work τ α) :
    Maintains P (Work.within part put x) :=
  fun own _ hown => h own _ hown

theorem Maintains.bind {x : Work σ α} {f : α → Work σ β} (hx : Maintains P x)
    (hf : ∀ a, Maintains P (f a)) : Maintains P (x >>= f) :=
  fun own site h => (hx own site h).bind (fun a p hp => hf a p.1 p.2 hp) fun _ _ hp => hp

theorem Maintains.tryCatch {x : Work σ α} {handle : Fault → Work σ α} (hx : Maintains P x)
    (hhandle : ∀ fault, Maintains P (handle fault)) : Maintains P (tryCatch x handle) := by
  intro own site h
  rw [leads_tryCatch]
  refine (hx own site h).mono fun outcome p hp => ?_
  cases outcome with
  | ok a => exact hp
  | error fault => exact hhandle fault p.1 p.2 hp

theorem Maintains.discard {x : Work σ α} (hx : Maintains P x) : Maintains P (discard x) :=
  fun own site h => leads_discard.2 (hx own site h)

theorem maintains_commit? (parts : List Command) : Maintains P (Work.commit? parts) := by
  intro own site h
  unfold Work.commit? Work.commit
  simp only [leads_bind, leads_tryCatch, leads_now, leads_access]
  refine Leads.of_forall fun outcome repository => ?_
  cases outcome with
  | ok parts => exact h
  | error fault =>
    simp only
    split
    · exact h
    · exact h

end Work

/-! ### Recoverers -/

/-- How many states a recoverer ever tracks: less than a page more than its bound. -/
def RecovererSettings.mostTracked (c : RecovererSettings) : Nat :=
  c.maxTracked - 1 + if c.batchLimit = 0 then 50 else c.batchLimit

namespace Recoverer

open Effect

variable {c : RecovererSettings} {most : Nat}

/-- The recoverer tracks no more states than that. -/
def Limited (most : Nat) (r : Recoverer) : Prop := r.tracked.size ≤ most

theorem limited_reset (r : Recoverer) : r.reset.Limited most := Nat.zero_le _

theorem maintains_onLease {α : Type} (x : Work Lease α) :
    Work.Maintains (Limited most) (onLease x) :=
  Work.maintains_within lease (fun _ _ h => h) x

theorem maintains_retry (tracked : SortedMap StateId Stuck) (s : State) :
    Work.Maintains (fun r => r.tracked = tracked) (retry c s) := by
  unfold retry
  simp only
  split
  · refine (Work.maintains_commit? _).bind fun parts => ?_
    split
    · exact Work.maintains_change fun _ h => h
    · exact Work.maintains_pure _
  · refine (Work.maintains_commit? _).bind fun parts => ?_
    cases parts with
    | none => exact Work.maintains_pure _
    | some parts =>
      refine Work.Maintains.bind (Work.maintains_change fun _ h => h) fun _ => ?_
      split
      · exact Work.maintains_launch _
      · exact Work.maintains_pure _

theorem limited_retryAll {list : List (StateId × Stuck)} {r : Recoverer} {site : Site}
    (htracked : ∀ entry ∈ list, r.tracked.get? entry.1 = some entry.2)
    (hnodup : (list.map Prod.fst).Nodup) (h : r.Limited most) :
    Leads (retryAll c list) (r, site) fun _ p => p.1.Limited most := by
  induction list generalizing r site with
  | nil => exact h
  | cons entry rest ih =>
    obtain ⟨id, stuck⟩ := entry
    obtain ⟨hfirst, htracked⟩ := List.forall_mem_cons.1 htracked
    obtain ⟨hnew, hnodup⟩ := List.nodup_cons.1 hnodup
    unfold retryAll
    simp only [leads_bind, leads_tryCatch, Work.leads_change]
    refine (maintains_retry (r.tracked.erase id) stuck.state _ _ rfl).mono fun outcome p hp => ?_
    cases outcome with
    | ok _ =>
      refine ih (fun entry hentry => ?_) hnodup ?_
      · have hother : entry.1 ≠ id := fun heq =>
          hnew (List.mem_map.2 ⟨entry, hentry, heq⟩)
        rw [hp, SortedMap.get?_erase_of_ne _ hother]
        exact htracked entry hentry
      · unfold Limited
        rw [hp]
        exact Nat.le_trans (r.tracked.size_erase_le id) h
    | error fault =>
      have hback : p.1.tracked.insert id stuck = r.tracked := by
        rw [hp]
        exact SortedMap.ext_get? (SortedMap.get?_insert_erase hfirst)
      simp only
      refine ih (fun entry hentry => ?_) hnodup ?_
      · simp only [hback]
        exact htracked entry hentry
      · unfold Limited
        simp only [hback]
        exact h

theorem limited_retryAll_filter {r : Recoverer} (h : r.Limited most)
    (which : StateId × Stuck → Bool) (site : Site) :
    Leads (retryAll c (r.tracked.entries.filter which)) (r, site) fun _ p => p.1.Limited most :=
  limited_retryAll
    (fun _ hentry => r.tracked.get?_eq_some_iff.2 (List.mem_filter.1 hentry).1)
    ((List.filter_sublist.map _).nodup r.tracked.nodup_keys) h

theorem maintains_storeWatermark (now : Instant) :
    Work.Maintains (Limited most) (storeWatermark c now) := by
  refine Work.maintains_own.bind fun r => ?_
  simp only
  split
  · refine (maintains_onLease _).bind fun held => ?_
    split
    · exact Work.maintains_change fun r _ => r.limited_reset
    · exact Work.maintains_pure _
  · exact Work.maintains_pure _

theorem maintains_scanTail (stale : Span) : Work.Maintains (Limited most) (scanTail c stale) := by
  intro r site h
  unfold scanTail
  simp only [leads_bind, Work.leads_own]
  split
  · simp only [leads_bind, Work.leads_now]
    refine (limited_retryAll_filter h _ site).mono fun outcome p hp => ?_
    cases outcome with
    | error fault => exact hp
    | ok _ => exact maintains_storeWatermark _ p.1 p.2 hp
  · refine (maintains_onLease _).bind (fun _ => ?_) r site h
    refine (maintains_onLease _).bind fun taken => ?_
    split
    · exact Work.maintains_change fun r _ => r.limited_reset
    · exact Work.maintains_pure _

theorem maintains_stop : Work.Maintains (Limited most) stop := by
  refine Work.maintains_own.bind fun r => ?_
  refine ((maintains_onLease _).tryCatch fun _ => Work.maintains_pure _).bind fun _ => ?_
  exact Work.maintains_change fun _ _ => Nat.zero_le _

theorem maintains_start (stale : Span) : Work.Maintains (Limited most) (start stale) :=
  (maintains_onLease _).bind fun _ => Work.maintains_change fun r _ => r.limited_reset

/-! #### Reading on -/

theorem limited_takeEntry {r : Recoverer} (h : r.Limited most) (s : State) :
    (r.takeEntry c s).1.Limited (most + 1) := by
  have hmore : r.tracked.size ≤ most + 1 := Nat.le_succ_of_le h
  unfold takeEntry
  simp only
  split
  · split
    · exact Nat.zero_le _
    · exact hmore
  · split
    · unfold track
      simp only
      split
      · exact Nat.le_trans (r.tracked.size_erase_le s.id) hmore
      · split
        · exact Nat.le_trans (r.tracked.size_insert_le s.id _) (Nat.succ_le_succ h)
        · exact hmore
    · exact hmore

theorem limited_takeEntries {r : Recoverer} (states : List State) (h : r.Limited most) :
    (r.takeEntries c states).1.Limited (most + states.length) := by
  induction states generalizing r most with
  | nil => exact h
  | cons s rest ih =>
    have hfirst := limited_takeEntry (c := c) h s
    unfold takeEntries
    rw [List.length_cons, Nat.add_comm rest.length 1, ← Nat.add_assoc]
    split
    next r' htaken =>
      rw [htaken] at hfirst
      exact Nat.le_trans hfirst (Nat.le_add_right _ _)
    next r' htaken =>
      rw [htaken] at hfirst
      exact ih hfirst

theorem maintains_readOn (fuel : Nat) :
    Work.Maintains (Limited c.mostTracked) (readOn c fuel) := by
  induction fuel with
  | zero => exact Work.maintains_pure _
  | succ fuel ih =>
    intro r site h
    unfold readOn
    simp only [leads_bind, Work.leads_own]
    split
    next => exact h
    next hroom =>
      simp only [leads_bind, Work.leads_access]
      refine (Repository.leads_listStates_ok _ _).mono fun outcome repository hpage => ?_
      cases outcome with
      | error fault => exact h
      | ok page =>
        have hlength := hpage page rfl
        have hfew : r.Limited (c.maxTracked - 1) := by
          unfold Limited
          omega
        have htaken : (r.takeEntries c page.items).1.Limited c.mostTracked :=
          Nat.le_trans (limited_takeEntries page.items hfew) (Nat.add_le_add_left hlength _)
        simp only [Work.leads_change]
        split
        · exact ih _ _ htaken
        · exact htaken

theorem maintains_part {ι : Type} (c : ι → RecovererSettings) (i : ι) (part : Part) :
    Work.Maintains (Limited (c i).mostTracked) ((parts c).work i part) := by
  have hscan : Work.Maintains (Limited (c i).mostTracked) (scanHead (c i)) := by
    intro r site h
    unfold scanHead
    simp only [leads_bind, Work.leads_own]
    split
    · simp only [leads_bind, leads_get]
      exact maintains_readOn _ r site h
    · exact h
  cases part with
  | whole op =>
    cases op with
    | scanHead => exact hscan
    | scanTail =>
      simp only [parts, role]
      split
      · exact maintains_scanTail _
      · exact Work.maintains_pure _
    | stop => exact maintains_stop
  | page =>
    refine Work.maintains_own.bind fun r => ?_
    split
    · exact maintains_readOn 1
    · exact Work.maintains_pure _
  | states ids =>
    intro r site h
    simp only [parts, leads_bind, Work.leads_own]
    split
    · simp only [leads_bind, Work.leads_now]
      exact limited_retryAll_filter h _ site
    · exact h
  | watermark =>
    refine Work.maintains_own.bind fun r => ?_
    split
    · exact Work.maintains_now.bind fun now => maintains_storeWatermark now
    · exact Work.maintains_pure _

end Recoverer

/-! ### Delayers -/

/-- How many items a delayer ever tracks: less than a page more than its bound. -/
def DelayerSettings.mostTracked (c : DelayerSettings) : Nat :=
  c.maxTracked - 1 + if c.batchLimit = 0 then 500 else c.batchLimit

namespace Delayer

open Effect

variable {c : DelayerSettings} {most : Nat}

/-- The delayer tracks no more items than that. -/
def Limited (most : Nat) (d : Delayer) : Prop := d.tracked.size ≤ most

theorem limited_reset (d : Delayer) : d.reset.Limited most := Nat.zero_le _

theorem maintains_onLease {α : Type} (x : Work Lease α) :
    Work.Maintains (Limited most) (onLease x) :=
  Work.maintains_within lease (fun _ _ h => h) x

/-! #### Reading -/

theorem limited_foldl_track {d : Delayer} (items : List Delayed) (h : d.Limited most) :
    (items.foldl track d).Limited (most + items.length) := by
  induction items generalizing d most with
  | nil => exact h
  | cons item rest ih =>
    have hfirst : (d.track item).Limited (most + 1) :=
      Nat.le_trans (d.tracked.size_insertNew_le item.offset item) (Nat.succ_le_succ h)
    rw [List.foldl_cons, List.length_cons, Nat.add_comm rest.length 1, ← Nat.add_assoc]
    exact ih hfirst

theorem maintains_pullLoop (since before : Instant) (fuel : Nat) (offset : Int) :
    Work.Maintains (Limited c.mostTracked) (pullLoop c since before fuel offset) := by
  induction fuel generalizing offset with
  | zero => exact Work.maintains_pure _
  | succ fuel ih =>
    intro d site h
    unfold pullLoop
    simp only [leads_bind, Work.leads_own]
    split
    next => exact h
    next hroom =>
      simp only [leads_bind, Work.leads_access]
      refine (Repository.leads_listDelayed_ok _ _).mono fun outcome repository hpage => ?_
      cases outcome with
      | error fault => exact h
      | ok page =>
        have hlength := hpage page rfl
        have hfew : d.Limited (c.maxTracked - 1) := by
          unfold Limited
          omega
        have htracked : (page.items.foldl track d).Limited c.mostTracked :=
          Nat.le_trans (limited_foldl_track page.items hfew) (Nat.add_le_add_left hlength _)
        simp only [Work.leads_change]
        split
        · exact ih _ _ _ htracked
        · exact htracked

theorem maintains_pull (since before : Instant) (offset : Int) :
    Work.Maintains (Limited c.mostTracked) (pull c since before offset) := by
  intro d site h
  unfold pull
  simp only [leads_bind, leads_get]
  exact maintains_pullLoop since before _ offset d site h

theorem maintains_scanHorizon (stale : Span) :
    Work.Maintains (Limited c.mostTracked) (scanHorizon c stale) := by
  refine Work.maintains_own.bind fun d => ?_
  split
  · refine Work.maintains_now.bind fun now => ?_
    simp only
    split
    · refine (maintains_pull _ _ _).bind fun answer => ?_
      split
      · exact Work.maintains_change fun _ h => h
      · exact Work.maintains_pure _
    · exact Work.maintains_pure _
  · refine (maintains_onLease _).bind fun _ => (maintains_onLease _).bind fun taken => ?_
    split
    · exact Work.maintains_change fun d _ => d.limited_reset
    · exact Work.maintains_pure _

theorem maintains_scanFresh : Work.Maintains (Limited c.mostTracked) (scanFresh c) := by
  refine Work.maintains_own.bind fun d => ?_
  split
  · refine Work.maintains_now.bind fun now => ?_
    refine (maintains_pull _ _ _).bind fun answer => ?_
    exact Work.maintains_change fun _ h => h
  · exact Work.maintains_pure _

/-! #### Firing -/

theorem maintains_continueWith (item : Delayed) (next : Draft) :
    Work.Maintains (Limited most) (continueWith item next) :=
  (Work.maintains_access _).bind fun _ =>
    Work.Maintains.bind (Work.maintains_change fun _ h => h) fun _ => Work.maintains_launch next

theorem maintains_fire (item : Delayed) : Work.Maintains (Limited most) (fire item) := by
  unfold fire
  simp only
  split
  · refine (Work.maintains_commit? _).bind fun parts => ?_
    cases parts with
    | none => exact (Work.maintains_access _).bind fun _ => Work.maintains_change fun _ h => h
    | some parts =>
      simp only
      split
      · exact maintains_continueWith item _
      · exact Work.maintains_throw _
  · exact maintains_continueWith item _

theorem maintains_fireAll (items : List Delayed) :
    Work.Maintains (Limited most) (fireAll items) := by
  induction items with
  | nil => exact Work.maintains_pure _
  | cons item rest ih =>
    have herase : Work.Maintains (Limited most)
        (Work.change fun d => { d with tracked := d.tracked.erase item.offset }) :=
      Work.maintains_change fun d h => Nat.le_trans (d.tracked.size_erase_le item.offset) h
    have hfirst := ((maintains_fire item).bind fun _ => herase).tryCatch fun _ =>
      Work.maintains_pure ()
    exact hfirst.bind fun _ => ih

/-! #### Runs -/

theorem maintains_storeWatermark : Work.Maintains (Limited most) (storeWatermark c) := by
  refine Work.maintains_own.bind fun d => ?_
  split
  · refine Work.maintains_now.bind fun now => ?_
    split
    · refine (maintains_onLease _).bind fun held => ?_
      split
      · exact Work.maintains_change fun d _ => d.limited_reset
      · exact Work.maintains_pure _
    · exact Work.maintains_pure _
  · exact Work.maintains_pure _

theorem maintains_stop : Work.Maintains (Limited most) stop := by
  refine Work.maintains_own.bind fun d => ?_
  refine ((maintains_onLease _).tryCatch fun _ => Work.maintains_pure _).bind fun _ => ?_
  exact Work.maintains_change fun _ _ => Nat.zero_le _

theorem maintains_start (stale : Span) : Work.Maintains (Limited most) (start stale) :=
  (maintains_onLease _).bind fun _ => Work.maintains_change fun d _ => d.limited_reset

theorem maintains_part {ι : Type} (c : ι → DelayerSettings) (i : ι) (part : Part) :
    Work.Maintains (Limited (c i).mostTracked) ((parts c).work i part) := by
  cases part with
  | whole op =>
    cases op with
    | scanHorizon =>
      simp only [parts, role]
      split
      · exact maintains_scanHorizon _
      · exact Work.maintains_pure _
    | scanFresh => exact maintains_scanFresh
    | scanDue =>
      refine Work.maintains_own.bind fun d => ?_
      split
      · exact Work.maintains_now.bind fun now => maintains_fireAll _
      · exact Work.maintains_pure _
    | storeWatermark => exact maintains_storeWatermark
    | stop => exact maintains_stop
  | page since before offset =>
    refine Work.maintains_own.bind fun d => ?_
    split
    · exact (maintains_pullLoop since before 1 offset).discard
    · exact Work.maintains_pure _
  | items which =>
    refine Work.maintains_own.bind fun d => ?_
    split
    · exact Work.maintains_now.bind fun now => maintains_fireAll _
    · exact Work.maintains_pure _

end Delayer

/-! ### What becomes of a component -/

section

variable {ι σ Op : Type} {r : Role ι σ Op} {i : ι} {own : σ}

/-- What may become of a component: it starts, and does pieces of work one after the other, each at
a site of its own, with whatever store, front, planned faults and time. -/
inductive Role.Arises (r : Role ι σ Op) (i : ι) : σ → Prop
  | start {own : σ} {x : Work σ Unit} (hstart : r.start i = some (own, x)) (site : Site)
      (hok : (x.perform own site).1 = .ok ()) : Arises r i (x.perform own site).2.1
  | work {own : σ} (hown : Arises r i own) (op : Op) (site : Site) :
      Arises r i ((r.work i op).perform own site).2.1

/-- What holds when a component is about to start, and what all its work maintains, holds of it
whatever becomes of it. -/
theorem Role.Arises.of_maintains {P : σ → Prop} (h : r.Arises i own)
    (hstart : ∀ own x, r.start i = some (own, x) → P own ∧ Work.Maintains P x)
    (hwork : ∀ op, Work.Maintains P (r.work i op)) : P own := by
  induction h with
  | start hbegins site _ =>
    obtain ⟨hown, hmaintains⟩ := hstart _ _ hbegins
    exact hmaintains _ site hown
  | work _ op site ih => exact hwork op _ site ih

variable [DecidableEq ι]

theorem Group.arises_of_run {turns : List (Turn ι Op)} (hi : (run r turns).member i = some own) :
    r.Arises i own := by
  have hholds : Holds (fun _ => True) (fun i own _ => r.Arises i own) (run r turns) := by
    refine List.foldlRecOn (motive := Holds _ _) _ _ (holds_empty trivial) fun g hg t _ => ?_
    refine (hg.step_alike (fun _ _ => True) (fun _ => trivial) (fun _ _ _ _ h _ _ => h)
      (fun _ => trivial) ?_ ?_ fun _ _ _ => ⟨trivial, trivial⟩).1
    · exact fun i m own x _ hbegins _ =>
        ⟨trivial, trivial, fun hok => .start hbegins (m.site g.store) hok⟩
    · exact fun i op m own _ _ _ hown => ⟨trivial, trivial, hown.work op (m.site g.store)⟩
  exact hholds.member i own hi

end

/-- A recoverer or a delayer that starts and then works piece by piece, in any order and at any
time, whatever becomes of the store in between and whichever calls fail, never tracks more items
than the bound, minus one, plus the length of a page. -/
theorem working_sets_stay_bounded {ι κ : Type} (c : ι → RecovererSettings)
    (c' : κ → DelayerSettings) :
    (∀ i r, (Recoverer.parts c).Arises i r → r.tracked.size ≤
      (c i).maxTracked - 1 + if (c i).batchLimit = 0 then 50 else (c i).batchLimit) ∧
    ∀ i d, (Delayer.parts c').Arises i d → d.tracked.size ≤
      (c' i).maxTracked - 1 + if (c' i).batchLimit = 0 then 500 else (c' i).batchLimit := by
  constructor
  · intro i r h
    refine h.of_maintains (P := Recoverer.Limited (c i).mostTracked) (fun own x hbegins => ?_)
      (Recoverer.maintains_part c i)
    simp only [Recoverer.parts, Recoverer.role] at hbegins
    split at hbegins
    · cases hbegins
      exact ⟨Nat.zero_le _, Recoverer.maintains_start _⟩
    · cases hbegins
  · intro i d h
    refine h.of_maintains (P := Delayer.Limited (c' i).mostTracked) (fun own x hbegins => ?_)
      (Delayer.maintains_part c' i)
    simp only [Delayer.parts, Delayer.role] at hbegins
    split at hbegins
    · cases hbegins
      exact ⟨Nat.zero_le _, Delayer.maintains_start _⟩
    · cases hbegins

/-- A recoverer and a delayer that may track three items read a second page of two when they track
two. -/
theorem working_sets_stay_bounded_of_second_page :
    let moment (n : Nat) : Moment := ⟨Instant.epoch + Span.ofSecs n, true, .free⟩
    let c (_ : Unit) : RecovererSettings := { holder := "a", batchLimit := 2, maxTracked := 3 }
    let c' (_ : Unit) : DelayerSettings := { holder := "a", batchLimit := 2, maxTracked := 3 }
    let keep (id : String) : Turn Unit Recoverer.Part :=
      .call (.commit (moment 1).now [.keep (.ofState (.new ⟨id⟩))])
    let put (n : Nat) : Turn Unit Delayer.Part := .call (.delay (.new ⟨"w"⟩) (moment n).now)
    let turns : List (Turn Unit Recoverer.Part) :=
      [keep "t", keep "u", keep "v", keep "w", .start () (moment 2),
        .work () (.whole .scanHead) (moment 3)]
    let turns' : List (Turn Unit Delayer.Part) :=
      [put 11, put 12, put 13, put 14, put 15, .start () (moment 2),
        .work () (.whole .scanHorizon) (moment 3)]
    (∃ r, (Group.run (Recoverer.parts c) turns).member () = some r ∧
      (Recoverer.parts c).Arises () r ∧ r.tracked.size = 4 ∧ r.tracked.size ≤ 3 - 1 + 2) ∧
    ∃ d, (Group.run (Delayer.parts c') turns').member () = some d ∧
      (Delayer.parts c').Arises () d ∧ d.tracked.size = 4 ∧ d.tracked.size ≤ 3 - 1 + 2 := by
  intro moment c c' keep put turns turns'
  have hfull : ∃ r ∈ (Group.run (Recoverer.parts c) turns).member (), r.tracked.size = 4 := by
    decide +kernel
  have hfull' : ∃ d ∈ (Group.run (Delayer.parts c') turns').member (), d.tracked.size = 4 := by
    decide +kernel
  obtain ⟨r, hr, hsize⟩ := hfull
  obtain ⟨d, hd, hsize'⟩ := hfull'
  obtain ⟨hrecoverer, hdelayer⟩ := working_sets_stay_bounded c c'
  have harises := Group.arises_of_run hr
  have harises' := Group.arises_of_run hd
  exact ⟨⟨r, hr, harises, hsize, hrecoverer () r harises⟩,
    d, hd, harises', hsize', hdelayer () d harises'⟩

end Workflow
