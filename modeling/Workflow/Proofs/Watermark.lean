import Workflow.Proofs.Group
import Workflow.Proofs.Recovery
import Workflow.Proofs.Trying
import Workflow.Proofs.Valid

/-!
# Recovery loses no work

Recoverers share a meta state, and other clients commit other states. However their scans, their
starts and their stops follow each other, and whatever calls fail, the stored watermark lies before
every stuck state and does not decrease.
-/

set_option autoImplicit false

namespace Workflow

namespace Recoverer

/-- What a turn of the component of a name adds: meta states that name it, or nobody. -/
def Changes (metaId : StateId) (holder : String) (s s' : Store) : Prop :=
  s.log.entries <+: s'.log.entries ∧
    ∀ e ∈ s'.log.entries, e.id = metaId → e ∈ s.log.entries ∨ e.holder = "" ∨ e.holder = holder

section

variable {metaId : StateId} {holder : String} {s : Store}

theorem changes_refl (s : Store) : Changes metaId holder s s :=
  ⟨List.prefix_rfl, fun _ he _ => .inl he⟩

theorem Changes.trans {s' s'' : Store} (h : Changes metaId holder s s')
    (h' : Changes metaId holder s' s'') : Changes metaId holder s s'' := by
  refine ⟨h.1.trans h'.1, fun e he hid => ?_⟩
  rcases h'.2 e he hid with hold | hnamed
  · exact h.2 e hold hid
  · exact .inr hnamed

theorem changes_record {e : State} (h : e.id = metaId → e.holder = "" ∨ e.holder = holder) :
    Changes metaId holder s (s.record e) := by
  refine ⟨List.prefix_append _ _, fun f hf hid => ?_⟩
  rcases List.mem_append.1 hf with hf | hf
  · exact .inl hf
  · obtain rfl := List.mem_singleton.1 hf
    exact .inr (h hid)

end

/-- What work of a recoverer leaves behind. -/
structure Leaves (metaId : StateId) (holder : String) (s : Store) (p : Recoverer × Site) :
    Prop where
  plain : p.2.Plain Fault.Honest
  guarded : p.2.store.log.Guarded metaId
  changes : Changes metaId holder s p.2.store
  watches : p.1.Watches metaId holder p.2.store.log

theorem Leaves.after {metaId : StateId} {holder : String} {s s' : Store} {p : Recoverer × Site}
    (hp : Leaves metaId holder s' p) (hchanges : Changes metaId holder s s') :
    Leaves metaId holder s p :=
  ⟨hp.plain, hp.guarded, hchanges.trans hp.changes, hp.watches⟩

open Effect

section

variable {metaId : StateId} {holder : String} {r : Recoverer} {site : Site}

/-! ### Reading on -/

theorem mem_page {l : Log} (hl : l.Sound) {q : StateQuery} (hsince : 0 ≤ q.sinceRev)
    (hall : ∀ e : State × Nat, (q.accepts e.1 && (!q.latestOnly || l.isLatest e)) = true) {k : Nat}
    {e : State} (he : (l.page q).items[k]? = some e) :
    e ∈ l.entries ∧ e.rev = q.sinceRev + k + 1 := by
  have hfound : (l.entries.zipIdx.drop (l.startOf q.sinceRev)).filter (fun e =>
      q.accepts e.1 && (!q.latestOnly || l.isLatest e)) =
        l.entries.zipIdx.drop q.sinceRev.toNat := by
    rw [List.filter_eq_self.2 fun x _ => hall x, Log.startOf, if_neg (by omega)]
  rw [Log.page_eq_ofList, hfound, Page.items_ofList, List.map_drop, List.zipIdx_map_fst,
    List.getElem?_take] at he
  split at he
  · rw [List.getElem?_drop] at he
    have hrev := hl.numbered _ e he
    exact ⟨List.mem_of_getElem? he, by omega⟩
  · cases he

variable {c : RecovererSettings} (hc : ¬ c.maxRetryAfter < c.minRetryAfter)

include hc

theorem leads_readOn (fuel : Nat) (h : site.Plain Fault.Honest) (hl : site.store.log.Sound)
    (hr : r.Watches metaId holder site.store.log) (ha : r.lease.active = true) :
    Leads (readOn c fuel) (r, site) fun _ p =>
      p.2.Plain Fault.Honest ∧ p.2.store = site.store ∧
        p.1.Watches metaId holder site.store.log := by
  induction fuel generalizing r site with
  | zero => exact ⟨h, rfl, hr⟩
  | succ fuel ih =>
    unfold readOn
    simp only [leads_bind, Work.leads_own]
    split
    · exact ⟨h, rfl, hr⟩
    · simp only [leads_bind]
      refine Work.leads_listStates h ?_ ?_
      · exact fun g fault hg => ⟨h.after _ hg, rfl, hr⟩
      · intro g hg
        have hlow := (hr.attends ha).low
        obtain ⟨hwatches, hlease⟩ := watches_takeEntries hc hl hr ha
          (site.store.log.page { StateQuery.since r.sinceRev with limit := c.batchLimit }).items
          fun k e he => mem_page hl (Int.le_trans hlow.1 hlow.2) (fun _ => rfl) he
        simp only [Work.leads_change]
        split
        next hmore =>
          have hkept := hlease (by simp_all)
          exact ih (h.after _ hg) hl hwatches (by rw [hkept]; exact ha)
        next => exact ⟨h.after _ hg, rfl, hwatches⟩

theorem leads_scanHead (h : site.Plain Fault.Honest) (hg : site.store.log.Guarded metaId)
    (hr : r.Watches metaId holder site.store.log) :
    Leads (scanHead c) (r, site) fun _ p => Leaves metaId holder site.store p := by
  unfold scanHead
  simp only [leads_bind, Work.leads_own]
  split
  next ha =>
    simp only [leads_bind, leads_get]
    refine (leads_readOn hc _ h hg.sound hr ha).mono fun _ p hp => ?_
    obtain ⟨hplain, hstore, hwatches⟩ := hp
    rw [← hstore] at hwatches hg ⊢
    exact ⟨hplain, hg, changes_refl _, hwatches⟩
  next => exact ⟨h, hg, changes_refl _, hr⟩

/-! ### Trying again -/

omit hc in
theorem leads_retryAll {list : List (StateId × Stuck)} (h : site.Plain Fault.Honest)
    (hg : site.store.log.Guarded metaId) (hl : Lease.Fits metaId holder r.lease site.store.log)
    (hr : r.Attends metaId holder site.store.log) (hnodup : (list.map Prod.fst).Nodup)
    (hlist : ∀ entry ∈ list, r.tracked.get? entry.1 = some entry.2) :
    Leads (retryAll c list) (r, site) fun _ p => Leaves metaId holder site.store p := by
  induction list generalizing r site with
  | nil => exact ⟨h, hg, changes_refl _, hl, fun _ => hr⟩
  | cons entry rest ih =>
    obtain ⟨id, stuck⟩ := entry
    have hget := hlist _ List.mem_cons_self
    obtain ⟨hmem, hid, hother, -⟩ := hr.tracked id stuck hget
    obtain ⟨hnotin, hnodup⟩ := List.nodup_cons.1 hnodup
    have hrest {next : Recoverer}
        (hsame : ∀ id', id' ≠ id → next.tracked.get? id' = r.tracked.get? id') :
        ∀ entry ∈ rest, next.tracked.get? entry.1 = some entry.2 := by
      intro entry hentry
      have hne : entry.1 ≠ id := fun heq => hnotin (List.mem_map.2 ⟨entry, hentry, heq⟩)
      rw [hsame _ hne]
      exact hlist entry (List.mem_cons_of_mem _ hentry)
    have herased : ∀ id', id' ≠ id → (r.tracked.erase id).get? id' = r.tracked.get? id' :=
      fun id' hne => SortedMap.get?_erase_of_ne _ hne
    unfold retryAll
    simp only [leads_bind, leads_tryCatch, Work.leads_change]
    refine leads_retry h (hg.sound.rev_of_mem hmem).1 ?_ ?_ ?_
    · rintro ⟨next, site'⟩ ⟨hplain, -, hstore, -, hframe, -⟩
      simp only at hplain hstore hframe
      have hnext := site.store.log.next_tried site.now c.maxAttempts stuck.state
      rw [hid] at hnext
      generalize Store.entryOf site.store.log site.now (stuck.state.tried c.maxAttempts) = e
        at hstore hnext
      have hlease : next.lease = r.lease := by rw [hframe]
      have hsince : next.sinceRev = r.sinceRev := by rw [hframe]
      have htracked : next.tracked = r.tracked.erase id := by rw [hframe]
      have hguarded : site'.store.log.Guarded metaId := by
        rw [hstore]
        exact hg.append_other hnext hother
      have hfits : Lease.Fits metaId holder next.lease site'.store.log := by
        rw [hstore, hlease]
        exact hl.mono (List.prefix_append _ _)
      have hattends : next.Attends metaId holder site'.store.log := by
        rw [hstore]
        exact (hr.retried hg.sound hnext hother).congr hlease hsince fun _ => by rw [htracked]
      have hchanges : Changes metaId holder site.store site'.store := by
        rw [hstore]
        exact changes_record fun heq => absurd (hnext.id_eq.symm.trans heq) hother
      have htail := hrest fun id' hne => by
        rw [htracked]
        exact herased id' hne
      exact (ih hplain hguarded hfits hattends hnodup htail).mono fun _ p hp => hp.after hchanges
    · rintro g hgate (hne | ⟨fault, hhonest, hconflict⟩)
      · have hdropped := hr.drop_advanced hget (hid ▸ hne)
        exact ih (h.after _ hgate) hg hl hdropped hnodup (hrest herased)
      · exact absurd hconflict (by simp [hhonest rfl])
    · intro g fault hgate
      simp only [Work.leads_change]
      have hback := SortedMap.get?_insert_erase hget
      have hsame : Attends metaId holder
          { r with tracked := (r.tracked.erase id).insert id stuck } site.store.log :=
        hr.congr rfl rfl hback
      exact ih (h.after _ hgate) hg hl hsame hnodup (hrest fun id' _ => hback id')

/-! ### Storing the watermark -/

omit hc in
theorem leaves_record {l' : Lease} {notes : Notes} {named : String} {e : State} {g : Gate}
    (h : site.Plain Fault.Honest) (hgate : g.Allows Fault.Honest) (next : Recoverer)
    (hwrote : Lease.Wrote metaId holder site.store.log site.now
      (notes.insert Mark.leaseHolder named) l' e)
    (hguarded : (site.store.log.append e).Guarded metaId) (hnamed : named = "" ∨ named = holder)
    (hlease : next.lease = l')
    (hattends : l'.active = true → next.Attends metaId holder (site.store.log.append e)) :
    Leaves metaId holder site.store (next, site.after (site.store.record e) g) := by
  refine ⟨h.after _ hgate, hguarded, changes_record fun _ => ?_, ?_, fun ha => ?_⟩
  · rw [Lease.holder_of_notes hwrote.next.notes_eq]
    exact hnamed
  · rw [hlease]
    exact hwrote.fits
  · rw [hlease] at ha
    exact hattends ha

section

omit hc

variable (h : site.Plain Fault.Honest) (hg : site.store.log.Guarded metaId)

include h hg

theorem leaves_idle (next : Recoverer) {g : Gate} (hgate : g.Allows Fault.Honest)
    (hfits : Lease.Fits metaId holder next.lease site.store.log)
    (hidle : next.lease.active = false) :
    Leaves metaId holder site.store (next, site.after site.store g) :=
  ⟨h.after _ hgate, hg, changes_refl _, hfits, fun ha => absurd (hidle.symm.trans ha) (by simp)⟩

variable (hr : r.Watches metaId holder site.store.log)

include hr

theorem leads_storeWatermark (now : Instant) :
    Leads (storeWatermark c now) (r, site) fun _ p => Leaves metaId holder site.store p := by
  have hsame (g : Gate) (hgate : g.Allows Fault.Honest) :
      Leaves metaId holder site.store (r, site.after site.store g) :=
    ⟨h.after _ hgate, hg, changes_refl _, hr⟩
  unfold storeWatermark
  simp only [leads_bind, Work.leads_own]
  split
  · simp only [leads_bind, onLease, Work.leads_within]
    refine Lease.leads_confirm h hg.sound hr.lease (noting r.watermark) ?_ ?_ ?_ ?_
    · intro hidle
      simp only [Bool.not_false, if_true, Work.leads_change]
      exact leaves_idle h hg _ (g := site.repository.gate) h.gate hr.lease hidle
    · exact fun _ g _ hgate => hsame g hgate
    · intro _ g l' outcome hgate hl' hidle hne
      match outcome, hne with
      | .ok true, hne => exact absurd rfl hne
      | .ok false, _ => exact leaves_idle h hg (reset { r with lease := l' }) hgate hl' hidle
      | .error _, _ => exact leaves_idle h hg { r with lease := l' } hgate hl' hidle
    · intro ha g l' e hgate hlast hwrote
      have hattends := hr.attends ha
      refine leaves_record h hgate { r with lease := l' } hwrote
        (guarded_noted hg hattends hlast hwrote.next).1 (.inr rfl) rfl fun _ => ?_
      exact attends_noted hg hattends hlast hwrote.next hwrote.known rfl rfl
  · exact hsame site.repository.gate h.gate

theorem leads_scanTail (stale : Span) :
    Leads (scanTail c stale) (r, site) fun _ p => Leaves metaId holder site.store p := by
  unfold scanTail
  simp only [leads_bind, Work.leads_own]
  split
  next ha =>
    simp only [leads_bind, Work.leads_now]
    refine (leads_retryAll h hg hr.lease (hr.attends ha) ?_ ?_).mono fun outcome p hp => ?_
    · exact (r.tracked.nodup_keys).sublist (List.filter_sublist.map Prod.fst)
    · exact fun entry hentry => (r.tracked.get?_eq_some_iff).2 (List.mem_filter.1 hentry).1
    · cases outcome with
      | error fault => exact hp
      | ok _ =>
        exact (leads_storeWatermark hp.plain hp.guarded hp.watches site.now).mono
          fun _ _ hp' => hp'.after hp.changes
  next hidle =>
    have hidle := Bool.eq_false_iff.2 hidle
    simp only [leads_bind, onLease, Work.leads_within]
    refine Lease.leads_refresh h hg.sound hr.lease ?_ ?_
    · exact fun g fault hgate => leaves_idle h hg r hgate hr.lease hidle
    · intro g l' hgate hl' hsame
      have hidle' : l'.active = false := Bool.eq_false_iff.2 fun ha' =>
        absurd (hidle.symm.trans (hsame ha')) (by simp)
      refine Lease.leads_takeOver (h.after _ hgate) hg.sound hl' ?_ ?_ ?_
      · exact fun ha' => absurd (hidle'.symm.trans ha') (by simp)
      · intro _ g' l'' outcome hgate' hl'' hidle'' hne
        match outcome, hne with
        | .ok true, hne => exact absurd rfl hne
        | .ok false, _ => exact leaves_idle h hg { r with lease := l'' } hgate' hl'' hidle''
        | .error _, _ => exact leaves_idle h hg { r with lease := l'' } hgate' hl'' hidle''
      · intro _ g' l'' last e hgate' hlast _ hwrote _
        have hguarded := guarded_taken hg hlast hwrote.next
        refine leaves_record h hgate' (reset { r with lease := l'' }) hwrote hguarded
          (.inr rfl) rfl fun _ => attends_reset hguarded ?_
        exact hwrote.latest?_eq_known hg.sound

theorem leads_stop : Leads stop (r, site) fun _ p => Leaves metaId holder site.store p := by
  unfold stop
  simp only [leads_bind, Work.leads_own, leads_tryCatch, onLease, Work.leads_within]
  refine Lease.leads_release h hg.sound hr.lease (noting r.watermark) ?_ ?_ ?_
  · exact fun hidle => leaves_idle h hg _ (g := site.repository.gate) h.gate hr.lease hidle
  · intro _ g l' outcome hgate hl' hidle
    cases outcome with
    | ok _ => exact leaves_idle h hg { r with lease := l', tracked := ∅ } hgate hl' hidle
    | error _ => exact leaves_idle h hg { r with lease := l', tracked := ∅ } hgate hl' hidle
  · intro ha g l' e hgate hlast hwrote hidle
    refine leaves_record h hgate { r with lease := l', tracked := ∅ } hwrote
      (guarded_noted hg (hr.attends ha) hlast hwrote.next).1 (.inl rfl) rfl fun ha' => ?_
    exact absurd (hidle.symm.trans ha') (by simp)

end

omit hc in
theorem leads_start (h : site.Plain Fault.Honest) (hg : site.store.log.Guarded c.metaId)
    (stale : Span) :
    Leads (start stale) (Recoverer.new c, site) fun outcome p =>
      p.2.store.log.Guarded c.metaId ∧ Changes c.metaId c.holder site.store p.2.store ∧
        (outcome = .ok () → p.1.Watches c.metaId c.holder p.2.store.log) := by
  unfold start
  simp only [leads_bind, onLease, Work.leads_within]
  have hdone {next : Recoverer} {s : Store} {g : Gate}
      (hleaves : Leaves c.metaId c.holder site.store (next, site.after s g)) :
      s.log.Guarded c.metaId ∧ Changes c.metaId c.holder site.store s ∧
        (Except.ok (ε := Fault) () = .ok () → next.Watches c.metaId c.holder s.log) :=
    ⟨hleaves.guarded, hleaves.changes, fun _ => hleaves.watches⟩
  refine Lease.leads_acquire h hg.sound (noting 0) ?_ ?_ ?_ ?_
  · exact fun g l' fault _ => ⟨hg, changes_refl _, nofun⟩
  · intro g l' hgate hl' hidle
    exact hdone (leaves_idle h hg (reset { Recoverer.new c with lease := l' }) hgate hl' hidle)
  · intro g l' e hgate hnone hwrote _
    have hguarded := guarded_first hg hnone hwrote.next
    refine hdone (leaves_record h hgate (reset { Recoverer.new c with lease := l' }) hwrote
      hguarded (.inr rfl) rfl fun _ => attends_reset hguarded ?_)
    exact hwrote.latest?_eq_known hg.sound
  · intro g l' last e hgate hlast _ hwrote _
    have hguarded := guarded_taken hg hlast hwrote.next
    refine hdone (leaves_record h hgate (reset { Recoverer.new c with lease := l' }) hwrote
      hguarded (.inr rfl) rfl fun _ => attends_reset hguarded ?_)
    exact hwrote.latest?_eq_known hg.sound

end

/-! ### Groups of recoverers -/

/-- What a recoverer does in a turn. -/
inductive Op where
  | scanHead
  | scanTail
  | stop

variable {ι : Type}

def role (c : ι → RecovererSettings) : Role ι Recoverer Op where
  start i :=
    match (c i).validate, (c i).staleAfter? with
    | .ok _, some stale => some (.new (c i), start stale)
    | _, _ => none
  work i
    | .scanHead => scanHead (c i)
    | .scanTail =>
      match (c i).staleAfter? with
      | some stale => scanTail (c i) stale
      | none => pure ()
    | .stop => stop

section

variable {c : ι → RecovererSettings} {metaId : StateId} {i : ι} {m : Moment} {s : Store}
  (hmeta : ∀ i, (c i).metaId = metaId) (hm : m.gate.Allows Fault.Honest)
  (hs : s.log.Guarded metaId)

include hmeta hm hs

theorem leads_begin {own : Recoverer} {x : Work Recoverer Unit}
    (hx : (role c).start i = some (own, x)) :
    Leads x (own, m.site s) fun outcome p =>
      p.2.store.log.Guarded metaId ∧ Changes metaId (c i).holder s p.2.store ∧
        (outcome = .ok () → ¬ (c i).maxRetryAfter < (c i).minRetryAfter ∧
          p.1.Watches metaId (c i).holder p.2.store.log) := by
  obtain rfl := hmeta i
  simp only [role] at hx
  split at hx
  next hvalid _ =>
    cases hx
    refine (leads_start (Moment.plain hm s) hs _).mono fun outcome p hp => ?_
    obtain ⟨hguarded, hchanges, hwatches⟩ := hp
    have hbounds := (RecovererSettings.validate_eq_ok_iff.1 hvalid).2.1
    exact ⟨hguarded, hchanges, fun hok => ⟨hbounds, hwatches hok⟩⟩
  next => cases hx

omit hmeta in
theorem leads_work (hc : ¬ (c i).maxRetryAfter < (c i).minRetryAfter) {r : Recoverer}
    (hr : r.Watches metaId (c i).holder s.log) (op : Op) :
    Leads ((role c).work i op) (r, m.site s) fun _ p => Leaves metaId (c i).holder s p := by
  have hplain : (m.site s).Plain Fault.Honest := Moment.plain hm s
  cases op with
  | scanHead => exact leads_scanHead hc hplain hs hr
  | scanTail =>
    simp only [role]
    split
    · exact leads_scanTail hplain hs hr _
    · exact ⟨hplain, hs, changes_refl s, hr⟩
  | stop => exact leads_stop hplain hs hr

end

open Workflow.Group

variable [DecidableEq ι] {c : ι → RecovererSettings} {metaId : StateId}

/-- The log is guarded, and every recoverer that is there watches it. -/
def Guards (c : ι → RecovererSettings) (metaId : StateId) (g : Group ι Recoverer) : Prop :=
  Holds (fun s => s.log.Guarded metaId) (fun i r s =>
    ¬ (c i).maxRetryAfter < (c i).minRetryAfter ∧ r.Watches metaId (c i).holder s.log) g

section

variable (hmeta : ∀ i, (c i).metaId = metaId)
  (hdistinct : Function.Injective fun i => (c i).holder) (hnamed : ∀ i, (c i).holder ≠ "")

include hmeta hdistinct hnamed

theorem Guards.step {g : Group ι Recoverer} (h : Guards c metaId g) {t : Turn ι Op}
    (hspared : t.Spares metaId) (hhonest : t.Allows Fault.Honest) :
    Guards c metaId (g.step (role c) t) := by
  refine (Holds.step h (fun j => Changes metaId (j.elim "" fun i => (c i).holder))
    (fun s => changes_refl s) ?_ id ?_ ?_ ?_).1
  · intro i j r s s' hji hr hs hs' hchange
    refine ⟨hr.1, hr.2.mono hs.sound hs'.sound hchange.1 fun e he hid => ?_⟩
    rcases hchange.2 e he hid with hold | hnone | hother
    · exact .inl hold
    · exact .inr fun heq => hnamed i (heq.symm.trans hnone)
    · refine .inr fun heq => ?_
      cases j with
      | none => exact hnamed i (heq.symm.trans hother)
      | some j => exact hji (congrArg some (hdistinct (hother.symm.trans heq)))
  · rintro i m own x rfl hx hs
    exact leads_begin hmeta hhonest hs hx
  · rintro i op m r rfl - hs hr
    refine (leads_work hhonest hs hr.1 hr.2 op).mono fun _ p hp => ?_
    exact ⟨hp.guarded, hp.changes, hr.1, hp.watches⟩
  · rintro request rfl hs
    have hpre : g.store.log.entries <+: (g.store.serve request).log.entries :=
      Store.prefix_serve _ request
    have hsame := Store.Request.Spares.of_serve hspared hs.sound
    refine ⟨hs.mono hpre (Store.sound_serve hs.sound request) hsame, hpre, fun e he hid => .inl ?_⟩
    exact (Log.mem_of_iff.1 (hsame ▸ Log.mem_of_iff.2 ⟨he, hid⟩)).1

/-- In every run the stored watermark lies before every state that is stuck, so that whoever takes
over comes across it, and it never decreases as long as a word can hold the revisions. -/
theorem recovery_loses_no_work {turns : List (Turn ι Op)} (hspared : ∀ t ∈ turns, t.Spares metaId)
    (hhonest : ∀ t ∈ turns, t.Allows Fault.Honest) :
    let log := (run (role c) turns).store.log
    (∀ last e, log.latest? metaId = some last → log.Unresolved metaId e →
      last.recoveryMark < e.rev) ∧
    (log.of metaId).Pairwise fun a b =>
      b.rev ≤ Int64.maxValue.toInt → a.recoveryMark ≤ b.recoveryMark := by
  have hguards : Guards c metaId (run (role c) (turns.take turns.length)) := by
    refine run_induction (P := fun _ g => Guards c metaId g)
      (holds_empty (Log.guarded_empty metaId)) ?_ turns.length (Nat.le_refl _)
    intro k t hat h
    have ht := List.mem_of_getElem? hat
    exact h.step hmeta hdistinct hnamed (hspared t ht) (hhonest t ht)
  rw [List.take_length] at hguards
  exact ⟨hguards.store.covers, hguards.store.rising⟩

end

/-- A state whose retry failed once is stuck again after the next one, ahead of the watermark that
is stored then. -/
theorem recovery_loses_no_work_of_retry :
    let moment (n : Nat) (g : Gate) : Moment := ⟨Instant.epoch + Span.ofSecs n, true, g⟩
    let c (second : Bool) : RecovererSettings :=
      { metaId := ⟨"m"⟩, holder := if second then "b" else "a" }
    let work : Draft := .ofState { (default : State) with id := ⟨"w"⟩ }
    let turns : List (Turn Bool Op) :=
      [.start false (moment 0 .free), .start true (moment 1 .free),
        .call (.commit (moment 2 .free).now [.keep work]), .work false .scanHead (moment 10 .free),
        .work false .scanTail (moment 130 (Gate.free.plan .commit [some (.storage "full")])),
        .work false .scanTail (moment 200 .free)]
    (∀ i, (c i).metaId = ⟨"m"⟩) ∧ (Function.Injective fun i => (c i).holder) ∧
      (∀ i, (c i).holder ≠ "") ∧ (∀ t ∈ turns, t.Spares ⟨"m"⟩) ∧
      (∀ t ∈ turns, t.Allows Fault.Honest) ∧
      ∃ last e, (run (role c) turns).store.log.latest? ⟨"m"⟩ = some last ∧
        (run (role c) turns).store.log.Unresolved ⟨"m"⟩ e ∧ last.recoveryMark = 2 ∧
          last.recoveryMark < e.rev := by
  intro moment c work turns
  have hmeta : ∀ i, (c i).metaId = ⟨"m"⟩ := fun _ => rfl
  have hdistinct : Function.Injective fun i => (c i).holder := by
    intro i j h
    cases i <;> cases j <;> first | rfl | exact absurd h (by decide)
  have hnamed : ∀ i, (c i).holder ≠ "" := by decide
  have hspared : ∀ t ∈ turns, t.Spares ⟨"m"⟩ := by
    simp only [turns, List.forall_mem_cons]
    exact ⟨trivial, trivial, by unfold Turn.Spares Store.Request.Spares; decide, trivial, trivial,
      trivial, List.forall_mem_nil _⟩
  have hhonest : ∀ t ∈ turns, t.Allows Fault.Honest := by
    have hfree : Gate.free.Allows Fault.Honest := nofun
    have hfull : (Gate.free.plan .commit [some (.storage "full")]).Allows Fault.Honest := by
      refine hfree.plan fun fault hmem => ?_
      obtain rfl : fault = .storage "full" := by simpa using hmem
      exact fun _ => rfl
    simp only [turns, List.forall_mem_cons]
    exact ⟨hfree, hfree, trivial, hfree, hfull, hfree, List.forall_mem_nil _⟩
  have hlast : ((run (role c) turns).store.log.latest? ⟨"m"⟩).map State.recoveryMark = some 2 := by
    decide +kernel
  have hstuck : ((run (role c) turns).store.log.latest? ⟨"w"⟩).map (fun e =>
      (e.id, e.recoverable, e.isEnded || e.isPaused)) = some (⟨"w"⟩, true, false) := by
    decide +kernel
  obtain ⟨last, hlast, hmark⟩ := Option.map_eq_some_iff.1 hlast
  obtain ⟨e, he, hfacts⟩ := Option.map_eq_some_iff.1 hstuck
  obtain ⟨hid, hrecoverable, hrunning⟩ : e.id = ⟨"w"⟩ ∧ e.recoverable = true ∧
      (e.isEnded || e.isPaused) = false := by simpa using hfacts
  have hunresolved : (run (role c) turns).store.log.Unresolved ⟨"m"⟩ e :=
    ⟨by rw [hid, he], by rw [hid]; decide, hrecoverable, hrunning⟩
  have hbefore := (recovery_loses_no_work hmeta hdistinct hnamed hspared hhonest).1 last e hlast
    hunresolved
  exact ⟨hmeta, hdistinct, hnamed, hspared, hhonest, last, e, hlast, hunresolved, hmark, hbefore⟩

end Recoverer

end Workflow
