import Workflow.Proofs.Holding

/-!
# A live holder keeps the lease

Recoverers share a meta state and a clock, and no call fails. One that got the lease and scans the
tail often enough keeps it: whatever the others do, and in whatever order turns of the same time
take place, the last entry that the holder added never gets old enough for them. Only where the
clock cannot move on any more does every entry count as old.
-/

set_option autoImplicit false

namespace Workflow

namespace Recoverer

open Effect Workflow.Group

variable {ι : Type}

/-! ### One turn -/

/-- In such a part of its work a holder confirms the lease if it is time. -/
def Part.confirms : Part → Bool
  | whole .scanTail | watermark => true
  | _ => false

/-- Since when a holder holds the lease after such a part: it confirmed it just now, or it holds it
as before, as half of its window had not passed where it would have confirmed it. -/
def Part.Renews (part : Part) (keepalive : Span) (now since since' : Instant) : Prop :=
  since' = now ∨ since' = since ∧ (part.confirms = true → ¬ since + keepalive ≤ now)

theorem Part.renews_of_confirmed {part : Part} {keepalive : Span} {now since since' : Instant}
    (h : since' = now ∨ since' = since ∧ ¬ since + keepalive ≤ now) :
    part.Renews keepalive now since since' :=
  h.imp_right fun hsame => ⟨hsame.1, fun _ => hsame.2⟩

theorem Part.renews_self {part : Part} (h : part.confirms = false) (keepalive : Span)
    (now since : Instant) : part.Renews keepalive now since since :=
  .inr ⟨rfl, fun hyes => absurd (h.symm.trans hyes) Bool.false_ne_true⟩

section

variable {c : ι → RecovererSettings} {i : ι} {m : Moment} {s : Store} (hs : s.log.Sound)
  {r : Recoverer} (hr : r.Tracks (c i) s.log)

include hs hr

theorem Tracks.mem_tracked {entry : StateId × Stuck} (hentry : entry ∈ r.tracked.entries) :
    0 < entry.2.state.rev ∧ entry.2.state.id ≠ (c i).metaId := by
  have hnoted := hr.tracked _ _ (r.tracked.get?_eq_some_iff.2 hentry)
  exact ⟨(hs.rev_of_mem hnoted.mem).1, hnoted.overdue.other⟩

theorem barred_part {stale : Span} (hstale : (c i).staleAfter? = some stale)
    (hbar : Lease.Barred (c i).metaId (c i).holder stale m.now s.log) (part : Part) :
    Leads ((parts c).work i part) (r, m.site s) fun _ p =>
      p.2.store.log.of (c i).metaId = s.log.of (c i).metaId := by
  have hplain := m.plain_site s
  have hof {t : Store} (h : t = s) : t.log.of (c i).metaId = s.log.of (c i).metaId := by rw [h]
  cases part with
  | whole op =>
    cases op with
    | scanHead =>
      simp only [parts, role, scanHead, leads_bind, Work.leads_own]
      split
      · simp only [leads_bind, leads_get]
        exact (avoids_readOn _ hplain hs).mono fun _ _ hp => hp.1.of_eq
      · rfl
    | scanTail =>
      simp only [parts, role, hstale]
      exact barred_scanTail hplain hs hbar hr.lease fun _ => hr.mem_tracked hs
    | stop => exact (barred_stop hplain hs hbar hr.lease).mono fun _ _ hp => hof hp
  | page =>
    simp only [parts, leads_bind, Work.leads_own]
    split
    · exact (avoids_readOn 1 hplain hs).mono fun _ _ hp => hp.1.of_eq
    · rfl
  | states ids =>
    simp only [parts, leads_bind, Work.leads_own]
    split
    · simp only [leads_bind, Work.leads_now]
      exact (avoids_retryTracked hplain hs fun _ => hr.mem_tracked hs).mono
        fun _ _ hp => hp.2.1.of_eq
    · rfl
  | watermark =>
    simp only [parts, leads_bind, Work.leads_own]
    split
    · simp only [leads_bind, Work.leads_now]
      exact (barred_storeWatermark hplain hs hbar hr.lease m.now).mono fun _ _ hp => hof hp
    · rfl

theorem owns_part {stale : Span} (hstale : (c i).staleAfter? = some stale)
    (hid : (c i).metaId.isEmpty = false) (hm : m.gate.Allows fun _ _ => False) {since : Instant}
    (howns : r.lease.Owns (c i).metaId (c i).holder s.log since) {part : Part}
    (hpart : part ≠ .whole .stop) :
    Leads ((parts c).work i part) (r, m.site s) fun _ p => ∃ since',
      p.1.lease.Owns (c i).metaId (c i).holder p.2.store.log since' ∧
        part.Renews (c i).keepalive m.now since since' := by
  have hplain := Moment.plain hm s
  cases part with
  | whole op =>
    cases op with
    | scanHead =>
      simp only [parts, role, scanHead, leads_bind, Work.leads_own, howns.active, if_true,
        leads_get]
      exact (owns_readOn hplain hs howns _).mono fun _ _ hp =>
        ⟨since, hp, Part.renews_self rfl _ _ _⟩
    | scanTail =>
      simp only [parts, role, hstale]
      refine (owns_scanTail hplain hs howns hid stale fun _ => hr.mem_tracked hs).mono
        fun _ _ hp => ?_
      exact hp.imp fun _ hsince => hsince.imp_right Part.renews_of_confirmed
    | stop => exact absurd rfl hpart
  | page =>
    simp only [parts, leads_bind, Work.leads_own, howns.active, if_true]
    exact (owns_readOn hplain hs howns 1).mono fun _ _ hp =>
      ⟨since, hp, Part.renews_self rfl _ _ _⟩
  | states ids =>
    simp only [parts, leads_bind, Work.leads_own, howns.active, if_true, Work.leads_now]
    refine (avoids_retryTracked hplain hs fun _ => hr.mem_tracked hs).mono fun _ p hp => ?_
    obtain ⟨-, havoids, hlease⟩ := hp
    refine ⟨since, ?_, Part.renews_self rfl _ _ _⟩
    rw [hlease]
    exact howns.mono hs havoids.sound havoids.grows havoids.of_eq
  | watermark =>
    simp only [parts, leads_bind, Work.leads_own, howns.active, if_true, Work.leads_now]
    refine (owns_storeWatermark hplain hs howns hid m.now).mono fun _ _ hp => ?_
    exact hp.imp fun _ hsince => hsince.imp_right Part.renews_of_confirmed

theorem owns_of_part (hidle : r.lease.active = false) (part : Part) :
    Leads ((parts c).work i part) (r, m.site s) fun _ p => p.1.lease.active = true →
      p.1.lease.Owns (c i).metaId (c i).holder p.2.store.log m.now := by
  have hplain := m.plain_site s
  have hno {r' : Recoverer} {Q : Prop} (h : r'.lease.active = false) (ha : r'.lease.active = true) :
      Q := by
    rw [h] at ha
    cases ha
  cases part with
  | whole op =>
    cases op with
    | scanHead =>
      simp only [parts, role, scanHead, leads_bind, Work.leads_own, hidle, Bool.false_eq_true,
        if_false]
      exact hno hidle
    | scanTail =>
      simp only [parts, role]
      split
      · exact owns_of_scanTail hplain hs hr.lease hidle _
      · exact hno hidle
    | stop => exact (idle_stop hplain hs hr.lease).mono fun _ _ hp => hno hp
  | page =>
    simp only [parts, leads_bind, Work.leads_own, hidle, Bool.false_eq_true, if_false]
    exact hno hidle
  | states ids =>
    simp only [parts, leads_bind, Work.leads_own, hidle, Bool.false_eq_true, if_false]
    exact hno hidle
  | watermark =>
    simp only [parts, leads_bind, Work.leads_own, hidle, Bool.false_eq_true, if_false]
    exact hno hidle

end

/-! ### Runs -/

variable [DecidableEq ι] {c : ι → RecovererSettings} {turns : List (Turn ι Part)}

/-- How long a holder may be silent before others take the lease. -/
def term (c : RecovererSettings) : Span := ⟨c.failoverWindow.nanos + c.failoverMargin.nanos⟩

/-- A recoverer with such settings starts. -/
structure Usable (c : RecovererSettings) : Prop where
  metaId : c.metaId.isEmpty = false
  stale : c.staleAfter? = some (term c)

omit [DecidableEq ι] in
theorem start_eq_some {i : ι} {own : Recoverer} {x : Work Recoverer Unit}
    (h : (parts c).start i = some (own, x)) :
    Usable (c i) ∧ own = .new (c i) ∧ x = start (term (c i)) := by
  simp only [parts, role] at h
  split at h
  next stale hvalid hstale =>
    cases h
    have hmeta : (c i).metaId.isEmpty = false := by
      unfold RecovererSettings.validate firstInvalid at hvalid
      split at hvalid
      · cases hvalid
      next hid => exact Bool.eq_false_iff.2 hid
    have hterm : term (c i) = stale := by
      simp only [RecovererSettings.staleAfter?, Span.add?] at hstale
      split at hstale
      · exact Option.some.inj hstale
      · cases hstale
    subst hterm
    exact ⟨⟨hmeta, hstale⟩, rfl, rfl⟩
  next => cases h

theorem starts_of_member {k : Nat} (hk : k ≤ turns.length) {i : ι} {r : Recoverer}
    (hi : (run (parts c) (turns.take k)).member i = some r) :
    ∃ begun, (parts c).start i = some begun := by
  let starts (i : ι) : Prop := ∃ begun, (parts c).start i = some begun
  have hholds : Holds (fun _ => True) (fun i _ _ => starts i) (run (parts c) (turns.take k)) := by
    refine run_induction (P := fun _ g => Holds (fun _ => True) (fun i _ _ => starts i) g)
      (holds_empty trivial) (fun k t _ h => ?_) k hk
    refine (h.step_alike (fun _ _ => True) (fun _ => trivial) (fun _ _ _ _ hc _ _ => hc) id
      ?_ ?_ fun _ _ _ => ⟨trivial, trivial⟩).1
    · exact fun i m own x _ hx _ => ⟨trivial, trivial, fun _ => ⟨_, hx⟩⟩
    · exact fun i part m own _ _ _ hc => ⟨trivial, trivial, hc⟩
  exact hholds.member i r hi

/-- The recoverer takes itself for the holder of the lease after some turns. -/
def ActiveAt (c : ι → RecovererSettings) (turns : List (Turn ι Part)) (i : ι) (k : Nat) : Prop :=
  ∃ r, (run (parts c) (turns.take k)).member i = some r ∧ r.lease.active = true

theorem activeAt_iff {i : ι} {k : Nat} : ActiveAt c turns i k ↔
    ((run (parts c) (turns.take k)).member i).any (·.lease.active) = true := by
  unfold ActiveAt
  cases (run (parts c) (turns.take k)).member i with
  | none => simp
  | some r => simp

instance (c : ι → RecovererSettings) (turns : List (Turn ι Part)) (i : ι) (k : Nat) :
    Decidable (ActiveAt c turns i k) :=
  decidable_of_iff _ activeAt_iff.symm

/-- The recoverer gets the lease in its turn. -/
structure Elected (c : ι → RecovererSettings) (turns : List (Turn ι Part)) (i : ι) (k : Nat) :
    Prop where
  turn : ∃ t, turns[k]? = some t ∧ t.actor? = some i ∧ (ActiveAt c turns i k → ∃ m, t = .start i m)
  active : ActiveAt c turns i (k + 1)

/-- The recoverer holds the lease after some turns, since an instant. -/
def OwnsAt (c : ι → RecovererSettings) (turns : List (Turn ι Part)) (i : ι) (k : Nat)
    (since : Instant) : Prop :=
  ∃ r, (run (parts c) (turns.take k)).member i = some r ∧
    r.lease.Owns (c i).metaId (c i).holder (logAt c turns k) since

theorem Elected.ownsAt {i : ι} {k : Nat} (h : Elected c turns i k) :
    ∃ t m, turns[k]? = some t ∧ t.moment? = some m ∧ OwnsAt c turns i (k + 1) m.now := by
  obtain ⟨⟨t, hat, hactor, hnew⟩, r, hr, ha⟩ := h
  have hk := Nat.le_of_lt (List.getElem?_eq_some_iff.1 hat).1
  have hsighted := sighted_run c hk
  unfold OwnsAt logAt
  rw [run_take_succ hat] at hr ⊢
  cases t with
  | start j m =>
    cases hactor
    refine ⟨_, m, hat, rfl, r, hr, ?_⟩
    cases hstart : (parts c).start i with
    | none =>
      have hsame : (run (parts c) (turns.take k)).step (parts c) (.start i m) =
          run (parts c) (turns.take k) := by
        unfold Group.step
        simp only [hstart]
      rw [hsame] at hr
      obtain ⟨begun, hbegun⟩ := starts_of_member hk hr
      cases hstart.symm.trans hbegun
    | some begun =>
      obtain ⟨own, x⟩ := begun
      obtain ⟨-, rfl, rfl⟩ := start_eq_some hstart
      exact step_start (Q := fun r s => r.lease.active = true →
          r.lease.Owns (c i).metaId (c i).holder s.log m.now) hstart
        (owns_of_start (m.plain_site _) hsighted.store _) hr ha
  | work j part m =>
    cases hactor
    refine ⟨_, m, hat, rfl, r, hr, ?_⟩
    have hbefore : (run (parts c) (turns.take k)).member i ≠ none := by
      intro hnone
      unfold Group.step at hr
      simp only [hnone] at hr
      cases hr
    obtain ⟨own, hown⟩ := Option.ne_none_iff_exists'.1 hbefore
    have hidle : own.lease.active = false := by
      by_contra hactive
      obtain ⟨m', hno⟩ := hnew ⟨own, hown, by simpa using hactive⟩
      cases hno
    obtain ⟨next, hnext, howns⟩ := step_work (r := parts c) (Q := fun r s =>
        r.lease.active = true → r.lease.Owns (c i).metaId (c i).holder s.log m.now) hown
      (owns_of_part hsighted.store (hsighted.member i own hown) hidle part)
    cases hr.symm.trans hnext
    exact howns ha
  | call request => cases hactor

/-! ### Turns during which the lease is held -/

theorem of_turn_of_barred {metaId : StateId} (hmeta : ∀ j, (c j).metaId = metaId) {k : Nat}
    {t : Turn ι Part} (hat : turns[k]? = some t) (hspared : t.Spares metaId)
    (hbar : ∀ j m, t.actor? = some j → t.moment? = some m →
      Lease.Barred metaId (c j).holder (term (c j)) m.now (logAt c turns k)) :
    (logAt c turns (k + 1)).of metaId = (logAt c turns k).of metaId := by
  have hk := Nat.le_of_lt (List.getElem?_eq_some_iff.1 hat).1
  have hsighted := sighted_run c hk
  unfold logAt at hbar ⊢
  rw [run_take_succ hat]
  refine store_step (Q := fun s => s.log.of metaId = _) rfl ?_ ?_ ?_
  · rintro j m own x rfl hx
    obtain ⟨-, rfl, rfl⟩ := start_eq_some hx
    have hbar := hbar j m rfl rfl
    rw [← hmeta j] at hbar
    exact (barred_start (m.plain_site _) hsighted.store hbar).mono fun _ p hp =>
      congrArg (fun s => s.log.of metaId) hp
  · rintro j part m own rfl hj
    obtain ⟨begun, hbegun⟩ := starts_of_member hk hj
    have hbar := hbar j m rfl rfl
    obtain rfl := hmeta j
    exact barred_part hsighted.store (hsighted.member j own hj) (start_eq_some hbegun).1.stale hbar
      part
  · rintro request rfl
    exact Store.Request.Spares.of_serve hspared hsighted.store

section

variable {i : ι} {k : Nat} {since : Instant} (h : OwnsAt c turns i k since)

include h

theorem OwnsAt.of_other {t : Turn ι Part} (hat : turns[k]? = some t) (hother : t.actor? ≠ some i)
    (hof : (logAt c turns (k + 1)).of (c i).metaId = (logAt c turns k).of (c i).metaId) :
    OwnsAt c turns i (k + 1) since := by
  obtain ⟨r, hr, howns⟩ := h
  have hlt := (List.getElem?_eq_some_iff.1 hat).1
  refine ⟨r, ?_, howns.mono (sighted_run c (Nat.le_of_lt hlt)).store (sighted_run c hlt).store
    (addsIn_turn c hat).grows hof⟩
  rw [run_take_succ hat, member_step_of_ne hother]
  exact hr

theorem OwnsAt.work {part : Part} {m : Moment} (hat : turns[k]? = some (.work i part m))
    (hpart : part ≠ .whole .stop) (hm : m.gate.Allows fun _ _ => False) :
    ∃ since', OwnsAt c turns i (k + 1) since' ∧
      part.Renews (c i).keepalive m.now since since' := by
  obtain ⟨r, hr, howns⟩ := h
  have hk := Nat.le_of_lt (List.getElem?_eq_some_iff.1 hat).1
  have hsighted := sighted_run c hk
  obtain ⟨begun, hbegun⟩ := starts_of_member hk hr
  have husable := (start_eq_some hbegun).1
  obtain ⟨next, hnext, since', howns', hwhen⟩ := step_work (r := parts c) hr
    (Q := fun r s => ∃ since', r.lease.Owns (c i).metaId (c i).holder s.log since' ∧
      part.Renews (c i).keepalive m.now since since')
    (owns_part hsighted.store (hsighted.member i r hr) husable.stale husable.metaId hm howns hpart)
  rw [← run_take_succ hat] at hnext howns'
  exact ⟨since', ⟨next, hnext, howns'⟩, hwhen⟩

end

/-! ### A holder that keeps the lease -/

/-- Recoverers that share a lease agree on its terms, and each has a name of its own. -/
structure Rivals (c : ι → RecovererSettings) (metaId : StateId) (window margin : Span) : Prop where
  metaId_eq : ∀ j, (c j).metaId = metaId
  distinct : Function.Injective fun j => (c j).holder
  named : ∀ j, (c j).holder ≠ ""
  window_eq : ∀ j, (c j).failoverWindow = window
  margin_eq : ∀ j, (c j).failoverMargin = margin

/-- In the turn the recoverer got the lease, or it confirms it later if it is time. -/
def Checks (turns : List (Turn ι Part)) (i : ι) (first j : Nat) : Prop :=
  j = first ∨ first < j ∧ ∃ part m, turns[j]? = some (.work i part m) ∧ part.confirms = true

/-- Between two turns the recoverer is neither stopped nor started again, and scans the tail at
least once in an interval. -/
structure Tended (turns : List (Turn ι Part)) (elapsed : Nat → Span) (i : ι) (interval : Span)
    (first last : Nat) : Prop where
  runs : ∀ k t, first < k → k < last → turns[k]? = some t → t.actor? = some i →
    ∃ part m, t = .work i part m ∧ part ≠ .whole .stop
  scans : ∀ k, first < k → k < last →
    ∃ j < k, Checks turns i first j ∧ (elapsed k).nanos ≤ (elapsed j).nanos + interval.nanos

/-- The recoverer holds the lease since a turn that, whenever it was time to confirm it, was half a
window ago at most. -/
def Secure (c : ι → RecovererSettings) (turns : List (Turn ι Part)) (start : Instant)
    (elapsed : Nat → Span) (i : ι) (first k : Nat) : Prop :=
  ∃ a, OwnsAt c turns i k (start + elapsed a) ∧ ∀ j < k, Checks turns i first j →
    (elapsed j).nanos ≤ (elapsed a).nanos + (c i).keepalive.nanos

section

variable {metaId : StateId} {window margin : Span} {start : Instant} {elapsed : Nat → Span} {i : ι}
  {first last : Nat} (hrivals : Rivals c metaId window margin)
  (hterm : window.nanos / 2 + (c i).tailInterval.nanos < window.nanos + margin.nanos)
  (hspared : ∀ t ∈ turns, t.Spares metaId) (hsure : ∀ t ∈ turns, t.Allows fun _ _ => False)
  (htimed : Turn.Timed start elapsed turns) (hlast : last ≤ turns.length)
  (hearly : ∀ k, first < k → k < last → start + elapsed k < .latest)
  (htended : Tended turns elapsed i (c i).tailInterval first last)

include hrivals hterm hspared htimed hearly htended

/-- While the holder is secure nobody else adds an entry of the meta state. -/
theorem Secure.of_other {k : Nat} (h : Secure c turns start elapsed i first k) (hfirst : first < k)
    (hk : k < last) {t : Turn ι Part} (hat : turns[k]? = some t) (hother : t.actor? ≠ some i) :
    (logAt c turns (k + 1)).of metaId = (logAt c turns k).of metaId := by
  obtain ⟨a, ⟨r, -, howns⟩, hchecked⟩ := h
  obtain ⟨j, hj, hcheck, hinterval⟩ := htended.scans k hfirst hk
  have hhalf := hchecked j hj hcheck
  refine of_turn_of_barred hrivals.metaId_eq hat (hspared t (List.mem_of_getElem? hat))
    fun other m hactor hm => ?_
  have hne : i ≠ other := fun heq => hother (heq ▸ hactor)
  have hholder : (c i).holder ≠ (c other).holder := fun heq => hne (hrivals.distinct heq)
  rw [← hrivals.metaId_eq i]
  refine howns.bars (hrivals.named i) hholder ?_
  rw [Instant.add_add, htimed.now_eq k t m hat hm, Instant.not_le_iff]
  refine Instant.add_lt_add ?_ (hearly k hfirst hk)
  change (elapsed k).nanos < (elapsed a).nanos + (term (c other)).nanos
  rw [RecovererSettings.keepalive, Span.half, hrivals.window_eq] at hhalf
  rw [term, hrivals.window_eq, hrivals.margin_eq]
  simp only at hhalf ⊢
  omega

include hsure hlast

theorem Secure.step {k : Nat} (h : Secure c turns start elapsed i first k) (hfirst : first < k)
    (hk : k < last) : Secure c turns start elapsed i first (k + 1) := by
  obtain ⟨t, hat⟩ : ∃ t, turns[k]? = some t :=
    ⟨_, List.getElem?_eq_getElem (Nat.lt_of_lt_of_le hk hlast)⟩
  have hother (hno : t.actor? ≠ some i) :=
    h.of_other hrivals hterm hspared htimed hearly htended hfirst hk hat hno
  obtain ⟨a, howns, hchecked⟩ := h
  by_cases hactor : t.actor? = some i
  · obtain ⟨part, m, rfl, hpart⟩ := htended.runs k t hfirst hk hat hactor
    have hnow := htimed.now_eq k _ m hat rfl
    obtain ⟨since', howns', hwhen⟩ := howns.work hat hpart (hsure _ (List.mem_of_getElem? hat))
    rcases hwhen with rfl | ⟨rfl, hcheck⟩
    · refine ⟨k, hnow ▸ howns', fun j hj _ => ?_⟩
      exact Nat.le_add_right_of_le (htimed.mono j k (Nat.le_of_lt_succ hj))
    · refine ⟨a, howns', Nat.forall_lt_succ_right.2 ⟨hchecked, fun hchecks => ?_⟩⟩
      -- had half the window passed by then, the holder would have confirmed the lease
      rcases hchecks with rfl | ⟨-, part', m', hat', hconfirms⟩
      · omega
      · cases hat.symm.trans hat'
        have hrecent := hcheck hconfirms
        rw [Instant.add_add, hnow] at hrecent
        refine Nat.le_of_not_lt fun hlt => hrecent ?_
        exact Instant.add_mono htimed.start_lt (Nat.le_of_lt hlt)
  · have hof := hother hactor
    rw [← hrivals.metaId_eq i] at hof
    refine ⟨a, howns.of_other hat hactor hof,
      Nat.forall_lt_succ_right.2 ⟨hchecked, fun hchecks => ?_⟩⟩
    rcases hchecks with rfl | ⟨-, part, m, hcheck, -⟩
    · omega
    · cases hat.symm.trans hcheck
      exact absurd rfl hactor

theorem secure_of_elected (helected : Elected c turns i first) {k : Nat} (hfirst : first < k)
    (hk : k ≤ last) : Secure c turns start elapsed i first k := by
  induction k with
  | zero => omega
  | succ k ih =>
    by_cases hstart : k = first
    · subst hstart
      obtain ⟨t, m, hat, hm, howns⟩ := helected.ownsAt
      rw [htimed.now_eq k t m hat hm] at howns
      refine ⟨k, howns, fun j hj hchecks => ?_⟩
      rcases hchecks with rfl | ⟨hlt, -⟩
      · omega
      · omega
    · exact (ih (by omega) (by omega)).step hrivals hterm hspared hsure htimed hlast hearly htended
        (by omega) (by omega)

/-- A recoverer that got the lease keeps it as long as it goes on and scans the tail often enough:
nobody else adds an entry of the meta state, at any time before the last instant. -/
theorem live_holder_is_not_deposed (helected : Elected c turns i first) :
    (∀ k, first < k → k ≤ last → ActiveAt c turns i k) ∧
    ∀ k t, first < k → k < last → turns[k]? = some t → t.actor? ≠ some i →
      (logAt c turns (k + 1)).of metaId = (logAt c turns k).of metaId := by
  have hsecure {k : Nat} (hfirst : first < k) (hk : k ≤ last) :
      Secure c turns start elapsed i first k :=
    secure_of_elected hrivals hterm hspared hsure htimed hlast hearly htended helected hfirst hk
  refine ⟨fun k hfirst hk => ?_, fun k t hfirst hk hat hother => ?_⟩
  · obtain ⟨a, ⟨r, hr, howns⟩, -⟩ := hsecure hfirst hk
    exact ⟨r, hr, howns.active⟩
  · exact (hsecure hfirst (Nat.le_of_lt hk)).of_other hrivals hterm hspared htimed hearly htended
      hfirst hk hat hother

end

/-- The holder confirms the lease after 200 and 400 seconds, each time right after the other
recoverer looked whether it is to be had. -/
theorem live_holder_is_not_deposed_of_standby :
    let start := Instant.epoch + Span.ofSecs 1000000000
    let elapsed (k : Nat) := Span.ofSecs (100 * (k / 2))
    let moment (k : Nat) : Moment := ⟨start + elapsed k, true, .free⟩
    let c (second : Bool) : RecovererSettings :=
      { metaId := ⟨"m"⟩, holder := if second then "b" else "a", tailInterval := .ofSecs 200 }
    let turns : List (Turn Bool Part) :=
      [.start false (moment 0), .start true (moment 1), .work true (.whole .scanTail) (moment 2),
        .work false (.whole .scanHead) (moment 3), .work true (.whole .scanTail) (moment 4),
        .work false (.whole .scanTail) (moment 5), .work true (.whole .scanTail) (moment 6),
        .work false (.whole .scanHead) (moment 7), .work true (.whole .scanTail) (moment 8),
        .work false (.whole .scanTail) (moment 9)]
    Rivals c ⟨"m"⟩ (.ofSecs 300) (.ofSecs 60) ∧ Turn.Timed start elapsed turns ∧
      Elected c turns false 0 ∧ Tended turns elapsed false (.ofSecs 200) 0 10 ∧
      ActiveAt c turns false 10 ∧
      (logAt c turns 9).of ⟨"m"⟩ = (logAt c turns 8).of ⟨"m"⟩ ∧
      ((logAt c turns 10).of ⟨"m"⟩).map State.holder = ["a", "a", "a"] := by
  intro start elapsed moment c turns
  have hdistinct : Function.Injective fun j => (c j).holder := by
    intro i j h
    cases i <;> cases j <;> first | rfl | exact absurd h (by decide)
  have hrivals : Rivals c ⟨"m"⟩ (.ofSecs 300) (.ofSecs 60) :=
    ⟨fun _ => rfl, hdistinct, by decide, fun _ => rfl, fun _ => rfl⟩
  have hspared : ∀ t ∈ turns, t.Spares ⟨"m"⟩ := by simp [turns, Turn.Spares]
  have hfree : Gate.free.Allows fun _ _ => False := fun _ _ h => nomatch h
  have hsure : ∀ t ∈ turns, t.Allows fun _ _ => False := by simp [turns, Turn.Allows, moment, hfree]
  have hmono : ∀ j k, j ≤ k → elapsed j ≤ elapsed k := fun j k hjk =>
    Nat.mul_le_mul_right _ (Nat.mul_le_mul_left 100 (Nat.div_le_div_right hjk))
  have htimed : Turn.Timed start elapsed turns :=
    .of_all (by decide +kernel) hmono (by decide +kernel)
  have helected : Elected c turns false 0 :=
    ⟨⟨_, rfl, rfl, fun _ => ⟨_, rfl⟩⟩, by decide +kernel⟩
  have htended : Tended turns elapsed false (.ofSecs 200) 0 10 := by
    constructor
    · intro k t hfirst hk hat hactor
      have hcases : k = 1 ∨ k = 2 ∨ k = 3 ∨ k = 4 ∨ k = 5 ∨ k = 6 ∨ k = 7 ∨ k = 8 ∨ k = 9 := by
        omega
      rcases hcases with rfl | rfl | rfl | rfl | rfl | rfl | rfl | rfl | rfl <;> cases hat <;>
        first | exact ⟨_, _, rfl, by simp⟩ | cases hactor
    · intro k hfirst hk
      have hseconds (j : Nat) (h : 100 * (k / 2) ≤ 100 * (j / 2) + 200) :
          (elapsed k).nanos ≤ (elapsed j).nanos + (Span.ofSecs 200).nanos := by
        simp only [elapsed, Span.ofSecs, ← Nat.add_mul]
        exact Nat.mul_le_mul_right _ h
      by_cases hearly : k ≤ 5
      · exact ⟨0, hfirst, .inl rfl, hseconds 0 (by omega)⟩
      · exact ⟨5, by omega, .inr ⟨by decide, _, _, rfl, rfl⟩, hseconds 5 (by omega)⟩
  have hearly : ∀ k < 10, start + elapsed k < .latest := by decide +kernel
  have hlive := live_holder_is_not_deposed hrivals (by decide +kernel) hspared hsure htimed
    (by decide +kernel) (fun k _ hk => hearly k hk) htended helected
  exact ⟨hrivals, htimed, helected, htended, hlive.1 10 (by decide) (by decide),
    hlive.2 8 _ (by decide) (by decide) rfl (by decide), by decide +kernel⟩

/-- At the last instant the clock cannot move on, and an entry that is just added counts as old. The
second recoverer takes the lease at once from the first one. -/
theorem live_holder_is_deposed_at_end_of_time :
    let m : Moment := ⟨.latest, true, .free⟩
    let c (second : Bool) : RecovererSettings :=
      { metaId := ⟨"m"⟩, holder := if second then "b" else "a" }
    let turns : List (Turn Bool Part) := [.start false m, .start true m]
    Rivals c ⟨"m"⟩ (.ofSecs 300) (.ofSecs 60) ∧
      (Span.ofSecs 300).nanos / 2 + (c false).tailInterval.nanos <
        (Span.ofSecs 300).nanos + (Span.ofSecs 60).nanos ∧
      Elected c turns false 0 ∧ Tended turns (fun _ => .zero) false (c false).tailInterval 0 2 ∧
      ((logAt c turns 1).of ⟨"m"⟩).map State.holder = ["a"] ∧
      ((logAt c turns 2).of ⟨"m"⟩).map State.holder = ["a", "b"] := by
  intro m c turns
  have hdistinct : Function.Injective fun j => (c j).holder := by
    intro i j h
    cases i <;> cases j <;> first | rfl | exact absurd h (by decide)
  have helected : Elected c turns false 0 :=
    ⟨⟨_, rfl, rfl, fun _ => ⟨_, rfl⟩⟩, by decide +kernel⟩
  refine ⟨⟨fun _ => rfl, hdistinct, by decide, fun _ => rfl, fun _ => rfl⟩, by decide +kernel,
    helected, ⟨?_, ?_⟩, by decide +kernel, by decide +kernel⟩
  · intro k t hfirst hk hat hactor
    obtain rfl : k = 1 := by omega
    cases hat
    cases hactor
  · intro k hfirst hk
    exact ⟨0, hfirst, .inl rfl, Nat.zero_le _⟩

end Recoverer

end Workflow
