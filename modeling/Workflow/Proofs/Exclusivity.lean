import Workflow.Proofs.Group
import Workflow.Proofs.Lease

/-!
# A lease is exclusive

Components of different names share a meta state that nobody else commits. Each decides on the entry
that it knows, which may be old. Still no entry names a component that did not add it, and no
component takes the lease from a holder that confirmed it recently.
-/

set_option autoImplicit false

namespace Workflow

namespace Lease

/-- What a component of a lease does in a turn. -/
inductive Op where
  | refresh
  | takeOver
  | confirm (change : Draft.Change)
  /-- Takes note of the entry at a position of the log. -/
  | observe (p : Nat)
  | release (change : Draft.Change)

/-- A component of a lease: its name, the silence of another holder after which it takes the lease,
and what it notes in a new meta state. -/
structure Party where
  holder : String
  stale : Span
  prepare : Draft.Change

variable {ι : Type}

def role (metaId : StateId) (party : ι → Party) : Role ι Lease Op where
  start i := some (.new metaId (party i).holder, acquire (party i).stale (party i).prepare.apply)
  work i
    | .refresh => refresh
    | .takeOver => discard (takeOver (party i).stale)
    | .confirm change => discard (confirm change.apply)
    | .observe p => do
      match (← get).2.repository.store.log.entries[p]? with
      | some e => Work.change fun l => (l.observe e).1
      | none => pure ()
    | .release change => release change.apply

/-- In the turn a component may take the lease. -/
def Takes (t : Turn ι Op) (i : ι) (m : Moment) : Prop := t = .start i m ∨ t = .work i .takeOver m

theorem Takes.actor?_eq {t : Turn ι Op} {i : ι} {m : Moment} (h : Takes t i m) :
    t.actor? = some i := by
  rcases h with rfl | rfl
  · rfl
  · rfl

/-- The component whose turn it is may add the entry after the last one of the meta state. -/
inductive Entitled (party : ι → Party) (last? : Option State) (e : State) : Turn ι Op → Prop
  | taken {t : Turn ι Op} {i : ι} {m : Moment} (turn : Takes t i m)
      (holder : e.holder = (party i).holder) (time : e.committedAt = some m.now)
      (free : ∀ last, last? = some last → Free (party i).holder (party i).stale m.now last) :
      Entitled party last? e t
  | confirmed {i : ι} {change : Draft.Change} {m : Moment} {last : State}
      (known : last? = some last) (held : last.holder = (party i).holder)
      (holder : e.holder = (party i).holder) :
      Entitled party last? e (.work i (.confirm change) m)
  | released {i : ι} {change : Draft.Change} {m : Moment} {last : State}
      (known : last? = some last) (held : last.holder = (party i).holder) (holder : e.holder = "") :
      Entitled party last? e (.work i (.release change) m)

section

variable {party : ι → Party} {t : Turn ι Op} {e last : State}

theorem Entitled.author {last? : Option State} (h : Entitled party last? e t)
    (hdistinct : Function.Injective fun i => (party i).holder) (hnamed : e.holder ≠ "") :
    ∃ i, t.actor? = some i ∧ ∀ j, (party j).holder = e.holder ↔ j = i := by
  have honly {i : ι} (hi : e.holder = (party i).holder) :
      ∀ j, (party j).holder = e.holder ↔ j = i :=
    fun j => ⟨fun hj => hdistinct (hj.trans hi), fun hj => hj ▸ hi.symm⟩
  cases h with
  | @taken _ i _ turn holder => exact ⟨i, turn.actor?_eq, honly holder⟩
  | @confirmed i _ _ _ _ _ holder => exact ⟨i, rfl, honly holder⟩
  | released _ _ holder => exact absurd holder hnamed

variable (h : Entitled party (some last) e t)

include h

/-- After an entry of another holder comes the release of that holder, or the lease is taken after
its term of silence. -/
theorem Entitled.handover (hne : last.holder ≠ e.holder) (hnamed : last.holder ≠ "") :
    (e.holder = "" ∧ ∃ i change m, t = .work i (.release change) m ∧
      (party i).holder = last.holder) ∨
    ∃ i m since, Takes t i m ∧ (party i).holder = e.holder ∧
      last.committedAt = some since ∧ e.committedAt = some m.now ∧
      since + (party i).stale ≤ m.now := by
  cases h with
  | @taken _ i m turn holder time free =>
    rcases free last rfl with hfree | hown | ⟨since, hsince, hle⟩
    · exact absurd hfree hnamed
    · exact absurd (hown.trans holder.symm) hne
    · exact .inr ⟨i, m, since, turn, holder.symm, hsince, time, hle⟩
  | confirmed known held holder =>
    cases known
    exact absurd (held.trans holder.symm) hne
  | @released i change m _ known held holder =>
    cases known
    exact .inl ⟨holder, i, change, m, rfl, held.symm⟩

theorem Entitled.takes {i : ι} (hi : t.actor? = some i) (hother : last.holder ≠ (party i).holder) :
    ∃ m, Takes t i m := by
  cases h with
  | @taken _ j m turn =>
    obtain rfl : j = i := Option.some.inj (turn.actor?_eq.symm.trans hi)
    exact ⟨m, turn⟩
  | confirmed known held =>
    cases known
    cases hi
    exact absurd held hother
  | released known held =>
    cases known
    cases hi
    exact absurd held hother

end

/-- The meta state stays as it is in a turn, or the component adds an entry that it may add. -/
def Changes (metaId : StateId) (party : ι → Party) (t : Turn ι Op) (s s' : Store) : Prop :=
  s.log.entries <+: s'.log.entries ∧
    (s'.log.of metaId = s.log.of metaId ∨
      ∃ e, s'.log.of metaId = s.log.of metaId ++ [e] ∧
        Entitled party (s.log.latest? metaId) e t)

section

variable {metaId : StateId} {party : ι → Party} {t : Turn ι Op} {s : Store}

theorem changes_refl (s : Store) : Changes metaId party t s s := ⟨List.prefix_rfl, .inl rfl⟩

theorem changes_record {now : Instant} {notes : Notes} {e : State}
    (h : s.log.Next now metaId notes e) (hent : Entitled party (s.log.latest? metaId) e t) :
    Changes metaId party t s (s.record e) := by
  refine ⟨List.prefix_append _ _, .inr ⟨e, ?_, hent⟩⟩
  rw [Store.log_record, Log.of_append, if_pos h.id_eq]

/-! ### One turn -/

/-- What a turn of a component leads to. -/
structure Leaves (metaId : StateId) (party : ι → Party) (t : Turn ι Op) (s : Store)
    (holder : String) (p : Lease × Site) : Prop where
  sound : p.2.store.log.Sound
  changes : Changes metaId party t s p.2.store
  fits : Fits metaId holder p.1 p.2.store.log

variable (hs : s.log.Sound) {holder : String} {l : Lease} (site : Site) (g : Gate)

include hs

theorem leaves_kept (hl : Fits metaId holder l s.log) :
    Leaves metaId party t s holder (l, site.after s g) :=
  ⟨hs, changes_refl s, hl⟩

theorem leaves_written {now : Instant} {notes : Notes} {e : State}
    (h : Wrote metaId holder s.log now notes l e)
    (hent : Entitled party (s.log.latest? metaId) e t) :
    Leaves metaId party t s holder (l, site.after (s.record e) g) :=
  ⟨h.next.sound hs, changes_record h.next hent, h.fits⟩

end

open Effect

section

variable {metaId : StateId} {party : ι → Party} {i : ι} {m : Moment} {s : Store} {l : Lease}
  (hs : s.log.Sound)

theorem entitled_taken {t : Turn ι Op} (ht : Takes t i m) (last? : Option State) {notes : Notes}
    {e : State}
    (h : Wrote metaId (party i).holder s.log m.now
      (notes.insert Mark.leaseHolder (party i).holder) l e)
    (hfree : ∀ last, last? = some last → Free (party i).holder (party i).stale m.now last) :
    Entitled party last? e t :=
  .taken ht (holder_of_notes h.next.notes_eq) h.next.time_eq hfree

include hs

theorem leads_start :
    Leads (acquire (party i).stale (party i).prepare.apply)
      (.new metaId (party i).holder, m.site s) fun outcome p =>
        p.2.store.log.Sound ∧ Changes metaId party (.start i m) s p.2.store ∧
          (outcome = .ok () → Fits metaId (party i).holder p.1 p.2.store.log) := by
  refine leads_acquire (m.plain_site s) hs (party i).prepare ?_ ?_ ?_ ?_
  · exact fun g l' fault _ => ⟨hs, changes_refl s, nofun⟩
  · exact fun g l' _ hl' _ => ⟨hs, changes_refl s, fun _ => hl'⟩
  · intro g l' e _ hnone hwrote _
    have hent := entitled_taken (.inl rfl) (s.log.latest? metaId) hwrote
      fun _ hlast => nomatch hnone.symm.trans hlast
    have hleaves := leaves_written hs (m.site s) g hwrote hent
    exact ⟨hleaves.sound, hleaves.changes, fun _ => hleaves.fits⟩
  · intro g l' last e _ hlast hfree hwrote _
    have hent := entitled_taken (.inl rfl) (s.log.latest? metaId) hwrote
      fun last' hlast' => Option.some.inj (hlast.symm.trans hlast') ▸ hfree
    have hleaves := leaves_written hs (m.site s) g hwrote hent
    exact ⟨hleaves.sound, hleaves.changes, fun _ => hleaves.fits⟩

theorem leads_work (hl : Fits metaId (party i).holder l s.log) (op : Op) :
    Leads ((role metaId party).work i op) (l, m.site s) fun _ p =>
      Leaves metaId party (.work i op m) s (party i).holder p := by
  have hsame : Leaves metaId party (.work i op m) s (party i).holder (l, m.site s) :=
    leaves_kept hs (m.site s) m.gate hl
  cases op with
  | refresh =>
    refine leads_refresh (m.plain_site s) hs hl ?_ ?_
    · exact fun g _ _ => leaves_kept hs _ g hl
    · exact fun g l' _ hl' _ => leaves_kept hs _ g hl'
  | takeOver =>
    change Leads (discard (takeOver (party i).stale)) _ _
    rw [leads_discard]
    refine leads_takeOver (m.plain_site s) hs hl (fun _ => hsame) ?_ ?_
    · exact fun _ g l' _ _ hl' _ _ => leaves_kept hs _ g hl'
    · intro _ g l' last e _ hlast hfree hwrote _
      refine leaves_written hs _ g hwrote
        (entitled_taken (.inr rfl) _ hwrote fun last' hlast' => ?_)
      exact Option.some.inj (hlast.symm.trans hlast') ▸ hfree
  | confirm change =>
    change Leads (discard (confirm change.apply)) _ _
    rw [leads_discard]
    refine leads_confirm (m.plain_site s) hs hl change (fun _ => hsame) ?_ ?_ ?_
    · exact fun _ g _ _ => leaves_kept hs _ g hl
    · exact fun _ g l' _ _ hl' _ _ => leaves_kept hs _ g hl'
    · intro ha g l' e _ hlast hwrote
      exact leaves_written hs _ g hwrote
        (.confirmed hlast (hl.held ha) (holder_of_notes hwrote.next.notes_eq))
  | observe p =>
    change Leads (get >>= fun _ => _) _ _
    simp only [leads_bind, leads_get]
    cases he : (m.site s).repository.store.log.entries[p]? with
    | none => exact hsame
    | some e =>
      have hfits := hl.observe (List.mem_of_getElem? he)
      exact leaves_kept hs (m.site s) m.gate hfits
  | release change =>
    refine leads_release (m.plain_site s) hs hl change (fun _ => hsame) ?_ ?_
    · exact fun _ g l' _ _ hl' _ => leaves_kept hs _ g hl'
    · intro ha g l' e _ hlast hwrote _
      exact leaves_written hs _ g hwrote
        (.released hlast (hl.held ha) (holder_of_notes hwrote.next.notes_eq))

end

/-! ### Runs -/

open Workflow.Group

section

variable [DecidableEq ι] {metaId : StateId} {party : ι → Party} {turns : List (Turn ι Op)}

/-- The entries of the meta state after the first turns of a run. -/
def history (metaId : StateId) (party : ι → Party) (turns : List (Turn ι Op)) (k : Nat) :
    List State :=
  (run (role metaId party) (turns.take k)).store.log.of metaId

/-- The turn of a number adds the entry of a number to the meta state. -/
def AddedBy (metaId : StateId) (party : ι → Party) (turns : List (Turn ι Op)) (n k : Nat) : Prop :=
  (history metaId party turns k).length ≤ n ∧ n < (history metaId party turns (k + 1)).length

/-- All components fit the log, which is sound. -/
def Orderly (metaId : StateId) (party : ι → Party) (g : Group ι Lease) : Prop :=
  Holds (fun s => s.log.Sound) (fun i l s => Fits metaId (party i).holder l s.log) g

theorem Orderly.step {g : Group ι Lease} (h : Orderly metaId party g) {t : Turn ι Op}
    (ht : t.Spares metaId) :
    Orderly metaId party (g.step (role metaId party) t) ∧
      Changes metaId party t g.store (g.step (role metaId party) t).store := by
  refine Holds.step_alike h (Changes metaId party t) (fun s => changes_refl s)
    (fun i l s s' hl _ hchange => hl.mono hchange.1) id ?_ ?_ ?_
  · rintro i m l x rfl hstart hs
    cases hstart
    exact leads_start hs
  · rintro i op m l rfl - hs hl
    refine (leads_work hs hl op).mono fun _ p hleaves => ?_
    exact ⟨hleaves.sound, hleaves.changes, hleaves.fits⟩
  · rintro request rfl hs
    exact ⟨Store.sound_serve hs request, Store.prefix_serve _ request,
      .inl (Store.Request.Spares.of_serve ht hs)⟩

section

variable (party) (hspared : ∀ t ∈ turns, t.Spares metaId)

include hspared

theorem orderly_run {k : Nat} (hk : k ≤ turns.length) :
    Orderly metaId party (run (role metaId party) (turns.take k)) := by
  refine run_induction (P := fun _ g => Orderly metaId party g) (holds_empty Log.sound_empty) ?_
    k hk
  intro k t hat h
  exact (h.step (hspared t (List.mem_of_getElem? hat))).1

theorem changes_turn {k : Nat} {t : Turn ι Op} (hat : turns[k]? = some t) :
    Changes metaId party t (run (role metaId party) (turns.take k)).store
      (run (role metaId party) (turns.take (k + 1))).store := by
  have hlt := (List.getElem?_eq_some_iff.1 hat).1
  rw [run_take_succ hat]
  have horderly := orderly_run party hspared (Nat.le_of_lt hlt)
  exact (horderly.step (hspared t (List.mem_of_getElem? hat))).2

theorem history_prefix {j k : Nat} (hjk : j ≤ k) (hk : k ≤ turns.length) :
    history metaId party turns j <+: history metaId party turns k :=
  Log.prefix_of (log_mono hk (fun _ _ hat => (changes_turn party hspared hat).1) hjk) metaId

variable {party}

omit hspared in
theorem exists_addedBy {n : Nat} (hn : n < (history metaId party turns turns.length).length) :
    ∃ k, k < turns.length ∧ AddedBy metaId party turns n k := by
  unfold history at hn
  rw [List.take_length] at hn
  exact exists_turn (f := fun s => (s.log.of metaId).length) rfl hn

/-- A turn adds one entry at most, and is entitled to it. -/
theorem entitled_of_addedBy {n k : Nat} {t : Turn ι Op} {e : State}
    (hadded : AddedBy metaId party turns n k) (hat : turns[k]? = some t)
    (he : (history metaId party turns turns.length)[n]? = some e) :
    Entitled party ((history metaId party turns turns.length).take n).getLast? e t := by
  have hlt := (List.getElem?_eq_some_iff.1 hat).1
  have hsound := (orderly_run party hspared (Nat.le_of_lt hlt)).store
  obtain ⟨-, hsame | ⟨e', hone, hent⟩⟩ := changes_turn party hspared hat
  · obtain ⟨hbefore, hafter⟩ := hadded
    unfold history at hbefore hafter
    rw [hsame] at hafter
    omega
  · obtain ⟨hbefore, hafter⟩ := hadded
    have hsucc : history metaId party turns (k + 1) = history metaId party turns k ++ [e'] := hone
    -- the turn added this entry alone, so what it was added to is all that precedes it in the end
    have hlen : (history metaId party turns k).length = n := by
      rw [hsucc, List.length_append, List.length_singleton] at hafter
      omega
    obtain ⟨later, hlater⟩ := history_prefix party hspared (Nat.succ_le_of_lt hlt)
      (Nat.le_refl _)
    rw [← hlater, hsucc, List.append_assoc] at he ⊢
    rw [List.getElem?_append_right (by omega), hlen, Nat.sub_self] at he
    obtain rfl : e' = e := Option.some.inj he
    rw [← hlen, List.take_left]
    rw [hsound.latest?_eq_getLast?] at hent
    exact hent

/-- An entry that names a holder was added by the component of that name. An entry after one of
another holder is its release, or a component takes the lease after its term of silence. Only by
taking it can a component add an entry after one that does not name it. -/
theorem lease_is_exclusive (hdistinct : Function.Injective fun i => (party i).holder) :
    let entries := history metaId party turns turns.length
    (∀ n, n < entries.length → ∃ k, k < turns.length ∧ AddedBy metaId party turns n k) ∧
    (∀ n k t e, AddedBy metaId party turns n k → turns[k]? = some t → entries[n]? = some e →
      e.holder ≠ "" → ∃ i, t.actor? = some i ∧ ∀ j, (party j).holder = e.holder ↔ j = i) ∧
    ∀ n k t e₁ e₂, AddedBy metaId party turns (n + 1) k → turns[k]? = some t →
      entries[n]? = some e₁ → entries[n + 1]? = some e₂ →
      (e₁.holder ≠ e₂.holder → e₁.holder ≠ "" →
        (e₂.holder = "" ∧ ∃ i change m, t = .work i (.release change) m ∧
          (party i).holder = e₁.holder) ∨
        ∃ i m since, Takes t i m ∧ (party i).holder = e₂.holder ∧
          e₁.committedAt = some since ∧ e₂.committedAt = some m.now ∧
          since + (party i).stale ≤ m.now) ∧
      ∀ i, t.actor? = some i → e₁.holder ≠ (party i).holder → ∃ m, Takes t i m := by
  intro entries
  refine ⟨fun n hn => exists_addedBy hn, fun n k t e hadded hat he hnamed => ?_,
    fun n k t e₁ e₂ hadded hat he₁ he₂ => ?_⟩
  · exact (entitled_of_addedBy hspared hadded hat he).author hdistinct hnamed
  · have hent := entitled_of_addedBy hspared hadded hat he₂
    have hlast : (entries.take (n + 1)).getLast? = some e₁ := by
      rw [List.getLast?_take, if_neg (Nat.succ_ne_zero n), Nat.add_sub_cancel, he₁]
      rfl
    rw [show history metaId party turns turns.length = entries from rfl, hlast] at hent
    exact ⟨hent.handover, fun i hi hother => hent.takes hi hother⟩

end

end

/-- The second component waits until the first has been silent for ten seconds; then the first has
lost the lease. -/
theorem lease_is_exclusive_of_silence :
    let moment (n : Nat) : Moment := ⟨Instant.epoch + Span.ofSecs n, true, .free⟩
    let party (second : Bool) : Party := ⟨if second then "b" else "a", .ofSecs 10, .unchanged⟩
    let turns : List (Turn Bool Op) :=
      [.start false (moment 0), .start true (moment 5), .work true .takeOver (moment 20),
        .work false (.confirm .unchanged) (moment 21)]
    (Function.Injective fun i => (party i).holder) ∧ (∀ t ∈ turns, t.Spares ⟨"m"⟩) ∧
      AddedBy ⟨"m"⟩ party turns 1 2 ∧
      ∃ e₁ e₂ since, history ⟨"m"⟩ party turns 4 = [e₁, e₂] ∧ e₁.holder = "a" ∧ e₂.holder = "b" ∧
        e₁.committedAt = some since ∧ since + Span.ofSecs 10 ≤ (moment 20).now := by
  intro moment party turns
  have hdistinct : Function.Injective fun i => (party i).holder := by
    intro i j h
    cases i <;> cases j <;> first | rfl | exact absurd h (by decide)
  have hspared : ∀ t ∈ turns, t.Spares ⟨"m"⟩ := by simp [turns, Turn.Spares]
  have hholders : (history ⟨"m"⟩ party turns 4).map State.holder = ["a", "b"] := by
    decide +kernel
  generalize hentries : history ⟨"m"⟩ party turns 4 = entries at hholders
  have hadded : AddedBy ⟨"m"⟩ party turns 1 2 := by
    unfold AddedBy
    decide +kernel
  refine ⟨hdistinct, hspared, hadded, ?_⟩
  obtain ⟨e₁, e₂, rfl⟩ : ∃ e₁ e₂, entries = [e₁, e₂] := by
    rw [← List.length_eq_two, ← List.length_map State.holder, hholders]
    rfl
  obtain ⟨h₁, h₂⟩ : e₁.holder = "a" ∧ e₂.holder = "b" := by simpa using hholders
  have hexclusive := (lease_is_exclusive hspared hdistinct).2.2 0 2 _ e₁ e₂ hadded rfl
    (by rw [show turns.length = 4 from rfl, hentries]; rfl)
    (by rw [show turns.length = 4 from rfl, hentries]; rfl)
  have hne : e₁.holder ≠ e₂.holder := by simp [h₁, h₂]
  have htaken : ∃ since, e₁.committedAt = some since ∧
      since + Span.ofSecs 10 ≤ (moment 20).now := by
    rcases hexclusive.1 hne (by simp [h₁]) with ⟨hreleased, -⟩ | ⟨i, m, since, hturn, -, hrest⟩
    · exact absurd (h₂.symm.trans hreleased) (by decide)
    · rcases hturn with hturn | hturn
      · cases hturn
      · cases hturn
        exact ⟨since, hrest.1, hrest.2.2⟩
  obtain ⟨since, hsince, hle⟩ := htaken
  exact ⟨e₁, e₂, since, rfl, h₁, h₂, hsince, hle⟩

end Lease

end Workflow
