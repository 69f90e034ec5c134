import Workflow.Proofs.Lease
import Workflow.Proofs.Numeral
import Workflow.Recoverer

/-!
# What a recoverer keeps in sight

The recoverer that holds the lease has every state that is stuck ahead of it in the log, or tracks
it at exactly its last revision. So the watermark that it may store lies before all of them.
-/

set_option autoImplicit false

namespace Workflow

/-- The watermark of recovery in a meta state; `0` if it has none. -/
def State.recoveryMark (s : State) : Int :=
  ((s.annotations.get? Mark.recoverySinceRev).bind fun v => Numeral.int64? v.toList).getD 0

namespace Log

/-- The last entry of a state, other than the meta state, that recovery looks after and that is
neither ended nor paused. -/
structure Unresolved (l : Log) (metaId : StateId) (e : State) : Prop where
  latest : l.latest? e.id = some e
  other : e.id ≠ metaId
  recoverable : e.recoverable = true
  running : (e.isEnded || e.isPaused) = false

/-- The watermark of every meta state lies before it, that of the last one also before every stuck
state, and readable watermarks never decrease. -/
structure Guarded (l : Log) (metaId : StateId) : Prop where
  sound : l.Sound
  behind : ∀ e ∈ l.entries, e.id = metaId → 0 ≤ e.recoveryMark ∧ e.recoveryMark < e.rev
  covers : ∀ last e, l.latest? metaId = some last → l.Unresolved metaId e →
    last.recoveryMark < e.rev
  rising : (l.of metaId).Pairwise fun a b =>
    b.rev ≤ Int64.maxValue.toInt → a.recoveryMark ≤ b.recoveryMark

section

variable {l longer : Log} {metaId : StateId}

theorem head_mono (hpre : l.entries <+: longer.entries) : l.head ≤ longer.head := by
  have hlen := hpre.length_le
  unfold head
  omega

theorem mem_or_head_lt (hpre : l.entries <+: longer.entries) (hlonger : longer.Sound) {e : State}
    (he : e ∈ longer.entries) : e ∈ l.entries ∨ l.head < e.rev := by
  obtain ⟨p, hp⟩ := List.mem_iff_getElem?.1 he
  obtain ⟨added, hadded⟩ := hpre
  by_cases hold : p < l.entries.length
  · rw [← hadded, List.getElem?_append_left hold] at hp
    exact .inl (List.mem_of_getElem? hp)
  · have hrev := hlonger.numbered p e hp
    unfold head
    omega

theorem Unresolved.before (hl : l.Sound) (hlonger : longer.Sound)
    (hpre : l.entries <+: longer.entries) {e : State} (he : longer.Unresolved metaId e) :
    l.Unresolved metaId e ∨ l.head < e.rev := by
  obtain ⟨hmem, -, hmax⟩ := hlonger.latest?_eq_some_iff.1 he.latest
  rcases mem_or_head_lt hpre hlonger hmem with hold | hnew
  · refine .inl ⟨hl.latest?_eq_some_iff.2 ⟨hold, rfl, fun f hf hid => ?_⟩, he.other,
      he.recoverable, he.running⟩
    exact hmax f (hpre.subset hf) hid
  · exact .inr hnew

theorem guarded_empty (metaId : StateId) : empty.Guarded metaId where
  sound := sound_empty
  behind := fun _ he => absurd he List.not_mem_nil
  covers := fun _ _ hlast => nomatch (show none = some _ from hlast)
  rising := List.Pairwise.nil

theorem Guarded.mono (h : l.Guarded metaId) (hpre : l.entries <+: longer.entries)
    (hlonger : longer.Sound) (hsame : longer.of metaId = l.of metaId) :
    longer.Guarded metaId where
  sound := hlonger
  behind := by
    intro e he hid
    have hmem : e ∈ l.of metaId := hsame ▸ mem_of_iff.2 ⟨he, hid⟩
    exact h.behind e (mem_of_iff.1 hmem).1 hid
  covers := by
    intro last e hlast he
    rw [hlonger.latest?_eq_getLast?, hsame, ← h.sound.latest?_eq_getLast?] at hlast
    rcases he.before h.sound hlonger hpre with hold | hnew
    · exact h.covers last e hlast hold
    · obtain ⟨hmem, hid, -⟩ := h.sound.latest?_eq_some_iff.1 hlast
      have hbehind := (h.behind last hmem hid).2
      have hle := (h.sound.rev_of_mem hmem).2
      omega
  rising := by
    rw [hsame]
    exact h.rising

theorem Guarded.append_other (h : l.Guarded metaId) {now : Instant} {id : StateId} {notes : Notes}
    {e : State} (hnext : l.Next now id notes e) (hother : id ≠ metaId) :
    (l.append e).Guarded metaId := by
  refine h.mono (List.prefix_append _ _) (hnext.sound h.sound) ?_
  rw [of_append, hnext.id_eq, if_neg hother]

/-- Another meta state may follow if its watermark lies before all stuck states, and not before the
watermark of the last meta state. -/
theorem Guarded.append (h : l.Guarded metaId) {now : Instant} {notes : Notes} {e : State}
    (hnext : l.Next now metaId notes e) (hlow : 0 ≤ e.recoveryMark)
    (hhead : e.recoveryMark ≤ l.head)
    (hcovers : ∀ x, l.Unresolved metaId x → e.recoveryMark < x.rev)
    (hrising : e.rev ≤ Int64.maxValue.toInt → ∀ last, l.latest? metaId = some last →
      last.recoveryMark ≤ e.recoveryMark) :
    (l.append e).Guarded metaId where
  sound := hnext.sound h.sound
  behind := by
    intro f hf hid
    rcases List.mem_append.1 hf with hf | hf
    · exact h.behind f hf hid
    · obtain rfl := List.mem_singleton.1 hf
      have hrev := hnext.rev_eq
      unfold nextRev at hrev
      omega
  covers := by
    intro last x hlast hx
    rw [hnext.latest?_append h.sound, if_pos rfl] at hlast
    cases hlast
    rcases hx.before h.sound (hnext.sound h.sound) (List.prefix_append _ _) with hold | hnew
    · exact hcovers x hold
    · omega
  rising := by
    rw [of_append, if_pos hnext.id_eq, List.pairwise_append]
    refine ⟨h.rising, List.pairwise_singleton _ _, fun a ha b hb hmax => ?_⟩
    obtain rfl := List.mem_singleton.1 hb
    cases hlast : (l.of metaId).getLast? with
    | none =>
      rw [List.getLast?_eq_none_iff] at hlast
      exact absurd (hlast ▸ ha) List.not_mem_nil
    | some last =>
      -- the watermarks rise up to the last one, which the new one is not below
      have hle := hrising hmax last (by rw [h.sound.latest?_eq_getLast?, hlast])
      obtain ⟨before, hsplit⟩ := List.getLast?_eq_some_iff.1 hlast
      rw [hsplit] at ha
      rcases List.mem_append.1 ha with ha | ha
      · have hpair := hsplit ▸ h.rising
        have hmem : last ∈ l.of metaId := by
          rw [hsplit]
          exact List.mem_append_right _ List.mem_cons_self
        have hrev := (h.sound.rev_of_mem (mem_of_iff.1 hmem).1).2
        have hnew := hnext.rev_eq
        unfold nextRev at hnew
        have hbefore := (List.pairwise_append.1 hpair).2.2 a ha last List.mem_cons_self (by omega)
        omega
      · obtain rfl := List.mem_singleton.1 ha
        exact hle

end

end Log

namespace Recoverer

/-- What holds of a recoverer that takes itself for the holder: no later meta state names it, and
every stuck state lies ahead of it or is tracked at its last revision. -/
structure Attends (metaId : StateId) (holder : String) (r : Recoverer) (l : Log) : Prop where
  sole : ∀ e ∈ l.entries, e.id = metaId → r.lease.known.current.rev < e.rev → e.holder ≠ holder
  low : 0 ≤ r.storedWatermark ∧ r.storedWatermark ≤ r.sinceRev
  read : r.sinceRev ≤ l.head
  tracked : ∀ id stuck, r.tracked.get? id = some stuck → stuck.state ∈ l.entries ∧
    stuck.state.id = id ∧ id ≠ metaId ∧ r.storedWatermark < stuck.state.rev ∧
      stuck.state.rev ≤ r.sinceRev
  reaches : ∀ e, l.Unresolved metaId e →
    r.sinceRev < e.rev ∨ ∃ stuck, r.tracked.get? e.id = some stuck ∧ stuck.state = e

/-- What holds of every recoverer. -/
structure Watches (metaId : StateId) (holder : String) (r : Recoverer) (l : Log) : Prop where
  lease : Lease.Fits metaId holder r.lease l
  attends : r.lease.active = true → r.Attends metaId holder l

/-! ### The watermark -/

theorem least_cons (d n : Int) (rest : List Int) :
    least d (n :: rest) ∈ n :: rest ∧ ∀ x ∈ n :: rest, least d (n :: rest) ≤ x := by
  change rest.foldl min n ∈ n :: rest ∧ ∀ x ∈ n :: rest, rest.foldl min n ≤ x
  induction rest generalizing n with
  | nil => simp
  | cons m rest ih =>
    obtain ⟨hmem, hle⟩ := ih (min n m)
    rw [List.foldl_cons]
    have hmin := hle (min n m) List.mem_cons_self
    refine ⟨?_, fun x hx => ?_⟩
    · rcases List.mem_cons.1 hmem with heq | hmem
      · rw [heq]
        rcases Int.le_total n m with h | h
        · simp [Int.min_eq_left h]
        · simp [Int.min_eq_right h]
      · simp [hmem]
    · rcases List.mem_cons.1 hx with rfl | hx
      · omega
      · rcases List.mem_cons.1 hx with rfl | hx
        · omega
        · exact hle x (List.mem_cons_of_mem _ hx)

section

variable {metaId : StateId} {holder : String} {r : Recoverer} {l : Log}

theorem Attends.watermark (h : r.Attends metaId holder l) :
    (r.storedWatermark ≤ r.watermark ∧ r.watermark ≤ r.sinceRev) ∧
      ∀ id stuck, r.tracked.get? id = some stuck → r.watermark < stuck.state.rev := by
  unfold Recoverer.watermark
  have hlow := h.low
  cases hrevs : r.tracked.values.map (·.state.rev - 1) with
  | nil =>
    refine ⟨⟨hlow.2, Int.le_refl _⟩, fun id stuck hget => ?_⟩
    have hmem := (SortedMap.mem_values_iff r.tracked).2 ⟨id, hget⟩
    rw [List.map_eq_nil_iff] at hrevs
    exact absurd (hrevs ▸ hmem) List.not_mem_nil
  | cons n rest =>
    obtain ⟨hmem, hle⟩ := least_cons r.sinceRev n rest
    rw [← hrevs] at hmem hle
    obtain ⟨stuck, hstuck, heq⟩ := List.mem_map.1 hmem
    obtain ⟨id, hget⟩ := (SortedMap.mem_values_iff r.tracked).1 hstuck
    obtain ⟨-, -, -, hafter, hupto⟩ := h.tracked id stuck hget
    rw [← hrevs]
    refine ⟨by omega, fun id' stuck' hget' => ?_⟩
    have hvalue := (SortedMap.mem_values_iff r.tracked).2 ⟨id', hget'⟩
    have hleast := hle _ (List.mem_map.2 ⟨stuck', hvalue, rfl⟩)
    omega

theorem Attends.watermark_lt (h : r.Attends metaId holder l) {e : State}
    (he : l.Unresolved metaId e) : r.watermark < e.rev := by
  obtain ⟨⟨-, hle⟩, htracked⟩ := h.watermark
  rcases h.reaches e he with hahead | ⟨stuck, hget, rfl⟩
  · omega
  · exact htracked _ stuck hget

/-! ### What others do -/

theorem Attends.mono {longer : Log} (h : r.Attends metaId holder l) (hl : l.Sound)
    (hlonger : longer.Sound) (hpre : l.entries <+: longer.entries)
    (hnew : ∀ e ∈ longer.entries, e.id = metaId → e ∈ l.entries ∨ e.holder ≠ holder) :
    r.Attends metaId holder longer where
  sole := by
    intro e he hid hrev
    rcases hnew e he hid with hold | hother
    · exact h.sole e hold hid hrev
    · exact hother
  low := h.low
  read := Int.le_trans h.read (Log.head_mono hpre)
  tracked := by
    intro id stuck hget
    obtain ⟨hmem, hrest⟩ := h.tracked id stuck hget
    exact ⟨hpre.subset hmem, hrest⟩
  reaches := by
    intro e he
    rcases he.before hl hlonger hpre with hold | hahead
    · exact h.reaches e hold
    · exact .inl (Int.lt_of_le_of_lt h.read hahead)

theorem Watches.mono {longer : Log} (h : r.Watches metaId holder l) (hl : l.Sound)
    (hlonger : longer.Sound) (hpre : l.entries <+: longer.entries)
    (hnew : ∀ e ∈ longer.entries, e.id = metaId → e ∈ l.entries ∨ e.holder ≠ holder) :
    r.Watches metaId holder longer :=
  ⟨h.lease.mono hpre, fun ha => (h.attends ha).mono hl hlonger hpre hnew⟩

theorem attends_reset (h : l.Guarded metaId)
    (hlast : l.latest? metaId = some r.lease.known.current) :
    r.reset.Attends metaId holder l := by
  obtain ⟨hmem, hid, hmax⟩ := h.sound.latest?_eq_some_iff.1 hlast
  have hbehind := h.behind _ hmem hid
  have hrev := (h.sound.rev_of_mem hmem).2
  refine ⟨fun e he heid hlt => ?_, ⟨hbehind.1, Int.le_refl _⟩, ?_, fun id stuck hget => ?_,
    fun e he => .inl (h.covers _ e hlast he)⟩
  · have hle := hmax e he heid
    change r.lease.known.current.rev < e.rev at hlt
    omega
  · change r.lease.known.current.recoveryMark ≤ l.head
    omega
  · cases (show none = some stuck from hget)

/-! ### Storing the watermark -/

/-- Noting a watermark in a meta state. -/
def noting (rev : Int) : Draft.Change := ⟨noteWatermark rev, fun _ => rfl, fun _ => rfl⟩

theorem recoveryMark_taken {e last : State} {named : String}
    (h : e.annotations = last.annotations.insert Mark.leaseHolder named) :
    e.recoveryMark = last.recoveryMark := by
  rw [State.recoveryMark, h, SortedMap.get?_insert_of_ne _ _ (by decide)]
  rfl

theorem recoveryMark_noted {e : State} {d : Draft} {rev : Int} {named : String} (hrev : 0 ≤ rev)
    (h : e.annotations = ((noting rev).apply d).current.annotations.insert Mark.leaseHolder named) :
    e.recoveryMark = if rev ≤ Int64.maxValue.toInt then rev else 0 := by
  have hnoted : ((noting rev).apply d).current.annotations.get? Mark.recoverySinceRev =
      some (toString rev) := SortedMap.get?_insert_self ..
  obtain ⟨n, rfl⟩ := Int.eq_ofNat_of_zero_le hrev
  rw [State.recoveryMark, h, SortedMap.get?_insert_of_ne _ _ (by decide), hnoted, Option.bind_some,
    Numeral.int64?_toString]
  split
  · rfl
  · rfl

section

variable {now : Instant} {notes : Notes} {named : String} {e : State} (hg : l.Guarded metaId)

include hg

theorem guarded_first {d : Draft} (hnone : l.latest? metaId = none)
    (hnext : l.Next now metaId
      (((noting 0).apply d).current.annotations.insert Mark.leaseHolder named) e) :
    (l.append e).Guarded metaId := by
  have hmark : e.recoveryMark = 0 := recoveryMark_noted (Int.le_refl 0) hnext.notes_eq
  refine hg.append hnext (by omega) ?_ (fun x hx => ?_) fun _ last hlast => ?_
  · rw [hmark]
    exact Int.natCast_nonneg _
  · have hpos := (hg.sound.rev_of_mem (hg.sound.latest?_eq_some_iff.1 hx.latest).1).1
    omega
  · cases hnone.symm.trans hlast

theorem guarded_taken {last : State} (hlast : l.latest? metaId = some last)
    (hnext : l.Next now metaId (last.annotations.insert Mark.leaseHolder named) e) :
    (l.append e).Guarded metaId := by
  have hmark := recoveryMark_taken hnext.notes_eq
  obtain ⟨hmem, hid, -⟩ := hg.sound.latest?_eq_some_iff.1 hlast
  have hbehind := hg.behind last hmem hid
  have hrev := (hg.sound.rev_of_mem hmem).2
  refine hg.append hnext (by omega) (by omega) (fun x hx => ?_) fun _ last' hlast' => ?_
  · rw [hmark]
    exact hg.covers last x hlast hx
  · cases hlast.symm.trans hlast'
    omega

variable (h : r.Attends metaId holder l) (hlast : l.latest? metaId = some r.lease.known.current)
  {d : Draft} (hnext : l.Next now metaId
    (((noting r.watermark).apply d).current.annotations.insert Mark.leaseHolder named) e)

include h hlast hnext

theorem guarded_noted :
    (l.append e).Guarded metaId ∧ 0 ≤ e.recoveryMark ∧ e.recoveryMark ≤ r.watermark := by
  have hlow := h.low
  have hread := h.read
  obtain ⟨⟨hstored, hsince⟩, -⟩ := h.watermark
  have hmark : e.recoveryMark = if r.watermark ≤ Int64.maxValue.toInt then r.watermark else 0 :=
    recoveryMark_noted (by omega) hnext.notes_eq
  have hbounds : 0 ≤ e.recoveryMark ∧ e.recoveryMark ≤ r.watermark := by
    split at hmark <;> omega
  refine ⟨hg.append hnext hbounds.1 (by omega) (fun x hx => ?_) fun hmax last hlast' => ?_, hbounds⟩
  · have hlt := h.watermark_lt hx
    omega
  · cases hlast.symm.trans hlast'
    have hrev := hnext.rev_eq
    unfold Log.nextRev at hrev
    rw [if_pos (by omega)] at hmark
    change r.storedWatermark ≤ e.recoveryMark
    omega

theorem attends_noted {next : Recoverer} (hknown : next.lease.known = .ofState e)
    (hsince : next.sinceRev = r.sinceRev) (htracked : next.tracked = r.tracked) :
    next.Attends metaId holder (l.append e) := by
  obtain ⟨hguarded, hlow, hle⟩ := guarded_noted hg h hlast hnext
  obtain ⟨⟨-, hmark⟩, hbefore⟩ := h.watermark
  have hpre : l.entries <+: (l.append e).entries := List.prefix_append _ _
  have hstored : next.storedWatermark = e.recoveryMark := by
    rw [storedWatermark, hknown]
    rfl
  have hcurrent : next.lease.known.current = e := by
    rw [hknown]
    rfl
  refine ⟨fun f hf _ hlt => ?_, ?_, ?_, fun id stuck hget => ?_, fun x hx => ?_⟩
  · have hrev := (hguarded.sound.rev_of_mem hf).2
    rw [Log.head_append, ← hnext.rev_eq, ← hcurrent] at hrev
    omega
  · rw [hstored, hsince]
    omega
  · rw [hsince]
    exact Int.le_trans h.read (Log.head_mono hpre)
  · rw [htracked] at hget
    rw [hstored, hsince]
    obtain ⟨hmem, hid, hother, -, hupto⟩ := h.tracked id stuck hget
    have hlt := hbefore id stuck hget
    exact ⟨hpre.subset hmem, hid, hother, by omega, hupto⟩
  · rw [hsince, htracked]
    rcases hx.before hg.sound hguarded.sound hpre with hold | hahead
    · exact h.reaches x hold
    · exact .inl (Int.lt_of_le_of_lt h.read hahead)

end

/-! ### Trying again -/

theorem Attends.congr (h : r.Attends metaId holder l) {next : Recoverer}
    (hlease : next.lease = r.lease) (hsince : next.sinceRev = r.sinceRev)
    (htracked : ∀ id, next.tracked.get? id = r.tracked.get? id) :
    next.Attends metaId holder l := by
  have hmark : next.storedWatermark = r.storedWatermark := by
    rw [storedWatermark, hlease]
    rfl
  refine ⟨?_, ?_, ?_, fun id stuck hget => ?_, fun e he => ?_⟩
  · rw [hlease]
    exact h.sole
  · rw [hmark, hsince]
    exact h.low
  · rw [hsince]
    exact h.read
  · rw [hmark, hsince]
    exact h.tracked id stuck (htracked id ▸ hget)
  · rw [hsince, htracked]
    exact h.reaches e he

theorem Attends.drop (h : r.Attends metaId holder l) (id : StateId)
    (hgone : ∀ e, l.Unresolved metaId e → e.id = id → r.sinceRev < e.rev) :
    Attends metaId holder { r with tracked := r.tracked.erase id } l := by
  refine ⟨h.sole, h.low, h.read, fun id' stuck hget => ?_, fun e he => ?_⟩
  · change (r.tracked.erase id).get? id' = some stuck at hget
    rw [SortedMap.get?_erase] at hget
    split at hget
    · cases hget
    · exact h.tracked id' stuck hget
  · by_cases hid : e.id = id
    · exact .inl (hgone e he hid)
    · rcases h.reaches e he with hahead | ⟨stuck, hget, heq⟩
      · exact .inl hahead
      · exact .inr ⟨stuck, (SortedMap.get?_erase_of_ne _ hid).trans hget, heq⟩

theorem Attends.drop_advanced (h : r.Attends metaId holder l) {id : StateId} {stuck : Stuck}
    (hget : r.tracked.get? id = some stuck) (hne : stuck.state.rev ≠ l.latestRev id) :
    Attends metaId holder { r with tracked := r.tracked.erase id } l := by
  refine h.drop id fun x hx hid => ?_
  rcases h.reaches x hx with hahead | ⟨stuck', hget', rfl⟩
  · exact hahead
  · rw [hid, hget] at hget'
    cases hget'
    refine absurd ?_ hne
    rw [Log.latestRev, ← hid, hx.latest]
    rfl

theorem Attends.retried (h : r.Attends metaId holder l) (hl : l.Sound) {now : Instant}
    {id : StateId} {notes : Notes} {e : State} (hnext : l.Next now id notes e)
    (hother : id ≠ metaId) :
    Attends metaId holder { r with tracked := r.tracked.erase id } (l.append e) := by
  have hlonger : r.Attends metaId holder (l.append e) := by
    refine h.mono hl (hnext.sound hl) (List.prefix_append _ _) fun f hf hid => .inl ?_
    rcases List.mem_append.1 hf with hf | hf
    · exact hf
    · obtain rfl := List.mem_singleton.1 hf
      exact absurd (hnext.id_eq.symm.trans hid) hother
  refine hlonger.drop id fun x hx hid => ?_
  have hlast := hx.latest
  rw [hid, hnext.latest?_append hl, if_pos rfl] at hlast
  cases hlast
  have hrev := hnext.rev_eq
  have hread := h.read
  unfold Log.nextRev at hrev
  omega

/-! ### Reading on -/

theorem Attends.advance (h : r.Attends metaId holder l) (hl : l.Sound) {s : State}
    (hs : s ∈ l.entries) (hrev : s.rev = r.sinceRev + 1) {next : Recoverer}
    (hlease : next.lease = r.lease) (hsince : next.sinceRev = s.rev)
    (hfrom : ∀ id stuck, next.tracked.get? id = some stuck →
      r.tracked.get? id = some stuck ∨ stuck.state = s ∧ s.id = id ∧ id ≠ metaId)
    (hkeep : ∀ id, id ≠ s.id → next.tracked.get? id = r.tracked.get? id ∨
      r.tracked.get? id = none)
    (hself : l.Unresolved metaId s → ∃ stuck, next.tracked.get? s.id = some stuck ∧
      stuck.state = s) :
    next.Attends metaId holder l := by
  have hlow := h.low
  have hmark : next.storedWatermark = r.storedWatermark := by
    rw [storedWatermark, hlease]
    rfl
  refine ⟨?_, ?_, ?_, fun id stuck hget => ?_, fun e he => ?_⟩
  · rw [hlease]
    exact h.sole
  · rw [hmark, hsince]
    omega
  · rw [hsince]
    exact (hl.rev_of_mem hs).2
  · rw [hmark, hsince]
    rcases hfrom id stuck hget with hold | ⟨rfl, hid, hne⟩
    · obtain ⟨hmem, hid, hne, hafter, hupto⟩ := h.tracked id stuck hold
      exact ⟨hmem, hid, hne, hafter, by omega⟩
    · exact ⟨hs, hid, hne, by omega, Int.le_refl _⟩
  · rw [hsince]
    obtain ⟨hmem, -, hmax⟩ := hl.latest?_eq_some_iff.1 he.latest
    rcases h.reaches e he with hahead | ⟨stuck, hget, rfl⟩
    · by_cases hnext : e.rev = s.rev
      · obtain rfl := hl.eq_of_rev_eq hmem hs hnext
        exact .inr (hself he)
      · exact .inl (by omega)
    · have hne : stuck.state.id ≠ s.id := by
        intro heq
        have hle := hmax s hs heq.symm
        have hupto := (h.tracked _ stuck hget).2.2.2.2
        omega
      rcases hkeep _ hne with hsame | hnone
      · exact .inr ⟨stuck, hsame.trans hget, rfl⟩
      · cases hget.symm.trans hnone

variable {c : RecovererSettings} (hc : ¬ c.maxRetryAfter < c.minRetryAfter)

include hc

theorem Attends.track (h : r.Attends metaId holder l) (hl : l.Sound) {s : State}
    (hs : s ∈ l.entries) (hrev : s.rev = r.sinceRev + 1) (hother : s.id ≠ metaId) :
    Attends metaId holder (Recoverer.track c { r with sinceRev := s.rev } s) l ∧
      (Recoverer.track c { r with sinceRev := s.rev } s).lease = r.lease ∧
      (Recoverer.track c { r with sinceRev := s.rev } s).sinceRev = s.rev := by
  unfold Recoverer.track
  simp only
  split
  next hdone =>
    refine ⟨h.advance hl hs hrev ?_ ?_ (fun id stuck hget => .inl ?_) (fun id hne => .inl ?_)
      fun hstuck => absurd (hdone.symm.trans hstuck.running) (by simp), rfl, rfl⟩
    · rfl
    · rfl
    · change (r.tracked.erase s.id).get? id = some stuck at hget
      rw [SortedMap.get?_erase] at hget
      split at hget
      · cases hget
      · exact hget
    · exact SortedMap.get?_erase_of_ne _ hne
  next =>
    obtain ⟨p, hp⟩ := List.mem_iff_getElem?.1 hs
    obtain ⟨at?, hat⟩ := Option.isSome_iff_exists.1 (hl.dated p s hp)
    obtain ⟨after, hafter⟩ : ∃ after, c.retryAfter? s.retryAfter? = some after :=
      ⟨_, if_neg hc⟩
    rw [hat, hafter]
    refine ⟨h.advance hl hs hrev ?_ ?_ (fun id stuck hget => ?_) (fun id hne => .inl ?_)
      fun _ => ⟨_, SortedMap.get?_insert_self .., rfl⟩, rfl, rfl⟩
    · rfl
    · rfl
    · change (r.tracked.insert s.id _).get? id = some stuck at hget
      rw [SortedMap.get?_insert] at hget
      split at hget
      next heq =>
        cases hget
        exact .inr ⟨rfl, heq.symm, heq ▸ hother⟩
      next => exact .inl hget
    · exact SortedMap.get?_insert_of_ne _ _ hne

theorem watches_takeEntry (hl : l.Sound) (h : r.Watches metaId holder l)
    (ha : r.lease.active = true) {s : State} (hs : s ∈ l.entries) (hrev : s.rev = r.sinceRev + 1) :
    (r.takeEntry c s).1.Watches metaId holder l ∧
      ((r.takeEntry c s).2 = false →
        (r.takeEntry c s).1.lease = r.lease ∧ (r.takeEntry c s).1.sinceRev = s.rev) := by
  have hattends := h.attends ha
  unfold takeEntry
  simp only
  split
  next hmeta =>
    rw [h.lease.metaId_eq] at hmeta
    have hadvance : Attends metaId holder { r with sinceRev := s.rev } l :=
      hattends.advance hl hs hrev rfl rfl (fun _ _ hget => .inl hget) (fun _ _ => .inl rfl)
        fun hstuck => absurd hmeta hstuck.other
    by_cases hold : s.rev ≤ r.lease.known.current.rev
    · rw [h.lease.observe_of_le hl hold]
      exact ⟨⟨h.lease, fun _ => hadvance⟩, fun _ => ⟨rfl, rfl⟩⟩
    · have hnewer := Int.not_le.1 hold
      obtain ⟨hlost, hidle⟩ := h.lease.observe_of_lt hl ha hmeta hnewer
        (hattends.sole s hs hmeta hnewer)
      rw [hlost]
      exact ⟨⟨h.lease.observe hs, fun ha' => absurd (hidle.symm.trans ha') (by simp)⟩, nofun⟩
  next hmeta =>
    rw [h.lease.metaId_eq] at hmeta
    split
    next =>
      obtain ⟨htrack, hlease, hsince⟩ := hattends.track hc hl hs hrev hmeta
      refine ⟨⟨?_, fun _ => htrack⟩, fun _ => ⟨hlease, hsince⟩⟩
      rw [hlease]
      exact h.lease
    next hleft =>
      refine ⟨⟨h.lease, fun _ => hattends.advance hl hs hrev ?_ ?_ (fun _ _ hget => .inl hget)
        (fun _ _ => .inl rfl) fun hstuck => absurd hstuck.recoverable hleft⟩, fun _ => ⟨rfl, rfl⟩⟩
      · rfl
      · rfl

theorem watches_takeEntries (hl : l.Sound) (h : r.Watches metaId holder l)
    (ha : r.lease.active = true) (items : List State)
    (hitems : ∀ (k : Nat) (s : State), items[k]? = some s →
      s ∈ l.entries ∧ s.rev = r.sinceRev + k + 1) :
    (r.takeEntries c items).1.Watches metaId holder l ∧
      ((r.takeEntries c items).2 = false → (r.takeEntries c items).1.lease = r.lease) := by
  induction items generalizing r with
  | nil => exact ⟨h, fun _ => rfl⟩
  | cons s rest ih =>
    obtain ⟨hs, hrev⟩ := hitems 0 s rfl
    obtain ⟨hwatches, hkept⟩ := watches_takeEntry hc hl h ha hs (by simpa using hrev)
    unfold takeEntries
    generalize r.takeEntry c s = p at hwatches hkept
    obtain ⟨next, lost⟩ := p
    cases lost with
    | true => exact ⟨hwatches, nofun⟩
    | false =>
      obtain ⟨hlease, hsince⟩ := hkept rfl
      have hrest := ih hwatches (hlease ▸ ha) fun k e he => by
        obtain ⟨hmem, herev⟩ := hitems (k + 1) e he
        refine ⟨hmem, ?_⟩
        rw [hsince]
        push_cast at herev hrev
        omega
      exact ⟨hrest.1, fun hlost => (hrest.2 hlost).trans hlease⟩

end

end Recoverer

end Workflow
