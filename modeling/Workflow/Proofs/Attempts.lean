import Workflow.Proofs.Numeral
import Workflow.Proofs.Retrying

/-!
# Attempts are counted and bounded

The number of an attempt stands in the log, where whoever is active reads it. So whoever tries a
state again, and however often the lease changes hands, the attempts at a state that nobody else
moves are numbered one by one, up to the limit that the state has; after the last one the state is
ended.
-/

set_option autoImplicit false

namespace Workflow

namespace State

/-! ### What is read of the next entry -/

section

variable {limit : Nat} (hlimit : limit < UInt32.size) (s : State)

include hlimit

theorem maxAttempts_lt : s.maxAttempts limit < UInt32.size := by
  unfold maxAttempts
  cases hmax : (s.note? Mark.recoveryMaxAttempts).bind fun v => Numeral.word32? v.toList with
  | none => exact hlimit
  | some n =>
    obtain ⟨v, -, hv⟩ := Option.bind_eq_some_iff.1 hmax
    exact Numeral.word32?_lt hv

theorem attempt_nextAttempt (hleft : s.attempt < s.maxAttempts limit) :
    s.nextAttempt.attempt = s.attempt + 1 := by
  have hnoted : s.nextAttempt.transition.note? Mark.recoveryAttempt =
      some (toString (s.attempt + 1)) := SortedMap.get?_insert_self ..
  have hfits : s.attempt + 1 < UInt32.size :=
    Nat.lt_of_le_of_lt hleft (s.maxAttempts_lt hlimit)
  rw [attempt, hnoted, Option.bind_some, Numeral.word32?_toString hfits, Option.getD_some]

end

theorem note?_nextAttempt (s : State) {name : String} (hname : name ≠ Mark.recoveryAttempt) :
    s.nextAttempt.transition.note? name = s.transition.note? name :=
  SortedMap.get?_insert_of_ne _ _ hname

theorem maxAttempts_nextAttempt (s : State) (limit : Nat) :
    s.nextAttempt.maxAttempts limit = s.maxAttempts limit := by
  have hnote : s.nextAttempt.note? Mark.recoveryMaxAttempts =
      s.note? Mark.recoveryMaxAttempts := by
    rw [note?, s.note?_nextAttempt (by decide)]
    rfl
  rw [maxAttempts, hnote]
  rfl

theorem isEnded_nextAttempt (s : State) : s.nextAttempt.isEnded = s.isEnded := by
  rw [isEnded, s.note?_nextAttempt (by decide)]
  rfl

theorem isEnded_abandoned (s : State) : s.abandoned.isEnded = true := by
  have hnoted : s.abandoned.transition.note? Mark.lifecycle = some Mark.ended :=
    SortedMap.get?_insert_self ..
  rw [isEnded, hnoted]
  decide

end State

namespace Recoverer

/-- An entry follows on another one, as the next attempt or as the end of its state. -/
inductive Counts (limit : Nat) (e x : State) : Prop
  | again (left : e.attempt < e.maxAttempts limit) (running : x.isEnded = false)
      (attempt : x.attempt = e.attempt + 1) (same : x.maxAttempts limit = e.maxAttempts limit)
  | ended (spent : e.maxAttempts limit ≤ e.attempt) (ended : x.isEnded = true)

theorem counts_tried {limit : Nat} (hlimit : limit < UInt32.size) {e x : State} {now : Instant}
    (hrunning : e.isEnded = false)
    (hx : x = { e.tried limit with rev := x.rev, committedAt := some now }) :
    Counts limit e x := by
  have hattempt : x.attempt = (e.tried limit).attempt := by rw [hx]; rfl
  have hmax : x.maxAttempts limit = (e.tried limit).maxAttempts limit := by rw [hx]; rfl
  have hended : x.isEnded = (e.tried limit).isEnded := by rw [hx]; rfl
  unfold State.tried at hattempt hmax hended
  split at hended
  next hleft =>
    rw [if_pos hleft] at hattempt hmax
    refine .again hleft ?_ ?_ ?_
    · rw [hended, e.isEnded_nextAttempt, hrunning]
    · rw [hattempt, e.attempt_nextAttempt hlimit hleft]
    · rw [hmax, e.maxAttempts_nextAttempt]
  next hspent =>
    exact .ended (Nat.not_lt.1 hspent) (by rw [hended, e.isEnded_abandoned])

/-- The entries number the attempts that a state has left after an entry, from the next one on. -/
def Numbered (limit : Nat) (first : State) (tries : List State) : Prop :=
  ∀ j x, tries[j]? = some x → x.isEnded = false ∧ x.attempt = first.attempt + j + 1 ∧
    x.attempt ≤ first.maxAttempts limit

theorem numbered_nil (limit : Nat) (first : State) : Numbered limit first [] :=
  fun _ _ hx => nomatch hx

theorem Numbered.cons {limit : Nat} {first x : State} {rest : List State}
    (h : Numbered limit x rest) (hleft : first.attempt < first.maxAttempts limit)
    (hrunning : x.isEnded = false) (hattempt : x.attempt = first.attempt + 1)
    (hsame : x.maxAttempts limit = first.maxAttempts limit) :
    Numbered limit first (x :: rest) := by
  intro j y hy
  cases j with
  | zero =>
    cases hy
    exact ⟨hrunning, hattempt, by omega⟩
  | succ j =>
    obtain ⟨hyrunning, hyattempt, hymax⟩ := h j y hy
    exact ⟨hyrunning, by omega, by omega⟩

theorem numbered_of_isChain {limit : Nat} {first : State} {block : List State}
    (h : List.IsChain (fun e x => e.isEnded = false ∧ Counts limit e x) (first :: block)) :
    ∃ tries ends, block = tries ++ ends ∧
      tries.length ≤ first.maxAttempts limit - first.attempt ∧ Numbered limit first tries ∧
      (ends = [] ∨ ∃ x, ends = [x] ∧ x.isEnded = true ∧
        tries.length = first.maxAttempts limit - first.attempt) := by
  induction block generalizing first with
  | nil => exact ⟨[], [], rfl, Nat.zero_le _, numbered_nil limit first, .inl rfl⟩
  | cons x rest ih =>
    obtain ⟨⟨-, hcounts⟩, hrest⟩ := List.isChain_cons_cons.1 h
    cases hcounts with
    | again hleft hrunning hattempt hsame =>
      obtain ⟨tries, ends, rfl, hlength, hnumbered, hends⟩ := ih hrest
      refine ⟨x :: tries, ends, rfl, ?_, hnumbered.cons hleft hrunning hattempt hsame, ?_⟩
      · rw [List.length_cons]
        omega
      · refine hends.imp_right fun ⟨y, hy, hended, hall⟩ => ⟨y, hy, hended, ?_⟩
        rw [List.length_cons]
        omega
    | ended hspent hended =>
      have hnone : rest = [] := by
        cases rest with
        | nil => rfl
        | cons y rest =>
          obtain ⟨⟨hrunning, -⟩, -⟩ := List.isChain_cons_cons.1 hrest
          exact absurd (hended.symm.trans hrunning) (by simp)
      subst hnone
      refine ⟨[], [x], rfl, Nat.zero_le _, numbered_nil limit first, .inr ⟨x, rfl, hended, ?_⟩⟩
      rw [List.length_nil]
      omega

/-! ### Runs -/

open Workflow.Group

variable {ι : Type} [DecidableEq ι]

/-- A recoverer added the entry in one of the turns, to another state than its meta state: it tried
the state again, or ended it. -/
def AddedByRetry (c : ι → RecovererSettings) (turns : List (Turn ι Part)) (x : State) : Prop :=
  ∃ k i t, turns[k]? = some t ∧ t.actor? = some i ∧ x.id ≠ (c i).metaId ∧
    x ∉ (logAt c turns k).entries ∧ x ∈ (logAt c turns (k + 1)).entries

section

variable {c : ι → RecovererSettings} {turns : List (Turn ι Part)} {limit : Nat}
  (hlimit : limit < UInt32.size) (hsame : ∀ i, (c i).maxAttempts = limit)

include hlimit hsame

theorem counts_of_addedByRetry {x : State} (h : AddedByRetry c turns x) :
    ∃ e, (run (parts c) turns).store.log.Precedes e x ∧ e.isEnded = false ∧ Counts limit e x := by
  obtain ⟨k, i, t, hat, hactor, hother, hnew, hx⟩ := h
  have hk := (List.getElem?_eq_some_iff.1 hat).1
  have hadds : ∃ m : Moment, Adds (c i) m.now (logAt c turns k) (logAt c turns (k + 1)) := by
    have hturn := addsIn_turn c hat
    cases t with
    | start j m => exact ⟨m, Option.some.inj hactor ▸ hturn⟩
    | work j part m => exact ⟨m, Option.some.inj hactor ▸ hturn⟩
    | call request => cases hactor
  obtain ⟨m, hadds⟩ := hadds
  obtain ⟨e, hprecedes, hdue, heq⟩ := ((hadds.added x hx).resolve_left hnew).resolve_left hother
  have hpre := log_mono (r := parts c) (Nat.le_refl turns.length)
    (fun _ _ hat => (addsIn_turn c hat).grows) (Nat.succ_le_of_lt hk)
  rw [List.take_length] at hpre
  rw [hsame i] at heq
  exact ⟨e, hprecedes.mono hpre, hdue.running.1, counts_tried hlimit hdue.running.1 heq⟩

/-- Consecutive entries that recoverers added follow one on another. -/
theorem isChain_of_addedByRetry {id : StateId} {older block newer : List State} {first : State}
    (hsplit : (run (parts c) turns).store.log.of id = older ++ first :: (block ++ newer))
    (hblock : ∀ x ∈ block, AddedByRetry c turns x) :
    List.IsChain (fun e x => e.isEnded = false ∧ Counts limit e x) (first :: block) := by
  have hsound : (run (parts c) turns).store.log.Sound := by
    have hsighted := sighted_run c (Nat.le_refl turns.length)
    rw [List.take_length] at hsighted
    exact hsighted.store
  induction block generalizing older first with
  | nil => exact List.IsChain.singleton first
  | cons x rest ih =>
    obtain ⟨e, hprecedes, hcounts⟩ :=
      counts_of_addedByRetry hlimit hsame (hblock x List.mem_cons_self)
    have hid : x.id = id := by
      have hmem : x ∈ (run (parts c) turns).store.log.of id := by
        rw [hsplit]
        simp
      exact (Log.mem_of_iff.1 hmem).2
    have hof : (run (parts c) turns).store.log.of x.id =
        older ++ first :: x :: (rest ++ newer) := hid ▸ hsplit
    obtain rfl := hsound.eq_of_precedes hprecedes hof
    have hnext : (run (parts c) turns).store.log.of id =
        (older ++ [e]) ++ x :: (rest ++ newer) := by
      rw [hsplit]
      simp
    exact List.isChain_cons_cons.2
      ⟨hcounts, ih hnext fun y hy => hblock y (List.mem_cons_of_mem x hy)⟩

/-- However many recoverers with the same default limit there are, consecutive entries that they
added to a state number the attempts that it had left after the entry before, from the next one on;
or all of these and then one that ends the state, on which no entry of a recoverer follows. -/
theorem attempts_are_bounded {id : StateId} {older block newer : List State} {first : State}
    (hsplit : (run (parts c) turns).store.log.of id = older ++ first :: (block ++ newer))
    (hblock : ∀ x ∈ block, AddedByRetry c turns x) :
    ∃ tries ends, block = tries ++ ends ∧
      tries.length ≤ first.maxAttempts limit - first.attempt ∧
      (∀ j x, tries[j]? = some x → x.isEnded = false ∧ x.attempt = first.attempt + j + 1 ∧
        x.attempt ≤ first.maxAttempts limit) ∧
      (ends = [] ∨ ∃ x, ends = [x] ∧ x.isEnded = true ∧
        tries.length = first.maxAttempts limit - first.attempt ∧
        ∀ y, newer.head? = some y → ¬ AddedByRetry c turns y) := by
  have hchain := isChain_of_addedByRetry hlimit hsame hsplit hblock
  obtain ⟨tries, ends, rfl, hlength, hnumbered, hends⟩ := numbered_of_isChain hchain
  refine ⟨tries, ends, rfl, hlength, hnumbered, hends.imp_right ?_⟩
  rintro ⟨x, rfl, hended, hall⟩
  refine ⟨x, rfl, hended, hall, fun y hy hadded => ?_⟩
  -- with the entry after the end the block would go on, but nothing follows on an end
  obtain ⟨newer', rfl⟩ := List.head?_eq_some_iff.1 hy
  have hlater : (run (parts c) turns).store.log.of id =
      (older ++ first :: tries) ++ x :: ([y] ++ newer') := by
    rw [hsplit]
    simp
  have hnext := isChain_of_addedByRetry hlimit hsame hlater fun z hz =>
    List.mem_singleton.1 hz ▸ hadded
  obtain ⟨⟨hrunning, -⟩, -⟩ := List.isChain_cons_cons.1 hnext
  exact absurd (hended.symm.trans hrunning) (by simp)

end

/-- The first recoverer tries the state again; the second one takes over and ends it. -/
theorem attempts_are_bounded_of_takeover :
    let moment (n : Nat) : Moment := ⟨Instant.epoch + Span.ofSecs n, true, .free⟩
    let c (second : Bool) : RecovererSettings :=
      { metaId := ⟨"m"⟩, holder := if second then "b" else "a", maxAttempts := 1 }
    let work : Draft := .ofState { (default : State) with id := ⟨"w"⟩ }
    let turns : List (Turn Bool Part) :=
      [.start false (moment 0), .start true (moment 1),
        .call (.commit (moment 2).now [.keep work]), .work false (.whole .scanHead) (moment 10),
        .work false (.whole .scanTail) (moment 130), .work true (.whole .scanTail) (moment 1000),
        .work true (.whole .scanHead) (moment 1001), .work true (.whole .scanTail) (moment 1002)]
    1 < UInt32.size ∧ (∀ i, (c i).maxAttempts = 1) ∧
      ∃ first x y, (run (parts c) turns).store.log.of ⟨"w"⟩ = [] ++ first :: ([x, y] ++ []) ∧
        (∀ z ∈ [x, y], AddedByRetry c turns z) ∧
        x.attempt = 1 ∧ x.isEnded = false ∧ y.isEnded = true := by
  intro moment c work turns
  have hlimit : 1 < UInt32.size := by decide
  have hsame : ∀ i, (c i).maxAttempts = 1 := fun _ => rfl
  have hfresh : ((run (parts c) turns).store.log.of ⟨"w"⟩).map (fun e =>
      (e.maxAttempts 1, e.attempt,
      decide (e ∈ (logAt c turns 4).entries), decide (e ∈ (logAt c turns 5).entries),
      decide (e ∈ (logAt c turns 7).entries), decide (e ∈ (logAt c turns 8).entries))) =
      [(1, 0, true, true, true, true), (1, 1, false, true, true, true),
        (1, 0, false, false, false, true)] := by
    decide +kernel
  obtain ⟨first, later, hof, hfirst, hlater⟩ := List.map_eq_cons_iff.1 hfresh
  obtain ⟨x, later, rfl, hx, hlater⟩ := List.map_eq_cons_iff.1 hlater
  obtain ⟨y, later, rfl, hy, hlater⟩ := List.map_eq_cons_iff.1 hlater
  obtain rfl := List.map_eq_nil_iff.1 hlater
  simp only [Prod.mk.injEq, decide_eq_true_eq, decide_eq_false_iff_not] at hfirst hx hy
  have hother {z : State} (hz : z ∈ (run (parts c) turns).store.log.of ⟨"w"⟩) (i : Bool) :
      z.id ≠ (c i).metaId := by
    rw [(Log.mem_of_iff.1 hz).2]
    change (⟨"w"⟩ : StateId) ≠ ⟨"m"⟩
    decide
  have hblock : ∀ z ∈ [x, y], AddedByRetry c turns z := by
    simp only [List.forall_mem_cons]
    refine ⟨⟨4, false, _, rfl, rfl, hother (by simp [hof]) _, hx.2.2.1, hx.2.2.2.1⟩,
      ⟨7, true, _, rfl, rfl, hother (by simp [hof]) _, hy.2.2.2.2.1, hy.2.2.2.2.2⟩,
      List.forall_mem_nil _⟩
  have hsplit : (run (parts c) turns).store.log.of ⟨"w"⟩ = [] ++ first :: ([x, y] ++ []) := hof
  obtain ⟨tries, ends, hparts, hlength, hnumbered, hends⟩ :=
    attempts_are_bounded hlimit hsame hsplit hblock
  rw [hfirst.1, hfirst.2.1] at hlength
  rcases hends with rfl | ⟨z, rfl, hended, -⟩
  · have htwo := congrArg List.length hparts
    simp only [List.append_nil, List.length_cons, List.length_nil] at htwo
    omega
  · have hboth : [x] ++ [y] = tries ++ [z] := hparts
    obtain ⟨rfl, hz⟩ := List.append_inj' hboth rfl
    cases hz
    obtain ⟨hrunning, -, -⟩ := hnumbered 0 x rfl
    exact ⟨hlimit, hsame, first, x, y, hsplit, hblock, hx.2.1, hrunning, hended⟩

end Recoverer

end Workflow
