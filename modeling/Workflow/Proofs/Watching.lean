import Workflow.Scenario.Script
import Workflow.Proofs.Effect
import Workflow.Proofs.Searching

/-!
# Watchers miss nothing and repeat nothing

What a watcher has handed out, what it keeps and what it has still to read make up all entries of
the log that match its query, in order. Reading a page, handing out a state and whatever others
commit leave it at that.
-/

set_option autoImplicit false

namespace Workflow

namespace Log

variable {l : Log} {q : StateQuery}

/-- The entries of the log that match a query, oldest first. -/
def matching (l : Log) (q : StateQuery) : List State :=
  l.entries.filter fun e => q.sinceRev < e.rev && q.accepts e

theorem Sound.pairwise_matching (h : l.Sound) (q : StateQuery) :
    (l.matching q).Pairwise fun e f => e.rev < f.rev :=
  h.rev_lt.filter _

theorem found_eq_matching (hsince : 0 ≤ q.sinceRev) (hlatest : q.latestOnly = false) :
    l.found q = l.matching q := by
  refine List.filter_congr fun e _ => ?_
  have hstart : ¬ q.sinceRev < 0 := by omega
  rw [isBehind, if_neg hstart, hlatest, Bool.not_false, Bool.true_or, Bool.and_true]

theorem Sound.page_eq (h : l.Sound) (hsince : 0 ≤ q.sinceRev) (hlatest : q.latestOnly = false) :
    l.page q = Page.ofList q.pageLength (l.matching q) := by
  rw [h.page_eq_found, found_eq_matching hsince hlatest]

theorem matching_since {rev : Int} (h : q.sinceRev ≤ rev) (l : Log) :
    l.matching { q with sinceRev := rev } = (l.matching q).filter fun e => rev < e.rev := by
  rw [matching, matching, List.filter_filter]
  refine List.filter_congr fun e _ => ?_
  change (decide (rev < e.rev) && q.accepts e) = _
  by_cases hlt : rev < e.rev
  · have hlt' : q.sinceRev < e.rev := by omega
    simp [hlt, hlt']
  · simp [hlt]

theorem matching_append {added : List State} {m : Log} (hsplit : m.entries = l.entries ++ added)
    (hadded : ∀ e ∈ added, l.head < e.rev) {rev : Int} (hle : q.sinceRev ≤ rev)
    (hreached : rev ≤ max q.sinceRev l.head) :
    ∃ more, m.matching q = l.matching q ++ more ∧
      m.matching { q with sinceRev := rev } = l.matching { q with sinceRev := rev } ++ more := by
  refine ⟨added.filter fun e => q.sinceRev < e.rev && q.accepts e, ?_, ?_⟩
  · rw [matching, hsplit, List.filter_append]
    rfl
  · rw [matching, hsplit, List.filter_append]
    refine congrArg _ (List.filter_congr fun e he => ?_)
    have hhead := hadded e he
    change (decide (rev < e.rev) && q.accepts e) = _
    have hiff : rev < e.rev ↔ q.sinceRev < e.rev := by omega
    simp only [hiff]

end Log

namespace Watcher

/-- What a watcher of a query handed out, what it keeps and what it has still to read are the
entries that match. It has read no further than the log goes. -/
structure Follows (q : StateQuery) (received : List State) (w : Watcher) (l : Log) : Prop where
  query : w.query = { q with sinceRev := w.query.sinceRev }
  since : q.sinceRev ≤ w.query.sinceRev
  reached : w.query.sinceRev ≤ max q.sinceRev l.head
  split : received ++ w.pending ++ l.matching w.query = l.matching q

section

variable {q : StateQuery} {received : List State} {w : Watcher} {l : Log}

theorem follows_new (q : StateQuery) (r : Repository) (poll : Span) (l : Log) :
    Follows q [] (new q r poll) l :=
  ⟨rfl, Int.le_refl _, Int.le_max_left _ _, rfl⟩

namespace Follows

theorem received_prefix (h : Follows q received w l) : received <+: l.matching q :=
  ⟨w.pending ++ l.matching w.query, by rw [← List.append_assoc, h.split]⟩

theorem mono (h : Follows q received w l) {m : Log} (hpre : l.entries <+: m.entries)
    (hm : m.Sound) : Follows q received w m := by
  obtain ⟨added, hsplit⟩ := hpre
  have hadded (e : State) (he : e ∈ added) : l.head < e.rev := by
    obtain ⟨p, hp⟩ := List.mem_iff_getElem?.1 he
    have hat : m.entries[l.entries.length + p]? = some e := by
      rw [← hsplit, List.getElem?_append_right (Nat.le_add_right _ _), Nat.add_sub_cancel_left, hp]
    have hrev := hm.numbered _ e hat
    unfold Log.head
    omega
  have hhead : l.head ≤ m.head := by
    unfold Log.head
    rw [← hsplit, List.length_append]
    omega
  obtain ⟨more, hall, hahead⟩ := Log.matching_append hsplit.symm hadded h.since h.reached
  refine ⟨h.query, h.since, by have := h.reached; omega, ?_⟩
  rw [← h.query] at hahead
  rw [hall, hahead, ← List.append_assoc, h.split]

theorem pop (h : Follows q received w l) : Follows q (received ++ w.pop.1.toList) w.pop.2 l := by
  have hsplit := h.split
  unfold Watcher.pop
  cases hpending : w.pending with
  | nil => simpa using h
  | cons s rest =>
    refine ⟨h.query, h.since, h.reached, ?_⟩
    rw [hpending] at hsplit
    simpa using hsplit

theorem page_eq (h : Follows q received w l) (hl : l.Sound) (hsince : 0 ≤ q.sinceRev)
    (hlatest : q.latestOnly = false) :
    l.page w.query = Page.ofList w.query.pageLength (l.matching w.query) := by
  refine hl.page_eq (Int.le_trans hsince h.since) ?_
  rw [h.query]
  exact hlatest

theorem absorb (h : Follows q received w l) (hl : l.Sound) (hsince : 0 ≤ q.sinceRev)
    (hlatest : q.latestOnly = false) : Follows q received (w.absorb (l.page w.query)) l := by
  rw [h.page_eq hl hsince hlatest]
  have hbegins : received ++ w.pending ++ (l.matching w.query).take w.query.pageLength ++
      (l.matching w.query).drop w.query.pageLength = l.matching q := by
    rw [List.append_assoc _ (List.take _ _), List.take_append_drop, h.split]
  unfold Watcher.absorb
  rw [Page.items_ofList]
  cases hlast : ((l.matching w.query).take w.query.pageLength).getLast? with
  | none =>
    have hnone := List.getLast?_eq_none_iff.1 hlast
    have hsplit := h.split
    rw [hnone, List.append_nil]
    exact ⟨h.query, h.since, h.reached, hsplit⟩
  | some s =>
    have hmem : s ∈ l.matching w.query := List.mem_of_mem_take (List.mem_of_getLast? hlast)
    obtain ⟨hentry, hlater⟩ := List.mem_filter.1 hmem
    have hlt : w.query.sinceRev < s.rev := of_decide_eq_true (Bool.and_eq_true_iff.1 hlater).1
    have hahead : l.matching { w.query with sinceRev := s.rev } =
        (l.matching w.query).drop w.query.pageLength := by
      rw [Log.matching_since (Int.le_of_lt hlt)]
      exact Page.filter_after_getLast (hl.pairwise_matching w.query) hlast
    refine ⟨?_, ?_, ?_, ?_⟩
    · change { w.query with sinceRev := s.rev } = { q with sinceRev := s.rev }
      rw [h.query]
    · change q.sinceRev ≤ s.rev
      have hle := h.since
      omega
    · change s.rev ≤ max q.sinceRev l.head
      have hhead := (hl.rev_of_mem hentry).2
      omega
    · change received ++ (w.pending ++ _) ++ l.matching { w.query with sinceRev := s.rev } = _
      rw [hahead, ← List.append_assoc, hbegins]

theorem received_eq_of_pending_absorb (h : Follows q received w l) (hl : l.Sound)
    (hsince : 0 ≤ q.sinceRev) (hlatest : q.latestOnly = false)
    (hempty : (w.absorb (l.page w.query)).pending = []) : received = l.matching q := by
  obtain ⟨hpending, hitems⟩ := List.append_eq_nil_iff.1 hempty
  rw [h.page_eq hl hsince hlatest, Page.items_ofList, List.take_eq_nil_iff] at hitems
  have hnone := hitems.resolve_left (Nat.ne_of_gt w.query.pageLength_pos)
  have hsplit := h.split
  rw [hpending, hnone, List.append_nil, List.append_nil] at hsplit
  exact hsplit

end Follows

end

theorem leads_next {w : Watcher} {r : Repository} (hdirect : r.front = .direct)
    {Q : Except Fault (Option State × Watcher) → Repository → Prop}
    (hkept : w.pending ≠ [] → Q (.ok w.pop) r)
    (hfault : ∀ fault, (r.gate.enter .listStates).1 = some fault →
      Q (.error fault) { r with gate := (r.gate.enter .listStates).2 })
    (hread : w.pending = [] →
      Q (.ok (w.absorb (r.store.log.page w.query)).pop)
        { r with gate := (r.gate.enter .listStates).2 }) :
    Effect.Leads w.next r Q := by
  obtain ⟨store, gate, front⟩ := r
  obtain rfl : front = .direct := hdirect
  unfold next
  cases hpending : w.pending with
  | cons s rest => exact hkept (hpending ▸ List.cons_ne_nil s rest)
  | nil =>
    unfold Repository.listStates Repository.miss Repository.readStore Repository.pass
    simp only [List.isEmpty_nil, if_true, Effect.leads_bind, Effect.leads_get, Effect.leads_set,
      Repository.cache?, Option.bind_none, Effect.leads_modify]
    cases hplan : (gate.enter .listStates).1 with
    | some fault => exact hfault fault hplan
    | none => exact hread hpending

theorem pop_eq_none {w : Watcher} (h : w.pop.1 = none) : w.pending = [] := by
  unfold pop at h
  cases hpending : w.pending with
  | nil => rfl
  | cons s rest =>
    rw [hpending] at h
    cases h

/-- How often a repository was asked for states. -/
def polls (r : Repository) : Nat := (r.gate.calls.get? .listStates).getD 0

theorem polls_enter (r : Repository) :
    polls { r with gate := (r.gate.enter .listStates).2 } = polls r + 1 := by
  unfold polls
  rw [Gate.calls_enter, Option.getD_some]

/-- A look for the next state, whatever it comes to, leaves it at what matches. It finds nothing
only where it asked and everything is handed out already. -/
theorem Follows.leads_next {q : StateQuery} {received : List State} {w : Watcher} {r : Repository}
    (h : Follows q received w r.store.log) (hl : r.store.log.Sound) (hdirect : r.front = .direct)
    (hsince : 0 ≤ q.sinceRev) (hlatest : q.latestOnly = false) :
    Effect.Leads w.next r fun outcome r' =>
      r'.store = r.store ∧ r'.front = .direct ∧
        match outcome with
        | .error fault => (r.gate.enter .listStates).1 = some fault
        | .ok (found, left) =>
          Follows q (received ++ found.toList) left r.store.log ∧
            (found = none → received = r.store.log.matching q ∧ polls r' ≠ polls r) := by
  refine Watcher.leads_next hdirect ?kept ?fault ?read
  case kept =>
    intro hpending
    exact ⟨rfl, hdirect, h.pop, fun hnone => absurd (pop_eq_none hnone) hpending⟩
  case fault => exact fun fault hplan => ⟨rfl, hdirect, hplan⟩
  case read =>
    intro hpending
    refine ⟨rfl, hdirect, (h.absorb hl hsince hlatest).pop, fun hnone => ⟨?_, ?_⟩⟩
    · exact h.received_eq_of_pending_absorb hl hsince hlatest (pop_eq_none hnone)
    · rw [polls_enter]
      exact Nat.succ_ne_self _

end Watcher

namespace Scenario

open Event Script

theorem run_receive {name : String} (token : Option String) (deadline : Timer) {w : World}
    {watcher : Watcher} (h : w.watchers.get? name = some watcher) :
    (receive name token deadline).run w =
      match watcher.next.run.run w.repository with
      | (.error fault, r) => (.answer (.failed fault), { w with repository := r })
      | (.ok (found, left), r) =>
        let w' := { w with repository := r, watchers := w.watchers.insert name left }
        if found.isSome then
          (.answer (.received found left.query.sinceRev (now.run w').1), w')
        else
          (.wait (.receiving name token deadline
            (.ofDeadline ((deadlineIn left.pollInterval).run w').1) r.store.announced), w') := by
  unfold receive
  rw [StateT.run_bind, StateT.run_get]
  simp only [pure_bind, h]
  rw [StateT.run_bind]
  unfold access
  rw [StateT.run_bind, StateT.run_get]
  simp only [pure_bind]
  rcases watcher.next.run.run w.repository with ⟨fault | ⟨found, left⟩, r⟩
  · rfl
  · cases found with
    | none => rfl
    | some s => rfl

theorem run_resumeReceiving {name : String} (token : Option String) (deadline look : Timer)
    (seen : Nat) {w : World} {watcher : Watcher} (h : w.watchers.get? name = some watcher) :
    (resumeReceiving name token deadline look seen).run w =
        (.answer (.received none watcher.query.sinceRev (now.run w).1), w) ∨
      (resumeReceiving name token deadline look seen).run w = (receive name token deadline).run w ∨
      (resumeReceiving name token deadline look seen).run w =
        (.wait (.receiving name token deadline look seen), w) := by
  unfold resumeReceiving
  rw [StateT.run_bind, StateT.run_get]
  simp only [pure_bind, h]
  split
  · exact .inl rfl
  · split
    · exact .inr (.inl rfl)
    · exact .inr (.inr rfl)

/-! ### Courses -/

/-- The state that a turn hands out. -/
def Turn.state? : Turn → Option State
  | .answer (.received s _ _) => s
  | _ => none

/-- The call ends without a state, as its deadline passed or it was cancelled. -/
def Turn.givesUp : Turn → Bool
  | .answer (.received none _ _) => true
  | _ => false

/-- A call that asked has found nothing: it waits, or it gives up. -/
def Turn.FindsNothing : Turn → Prop
  | .wait _ => True
  | .answer a => (Turn.answer a).givesUp = true

theorem Turn.findsNothing_of_givesUp {turn : Turn} (h : turn.givesUp = true) :
    turn.FindsNothing := by
  cases turn with
  | wait w => cases h
  | answer a => exact h

/-- What happens while a watcher is used. -/
inductive Occasion where
  /-- Others make requests of the store, calls come to fail or to pass, time passes and tokens are
  cancelled. -/
  | elsewhere (requests : List Store.Request) (gate : Gate) (tick : Nat)
      (tokens : SortedMap String Bool)
  /-- A call for the next state begins; one that waits is given up for it. -/
  | call (token : Option String) (deadline : Timer)
  /-- The call that waits goes on. -/
  | resume

/-- A world with a watcher in use, and what its calls came to. -/
structure Course where
  world : World
  /-- What the last call came to so far. -/
  turn : Option Turn
  received : List State
  /-- The log at the last poll. -/
  polled : Log

namespace Course

def begin (w : World) : Course := ⟨w, none, [], .empty⟩

def log (c : Course) : Log := c.world.repository.store.log

/-- The course after part of a call. -/
def record (c : Course) (x : Event Turn) : Course :=
  let (turn, world) := x.run c.world
  { world
    turn := some turn
    received := c.received ++ turn.state?.toList
    polled :=
      if Watcher.polls world.repository = Watcher.polls c.world.repository then c.polled
      else c.log }

def step (name : String) (c : Course) : Occasion → Course
  | .elsewhere requests gate tick tokens =>
    let store := requests.foldl Store.serve c.world.repository.store
    { c with world := { c.world with
        repository := { c.world.repository with store, gate }
        tick
        tokens } }
  | .call token deadline => c.record (receive name token deadline)
  | .resume =>
    match c.turn with
    | some (.wait (.receiving _ token deadline look seen)) =>
      c.record (resumeReceiving name token deadline look seen)
    | _ => c

def run (name : String) (w : World) (occasions : List Occasion) : Course :=
  occasions.foldl (step name) (begin w)

/-- The watcher of the name follows the log, and a call that finds nothing has nothing to find. -/
structure Tracks (name : String) (q : StateQuery) (c : Course) : Prop where
  direct : c.world.repository.front = .direct
  sound : c.log.Sound
  follows : ∃ w, c.world.watchers.get? name = some w ∧ w.Follows q c.received c.log
  settled : ∀ turn, c.turn = some turn → turn.FindsNothing → c.received = c.polled.matching q

namespace Tracks

variable {name : String} {q : StateQuery} {c : Course}

theorem elsewhere (h : Tracks name q c) (requests : List Store.Request) (gate : Gate) (tick : Nat)
    (tokens : SortedMap String Bool) :
    Tracks name q (c.step name (.elsewhere requests gate tick tokens)) := by
  obtain ⟨w, hw, hfollows⟩ := h.follows
  have hsound := Store.sound_foldl_serve h.sound requests
  exact ⟨h.direct, hsound, ⟨w, hw, hfollows.mono (Store.prefix_foldl_serve _ requests) hsound⟩,
    h.settled⟩

theorem record_eq {x : Event Turn} {turn : Turn} {world : World}
    (hx : x.run c.world = (turn, world)) :
    c.record x =
      ⟨world, some turn, c.received ++ turn.state?.toList,
        if Watcher.polls world.repository = Watcher.polls c.world.repository then c.polled
        else c.log⟩ := by
  rw [Course.record, hx]

theorem record (h : Tracks name q c) {x : Event Turn} {turn : Turn} {world : World}
    {left : Watcher} (hx : x.run c.world = (turn, world))
    (hdirect : world.repository.front = .direct)
    (hstore : world.repository.store = c.world.repository.store)
    (hleft : world.watchers.get? name = some left)
    (hfollows : left.Follows q (c.received ++ turn.state?.toList) c.log)
    (hsettled : turn.FindsNothing → (c.record x).received = (c.record x).polled.matching q) :
    Tracks name q (c.record x) := by
  have hlog : (c.record x).log = c.log := by
    rw [record_eq hx]
    exact congrArg Store.log hstore
  refine ⟨?_, hlog ▸ h.sound, ⟨left, ?_, ?_⟩, ?_⟩
  · rw [record_eq hx]
    exact hdirect
  · rw [record_eq hx]
    exact hleft
  · rw [hlog, record_eq hx]
    exact hfollows
  · intro last hlast hnothing
    rw [record_eq hx] at hlast
    obtain rfl := Option.some.inj hlast
    exact hsettled hnothing

theorem call (h : Tracks name q c) (hsince : 0 ≤ q.sinceRev) (hlatest : q.latestOnly = false)
    (token : Option String) (deadline : Timer) :
    Tracks name q (c.record (receive name token deadline)) := by
  obtain ⟨w, hw, hfollows⟩ := h.follows
  have hlook := hfollows.leads_next h.sound h.direct hsince hlatest
  have hrun := run_receive token deadline hw
  unfold Effect.Leads at hlook
  rcases hnext : w.next.run.run c.world.repository with ⟨fault | ⟨found, left⟩, r⟩
  · rw [hnext] at hlook hrun
    obtain ⟨hstore, hdirect, -⟩ := hlook
    refine h.record hrun hdirect hstore hw ?_ nofun
    exact (List.append_nil c.received).symm ▸ hfollows
  · rw [hnext] at hlook hrun
    obtain ⟨hstore, hdirect, hleft, hnone⟩ := hlook
    cases found with
    | none =>
      obtain ⟨hall, hpolls⟩ := hnone rfl
      refine h.record hrun hdirect hstore (SortedMap.get?_insert_self ..) hleft fun _ => ?_
      rw [record_eq hrun]
      change c.received ++ [] = Log.matching (if _ then _ else _) q
      rw [if_neg hpolls, List.append_nil]
      exact hall
    | some s =>
      exact h.record hrun hdirect hstore (SortedMap.get?_insert_self ..) hleft nofun

theorem resume (h : Tracks name q c) (hsince : 0 ≤ q.sinceRev) (hlatest : q.latestOnly = false) :
    Tracks name q (c.step name .resume) := by
  obtain ⟨w, hw, hfollows⟩ := h.follows
  have hfollows' := (List.append_nil c.received).symm ▸ hfollows
  rw [Course.step]
  split
  next name' token deadline look seen hwaits =>
    have hstill {x : Event Turn} {turn : Turn} (hx : x.run c.world = (turn, c.world))
        (hstate : turn.state? = none) : Tracks name q (c.record x) := by
      refine h.record hx h.direct rfl hw (hstate ▸ hfollows') fun _ => ?_
      rw [record_eq hx, hstate, if_pos rfl]
      exact (List.append_nil c.received).trans (h.settled _ hwaits trivial)
    rcases run_resumeReceiving token deadline look seen hw with hrun | hrun | hrun
    · exact hstill hrun rfl
    · have hcall := h.call hsince hlatest token deadline
      unfold Course.record at hcall ⊢
      rw [hrun]
      exact hcall
    · exact hstill hrun rfl
  next => exact h

theorem step (h : Tracks name q c) (hsince : 0 ≤ q.sinceRev) (hlatest : q.latestOnly = false)
    (o : Occasion) : Tracks name q (c.step name o) := by
  cases o with
  | elsewhere requests gate tick tokens => exact h.elsewhere requests gate tick tokens
  | call token deadline => exact h.call hsince hlatest token deadline
  | resume => exact h.resume hsince hlatest

theorem foldl_step (h : Tracks name q c) (hsince : 0 ≤ q.sinceRev) (hlatest : q.latestOnly = false)
    (occasions : List Occasion) : Tracks name q (occasions.foldl (Course.step name) c) := by
  induction occasions generalizing c with
  | nil => exact h
  | cons o occasions ih => exact ih (h.step hsince hlatest o)

theorem received_call (h : Tracks name q c) (hsince : 0 ≤ q.sinceRev)
    (hlatest : q.latestOnly = false)
    (hpasses : (c.world.repository.gate.enter .listStates).1 = none) {s : State}
    {rest : List State} (hnext : c.log.matching q = c.received ++ s :: rest)
    (token : Option String) (deadline : Timer) :
    (c.step name (.call token deadline)).received = c.received ++ [s] := by
  obtain ⟨w, hw, hfollows⟩ := h.follows
  have hlook := hfollows.leads_next h.sound h.direct hsince hlatest
  have hrun := run_receive token deadline hw
  unfold Effect.Leads at hlook
  rcases hnext' : w.next.run.run c.world.repository with ⟨fault | ⟨found, left⟩, r⟩
  · rw [hnext'] at hlook
    cases hpasses.symm.trans hlook.2.2
  · rw [hnext'] at hlook hrun
    obtain ⟨-, -, hleft, hnone⟩ := hlook
    cases found with
    | none =>
      have hlength := congrArg List.length ((hnone rfl).1.trans hnext)
      rw [List.length_append, List.length_cons] at hlength
      omega
    | some s' =>
      have hprefix : c.received ++ [s'] <+: c.received ++ s :: rest := hnext ▸ hleft.received_prefix
      obtain ⟨more, hmore⟩ := hprefix
      rw [List.append_assoc] at hmore
      obtain rfl : s' = s := (List.cons.inj (List.append_cancel_left hmore)).1
      change (c.record (receive name token deadline)).received = _
      rw [record_eq hrun]
      rfl

end Tracks

/-- A watcher hands out the entries of the log that match its query, in order and each once, however
its calls and what others do follow each other. Where a call gives up, all that its last poll could
find is handed out; and a call that can ask the store hands out the next entry. -/
theorem watcher_receives_each_match_once {name : String} {q : StateQuery} {poll : Span} {w : World}
    {before : List Store.Request} (hsince : 0 ≤ q.sinceRev) (hlatest : q.latestOnly = false)
    (hdirect : w.repository.front = .direct) (hstore : w.repository.store = Store.run before)
    (hnew : w.watchers.get? name = some (.new q w.repository poll)) (occasions : List Occasion) :
    let c := run name w occasions
    c.received <+: c.log.matching q ∧ c.received.Pairwise (fun e f => e.rev < f.rev) ∧
      (c.turn.any Turn.givesUp = true → c.received = c.polled.matching q) ∧
      ∀ s rest token deadline, c.log.matching q = c.received ++ s :: rest →
        (c.world.repository.gate.enter .listStates).1 = none →
        (c.step name (.call token deadline)).received = c.received ++ [s] := by
  intro c
  have hbegin : Tracks name q (begin w) := by
    have hsound : w.repository.store.log.Sound := hstore ▸ Store.sound_run before
    exact ⟨hdirect, hsound, ⟨_, hnew, Watcher.follows_new ..⟩, fun _ hturn => nomatch hturn⟩
  have h : Tracks name q c := hbegin.foldl_step hsince hlatest occasions
  obtain ⟨left, hleft, hfollows⟩ := h.follows
  refine ⟨hfollows.received_prefix, ?_, ?_, ?_⟩
  · exact (h.sound.pairwise_matching q).sublist hfollows.received_prefix.sublist
  · intro hgives
    obtain ⟨turn, hturn, hup⟩ := (Option.any_eq_true ..).1 hgives
    exact h.settled turn hturn (Turn.findsNothing_of_givesUp hup)
  · exact fun s rest token deadline hnext hpasses =>
      h.received_call hsince hlatest hpasses hnext token deadline

/-- Two commits come in while a watcher is used, and one more just before its third call is
cancelled. -/
theorem watcher_receives_each_match_once_of_three :
    let q : StateQuery := { limit := 1 }
    let poll := Span.ofSecs 1
    let fresh := World.new Instant.epoch .direct {} ∅
    let w := { fresh with watchers := fresh.watchers.insert "all" (.new q fresh.repository poll) }
    let commit (id : String) : Occasion :=
      .elsewhere [.commit Instant.epoch [.keep (.ofState (.new ⟨id⟩))]] .free 1 ∅
    let late : Timer := .ofDeadline 1000000000
    let occasions := [commit "a", commit "b", .call none late, .call none late,
      .call (some "stop") late, commit "c",
      .elsewhere [] .free 2 (SortedMap.insert ∅ "stop" true), .resume]
    let c := run "all" w occasions
    (0 ≤ q.sinceRev ∧ q.latestOnly = false ∧ w.repository.front = .direct ∧
      w.repository.store = Store.run [] ∧
      w.watchers.get? "all" = some (.new q w.repository poll)) ∧
      c.turn.any Turn.givesUp = true ∧
      c.received.map State.rev = [1, 2] ∧ c.log.entries.length = 3 ∧
      c.received <+: c.log.matching q ∧ c.received = c.polled.matching q := by
  intro q poll fresh w commit late occasions c
  have hnew : w.watchers.get? "all" = some (.new q w.repository poll) :=
    SortedMap.get?_insert_self ..
  have hstore : w.repository.store = Store.run [] := rfl
  have hall := watcher_receives_each_match_once (by decide) rfl rfl hstore hnew occasions
  have hgives : c.turn.any Turn.givesUp = true := by decide +kernel
  have hreceived : c.received.map State.rev = [1, 2] := by decide +kernel
  have hlength : c.log.entries.length = 3 := by decide +kernel
  exact ⟨⟨by decide, rfl, rfl, rfl, hnew⟩, hgives, hreceived, hlength, hall.1,
    hall.2.2.1 hgives⟩

end Course

end Scenario

end Workflow
