import Workflow.Proofs.Delays

/-!
# Reading all delayed states

Every item gets an offset beyond all that were handed out before. So a client that goes on behind
the last item it received meets each item once, whatever others put off and acknowledge between its
pages, and misses none that waits all the while.
-/

set_option autoImplicit false

namespace Workflow

/-! ### Handing out offsets -/

/-- The item of a delay that took effect. -/
def Command.item? : Command → Option Delayed
  | .delay r => r.result
  | _ => none

namespace Store

/-- The items that a call hands out, in order. -/
def handedOut (s : Store) : Request → List Delayed
  | .commit now parts =>
    match s.commit now parts with
    | .ok (_, done) => done.filterMap Command.item?
    | .error _ => []
  | .delay state dueAt => [(s.delay state dueAt).2]
  | _ => []

/-- The items that some calls hand out, in order. -/
def handouts (s : Store) : List Request → List Delayed
  | [] => []
  | r :: requests => s.handedOut r ++ (s.serve r).handouts requests

end Store

namespace Delays

/-- The items were handed out between two moments: their offsets increase beyond those before, and
whatever is new is one of them. -/
structure HandsOut (d later : Delays) (given : List Delayed) : Prop where
  lastOffset_le : d.lastOffset ≤ later.lastOffset
  increasing : given.Pairwise fun x y => x.offset < y.offset
  fresh : ∀ x ∈ given, d.lastOffset < x.offset ∧ x.offset ≤ later.lastOffset
  old_or_given : ∀ o x, later.items.get? o = some x → d.items.get? o = some x ∨ x ∈ given

variable {d later : Delays}

theorem handsOut_nil (h : d.Grows later)
    (hold : ∀ o x, later.items.get? o = some x → d.items.get? o = some x) :
    d.HandsOut later [] :=
  ⟨h.lastOffset_le, .nil, List.forall_mem_nil _, fun o x hx => .inl (hold o x hx)⟩

theorem HandsOut.append {latest : Delays} {given more : List Delayed} (h : d.HandsOut later given)
    (h' : later.HandsOut latest more) : d.HandsOut latest (given ++ more) := by
  have hle := h.lastOffset_le
  have hle' := h'.lastOffset_le
  refine ⟨Int.le_trans hle hle', ?_, ?_, ?_⟩
  · refine List.pairwise_append.2 ⟨h.increasing, h'.increasing, fun x hx y hy => ?_⟩
    have hfirst := (h.fresh x hx).2
    have hsecond := (h'.fresh y hy).1
    omega
  · intro x hx
    rcases List.mem_append.1 hx with hx | hx
    · have hgiven := h.fresh x hx
      omega
    · have hgiven := h'.fresh x hx
      omega
  · intro o x hx
    rcases h'.old_or_given o x hx with hbefore | hmore
    · exact (h.old_or_given o x hbefore).imp_right (List.mem_append_left _)
    · exact .inr (List.mem_append_right _ hmore)

theorem handsOut_push (d : Delays) (s : State) (dueAt : Instant) :
    d.HandsOut (d.push s dueAt).1 [(d.push s dueAt).2] := by
  refine ⟨(grows_push d s dueAt).lastOffset_le, List.pairwise_singleton .., ?_, ?_⟩
  · intro x hx
    obtain rfl := List.mem_singleton.1 hx
    rw [offset_push, lastOffset_push]
    omega
  · intro o x hx
    rw [get?_push] at hx
    split at hx
    next =>
      cases hx
      exact .inr List.mem_cons_self
    next => exact .inl hx

theorem handsOut_conclude (d : Delays) (now : Instant) (drafts : SortedMap StateId Draft)
    (c : Command) :
    d.HandsOut (Store.conclude now drafts d c).1
      (Store.conclude now drafts d c).2.item?.toList := by
  unfold Store.conclude
  split
  next => exact handsOut_push ..
  next c' hnot =>
    have hnone : (c.adopt drafts).item? = none := by
      unfold Command.item?
      split
      next r heq => exact absurd heq (hnot r)
      next => rfl
    rw [hnone]
    exact handsOut_nil (grows_refl d) fun _ _ hx => hx

theorem handsOut_concludeAll (d : Delays) (now : Instant) (drafts : SortedMap StateId Draft)
    (parts : List Command) :
    d.HandsOut (Store.concludeAll now drafts d parts).1
      ((Store.concludeAll now drafts d parts).2.filterMap Command.item?) := by
  induction parts generalizing d with
  | nil => exact handsOut_nil (grows_refl d) fun _ _ hx => hx
  | cons c rest ih =>
    have hhere := handsOut_conclude d now drafts c
    have hrest := ih (Store.conclude now drafts d c).1
    have hsplit : (Store.concludeAll now drafts d (c :: rest)).2.filterMap Command.item? =
        (Store.conclude now drafts d c).2.item?.toList ++
          (Store.concludeAll now drafts (Store.conclude now drafts d c).1 rest).2.filterMap
            Command.item? := by
      rw [Store.concludeAll, List.filterMap_cons]
      cases (Store.conclude now drafts d c).2.item? <;> rfl
    rw [hsplit]
    exact hhere.append hrest

end Delays

namespace Store

theorem handsOut_serve (s : Store) (r : Request) :
    s.delays.HandsOut (s.serve r).delays (s.handedOut r) := by
  cases r with
  | commit now parts =>
    cases hcommit : s.commit now parts with
    | error fault =>
      rw [serve_commit_of_error hcommit, handedOut, hcommit]
      exact Delays.handsOut_nil (Delays.grows_refl _) fun _ _ hx => hx
    | ok stored =>
      obtain ⟨stored, done⟩ := stored
      rw [serve_commit_of_ok hcommit, handedOut, hcommit]
      obtain ⟨st, work, -, hdone⟩ := commit_eq_ok_iff.1 hcommit
      obtain ⟨rfl, rfl⟩ := Prod.mk.inj hdone
      exact Delays.handsOut_concludeAll ..
  | delay state dueAt => exact Delays.handsOut_push ..
  | acknowledge offset =>
    exact Delays.handsOut_nil (Delays.grows_acknowledge ..) fun _ _ hx =>
      (Delays.get?_of_acknowledge hx).2
  | storeBlob blob => exact Delays.handsOut_nil (Delays.grows_refl _) fun _ _ hx => hx

theorem handsOut_foldl_serve (s : Store) (requests : List Request) :
    s.delays.HandsOut (requests.foldl serve s).delays (s.handouts requests) := by
  induction requests generalizing s with
  | nil => exact Delays.handsOut_nil (Delays.grows_refl _) fun _ _ hx => hx
  | cons r requests ih => exact (handsOut_serve s r).append (ih (s.serve r))

end Store

/-! ### Scans -/

theorem DelayQuery.accepts_after {q : DelayQuery} {offset : Int} (h : q.offset ≤ offset)
    (x : Delayed) :
    { q with offset := offset : DelayQuery }.accepts x =
      (decide (offset < x.offset) && q.accepts x) := by
  unfold accepts
  by_cases hlt : offset < x.offset
  · have hlt' : q.offset < x.offset := by omega
    simp [hlt, hlt']
  · simp [hlt]

theorem DelayQuery.offset_lt_of_accepts {q : DelayQuery} {x : Delayed} (h : q.accepts x = true) :
    q.offset < x.offset := by
  unfold accepts at h
  simp only [Bool.and_eq_true, decide_eq_true_eq] at h
  exact h.1.1

namespace Delays

/-- Where a search goes on after its page: behind the last item, if there is any. -/
def next (d : Delays) (q : DelayQuery) : Int :=
  (d.page q).items.getLast?.elim q.offset Delayed.offset

variable {d : Delays} {q : DelayQuery}

theorem next_le_furthest (d : Delays) (q : DelayQuery) :
    d.next q ≤ furthest q.offset (d.page q).items := by
  obtain ⟨hstart, hitems⟩ := le_furthest q.offset (d.page q).items
  unfold next
  cases hlast : (d.page q).items.getLast? with
  | none => exact hstart
  | some x => exact hitems x (List.mem_of_getLast? hlast)

section

variable (h : d.Sound)

include h

theorem Sound.pairwise_page (q : DelayQuery) :
    (d.page q).items.Pairwise fun x y => x.offset < y.offset := by
  rw [page_eq_ofList]
  exact (h.pairwise_values.filter q.accepts).sublist (List.take_sublist ..)

theorem Sound.offset_le_next (q : DelayQuery) : q.offset ≤ d.next q := by
  unfold next
  cases hlast : (d.page q).items.getLast? with
  | none => exact Int.le_refl _
  | some x =>
    have haccepts := (h.get?_of_mem_page (List.mem_of_getLast? hlast)).2
    exact Int.le_of_lt (DelayQuery.offset_lt_of_accepts haccepts)

theorem Sound.le_next {x : Delayed} (hx : x ∈ (d.page q).items) : x.offset ≤ d.next q := by
  have hsorted := h.pairwise_page q
  unfold next
  cases hlast : (d.page q).items.getLast? with
  | none =>
    rw [List.getLast?_eq_none_iff.1 hlast] at hx
    cases hx
  | some y =>
    obtain ⟨before, hitems⟩ := List.getLast?_eq_some_iff.1 hlast
    rw [hitems] at hx hsorted
    rcases List.mem_append.1 hx with hbefore | hself
    · exact Int.le_of_lt ((List.pairwise_append.1 hsorted).2.2 x hbefore y List.mem_cons_self)
    · obtain rfl := List.mem_singleton.1 hself
      exact Int.le_refl _

theorem Sound.length_after_page (hmore : (d.page q).more = true) :
    (d.items.values.filter { q with offset := d.next q : DelayQuery }.accepts).length <
      (d.items.values.filter q.accepts).length := by
  have hsorted := h.pairwise_values.filter q.accepts
  have hpage := d.page_eq_ofList q
  rw [hpage] at hmore
  have hfull : (d.page q).items.length = q.pageLength := by
    rw [hpage]
    exact Page.length_items_of_more hmore
  have hlonger := Page.more_ofList_iff.1 hmore
  have hpos := q.pageLength_pos
  cases hlast : (d.page q).items.getLast? with
  | none =>
    rw [List.getLast?_eq_none_iff.1 hlast, List.length_nil] at hfull
    omega
  | some x =>
    have hnext : d.next q = x.offset := by rw [next, hlast, Option.elim_some]
    have hle := h.offset_le_next q
    have hleft : d.items.values.filter { q with offset := d.next q : DelayQuery }.accepts =
        (d.items.values.filter q.accepts).drop q.pageLength := by
      rw [← Page.filter_after_getLast hsorted (hpage ▸ hlast), List.filter_filter, ← hnext]
      exact List.filter_congr fun y _ => DelayQuery.accepts_after hle y
    rw [hleft, List.length_drop]
    omega

end

end Delays

/-- A client that reads delayed states page by page. -/
structure Scan where
  /-- The search, behind the last item received. -/
  query : DelayQuery
  received : List Delayed
  /-- Whether there are more, as the last page says. -/
  more : Bool

namespace Scan

def begin (q : DelayQuery) : Scan := ⟨q, [], true⟩

/-- Reads a page and goes on behind its last item; does nothing once there are no more. -/
def read (c : Scan) (d : Delays) : Scan :=
  if c.more then
    let page := d.page c.query
    ⟨{ c.query with offset := d.next c.query }, c.received ++ page.items, page.more⟩
  else c

variable {q : DelayQuery} {c : Scan} {d : Delays}

theorem read_of_more (h : c.more = true) (d : Delays) :
    c.read d =
      ⟨{ c.query with offset := d.next c.query }, c.received ++ (d.page c.query).items,
        (d.page c.query).more⟩ :=
  if_pos h

theorem read_of_done (h : c.more = false) (d : Delays) : c.read d = c := by
  unfold read
  rw [h]
  rfl

/-- What a client received are items that its search accepts, in order, up to where it goes on. -/
structure Sound (q : DelayQuery) (c : Scan) : Prop where
  query : c.query = { q with offset := c.query.offset }
  offset_le : q.offset ≤ c.query.offset
  increasing : c.received.Pairwise fun x y => x.offset < y.offset
  reached : ∀ x ∈ c.received, x.offset ≤ c.query.offset
  accepted : ∀ x ∈ c.received, q.accepts x = true

theorem sound_begin (q : DelayQuery) : (begin q).Sound q :=
  ⟨rfl, Int.le_refl _, .nil, List.forall_mem_nil _, List.forall_mem_nil _⟩

theorem Sound.accepts_iff (h : c.Sound q) {x : Delayed} :
    c.query.accepts x = true ↔ c.query.offset < x.offset ∧ q.accepts x = true := by
  rw [h.query, DelayQuery.accepts_after h.offset_le, Bool.and_eq_true, decide_eq_true_iff]

theorem Sound.read (h : c.Sound q) (hd : d.Sound) : (c.read d).Sound q := by
  cases hmore : c.more with
  | false =>
    rw [read_of_done hmore]
    exact h
  | true =>
    have hpage (x : Delayed) (hx : x ∈ (d.page c.query).items) :
        c.query.offset < x.offset ∧ q.accepts x = true :=
      h.accepts_iff.1 (hd.get?_of_mem_page hx).2
    have hnext := hd.offset_le_next c.query
    rw [read_of_more hmore]
    refine ⟨?query, Int.le_trans h.offset_le hnext, ?increasing, ?reached, ?accepted⟩
    case query => rw [h.query]
    case increasing =>
      refine List.pairwise_append.2 ⟨h.increasing, hd.pairwise_page _, fun x hx y hy => ?_⟩
      exact Int.lt_of_le_of_lt (h.reached x hx) (hpage y hy).1
    case reached =>
      intro x hx
      rcases List.mem_append.1 hx with hx | hx
      · exact Int.le_trans (h.reached x hx) hnext
      · exact hd.le_next hx
    case accepted =>
      intro x hx
      rcases List.mem_append.1 hx with hx | hx
      · exact h.accepted x hx
      · exact (hpage x hx).2

/-- The item was received, or the scan goes on before it. -/
def Meets (c : Scan) (x : Delayed) : Prop :=
  x ∈ c.received ∨ c.more = true ∧ c.query.offset < x.offset

theorem Meets.read {x : Delayed} (h : c.Meets x) (hc : c.Sound q) (hd : d.Sound)
    (haccepts : q.accepts x = true) (hx : d.items.get? x.offset = some x) :
    (c.read d).Meets x := by
  rcases h with hreceived | ⟨hmore, hbefore⟩
  · cases hmore : c.more with
    | false =>
      rw [read_of_done hmore]
      exact .inl hreceived
    | true =>
      rw [read_of_more hmore]
      exact .inl (List.mem_append_left _ hreceived)
  · have hfound := hc.accepts_iff.2 ⟨hbefore, haccepts⟩
    rw [read_of_more hmore]
    by_cases hmem : x ∈ (d.page c.query).items
    · exact .inl (List.mem_append_right _ hmem)
    · have hmissed := mt (hd.mem_page hx hfound) hmem
      rw [not_or, Bool.not_eq_false, Int.not_le] at hmissed
      exact .inr ⟨hmissed.1, Int.lt_of_le_of_lt (d.next_le_furthest _) hmissed.2⟩

theorem foldl_read_of_done (h : c.more = false) (pages : List Delays) : pages.foldl read c = c := by
  induction pages with
  | nil => rfl
  | cons d pages ih => rw [List.foldl_cons, read_of_done h, ih]

/-- A scan of items that do not change ends, as each page but the last leaves fewer of them. -/
theorem done_of_unchanged (hd : d.Sound) {n : Nat}
    (h : (d.items.values.filter c.query.accepts).length < n) :
    ((List.replicate n d).foldl read c).more = false := by
  induction n generalizing c with
  | zero => omega
  | succ n ih =>
    rw [List.replicate_succ, List.foldl_cons]
    cases hmore : (c.read d).more with
    | false => rw [foldl_read_of_done hmore, hmore]
    | true =>
      refine ih ?_
      cases hbefore : c.more with
      | false =>
        rw [read_of_done hbefore, hbefore] at hmore
        cases hmore
      | true =>
        rw [read_of_more hbefore] at hmore ⊢
        have hless := hd.length_after_page hmore
        exact Nat.lt_of_lt_of_le hless (Nat.le_of_lt_succ h)

end Scan

namespace Store

/-- The delayed states as each page finds them, with some calls of others before each. -/
def pages (s : Store) : List (List Request) → List Delays
  | [] => []
  | requests :: rounds =>
    let s := requests.foldl serve s
    s.delays :: s.pages rounds

/-- A scan with some calls of others before each page. -/
def scan (s : Store) (q : DelayQuery) (rounds : List (List Request)) : Scan :=
  (s.pages rounds).foldl Scan.read (.begin q)

theorem sound_pages {s : Store} (h : s.delays.Sound) (rounds : List (List Request)) :
    ∀ d ∈ s.pages rounds, d.Sound := by
  induction rounds generalizing s with
  | nil => exact List.forall_mem_nil _
  | cons requests rounds ih =>
    have hnext := delays_foldl_serve h requests
    exact List.forall_mem_cons.2 ⟨hnext, ih hnext⟩

theorem pages_append (s : Store) (rounds : List (List Request)) (n : Nat) :
    s.pages (rounds ++ List.replicate n []) =
      s.pages rounds ++ List.replicate n (rounds.flatten.foldl serve s).delays := by
  induction rounds generalizing s with
  | nil =>
    induction n with
    | zero => rfl
    | succ n ih => exact congrArg (s.delays :: ·) ih
  | cons requests rounds ih =>
    rw [List.cons_append, pages, pages, ih, List.flatten_cons, List.foldl_append]
    rfl

end Store

namespace Scan

variable {q : DelayQuery}

theorem sound_foldl_read {pages : List Delays} (hpages : ∀ d ∈ pages, d.Sound) :
    (pages.foldl read (begin q)).Sound q ∧
      ∀ x ∈ (pages.foldl read (begin q)).received, ∃ d ∈ pages, d.items.get? x.offset = some x := by
  induction pages using List.reverseRecOn with
  | nil => exact ⟨sound_begin q, List.forall_mem_nil _⟩
  | append_singleton pages d ih =>
    obtain ⟨hsound, hfound⟩ := ih fun t ht => hpages t (List.mem_append_left _ ht)
    have hd := hpages d (List.mem_append_right _ List.mem_cons_self)
    rw [List.foldl_append, List.foldl_cons, List.foldl_nil]
    refine ⟨hsound.read hd, fun x hx => ?_⟩
    have hearlier (hx : x ∈ (pages.foldl read (begin q)).received) :
        ∃ t ∈ pages ++ [d], t.items.get? x.offset = some x := by
      obtain ⟨t, ht, hget⟩ := hfound x hx
      exact ⟨t, List.mem_append_left _ ht, hget⟩
    cases hmore : (pages.foldl read (begin q)).more with
    | false =>
      rw [read_of_done hmore] at hx
      exact hearlier hx
    | true =>
      rw [read_of_more hmore] at hx
      rcases List.mem_append.1 hx with hx | hx
      · exact hearlier hx
      · exact ⟨d, List.mem_append_right _ List.mem_cons_self, (hd.get?_of_mem_page hx).1⟩

theorem meets_foldl_read {pages : List Delays} (hpages : ∀ d ∈ pages, d.Sound) {x : Delayed}
    (haccepts : q.accepts x = true) (hx : ∀ d ∈ pages, d.items.get? x.offset = some x) :
    (pages.foldl read (begin q)).Meets x := by
  induction pages using List.reverseRecOn with
  | nil => exact .inr ⟨rfl, DelayQuery.offset_lt_of_accepts haccepts⟩
  | append_singleton pages d ih =>
    have hbefore (t : Delays) (ht : t ∈ pages) : t.Sound := hpages t (List.mem_append_left _ ht)
    have hmeets := ih hbefore fun t ht => hx t (List.mem_append_left _ ht)
    rw [List.foldl_append, List.foldl_cons, List.foldl_nil]
    exact hmeets.read (sound_foldl_read hbefore).1
      (hpages d (List.mem_append_right _ List.mem_cons_self)) haccepts
      (hx d (List.mem_append_right _ List.mem_cons_self))

end Scan

/-- Offsets are handed out in increasing order and never again, and an item that waits stands under
its own. A client that reads page by page, while others put off and acknowledge, receives items of
its search in increasing order; it comes to an end once the others stop, and has then received every
item that was there for all pages. -/
theorem delayed_states_are_read_once_and_in_full (before : List Store.Request) (q : DelayQuery)
    (rounds : List (List Store.Request)) :
    let s := Store.run before
    let handed := Store.empty.handouts (before ++ rounds.flatten)
    let c := s.scan q rounds
    let last := rounds.flatten.foldl Store.serve s
    (handed.Pairwise fun x y => x.offset < y.offset) ∧
      (∀ o x, last.delays.items.get? o = some x → x.offset = o ∧ x ∈ handed) ∧
      (c.received.Pairwise fun x y => x.offset < y.offset) ∧
      (∀ x ∈ c.received,
        q.accepts x = true ∧ ∃ d ∈ s.pages rounds, d.items.get? x.offset = some x) ∧
      (c.more = false → ∀ x, q.accepts x = true →
        (∀ d ∈ s.pages rounds, d.items.get? x.offset = some x) → x ∈ c.received) ∧
      ∀ n, last.delays.items.size < n →
        (s.scan q (rounds ++ List.replicate n [])).more = false := by
  intro s handed c last
  have hs : s.delays.Sound := Store.delays_foldl_serve Delays.sound_empty before
  have hpages := Store.sound_pages hs rounds
  have hlast : last.delays.Sound := Store.delays_foldl_serve hs rounds.flatten
  have hhanded := Store.handsOut_foldl_serve .empty (before ++ rounds.flatten)
  rw [← Store.run, Store.run_append] at hhanded
  obtain ⟨hsound, hfound⟩ := Scan.sound_foldl_read (q := q) hpages
  refine ⟨hhanded.increasing, ?_, hsound.increasing, ?_, ?_, ?_⟩
  · intro o x hx
    exact ⟨hlast.offset_eq o x hx, (hhanded.old_or_given o x hx).resolve_left nofun⟩
  · exact fun x hx => ⟨hsound.accepted x hx, hfound x hx⟩
  · intro hdone x haccepts hx
    refine (Scan.meets_foldl_read hpages haccepts hx).resolve_right fun hbefore => ?_
    cases hdone.symm.trans hbefore.1
  · intro n hn
    unfold Store.scan
    rw [Store.pages_append, List.foldl_append]
    refine Scan.done_of_unchanged hlast (Nat.lt_of_le_of_lt ?_ hn)
    refine Nat.le_trans (List.length_filter_le ..) ?_
    rw [SortedMap.values, List.length_map, SortedMap.size]

/-- Between its pages of one item, the second of three items is acknowledged and another is put
off. -/
theorem delayed_states_are_read_once_and_in_full_of_three :
    let due (n : Nat) := Instant.epoch + Span.ofSecs n
    let put (n : Nat) : Store.Request := .delay (.new ⟨"w"⟩) (due n)
    let before := [put 30, put 10, put 20]
    let q : DelayQuery := { limit := 1 }
    let rounds : List (List Store.Request) := [[], [.acknowledge 2, put 5], []]
    let x : Delayed := ⟨.new ⟨"w"⟩, due 20, 3⟩
    let s := Store.run before
    let c := s.scan q rounds
    (c.more = false ∧ q.accepts x = true ∧ ∀ d ∈ s.pages rounds, d.items.get? x.offset = some x) ∧
      c.received.map Delayed.offset = [1, 3, 4] ∧ x ∈ c.received ∧
      (s.scan q (rounds.take 1 ++ List.replicate 4 [])).more = false := by
  intro due put before q rounds x s c
  have hdone : c.more = false := by decide +kernel
  have haccepts : q.accepts x = true := by decide
  have hwaits : ∀ d ∈ s.pages rounds, d.items.get? x.offset = some x := by decide +kernel
  have hoffsets : c.received.map Delayed.offset = [1, 3, 4] := by decide +kernel
  have hsize : ((rounds.take 1).flatten.foldl Store.serve s).delays.items.size < 4 := by
    decide +kernel
  obtain ⟨-, -, -, -, hfull, -⟩ := delayed_states_are_read_once_and_in_full before q rounds
  obtain ⟨-, -, -, -, -, hends⟩ := delayed_states_are_read_once_and_in_full before q (rounds.take 1)
  exact ⟨⟨hdone, haccepts, hwaits⟩, hoffsets, hfull hdone x haccepts hwaits, hends 4 hsize⟩

end Workflow
