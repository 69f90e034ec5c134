import Workflow.State

/-!
# Queries

Searches of the log and of the delayed states, answered in pages.
-/

set_option autoImplicit false

namespace Workflow

/-- The first items of an answer, and whether there are more. -/
structure Page (α : Type) where
  items : List α
  more : Bool
  deriving DecidableEq

namespace Page

variable {α : Type}

def ofList (limit : Nat) (l : List α) : Page α := ⟨l.take limit, limit < l.length⟩

/-- What a search answers: it goes through the entries and takes up what they come to, until one
more comes when the page is full. -/
def collect {β : Type} (limit : Nat) (pick : β → Option α) (taken : List α) : List β → Page α
  | [] => ⟨taken, false⟩
  | entry :: rest =>
    match pick entry with
    | none => collect limit pick taken rest
    | some a =>
      if taken.length = limit then ⟨taken, true⟩ else collect limit pick (taken ++ [a]) rest

theorem collect_eq_ofList {β : Type} {limit : Nat} (pick : β → Option α) {taken : List α}
    (entries : List β) (hroom : taken.length ≤ limit) :
    collect limit pick taken entries = ofList limit (taken ++ entries.filterMap pick) := by
  induction entries generalizing taken with
  | nil => simp [collect, ofList, List.take_of_length_le hroom, hroom]
  | cons entry rest ih =>
    unfold collect
    split
    next hskip => rw [List.filterMap_cons_none hskip, ih hroom]
    next a hpick =>
      rw [List.filterMap_cons_some hpick]
      split
      next hfull =>
        rw [ofList, ← hfull, List.take_left]
        simp
      next hfull =>
        have htake : (taken ++ [a]).length ≤ limit := by
          rw [List.length_append, List.length_singleton]
          omega
        rw [ih htake, List.append_assoc, List.singleton_append]

theorem collect_some (limit : Nat) (entries : List α) :
    collect limit some [] entries = ofList limit entries := by
  rw [collect_eq_ofList _ _ (Nat.zero_le _), List.nil_append, List.filterMap_some]

theorem items_ofList (limit : Nat) (l : List α) : (ofList limit l).items = l.take limit := rfl

theorem length_collect_le {β : Type} {limit : Nat} (pick : β → Option α) {taken : List α}
    (entries : List β) (hroom : taken.length ≤ limit) :
    (collect limit pick taken entries).items.length ≤ limit := by
  rw [collect_eq_ofList pick entries hroom]
  exact List.length_take_le ..

theorem more_ofList_iff {limit : Nat} {l : List α} :
    (ofList limit l).more = true ↔ limit < l.length := by
  simp [ofList]

/-- A page with more to come is full. -/
theorem length_items_of_more {limit : Nat} {l : List α} (h : (ofList limit l).more = true) :
    (ofList limit l).items.length = limit := by
  rw [items_ofList, List.length_take]
  exact Nat.min_eq_left (Nat.le_of_lt (more_ofList_iff.1 h))

/-- A page without more to come holds everything. -/
theorem items_of_not_more {limit : Nat} {l : List α} (h : (ofList limit l).more = false) :
    (ofList limit l).items = l := by
  have hlen : ¬ limit < l.length := by simpa [ofList] using h
  rw [items_ofList, List.take_of_length_le (Nat.not_lt.1 hlen)]

/-- What comes after the last item of a page is what the page leaves out. -/
theorem filter_after_getLast {key : α → Int} {limit : Nat} {l : List α} {x : α}
    (h : l.Pairwise fun a b => key a < key b)
    (hlast : (ofList limit l).items.getLast? = some x) :
    l.filter (fun a => key x < key a) = l.drop limit := by
  obtain ⟨before, htake⟩ := List.getLast?_eq_some_iff.1 hlast
  rw [items_ofList] at htake
  have hsplit : l = before ++ x :: l.drop limit := by
    rw [List.append_cons, ← htake, List.take_append_drop]
  have hpairs := h
  rw [hsplit] at hpairs
  obtain ⟨-, hafter, hbefore⟩ := List.pairwise_append.1 hpairs
  have hskipped : before.filter (fun a => key x < key a) = [] := by
    refine List.filter_eq_nil_iff.2 fun a ha => ?_
    have hlt := hbefore a ha x List.mem_cons_self
    simp only [decide_eq_true_eq]
    omega
  have hkept : (l.drop limit).filter (fun a => key x < key a) = l.drop limit :=
    List.filter_eq_self.2 fun a ha => decide_eq_true ((List.pairwise_cons.1 hafter).1 a ha)
  rw [congrArg (List.filter _) hsplit, List.filter_append, hskipped, List.nil_append,
    List.filter_cons_of_neg (by simp), hkept]

end Page

structure StateQuery where
  /-- Only later revisions; if negative, only the last entry of the log. -/
  sinceRev : Int := 0
  sinceTime : Option Instant := none
  /-- Only states that carry all labels of one of these; without any, all states. -/
  labels : List Notes := []
  latestOnly : Bool := false
  /-- The length of a page; `0` for the usual one. -/
  limit : Nat := 50
  deriving DecidableEq

namespace StateQuery

def usualLimit : Nat := 50

def since (rev : Int) : StateQuery := { sinceRev := rev }

def last : StateQuery := { sinceRev := -1, limit := 1 }

def pageLength (q : StateQuery) : Nat := if q.limit = 0 then usualLimit else q.limit

theorem pageLength_pos (q : StateQuery) : 0 < q.pageLength := by
  unfold pageLength usualLimit
  split <;> omega

/-- Whether a state passes the filters of labels and time. -/
def accepts (q : StateQuery) (s : State) : Bool :=
  (q.labels.isEmpty || q.labels.any s.carries) &&
    match q.sinceTime with
    | none => true
    | some since => s.committedAt.any (since ≤ ·)

end StateQuery

structure DelayQuery where
  since : Instant := Instant.epoch
  before : Instant := Instant.latest
  offset : Int := 0
  /-- The length of a page; `0` for the usual one. -/
  limit : Nat := 500
  deriving DecidableEq

namespace DelayQuery

def usualLimit : Nat := 500

def pageLength (q : DelayQuery) : Nat := if q.limit = 0 then usualLimit else q.limit

theorem pageLength_pos (q : DelayQuery) : 0 < q.pageLength := by
  unfold pageLength usualLimit
  split <;> omega

/-- Whether an item lies in the window and after the offset. -/
def accepts (q : DelayQuery) (d : Delayed) : Bool :=
  q.offset < d.offset && q.since ≤ d.dueAt && d.dueAt < q.before

end DelayQuery

end Workflow
