import Workflow.Proofs.Lookup

/-!
# Searching the log in pages

A search finds the entries behind its start that pass its filters (`Log.Finds`), and a page holds
the first of them. A client that goes on behind the last entry of each page comes to an end and has
then read all that the search finds (`Log.Reads`).
-/

set_option autoImplicit false

namespace Workflow

theorem StateQuery.accepts_iff {q : StateQuery} {s : State} :
    q.accepts s = true ↔
      (q.labels = [] ∨ ∃ labels ∈ q.labels, ∀ name value,
        labels.get? name = some value → s.labels.get? name = some value) ∧
      ∀ since, q.sinceTime = some since → ∃ time, s.committedAt = some time ∧ since ≤ time := by
  rw [accepts, Bool.and_eq_true, Bool.or_eq_true, List.isEmpty_iff, List.any_eq_true]
  simp only [State.carries_iff]
  refine and_congr_right fun _ => ?_
  cases q.sinceTime with
  | none => simp
  | some since => simp [Option.any_eq_true]

namespace Log

/-- Whether an entry lies behind the start of a search: after a revision, or at the end of the log
if the revision is negative. -/
def isBehind (l : Log) (sinceRev : Int) (e : State) : Bool :=
  if sinceRev < 0 then e.rev = l.head else sinceRev < e.rev

/-- The entries that a search finds, oldest first. -/
def found (l : Log) (q : StateQuery) : List State :=
  l.entries.filter fun e =>
    l.isBehind q.sinceRev e && (q.accepts e && (!q.latestOnly || l.Newest e))

/-- The search finds an entry. -/
structure Finds (l : Log) (q : StateQuery) (e : State) : Prop where
  mem : e ∈ l.entries
  behind : if q.sinceRev < 0 then e.rev = l.head else q.sinceRev < e.rev
  labelled : q.labels = [] ∨ ∃ labels ∈ q.labels, ∀ name value,
    labels.get? name = some value → e.labels.get? name = some value
  recent : ∀ since, q.sinceTime = some since → ∃ time, e.committedAt = some time ∧ since ≤ time
  newest : q.latestOnly = true → ∀ f ∈ l.entries, f.id = e.id → f.rev ≤ e.rev

/-- What a client receives that reads a search page by page: it goes on behind the last entry of a
page as long as there are more. -/
inductive Reads (l : Log) : StateQuery → List State → Prop
  | last {q : StateQuery} (hdone : (l.page q).more = false) : Reads l q (l.page q).items
  | next {q : StateQuery} {e : State} {rest : List State} (hmore : (l.page q).more = true)
      (hlast : (l.page q).items.getLast? = some e)
      (hrest : Reads l { q with sinceRev := e.rev } rest) : Reads l q ((l.page q).items ++ rest)

variable {l : Log} {q : StateQuery}

theorem isBehind_iff {sinceRev : Int} {e : State} :
    l.isBehind sinceRev e = true ↔
      if sinceRev < 0 then e.rev = l.head else sinceRev < e.rev := by
  unfold isBehind
  split
  · exact decide_eq_true_iff
  · exact decide_eq_true_iff

theorem mem_found_iff {e : State} : e ∈ l.found q ↔ l.Finds q e := by
  rw [found, List.mem_filter, Bool.and_eq_true, Bool.and_eq_true, isBehind_iff,
    StateQuery.accepts_iff, Bool.or_eq_true, decide_eq_true_iff, Bool.not_eq_true']
  constructor
  · rintro ⟨hmem, hbehind, ⟨hlabels, htime⟩, hnewest⟩
    refine ⟨hmem, hbehind, hlabels, htime, fun hlatest => ?_⟩
    rcases hnewest with hall | hnewest
    · rw [hlatest] at hall
      cases hall
    · exact hnewest.2
  · intro h
    refine ⟨h.mem, h.behind, ⟨h.labelled, h.recent⟩, ?_⟩
    cases hlatest : q.latestOnly with
    | false => exact .inl rfl
    | true => exact .inr ⟨h.mem, h.newest hlatest⟩

theorem found_since {rev : Int} (hsince : 0 ≤ q.sinceRev) (hle : q.sinceRev ≤ rev) :
    l.found { q with sinceRev := rev } = (l.found q).filter fun e => rev < e.rev := by
  rw [found, found, List.filter_filter]
  refine List.filter_congr fun e _ => ?_
  show (l.isBehind rev e && (q.accepts e && (!q.latestOnly || l.Newest e))) = _
  have hrev : ¬ rev < 0 := by omega
  have hstart : ¬ q.sinceRev < 0 := by omega
  rw [isBehind, isBehind, if_neg hrev, if_neg hstart]
  by_cases hlt : rev < e.rev
  · have hlt' : q.sinceRev < e.rev := by omega
    simp [hlt, hlt']
  · simp [hlt]

section

variable (h : l.Sound)

include h

theorem Sound.pairwise_found (q : StateQuery) :
    (l.found q).Pairwise fun e f => e.rev < f.rev :=
  h.rev_lt.filter _

theorem Sound.drop_startOf (sinceRev : Int) :
    l.entries.drop (l.startOf sinceRev) = l.entries.filter (l.isBehind sinceRev) := by
  have hdrop := filter_lt_rev (Nat.zero_le (l.startOf sinceRev)) fun p e he => by
    have hrev := h.numbered p e he
    omega
  rw [Nat.sub_zero] at hdrop
  rw [← hdrop]
  refine List.filter_congr fun e he => ?_
  obtain ⟨hpos, hle⟩ := h.rev_of_mem he
  rw [Bool.eq_iff_iff, isBehind_iff, decide_eq_true_iff]
  unfold startOf
  unfold head at hle ⊢
  split
  next => omega
  next => omega

theorem Sound.page_eq_found (q : StateQuery) :
    l.page q = Page.ofList q.pageLength (l.found q) := by
  have hfilter : (l.entries.zipIdx.drop (l.startOf q.sinceRev)).filter
        (fun e => q.accepts e.1 && (!q.latestOnly || l.isLatest e)) =
      (l.entries.zipIdx.drop (l.startOf q.sinceRev)).filter
        fun e => q.accepts e.1 && (!q.latestOnly || l.Newest e.1) :=
    List.filter_congr fun x hx => by rw [h.isLatest_eq (List.mem_of_mem_drop hx)]
  have hfst : (l.entries.zipIdx.drop (l.startOf q.sinceRev)).map Prod.fst =
      l.entries.filter (l.isBehind q.sinceRev) := by
    rw [List.map_drop, List.zipIdx_map_fst, h.drop_startOf]
  have hfound : l.found q = (l.entries.filter (l.isBehind q.sinceRev)).filter
      fun e => q.accepts e && (!q.latestOnly || l.Newest e) := by
    rw [found, List.filter_filter]
    exact List.filter_congr fun e _ => Bool.and_comm _ _
  rw [page_eq_ofList, hfilter, hfound, ← hfst, List.filter_map]
  rfl

/-! ### Reading page by page -/

theorem Sound.found_after_page (hsince : 0 ≤ q.sinceRev) {e : State}
    (hlast : (l.page q).items.getLast? = some e) :
    0 ≤ e.rev ∧ l.found { q with sinceRev := e.rev } = (l.found q).drop q.pageLength := by
  rw [h.page_eq_found, Page.items_ofList] at hlast
  have hfinds : l.Finds q e :=
    mem_found_iff.1 (List.mem_of_mem_take (List.mem_of_getLast? hlast))
  have hlt := hfinds.behind
  rw [if_neg (by omega)] at hlt
  refine ⟨by omega, ?_⟩
  rw [found_since hsince (Int.le_of_lt hlt)]
  exact Page.filter_after_getLast (h.pairwise_found q) hlast

theorem Reads.eq_found {read : List State} (hread : l.Reads q read) (hsince : 0 ≤ q.sinceRev) :
    read = l.found q := by
  induction hread with
  | last hdone =>
    rw [h.page_eq_found] at hdone ⊢
    exact Page.items_of_not_more hdone
  | @next q e rest hmore hlast hrest ih =>
    obtain ⟨hrev, hafter⟩ := h.found_after_page hsince hlast
    rw [ih hrev, hafter, h.page_eq_found, Page.items_ofList]
    exact List.take_append_drop _ _

theorem Sound.reads_found (hsince : 0 ≤ q.sinceRev) : l.Reads q (l.found q) := by
  induction hlength : (l.found q).length using Nat.strong_induction_on generalizing q with
  | _ n ih =>
    cases hmore : (l.page q).more with
    | false =>
      have hread := Reads.last hmore
      rwa [Reads.eq_found h hread hsince] at hread
    | true =>
      have hmore' := hmore
      rw [h.page_eq_found] at hmore'
      have hfull := Page.length_items_of_more hmore'
      have hlonger := Page.more_ofList_iff.1 hmore'
      have hpos := q.pageLength_pos
      rw [← h.page_eq_found] at hfull
      cases hlast : (l.page q).items.getLast? with
      | none =>
        rw [List.getLast?_eq_none_iff.1 hlast, List.length_nil] at hfull
        omega
      | some e =>
        obtain ⟨hrev, hafter⟩ := h.found_after_page hsince hlast
        have hshorter : (l.found { q with sinceRev := e.rev }).length < n := by
          rw [hafter, List.length_drop]
          omega
        have hread := Reads.next hmore hlast (ih _ hshorter hrev rfl)
        rwa [Reads.eq_found h hread hsince] at hread

end

/-- In every log that a run reaches, a page of a search holds the first of the entries that the
search finds, in the order of revisions, and says whether there are more. Reading on behind the last
entry of each page comes to an end, with exactly what the search finds. -/
theorem pages_are_exact (requests : List Store.Request) (q : StateQuery) :
    let l := (Store.run requests).log
    let limit := if q.limit = 0 then 50 else q.limit
    (l.found q).Pairwise (fun e f => e.rev < f.rev) ∧
    (∀ e, e ∈ l.found q ↔ l.Finds q e) ∧
    (l.page q).items = (l.found q).take limit ∧
    ((l.page q).more = true ↔ limit < (l.found q).length) ∧
    (0 ≤ q.sinceRev → ∀ read, l.Reads q read ↔ read = l.found q) := by
  intro l limit
  have hsound : l.Sound := Store.sound_run requests
  have hpage := hsound.page_eq_found q
  refine ⟨hsound.pairwise_found q, fun e => mem_found_iff, ?_, ?_, fun hsince read => ?_⟩
  · rw [hpage]
    exact Page.items_ofList _ _
  · rw [hpage]
    exact Page.more_ofList_iff
  · constructor
    · exact fun hread => hread.eq_found hsound hsince
    · rintro rfl
      exact hsound.reads_found hsince

end Log

end Workflow
