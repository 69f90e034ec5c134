import Workflow.Proofs.Run

/-!
# Reading delayed states in pages

Items stand under offsets that grow with every item. So the pages of a search leave nothing out
before the last offset that they reached, and what is put off later lies beyond it.
-/

set_option autoImplicit false

namespace Workflow

namespace Delays

/-- Every item stands under its offset, and these were given from `1` on. -/
structure Sound (d : Delays) : Prop where
  offset_eq : ∀ o x, d.items.get? o = some x → x.offset = o
  given : ∀ o x, d.items.get? o = some x → 0 < o ∧ o ≤ d.lastOffset
  lastOffset_nonneg : 0 ≤ d.lastOffset

/-- Items that were not there before have offsets that were not given before. -/
structure Grows (d later : Delays) : Prop where
  lastOffset_le : d.lastOffset ≤ later.lastOffset
  old_or_new : ∀ o x, later.items.get? o = some x → d.items.get? o = some x ∨ d.lastOffset < o

variable {d later : Delays}

theorem sound_empty : empty.Sound where
  offset_eq := fun _ _ hx => nomatch hx
  given := fun _ _ hx => nomatch hx
  lastOffset_nonneg := Int.le_refl 0

theorem grows_refl (d : Delays) : d.Grows d := ⟨Int.le_refl _, fun _ _ hx => .inl hx⟩

theorem Grows.trans {latest : Delays} (h : d.Grows later) (h' : later.Grows latest) :
    d.Grows latest := by
  have hle := h.lastOffset_le
  refine ⟨Int.le_trans hle h'.lastOffset_le, fun o x hx => ?_⟩
  rcases h'.old_or_new o x hx with hold | hnew
  · exact h.old_or_new o x hold
  · exact .inr (by omega)

theorem Sound.push (h : d.Sound) (s : State) (dueAt : Instant) : (d.push s dueAt).1.Sound where
  offset_eq := by
    intro o x hx
    rw [get?_push] at hx
    split at hx
    next heq =>
      cases hx
      exact heq.symm
    next => exact h.offset_eq o x hx
  given := by
    intro o x hx
    rw [get?_push] at hx
    rw [lastOffset_push]
    have hstart := h.lastOffset_nonneg
    split at hx
    next => omega
    next =>
      have hgiven := h.given o x hx
      omega
  lastOffset_nonneg := by
    rw [lastOffset_push]
    have hstart := h.lastOffset_nonneg
    omega

theorem grows_push (d : Delays) (s : State) (dueAt : Instant) : d.Grows (d.push s dueAt).1 := by
  refine ⟨?_, fun o x hx => ?_⟩
  · rw [lastOffset_push]
    omega
  · rw [get?_push] at hx
    split at hx
    next => exact .inr (by omega)
    next => exact .inl hx

theorem get?_of_acknowledge {offset o : Int} {x : Delayed}
    (hx : (d.acknowledge offset).items.get? o = some x) : o ≠ offset ∧ d.items.get? o = some x := by
  by_cases heq : o = offset
  · rw [heq, get?_acknowledge_self] at hx
    cases hx
  · rw [get?_acknowledge_of_ne d heq] at hx
    exact ⟨heq, hx⟩

theorem Sound.acknowledge (h : d.Sound) (offset : Int) : (d.acknowledge offset).Sound where
  offset_eq := fun o x hx => h.offset_eq o x (get?_of_acknowledge hx).2
  given := fun o x hx => h.given o x (get?_of_acknowledge hx).2
  lastOffset_nonneg := h.lastOffset_nonneg

theorem grows_acknowledge (d : Delays) (offset : Int) : d.Grows (d.acknowledge offset) :=
  ⟨Int.le_refl _, fun _ _ hx => .inl (get?_of_acknowledge hx).2⟩

theorem keeps_conclude (h : d.Sound) (now : Instant) (drafts : SortedMap StateId Draft)
    (c : Command) :
    (Store.conclude now drafts d c).1.Sound ∧ d.Grows (Store.conclude now drafts d c).1 := by
  unfold Store.conclude
  split
  next => exact ⟨h.push _ _, grows_push d _ _⟩
  next => exact ⟨h, grows_refl d⟩

theorem keeps_concludeAll (h : d.Sound) (now : Instant) (drafts : SortedMap StateId Draft)
    (parts : List Command) :
    (Store.concludeAll now drafts d parts).1.Sound ∧
      d.Grows (Store.concludeAll now drafts d parts).1 := by
  induction parts generalizing d with
  | nil => exact ⟨h, grows_refl d⟩
  | cons c rest ih =>
    obtain ⟨hsound, hgrows⟩ := keeps_conclude h now drafts c
    obtain ⟨hsound', hgrows'⟩ := ih hsound
    exact ⟨hsound', hgrows.trans hgrows'⟩

/-! ### Pages -/

/-- The largest of an offset and those of some items. -/
def furthest (offset : Int) (items : List Delayed) : Int :=
  items.foldl (fun o item => max o item.offset) offset

theorem le_furthest (offset : Int) (items : List Delayed) :
    offset ≤ furthest offset items ∧ ∀ x ∈ items, x.offset ≤ furthest offset items := by
  unfold furthest
  induction items generalizing offset with
  | nil => simp
  | cons y rest ih =>
    obtain ⟨hstart, hrest⟩ := ih (max offset y.offset)
    rw [List.foldl_cons]
    refine ⟨by omega, fun x hx => ?_⟩
    rcases List.mem_cons.1 hx with rfl | hx
    · omega
    · exact hrest x hx

theorem furthest_lt {offset bound : Int} {items : List Delayed} (hstart : offset < bound)
    (hitems : ∀ x ∈ items, x.offset < bound) : furthest offset items < bound := by
  unfold furthest
  induction items generalizing offset with
  | nil => exact hstart
  | cons y rest ih =>
    have hy := hitems y List.mem_cons_self
    rw [List.foldl_cons]
    exact ih (by omega) fun x hx => hitems x (List.mem_cons_of_mem _ hx)

section

variable (h : d.Sound) {q : DelayQuery}

include h

theorem Sound.pairwise_values : d.items.values.Pairwise fun x y => x.offset < y.offset := by
  unfold SortedMap.values
  rw [List.pairwise_map]
  refine d.items.sorted.imp_of_mem fun {a b} ha hb hlt => ?_
  have hfirst := h.offset_eq a.1 a.2 (d.items.get?_eq_some_iff.2 ha)
  have hsecond := h.offset_eq b.1 b.2 (d.items.get?_eq_some_iff.2 hb)
  rw [hfirst, hsecond]
  exact Int.compare_eq_lt.1 hlt

theorem Sound.get?_of_mem_page {x : Delayed} (hx : x ∈ (d.page q).items) :
    d.items.get? x.offset = some x ∧ q.accepts x = true := by
  rw [page_eq_ofList] at hx
  obtain ⟨hmem, haccepts⟩ := List.mem_filter.1 (List.mem_of_mem_take hx)
  obtain ⟨o, hget⟩ := d.items.mem_values_iff.1 hmem
  rw [h.offset_eq o x hget]
  exact ⟨hget, haccepts⟩

theorem Sound.mem_page {o : Int} {x : Delayed} (hx : d.items.get? o = some x)
    (haccepts : q.accepts x = true)
    (hreached : (d.page q).more = false ∨ o ≤ furthest q.offset (d.page q).items) :
    x ∈ (d.page q).items := by
  have hoffset := h.offset_eq o x hx
  have hfound : x ∈ d.items.values.filter q.accepts :=
    List.mem_filter.2 ⟨d.items.mem_values_iff.2 ⟨o, hx⟩, haccepts⟩
  rw [page_eq_ofList] at hreached ⊢
  rcases hreached with hlast | hle
  · rw [Page.items_of_not_more hlast]
    exact hfound
  · rw [Page.items_ofList] at hle ⊢
    have hsorted := h.pairwise_values.filter q.accepts
    rw [← List.take_append_drop q.pageLength (d.items.values.filter q.accepts)] at hfound hsorted
    rcases List.mem_append.1 hfound with htaken | hleft
    · exact htaken
    · have hbeyond := (List.pairwise_append.1 hsorted).2.2
      have hafter : q.offset < x.offset := by
        unfold DelayQuery.accepts at haccepts
        simp only [Bool.and_eq_true, decide_eq_true_eq] at haccepts
        exact haccepts.1.1
      have hlt := furthest_lt hafter fun y hy => hbeyond y hy x hleft
      omega

end

end Delays

namespace Store

theorem delays_serve {s : Store} (h : s.delays.Sound) (r : Request) :
    (s.serve r).delays.Sound ∧ s.delays.Grows (s.serve r).delays := by
  cases r with
  | commit now parts =>
    rw [serve, Transaction.run_commit]
    cases s.prepare parts with
    | error fault => exact ⟨h, Delays.grows_refl _⟩
    | ok staged => exact Delays.keeps_concludeAll h now _ _
  | delay state dueAt => exact ⟨h.push state dueAt, Delays.grows_push _ _ _⟩
  | acknowledge offset => exact ⟨h.acknowledge offset, Delays.grows_acknowledge _ _⟩
  | storeBlob blob => exact ⟨h, Delays.grows_refl _⟩

theorem delays_foldl_serve {s : Store} (h : s.delays.Sound) (requests : List Request) :
    (requests.foldl serve s).delays.Sound := by
  induction requests generalizing s with
  | nil => exact h
  | cons r requests ih => exact ih (delays_serve h r).1

end Store

end Workflow
