import Mathlib.Logic.Function.Basic
import Workflow.Proofs.Access
import Workflow.Proofs.Commit

/-!
# Groups of components

The components of a group share a store. They take turns in any order, at any time and with any
calls planned to fail, and other clients call the store in between. What holds of a group is shown
turn by turn: a turn keeps what holds of the store and of the component whose turn it is, and it
changes the store only in ways that the other components can bear.
-/

set_option autoImplicit false

namespace Workflow

namespace Store

open Command

/-- The call does not commit the state. -/
def Request.Spares (id : StateId) : Request → Prop
  | .commit _ parts => id ∉ trackedIds parts
  | _ => True

theorem Request.Spares.of_serve {id : StateId} {r : Request} (h : r.Spares id) {s : Store}
    (hs : s.log.Sound) : (s.serve r).log.of id = s.log.of id := by
  rcases log_serve s r with hlog | ⟨now, parts, done, rfl, hcommit⟩
  · rw [hlog]
  · obtain ⟨added, hentries, hids, -⟩ := exists_added_of_commit hs hcommit
    have hnone : added.filter (·.id = id) = [] := by
      rw [List.filter_eq_nil_iff]
      intro e he hid
      have hmem : id ∈ added.map State.id := List.mem_map.2 ⟨e, he, of_decide_eq_true hid⟩
      rw [hids] at hmem
      exact h hmem
    rw [Log.of, hentries, List.filter_append, hnone, List.append_nil]
    rfl

theorem Request.Spares.latest?_serve {id : StateId} {r : Request} (h : r.Spares id) {s : Store}
    (hs : s.log.Sound) : (s.serve r).log.latest? id = s.log.latest? id := by
  rw [(sound_serve hs r).latest?_eq_getLast?, hs.latest?_eq_getLast?, h.of_serve hs]

theorem latest?_foldl_serve {id : StateId} {requests : List Request} {s : Store}
    (h : ∀ r ∈ requests, r.Spares id) (hs : s.log.Sound) :
    (requests.foldl serve s).log.latest? id = s.log.latest? id := by
  induction requests generalizing s with
  | nil => rfl
  | cons r requests ih =>
    obtain ⟨hfirst, hrest⟩ := List.forall_mem_cons.1 h
    exact (ih hrest (sound_serve hs r)).trans (hfirst.latest?_serve hs)

end Store

/-- What a turn finds beside the store: the time, whether executions are started, and the calls that
are to fail. -/
structure Moment where
  now : Instant
  isOpen : Bool
  gate : Gate

/-- The site of a turn. -/
def Moment.site (m : Moment) (s : Store) : Site := ⟨⟨s, m.gate, .direct⟩, m.now, m.isOpen, []⟩

@[simp] theorem Moment.store_site (m : Moment) (s : Store) : (m.site s).store = s := rfl

theorem Moment.plain {allowed : Method → Fault → Prop} {m : Moment} (h : m.gate.Allows allowed)
    (s : Store) : (m.site s).Plain allowed :=
  ⟨rfl, h⟩

theorem Moment.plain_site (m : Moment) (s : Store) : (m.site s).Plain fun _ _ => True :=
  Moment.plain (fun _ _ _ => trivial) s

/-- A turn of a component, which starts or does a piece of work, or a call of another client. -/
inductive Turn (ι Op : Type) where
  | start (i : ι) (m : Moment)
  | work (i : ι) (op : Op) (m : Moment)
  | call (r : Store.Request)

namespace Turn

variable {ι Op : Type}

/-- The component whose turn it is, if it is one's turn. -/
def actor? : Turn ι Op → Option ι
  | start i _ | work i _ _ => some i
  | call _ => none

/-- What a component finds in its turn. -/
def moment? : Turn ι Op → Option Moment
  | start _ m | work _ _ m => some m
  | call _ => none

/-- Only faults of an allowed kind are planned for the turn of a component. -/
def Allows (allowed : Method → Fault → Prop) : Turn ι Op → Prop
  | start _ m | work _ _ m => m.gate.Allows allowed
  | call _ => True

/-- Another client does not commit the state. -/
def Spares (id : StateId) : Turn ι Op → Prop
  | call r => r.Spares id
  | _ => True

/-- The turns take place at times that a clock shows, set before the last instant. -/
structure Timed (start : Instant) (elapsed : Nat → Span) (turns : List (Turn ι Op)) : Prop where
  start_lt : start < .latest
  mono : ∀ j k, j ≤ k → elapsed j ≤ elapsed k
  now_eq : ∀ k t m, turns[k]? = some t → t.moment? = some m → m.now = start + elapsed k

theorem Timed.of_all {start : Instant} {elapsed : Nat → Span} {turns : List (Turn ι Op)}
    (hstart : start < .latest) (hmono : ∀ j k, j ≤ k → elapsed j ≤ elapsed k)
    (hall : ∀ k < turns.length, ∀ m ∈ turns[k]?.bind moment?, m.now = start + elapsed k) :
    Timed start elapsed turns := by
  refine ⟨hstart, hmono, fun k t m hat hm => ?_⟩
  refine hall k (List.getElem?_eq_some_iff.1 hat).1 m ?_
  rwa [hat, Option.bind_some]

end Turn

/-- How the components of a group start, unless their settings are refused, and how they work. -/
structure Role (ι σ Op : Type) where
  start : ι → Option (σ × Work σ Unit)
  work : ι → Op → Work σ Unit

/-- The shared store, and the components that are there. -/
structure Group (ι σ : Type) where
  store : Store
  member : ι → Option σ

namespace Group

variable {ι σ Op : Type}

def empty : Group ι σ := ⟨.empty, fun _ => none⟩

variable [DecidableEq ι]

/-- The group after a turn. A component that fails to start is not there; one that starts again
forgets all. -/
def step (r : Role ι σ Op) (g : Group ι σ) : Turn ι Op → Group ι σ
  | .start i m =>
    match r.start i with
    | none => g
    | some (own, x) =>
      match x.perform own (m.site g.store) with
      | (.ok _, own, site) => ⟨site.store, Function.update g.member i (some own)⟩
      | (.error _, _, site) => ⟨site.store, Function.update g.member i none⟩
  | .work i op m =>
    match g.member i with
    | none => g
    | some own =>
      let (_, own, site) := (r.work i op).perform own (m.site g.store)
      ⟨site.store, Function.update g.member i (some own)⟩
  | .call request => { g with store := g.store.serve request }

/-- The group after some turns, starting from the empty store. -/
def run (r : Role ι σ Op) (turns : List (Turn ι Op)) : Group ι σ := turns.foldl (step r) empty

variable {r : Role ι σ Op} {turns : List (Turn ι Op)}

theorem run_take_succ {k : Nat} {t : Turn ι Op} (h : turns[k]? = some t) :
    run r (turns.take (k + 1)) = (run r (turns.take k)).step r t := by
  rw [List.take_add_one, h, Option.toList_some]
  exact List.foldl_append

theorem step_work {g : Group ι σ} {i : ι} {op : Op} {m : Moment} {own : σ}
    (hi : g.member i = some own) {Q : σ → Store → Prop}
    (hwork : Effect.Leads (r.work i op) (own, m.site g.store) fun _ p => Q p.1 p.2.store) :
    ∃ own', (g.step r (.work i op m)).member i = some own' ∧
      Q own' (g.step r (.work i op m)).store := by
  unfold Group.step
  simp only [hi]
  exact ⟨_, Function.update_self .., hwork⟩

theorem step_start {g : Group ι σ} {i : ι} {m : Moment} {own : σ} {x : Work σ Unit}
    (hi : r.start i = some (own, x)) {Q : σ → Store → Prop}
    (hstart : Effect.Leads x (own, m.site g.store) fun outcome p =>
      outcome = .ok () → Q p.1 p.2.store) {own' : σ}
    (hown : (g.step r (.start i m)).member i = some own') :
    Q own' (g.step r (.start i m)).store := by
  unfold Group.step at hown ⊢
  simp only [hi, Work.perform] at hown ⊢
  change (x.run.run (own, m.site g.store)).1 = .ok () → Q (x.run.run (own, m.site g.store)).2.1
    (x.run.run (own, m.site g.store)).2.2.store at hstart
  generalize x.run.run (own, m.site g.store) = result at hstart hown ⊢
  obtain ⟨fault | _, next, site⟩ := result
  · simp only [Function.update_self] at hown
    cases hown
  · simp only [Function.update_self] at hown
    cases hown
    exact hstart rfl

theorem member_step_of_ne {g : Group ι σ} {t : Turn ι Op} {i : ι} (h : t.actor? ≠ some i) :
    (g.step r t).member i = g.member i := by
  have hne {j : ι} (hj : t.actor? = some j) : i ≠ j := fun heq => h (heq ▸ hj)
  unfold Group.step
  cases t with
  | start j m =>
    simp only
    split
    · rfl
    · split
      · exact Function.update_of_ne (hne rfl) ..
      · exact Function.update_of_ne (hne rfl) ..
  | work j op m =>
    simp only
    split
    · rfl
    · exact Function.update_of_ne (hne rfl) ..
  | call request => rfl

theorem store_step {g : Group ι σ} {t : Turn ι Op} {Q : Store → Prop} (hidle : Q g.store)
    (hstart : ∀ i m own x, t = .start i m → r.start i = some (own, x) →
      Effect.Leads x (own, m.site g.store) fun _ p => Q p.2.store)
    (hwork : ∀ i op m own, t = .work i op m → g.member i = some own →
      Effect.Leads (r.work i op) (own, m.site g.store) fun _ p => Q p.2.store)
    (hcall : ∀ request, t = .call request → Q (g.store.serve request)) :
    Q (g.step r t).store := by
  unfold Group.step
  cases t with
  | start i m =>
    cases hi : r.start i with
    | none =>
      simp only [hi]
      exact hidle
    | some begun =>
      obtain ⟨own, x⟩ := begun
      have hx : Q ((x.perform own (m.site g.store)).2.2.store) := hstart i m own x rfl hi
      simp only [hi]
      generalize x.perform own (m.site g.store) = result at hx
      obtain ⟨fault | _, next, site⟩ := result
      · exact hx
      · exact hx
  | work i op m =>
    cases hi : g.member i with
    | none =>
      simp only [hi]
      exact hidle
    | some own =>
      simp only [hi]
      exact hwork i op m own rfl hi
  | call request => exact hcall request rfl

/-- What holds at first and is kept by every turn holds all along. -/
theorem run_induction {P : Nat → Group ι σ → Prop} (hempty : P 0 empty)
    (hstep : ∀ k t, turns[k]? = some t → P k (run r (turns.take k)) →
      P (k + 1) ((run r (turns.take k)).step r t)) :
    ∀ k, k ≤ turns.length → P k (run r (turns.take k)) := by
  intro k
  induction k with
  | zero => exact fun _ => hempty
  | succ k ih =>
    intro hk
    have hat := List.getElem?_eq_getElem hk
    rw [run_take_succ hat]
    exact hstep k _ hat (ih (Nat.le_of_lt hk))

theorem log_mono {k : Nat} (hk : k ≤ turns.length)
    (hstep : ∀ k t, turns[k]? = some t →
      (run r (turns.take k)).store.log.entries <+: (run r (turns.take (k + 1))).store.log.entries)
    {j : Nat} (hjk : j ≤ k) :
    (run r (turns.take j)).store.log.entries <+: (run r (turns.take k)).store.log.entries := by
  induction k with
  | zero =>
    obtain rfl : j = 0 := by omega
    exact List.prefix_rfl
  | succ k ih =>
    by_cases hj : j = k + 1
    · rw [hj]
    · exact (ih (by omega) (by omega)).trans (hstep k _ (List.getElem?_eq_getElem hk))

theorem exists_turn {f : Store → Nat} (hempty : f .empty = 0) {n : Nat}
    (hn : n < f (run r turns).store) :
    ∃ k, k < turns.length ∧ f (run r (turns.take k)).store ≤ n ∧
      n < f (run r (turns.take (k + 1))).store := by
  by_contra hno
  have hle : ∀ k, k ≤ turns.length → f (run r (turns.take k)).store ≤ n := by
    intro k
    induction k with
    | zero =>
      intro _
      change f .empty ≤ n
      omega
    | succ k ih =>
      intro hk
      by_contra hgt
      exact hno ⟨k, hk, ih (Nat.le_of_lt hk), Nat.lt_of_not_le hgt⟩
  have hall := hle turns.length (Nat.le_refl _)
  rw [List.take_length] at hall
  omega

/-! ### What turns keep -/

/-- Something holds of the store, and of each component that is there. -/
structure Holds (inv : Store → Prop) (owns : ι → σ → Store → Prop) (g : Group ι σ) : Prop where
  store : inv g.store
  member : ∀ i own, g.member i = some own → owns i own g.store

section

variable {inv inv' : Store → Prop} {owns owns' : ι → σ → Store → Prop}

omit [DecidableEq ι] in
theorem holds_empty (h : inv .empty) : Holds inv owns (empty : Group ι σ) :=
  ⟨h, fun _ _ hown => nomatch hown⟩

omit [DecidableEq ι] in
theorem Holds.imp {g : Group ι σ} (h : Holds inv owns g) (hinv : inv g.store → inv' g.store)
    (howns : ∀ i own, owns i own g.store → owns' i own g.store) : Holds inv' owns' g :=
  ⟨hinv h.store, fun i own hi => howns i own (h.member i own hi)⟩

theorem holds_update {g : Group ι σ} {i : ι} {own? : Option σ} {s : Store} (hstore : inv s)
    (hown : ∀ own, own? = some own → owns i own s)
    (hothers : ∀ j own, j ≠ i → g.member j = some own → owns j own s) :
    Holds inv owns (⟨s, Function.update g.member i own?⟩ : Group ι σ) := by
  refine ⟨hstore, fun j own hj => ?_⟩
  change Function.update g.member i own? j = some own at hj
  by_cases hji : j = i
  · subst hji
    rw [Function.update_self] at hj
    exact hown own hj
  · rw [Function.update_of_ne hji] at hj
    exact hothers j own hji hj

/-- A turn keeps what holds if the component whose turn it is does, and if the others bear how the
store changes. -/
theorem Holds.step {g : Group ι σ} (h : Holds inv owns g) (change : Option ι → Store → Store → Prop)
    (hrefl : ∀ s, change none s s)
    (hbear : ∀ i j own s s', j ≠ some i → owns i own s → inv s → inv' s' → change j s s' →
      owns' i own s')
    (hkeep : inv g.store → inv' g.store) {t : Turn ι Op}
    (hstart : ∀ i m own x, t = .start i m → r.start i = some (own, x) → inv g.store →
      Effect.Leads x (own, m.site g.store) fun outcome p =>
        inv' p.2.store ∧ change (some i) g.store p.2.store ∧
          (outcome = .ok () → owns' i p.1 p.2.store))
    (hwork : ∀ i op m own, t = .work i op m → g.member i = some own → inv g.store →
      owns i own g.store →
      Effect.Leads (r.work i op) (own, m.site g.store) fun _ p =>
        inv' p.2.store ∧ change (some i) g.store p.2.store ∧ owns' i p.1 p.2.store)
    (hcall : ∀ request, t = .call request → inv g.store →
      inv' (g.store.serve request) ∧ change none g.store (g.store.serve request)) :
    Holds inv' owns' (g.step r t) ∧ ∃ j, change j g.store (g.step r t).store := by
  have hidle : Holds inv' owns' g := ⟨hkeep h.store, fun i own hi =>
    hbear i none own g.store g.store nofun (h.member i own hi) h.store (hkeep h.store) (hrefl _)⟩
  have hothers {i : ι} {s' : Store} (hinv : inv' s') (hchange : change (some i) g.store s') (j : ι)
      (own : σ) (hji : j ≠ i) (hj : g.member j = some own) : owns' j own s' :=
    hbear j (some i) own g.store s' (fun heq => hji (Option.some.inj heq).symm) (h.member j own hj)
      h.store hinv hchange
  unfold Group.step
  cases t with
  | start i m =>
    cases hi : r.start i with
    | none =>
      simp only [hi]
      exact ⟨hidle, none, hrefl _⟩
    | some begun =>
      obtain ⟨own, x⟩ := begun
      obtain ⟨hinv, hchange, hown⟩ := hstart i m own x rfl hi h.store
      simp only [hi, Work.perform]
      generalize x.run.run (own, m.site g.store) = result at hinv hchange hown
      obtain ⟨fault | _, own', site⟩ := result
      · exact ⟨holds_update hinv nofun (hothers hinv hchange), some i, hchange⟩
      · refine ⟨holds_update hinv (fun own'' heq => ?_) (hothers hinv hchange), some i, hchange⟩
        cases heq
        exact hown rfl
  | work i op m =>
    cases hi : g.member i with
    | none =>
      simp only [hi]
      exact ⟨hidle, none, hrefl _⟩
    | some own =>
      simp only [hi]
      obtain ⟨hinv, hchange, hown⟩ := hwork i op m own rfl hi h.store (h.member i own hi)
      refine ⟨holds_update hinv (fun own'' heq => ?_) (hothers hinv hchange), some i, hchange⟩
      cases heq
      exact hown
  | call request =>
    obtain ⟨hinv, hchange⟩ := hcall request rfl h.store
    refine ⟨⟨hinv, fun i own hi => ?_⟩, none, hchange⟩
    exact hbear i none own g.store _ nofun (h.member i own hi) h.store hinv hchange

theorem Holds.step_alike {g : Group ι σ} (h : Holds inv owns g) (change : Store → Store → Prop)
    (hrefl : ∀ s, change s s)
    (hbear : ∀ i own s s', owns i own s → inv' s' → change s s' → owns' i own s')
    (hkeep : inv g.store → inv' g.store) {t : Turn ι Op}
    (hstart : ∀ i m own x, t = .start i m → r.start i = some (own, x) → inv g.store →
      Effect.Leads x (own, m.site g.store) fun outcome p =>
        inv' p.2.store ∧ change g.store p.2.store ∧
          (outcome = .ok () → owns' i p.1 p.2.store))
    (hwork : ∀ i op m own, t = .work i op m → g.member i = some own → inv g.store →
      owns i own g.store →
      Effect.Leads (r.work i op) (own, m.site g.store) fun _ p =>
        inv' p.2.store ∧ change g.store p.2.store ∧ owns' i p.1 p.2.store)
    (hcall : ∀ request, t = .call request → inv g.store →
      inv' (g.store.serve request) ∧ change g.store (g.store.serve request)) :
    Holds inv' owns' (g.step r t) ∧ change g.store (g.step r t).store := by
  obtain ⟨hholds, -, hchange⟩ := h.step (fun _ => change) hrefl
    (fun i _ own s s' _ hown _ => hbear i own s s' hown) hkeep hstart hwork hcall
  exact ⟨hholds, hchange⟩

end

end Group

end Workflow
