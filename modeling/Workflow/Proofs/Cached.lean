import Workflow.Proofs.Access
import Workflow.Proofs.Committed
import Workflow.Proofs.Ring

/-!
# Cached repositories

Clients call a store through a cache or past it, and let the cache catch up at times. Entries that
were read or committed in another thread may reach its ring late. In all of this the ring mirrors
the log of the store.
-/

set_option autoImplicit false

namespace Workflow

/-! ### Open gates -/

/-- No call is planned to fail. -/
def Gate.Open (g : Gate) : Prop := ∀ m, g.planned m = []

theorem Gate.open_free : Gate.free.Open := fun _ => rfl

theorem Gate.Open.enter {g : Gate} (h : g.Open) (m : Method) :
    (g.enter m).1 = none ∧ (g.enter m).2.Open := by
  unfold Gate.enter
  rw [h m]
  exact ⟨rfl, h⟩

namespace Repository

open Effect

/-- The ring of the cache. -/
def ring (r : Repository) : Ring := (r.cache?.map Cache.ring).getD default

/-- The repository is cached, and no call is planned to fail. -/
structure Cached (r : Repository) : Prop where
  gate : r.gate.Open
  front : ∃ c, r.front = .cached c

/-- The repository is still cached. It has another store, and its ring was offered some states. -/
structure Becomes (r : Repository) (s : Store) (states : List State) (r' : Repository) : Prop where
  cached : r'.Cached
  store : r'.store = s
  ring : r'.ring = states.foldl Ring.offer r.ring

section

variable {α : Type} {r : Repository} (h : r.Cached)

include h

theorem Cached.becomes_self : r.Becomes r.store [] r := ⟨h, rfl, rfl⟩

omit h in
theorem Becomes.trans {s s' : Store} {states more : List State} {r' r'' : Repository}
    (h : r.Becomes s states r') (h' : r'.Becomes s' more r'') : r.Becomes s' (states ++ more) r'' :=
  ⟨h'.cached, h'.store, by rw [List.foldl_append, ← h.ring, h'.ring]⟩

omit h in
theorem leads_readStore_open {m : Method} {f : Store → Except Fault α}
    {Q : Except Fault α → Repository → Prop} (hopen : r.gate.Open)
    (hanswer : ∀ g, g.Open → Q (f r.store) { r with gate := g }) : Leads (readStore m f) r Q := by
  obtain ⟨hpass, hopen'⟩ := hopen.enter m
  unfold readStore pass
  simp only [leads_bind, leads_get, leads_set, hpass]
  exact hanswer _ hopen'

theorem leads_readStore {m : Method} {f : Store → Except Fault α}
    {Q : Except Fault α → Repository → Prop}
    (hanswer : ∀ r', r.Becomes r.store [] r' → Q (f r.store) r') : Leads (readStore m f) r Q :=
  leads_readStore_open h.gate fun _ hopen => hanswer _ ⟨⟨hopen, h.front⟩, rfl, rfl⟩

theorem leads_changeStore {m : Method} {f : Store → Except Fault (Store × α)} {s : Store} {a : α}
    (hf : f r.store = .ok (s, a)) : Leads (changeStore m f) r fun _ r' => r.Becomes s [] r' := by
  unfold changeStore
  rw [leads_bind]
  refine leads_readStore h fun r' hr => ?_
  rw [hf]
  simp only [leads_bind, leads_modify, leads_pure]
  exact ⟨⟨hr.cached.gate, hr.cached.front⟩, rfl, hr.ring⟩

section

variable {Q : Except Fault Unit → Repository → Prop}

theorem leads_hit (hnext : ∀ r', r.Becomes r.store [] r' → Q (.ok ()) r') : Leads hit r Q := by
  obtain ⟨c, hc⟩ := h.front
  unfold hit
  rw [leads_modify, hc]
  exact hnext _ ⟨⟨h.gate, _, rfl⟩, rfl, by simp [ring, cache?, hc]⟩

theorem leads_miss (hnext : ∀ r', r.Becomes r.store [] r' → Q (.ok ()) r') : Leads miss r Q := by
  obtain ⟨c, hc⟩ := h.front
  unfold miss
  rw [leads_modify, hc]
  exact hnext _ ⟨⟨h.gate, _, rfl⟩, rfl, by simp [ring, cache?, hc]⟩

theorem leads_offer {states : List State}
    (hnext : ∀ r', r.Becomes r.store states r' → Q (.ok ()) r') : Leads (offer states) r Q := by
  obtain ⟨c, hc⟩ := h.front
  unfold offer
  rw [leads_modify, hc]
  exact hnext _ ⟨⟨h.gate, _, rfl⟩, rfl, by simp [ring, cache?, hc]⟩

end

theorem Cached.exists_cache : ∃ c, r.cache? = some c ∧ c.ring = r.ring := by
  obtain ⟨c, hc⟩ := h.front
  exact ⟨c, by simp [cache?, hc], by simp [ring, cache?, hc]⟩

/-! ### Reads -/

theorem leads_findState (id : StateId) (rev : Int) :
    Leads (findState id rev) r fun outcome r' =>
      outcome = (r.ring.find? id rev).getD (r.store.log.find id rev) ∧
        r.Becomes r.store [] r' := by
  obtain ⟨c, hc, hring⟩ := h.exists_cache
  unfold findState
  simp only [leads_bind, leads_get, hc, Option.bind_some, hring]
  cases r.ring.find? id rev with
  | some answer =>
    simp only [leads_bind]
    exact leads_hit h fun r' hr => ⟨rfl, hr⟩
  | none =>
    simp only [leads_bind]
    refine leads_miss h fun r' hr => leads_readStore hr.cached fun r'' hr' => ?_
    rw [hr.store] at hr' ⊢
    exact ⟨rfl, hr.trans hr'⟩

theorem leads_listStates (q : StateQuery) :
    Leads (listStates q) r fun outcome r' =>
      outcome = .ok ((r.ring.page? q).getD (r.store.log.page q)) ∧ r.Becomes r.store [] r' := by
  obtain ⟨c, hc, hring⟩ := h.exists_cache
  unfold listStates
  simp only [leads_bind, leads_get, hc, Option.bind_some, hring]
  cases r.ring.page? q with
  | some page =>
    simp only [leads_bind]
    exact leads_hit h fun r' hr => ⟨rfl, hr⟩
  | none =>
    simp only [leads_bind]
    refine leads_miss h fun r' hr => leads_readStore hr.cached fun r'' hr' => ?_
    rw [hr.store] at hr' ⊢
    exact ⟨rfl, hr.trans hr'⟩

/-! ### Blobs -/

theorem leads_storeBlob (blob : Blob) :
    Leads (storeBlob blob) r fun _ r' => r.Becomes (r.store.serve (.storeBlob blob)) [] r' := by
  obtain ⟨c, hc⟩ := h.front
  unfold storeBlob
  simp only [leads_bind, leads_get, hc]
  exact leads_changeStore h rfl

theorem leads_fetchBlob (id : BlobId) (rev : Int) :
    Leads (fetchBlob id rev) r fun _ r' => r.Becomes r.store [] r' := by
  obtain ⟨c, hc⟩ := h.front
  unfold fetchBlob
  simp only [leads_bind, leads_get, hc]
  exact leads_readStore h fun _ hr => hr

/-! ### Commits -/

/-- How a commit through the cache ends: the cache refuses it, or the store takes it or not. -/
inductive Ends (now : Instant) (parts : List Command) (r : Repository) :
    Except Fault (List Command) → Repository → Prop
  | refused (hnamed : r.ring.conflicts parts ≠ []) :
      Ends now parts r (.error (.conflict (r.ring.conflicts parts))) r
  | failed {fault : Fault} {r' : Repository} (hpassed : r.ring.conflicts parts = [])
      (hfail : r.store.commit now parts = .error fault) (hr : r.Becomes r.store [] r') :
      Ends now parts r (.error fault) r'
  | done {stored : Store} {done : List Command} {r' : Repository}
      (hpassed : r.ring.conflicts parts = [])
      (hok : r.store.commit now parts = .ok (stored, done))
      (hr : r.Becomes stored (Ring.committed done) r') :
      Ends now parts r (.ok done) r'

omit h in
theorem leads_transact {now : Instant} {parts : List Command} (hopen : r.gate.Open)
    {Q : Except Fault (List Command) → Repository → Prop}
    (herror : ∀ fault g, g.Open → r.store.commit now parts = .error fault →
      Q (.error fault) { r with gate := g })
    (hok : ∀ stored done g, g.Open → r.store.commit now parts = .ok (stored, done) →
      Q (.ok done) { r with store := stored, gate := g }) :
    Leads (transact .commit (.commit now) parts) r Q := by
  obtain ⟨hpass, hopen'⟩ := hopen.enter .commit
  unfold transact pass
  simp only [leads_bind, leads_get, leads_set, hpass, leads_pure, Transaction.run_commit]
  cases hprepare : r.store.prepare parts with
  | error fault =>
    simp only [leads_bind, leads_set, leads_settle]
    exact herror _ _ hopen' (Store.commit_eq_error_iff.2 hprepare)
  | ok staged =>
    obtain ⟨st, work⟩ := staged
    simp only [leads_bind, leads_set, leads_settle, leads_pure]
    exact hok _ _ _ hopen' (Store.commit_eq_ok_iff.2 ⟨st, work, hprepare, rfl⟩)

theorem leads_commit (now : Instant) (parts : List Command) :
    Leads (commit now parts) r (Ends now parts r) := by
  obtain ⟨c, hc, hring⟩ := h.exists_cache
  unfold commit
  simp only [leads_bind, leads_get, hc, Option.map_some, hring]
  cases hnamed : r.ring.conflicts parts with
  | cons id ids =>
    simp only [leads_throw]
    rw [← hnamed]
    exact .refused (by rw [hnamed]; simp)
  | nil =>
    simp only [leads_bind]
    refine leads_transact h.gate (fun fault g hopen hfail => ?_)
      fun stored done g hopen hdone => ?_
    · exact .failed hnamed hfail ⟨⟨hopen, h.front⟩, rfl, rfl⟩
    · have hstored : Cached { r with store := stored, gate := g } := ⟨hopen, h.front⟩
      exact leads_offer hstored fun r' hr => Ends.done hnamed hdone ⟨hr.cached, hr.store, hr.ring⟩

/-! ### Catching up -/

omit h in
/-- What a refresh reads: all entries after the last one of the ring, or for an empty ring the last
one of the log. -/
def lag (r : Repository) : List State :=
  r.store.log.entries.drop (r.ring.high?.elim (r.store.log.entries.length - 1) Int.toNat)

omit h in
theorem page_since (l : Log) {high : Int} (hpos : 0 < high) :
    l.page { StateQuery.since high with limit := refreshBatch } =
      Page.ofList refreshBatch (l.entries.drop high.toNat) := by
  have hstart : l.startOf high = high.toNat := if_neg (by omega)
  rw [Log.page_of_unasked _ rfl rfl rfl]
  exact congrArg (fun n => Page.ofList refreshBatch (l.entries.drop n)) hstart

omit h in
theorem items_page_last (l : Log) :
    (l.page .last).items = l.entries.drop (l.entries.length - 1) := by
  have hone : (l.entries.drop (l.entries.length - 1)).length ≤ 1 := by
    rw [List.length_drop]
    omega
  rw [Log.page_of_unasked _ rfl rfl rfl]
  exact List.take_of_length_le hone

omit h in
/-- What a turn of a refresh asks for, given the last revision of the ring. -/
def refreshQuery : Option Int → StateQuery
  | some high => { StateQuery.since high with limit := refreshBatch }
  | none => .last

omit h in
/-- One turn of a refresh: it reads a page on from the last entry of the ring, which is offered it.
It answers how many revisions it read, and whether there is another turn. -/
def refreshTurn : Access (Nat × Bool) := do
  let since := (← get).cache?.bind (·.ring.high?)
  let page ← readStore .listStates fun s => .ok (s.log.page (refreshQuery since))
  offer page.items
  pure (page.items.length, page.more && since.isSome)

omit h in
theorem refreshLoop_succ (fuel read : Nat) :
    refreshLoop (fuel + 1) read = (do
      let (n, more) ← refreshTurn
      if more then refreshLoop fuel (read + n) else pure (read + n)) := by
  simp only [refreshTurn, bind_assoc, pure_bind]
  rfl

omit h in
/-- How a refresh ends that takes turn after turn as long as there is another one, with no bound on
their number. -/
inductive CatchesUp : Repository → Nat → Except Fault Nat → Repository → Prop
  | failed {r r' : Repository} {read : Nat} {fault : Fault}
      (hturn : refreshTurn.run.run r = (.error fault, r')) : CatchesUp r read (.error fault) r'
  | last {r r' : Repository} {read n : Nat}
      (hturn : refreshTurn.run.run r = (.ok (n, false), r')) : CatchesUp r read (.ok (read + n)) r'
  | more {r r₁ r' : Repository} {read n : Nat} {outcome : Except Fault Nat}
      (hturn : refreshTurn.run.run r = (.ok (n, true), r₁))
      (hrest : CatchesUp r₁ (read + n) outcome r') : CatchesUp r read outcome r'

theorem leads_refreshTurn :
    let page := r.store.log.page (refreshQuery r.ring.high?)
    Leads refreshTurn r fun outcome r' =>
      outcome = .ok (page.items.length, page.more && r.ring.high?.isSome) ∧
        r.Becomes r.store page.items r' := by
  intro page
  obtain ⟨c, hc, hring⟩ := h.exists_cache
  unfold refreshTurn
  simp only [leads_bind, leads_get, hc, Option.bind_some, hring]
  refine leads_readStore h fun r₁ hr₁ => leads_offer hr₁.cached fun r₂ hr₂ => ?_
  rw [hr₁.store] at hr₂
  have hread := hr₁.trans hr₂
  rw [List.nil_append] at hread
  exact ⟨rfl, hread⟩

/-- Page by page a refresh offers all that is left of the log. What waited may move the ring on
beyond a page, then the next page starts later. Every page moves the ring on by its length at least,
so there is a last one. -/
theorem leads_refreshLoop (hl : r.store.log.Sound) (hm : r.ring.Mirrors r.store.log) {high : Int}
    (hhigh : r.ring.high? = some high) {fuel : Nat} (hfuel : r.store.log.head - high < fuel)
    (read : Nat) :
    Leads (refreshLoop fuel read) r fun outcome r' =>
      CatchesUp r read outcome r' ∧ (∃ n, outcome = .ok n) ∧
        r.Becomes r.store (r.store.log.entries.drop high.toNat) r' := by
  induction fuel generalizing r read high with
  | zero =>
    have hle := (hm.high_bounds hl hhigh).2
    omega
  | succ fuel ih =>
    obtain ⟨hpos, hbound⟩ := hm.high_bounds hl hhigh
    have hturn := leads_refreshTurn h
    rw [hhigh, refreshQuery, page_since _ hpos, Option.isSome_some] at hturn
    rw [refreshLoop_succ, leads_bind]
    unfold Leads at hturn ⊢
    generalize hrun : refreshTurn.run.run r = turn at hturn ⊢
    obtain ⟨outcome, r₂⟩ := turn
    obtain ⟨rfl, hread⟩ := hturn
    simp only [Bool.and_true] at hrun hread ⊢
    split
    next hmore =>
      rw [hmore] at hrun
      have hlen := Page.more_ofList_iff.1 hmore
      rw [List.length_drop] at hlen
      rw [Page.items_ofList] at hread
      have hm₂ : r₂.ring.Mirrors r₂.store.log := by
        rw [hread.ring, hread.store]
        exact hm.offers hl fun s hs => List.mem_of_mem_drop (List.mem_of_mem_take hs)
      have hreach : r₂.ring.Reaches ((high.toNat + refreshBatch : Nat) : Int) := by
        rw [hread.ring]
        exact hm.reaches_offers hl ⟨high, hhigh, by omega⟩ (by omega)
      obtain ⟨high₂, hhigh₂, hle⟩ := hreach
      have hleft : r₂.store.log.head - high₂ < fuel := by
        rw [hread.store]
        unfold refreshBatch at hle
        omega
      have hl₂ : r₂.store.log.Sound := by
        rw [hread.store]
        exact hl
      obtain ⟨hrest, hok, hr'⟩ := ih hread.cached hl₂ hm₂ hhigh₂ hleft _
      rw [hread.store] at hr'
      refine ⟨.more hrun hrest, hok, hr'.cached, hr'.store, ?_⟩
      rw [hr'.ring, ← Ring.offers_drop hl hhigh₂ hle, hread.ring, ← List.drop_drop,
        ← List.foldl_append, List.take_append_drop]
    next hlast =>
      rw [Bool.eq_false_iff.2 hlast] at hrun
      rw [Page.items_of_not_more (Bool.eq_false_iff.2 hlast)] at hread
      exact ⟨.last hrun, ⟨_, rfl⟩, hread⟩

theorem leads_refresh (hl : r.store.log.Sound) (hm : r.ring.Mirrors r.store.log) :
    Leads refresh r fun outcome r' =>
      CatchesUp r 0 outcome r' ∧ (∃ n, outcome = .ok n) ∧ r.Becomes r.store r.lag r' := by
  unfold refresh
  simp only [leads_bind, leads_get]
  cases hhigh : r.ring.high? with
  | some high =>
    obtain ⟨hpos, -⟩ := hm.high_bounds hl hhigh
    have hfuel : r.store.log.head - high < ((r.store.log.entries.length + 2 : Nat) : Int) := by
      unfold Log.head
      omega
    have hlag : r.lag = r.store.log.entries.drop high.toNat := by
      unfold lag
      rw [hhigh, Option.elim_some]
    rw [hlag]
    exact leads_refreshLoop h hl hm hhigh hfuel 0
  | none =>
    have hturn := leads_refreshTurn h
    have hlag : r.lag = r.store.log.entries.drop (r.store.log.entries.length - 1) := by
      unfold lag
      rw [hhigh, Option.elim_none]
    simp only [hhigh, refreshQuery, items_page_last, ← hlag, Option.isSome_none, Bool.and_false]
      at hturn
    rw [refreshLoop_succ, leads_bind]
    unfold Leads at hturn ⊢
    generalize hrun : refreshTurn.run.run r = turn at hturn ⊢
    obtain ⟨outcome, r'⟩ := turn
    obtain ⟨rfl, hread⟩ := hturn
    exact ⟨.last hrun, ⟨_, rfl⟩, hread⟩

end

end Repository

/-! ### Visits -/

/-- What clients do with a cached repository. -/
inductive Visit where
  /-- A call through the cache. -/
  | call (request : Store.Request)
  /-- A call of the wrapped store, past the cache. -/
  | direct (request : Store.Request)
  | refresh
  | findState (id : StateId) (rev : Int)
  | findLabelled (labels : Notes)
  | listStates (q : StateQuery)
  | listDelayed (q : DelayQuery)
  | fetchBlob (id : BlobId) (rev : Int)
  /-- Entries that another thread read or committed before reach the ring. -/
  | arrive (states : List State)

namespace Visit

open Repository Effect

def act : Visit → Access Unit
  | call (.commit now parts) => discard (Repository.commit now parts)
  | call (.delay state dueAt) => discard (Repository.delay state dueAt)
  | call (.acknowledge offset) => Repository.acknowledge offset
  | call (.storeBlob blob) => discard (Repository.storeBlob blob)
  | direct request => modify fun r => { r with store := r.store.serve request }
  | refresh => discard Repository.refresh
  | findState id rev => discard (Repository.findState id rev)
  | findLabelled labels => discard (Repository.findLabelled labels)
  | listStates q => discard (Repository.listStates q)
  | listDelayed q => discard (Repository.listDelayed q)
  | fetchBlob id rev => discard (Repository.fetchBlob id rev)
  | arrive states => do
    let r ← get
    Repository.offer (states.filter (· ∈ r.store.log.entries))

/-- What a visit offers to the ring, in this order. -/
def offers (r : Repository) : Visit → List State
  | call (.commit now parts) =>
    match ((Repository.commit now parts).run.run r).1 with
    | .ok done => Ring.committed done
    | .error _ => []
  | refresh => r.lag
  | arrive states => states.filter (· ∈ r.store.log.entries)
  | _ => []

/-- What a visit that goes through the cache adds to the log. -/
def adds (r : Repository) : Visit → List State
  | call request => (call request).offers r
  | _ => []

end Visit

namespace Repository

def visit (r : Repository) (v : Visit) : Repository := (v.act.run.run r).2

/-- An empty store behind an empty cache, after some visits. -/
def run (capacity : Nat) (visits : List Visit) : Repository :=
  visits.foldl visit (new (.cached ⟨Ring.ofCapacity capacity, 0, 0⟩))

open Effect

variable {r : Repository} {v : Visit}

/-- What a visit leads to. Other clients may change the wrapped store as they like; what goes
through the cache adds no entry that is not offered to the ring at once. -/
structure Visited (r : Repository) (v : Visit) : Prop where
  becomes : r.Becomes (r.visit v).store (v.offers r) (r.visit v)
  served : (r.visit v).store = r.store ∨ ∃ request, (r.visit v).store = r.store.serve request
  entries : (∀ request, v ≠ .direct request) →
    (r.visit v).store.log.entries = r.store.log.entries ++ v.adds r

theorem visit_of_discard {α : Type} {x : Access α} (h : v.act = discard x) :
    r.visit v = (x.run.run r).2 := by
  have hlead : Leads (discard x) r fun _ r' => r' = (x.run.run r).2 := leads_discard.2 rfl
  unfold visit
  rw [h]
  exact hlead

theorem visited_of_same (h : r.Becomes r.store (v.offers r) (r.visit v)) (hadds : v.adds r = []) :
    Visited r v := by
  refine ⟨?_, .inl h.store, fun _ => ?_⟩
  · rw [h.store]
    exact h
  · rw [h.store, hadds, List.append_nil]

theorem visited_of_read {α : Type} {x : Access α} (hact : v.act = discard x)
    (hoffers : v.offers r = []) (hadds : v.adds r = [])
    (h : Leads x r fun _ r' => r.Becomes r.store [] r') : Visited r v := by
  refine visited_of_same ?_ hadds
  rw [visit_of_discard hact, hoffers]
  exact h

theorem visited_of_serve (request : Store.Request)
    (h : r.Becomes (r.store.serve request) [] (r.visit v)) (hoffers : v.offers r = [])
    (hkeeps : (∀ request, v ≠ .direct request) →
      (r.store.serve request).log = r.store.log ∧ v.adds r = []) : Visited r v := by
  refine ⟨?_, .inr ⟨request, h.store⟩, fun hv => ?_⟩
  · rw [h.store, hoffers]
    exact h
  · rw [h.store, (hkeeps hv).1, (hkeeps hv).2, List.append_nil]

theorem visited_commit (hcached : r.Cached) (hlog : r.store.log.Sound) (now : Instant)
    (parts : List Command) : Visited r (.call (.commit now parts)) := by
  have hends : Ends now parts r ((commit now parts).run.run r).1
      (r.visit (.call (.commit now parts))) := by
    rw [visit_of_discard rfl]
    exact leads_commit hcached now parts
  have hoffers : (Visit.call (.commit now parts)).offers r =
      match ((commit now parts).run.run r).1 with
      | .ok done => Ring.committed done
      | .error _ => [] := rfl
  generalize ((commit now parts).run.run r).1 = outcome at hends hoffers
  generalize hvisit : r.visit (.call (.commit now parts)) = r' at hends
  cases hends with
  | refused hnamed =>
    refine visited_of_same ?_ hoffers
    rw [hoffers, hvisit]
    exact hcached.becomes_self
  | failed _ _ hr =>
    refine visited_of_same ?_ hoffers
    rw [hoffers, hvisit]
    exact hr
  | done _ hok hr =>
    have hserve : r.store.serve (.commit now parts) = r'.store :=
      (Store.serve_commit_of_ok hok).trans hr.store.symm
    refine ⟨?_, .inr ⟨.commit now parts, ?_⟩, fun _ => ?_⟩
    · rw [hoffers, hvisit, hr.store]
      exact hr
    · rw [hvisit, hserve]
    · change _ = _ ++ (Visit.call (.commit now parts)).offers r
      rw [hoffers, hvisit, hr.store]
      exact Store.entries_of_commit hlog hok

/-- The cached repository mirrors a sound log in its ring. -/
structure Mirrored (r : Repository) : Prop where
  cached : r.Cached
  log : r.store.log.Sound
  mirrors : r.ring.Mirrors r.store.log

theorem Mirrored.visited (h : r.Mirrored) (v : Visit) : Visited r v := by
  obtain ⟨hcached, hlog, hmirrors⟩ := h
  cases v with
  | call request =>
    cases request with
    | commit now parts => exact visited_commit hcached hlog now parts
    | delay state dueAt =>
      refine visited_of_serve (.delay state dueAt) ?_ rfl fun _ => ⟨rfl, rfl⟩
      rw [visit_of_discard rfl]
      exact leads_changeStore hcached rfl
    | acknowledge offset =>
      refine visited_of_serve (.acknowledge offset) ?_ rfl fun _ => ⟨rfl, rfl⟩
      exact leads_changeStore hcached rfl
    | storeBlob blob =>
      refine visited_of_serve (.storeBlob blob) ?_ rfl fun _ => ⟨rfl, rfl⟩
      rw [visit_of_discard rfl]
      exact leads_storeBlob hcached blob
  | direct request =>
    exact visited_of_serve request ⟨⟨hcached.gate, hcached.front⟩, rfl, rfl⟩ rfl
      fun hv => absurd rfl (hv request)
  | refresh =>
    refine visited_of_same ?_ rfl
    rw [visit_of_discard rfl]
    exact (leads_refresh hcached hlog hmirrors).mono fun _ _ hr => hr.2.2
  | findState id rev =>
    exact visited_of_read rfl rfl rfl ((leads_findState hcached id rev).mono fun _ _ hr => hr.2)
  | findLabelled labels =>
    exact visited_of_read rfl rfl rfl (leads_readStore hcached fun _ hr => hr)
  | listStates q =>
    exact visited_of_read rfl rfl rfl ((leads_listStates hcached q).mono fun _ _ hr => hr.2)
  | listDelayed q =>
    exact visited_of_read rfl rfl rfl (leads_readStore hcached fun _ hr => hr)
  | fetchBlob id rev => exact visited_of_read rfl rfl rfl (leads_fetchBlob hcached id rev)
  | arrive states =>
    refine visited_of_same ?_ rfl
    have hoffer : Leads (Visit.arrive states).act r fun _ r' =>
        r.Becomes r.store (states.filter (· ∈ r.store.log.entries)) r' := by
      unfold Visit.act
      simp only [leads_bind, leads_get]
      exact leads_offer hcached fun _ hr => hr
    exact hoffer

theorem Mirrored.grows (h : r.Mirrored) (v : Visit) :
    (r.visit v).store.log.Sound ∧ r.store.log.entries <+: (r.visit v).store.log.entries := by
  rcases (h.visited v).served with hsame | ⟨request, hserve⟩
  · rw [hsame]
    exact ⟨h.log, List.prefix_rfl⟩
  · rw [hserve]
    exact ⟨Store.sound_serve h.log request, Store.prefix_serve _ request⟩

theorem Mirrored.offers_mem (h : r.Mirrored) {v : Visit} {s : State} (hs : s ∈ v.offers r) :
    s ∈ (r.visit v).store.log.entries := by
  have hpre := (h.grows v).2
  cases v with
  | call request =>
    rw [(h.visited (.call request)).entries fun _ => nofun]
    exact List.mem_append_right _ hs
  | refresh => exact hpre.subset (List.mem_of_mem_drop hs)
  | arrive states => exact hpre.subset (of_decide_eq_true (List.mem_filter.1 hs).2)
  | direct | findState | findLabelled | listStates | listDelayed | fetchBlob =>
    exact absurd hs List.not_mem_nil

theorem Mirrored.visit (h : r.Mirrored) (v : Visit) : (r.visit v).Mirrored := by
  obtain ⟨hlog, hpre⟩ := h.grows v
  have hbecomes := (h.visited v).becomes
  refine ⟨hbecomes.cached, hlog, ?_⟩
  rw [hbecomes.ring]
  exact (h.mirrors.mono hpre).offers hlog fun s hs => h.offers_mem hs

theorem run_append_singleton (capacity : Nat) (visits : List Visit) (v : Visit) :
    run capacity (visits ++ [v]) = (run capacity visits).visit v :=
  List.foldl_append

theorem mirrored_run (capacity : Nat) (visits : List Visit) : (run capacity visits).Mirrored := by
  induction visits using List.reverseRecOn with
  | nil =>
    exact ⟨⟨Gate.open_free, _, rfl⟩, Log.sound_empty, Ring.mirrors_ofCapacity capacity _⟩
  | append_singleton visits v ih =>
    rw [run_append_singleton]
    exact ih.visit v

end Repository

end Workflow
