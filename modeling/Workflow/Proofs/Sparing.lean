import Workflow.Proofs.Access

/-!
# Accesses that fail

An access that fails leaves the store of its repository as it was. This holds behind every front and
for every fault, planned ones included: only counts of calls and what a cache keeps may change.
-/

set_option autoImplicit false

namespace Workflow

open Effect

namespace Repository

variable {r : Repository}

/-! ### Reads -/

theorem spares_pass (m : Method) : Leads (pass m) r fun _ r' => r'.store = r.store := by
  unfold pass
  simp only [leads_bind, leads_get, leads_set]
  split
  · rfl
  · rfl

theorem spares_readStore {α : Type} (m : Method) (f : Store → Except Fault α) :
    Leads (readStore m f) r fun _ r' => r'.store = r.store :=
  (spares_pass m).bind (fun _ _ hpass => hpass) fun _ _ hpass => hpass

theorem spares_hit : Leads hit r fun _ r' => r'.store = r.store := by
  unfold hit
  rw [leads_modify]
  split
  · rfl
  · rfl

theorem spares_miss : Leads miss r fun _ r' => r'.store = r.store := by
  unfold miss
  rw [leads_modify]
  split
  · rfl
  · rfl

theorem spares_missed {α : Type} (m : Method) (f : Store → Except Fault α) :
    Leads (do miss; readStore m f) r fun _ r' => r'.store = r.store := by
  refine spares_miss.bind (fun _ t hmiss => ?_) fun _ _ hmiss => hmiss
  exact (spares_readStore m f).mono fun _ _ hread => hread.trans hmiss

theorem spares_findState (id : StateId) (rev : Int) :
    Leads (findState id rev) r fun _ r' => r'.store = r.store := by
  unfold findState
  simp only [leads_bind, leads_get]
  cases r.cache?.bind (·.ring.find? id rev) with
  | some answer => exact spares_hit.bind (fun _ _ hhit => hhit) fun _ _ hhit => hhit
  | none => exact spares_missed .findState _

theorem spares_listStates (q : StateQuery) :
    Leads (listStates q) r fun _ r' => r'.store = r.store := by
  unfold listStates
  simp only [leads_bind, leads_get]
  cases r.cache?.bind (·.ring.page? q) with
  | some page => exact spares_hit.bind (fun _ _ hhit => hhit) fun _ _ hhit => hhit
  | none => exact spares_missed .listStates _

theorem spares_fetchBlob (id : BlobId) (rev : Int) :
    Leads (fetchBlob id rev) r fun _ r' => r'.store = r.store := by
  unfold fetchBlob
  simp only [leads_bind, leads_get]
  split
  · rfl
  · exact spares_readStore .fetchBlob _

/-! ### Changes -/

theorem tries_changeStore {α : Type} (m : Method) (f : Store → Except Fault (Store × α)) :
    Leads (changeStore m f) r fun outcome r' =>
      (∃ a, outcome = .ok a) ∨ r'.store = r.store :=
  (spares_readStore m f).bind (fun result _ _ => .inl ⟨result.2, rfl⟩)
    fun _ _ hread => .inr hread

theorem tries_storeBlob (blob : Blob) :
    Leads (storeBlob blob) r fun outcome r' =>
      (∃ stored, outcome = .ok stored) ∨ r'.store = r.store := by
  unfold storeBlob
  simp only [leads_bind, leads_get]
  split
  · exact .inr rfl
  · exact tries_changeStore .storeBlob _

theorem tries_commit (now : Instant) (parts : List Command) :
    Leads (commit now parts) r fun outcome r' =>
      (∃ done, outcome = .ok done) ∨ r'.store = r.store := by
  unfold commit transact
  simp only [leads_bind, leads_get]
  split
  · exact .inr rfl
  · simp only [leads_bind]
    refine (spares_pass .commit).mono fun outcome r' hpass => ?_
    cases outcome with
    | error fault => exact .inr hpass
    | ok =>
      simp only [leads_get, Transaction.run_commit]
      cases r'.store.prepare parts with
      | error fault => exact .inr hpass
      | ok staged => exact .inl ⟨_, rfl⟩

end Repository

/-! ### Work that fails -/

/-- Only the repository of a site changed. -/
def Site.Beside (site site' : Site) : Prop := site' = { site with repository := site'.repository }

/-- Nothing changed at a site but what its repository counts and keeps of what was read. -/
structure Site.Spared (site site' : Site) : Prop where
  beside : site.Beside site'
  store : site'.store = site.store

/-- Work succeeded, or it spared the site. -/
def Site.Tried (won : Prop) (site site' : Site) : Prop :=
  won ∧ site.Beside site' ∨ site.Spared site'

theorem Site.Spared.refl (site : Site) : site.Spared site := ⟨rfl, rfl⟩

theorem Site.Spared.trans {a b c : Site} (hab : a.Spared b) (hbc : b.Spared c) : a.Spared c := by
  refine ⟨?_, hbc.store.trans hab.store⟩
  have hb := hab.beside
  have hc := hbc.beside
  unfold Site.Beside at hb hc ⊢
  rw [hc, hb]

theorem Site.Spared.tried {won : Prop} {a b c : Site} (hab : a.Spared b) (h : b.Tried won c) :
    a.Tried won c := by
  rcases h with ⟨hwon, hbc⟩ | hbc
  · refine .inl ⟨hwon, ?_⟩
    have hb := hab.beside
    unfold Site.Beside at hb hbc ⊢
    rw [hbc, hb]
  · exact .inr (hab.trans hbc)

end Workflow
