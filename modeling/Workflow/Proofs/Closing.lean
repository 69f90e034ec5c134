import Workflow.Proofs.Looping
import Workflow.Proofs.Moves

/-!
# What a closed engine bears

Whatever happens in a world, an engine that is closed stays closed, the loops of its components stay
told to stop, and no more executions of it go on. Steps begin in executions of other engines only.
It is shown of each event from the events that it is made of.
-/

set_option autoImplicit false

namespace Workflow.Scenario

/-- Whether a step reports that it begins. -/
def Report.isEntered : Report → Bool
  | entered .. => true
  | _ => false

namespace World

open Event

/-- An engine is closed, and the loops of its components were told to stop. -/
structure Closed (e : Nat) (w : World) : Prop where
  known : e < w.nextKey
  shut : (engineAt w e).isOpen = false
  recoverers : ∀ key c, w.recoverers.get? key = some c → c.engine = e → c.cancelled = true
  delayers : ∀ key c, w.delayers.get? key = some c → c.engine = e → c.cancelled = true

/-- How many steps have begun, as far as it was not looked at yet. -/
def begun (w : World) : Nat := w.reports.countP Report.isEntered

/-- A closed engine is still closed, and no more executions of it go on. Where it is `idle`, no step
has begun. -/
structure Stays (e : Nat) (idle : Prop) (w v : World) : Prop where
  closed : v.Closed e
  running_le : (engineAt v e).running ≤ (engineAt w e).running
  begun_le : idle → v.begun ≤ w.begun

variable {e : Nat} {idle : Prop} {w v u : World}

theorem Closed.stays (h : w.Closed e) : w.Stays e idle w :=
  ⟨h, Nat.le_refl _, fun _ => Nat.le_refl _⟩

theorem Stays.trans (hwv : w.Stays e idle v) (hvu : v.Stays e idle u) : w.Stays e idle u :=
  ⟨hvu.closed, Nat.le_trans hvu.running_le hwv.running_le,
    fun hidle => Nat.le_trans (hvu.begun_le hidle) (hwv.begun_le hidle)⟩

theorem Closed.stays_of_eq (h : w.Closed e) (hengines : v.engines = w.engines)
    (husual : v.usual = w.usual) (hkey : v.nextKey = w.nextKey)
    (hrecoverers : v.recoverers = w.recoverers) (hdelayers : v.delayers = w.delayers)
    (hreports : v.reports = w.reports) : w.Stays e idle v := by
  have hengine : engineAt v e = engineAt w e := by
    unfold engineAt
    rw [hengines, husual]
  refine ⟨⟨hkey ▸ h.known, hengine ▸ h.shut, hrecoverers ▸ h.recoverers, hdelayers ▸ h.delayers⟩,
    Nat.le_of_eq (congrArg Engine.running hengine), fun _ => ?_⟩
  exact Nat.le_of_eq (congrArg (List.countP Report.isEntered) hreports)

theorem engineAt_insert (w : World) (key : Nat) (g : Engine) (e : Nat) :
    engineAt { w with engines := w.engines.insert key g } e =
      if e = key then g else engineAt w e := by
  change ((w.engines.insert key g).get? e).getD _ = _
  rw [SortedMap.get?_insert]
  split
  · rfl
  · rfl

theorem Closed.stays_engine (h : w.Closed e) {key : Nat} {g : Engine}
    (hg : e = key → g.isOpen = false ∧ g.running ≤ (engineAt w e).running) :
    w.Stays e idle { w with engines := w.engines.insert key g } := by
  have hat := engineAt_insert w key g e
  by_cases hkey : e = key
  · obtain ⟨hshut, hle⟩ := hg hkey
    rw [if_pos hkey] at hat
    rw [← hat] at hshut hle
    exact ⟨⟨h.known, hshut, h.recoverers, h.delayers⟩, hle, fun _ => Nat.le_refl _⟩
  · rw [if_neg hkey] at hat
    have hshut := h.shut
    rw [← hat] at hshut
    exact ⟨⟨h.known, hshut, h.recoverers, h.delayers⟩, Nat.le_of_eq (congrArg Engine.running hat),
      fun _ => Nat.le_refl _⟩

theorem Closed.stays_other (h : w.Closed e) {key : Nat} (hne : e ≠ key) (g : Engine) :
    w.Stays e idle { w with engines := w.engines.insert key g } :=
  h.stays_engine fun heq => absurd heq hne

theorem Closed.stays_spawned (h : w.Closed e) (task : Task) : w.Stays e idle (spawned task w) :=
  ⟨⟨Nat.lt_succ_of_lt h.known, h.shut, h.recoverers, h.delayers⟩, Nat.le_refl _,
    fun _ => Nat.le_refl _⟩

theorem Closed.stays_recoverer (h : w.Closed e) (key : Nat) {c : Component Recoverer}
    (hc : c.engine = e → c.cancelled = true) :
    w.Stays e idle { w with recoverers := w.recoverers.insert key c } := by
  refine ⟨⟨h.known, h.shut, fun key' c' hc' => ?_, h.delayers⟩, Nat.le_refl _,
    fun _ => Nat.le_refl _⟩
  change (w.recoverers.insert key c).get? key' = some c' at hc'
  rw [SortedMap.get?_insert] at hc'
  split at hc'
  · cases hc'
    exact hc
  · exact h.recoverers key' c' hc'

theorem Closed.stays_delayer (h : w.Closed e) (key : Nat) {c : Component Delayer}
    (hc : c.engine = e → c.cancelled = true) :
    w.Stays e idle { w with delayers := w.delayers.insert key c } := by
  refine ⟨⟨h.known, h.shut, h.recoverers, fun key' c' hc' => ?_⟩, Nat.le_refl _,
    fun _ => Nat.le_refl _⟩
  change (w.delayers.insert key c).get? key' = some c' at hc'
  rw [SortedMap.get?_insert] at hc'
  split at hc'
  · cases hc'
    exact hc
  · exact h.delayers key' c' hc'

theorem Closed.stays_report (h : w.Closed e) {r : Report} (hr : idle → r.isEntered = false) :
    w.Stays e idle { w with reports := w.reports ++ [r] } := by
  refine ⟨⟨h.known, h.shut, h.recoverers, h.delayers⟩, Nat.le_refl _, fun hidle => ?_⟩
  change (w.reports ++ [r]).countP Report.isEntered ≤ w.reports.countP Report.isEntered
  rw [List.countP_append, List.countP_singleton, hr hidle]
  exact Nat.le_refl _

end World

namespace Event

open World

/-- An event leaves a closed engine as it is. -/
def Respects {α : Type} (e : Nat) (idle : Prop) (x : Event α) : Prop :=
  ∀ w, w.Closed e → Leads x w fun _ v => w.Stays e idle v

section

variable {e : Nat} {idle : Prop} {α β γ : Type}

theorem respects_pure {a : α} : Respects e idle (pure a) := fun _ h => h.stays

theorem Respects.after {x : Event α} (hx : Respects e idle x) {w v : World}
    (hv : w.Stays e idle v) : Leads x v fun _ u => w.Stays e idle u :=
  (hx v hv.closed).mono fun _ _ => hv.trans

theorem Respects.bind {x : Event α} {f : α → Event β} (hx : Respects e idle x)
    (hf : ∀ a, Respects e idle (f a)) : Respects e idle (x >>= f) := by
  intro w h
  rw [leads_bind]
  exact (hx w h).mono fun a v hv => (hf a).after hv

theorem respects_get_bind {f : World → Event β}
    (hf : ∀ w, w.Closed e → Leads (f w) w fun _ v => w.Stays e idle v) :
    Respects e idle (get >>= f) := hf

theorem Respects.get_bind {f : World → Event β} (hf : ∀ w, Respects e idle (f w)) :
    Respects e idle (get >>= f) := fun w => hf w w

theorem respects_modify {f : World → World}
    (hf : ∀ w : World, w.Closed e → w.Stays e idle (f w)) :
    Respects e idle (modify f : Event PUnit) := hf

theorem respects_forIn {l : List γ} {f : γ → PUnit → Event (ForInStep PUnit)}
    (hf : ∀ a ∈ l, Respects e idle (f a ⟨⟩)) : Respects e idle (forIn l ⟨⟩ f) := by
  induction l with
  | nil => exact respects_pure
  | cons a rest ih =>
    rw [List.forIn_cons]
    refine (hf a List.mem_cons_self).bind fun step => ?_
    cases step with
    | done _ => exact respects_pure
    | yield _ => exact ih fun b hb => hf b (List.mem_cons_of_mem _ hb)

theorem respects_ite {p : Prop} [Decidable p] {x y : Event α} (hx : Respects e idle x)
    (hy : Respects e idle y) : Respects e idle (if p then x else y) := by
  split
  · exact hx
  · exact hy

/-! ### Time and tasks -/

theorem respects_elapsed : Respects e idle elapsed := fun _ h => h.stays

theorem respects_now : Respects e idle now := fun _ h => h.stays

theorem respects_deadlineIn (d : Span) : Respects e idle (deadlineIn d) := fun _ h => h.stays

theorem respects_isDue (t : Timer) : Respects e idle (isDue t) := fun _ h => h.stays

theorem respects_setTimer (t : Timer) : Respects e idle (setTimer t) := by
  intro w h
  unfold setTimer
  split
  · exact h.stays
  · exact h.stays_of_eq rfl rfl rfl rfl rfl rfl

theorem respects_report {r : Report} (hr : idle → r.isEntered = false) :
    Respects e idle (report r) := fun _ h => h.stays_report hr

theorem respects_spawn (task : Task) : Respects e idle (spawn task) :=
  fun _ h => h.stays_spawned task

theorem respects_wake (key : Nat) : Respects e idle (wake key) := by
  refine respects_modify fun w h => ?_
  split
  · exact h.stays_of_eq rfl rfl rfl rfl rfl rfl
  · exact h.stays

/-! ### Engines -/

theorem respects_engine (key : Nat) : Respects e idle (engine key) := fun _ h => h.stays

theorem respects_changeEngine {key : Nat} {f : Engine → Engine}
    (hf : ∀ g : Engine, g.isOpen = false → (f g).isOpen = false ∧ (f g).running ≤ g.running) :
    Respects e idle (changeEngine key f) := by
  intro w h
  rw [leads_changeEngine]
  refine h.stays_engine ?_
  rintro rfl
  exact hf _ h.shut

theorem respects_newEngine (settings : EngineSettings) :
    Respects e idle (newEngine settings) := by
  intro w h
  rw [leads_newEngine]
  have hengine : w.Stays e idle
      { w with engines := w.engines.insert w.nextKey ⟨settings, true, 0⟩ } :=
    h.stays_other (Nat.ne_of_lt h.known) _
  exact ⟨⟨Nat.lt_succ_of_lt h.known, hengine.closed.shut, h.recoverers, h.delayers⟩,
    hengine.running_le, fun _ => Nat.le_refl _⟩

theorem respects_engineKey (name : String) : Respects e idle (engineKey name) := by
  unfold engineKey
  refine .get_bind fun w => ?_
  split
  · exact respects_pure
  · refine (respects_newEngine _).bind fun key => ?_
    refine Respects.bind (respects_modify fun w h => ?_) fun _ => respects_pure
    exact h.stays_of_eq rfl rfl rfl rfl rfl rfl

theorem respects_launch (key : Nat) (d : Draft) : Respects e idle (launch key d) := by
  intro w h
  rw [leads_launch]
  split
  next hopen =>
    have hne : e ≠ key := by
      rintro rfl
      rw [h.shut] at hopen
      cases hopen
    have hengine (g : Engine) :
        w.Stays e idle { w with engines := w.engines.insert key g } := h.stays_other hne g
    exact (hengine _).trans ((hengine _).closed.stays_spawned _)
  next => exact h.stays

theorem respects_perform {σ : Type} (key : Nat) (x : Work σ α) (own : σ) :
    Respects e idle (perform key x own) := by
  intro w h
  rw [leads_perform]
  have hrepository (r : Repository) : w.Stays e idle { w with repository := r } :=
    h.stays_of_eq rfl rfl rfl rfl rfl rfl
  refine each_keeps (P := fun v => w.Stays e idle v) (fun d _ v hv => ?_) (hrepository _)
  exact (respects_launch key d).after hv

theorem respects_access (x : Access α) : Respects e idle (access x) :=
  fun _ h => h.stays_of_eq rfl rfl rfl rfl rfl rfl

theorem respects_cancel (name : String) : Respects e idle (cancel name) :=
  fun _ h => h.stays_of_eq rfl rfl rfl rfl rfl rfl

/-! ### Components -/

theorem respects_putRecoverer (key : Nat) {c : Component Recoverer}
    (hc : c.engine = e → c.cancelled = true) : Respects e idle (putRecoverer key c) :=
  fun _ h => h.stays_recoverer key hc

theorem respects_putDelayer (key : Nat) {c : Component Delayer}
    (hc : c.engine = e → c.cancelled = true) : Respects e idle (putDelayer key c) :=
  fun _ h => h.stays_delayer key hc

theorem respects_putRefresher (key : Nat) (c : Component Unit) :
    Respects e idle (putRefresher key c) :=
  fun _ h => h.stays_of_eq rfl rfl rfl rfl rfl rfl

theorem respects_closeEngine (key : Nat) : Respects e idle (closeEngine key) := by
  unfold closeEngine
  refine Respects.bind (respects_changeEngine fun g _ => ?_) fun _ => ?_
  · exact ⟨rfl, Nat.le_refl _⟩
  refine .get_bind fun w => (respects_forIn fun a _ => ?_).bind fun _ => .get_bind fun w' =>
    (respects_forIn fun a _ => ?_).bind fun _ => respects_pure
  · refine respects_ite (Respects.bind ?_ fun _ => respects_pure) respects_pure
    exact (respects_putRecoverer _ fun _ => rfl).bind fun _ => respects_wake _
  · refine respects_ite (Respects.bind ?_ fun _ => respects_pure) respects_pure
    exact (respects_putDelayer _ fun _ => rfl).bind fun _ => respects_wake _

end

end Event

namespace Execution

open Event

variable {e : Nat} {idle : Prop}

theorem respects_follow (d : Draft) (c : CommandRecipe) : Respects e idle (follow d c) :=
  .get_bind fun _ => respects_access _

theorem respects_dispatchAction (engine : Nat) (d : Draft) (c : CommandRecipe) :
    Respects e idle (dispatchAction engine d c) := by
  refine (respects_follow d c).bind fun followed => ?_
  cases followed with
  | error f => exact respects_pure
  | ok c =>
    refine (respects_perform engine dispatch c).bind fun r => ?_
    obtain ⟨f | _, c⟩ := r
    · exact (respects_report fun _ => rfl).bind fun _ => respects_pure
    · exact (respects_report fun _ => rfl).bind fun _ => respects_pure

theorem respects_commitAction (engine : Nat) (d : Draft) (parts : List CommandRecipe) :
    Respects e idle (commitAction engine d parts) := by
  refine (respects_follow d _).bind fun followed => ?_
  split
  · refine (respects_perform engine _ ()).bind fun r => ?_
    split
    · exact respects_pure
    · exact respects_pure
  · exact respects_pure
  · exact respects_pure

theorem respects_takeAction (engine : Nat) (d : Draft) (a : Action) :
    Respects e idle (takeAction engine d a) := by
  unfold takeAction
  cases a.bundle with
  | none =>
    simp only
    split
    · refine (respects_dispatchAction engine _ _).bind fun r => ?_
      split
      · exact respects_ite respects_pure respects_pure
      · exact respects_pure
    · exact respects_pure
  | some parts =>
    have hbundle (d : Draft) : Respects e idle (commitAction engine d parts) :=
      respects_commitAction engine d parts
    simp only
    split
    · refine (respects_dispatchAction engine _ _).bind fun r => ?_
      split
      · exact respects_ite respects_pure (hbundle _)
      · exact hbundle _
    · exact hbundle _

theorem respects_goOn (engine : Nat) (c : Command) : Respects e idle (goOn engine c) := by
  unfold goOn
  split
  · exact respects_pure
  · refine (respects_forIn fun d _ => ?_).bind fun _ => respects_pure
    exact (respects_launch engine d).bind fun _ => respects_pure

theorem respects_conclude (engine : Nat) (d : Draft) (outcome : Outcome) :
    Respects e idle (conclude engine d outcome) := by
  cases outcome with
  | fault f => exact respects_pure
  | command recipe =>
    refine (respects_follow d recipe).bind fun followed => ?_
    split
    · exact respects_pure
    · exact respects_goOn engine _
    · refine (respects_perform engine dispatch _).bind fun r => ?_
      split
      · exact respects_goOn engine _
      · exact respects_pure

theorem respects_nap (a : Action) : Respects e idle (nap a) := by
  unfold nap
  split
  · exact respects_pure
  · refine (respects_deadlineIn _).bind fun deadline => (respects_isDue _).bind fun due => ?_
    refine respects_ite respects_pure ?_
    exact (respects_setTimer _).bind fun _ => respects_pure

theorem respects_act (engine : Nat) (outcome : Outcome) (d : Draft) (actions : List Action) :
    Respects e idle (act engine outcome d actions) := by
  induction actions generalizing d with
  | nil => exact respects_conclude engine d outcome
  | cons a rest ih =>
    refine (respects_nap a).bind fun timer => ?_
    cases timer with
    | some timer => exact respects_pure
    | none =>
      refine (respects_takeAction engine d a).bind fun taken => ?_
      cases taken with
      | ok d => exact ih d
      | error f => exact respects_pure

theorem run_enter_of_closed {w : World} (h : w.Closed e) (d : Draft) :
    (enter e d).run w = (done, w) := by
  rw [run_eq_iff]
  unfold enter
  simp only [leads_bind, leads_engine, h.shut]
  rfl

theorem respects_enter {engine : Nat} (hidle : idle → engine = e) (d : Draft) :
    Respects e idle (enter engine d) := by
  by_cases hengine : engine = e
  · subst hengine
    intro w h
    unfold Leads
    rw [run_enter_of_closed h]
    exact h.stays
  · have hno : ¬ idle := fun h => hengine (hidle h)
    refine (respects_engine engine).bind fun g => respects_ite respects_pure ?_
    refine respects_ite respects_pure (.get_bind fun w => ?_)
    split
    · exact respects_pure
    · refine Respects.bind (respects_modify fun _ h => ?_) fun _ => respects_now.bind fun time => ?_
      · exact h.stays_of_eq rfl rfl rfl rfl rfl rfl
      · exact (respects_report fun h => absurd h hno).bind fun _ => respects_act _ _ _ _

theorem respects_run {engine : Nat} (hidle : idle → engine = e) (fuel : Nat) (s : Stage) :
    Respects e idle (run engine fuel s) := by
  induction fuel generalizing s with
  | zero => cases s <;> exact respects_pure
  | succ fuel ih =>
    cases s with
    | stop p => exact respects_pure
    | enter d => exact (respects_enter hidle d).bind ih

theorem respects_leave (engine : Nat) : Respects e idle (leave engine) := by
  refine respects_changeEngine fun g hg => ?_
  exact ⟨hg, Nat.sub_le _ _⟩

theorem respects_resume {engine : Nat} (hidle : idle → engine = e) (phase : Phase) :
    Respects e idle (resume engine phase) := by
  have hfinish (p : Progress) : Respects e idle (resume.finish engine p) := by
    cases p with
    | waits phase => exact respects_pure
    | ended outcome => exact (respects_leave engine).bind fun _ => respects_pure
  cases phase with
  | asleep timer d actions outcome =>
    refine (respects_isDue timer).bind fun due => respects_ite ?_ respects_pure
    refine (respects_act engine outcome d actions).bind fun stage => ?_
    exact (respects_run hidle patience stage).bind hfinish
  | fresh d =>
    intro w h
    unfold resume
    simp only [leads_bind, leads_engine]
    split
    · exact h.stays
    next hopen =>
      have hne : e ≠ engine := by
        rintro rfl
        simp [h.shut] at hopen
      simp only [leads_bind, leads_changeEngine]
      exact ((respects_run hidle patience _).bind hfinish).after (h.stays_other hne _)

end Execution

namespace Component

open Event

variable {σ : Type} {e : Nat} {idle : Prop}

theorem respects_nextDuty (duties : List (Duty σ)) (timers : List Timer) :
    Respects e idle (nextDuty duties timers) := by
  induction duties generalizing timers with
  | nil => exact respects_pure
  | cons d duties ih =>
    cases timers with
    | nil => exact respects_pure
    | cons t timers =>
      refine (respects_isDue t).bind fun due => respects_ite respects_pure ?_
      exact (respects_setTimer t).bind fun t => (ih timers).bind fun _ => respects_pure

theorem respects_runDuties (c : Component σ) (fuel : Nat) (timers : List Timer) :
    Respects e idle (c.runDuties fuel timers) := by
  induction fuel generalizing c timers with
  | zero => exact respects_pure
  | succ fuel ih =>
    refine (respects_nextDuty c.duties timers).bind fun next => ?_
    obtain ⟨_ | duty, timers⟩ := next
    · exact respects_pure
    · exact (respects_perform c.engine duty.work c.own).bind fun r => ih _ timers

theorem respects_goOn (c : Component σ) : Respects e idle c.goOn := by
  refine respects_elapsed.bind fun now => ?_
  split
  · exact respects_pure
  · exact respects_ite respects_pure (respects_runDuties c _ _)

theorem run_goOn_of_cancelled {c : Component σ} (h : c.cancelled = true) (w : World) :
    ∃ standing, standing ≠ .alive ∧ c.goOn.run w = ({ c with standing := standing }, w) := by
  suffices hleads : Leads c.goOn w fun c' v => ∃ standing, standing ≠ .alive ∧
      (c', v) = ({ c with standing := standing }, w) from hleads
  unfold goOn
  rw [leads_bind, leads_elapsed]
  split
  · exact ⟨.broken, nofun, rfl⟩
  · rw [if_pos h]
    exact ⟨.finished, nofun, rfl⟩

end Component

namespace Task

open Event

variable {e : Nat} {idle : Prop}

theorem respects_close (key : Nat) : Respects e idle (close key) := by
  refine respects_modify fun w h => ?_
  exact h.stays_of_eq rfl rfl rfl rfl rfl rfl

theorem respects_goOnLoop {σ : Type} (key : Nat) {c? : Option (Component σ)}
    {put : Component σ → Event Unit}
    (hput : ∀ c c', c? = some c → c'.engine = c.engine → c'.cancelled = c.cancelled →
      Respects e idle (put c')) : Respects e idle (goOnLoop key c? put) := by
  cases c? with
  | none => exact respects_close key
  | some c =>
    intro w h
    unfold goOnLoop
    have hboth : Leads c.goOn w fun c' v => w.Stays e idle v ∧ c.Turned c' :=
      ⟨Component.respects_goOn c w h, Component.turned_goOn c w⟩
    rw [leads_bind]
    refine hboth.mono fun c' v hv => ?_
    obtain ⟨hstays, hturned⟩ := hv
    have hput' := hput c c' rfl hturned.engine_eq hturned.cancelled_eq
    refine (hput'.bind fun _ => ?_).after hstays
    exact respects_ite (respects_close key) respects_pure

theorem leads_goOn {w : World} (h : w.Closed e) (key : Nat)
    (hidle : idle → ∀ engine, (w.tasks.get? key).bind engine? = some engine → engine = e) :
    Leads (goOn key) w fun _ v => w.Stays e idle v := by
  unfold goOn
  rw [leads_bind, leads_get]
  split
  next => exact h.stays
  next =>
    refine respects_goOnLoop key (fun c c' hc hengine hcancelled => ?_) w h
    exact respects_putRecoverer key fun he =>
      hcancelled.trans (h.recoverers key c hc (hengine.symm.trans he))
  next =>
    refine respects_goOnLoop key (fun c c' hc hengine hcancelled => ?_) w h
    exact respects_putDelayer key fun he =>
      hcancelled.trans (h.delayers key c hc (hengine.symm.trans he))
  next => exact respects_goOnLoop key (fun _ c' _ _ _ => respects_putRefresher key c') w h
  next engine phase htask =>
    have hengine (hidle' : idle) : engine = e := hidle hidle' engine (by rw [htask]; rfl)
    refine Respects.bind (Execution.respects_resume hengine phase) (fun p => ?_) w h
    cases p with
    | waits phase =>
      refine respects_modify fun w h => ?_
      exact h.stays_of_eq rfl rfl rfl rfl rfl rfl
    | ended outcome => exact (respects_close key).bind fun _ => Execution.respects_leave engine
  next engine after timer token parts htask =>
    have hcommit : Respects e idle (discard (perform engine (Work.commit parts) ())) :=
      (respects_perform engine _ ()).bind fun _ => respects_pure
    refine Respects.bind (respects_deadlineIn after) (fun deadline => ?_) w h
    refine (respects_isDue _).bind fun due => respects_ite ?_ ?_
    · refine (respects_close key).bind fun _ => ?_
      split
      · exact (respects_cancel _).bind fun _ => hcommit
      · exact hcommit
    · refine (respects_setTimer _).bind fun timer => respects_modify fun w h => ?_
      exact h.stays_of_eq rfl rfl rfl rfl rfl rfl

end Task

theorem Event.respects_jump {e : Nat} {idle : Prop} (own : List Timer) :
    Respects e idle (jump own) := by
  refine respects_get_bind fun w h => ?_
  simp only
  split
  · exact h.stays
  next first others _ =>
    have htick (tick : Nat) : w.Stays e idle { w with tick := tick } :=
      h.stays_of_eq rfl rfl rfl rfl rfl rfl
    rw [leads_bind, leads_set]
    refine (Respects.bind (respects_forIn fun a _ => ?_) fun _ => respects_pure).after (htick _)
    exact (respects_wake a.2).bind fun _ => respects_pure

end Workflow.Scenario
