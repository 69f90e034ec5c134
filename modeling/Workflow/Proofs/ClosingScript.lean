import Workflow.Proofs.Closing

/-!
# What a closed engine bears of a script

The steps of a script, and what they wait for, leave a closed engine as it is, whatever they are.
-/

set_option autoImplicit false

namespace Workflow.Scenario.Script

open Event World

variable {e : Nat} {idle : Prop} {α : Type}

/-! ### Steps on a store -/

theorem respects_saveDraft (name : Option String) (d : Option Draft) :
    Respects e idle (saveDraft name d) := by
  unfold saveDraft
  split
  · refine respects_modify fun w h => ?_
    exact h.stays_of_eq rfl rfl rfl rfl rfl rfl
  · exact respects_pure

theorem respects_saveBlob (name : Option String) (b : Option Blob) :
    Respects e idle (saveBlob name b) := by
  unfold saveBlob
  split
  · refine respects_modify fun w h => ?_
    exact h.stays_of_eq rfl rfl rfl rfl rfl rfl
  · exact respects_pure

theorem respects_saveResult (name : Option String) (c : Command) :
    Respects e idle (saveResult name c) :=
  (respects_saveDraft name _).bind fun _ => respects_saveBlob name _

theorem respects_reach (bare : Bool) (x : Access α) : Respects e idle (reach bare x) := by
  unfold reach
  refine respects_ite (fun w h => ?_) (respects_access x)
  exact h.stays_of_eq rfl rfl rfl rfl rfl rfl

theorem respects_followDraft (d : DraftRecipe) : Respects e idle (followDraft d) :=
  .get_bind fun _ => respects_access _

theorem respects_followCommand (c : CommandRecipe) : Respects e idle (followCommand c) :=
  .get_bind fun _ => respects_access _

theorem respects_followAll (parts : List CommandRecipe) : Respects e idle (followAll parts) :=
  .get_bind fun _ => respects_access _

theorem respects_commit (bare direct : Bool) (recipes : List CommandRecipe)
    (save : Option String) : Respects e idle (commit bare direct recipes save) := by
  refine (respects_followAll recipes).bind fun followed => ?_
  cases followed with
  | error f => exact respects_pure
  | ok parts =>
    refine respects_now.bind fun time => (respects_reach bare _).bind fun outcome => ?_
    cases outcome with
    | ok done => exact (respects_saveResult save _).bind fun _ => respects_pure
    | error f => exact respects_pure

theorem respects_commitSeries (bare : Bool) (stem : String) (target : StepId)
    (modulus : Option Nat) (left i : Nat) :
    Respects e idle (commitSeries bare stem target modulus left i) := by
  induction left generalizing i with
  | zero => exact respects_pure
  | succ left ih =>
    refine respects_now.bind fun time => (respects_reach bare _).bind fun outcome => ?_
    cases outcome with
    | ok _ => exact ih (i + 1)
    | error f => exact respects_pure

theorem respects_onStore (bare direct : Bool) (step : StoreStep) :
    Respects e idle (onStore bare direct step) := by
  cases step with
  | commit parts save => exact respects_commit bare direct parts save
  | bulk n stem target modulus =>
    refine .get_bind fun w => (respects_commitSeries bare stem target modulus n 0).bind fun _ => ?_
    exact .get_bind fun _ => respects_pure
  | findState id rev save =>
    refine (respects_reach bare _).bind fun outcome => ?_
    exact (respects_saveDraft save _).bind fun _ => respects_pure
  | findLabelled labels => exact (respects_reach bare _).bind fun _ => respects_pure
  | listStates q => exact (respects_reach bare _).bind fun _ => respects_pure
  | listRevisions q => exact (respects_reach bare _).bind fun _ => respects_pure
  | listDelayed q => exact (respects_reach bare _).bind fun _ => respects_pure
  | delay s dueAt => exact (respects_reach bare _).bind fun _ => respects_pure
  | acknowledge offset => exact (respects_reach bare _).bind fun _ => respects_pure
  | storeBlob recipe save =>
    refine .get_bind fun w => (respects_access _).bind fun followed => ?_
    cases followed with
    | error f => exact respects_pure
    | ok b =>
      refine (respects_reach bare _).bind fun outcome => ?_
      exact (respects_saveBlob save _).bind fun _ => respects_pure
  | fetchBlob source rev =>
    refine .get_bind fun w => ?_
    simp only
    split
    · exact respects_pure
    · exact (respects_reach bare _).bind fun _ => respects_pure

/-! ### Commands, executions and watchers -/

theorem respects_dispatchCommand (engine : Nat) (recipe : CommandRecipe) (save : Option String) :
    Respects e idle (dispatchCommand engine recipe save) := by
  refine (respects_followCommand recipe).bind fun followed => ?_
  cases followed with
  | error f => exact respects_pure
  | ok c =>
    refine (respects_perform engine dispatch c).bind fun r => ?_
    obtain ⟨f | _, c⟩ := r
    · exact respects_pure
    · exact (respects_saveResult save c).bind fun _ => respects_pure

theorem respects_receive (name : String) (token : Option String) (deadline : Timer) :
    Respects e idle (receive name token deadline) := by
  refine .get_bind fun w => ?_
  split
  · exact respects_pure
  next watcher _ =>
    refine (respects_access watcher.next).bind fun outcome => ?_
    obtain f | ⟨found, watcher⟩ := outcome
    · exact respects_pure
    · refine Respects.bind (respects_modify fun w h => ?_) fun _ => respects_ite ?_ ?_
      · exact h.stays_of_eq rfl rfl rfl rfl rfl rfl
      · exact respects_now.bind fun _ => respects_pure
      · exact (respects_deadlineIn _).bind fun _ => .get_bind fun _ => respects_pure

theorem respects_resumeReceiving (name : String) (token : Option String) (deadline look : Timer)
    (seen : Nat) : Respects e idle (resumeReceiving name token deadline look seen) := by
  refine .get_bind fun w => ?_
  split
  · exact respects_pure
  · refine respects_ite (respects_now.bind fun _ => respects_pure) (respects_ite ?_ respects_pure)
    exact respects_receive name token deadline

/-! ### Components -/

theorem respects_startRecoverer (engine : Nat) (c : RecovererSettings) :
    Respects e idle (startRecoverer engine c) := by
  unfold startRecoverer
  split
  · exact respects_pure
  · split
    · exact respects_pure
    · refine (respects_perform engine _ _).bind fun r => ?_
      obtain ⟨f | _, own⟩ := r
      · exact respects_pure
      · refine (respects_spawn .recoverer).bind fun key w h => ?_
        rw [leads_bind, leads_engine]
        refine (respects_putRecoverer key fun hengine => ?_).bind (fun _ => respects_pure) w h
        subst hengine
        exact congrArg not h.shut

theorem respects_startDelayer (engine : Nat) (c : DelayerSettings) :
    Respects e idle (startDelayer engine c) := by
  unfold startDelayer
  split
  · exact respects_pure
  · split
    · exact respects_pure
    · refine (respects_perform engine _ _).bind fun r => ?_
      obtain ⟨f | _, own⟩ := r
      · exact respects_pure
      · refine (respects_spawn .delayer).bind fun key w h => ?_
        rw [leads_bind, leads_engine]
        refine (respects_putDelayer key fun hengine => ?_).bind (fun _ => respects_pure) w h
        subst hengine
        exact congrArg not h.shut

theorem respects_showRecoverer (key : Nat) (shown : Recoverer → Answer) :
    Respects e idle (showRecoverer key shown) :=
  .get_bind fun _ => respects_pure

theorem respects_showDelayer (key : Nat) (shown : Delayer → Answer) :
    Respects e idle (showDelayer key shown) :=
  .get_bind fun _ => respects_pure

theorem respects_showNamedRecoverer (name : String) (shown : Recoverer → Answer) :
    Respects e idle (showNamedRecoverer name shown) := by
  refine .get_bind fun w => ?_
  split
  · exact respects_showRecoverer _ shown
  · exact respects_pure

theorem respects_showNamedDelayer (name : String) (shown : Delayer → Answer) :
    Respects e idle (showNamedDelayer name shown) := by
  refine .get_bind fun w => ?_
  split
  · exact respects_showDelayer _ shown
  · exact respects_pure

theorem respects_startService (name : String) (c : ServiceSettings) :
    Respects e idle (startService name c) := by
  refine (respects_newEngine c.engine).bind fun engine => ?_
  refine (respects_startRecoverer engine c.recoverer).bind fun started => ?_
  obtain _ | f | recoverer := started
  · exact respects_pure
  · exact respects_pure
  · refine (respects_startDelayer engine c.delayer).bind fun started => ?_
    obtain _ | f | delayer := started
    · exact respects_pure
    · exact respects_pure
    · refine Respects.bind (respects_modify fun w h => ?_) fun _ => respects_pure
      exact h.stays_of_eq rfl rfl rfl rfl rfl rfl

theorem respects_startState (name : String) (recipe : DraftRecipe) (target : StepId)
    (save : Option String) : Respects e idle (startState name recipe target save) := by
  refine .get_bind fun w => ?_
  split
  · exact respects_pure
  next service _ =>
    refine (respects_followDraft recipe).bind fun followed => ?_
    cases followed with
    | error f => exact respects_pure
    | ok d =>
      refine (respects_perform service.engine _ ()).bind fun r => ?_
      obtain ⟨f | parts, _⟩ := r
      · exact respects_pure
      · refine (respects_launch service.engine _).bind fun _ => ?_
        exact (respects_saveDraft save _).bind fun _ => respects_pure

theorem respects_showService (name : String) : Respects e idle (showService name) := by
  refine .get_bind fun w => ?_
  split
  · exact respects_pure
  · split
    · exact (respects_engine _).bind fun _ => respects_pure
    · exact respects_pure

/-! ### Closing -/

theorem respects_finishRecoverer (key : Nat) {c : Component Recoverer}
    (hc : c.engine = e → c.cancelled = true) : Respects e idle (finishRecoverer key c) := by
  refine (respects_perform c.engine Recoverer.stop c.own).bind fun r => ?_
  exact Respects.bind (respects_putRecoverer key hc) fun _ => respects_pure

theorem respects_finishDelayer (key : Nat) {c : Component Delayer}
    (hc : c.engine = e → c.cancelled = true) : Respects e idle (finishDelayer key c) := by
  refine (respects_perform c.engine Delayer.stop c.own).bind fun r => ?_
  exact Respects.bind (respects_putDelayer key hc) fun _ => respects_pure

theorem respects_closingOutcome (what : Closing) (t : Timer) :
    Respects e idle (closingOutcome what t) := by
  refine respects_get_bind fun w h => ?_
  cases what with
  | recoverer key =>
    simp only
    split
    · exact h.stays
    next c hc =>
      split
      · refine (respects_finishRecoverer key fun he => ?_).bind (fun _ => respects_pure) w h
        exact h.recoverers key c hc he
      · exact h.stays
  | delayer key =>
    simp only
    split
    · exact h.stays
    next c hc =>
      split
      · refine (respects_finishDelayer key fun he => ?_).bind (fun _ => respects_pure) w h
        exact h.delayers key c hc he
      · exact h.stays
  | engine key =>
    refine ((respects_engine key).bind fun g => ?_) w h
    exact respects_ite respects_pure (respects_ite respects_pure respects_pure)

theorem respects_beginClosing (what : Closing) (t : Timer) :
    Respects e idle (beginClosing what t) := by
  refine respects_get_bind fun w h => ?_
  cases what with
  | recoverer key =>
    simp only
    split
    · exact h.stays
    next c hc =>
      refine Respects.bind (respects_putRecoverer key fun _ => rfl) (fun _ => ?_) w h
      refine (respects_wake key).bind fun _ => respects_ite ?_ (respects_closingOutcome _ t)
      exact (respects_finishRecoverer key fun _ => rfl).bind fun _ => respects_pure
  | delayer key =>
    simp only
    split
    · exact h.stays
    next c hc =>
      refine Respects.bind (respects_putDelayer key fun _ => rfl) (fun _ => ?_) w h
      refine (respects_wake key).bind fun _ => respects_ite ?_ (respects_closingOutcome _ t)
      exact (respects_finishDelayer key fun _ => rfl).bind fun _ => respects_pure
  | engine key =>
    exact ((respects_closeEngine key).bind fun _ => respects_closingOutcome _ t) w h

theorem respects_closedAnswer (fault : Option Fault) (shown : Option Closing) :
    Respects e idle (closedAnswer fault shown) := by
  unfold closedAnswer
  split
  · split
    · exact respects_pure
    · exact respects_showRecoverer _ _
  · split
    · exact respects_pure
    · exact respects_showDelayer _ _
  · exact respects_pure

theorem respects_closeAll (within : Span) (fault : Option Fault) (shown : Option Closing)
    (things : List Closing) : Respects e idle (closeAll within fault shown things) := by
  induction things generalizing fault with
  | nil => exact (respects_closedAnswer fault shown).bind fun _ => respects_pure
  | cons what others ih =>
    refine (respects_deadlineIn within).bind fun deadline => ?_
    refine (respects_beginClosing what _).bind fun outcome => ?_
    obtain _ | f | _ := outcome
    · exact respects_pure
    · exact ih _
    · exact ih _

/-! ### Turns -/

theorem respects_settleTurn (engine left : Nat) : Respects e idle (settleTurn engine left) :=
  (respects_deadlineIn lookInterval).bind fun _ => respects_pure

theorem leads_engineKey (name : String) (w : World) :
    Leads (engineKey name) w fun key _ => key = (w.engineKeys.get? name).getD w.nextKey := by
  unfold engineKey
  rw [leads_bind, leads_get]
  cases w.engineKeys.get? name with
  | none => rfl
  | some key => rfl

theorem leads_begin {w : World} (h : w.Closed e) (step : Step)
    (hidle : idle → ∀ engine, executes? w step = some engine → engine = e) :
    Leads (begin step) w fun _ v => w.Stays e idle v := by
  suffices hrest : (∀ name recipe, step ≠ .execute name recipe) → Respects e idle (begin step) by
    cases step with
    | execute name recipe =>
      have hboth : Leads (engineKey name) w fun key v =>
          w.Stays e idle v ∧ key = (w.engineKeys.get? name).getD w.nextKey :=
        ⟨respects_engineKey name w h, leads_engineKey name w⟩
      refine leads_bind.mpr (hboth.mono fun key v hv => ?_)
      obtain ⟨hstays, hkey⟩ := hv
      refine ((respects_followDraft recipe).bind fun followed => ?_).after hstays
      cases followed with
      | error f => exact respects_pure
      | ok d =>
        have hengine (hidle' : idle) : key = e := hkey ▸ hidle hidle' _ rfl
        exact (Execution.respects_resume hengine _).bind fun _ => respects_pure
    | _ => exact hrest nofun w h
  intro hstep
  cases step with
  | execute name recipe => exact absurd rfl (hstep name recipe)
  | onStore bare direct step =>
    exact (respects_onStore bare direct step).bind fun _ => respects_pure
  | malformed => exact respects_pure
  | log => exact .get_bind fun _ => respects_pure
  | plan m outcomes =>
    refine Respects.bind (respects_modify fun w h => ?_) fun _ => respects_pure
    exact h.stays_of_eq rfl rfl rfl rfl rfl rfl
  | calls => exact .get_bind fun _ => respects_pure
  | save recipe name =>
    refine (respects_followDraft recipe).bind fun outcome => ?_
    exact (respects_saveDraft _ _).bind fun _ => respects_pure
  | dispatch engine c save =>
    refine (respects_engineKey engine).bind fun key => ?_
    exact (respects_dispatchCommand key c save).bind fun _ => respects_pure
  | spawn name recipe =>
    refine (respects_engineKey name).bind fun key => (respects_followDraft recipe).bind fun r => ?_
    cases r with
    | error f => exact respects_pure
    | ok d =>
      exact (respects_launch key d).bind fun _ => (respects_engine key).bind fun _ => respects_pure
  | later name after parts token =>
    refine (respects_engineKey name).bind fun key => (respects_followAll parts).bind fun r => ?_
    cases r with
    | error f => exact respects_pure
    | ok parts =>
      refine Respects.bind ?_ fun _ => respects_pure
      exact (respects_spawn _).bind fun _ => respects_pure
  | sleep d =>
    refine (respects_deadlineIn d).bind fun deadline => (respects_isDue _).bind fun due => ?_
    exact respects_ite (respects_now.bind fun _ => respects_pure) respects_pure
  | settle name => exact (respects_engineKey name).bind fun key => respects_settleTurn key looks
  | showEngine name =>
    refine (respects_engineKey name).bind fun key => (respects_engine key).bind fun _ => ?_
    exact respects_now.bind fun _ => respects_pure
  | closeEngine name deadline =>
    exact (respects_engineKey name).bind fun key => respects_closeAll _ _ _ _
  | register step p =>
    refine Respects.bind (respects_modify fun w h => ?_) fun _ => respects_pure
    exact h.stays_of_eq rfl rfl rfl rfl rfl rfl
  | lookup step => exact .get_bind fun _ => respects_ite respects_pure respects_pure
  | watch name own q =>
    refine (respects_engineKey name).bind fun key => (respects_engine key).bind fun _ => ?_
    refine .get_bind fun _ => Respects.bind (respects_modify fun w h => ?_) fun _ => respects_pure
    exact h.stays_of_eq rfl rfl rfl rfl rfl rfl
  | token name =>
    refine Respects.bind (respects_modify fun w h => ?_) fun _ => respects_pure
    exact h.stays_of_eq rfl rfl rfl rfl rfl rfl
  | cancel name => exact (respects_cancel name).bind fun _ => respects_pure
  | receive name timeout token =>
    exact (respects_deadlineIn timeout).bind fun _ => respects_receive name token _
  | showCache =>
    refine .get_bind fun _ => ?_
    simp only
    split
    · exact respects_pure
    · exact respects_pure
  | refresh => exact (respects_access Repository.refresh).bind fun _ => respects_pure
  | startRefresher every =>
    refine (respects_spawn .refresher).bind fun key => ?_
    refine (respects_putRefresher key _).bind fun _ => ?_
    refine Respects.bind (respects_modify fun w h => ?_) fun _ => respects_pure
    exact h.stays_of_eq rfl rfl rfl rfl rfl rfl
  | stopRefresher =>
    refine .get_bind fun _ => ?_
    split
    · exact respects_pure
    · exact (respects_putRefresher _ _).bind fun _ => (respects_wake _).bind fun _ => respects_pure
  | startRecoverer name own c =>
    refine (respects_engineKey name).bind fun key => ?_
    refine (respects_startRecoverer key c).bind fun r => ?_
    obtain _ | f | key := r
    · exact respects_pure
    · exact respects_pure
    · refine Respects.bind (respects_modify fun w h => ?_) fun _ => ?_
      · exact h.stays_of_eq rfl rfl rfl rfl rfl rfl
      · exact (respects_showRecoverer key _).bind fun _ => respects_pure
  | showRecoverer name => exact (respects_showNamedRecoverer name _).bind fun _ => respects_pure
  | stopRecoverer name deadline =>
    refine .get_bind fun _ => ?_
    split
    · exact respects_pure
    · exact respects_closeAll _ _ _ _
  | startDelayer name own c =>
    refine (respects_engineKey name).bind fun key => ?_
    refine (respects_startDelayer key c).bind fun r => ?_
    obtain _ | f | key := r
    · exact respects_pure
    · exact respects_pure
    · refine Respects.bind (respects_modify fun w h => ?_) fun _ => ?_
      · exact h.stays_of_eq rfl rfl rfl rfl rfl rfl
      · exact (respects_showDelayer key _).bind fun _ => respects_pure
  | showDelayer name => exact (respects_showNamedDelayer name _).bind fun _ => respects_pure
  | stopDelayer name deadline =>
    refine .get_bind fun _ => ?_
    split
    · exact respects_pure
    · exact respects_closeAll _ _ _ _
  | startService name c => exact (respects_startService name c).bind fun _ => respects_pure
  | startState name d target save =>
    exact (respects_startState name d target save).bind fun _ => respects_pure
  | showService name => exact (respects_showService name).bind fun _ => respects_pure
  | stopService name deadline =>
    refine .get_bind fun _ => ?_
    split
    · exact respects_pure
    · exact respects_closeAll _ _ _ _

theorem respects_resume {wait : Wait}
    (hidle : idle → ∀ engine, awaits? wait = some engine → engine = e) :
    Respects e idle (resume wait) := by
  cases wait with
  | sleeping t =>
    refine (respects_isDue t).bind fun due => respects_ite ?_ respects_pure
    exact respects_now.bind fun _ => respects_pure
  | settling key t left =>
    refine (respects_isDue t).bind fun due => respects_ite respects_pure ?_
    refine (respects_engine key).bind fun g => respects_ite respects_pure ?_
    exact respects_settleTurn key _
  | receiving name token deadline look seen =>
    exact respects_resumeReceiving name token deadline look seen
  | executing engine phase =>
    refine (Execution.respects_resume (fun hidle' => ?_) phase).bind fun _ => respects_pure
    exact hidle hidle' engine rfl
  | closing what t others within fault shown =>
    refine (respects_closingOutcome what t).bind fun outcome => ?_
    obtain _ | f | _ := outcome
    · exact respects_pure
    · exact respects_closeAll within _ shown others
    · exact respects_closeAll within _ shown others
  | joining key =>
    refine .get_bind fun w => ?_
    split
    · exact respects_pure
    · refine respects_ite respects_pure (Respects.bind (respects_modify fun w h => ?_) fun _ => ?_)
      · exact h.stays_of_eq rfl rfl rfl rfl rfl rfl
      · exact respects_pure

end Workflow.Scenario.Script
