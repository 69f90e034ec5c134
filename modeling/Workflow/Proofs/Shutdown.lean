import Workflow.Proofs.ClosingScript

/-!
# What a closed engine still does

Once an engine was told to close, nothing of it starts any more, in whatever order its executions
and components go on, and whatever else happens in between. A step that is under way is done to its
end, together with the command that it ends in, but nothing continues it. An execution that did not
get its first turn yet ends without a step, and the loops of components end without another scan.

The moves that follow one on another are whole turns: an engine closes between two turns, never
within one. Where a turn comes to a check of its engine, as before each step and each launch, what
it does from there on is told apart from the turn, so an engine that closes as late as between the
dispatch of a command and its continuation is covered too.
-/

set_option autoImplicit false

namespace Workflow.Scenario

open Event

/-! ### Closing -/

namespace World

/-- An engine that is being closed: of the components listed some have yet to be told to stop. -/
structure Shutting (e : Nat) (recoverers : List (Nat × Component Recoverer))
    (delayers : List (Nat × Component Delayer)) (w : World) : Prop where
  known : e < w.nextKey
  shut : (engineAt w e).isOpen = false
  recoverers : ∀ key c, w.recoverers.get? key = some c → c.engine = e →
    c.cancelled = true ∨ (key, c) ∈ recoverers
  delayers : ∀ key c, w.delayers.get? key = some c → c.engine = e →
    c.cancelled = true ∨ (key, c) ∈ delayers

variable {e : Nat} {w : World} {rs : List (Nat × Component Recoverer)}
  {ds : List (Nat × Component Delayer)}

theorem Shutting.closed (h : w.Shutting e [] []) : w.Closed e :=
  ⟨h.known, h.shut,
    fun key c hc he => (h.recoverers key c hc he).resolve_right List.not_mem_nil,
    fun key c hc he => (h.delayers key c hc he).resolve_right List.not_mem_nil⟩

theorem pending_of_insert {σ : Type} {m : SortedMap Nat (Component σ)} {key : Nat}
    {c : Component σ} {rest : List (Nat × Component σ)}
    (h : ∀ key' c', m.get? key' = some c' → c'.engine = e →
      c'.cancelled = true ∨ (key', c') ∈ (key, c) :: rest) :
    ∀ key' c', (m.insert key { c with cancelled := true }).get? key' = some c' → c'.engine = e →
      c'.cancelled = true ∨ (key', c') ∈ rest := by
  intro key' c' hc' he
  rw [SortedMap.get?_insert] at hc'
  split at hc'
  · cases hc'
    exact .inl rfl
  next hne =>
    refine (h key' c' hc' he).imp_right fun hmem => ?_
    exact (List.mem_cons.mp hmem).resolve_left fun heq => hne (congrArg Prod.fst heq)

theorem pending_of_skip {σ : Type} {m : SortedMap Nat (Component σ)} {key : Nat}
    {c : Component σ} {rest : List (Nat × Component σ)} (hskip : c.engine ≠ e)
    (h : ∀ key' c', m.get? key' = some c' → c'.engine = e →
      c'.cancelled = true ∨ (key', c') ∈ (key, c) :: rest) :
    ∀ key' c', m.get? key' = some c' → c'.engine = e →
      c'.cancelled = true ∨ (key', c') ∈ rest := by
  intro key' c' hc' he
  refine (h key' c' hc' he).imp_right fun hmem => ?_
  refine (List.mem_cons.mp hmem).resolve_left fun heq => hskip ?_
  rw [← congrArg (fun p => p.2.engine) heq]
  exact he

theorem Shutting.cancelRecoverer {key : Nat} {c : Component Recoverer}
    (h : w.Shutting e ((key, c) :: rs) ds) :
    Leads (cancelRecoverer key c) w fun _ v => v.delayers = w.delayers ∧ v.Shutting e rs ds := by
  have hput : World.Shutting e rs ds
      { w with recoverers := w.recoverers.insert key { c with cancelled := true } } :=
    ⟨h.known, h.shut, pending_of_insert h.recoverers, h.delayers⟩
  unfold Event.cancelRecoverer putRecoverer wake
  rw [leads_bind, leads_modify, leads_modify]
  split
  · exact ⟨rfl, hput.known, hput.shut, hput.recoverers, hput.delayers⟩
  · exact ⟨rfl, hput⟩

theorem Shutting.cancelDelayer {key : Nat} {c : Component Delayer}
    (h : w.Shutting e rs ((key, c) :: ds)) :
    Leads (cancelDelayer key c) w fun _ v => v.Shutting e rs ds := by
  have hput : World.Shutting e rs ds
      { w with delayers := w.delayers.insert key { c with cancelled := true } } :=
    ⟨h.known, h.shut, h.recoverers, pending_of_insert h.delayers⟩
  unfold Event.cancelDelayer putDelayer wake
  rw [leads_bind, leads_modify, leads_modify]
  split
  · exact ⟨hput.known, hput.shut, hput.recoverers, hput.delayers⟩
  · exact hput

end World

namespace Event

open World

variable {e : Nat} {w : World}

theorem leads_closeEngine (he : e < w.nextKey) : Leads (closeEngine e) w fun _ v => v.Closed e := by
  unfold closeEngine
  rw [leads_bind, leads_changeEngine, leads_bind, leads_get, leads_bind]
  generalize hv : { w with
    engines := w.engines.insert e { engineAt w e with isOpen := false } } = v
  have hshut : (engineAt v e).isOpen = false := by
    rw [← hv, engineAt_insert, if_pos rfl]
  have hstart : v.Shutting e v.recoverers.entries v.delayers.entries :=
    ⟨hv ▸ he, hshut, fun _ _ hc _ => .inr (v.recoverers.get?_eq_some_iff.mp hc),
      fun _ _ hc _ => .inr (v.delayers.get?_eq_some_iff.mp hc)⟩
  -- the loops go through the components as they were listed; what is left has yet to be told
  refine (leads_forIn_of (P := fun rs u => u.delayers = v.delayers ∧
    u.Shutting e rs v.delayers.entries) (fun a rs u hu => ?_) ⟨rfl, hstart⟩).mono
    fun _ u hu => ?_
  · obtain ⟨key, c⟩ := a
    obtain ⟨hsame, h⟩ := hu
    by_cases hc : c.engine = e
    · simp only [hc, if_true]
      rw [leads_bind]
      exact h.cancelRecoverer.mono fun _ _ ht => ⟨rfl, ht.1.trans hsame, ht.2⟩
    · simp only [hc, if_false]
      exact ⟨rfl, hsame, h.known, h.shut, pending_of_skip hc h.recoverers, h.delayers⟩
  · obtain ⟨hsame, h⟩ := hu
    rw [leads_bind, leads_get, leads_bind, hsame]
    refine (leads_forIn_of (P := fun ds u => u.Shutting e [] ds) (fun a ds t ht => ?_) h).mono
      fun _ t ht => ht.closed
    obtain ⟨key, c⟩ := a
    by_cases hc : c.engine = e
    · simp only [hc, if_true]
      rw [leads_bind]
      exact ht.cancelDelayer.mono fun _ _ hu => ⟨rfl, hu⟩
    · simp only [hc, if_false]
      exact ⟨rfl, ht.known, ht.shut, ht.recoverers, pending_of_skip hc ht.delayers⟩

theorem run_launch_of_closed (h : w.Closed e) (d : Draft) : (launch e d).run w = (⟨⟩, w) := by
  rw [run_eq_iff, leads_launch, h.shut]
  rfl

/-- Two events that do the same wherever an engine is closed. -/
def Agree {α : Type} (e : Nat) (x y : Event α) : Prop := ∀ w, w.Closed e → x.run w = y.run w

theorem Agree.refl {α : Type} (x : Event α) : Agree e x x := fun _ _ => rfl

theorem Agree.bind {α β : Type} {x : Event α} {f g : α → Event β} (hx : Respects e False x)
    (hfg : ∀ a, Agree e (f a) (g a)) : Agree e (x >>= f) (x >>= g) :=
  fun w h => hfg _ _ (hx w h).closed

theorem Agree.bind_left {α β : Type} {x y : Event α} (hxy : Agree e x y) (f : α → Event β) :
    Agree e (x >>= f) (y >>= f) :=
  fun w h => congrArg (fun p : α × World => (f p.1).run p.2) (hxy w h)

theorem Agree.trans {α : Type} {x y z : Event α} (hxy : Agree e x y) (hyz : Agree e y z) :
    Agree e x z :=
  fun w h => (hxy w h).trans (hyz w h)

end Event

/-! ### Steps that are under way -/

/-- How far an execution of a closed engine got. -/
def Stage.settled : Stage → Progress
  | enter _ => .ended (.ok ())
  | stop p => p

namespace Execution

/-- The end of a step that nothing continues: its command is dispatched, unless it is one to execute
a draft. -/
def dispatchLast (engine : Nat) (d : Draft) : Outcome → Event (Except Fault Unit)
  | .fault f => return .error f
  | .command recipe => do
    match ← follow d recipe with
    | .error f => return .error f
    | .ok (.execute _) => return .ok ()
    | .ok c =>
      match ← Event.perform engine dispatch c with
      | (.ok (), _) => return .ok ()
      | (.error f, _) => return if f.isConflict then .ok () else .error f

/-- What is left of a step, and nothing after it. -/
def finishStep (engine : Nat) (outcome : Outcome) : Draft → List Action → Event Progress
  | d, [] => do return .ended (← dispatchLast engine d outcome)
  | d, a :: rest => do
    match ← nap a with
    | some timer =>
      return .waits (.asleep timer d ({ a with sleep := none } :: rest) outcome)
    | none =>
      match ← takeAction engine d a with
      | .ok d => finishStep engine outcome d rest
      | .error f => return .ended (.error f)

variable {e : Nat} {w : World}

theorem leads_goOn_of_closed (h : w.Closed e) (c : Command) :
    Leads (goOn e c) w fun s v => (s.settled, v) = (.ended (.ok ()), w) := by
  have hnone (others : List Draft) : each others (launch e) w = w :=
    each_keeps (P := fun v => v = w)
      (fun d _ v hv => by rw [hv, run_launch_of_closed h]) rfl
  rw [leads_goOn]
  cases c.continuations with
  | nil => rfl
  | cons next others => exact congrArg _ (hnone others)

theorem agree_conclude (d : Draft) (outcome : Outcome) :
    Agree e (do return (← conclude e d outcome).settled)
      (do return .ended (← dispatchLast e d outcome)) := by
  cases outcome with
  | fault f => exact .refl _
  | command recipe =>
    unfold conclude dispatchLast
    simp only [bind_assoc]
    refine .bind (respects_follow d recipe) fun followed => ?_
    obtain f | c := followed
    · exact .refl _
    cases c with
    | execute next => exact fun w h => leads_goOn_of_closed h (.execute next)
    | _ =>
      simp only [bind_assoc]
      refine .bind (respects_perform e dispatch _) fun r => ?_
      obtain ⟨f | _, c⟩ := r
      · by_cases hf : f.isConflict = true
        · simp only [hf, if_true]
          exact .refl _
        · simp only [hf]
          exact .refl _
      · exact fun w h => leads_goOn_of_closed h c

theorem agree_act (outcome : Outcome) (d : Draft) (actions : List Action) :
    Agree e (do return (← act e outcome d actions).settled) (finishStep e outcome d actions) := by
  induction actions generalizing d with
  | nil => exact agree_conclude d outcome
  | cons a rest ih =>
    unfold act finishStep
    simp only [bind_assoc]
    refine .bind (respects_nap a) fun timer => ?_
    cases timer with
    | some timer => exact .refl _
    | none =>
      simp only [bind_assoc]
      refine .bind (respects_takeAction e d a) fun taken => ?_
      cases taken with
      | ok d => exact ih d
      | error f => exact .refl _

theorem agree_run (fuel : Nat) (s : Stage) : Agree e (run e fuel s) (pure s.settled) := by
  intro w h
  cases fuel with
  | zero => cases s <;> rfl
  | succ fuel =>
    cases s with
    | stop p => rfl
    | enter d =>
      change (run e fuel ((enter e d).run w).1).run ((enter e d).run w).2 = _
      rw [run_enter_of_closed h]
      cases fuel <;> rfl

/-- A step of a closed engine that is under way is done to its end, and nothing after it. -/
theorem run_asleep_of_closed (h : w.Closed e) {timer : Timer} (hdue : timer.isDue w.tick = true)
    (d : Draft) (actions : List Action) (outcome : Outcome) :
    (resume e (.asleep timer d actions outcome)).run w =
      (do resume.finish e (← finishStep e outcome d actions)).run w := by
  -- after the step the execution would enter the next one, which a closed engine does not begin
  have hact (fuel : Nat) : Agree e (act e outcome d actions >>= run e fuel)
      (finishStep e outcome d actions) :=
    (Agree.bind (respects_act e outcome d actions) fun s => agree_run fuel s).trans
      (agree_act outcome d actions)
  rw [run_eq_iff]
  unfold resume
  rw [leads_bind, leads_isDue, if_pos hdue]
  generalize patience = fuel
  exact (hact fuel).bind_left (resume.finish e) w h

theorem run_fresh_of_closed (h : w.Closed e) (d : Draft) :
    (resume e (.fresh d)).run w = (.ended (.ok ()), w) := by
  rw [run_eq_iff]
  unfold resume
  simp only [leads_bind, leads_engine, h.shut]
  rfl

end Execution

/-! ### Loops that are told to stop -/

namespace Task

theorem run_goOnLoop_of_cancelled {w : World} {σ : Type} {c : Component σ}
    (hc : c.cancelled = true) (key : Nat) (put : Component σ → Event Unit) :
    ∃ standing, standing ≠ .alive ∧ (goOnLoop key (some c) put).run w =
      (do put { c with standing := standing }; close key).run w := by
  obtain ⟨standing, hstanding, hrun⟩ := Component.run_goOn_of_cancelled hc w
  refine ⟨standing, hstanding, ?_⟩
  rw [run_eq_iff]
  unfold goOnLoop
  rw [leads_bind]
  unfold Leads
  rw [hrun]
  simp only [if_pos hstanding]
  rfl

end Task

/-! ### Whatever happens -/

namespace Move

variable {e : Nat} {idle : Prop} {w : World}

theorem poll_of_cancelled {σ : Type} {key : Nat} {c : Component σ} (hc : c.cancelled = true)
    (put : Component σ → Event Unit)
    (hloop : (Task.goOn key).run { w with ready := w.ready.erase key } =
      (Task.goOnLoop key (some c) put).run { w with ready := w.ready.erase key }) :
    ∃ standing, standing ≠ .alive ∧ ((poll key).event.run w).2 =
      ((do put { c with standing := standing }; Task.close key).run
        { w with ready := w.ready.erase key }).2 := by
  obtain ⟨standing, hstanding, hrun⟩ := Task.run_goOnLoop_of_cancelled hc key put
  exact ⟨standing, hstanding, congrArg Prod.snd (hloop.trans hrun)⟩

theorem leads_event (h : w.Closed e) (m : Move)
    (hidle : idle → ∀ engine, m.engine? w = some engine → engine = e) :
    Leads m.event w fun _ v => w.Stays e idle v := by
  cases m with
  | poll key =>
    have hready : w.Stays e idle { w with ready := w.ready.erase key } :=
      h.stays_of_eq rfl rfl rfl rfl rfl rfl
    exact (Task.leads_goOn hready.closed key hidle).mono fun _ _ => hready.trans
  | begin step => exact Script.leads_begin h step hidle
  | resume wait => exact Script.respects_resume hidle w h
  | jump own => exact respects_jump own w h
  | look a =>
    exact ⟨⟨h.known, h.shut, h.recoverers, h.delayers⟩, Nat.le_refl _, fun _ => Nat.zero_le _⟩

/-- However moves follow one on another, a closed engine stays closed, and no more executions of it
go on. -/
theorem stays_after (h : w.Closed e) (moves : List Move) : w.Stays e False (after moves w) :=
  each_keeps (fun m _ _ hv => (leads_event hv.closed m False.elim).mono fun _ _ => hv.trans) h.stays

end Move

/-- What a closed engine still does, of what can go on in a world. -/
structure World.Rests (e : Nat) (v : World) : Prop where
  /-- Steps begin in executions of other engines only. -/
  begun_le : ∀ m : Move, (∀ engine, m.engine? v = some engine → engine = e) →
    (m.event.run v).2.begun ≤ v.begun
  /-- No execution is started. -/
  launch : ∀ d, (launch e d).run v = (⟨⟩, v)
  /-- No step begins. -/
  enter : ∀ d, (Execution.enter e d).run v = (Execution.done, v)
  /-- No command is continued. -/
  goOn : ∀ c, (do return (← Execution.goOn e c).settled).run v = (.ended (.ok ()), v)
  /-- An execution ends where it stands. -/
  run : ∀ fuel s, (Execution.run e fuel s).run v = (s.settled, v)
  /-- An execution that did not get its first turn yet ends without a step. -/
  fresh : ∀ d, (Execution.resume e (.fresh d)).run v = (.ended (.ok ()), v)
  /-- A step that is under way is done to its end. -/
  asleep : ∀ timer d actions outcome, timer.isDue v.tick = true →
    (Execution.resume e (.asleep timer d actions outcome)).run v =
      (do Execution.resume.finish e (← Execution.finishStep e outcome d actions)).run v
  /-- The loop of a recoverer ends without a scan. -/
  recoverers : ∀ key c, v.tasks.get? key = some .recoverer → v.recoverers.get? key = some c →
    c.engine = e → ∃ standing, standing ≠ .alive ∧ ((Move.poll key).event.run v).2 = { v with
      ready := v.ready.erase key
      recoverers := v.recoverers.insert key { c with standing := standing }
      tasks := v.tasks.erase key }
  /-- The loop of a delayer ends without a scan. -/
  delayers : ∀ key c, v.tasks.get? key = some .delayer → v.delayers.get? key = some c →
    c.engine = e → ∃ standing, standing ≠ .alive ∧ ((Move.poll key).event.run v).2 = { v with
      ready := v.ready.erase key
      delayers := v.delayers.insert key { c with standing := standing }
      tasks := v.tasks.erase key }

theorem World.Closed.rests {e : Nat} {v : World} (h : v.Closed e) : v.Rests e where
  begun_le m hidle := by
    have hstays : Leads m.event v fun _ u => v.Stays e True u := Move.leads_event h m fun _ => hidle
    exact hstays.begun_le trivial
  launch := run_launch_of_closed h
  enter := Execution.run_enter_of_closed h
  goOn := Execution.leads_goOn_of_closed h
  run fuel s := Execution.agree_run fuel s v h
  fresh := Execution.run_fresh_of_closed h
  asleep _ d actions outcome hdue := Execution.run_asleep_of_closed h hdue d actions outcome
  recoverers key c htask hc he := by
    refine Move.poll_of_cancelled (h.recoverers key c hc he) (putRecoverer key) ?_
    rw [run_eq_iff]
    unfold Task.goOn
    rw [leads_bind, leads_get]
    simp only [htask, hc]
    rfl
  delayers key c htask hc he := by
    refine Move.poll_of_cancelled (h.delayers key c hc he) (putDelayer key) ?_
    rw [run_eq_iff]
    unfold Task.goOn
    rw [leads_bind, leads_get]
    simp only [htask, hc]
    rfl

/-- Once an engine was told to close, whatever happens afterwards, nothing of it starts any more,
and no more executions of it go on than did at any moment since. What happens are whole turns; what
comes of a turn within which the engine closes is told by `World.Rests` for each of its checks. -/
theorem nothing_starts_after_closing {e : Nat} {w : World} (he : e < w.nextKey)
    (moves : List Move) :
    let v := Move.after moves ((closeEngine e).run w).2
    v.Rests e ∧
      ∀ more, (engineAt (Move.after more v) e).running ≤ (engineAt v e).running := by
  intro v
  have hclosed : v.Closed e := (Move.stays_after (leads_closeEngine he) moves).closed
  exact ⟨hclosed.rests, fun more => (Move.stays_after hclosed more).running_le⟩

/-- An execution that was started right before its engine closes would begin a step at its turn, but
does not any more. -/
theorem nothing_starts_after_closing_of_spawn :
    let d : Draft :=
      .ofState { State.new ⟨"s"⟩ with transition := .between default ⟨"a"⟩ }
    let w := Move.after
      [.begin (.register ⟨"a"⟩ ⟨[⟨[], .command .noop⟩]⟩), .begin (.spawn "e" (.given d))]
      (.new default .direct default ∅)
    let v := ((closeEngine 1).run w).2
    ((Move.poll 2).event.run w).2.begun = 1 ∧ 1 < w.nextKey ∧
      ((Move.poll 2).event.run v).2.begun = 0 ∧
      (engineAt ((Move.poll 2).event.run v).2 1).running ≤ 1 := by
  intro d w v
  have hknown : 1 < w.nextKey := by decide +kernel
  have htask : (w.tasks.get? 2).bind Task.engine? = some 1 := by decide +kernel
  obtain ⟨hrests, hrunning⟩ := nothing_starts_after_closing hknown []
  have hbegun : ((Move.poll 2).event.run v).2.begun ≤ 0 :=
    hrests.begun_le (.poll 2) fun engine hengine => Option.some.inj (hengine.symm.trans htask)
  exact ⟨by decide +kernel, hknown, Nat.le_zero.mp hbegun, hrunning [.poll 2]⟩

end Workflow.Scenario
