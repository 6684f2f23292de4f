import TimedMachine.Proofs.Run.Bridge
import TimedMachine.Proofs.Run.History

/-!
# When events and timers may take a run further

A move of the tables needs its event to be enabled, or its timer to be running, where the run
stands; and what is enabled and running there is decided by what came before it
(`Machine.mem_armed_of_run`, `Machine.mem_fired_of_run`). So an event that comes only once comes at
most once on a whole run, however long it is, and an event that waits for states does not come
before the run has entered one of them.
-/

namespace TimedMachine

/-! ## Steps of a run -/

namespace Plan

variable {S T E : Nat} {p : Plan S T E}

/-- Each step of a run makes a move of the configuration that the run stands in before it. -/
theorem exists_move_of_goesOn {trail before : Trail (Fin S)} {c? : Option (Configuration S T E)}
    {label : Label} {s : Fin S} (hrun : p.Run trail c?)
    (hstep : (Trail.step before label s).GoesOn trail) :
    ∃ c mv, p.Run before (some c) ∧ mv ∈ p.moves c ∧ mv.label = label := by
  induction hrun with
  | start _ => cases hstep
  | @step trail c mv hrun hmv ih =>
    cases hstep with
    | refl => exact ⟨c, mv, hrun, hmv, rfl⟩
    | step hstep => exact ih hstep

theorem state_of_run {trail : Trail (Fin S)} {c : Configuration S T E}
    (hrun : p.Run trail (some c)) : c.state = trail.last := by
  generalize hc : some c = c? at hrun
  cases hrun with
  | start _ => exact state_of_enter? hc.symm
  | step _ _ => exact state_of_enter? hc.symm

end Plan

namespace Machine

variable {m : Machine} {c : Configuration m.states.length m.timers.length m.events.length}
  {mv : Move m.states.length m.events.length} {name : String} {choice : Option String}

/-- The event that a move is labelled with is enabled. -/
theorem enabled_of_mem_moves (h : m.WellFormed) (hmv : mv ∈ m.plan.moves c)
    (hlabel : mv.label = .invoker .event name choice) :
    ∃ e, m.eventName e = name ∧ e ∈ m.plan.enabled c := by
  have hleads := (leads_of_mem_moves h hmv).1
  rw [hlabel] at hleads
  cases hleads with
  | event he henables _ _ _ =>
    obtain ⟨e, rfl⟩ := List.get_of_mem he
    exact ⟨e, rfl, (enables_iff h).mp henables⟩

/-- The timer that a move is labelled with is running. -/
theorem running_of_mem_moves (h : m.WellFormed) (hmv : mv ∈ m.plan.moves c)
    (hlabel : mv.label = .invoker .timer name choice) :
    ∃ t, m.timerName t = name ∧ t ∈ c.running := by
  have hleads := (leads_of_mem_moves h hmv).1
  rw [hlabel] at hleads
  cases hleads with
  | timer _ hrunning _ =>
    obtain ⟨t, ht, hname⟩ := Mask.mem_names.mp hrunning
    exact ⟨t, hname, ht⟩

/-! ## Events that come only once -/

variable {trail : Trail (Fin m.states.length)}
  {c? : Option (Configuration m.states.length m.timers.length m.events.length)}

/-- An event that comes only once comes at most once on a run. The induction is on the run: where
the event makes the last step it is enabled, so it has not fired before and made none of the other
steps. -/
theorem countP_event_le_one (h : m.WellFormed) (hrun : m.plan.Run trail c?)
    {e : Fin m.events.length} (honce : (m.events.get e).onlyOnce = true) :
    trail.labels.countP (·.event? = some (m.eventName e)) ≤ 1 := by
  induction hrun with
  | start _ => exact Nat.zero_le 1
  | @step trail c mv hrun hmv ih =>
    rw [Trail.labels, List.countP_append, List.countP_singleton]
    split
    · next hlabel =>
      obtain ⟨choice, hchoice⟩ := Label.event?_eq_some.mp (of_decide_eq_true hlabel)
      obtain ⟨e', hname, henabled⟩ := enabled_of_mem_moves h hmv hchoice
      obtain rfl := name_inj h.events_nodup hname
      have hfired : e' ∉ c.fired := fun hmem =>
        (Plan.mem_enabled.mp henabled).2 ⟨mem_onlyOnce.mpr honce, hmem⟩
      have hzero : trail.labels.countP (·.event? = some (m.eventName e')) = 0 := by
        rw [List.countP_eq_zero]
        intro label hmem hevent
        obtain ⟨choice', rfl⟩ := Label.event?_eq_some.mp (of_decide_eq_true hevent)
        exact hfired ((mem_fired_of_run h hrun).mpr ⟨honce, choice', hmem⟩)
      omega
    · exact ih

/-! ## What a step tells -/

/-- On every run of a loaded machine that the search can follow, of whatever length, an event that
comes only once comes at most once. Before each step the run stands in one configuration. The event
that makes the step waits for no state, or for one that the run has entered, and the timer that
makes it is running there. -/
theorem steps_of_run_allowed {tree : Token} (hload : Machine.ofToken tree = .ok m)
    (hrun : m.plan.Run trail c?) :
    (∀ e, (m.events.get e).onlyOnce = true →
      trail.labels.countP (·.event? = some (m.eventName e)) ≤ 1) ∧
    ∀ before label s, (Trail.step before label s).GoesOn trail →
      ∃ c, (∀ d?, m.plan.Run before d? ↔ d? = some c) ∧ c.state = before.last ∧
        (∀ name choice, label = .invoker .event name choice →
          ∃ e, m.eventName e = name ∧ ((m.events.get e).afterStates = none ∨
            ∃ names, (m.events.get e).afterStates = some names ∧
              ∃ s' ∈ before.states, m.stateName s' ∈ names)) ∧
        ∀ name choice, label = .invoker .timer name choice →
          ∃ t, m.timerName t = name ∧ t ∈ c.running := by
  have h := wellFormed_of_ofToken hload
  refine ⟨fun e honce => countP_event_le_one h hrun honce, fun before label s hstep => ?_⟩
  obtain ⟨c, mv, hbefore, hmv, hmvlabel⟩ := Plan.exists_move_of_goesOn hrun hstep
  refine ⟨c, fun d? => ⟨?_, ?_⟩, Plan.state_of_run hbefore, ?_, ?_⟩
  · exact fun hd => planRun_unique h hd hbefore
  · rintro rfl
    exact hbefore
  · intro name choice hlabel
    obtain ⟨e, hname, henabled⟩ := enabled_of_mem_moves h hmv (hmvlabel.trans hlabel)
    refine ⟨e, hname, ?_⟩
    have harmed := (mem_armed_of_run hbefore).mp (Plan.mem_enabled.mp henabled).1
    rw [Event.isInitiallyArmed, Option.isNone_iff_eq_none] at harmed
    refine harmed.imp_right ?_
    rintro ⟨s', hs', harmedBy⟩
    obtain ⟨names, hnames, hmem⟩ := Event.isArmedBy_iff.mp harmedBy
    exact ⟨names, hnames, s', hs', hmem⟩
  · intro name choice hlabel
    exact running_of_mem_moves h hmv (hmvlabel.trans hlabel)

/-- The door locks itself where its lock is running, after it has been closed. -/
theorem steps_of_run_allowed_door :
    ∃ before c, before.map doorMachine.stateName =
        .step (.start "Opened") (.invoker .event "Close" none) "Closed" ∧
      doorMachine.plan.Run before (some c) ∧
      ∃ t, doorMachine.timerName t = "AutoLock" ∧ t ∈ c.running := by
  let opened : Fin doorMachine.states.length := ⟨0, by decide⟩
  let closed : Fin doorMachine.states.length := ⟨1, by decide⟩
  let locked : Fin doorMachine.states.length := ⟨2, by decide⟩
  let close : Fin doorMachine.events.length := ⟨1, by decide⟩
  let ready : Configuration _ doorMachine.timers.length doorMachine.events.length :=
    ⟨opened, .empty, .ofPred (·.val < 2), .empty⟩
  let shut : Configuration _ doorMachine.timers.length doorMachine.events.length :=
    ⟨closed, .ofPred fun _ => true, .ofPred fun _ => true, .empty⟩
  have hbegin : doorMachine.plan.enter? (doorMachine.plan.before opened) opened none =
      some ready := by decide
  have hclose : doorMachine.plan.enter? ready closed (some close) = some shut := by decide
  have hmove : (⟨closed, .invoker .event "Close" none, some close⟩ : Move _ _) ∈
      doorMachine.plan.moves ready := by decide
  have hlock : (⟨locked, .invoker .timer "AutoLock" none, none⟩ : Move _ _) ∈
      doorMachine.plan.moves shut := by decide
  have hopened := Plan.Run.start (p := doorMachine.plan) (s := opened) (by decide)
  rw [hbegin] at hopened
  have hclosed := Plan.Run.step hopened hmove
  rw [hclose] at hclosed
  obtain ⟨-, hsteps⟩ := steps_of_run_allowed ofToken_door (Plan.Run.step hclosed hlock)
  obtain ⟨c, hc, -, -, htimer⟩ := hsteps _ _ _ .refl
  exact ⟨_, c, rfl, (hc _).mpr rfl, htimer _ _ rfl⟩

end Machine

end TimedMachine
