import TimedMachine.Proofs.Run.Tables
import TimedMachine.Proofs.Run.Plan
import TimedMachine.Proofs.Machine.OfToken

/-!
# What a configuration says about the run so far

A configuration is built step by step, from the one before it and the state that is entered. Yet
each of its sets can be read off the trail that leads to it, and each in a way of its own: the last
state that has anything to do with a timer decides whether it runs, one state is enough to arm an
event for good, and of an event that comes only once it is kept that it came.
-/

namespace TimedMachine

namespace Trail

variable {σ : Type}

/-- What led from each state of a trail to the next, in order. -/
def labels : Trail σ → List Label
  | .start _ => []
  | .step before label _ => before.labels ++ [label]

@[simp] theorem labels_map {τ : Type} (f : σ → τ) (t : Trail σ) : (t.map f).labels = t.labels := by
  induction t with
  | start s => rfl
  | step before label s ih => rw [map, labels, labels, ih]

/-- The trails that a trail is the beginning of. -/
inductive GoesOn (trail : Trail σ) : Trail σ → Prop
  | refl : GoesOn trail trail
  | step {later : Trail σ} {label : Label} {s : σ} :
    GoesOn trail later → GoesOn trail (.step later label s)

theorem goesOn_start_iff {trail : Trail σ} {s : σ} :
    trail.GoesOn (.start s) ↔ trail = .start s := by
  constructor
  · intro h
    cases h
    rfl
  · rintro rfl
    exact .refl

theorem goesOn_step_iff {trail later : Trail σ} {label : Label} {s : σ} :
    trail.GoesOn (.step later label s) ↔ trail = .step later label s ∨ trail.GoesOn later := by
  constructor
  · intro h
    cases h with
    | refl => exact .inl rfl
    | step h => exact .inr h
  · rintro (rfl | h)
    · exact .refl
    · exact .step h

theorem GoesOn.mem_states {trail later : Trail σ} (h : trail.GoesOn later) {s : σ}
    (hs : s ∈ trail.states) : s ∈ later.states := by
  induction h with
  | refl => exact hs
  | step _ ih => exact List.mem_append.mpr (.inl ih)

theorem GoesOn.mem_labels {trail later : Trail σ} (h : trail.GoesOn later) {label : Label}
    (hlabel : label ∈ trail.labels) : label ∈ later.labels := by
  induction h with
  | refl => exact hlabel
  | step _ ih => exact List.mem_append.mpr (.inl ih)

end Trail

theorem Label.event?_eq_some {label : Label} {name : String} :
    label.event? = some name ↔ ∃ choice, label = .invoker .event name choice := by
  unfold Label.event?
  split <;> simp

theorem Event.isArmedBy_iff {e : Event} {state : String} :
    e.isArmedBy state = true ↔ ∃ names, e.afterStates = some names ∧ state ∈ names := by
  unfold Event.isArmedBy
  cases e.afterStates <;> simp

/-! ## Entering a state -/

namespace Plan

variable {S T E : Nat} {p : Plan S T E} {prev c : Configuration S T E} {s : Fin S}
  {event : Option (Fin E)}

theorem mem_fire {fired : Mask E} {e : Fin E} :
    e ∈ p.fire fired event ↔ e ∈ fired ∨ (event = some e ∧ e ∈ p.onlyOnce) := by
  cases event with
  | none => simp [fire]
  | some i =>
    by_cases hi : i ∈ p.onlyOnce
    · rw [fire, if_pos hi, Mask.mem_insert]
      refine or_congr Iff.rfl ⟨?_, ?_⟩
      · rintro rfl
        exact ⟨rfl, hi⟩
      · rintro ⟨h, -⟩
        exact (Option.some.inj h).symm
    · rw [fire, if_neg hi]
      refine ⟨.inl, ?_⟩
      rintro (h | ⟨h, he⟩)
      · exact h
      · cases h
        exact absurd he hi

/-- What entering a state does to each of the sets. -/
theorem of_enter? (h : p.enter? prev s event = some c) :
    c.running = (prev.running.diff (p.rows.get s).stops).union (p.rows.get s).starts ∧
    c.armed = prev.armed.union (p.rows.get s).arms ∧ c.fired = p.fire prev.fired event := by
  simp only [enter?] at h
  split at h
  · cases h
  · cases h
    exact ⟨rfl, rfl, rfl⟩

/-- A configuration of a run comes about by entering its state. -/
theorem exists_enter?_of_run {trail : Trail (Fin S)} (hrun : p.Run trail (some c)) :
    ∃ prev event, p.enter? prev c.state event = some c := by
  generalize hc : some c = c? at hrun
  cases hrun with
  | start _ =>
    rw [state_of_enter? hc.symm]
    exact ⟨_, _, rfl⟩
  | step _ _ =>
    rw [state_of_enter? hc.symm]
    exact ⟨_, _, rfl⟩

end Plan

namespace Machine

variable {m : Machine}

/-- Some of the states start or stop the timer, and the last one that does starts it. -/
def StartedLast (m : Machine) (states : List (Fin m.states.length)) (t : Fin m.timers.length) :
    Prop :=
  ∃ before s later, states = before ++ s :: later ∧
    (m.states.get s).startsTimer (m.timerName t) ∧
    ∀ s' ∈ later, ¬(m.states.get s').startsTimer (m.timerName t) ∧
      ¬(m.states.get s').stopsTimer (m.timerName t)

theorem not_startedLast_nil {t : Fin m.timers.length} : ¬m.StartedLast [] t := by
  rintro ⟨before, s, later, h, -⟩
  simp at h

/-- With one more state at the end it is this state that counts, if it has to do with the timer. -/
theorem startedLast_append {states : List (Fin m.states.length)} {s : Fin m.states.length}
    {t : Fin m.timers.length} :
    m.StartedLast (states ++ [s]) t ↔
      (m.StartedLast states t ∧ ¬(m.states.get s).stopsTimer (m.timerName t)) ∨
        (m.states.get s).startsTimer (m.timerName t) := by
  constructor
  · rintro ⟨before, s', later, h, hstart, hlater⟩
    rcases List.eq_nil_or_concat later with rfl | ⟨later, s'', rfl⟩
    · obtain ⟨-, heq⟩ := List.append_inj' h rfl
      cases heq
      exact .inr hstart
    · rw [List.concat_eq_append, ← List.cons_append, ← List.append_assoc] at h
      obtain ⟨rfl, heq⟩ := List.append_inj' h rfl
      cases heq
      simp only [List.concat_eq_append, List.mem_append, List.mem_singleton] at hlater
      exact .inl ⟨⟨before, s', later, rfl, hstart, fun x hx => hlater x (.inl hx)⟩,
        (hlater _ (.inr rfl)).2⟩
  · intro h
    by_cases hs : (m.states.get s).startsTimer (m.timerName t)
    · exact ⟨states, s, [], rfl, hs, by simp⟩
    · obtain ⟨⟨before, s', later, rfl, hstart, hlater⟩, hstop⟩ := h.resolve_right hs
      refine ⟨before, s', later ++ [s], by simp, hstart, ?_⟩
      intro x hx
      rcases List.mem_append.mp hx with hx | hx
      · exact hlater x hx
      · obtain rfl := List.mem_singleton.mp hx
        exact ⟨hs, hstop⟩

/-! ## Runs -/

variable {trail : Trail (Fin m.states.length)}
  {c : Configuration m.states.length m.timers.length m.events.length}

/-- A timer runs iff the last state to start or stop it started it. -/
theorem mem_running_of_run (hrun : m.plan.Run trail (some c)) {t : Fin m.timers.length} :
    t ∈ c.running ↔ m.StartedLast trail.states t := by
  generalize hc : some c = c? at hrun
  induction hrun generalizing c with
  | @start s _ =>
    rw [(Plan.of_enter? hc.symm).1, Mask.mem_union, Mask.mem_diff, mem_starts, mem_stops]
    show _ ↔ m.StartedLast ([] ++ [s]) t
    rw [startedLast_append]
    simp [Plan.before, not_startedLast_nil]
  | @step trail prev mv _ _ ih =>
    rw [(Plan.of_enter? hc.symm).1, Mask.mem_union, Mask.mem_diff, mem_starts, mem_stops, ih rfl]
    exact startedLast_append.symm

/-- An event is armed iff it waits for no state, or for one that was entered. -/
theorem mem_armed_of_run (hrun : m.plan.Run trail (some c)) {e : Fin m.events.length} :
    e ∈ c.armed ↔ (m.events.get e).isInitiallyArmed = true ∨
      ∃ s ∈ trail.states, (m.events.get e).isArmedBy (m.stateName s) = true := by
  generalize hc : some c = c? at hrun
  induction hrun generalizing c with
  | start _ =>
    rw [(Plan.of_enter? hc.symm).2.1, Mask.mem_union, mem_arms]
    simp [Plan.before, mem_initiallyArmed, Trail.states]
  | step _ _ ih =>
    rw [(Plan.of_enter? hc.symm).2.1, Mask.mem_union, mem_arms, ih rfl]
    simp [Trail.states, or_and_right, exists_or, or_assoc]

/-- An event has fired iff it comes only once and came. -/
theorem mem_fired_of_run (h : m.WellFormed) (hrun : m.plan.Run trail (some c))
    {e : Fin m.events.length} :
    e ∈ c.fired ↔ (m.events.get e).onlyOnce = true ∧
      ∃ choice, .invoker .event (m.eventName e) choice ∈ trail.labels := by
  generalize hc : some c = c? at hrun
  induction hrun generalizing c with
  | start _ =>
    rw [(Plan.of_enter? hc.symm).2.2]
    simp [Plan.fire, Plan.before, Trail.labels]
  | @step trail prev mv _ hmv ih =>
    -- the event that makes the move is the one that its label names
    have hevent : mv.event = some e ↔
        ∃ choice, mv.label = .invoker .event (m.eventName e) choice := by
      rw [← Label.event?_eq_some, ← (leads_of_mem_moves h hmv).2, Option.map_eq_some_iff]
      constructor
      · exact fun he => ⟨e, he, rfl⟩
      · rintro ⟨e', he', hname⟩
        rwa [name_inj h.events_nodup hname] at he'
    rw [(Plan.of_enter? hc.symm).2.2, Plan.mem_fire, ih rfl, hevent, mem_onlyOnce]
    simp only [Trail.labels, List.mem_append, List.mem_singleton, exists_or, and_or_left,
      and_comm (b := (m.events.get e).onlyOnce = true), @eq_comm _ mv.label]

/-- In a state that a run comes to, the timers that the state starts run, and those that it stops
do not. -/
theorem running_of_run (h : m.WellFormed) (hrun : m.plan.Run trail (some c))
    (t : Fin m.timers.length) :
    ((m.states.get c.state).startsTimer (m.timerName t) = true → t ∈ c.running) ∧
      ((m.states.get c.state).stopsTimer (m.timerName t) = true → t ∉ c.running) := by
  obtain ⟨prev, event, henter⟩ := Plan.exists_enter?_of_run hrun
  have hmem : t ∈ c.running ↔
      (t ∈ prev.running ∧ ¬(m.states.get c.state).stopsTimer (m.timerName t) = true) ∨
        (m.states.get c.state).startsTimer (m.timerName t) = true := by
    rw [(Plan.of_enter? henter).1, Mask.mem_union, Mask.mem_diff, mem_starts, mem_stops]
  refine ⟨fun hstart => hmem.mpr (.inr hstart), fun hstop hrunning => ?_⟩
  -- no state both starts and stops a timer
  rcases hmem.mp hrunning with ⟨-, hnot⟩ | hstart
  · exact hnot hstop
  · obtain ⟨start, hin, hname⟩ := List.any_eq_true.mp hstart
    have hdisjoint := (h.state _ (List.get_mem _ c.state)).not_started_and_stopped start hin
    rw [beq_iff_eq.mp hname] at hdisjoint
    exact hdisjoint (List.contains_iff_mem.mp hstop)

/-- What a configuration of a loaded machine says about the run that leads to it. A timer runs iff
the last of the states entered that starts or stops it starts it. An event is armed iff it waits
for no state or one of those that it waits for was entered. An event has fired iff it comes only
once and made one of the steps. So along a run events are armed for good and have fired for good,
and a state finds the timers running that it starts, and those not running that it stops. -/
theorem configuration_tells_history {tree : Token} (hload : Machine.ofToken tree = .ok m)
    (hrun : m.plan.Run trail (some c)) :
    (∀ t, t ∈ c.running ↔ ∃ before s later, trail.states = before ++ s :: later ∧
      (m.states.get s).startsTimer (m.timerName t) = true ∧
      ∀ s' ∈ later, ¬(m.states.get s').startsTimer (m.timerName t) = true ∧
        ¬(m.states.get s').stopsTimer (m.timerName t) = true) ∧
    (∀ e, e ∈ c.armed ↔ (m.events.get e).afterStates = none ∨
      ∃ s ∈ trail.states, ∃ names, (m.events.get e).afterStates = some names ∧
        m.stateName s ∈ names) ∧
    (∀ e, e ∈ c.fired ↔ (m.events.get e).onlyOnce = true ∧
      ∃ choice, .invoker .event (m.eventName e) choice ∈ trail.labels) ∧
    (∀ later c', m.plan.Run later (some c') → trail.GoesOn later →
      (∀ e, e ∈ c.armed → e ∈ c'.armed) ∧ ∀ e, e ∈ c.fired → e ∈ c'.fired) ∧
    ∀ t, ((m.states.get c.state).startsTimer (m.timerName t) = true → t ∈ c.running) ∧
      ((m.states.get c.state).stopsTimer (m.timerName t) = true → t ∉ c.running) := by
  have h := wellFormed_of_ofToken hload
  refine ⟨fun t => mem_running_of_run hrun, ?_, fun e => mem_fired_of_run h hrun, ?_,
    running_of_run h hrun⟩
  · intro e
    rw [mem_armed_of_run hrun, Event.isInitiallyArmed, Option.isNone_iff_eq_none]
    simp only [Event.isArmedBy_iff]
  · intro later c' hlater hgoes
    refine ⟨fun e he => ?_, fun e he => ?_⟩
    · rw [mem_armed_of_run hlater]
      refine ((mem_armed_of_run hrun).mp he).imp_right ?_
      rintro ⟨s, hs, hafter⟩
      exact ⟨s, hgoes.mem_states hs, hafter⟩
    · obtain ⟨honce, choice, hchoice⟩ := (mem_fired_of_run h hrun).mp he
      exact (mem_fired_of_run h hlater).mpr ⟨honce, choice, hgoes.mem_labels hchoice⟩

/-- When the door has been closed, its lock is going to run out and the closing can be reported: the
state `Closed` starts the timer, and the event waits for it. -/
theorem configuration_tells_history_door :
    ∃ trail c, doorMachine.plan.Run trail (some c) ∧
      trail.map doorMachine.stateName =
        .step (.start "Opened") (.invoker .event "Close" none) "Closed" ∧
      (∃ t, doorMachine.timerName t = "AutoLock" ∧ t ∈ c.running) ∧
      ∃ e, doorMachine.eventName e = "Report" ∧ e ∈ c.armed ∧ e ∉ c.fired := by
  let opened : Fin doorMachine.states.length := ⟨0, by decide⟩
  let closed : Fin doorMachine.states.length := ⟨1, by decide⟩
  let close : Fin doorMachine.events.length := ⟨1, by decide⟩
  let report : Fin doorMachine.events.length := ⟨2, by decide⟩
  let ready : Configuration _ doorMachine.timers.length doorMachine.events.length :=
    ⟨opened, .empty, .ofPred (·.val < 2), .empty⟩
  let shut : Configuration _ doorMachine.timers.length doorMachine.events.length :=
    ⟨closed, .ofPred fun _ => true, .ofPred fun _ => true, .empty⟩
  have hbegin : doorMachine.plan.enter? (doorMachine.plan.before opened) opened none =
      some ready := by decide
  have hmove : (⟨closed, .invoker .event "Close" none, some close⟩ : Move _ _) ∈
      doorMachine.plan.moves ready := by decide
  have hclose : doorMachine.plan.enter? ready closed (some close) = some shut := by decide
  have hrun : doorMachine.plan.Run
      (.step (.start opened) (.invoker .event "Close" none) closed)
      (some shut) := by
    rw [← hclose]
    refine .step ?_ hmove
    rw [← hbegin]
    exact .start (by decide)
  obtain ⟨hrunning, harmed, hfired, _⟩ := configuration_tells_history ofToken_door hrun
  refine ⟨_, _, hrun, by decide, ⟨⟨0, by decide⟩, by decide, ?_⟩, ⟨report, by decide, ?_, ?_⟩⟩
  · exact (hrunning _).mpr ⟨[opened], closed, [], rfl, by decide, by simp⟩
  · exact (harmed _).mpr (.inr ⟨closed, by decide, ["Closed"], by decide, by decide⟩)
  · rw [hfired]
    rintro ⟨-, choice, hchoice⟩
    have hname : doorMachine.eventName report = "Close" :=
      (Label.invoker.inj (List.mem_singleton.mp hchoice)).2.1
    exact absurd hname (by decide)

end Machine

end TimedMachine
