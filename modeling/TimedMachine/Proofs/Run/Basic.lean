import TimedMachine.Violation
import Mathlib.Data.Finset.Dedup
import Mathlib.Data.Finset.SDiff

/-!
# Runs of a machine

A run enters the start state, and from then on one state after another. What it can do next depends
on where it stands: on its state, on the timers that run, on the events that are armed and on those
that have fired and come only once. All of this is said in names here, and straight from the
machine. The tables of positions that a search works on are another matter, and that they say the
same is proved elsewhere.

A run is given by its `Trail`, since the labels and the states on it decide everything else.
-/

namespace TimedMachine

/-- Where a run stands that has not ended. -/
structure Situation where
  state : State
  running : Finset String
  armed : Finset String
  fired : Finset String
deriving DecidableEq

/-- An event may come if it is armed, unless it comes only once and has fired. -/
def Situation.Enables (c : Situation) (e : Event) : Prop :=
  e.name ∈ c.armed ∧ ¬(e.onlyOnce = true ∧ e.name ∈ c.fired)

/-- A state branches if events and timers take it further. -/
def State.Branches (s : State) : Prop := ∃ es ts, s.shape = .branching es ts

/-- The event that takes a run further, if it is one. -/
def Label.event? : Label → Option String
  | .invoker .event name _ => some name
  | .invoker .timer _ _ | .nextState | .onEnter _ => none

/-- The states that targets lead to, each with the choice that leads there. -/
inductive Targets.Lead : Targets → Option String → String → Prop
  | single {name : String} : Lead (.single (.state name)) none name
  | choice {choices : List Choice} {c : Choice} {name : String} :
    c ∈ choices → c.target = .state name → Lead (.decision choices) (some c.name) name

namespace Machine

variable (m : Machine)

/-! ## Entering states -/

/-- Before a state is entered as the first, no timer runs, nothing has fired, and the events that
wait for no state are armed. -/
def before (s : State) : Situation :=
  ⟨s, ∅, ((m.events.filter Event.isInitiallyArmed).map Event.name).toFinset, ∅⟩

/-- Whether an event comes only once. -/
def comesOnce (event : String) : Bool := m.events.any fun e => e.name == event && e.onlyOnce

/-- The events that have fired after one more event. -/
def fire (fired : Finset String) : Option String → Finset String
  | some event => if m.comesOnce event then insert event fired else fired
  | none => fired

/-- Where a run stands after it has entered a state by way of an event or without one. It stands
nowhere if the state is final. Timers are stopped before others are started. -/
def enter (prev : Situation) (s : State) (event? : Option String) : Option Situation :=
  if s.isFinal then none
  else some
    { state := s
      running := (prev.running \ s.stopTimers.toFinset) ∪
        (s.startTimers.map TimerStart.timer).toFinset
      armed := prev.armed ∪ ((m.events.filter (·.isArmedBy s.name)).map Event.name).toFinset
      fired := m.fire prev.fired event? }

/-! ## Going on -/

/-- How a run can go on, and to which state. -/
inductive Leads (c : Situation) : Label → String → Prop
  | next {name : String} :
    c.state.shape = .passThrough (.state name) → Leads c .nextState name
  | onEnter {choices : List Choice} {choice : Choice} {name : String} :
    c.state.shape = .passThrough (.decision choices) → choice ∈ choices →
    choice.target = .state name → Leads c (.onEnter choice.name) name
  | event {e : Event} {edge : Edge} {choice : Option String} {name : String} :
    e ∈ m.events → c.Enables e → edge ∈ c.state.eventEdges → edge.invoker = e.name →
    edge.targets.Lead choice name → Leads c (.invoker .event e.name choice) name
  | timer {edge : Edge} {choice : Option String} {name : String} :
    edge ∈ c.state.timerEdges → edge.invoker ∈ c.running →
    edge.targets.Lead choice name → Leads c (.invoker .timer edge.invoker choice) name

/-- Where a run stands at the end of a trail. -/
def after : Trail String → Option Situation
  | .start name => (m.state? name).bind fun s => m.enter (m.before s) s none
  | .step trail label name =>
    (after trail).bind fun c => (m.state? name).bind fun s => m.enter c s label.event?

/-- The trails of runs. -/
inductive Run : Trail String → Prop
  | start : Run (.start m.startState)
  | step {trail : Trail String} {c : Situation} {label : Label} {name : String} :
    Run trail → m.after trail = some c → m.Leads c label name → Run (.step trail label name)

/-- A run comes to stand somewhere. -/
def Reachable (c : Situation) : Prop := ∃ trail, m.Run trail ∧ m.after trail = some c

/-- A run enters a state. -/
def Enters (name : String) : Prop := ∃ trail, m.Run trail ∧ name ∈ trail.states

/-- What a run enters, some run enters last. -/
theorem enters_iff {name : String} : m.Enters name ↔ ∃ trail, m.Run trail ∧ trail.last = name := by
  constructor
  · rintro ⟨trail, hrun, hname⟩
    induction hrun with
    | start =>
      obtain rfl := List.mem_singleton.mp hname
      exact ⟨_, .start, rfl⟩
    | @step trail c label name' hrun hc hleads ih =>
      rcases List.mem_append.mp hname with hname | hname
      · exact ih hname
      · obtain rfl := List.mem_singleton.mp hname
        exact ⟨_, .step hrun hc hleads, rfl⟩
  · rintro ⟨trail, hrun, rfl⟩
    refine ⟨trail, hrun, ?_⟩
    cases trail <;> simp [Trail.last, Trail.states]

end Machine

/-! ## What can be wrong -/

/-- What can be wrong where a run stands. -/
inductive Fault where
  | unhandledEvent (state event : String)
  | missingTimerEdge (state timer : String)
  | ghostTimerEdge (state timer : String)
  | stall (state : String)
deriving DecidableEq

/-- Where a run stands, a fault shows. In a branching state every event that may come and every
timer that runs needs an edge, a timer with an edge has to run, and in any state there is a way to
go on. -/
inductive Machine.Shows (m : Machine) (c : Situation) : Fault → Prop
  | unhandledEvent {e : Event} :
    c.state.Branches → e ∈ m.events → c.Enables e →
    (∀ edge ∈ c.state.eventEdges, edge.invoker ≠ e.name) →
    Shows m c (.unhandledEvent c.state.name e.name)
  | missingTimerEdge {timer : String} :
    c.state.Branches → timer ∈ c.running →
    (∀ edge ∈ c.state.timerEdges, edge.invoker ≠ timer) →
    Shows m c (.missingTimerEdge c.state.name timer)
  | ghostTimerEdge {edge : Edge} :
    edge ∈ c.state.timerEdges → edge.invoker ∉ c.running →
    Shows m c (.ghostTimerEdge c.state.name edge.invoker)
  | stall :
    (∀ label name, ¬m.Leads c label name) → Shows m c (.stall c.state.name)

/-- The fault that a violation reports, if it is one of where a run stands. -/
def Violation.fault? : Violation → Option Fault
  | .unhandledEvent state event _ => some (.unhandledEvent state event)
  | .missingTimerEdge state timer _ => some (.missingTimerEdge state timer)
  | .ghostTimerEdge state timer _ => some (.ghostTimerEdge state timer)
  | .stall state _ => some (.stall state)
  | .unreachableState _ | .unusableEdge _ _ _ _ | .unusedTimer _ | .ambiguousCallback _ _ _
  | .conflictingDecisionTargets _ _ _ => none

/-- A run can come to take an edge of a state: it comes to stand in the state with the edge's event
enabled or its timer running. -/
def Machine.CanTake (m : Machine) (s : State) (edge : Edge) : Prop :=
  ∃ c, m.Reachable c ∧ c.state = s ∧
    match edge.kind with
    | .event => ∃ e ∈ m.events, e.name = edge.invoker ∧ c.Enables e
    | .timer => edge.invoker ∈ c.running

end TimedMachine
