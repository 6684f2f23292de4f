import TimedMachine.Machine.CallbackShape
import TimedMachine.Machine.DelayRule

/-!
# State machines with events and timers

A machine declares timers, events and states, each in an order of its own, and names the state
that it starts in. A state is of one of three shapes: it branches on events and timers, it passes
on at once to a next state, or it is final.

Names stand for what they name throughout; the loader of specifications makes sure that they are
declared.
-/

namespace TimedMachine

/-- A timer and its delay in seconds. -/
structure Timer where
  name : String
  interval : Float
deriving DecidableEq

/-- An argument of an event. Its type is a word that only code generators understand. -/
structure Argument where
  name : String
  type : String
deriving DecidableEq, Repr

/-- An event. It is armed from the start, or from when one of `afterStates` is entered. -/
structure Event where
  name : String
  args : List Argument
  afterStates : Option (List String)
  onlyOnce : Bool
deriving DecidableEq, Repr

namespace Event

/-- Whether an event is armed before any state is entered. -/
def isInitiallyArmed (e : Event) : Bool := e.afterStates.isNone

/-- Whether entering a state arms an event. -/
def isArmedBy (e : Event) (state : String) : Bool := (e.afterStates.getD []).contains state

end Event

/-- Where an edge leads: to a state, nowhere, or into an error. -/
inductive Target where
  | state (name : String)
  | noChange
  | failure
deriving DecidableEq, Repr

namespace Target

/-- The state that a target leads to. -/
def state? : Target → Option String
  | .state name => some name
  | .noChange | .failure => none

/-- A target in words. -/
def text : Target → String
  | .state name => name
  | .noChange => "[no change]"
  | .failure => "[failure]"

end Target

/-- A named outcome of a decision. -/
structure Choice where
  name : String
  target : Target
deriving DecidableEq, Repr

/-- A decision in words. -/
def decisionText (choices : List Choice) : String :=
  "decision(" ++ ", ".intercalate (choices.map fun c => c.name ++ ": " ++ c.target.text) ++ ")"

/-- The targets of an edge: one, or a choice that a function makes when the edge is taken. -/
inductive Targets where
  | single (target : Target)
  | decision (choices : List Choice)
deriving DecidableEq, Repr

namespace Targets

/-- Whether a function chooses the target. -/
def isDecision : Targets → Bool
  | .single _ => false
  | .decision _ => true

/-- The target of an edge that has one. -/
def single? : Targets → Option Target
  | .single target => some target
  | .decision _ => none

/-- All targets. -/
def toList : Targets → List Target
  | .single target => [target]
  | .decision choices => choices.map Choice.target

/-- Targets in words. -/
def text : Targets → String
  | .single target => target.text
  | .decision choices => decisionText choices

end Targets

/-- What takes an edge. -/
inductive InvokerKind where
  | event
  | timer
deriving DecidableEq, Repr

/-- The word for a kind of invoker. -/
def InvokerKind.text : InvokerKind → String
  | .event => "event"
  | .timer => "timer"

/-- What a state does when an event comes or a timer runs out. -/
structure Edge where
  /-- The name of the event or timer. -/
  invoker : String
  kind : InvokerKind
  targets : Targets
  /-- The callbacks that the edge asks for. -/
  callbacks : List CallbackShape
  comment : Option String
deriving DecidableEq, Repr

namespace Edge

/-- Whether a timer takes the edge. -/
def isTimer (e : Edge) : Bool := e.kind == .timer

/-- Whether a function chooses the target. -/
def isDecision (e : Edge) : Bool := e.targets.isDecision

end Edge

/-- The start of a timer by a state, with a rule for its delay. -/
structure TimerStart where
  timer : String
  rule : Option (DelayRule Float)
deriving DecidableEq

/-- The notification that a state asks for when it is entered. -/
structure OnEnter where
  comment : Option String
deriving DecidableEq, Repr

/-- Where a passing state goes on to: a state, or one of several that a function chooses. -/
inductive NextState where
  | state (name : String)
  | decision (choices : List Choice)
deriving DecidableEq, Repr

/-- The next state in words. -/
def NextState.text : NextState → String
  | .state name => name
  | .decision choices => decisionText choices

/-- The shape of a state. -/
inductive Shape where
  | branching (eventEdges timerEdges : List Edge)
  | passThrough (next : NextState)
  | final
deriving DecidableEq, Repr

/-- A state. -/
structure State where
  name : String
  startTimers : List TimerStart
  stopTimers : List String
  onEnter : Option OnEnter
  shape : Shape
deriving DecidableEq

namespace State

/-- Whether a state starts a timer. -/
def startsTimer (s : State) (timer : String) : Bool := s.startTimers.any (·.timer == timer)

/-- Whether a state stops a timer. -/
def stopsTimer (s : State) (timer : String) : Bool := s.stopTimers.contains timer

/-- Whether a state asks to be notified when it is entered. -/
def needsOnEnterNotification (s : State) : Bool := s.onEnter.isSome

/-- Whether a state is final. -/
def isFinal (s : State) : Bool :=
  match s.shape with
  | .final => true
  | _ => false

/-- Where a passing state goes on to. -/
def next? (s : State) : Option NextState :=
  match s.shape with
  | .passThrough next => some next
  | _ => none

/-- The edges for events; a state that does not branch has none. -/
def eventEdges (s : State) : List Edge :=
  match s.shape with
  | .branching es _ => es
  | _ => []

/-- The edges for timers; a state that does not branch has none. -/
def timerEdges (s : State) : List Edge :=
  match s.shape with
  | .branching _ es => es
  | _ => []

/-- The edge for an event. -/
def eventEdge? (s : State) (event : String) : Option Edge :=
  s.eventEdges.find? (·.invoker == event)

/-- The edge for a timer. -/
def timerEdge? (s : State) (timer : String) : Option Edge :=
  s.timerEdges.find? (·.invoker == timer)

/-- All edges, those for events first. -/
def edges (s : State) : List Edge := s.eventEdges ++ s.timerEdges

end State

/-- A state machine. -/
structure Machine where
  timers : List Timer
  events : List Event
  states : List State
  startState : String
deriving DecidableEq

namespace Machine

/-- The timer with a name. -/
def timer? (m : Machine) (name : String) : Option Timer := m.timers.find? (·.name == name)

/-- The event with a name. -/
def event? (m : Machine) (name : String) : Option Event := m.events.find? (·.name == name)

/-- The state with a name. -/
def state? (m : Machine) (name : String) : Option State := m.states.find? (·.name == name)

/-- The rules for a timer's delay in a state, one for each time the state starts the timer; a
state that is not declared has none. -/
def delayRules (m : Machine) (timer state : String) : List (DelayRule Float) :=
  ((m.state? state).elim [] State.startTimers).filterMap fun s =>
    if s.timer == timer then some (s.rule.getD .unchanged) else none

/-- The delays of a timer that starts out at `delay`, after entering each of `states` in turn. -/
def delaysFrom (m : Machine) (timer : String) (delay : Float) (states : List String) :
    List Float :=
  DelayRule.delays (states.map (m.delayRules timer)) delay

/-- The delays of a timer that starts out at its interval, after entering each of `states`. -/
def delays? (m : Machine) (timer : String) (states : List String) : Option (List Float) :=
  (m.timer? timer).map fun t => m.delaysFrom timer t.interval states

end Machine

end TimedMachine
