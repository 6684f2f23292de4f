import TimedMachine.Machine.Callback

/-!
# What is wrong with a machine

A machine that loads may still not work: a run of it may get stuck, an event may find no edge, a
name may stand for two things. Each such violation belongs to one pass of the checks.
-/

namespace TimedMachine

/-! ## Trails -/

/-- What leads from one state of a run to the next. -/
inductive Label where
  | invoker (kind : InvokerKind) (name : String) (choice : Option String)
  | nextState
  | onEnter (choice : String)
deriving DecidableEq, Repr

/-- A label as trails write it. -/
def Label.text : Label → String
  | .invoker kind name none => "[" ++ kind.text ++ ": " ++ name ++ "]"
  | .invoker kind name (some choice) => "[" ++ kind.text ++ ": " ++ name ++ " (" ++ choice ++ ")]"
  | .nextState => "[next_state]"
  | .onEnter choice => "[on_enter: " ++ choice ++ "]"

/-- The way that a run has taken: the states that it entered and what led from each to the next.
The type of the states is a parameter, so that states can be numbers as well as names. -/
inductive Trail (σ : Type) where
  | start (state : σ)
  | step (before : Trail σ) (label : Label) (state : σ)
deriving DecidableEq, Repr

namespace Trail

variable {σ τ : Type}

/-- The state that a trail has come to. -/
def last : Trail σ → σ
  | .start s => s
  | .step _ _ s => s

/-- The states of a trail, in order. -/
def states : Trail σ → List σ
  | .start s => [s]
  | .step before _ s => before.states ++ [s]

/-- The trail with each state replaced. -/
def map (f : σ → τ) : Trail σ → Trail τ
  | .start s => .start (f s)
  | .step before label s => .step (before.map f) label (f s)

/-- A trail in words. -/
def text : Trail String → String
  | .start s => s
  | .step before label s => before.text ++ " " ++ label.text ++ " -> " ++ s

@[simp] theorem last_map (f : σ → τ) (t : Trail σ) : (t.map f).last = f t.last := by
  cases t <;> rfl

end Trail

/-! ## Violations -/

/-- The passes of the checks. -/
inductive Pass where
  | paths
  | unusedTimers
  | callbackNames
deriving DecidableEq, Repr

/-- All passes, in the order in which they run. -/
def Pass.all : List Pass := [.paths, .unusedTimers, .callbackNames]

/-- The kinds of violations. -/
inductive ViolationKind where
  | unhandledEvent
  | missingTimerEdge
  | ghostTimerEdge
  | stall
  | unreachableState
  | unusableEdge
  | unusedTimer
  | ambiguousCallback
  | conflictingDecisionTargets
deriving DecidableEq, Repr

namespace ViolationKind

/-- All kinds, in the order in which they are counted. -/
def all : List ViolationKind :=
  [unhandledEvent, missingTimerEdge, ghostTimerEdge, stall, unreachableState, unusableEdge,
    unusedTimer, ambiguousCallback, conflictingDecisionTargets]

/-- The pass that finds a kind of violation. -/
def pass : ViolationKind → Pass
  | unhandledEvent | missingTimerEdge | ghostTimerEdge | stall | unreachableState
  | unusableEdge => .paths
  | unusedTimer => .unusedTimers
  | ambiguousCallback | conflictingDecisionTargets => .callbackNames

end ViolationKind

/-- Something that is wrong with a machine. -/
inductive Violation where
  /-- A run comes to a state in which an event may come that the state has no edge for. -/
  | unhandledEvent (state event : String) (path : Trail String)
  /-- A run comes to a state in which a timer runs that the state has no edge for. -/
  | missingTimerEdge (state timer : String) (path : Trail String)
  /-- A run comes to a state with an edge for a timer that does not run. -/
  | ghostTimerEdge (state timer : String) (path : Trail String)
  /-- A run comes to a state that is not final and cannot go on. -/
  | stall (state : String) (path : Trail String)
  /-- No run enters the state. -/
  | unreachableState (state : String)
  /-- No run can take the edge. -/
  | unusableEdge (state : String) (kind : InvokerKind) (invoker : String) (targets : Targets)
  /-- No state starts the timer. -/
  | unusedTimer (timer : String)
  /-- A callback name stands for a notification and for a function. -/
  | ambiguousCallback (name : String) (notification function : CallbackSite)
  /-- A callback name stands for functions with different choices. -/
  | conflictingDecisionTargets (name : String) (first second : CallbackSite)
deriving DecidableEq, Repr

namespace Violation

/-- The kind of a violation. -/
def kind : Violation → ViolationKind
  | unhandledEvent _ _ _ => .unhandledEvent
  | missingTimerEdge _ _ _ => .missingTimerEdge
  | ghostTimerEdge _ _ _ => .ghostTimerEdge
  | stall _ _ => .stall
  | unreachableState _ => .unreachableState
  | unusableEdge _ _ _ _ => .unusableEdge
  | unusedTimer _ => .unusedTimer
  | ambiguousCallback _ _ _ => .ambiguousCallback
  | conflictingDecisionTargets _ _ _ => .conflictingDecisionTargets

/-- The pass that finds a violation. -/
def pass (v : Violation) : Pass := v.kind.pass

/-- A violation in words. -/
def message : Violation → String
  | unhandledEvent state event path =>
    "enabled event unhandled in state '" ++ state ++ "': event '" ++ event ++
      "' is armed but not specified. Path: " ++ path.text
  | missingTimerEdge state timer path =>
    "timer expected but missing in state '" ++ state ++ "': timer '" ++ timer ++
      "' is running but not specified. Path: " ++ path.text
  | ghostTimerEdge state timer path =>
    "ghost timer edge in state '" ++ state ++ "': timer '" ++ timer ++
      "' is specified while it is not running. Path: " ++ path.text
  | stall state path => "stall detected in state '" ++ state ++ "'. Path: " ++ path.text
  | unreachableState state => "unreachable state: " ++ state
  | unusableEdge state kind invoker targets =>
    "unusable edge: " ++ state ++ " [" ++ kind.text ++ ": " ++ invoker ++ "] -> " ++ targets.text
  | unusedTimer timer => "unused timer: " ++ timer ++ " is never started"
  | ambiguousCallback name notification function =>
    "ambiguous callback naming: '" ++ name ++ "' is a notification for " ++ notification.text ++
      " and a decision function for " ++ function.text
  | conflictingDecisionTargets name first second =>
    "conflicting decision function '" ++ name ++ "': " ++ first.text ++ " and " ++ second.text ++
      " offer different choices"

end Violation

/-- How many violations there are of each kind, for the kinds that occur. -/
def kindCounts (vs : List Violation) : List (ViolationKind × Nat) :=
  (ViolationKind.all.map fun k => (k, vs.countP (·.kind = k))).filter (·.2 ≠ 0)

/-- A list of violations in words: one stands alone, several follow their number. -/
def violationsText : List Violation → String
  | [v] => v.message
  | vs => "found " ++ toString vs.length ++ " violations:" ++
      String.join (vs.map fun v => "\n" ++ v.message)

end TimedMachine
