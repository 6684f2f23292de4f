import TimedMachine.Machine.Fields

/-!
# Loading machines

`Machine.ofToken` reads a token tree as the specification of a machine. The names of timers and
states are collected before any body is read, so that a state may name states declared after it.
Reading stops at the first fault.
-/

namespace TimedMachine

/-- The declared names. -/
structure Names where
  timers : List String
  events : List String
  states : List String

/-! ## Numbers and names -/

/-- Accepts a number that is finite and above zero. -/
def checkPositive (name : String) (rule : NumberRule) (t : Token) (x : Float) : Loaded Float :=
  if x.isFinite ∧ 0 < x then .ok x else .error ((LoadFault.invalidNumber name rule x).at t)

/-- Accepts a finite number. -/
def checkFinite (name : String) (t : Token) (x : Float) : Loaded Float :=
  if x.isFinite then .ok x else .error ((LoadFault.invalidNumber name .finite x).at t)

namespace Names

/-- Accepts the name of a declared state. -/
def checkState (ns : Names) (role : NameRole) (t : Token) (name : String) : Loaded String :=
  if name ∈ ns.states then .ok name else .error ((LoadFault.unknownName role name).at t)

/-- Accepts the name of a declared timer. -/
def checkTimer (ns : Names) (t : Token) (name : String) : Loaded String :=
  if name ∈ ns.timers then .ok name else .error ((LoadFault.unknownName .timer name).at t)

/-- The names of the events or of the timers. -/
def ofKind (ns : Names) : InvokerKind → List String
  | .event => ns.events
  | .timer => ns.timers

end Names

/-- The role of an event's or a timer's name. -/
def InvokerKind.role : InvokerKind → NameRole
  | .event => .event
  | .timer => .timer

/-- Reports that a member or an item repeats a name. -/
def duplicateAt (role : NameRole) (t : Token) (name : String) : LoadError :=
  (LoadFault.duplicateName role name).at t

/-- Reads a list of names, each of which `check` accepts and none of which is repeated. -/
def namesOfItems (item : String) (check : Token → String → Loaded String) (role : NameRole) :
    List Token → Loaded (List String) :=
  readDistinct (fun t => do check t (← t.asString item)) id (duplicateAt role)
    (fun _ name => .ok name) []

/-! ## Timers and events -/

/-- Reads the member that declares a timer. -/
def Timer.ofMember (m : Key × Token) : Loaded Timer := do
  let x ← m.2.asNumber m.1.name
  return ⟨m.1.name, ← checkPositive m.1.name .positiveSeconds m.2 x⟩

/-- Reads the members that declare timers. -/
def Timer.ofMembers : Members → Loaded (List Timer) :=
  readDistinct Timer.ofMember Timer.name (fun m t => duplicateAt .timer m.2 t.name)
    (fun _ t => .ok t) []

/-- Reads the states that arm an event; an empty list is as good as none. -/
def Names.afterStates (ns : Names) (ts : List Token) : Loaded (Option (List String)) := do
  let names ← namesOfItems "state name" (ns.checkState .afterState) .afterState ts
  return if names.isEmpty then none else some names

/-- Reads the arguments of an event. -/
def Argument.ofMembers (ms : Members) : Loaded (List Argument) :=
  ms.mapM fun m => return ⟨m.1.name, ← m.2.asString "arg type"⟩

/-- Reads the member that declares an event. -/
def Names.event (ns : Names) (m : Key × Token) : Loaded Event := do
  let ms ← m.2.asMembers m.1.name
  let afterStates ← ms.optional "after_states" (·.asItems "after_states")
  let afterStates ← ns.afterStates (afterStates.getD [])
  let args ← ms.optional "args" (·.asMembers "args")
  let args ← Argument.ofMembers (args.getD [])
  let onlyOnce ← ms.optional "only_once" (·.asBool "only_once")
  ms.onlyKnown ["after_states", "args", "only_once"]
  return ⟨m.1.name, args, afterStates, onlyOnce.getD false⟩

/-- Reads the members that declare events. -/
def Names.eventList (ns : Names) : Members → Loaded (List Event) :=
  readDistinct ns.event Event.name (fun m e => duplicateAt .event m.2 e.name)
    (fun _ e => .ok e) []

/-! ## Targets and edges -/

/-- Reads a target: a state's name, `null` for no change, or `false` for a failure. -/
def Names.target (ns : Names) (t : Token) : Loaded Target :=
  match t with
  | .null _ => .ok .noChange
  | .string _ name => (ns.checkState .targetState t name).map .state
  | .bool _ false => .ok .failure
  | .bool _ true => .error (LoadFault.failureMustBeFalse.at t)
  | _ => .error (t.unexpectedType "edge target" "Null, String or false")

/-- Reads the target of a choice, which may stand alone or in an object. -/
def Names.choiceTarget (ns : Names) (t : Token) : Loaded Target :=
  match t with
  | .object _ ms => do
    let target ← ns.target (← Members.required ms t "state")
    Members.onlyKnown ms ["state"]
    return target
  | _ => ns.target t

/-- Reads the choices of a decision, of which there is at least one. -/
def Names.choices (ns : Names) (owner : String) (t : Token) : Loaded (List Choice) := do
  let ms ← t.asMembers "targets"
  if ms.isEmpty then throw ((LoadFault.emptyDecision owner).at t)
  ms.mapM fun m => return ⟨m.1.name, ← ns.choiceTarget m.2⟩

/-- Reads the name of a callback shape. -/
def CallbackShape.ofToken (t : Token) : Loaded CallbackShape := do
  let name ← t.asString "callback shape"
  match CallbackShape.ofName? name with
  | some shape => return shape
  | none => throw ((LoadFault.unknownCallbackShape name).at t)

/-- Reads the callbacks of an edge: a truth value, a shape or a list of distinct shapes. -/
def CallbackShape.listOfToken (t : Token) : Loaded (List CallbackShape) :=
  match t with
  | .bool _ false => .ok []
  | .bool _ true => .ok [.eventOnly]
  | .string _ _ => (CallbackShape.ofToken t).map ([·])
  | .array _ items =>
    readDistinct CallbackShape.ofToken id
      (fun t shape => (LoadFault.duplicateCallbackShape shape).at t) (fun _ shape => .ok shape) []
      items
  | _ => .error (t.unexpectedType "on_traverse" "Boolean, String or Array")

/-- Whether a callback of an edge with these targets can name the target state. -/
def Targets.namesState : Targets → Bool
  | .single (.state _) | .single .noChange => true
  | .single .failure | .decision _ => false

/-- Reads the callbacks of an edge with the given targets. -/
def callbacksOfToken (invoker : String) (targets : Targets) (t : Token) :
    Loaded (List CallbackShape) := do
  let shapes ← CallbackShape.listOfToken t
  match shapes.find? fun shape => shape.needsTarget && !targets.namesState with
  | some shape => throw ((LoadFault.callbackShapeNeedsTarget shape invoker).at t)
  | none => return shapes

/-- Reads the targets of an edge that is written as an object: either one state or several, and
several only for an event. -/
def Names.edgeTargets (ns : Names) (kind : InvokerKind) (invoker : String) (t : Token)
    (ms : Members) : Loaded Targets :=
  match ms.get? "state", ms.get? "targets" with
  | some state, none => (ns.target state).map .single
  | none, some targets =>
    match kind with
    | .timer => .error ((LoadFault.decisionOnTimer invoker).at targets)
    | .event => (ns.choices invoker targets).map .decision
  | _, _ => .error ((LoadFault.ambiguousEdgeObject invoker).at t)

/-- Reads an edge: a target alone, or an object with more to say. -/
def Names.edge (ns : Names) (kind : InvokerKind) (invoker : String) (t : Token) : Loaded Edge :=
  match t with
  | .object _ ms => do
    let targets ← ns.edgeTargets kind invoker t ms
    let callbacks ← Members.optional ms "on_traverse" (callbacksOfToken invoker targets)
    let comment ← Members.optionalOrNull ms "comment" (·.asString "comment")
    Members.onlyKnown ms ["state", "targets", "on_traverse", "comment"]
    return ⟨invoker, kind, targets, callbacks.getD [], comment⟩
  | _ => (ns.target t).map fun target => ⟨invoker, kind, .single target, [], none⟩

/-- Accepts the key of an edge if it is the name of a declared event or timer. -/
def Names.checkInvoker (ns : Names) (kind : InvokerKind) (m : Key × Token) : Loaded String :=
  if m.1.name ∈ ns.ofKind kind then .ok m.1.name
  else .error ((LoadFault.unknownName kind.role m.1.name).atKey m.1 m.2)

/-- Reads the edges of a state for events or for timers. -/
def Names.edges (ns : Names) (kind : InvokerKind) : Members → Loaded (List Edge) :=
  readDistinct (ns.checkInvoker kind) id
    (fun m name => (LoadFault.duplicateName (.edge kind) name).atKey m.1 m.2)
    (fun m name => ns.edge kind name m.2) []

/-! ## Timers of states -/

/-- Reads a part of a rule for a delay, if it is there and not `null`. -/
def rulePart (ms : Members) (key : String) (check : Token → Float → Loaded Float) :
    Loaded (Option Float) :=
  ms.optionalOrNull key fun t => do check t (← t.asNumber key)

/-- Reads a rule for the delay of a timer. It changes something, and its bounds are in order. -/
def DelayRule.ofToken (timer : String) (t : Token) : Loaded (DelayRule Float) := do
  let ms ← t.asMembers timer
  let set ← rulePart ms "set" (checkPositive "set" .positive)
  let multiplier ← rulePart ms "multiplier" (checkPositive "multiplier" .positive)
  let increment ← rulePart ms "increment" (checkFinite "increment")
  let min ← rulePart ms "min" (checkFinite "min")
  let max ← rulePart ms "max" (checkFinite "max")
  ms.onlyKnown ["set", "multiplier", "increment", "min", "max"]
  let rule : DelayRule Float := { set, multiplier, increment, min, max }
  if rule = .unchanged then throw ((LoadFault.emptyTimerModify timer).at t)
  match min, max with
  | some least, some most =>
    if most < least then throw ((LoadFault.invalidTimerBounds timer least most).at t)
    else return rule
  | _, _ => return rule

/-- Reads the start of a timer with a rule for its delay, or with `null` for no rule. -/
def Names.timerStart (ns : Names) (m : Key × Token) : Loaded TimerStart := do
  if m.1.name ∉ ns.timers then throw ((LoadFault.unknownName .timer m.1.name).atKey m.1 m.2)
  if m.2.isNull then return ⟨m.1.name, none⟩
  return ⟨m.1.name, some (← DelayRule.ofToken m.1.name m.2)⟩

/-- Reads the timers that a state starts: a list of names, or an object of names and rules. -/
def Names.startTimers (ns : Names) (t : Token) : Loaded (List TimerStart) :=
  match t with
  | .array _ items => do
    let names ← namesOfItems "timer name" ns.checkTimer .startedTimer items
    return names.map fun name => ⟨name, none⟩
  | .object _ ms => ms.mapM ns.timerStart
  | _ => .error (t.unexpectedType "start_timers" "Array or Object")

/-- Reads the timers that a state stops. -/
def Names.stopTimers (ns : Names) (ts : List Token) : Loaded (List String) :=
  namesOfItems "timer name" ns.checkTimer .stoppedTimer ts

/-- Makes sure that a state stops none of the timers that it starts. -/
def checkStops (state : String) (t : Token) (starts : List TimerStart) (stops : List String) :
    Loaded Unit :=
  match stops.find? fun timer => starts.any (·.timer == timer) with
  | some timer => .error ((LoadFault.timerStartedAndStopped state timer).at t)
  | none => .ok ()

/-! ## States -/

/-- Reads what a state does on being entered: whether it is notified, and the choices among its
next states. -/
def Names.onEnter (ns : Names) (t : Token) : Loaded (Option OnEnter × Option (List Choice)) :=
  match t with
  | .bool _ false => .ok (none, none)
  | .bool _ true => .ok (some ⟨none⟩, none)
  | .string _ comment => .ok (some ⟨some comment⟩, none)
  | .object _ ms => do
    let comment ← Members.optionalOrNull ms "comment" (·.asString "comment")
    let choices ← Members.optional ms "targets" (ns.choices "on_enter")
    Members.onlyKnown ms ["comment", "targets"]
    return (some ⟨comment⟩, choices)
  | _ => .error (t.unexpectedType "on_enter" "Boolean, String or Object")

/-- The fields of a state that each give it a shape. -/
structure ShapeFields where
  timerEdges : Option (List Edge)
  eventEdges : Option (List Edge)
  nextState : Option String
  choices : Option (List Choice)
  isFinal : Bool

/-- The shapes that the fields give. -/
def ShapeFields.present (f : ShapeFields) : List ShapeField :=
  (if f.timerEdges.isSome ∨ f.eventEdges.isSome then [.edges] else []) ++
  (if f.nextState.isSome then [.nextState] else []) ++
  (if f.choices.isSome then [.onEnterTargets] else []) ++
  (if f.isFinal then [.final] else [])

/-- The shape of a state whose fields give one. -/
def ShapeFields.shape (f : ShapeFields) : Shape :=
  match f.nextState, f.choices with
  | some next, _ => .passThrough (.state next)
  | none, some choices => .passThrough (.decision choices)
  | none, none =>
    if f.isFinal then .final else .branching (f.eventEdges.getD []) (f.timerEdges.getD [])

/-- Makes sure that the fields of a state give exactly one shape. -/
def ShapeFields.check (f : ShapeFields) (state : String) (t : Token) : Loaded Unit :=
  match f.present with
  | [] => .error ((LoadFault.missingStateShape state).at t)
  | [_] => .ok ()
  | fields => .error ((LoadFault.conflictingStateShape state fields).at t)

/-- Reads the member that declares a state. -/
def Names.state (ns : Names) (m : Key × Token) : Loaded State := do
  let name := m.1.name
  let ms ← m.2.asMembers name
  let starts ← ms.optional "start_timers" ns.startTimers
  let starts := starts.getD []
  let stops ← ms.optional "stop_timers" (·.asItems "stop_timers")
  let stops ← ns.stopTimers (stops.getD [])
  checkStops name m.2 starts stops
  let enter ← ms.optional "on_enter" ns.onEnter
  let (onEnter, choices) := enter.getD (none, none)
  let timerEdges ← ms.optional "on_timer" fun t => do ns.edges .timer (← t.asMembers "on_timer")
  let eventEdges ← ms.optional "on_event" fun t => do ns.edges .event (← t.asMembers "on_event")
  let nextState ← ms.optionalOrNull "next_state" fun t => do
    ns.checkState .nextState t (← t.asString "next_state")
  let isFinal ← ms.optional "final" (·.asBool "final")
  let fields : ShapeFields :=
    { timerEdges, eventEdges, nextState, choices, isFinal := isFinal.getD false }
  fields.check name m.2
  ms.onlyKnown
    ["start_timers", "stop_timers", "on_enter", "on_timer", "on_event", "next_state", "final"]
  return ⟨name, starts, stops, onEnter, fields.shape⟩

/-- The names of the declared states, none of which is repeated. -/
def stateNames : Members → Loaded (List String) :=
  readDistinct (fun m => .ok m.1.name) id (fun m name => duplicateAt .state m.2 name)
    (fun _ name => .ok name) []

/-- Reads a token tree as the specification of a machine. -/
def Machine.ofToken (t : Token) : Loaded Machine := do
  let ms ← t.asMembers "root"
  let eventMembers ← ms.requiredObject t "events"
  let stateMembers ← ms.requiredObject t "states"
  let timerMembers ← ms.optional "timers" (·.asMembers "timers")
  let timers ← Timer.ofMembers (timerMembers.getD [])
  let states ← stateNames stateMembers
  let ns : Names := ⟨timers.map Timer.name, [], states⟩
  let events ← ns.eventList eventMembers
  let ns : Names := { ns with events := events.map Event.name }
  let states ← stateMembers.mapM ns.state
  let (startState, startToken) ← ms.requiredString t "start_state"
  let startState ← ns.checkState .startState startToken startState
  ms.onlyKnown ["events", "states", "timers", "start_state"]
  return ⟨timers, events, states, startState⟩

end TimedMachine
