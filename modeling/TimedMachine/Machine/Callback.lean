import TimedMachine.Machine.Basic

/-!
# Callbacks of edges

`CallbackShape.compose` derives the name of a callback from the edge that asks for it. A target
that changes nothing contributes the source state. On an edge with a decision the callback is the
deciding function itself, so a name must not be shared by a function and a notification, nor by
functions with different choices. `Machine.requests` lists every callback that a machine asks for.
-/

namespace TimedMachine

/-- The name of a callback and how it is called. -/
structure CallbackName where
  name : String
  /-- Whether it is a function that chooses among the targets. -/
  isFunction : Bool
  /-- Whether it gets the event's arguments. -/
  hasArgs : Bool
deriving DecidableEq, Repr

/-- The state that an edge out of `source` leads to, if there is exactly one; an edge that changes
nothing stays at its source. -/
def Edge.destination? (source : String) (e : Edge) : Option String :=
  match e.targets with
  | .single (.state name) => some name
  | .single .noChange => some source
  | .single .failure | .decision _ => none

/-- The beginning of all callback names for a kind of invoker. -/
def InvokerKind.callbackStem : InvokerKind → String
  | .event => "OnEventTraverse__"
  | .timer => "OnTimerTraverse__"

namespace CallbackShape

/-- The parts of a callback's name; `none` if the shape needs a target and there is none. -/
def parts? (source invoker : String) (target : Option String) : CallbackShape →
    Option (List String)
  | full => target.map fun t => [source, invoker, t]
  | eventOnly => some [invoker]
  | eventAndTarget => target.map fun t => [invoker, t]
  | sourceAndEvent => some [source, invoker]
  | sourceAndTarget => target.map fun t => [source, t]
  | sourceOnly => some [source]
  | targetOnly => target.map fun t => [t]

/-- The callback of this shape for the edge `e` out of the state named `source`. -/
def compose (shape : CallbackShape) (source : String) (e : Edge) : Option CallbackName :=
  (shape.parts? source e.invoker (e.destination? source)).map fun parts =>
    { name := e.kind.callbackStem ++ "__".intercalate parts
      isFunction := e.isDecision
      hasArgs := !e.isTimer && shape.namesInvoker }

end CallbackShape

/-- Where a callback is asked for: the edge's state and invoker, and the shape. -/
structure CallbackSite where
  state : String
  kind : InvokerKind
  invoker : String
  shape : CallbackShape
deriving DecidableEq, Repr

/-- A site in words. -/
def CallbackSite.text (s : CallbackSite) : String :=
  s.state ++ " [" ++ s.kind.text ++ ": " ++ s.invoker ++ "] (" ++ s.shape.text ++ ")"

/-- A use of a callback name. -/
structure CallbackUse where
  callback : CallbackName
  site : CallbackSite
  /-- The names that a function chooses from, in ascending order; none for a notification. -/
  choices : List String
deriving DecidableEq, Repr

/-- The names of the choices of an edge, in ascending order. -/
def Targets.choiceNames : Targets → List String
  | .single _ => []
  | .decision choices => (choices.map Choice.name).mergeSort fun a b => a ≤ b

/-- The use of a callback that an edge of a state asks for. -/
def Edge.callbackUse? (state : String) (e : Edge) (shape : CallbackShape) : Option CallbackUse :=
  (shape.compose state e).map fun callback =>
    { callback, site := ⟨state, e.kind, e.invoker, shape⟩, choices := e.targets.choiceNames }

/-- The uses of callbacks by a state: events before timers, each edge's in its own order. -/
def State.callbackUses (s : State) : List CallbackUse :=
  s.edges.flatMap fun e => e.callbacks.filterMap (e.callbackUse? s.name)

/-- The uses of callbacks by a machine, in the order of its states. -/
def Machine.callbackUses (m : Machine) : List CallbackUse := m.states.flatMap State.callbackUses

end TimedMachine
