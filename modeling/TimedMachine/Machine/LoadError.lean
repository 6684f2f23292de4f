import TimedMachine.Machine.Basic
import TimedMachine.Number.Style
import TimedMachine.Token.Basic

/-!
# Faults of specifications

Why a token tree does not specify a machine. A fault is reported with the path and, if known, the
place of the token that is to blame.
-/

namespace TimedMachine

/-- What a name in a specification is the name of. -/
inductive NameRole where
  | timer
  | event
  | state
  | startState
  | nextState
  | targetState
  | afterState
  | startedTimer
  | stoppedTimer
  | edge (kind : InvokerKind)
deriving DecidableEq, Repr

/-- The words for a role. -/
def NameRole.text : NameRole → String
  | .timer => "timer"
  | .event => "event"
  | .state => "state"
  | .startState => "start state"
  | .nextState => "next state"
  | .targetState => "target state"
  | .afterState => "after_states state"
  | .startedTimer => "start_timers timer"
  | .stoppedTimer => "stop_timers timer"
  | .edge kind => "on_" ++ kind.text

/-- What a number in a specification must be. -/
inductive NumberRule where
  | positiveSeconds
  | positive
  | finite
deriving DecidableEq, Repr

/-- The words for a rule. -/
def NumberRule.text : NumberRule → String
  | .positiveSeconds => "must be a positive number of seconds"
  | .positive => "must be positive"
  | .finite => "must be finite"

/-- What makes up the shape of a state; a state has exactly one of these. -/
inductive ShapeField where
  | edges
  | nextState
  | onEnterTargets
  | final
deriving DecidableEq, Repr

/-- The words for a part of a shape. -/
def ShapeField.text : ShapeField → String
  | .edges => "'on_timer'/'on_event'"
  | .nextState => "'next_state'"
  | .onEnterTargets => "'on_enter.targets'"
  | .final => "'final'"

/-- What is wrong with a specification. -/
inductive LoadFault where
  | unexpectedType (name expected : String) (actual : Token.Kind)
  | missingField (name : String)
  | nullField (name : String)
  | unusedField (name : String)
  | duplicateName (role : NameRole) (name : String)
  | unknownName (role : NameRole) (name : String)
  | invalidNumber (name : String) (rule : NumberRule) (value : Float)
  | failureMustBeFalse
  | missingStateShape (state : String)
  | conflictingStateShape (state : String) (fields : List ShapeField)
  | timerStartedAndStopped (state timer : String)
  | emptyTimerModify (timer : String)
  | invalidTimerBounds (timer : String) (min max : Float)
  | decisionOnTimer (timer : String)
  | emptyDecision (invoker : String)
  | ambiguousEdgeObject (invoker : String)
  | unknownCallbackShape (name : String)
  | duplicateCallbackShape (shape : CallbackShape)
  | callbackShapeNeedsTarget (shape : CallbackShape) (invoker : String)
deriving DecidableEq

/-- A name as messages quote it. -/
def quoteName (name : String) : String := "'" ++ name ++ "'"

/-- A number as messages write it. -/
def numberText (x : Float) : String := Number.Style.message.text x

/-- A fault in words. -/
def LoadFault.text : LoadFault → String
  | .unexpectedType name expected actual =>
    "token " ++ quoteName name ++ " should be " ++ expected ++ ", but it is " ++ actual.text
  | .missingField name => "missing required token " ++ quoteName name
  | .nullField name => "required token " ++ quoteName name ++ " is null"
  | .unusedField name => "unused token " ++ quoteName name
  | .duplicateName role name => "duplicate " ++ role.text ++ " name " ++ quoteName name
  | .unknownName role name => "unknown " ++ role.text ++ " name " ++ quoteName name
  | .invalidNumber name rule value =>
    "token " ++ quoteName name ++ " " ++ rule.text ++ ", got " ++ numberText value
  | .failureMustBeFalse => "only false could be specified as a failure edge value"
  | .missingStateShape state =>
    "failed to determine state type for state " ++ quoteName state ++
      ". Either 'on_timer'/'on_event' or 'next_state' or 'final' should be specified"
  | .conflictingStateShape state fields =>
    "conflicting state type for state " ++ quoteName state ++ ": " ++
      ", ".intercalate (fields.map ShapeField.text) ++ " could not be specified together"
  | .timerStartedAndStopped state timer =>
    "timer " ++ quoteName timer ++ " is started and stopped by state " ++ quoteName state
  | .emptyTimerModify timer => "timer modification for " ++ quoteName timer ++ " is empty"
  | .invalidTimerBounds timer min max =>
    "timer modification for " ++ quoteName timer ++ " has min " ++ numberText min ++
      " greater than max " ++ numberText max
  | .decisionOnTimer timer =>
    "decision-function edges are only allowed for events, but timer " ++ quoteName timer ++
      " has one"
  | .emptyDecision invoker => "decision-function edge " ++ quoteName invoker ++ " has no targets"
  | .ambiguousEdgeObject invoker =>
    "edge object for " ++ quoteName invoker ++
      " should contain exactly one of 'state' or 'targets'"
  | .unknownCallbackShape name => "unknown callback shape " ++ quoteName name
  | .duplicateCallbackShape shape => "duplicate callback shape " ++ quoteName shape.text
  | .callbackShapeNeedsTarget shape invoker =>
    "callback shape " ++ quoteName shape.text ++ " requires a single target state, but edge " ++
      quoteName invoker ++ " has none"

/-- A fault and the token that it is found at. -/
structure LoadError where
  fault : LoadFault
  site : Site
deriving DecidableEq

/-- A fault in words, with the path and the place of the token. -/
def LoadError.message (e : LoadError) : String :=
  e.fault.text ++ ", path: " ++ (if e.site.path.isEmpty then "(root)" else e.site.path) ++
    e.site.span.elim "" fun s => "; " ++ s.text

/-- Reports a fault at a token. -/
def LoadFault.at (fault : LoadFault) (t : Token) : LoadError := ⟨fault, t.site⟩

/-- Reports a fault at the key of a member: the path is the one of the value, and so is the place
if the key has none. -/
def LoadFault.atKey (fault : LoadFault) (key : Key) (value : Token) : LoadError :=
  ⟨fault, ⟨value.path, key.span.or value.span⟩⟩

end TimedMachine
