import TimedMachine.Crc32c
import TimedMachine.Json.Basic
import TimedMachine.Machine.Basic

/-!
# Machines as JSON

Each part of a machine has a JSON value. Members come in a fixed order; an optional part that is
absent has no member, other than in the list of its parts. `Machine.checksum` is the check value
of the machine's JSON text, so it tells machines with different texts apart as far as CRC-32C
does.
-/

namespace TimedMachine

namespace Json

/-- The member `key`, if there is a value for it. -/
def optional (key : String) (value : Option Json) : List (String × Json) :=
  (value.map fun v => (key, v)).toList

/-- A list of strings. -/
def strings (ss : List String) : Json := .array (ss.map .string)

/-- An object with one member, which tells what the value is a value of. -/
def tagged (tag : String) (value : Json) : Json := .object [(tag, value)]

end Json

/-- A timer as JSON. -/
def Timer.toJson (t : Timer) : Json :=
  .object [("name", .string t.name), ("interval_seconds", .number t.interval)]

/-- An argument as JSON. -/
def Argument.toJson (a : Argument) : Json :=
  .object [("name", .string a.name), ("type", .string a.type)]

/-- An event as JSON. -/
def Event.toJson (e : Event) : Json :=
  .object <|
    [("name", .string e.name), ("args", .array (e.args.map Argument.toJson))] ++
    Json.optional "after_states" (e.afterStates.map Json.strings) ++
    [("only_once", .bool e.onlyOnce)]

/-- A target as JSON. -/
def Target.toJson : Target → Json
  | .state name => Json.tagged "state" (.string name)
  | .noChange => .string "no_change"
  | .failure => .string "failure"

/-- A choice as JSON. -/
def Choice.toJson (c : Choice) : Json :=
  .object [("name", .string c.name), ("target", c.target.toJson)]

/-- The choices of a decision as JSON. -/
def decisionToJson (choices : List Choice) : Json :=
  Json.tagged "decision" (.array (choices.map Choice.toJson))

/-- Targets as JSON. -/
def Targets.toJson : Targets → Json
  | .single target => Json.tagged "single" target.toJson
  | .decision choices => decisionToJson choices

/-- An edge as JSON. -/
def Edge.toJson (e : Edge) : Json :=
  .object <|
    [("invoker", .string e.invoker), ("invoker_kind", .string e.kind.text),
      ("targets", e.targets.toJson),
      ("callbacks", Json.strings (e.callbacks.map CallbackShape.text))] ++
    Json.optional "comment" (e.comment.map .string)

/-- A rule for a delay as JSON. -/
def DelayRule.toJson (r : DelayRule Float) : Json :=
  .object <|
    Json.optional "set" (r.set.map .number) ++
    Json.optional "multiplier" (r.multiplier.map .number) ++
    Json.optional "increment" (r.increment.map .number) ++
    Json.optional "min" (r.min.map .number) ++
    Json.optional "max" (r.max.map .number)

/-- The start of a timer as JSON. -/
def TimerStart.toJson (s : TimerStart) : Json :=
  .object <| [("timer", .string s.timer)] ++ Json.optional "modify" (s.rule.map DelayRule.toJson)

/-- A notification as JSON. -/
def OnEnter.toJson (o : OnEnter) : Json :=
  .object (Json.optional "comment" (o.comment.map .string))

/-- A next state as JSON. -/
def NextState.toJson : NextState → Json
  | .state name => Json.tagged "state" (.string name)
  | .decision choices => decisionToJson choices

/-- The shape of a state as JSON. -/
def Shape.toJson : Shape → Json
  | .branching eventEdges timerEdges =>
    Json.tagged "branching" <| .object
      [("event_edges", .array (eventEdges.map Edge.toJson)),
        ("timer_edges", .array (timerEdges.map Edge.toJson))]
  | .passThrough next => Json.tagged "pass_through" next.toJson
  | .final => .string "final"

/-- A state as JSON. -/
def State.toJson (s : State) : Json :=
  .object <|
    [("name", .string s.name), ("start_timers", .array (s.startTimers.map TimerStart.toJson)),
      ("stop_timers", Json.strings s.stopTimers)] ++
    Json.optional "on_enter" (s.onEnter.map OnEnter.toJson) ++
    [("kind", s.shape.toJson)]

/-- A machine as JSON. -/
def Machine.toJson (m : Machine) : Json :=
  .object
    [("timers", .array (m.timers.map Timer.toJson)),
      ("events", .array (m.events.map Event.toJson)),
      ("states", .array (m.states.map State.toJson)),
      ("start_state", .string m.startState)]

/-- The check value of a machine's JSON text. -/
def Machine.checksum (m : Machine) : String := Crc32c.checksum m.toJson.text

end TimedMachine
