import TimedMachine.Violation

/-!
# Checks of names

Two checks that need no runs: every declared timer must be started by some state, and the uses of
a callback name must agree. A name is reported once, for its first use and the earliest later use
that disagrees with it.
-/

namespace TimedMachine

/-- The timers that no state starts. -/
def Machine.unusedTimers (m : Machine) : List Violation :=
  (m.timers.filter fun t => !m.states.any (·.startsTimer t.name)).map fun t => .unusedTimer t.name

namespace CallbackUse

/-- The violation by two uses of a name, of which `first` comes first; `none` if they agree. -/
def conflict? (first second : CallbackUse) : Option Violation :=
  let name := second.callback.name
  match first.callback.isFunction, second.callback.isFunction with
  | false, true => some (.ambiguousCallback name first.site second.site)
  | true, false => some (.ambiguousCallback name second.site first.site)
  | true, true =>
    if first.choices = second.choices then none
    else some (.conflictingDecisionTargets name first.site second.site)
  | false, false => none

/-- Goes through uses in order. `firsts` holds the first use of each name so far, and `reported`
the names that are done with. -/
def conflicts (firsts : List CallbackUse) (reported : List String) :
    List CallbackUse → List Violation
  | [] => []
  | u :: us =>
    match firsts.find? (·.callback.name == u.callback.name) with
    | none => conflicts (u :: firsts) reported us
    | some first =>
      if u.callback.name ∈ reported then conflicts firsts reported us
      else match first.conflict? u with
        | none => conflicts firsts reported us
        | some v => v :: conflicts firsts (u.callback.name :: reported) us

end CallbackUse

/-- The callback names whose uses disagree. -/
def Machine.namingViolations (m : Machine) : List Violation :=
  CallbackUse.conflicts [] [] m.callbackUses

end TimedMachine
