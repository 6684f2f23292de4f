import TimedMachine.Settings.Basic

/-!
# Settings from the environment

Each setting has a variable that overrides it. A value that makes no sense is ignored, and so is a
depth of zero, with which no document could be read.
-/

namespace TimedMachine

/-- The variables, one for each setting. -/
inductive Variable where
  | allowComments
  | maxDepth
  | checkPaths
  | checkUnusedTimers
  | checkCallbackNames
deriving DecidableEq, Repr

/-- The name of a variable in the environment. -/
def Variable.name : Variable → String
  | .allowComments => "FSMGEN_ALLOW_COMMENTS"
  | .maxDepth => "FSMGEN_MAX_DEPTH"
  | .checkPaths => "FSMGEN_CHECK_PATHS"
  | .checkUnusedTimers => "FSMGEN_CHECK_UNUSED_TIMERS"
  | .checkCallbackNames => "FSMGEN_CHECK_CALLBACK_NAMES"

/-- The values that are set, by name. -/
abbrev Environment := String → Option String

/-- Reads a switch: one of four words each, in either case, with blanks around it or not. -/
def switchOfString? (s : String) : Option Bool :=
  let word := String.ofList (lowerAscii (trim s.toList))
  if word ∈ ["1", "true", "yes", "on"] then some true
  else if word ∈ ["0", "false", "no", "off"] then some false
  else none

/-- Reads digits as a number below `depthBound`. -/
def depthOfDigits? (ds : List Char) : Option Nat :=
  if ds ≠ [] ∧ ds.all Char.isDigit then
    let n := Number.numberOfDigits ds
    if n < depthBound then some n else none
  else none

/-- Takes a plus sign off the front. -/
def dropPlus : List Char → List Char
  | '+' :: cs => cs
  | cs => cs

/-- Reads a depth: digits, with a plus sign or not; zero is none. -/
def depthOfString? (s : String) : Option Nat :=
  (depthOfDigits? (dropPlus s.toList)).filter (0 < ·)

namespace Settings

/-- The switch that a variable gives, or else the one that is set. -/
def overrideSwitch (env : Environment) (v : Variable) (b : Bool) : Bool :=
  ((env v.name).bind switchOfString?).getD b

/-- The settings after the variables of the environment have had their say. -/
def override (env : Environment) (s : Settings) : Settings where
  reader :=
    { allowComments := overrideSwitch env .allowComments s.reader.allowComments
      maxDepth := ((env Variable.maxDepth.name).bind depthOfString?).getD s.reader.maxDepth }
  checks :=
    { paths := overrideSwitch env .checkPaths s.checks.paths
      unusedTimers := overrideSwitch env .checkUnusedTimers s.checks.unusedTimers
      callbackNames := overrideSwitch env .checkCallbackNames s.checks.callbackNames }

/-- The settings that the environment alone gives. -/
def ofEnvironment (env : Environment) : Settings := override env {}

end Settings

end TimedMachine
