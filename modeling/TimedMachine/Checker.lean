import TimedMachine.Explore.Report
import TimedMachine.Machine.OfToken
import TimedMachine.Naming
import TimedMachine.Settings.Basic

/-!
# Checking specifications

A check reads a document, loads the machine that it specifies and runs the passes that the
settings enable. It ends with the machine, with the first fault of the text or of the
specification, or with all violations that the passes find.
-/

namespace TimedMachine

namespace Machine

/-- What a pass finds wrong with a machine. -/
def violationsOf (m : Machine) : Pass → List Violation
  | .paths => m.explore.violations
  | .unusedTimers => m.unusedTimers
  | .callbackNames => m.namingViolations

/-- All violations of a machine. -/
def validate (m : Machine) : List Violation :=
  m.explore.violations ++ m.unusedTimers ++ m.namingViolations

/-- The violations that the enabled passes find. -/
def runPasses (m : Machine) (checks : Checks) : List Violation :=
  Pass.all.flatMap fun pass => if checks.enables pass then m.violationsOf pass else []

end Machine

/-- Why a check fails. -/
inductive CheckError where
  | read (e : ReadError)
  | load (e : LoadError)
  | invalid (violations : List Violation)
deriving DecidableEq

/-- The code that a failed check is reported with. -/
def CheckError.code : CheckError → String
  | .read _ => "READ_ERROR"
  | .load _ => "PARSE_ERROR"
  | .invalid _ => "VALIDATION_ERROR"

/-- A failed check in words. -/
def CheckError.message : CheckError → String
  | .read e => "read error: " ++ e.message
  | .load e => "parse error: " ++ e.message
  | .invalid violations => "validation failed: " ++ violationsText violations

namespace Settings

/-- Loads and checks a token tree. -/
def checkToken (s : Settings) (t : Token) : Except CheckError Machine :=
  match Machine.ofToken t with
  | .error e => .error (.load e)
  | .ok m =>
    match m.runPasses s.checks with
    | [] => .ok m
    | violations => .error (.invalid violations)

/-- Checks a JSON value. -/
def checkJson (s : Settings) (v : Json) : Except CheckError Machine := s.checkToken (.ofJson v)

/-- Reads and checks a text. -/
def checkText (s : Settings) (text : String) : Except CheckError Machine :=
  match Token.read s.reader text with
  | .error e => .error (.read e)
  | .ok t => s.checkToken t

end Settings

end TimedMachine
