import TimedMachine.Text.Blank
import TimedMachine.Token.Read
import TimedMachine.Violation

/-!
# Settings

What documents the reader accepts and which passes of the checks run. Settings can be written as
YAML and as JSON, and single settings can be overridden by variables of the environment. The
reader's depth is at least one in all settings that come about in these ways.
-/

namespace TimedMachine

/-- Which passes run. -/
structure Checks where
  paths : Bool := true
  unusedTimers : Bool := true
  callbackNames : Bool := true
deriving DecidableEq, Repr, Inhabited

/-- Whether a pass runs. -/
def Checks.enables (c : Checks) : Pass → Bool
  | .paths => c.paths
  | .unusedTimers => c.unusedTimers
  | .callbackNames => c.callbackNames

/-- The settings of a checker. -/
structure Settings where
  reader : ReadOptions := {}
  checks : Checks := {}
deriving DecidableEq, Repr, Inhabited

/-- The number below which a depth has to be. -/
def depthBound : Nat := UInt64.size

/-- The word for a truth value. -/
def switchText (b : Bool) : String := if b then "true" else "false"

namespace Settings

/-- The settings in words: for each section the names and values of its fields. -/
def sections (s : Settings) : List (String × List (String × String)) :=
  [("reader",
      [("allow_comments", switchText s.reader.allowComments),
        ("max_depth", toString s.reader.maxDepth)]),
    ("checks",
      [("paths", switchText s.checks.paths),
        ("unused_timers", switchText s.checks.unusedTimers),
        ("callback_names", switchText s.checks.callbackNames)])]

/-- The settings as YAML: a block mapping of the sections. -/
def yamlText (s : Settings) : String :=
  String.join <| s.sections.map fun (title, fields) =>
    title ++ ":\n" ++ String.join (fields.map fun (name, value) =>
      "  " ++ name ++ ": " ++ value ++ "\n")

/-- An object of JSON with the given member texts. -/
def jsonObject (members : List (String × String)) : String :=
  "\x7b" ++ ",".intercalate (members.map fun (name, value) => "\"" ++ name ++ "\":" ++ value) ++
    "\x7d"

/-- The settings as JSON. -/
def jsonText (s : Settings) : String :=
  jsonObject (s.sections.map fun (title, fields) => (title, jsonObject fields))

end Settings

end TimedMachine
