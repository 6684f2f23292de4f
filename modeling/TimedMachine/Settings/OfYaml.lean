import TimedMachine.Settings.Environment
import TimedMachine.Yaml.Document

/-!
# Settings from YAML

The settings are a mapping of two sections, each a mapping of fields. A section or a field that is
missing keeps its default, and one that is unknown is ignored. A field must not be repeated, and
its value must be of its type as it is written: a truth value or a number in quotes is none.
-/

namespace TimedMachine

/-- Why a text does not hold settings. -/
inductive SettingsError where
  | syntaxOrType
  | zeroDepth
deriving DecidableEq, Repr

/-- The wording of a fault of a text that is YAML with the right types. -/
def SettingsError.message? : SettingsError → Option String
  | .syntaxOrType => none
  | .zeroDepth => some "configuration validation failed: reader.max_depth must be at least 1"

namespace Yaml

/-- The tag of truth values. -/
def switchTag : String := "tag:yaml.org,2002:bool"

/-- The tag of whole numbers. -/
def depthTag : String := "tag:yaml.org,2002:int"

/-- The text of a node whose text is more than a string: of a plain scalar, and of a literal one
with the tag of its type. -/
def typedText? (tag : String) : Yaml → Option String
  | scalar _ .plain text => some text
  | scalar p .literal text => if p.tag = some tag then some text else none
  | _ => none

/-- The truth value that a text writes. -/
def switchOfText? (text : String) : Option Bool :=
  if text ∈ ["true", "True", "TRUE"] then some true
  else if text ∈ ["false", "False", "FALSE"] then some false
  else none

/-- The number below `depthBound` that digits write, without regard to their case. -/
def depthInRadix? (radix : Nat) (digits : List Char) : Option Nat := do
  let values ← digits.mapM Json.Quoted.hexValue?
  let n := values.foldl (fun n d => radix * n + d) 0
  if values ≠ [] ∧ values.all (· < radix) ∧ n < depthBound then return n else none

/-- The depth that a text writes: digits without a needless zero in front, or digits of another
radix, which stands before them. -/
def depthOfText? (text : String) : Option Nat :=
  match dropPlus text.toList with
  | '0' :: 'x' :: digits => depthInRadix? 16 digits
  | '0' :: 'o' :: digits => depthInRadix? 8 digits
  | '0' :: 'b' :: digits => depthInRadix? 2 digits
  | '0' :: _ :: _ => none
  | digits => depthOfDigits? digits

/-- Reads a truth value. -/
def switch? (anchors : List (Nat × Yaml)) (y : Yaml) : Option Bool := do
  switchOfText? (← (← y.resolve? anchors).typedText? switchTag)

/-- Reads a depth. -/
def depth? (anchors : List (Nat × Yaml)) (y : Yaml) : Option Nat := do
  depthOfText? (← (← y.resolve? anchors).typedText? depthTag)

/-- The text of a scalar, however it is written. -/
def keyText? (anchors : List (Nat × Yaml)) (y : Yaml) : Option String :=
  match y.resolve? anchors with
  | some (scalar _ _ text) => some text
  | _ => none

/-- The fields of a mapping; where nothing is written there are none. -/
def fields? (anchors : List (Nat × Yaml)) (y : Yaml) : Option (List (String × Yaml)) :=
  match y.resolve? anchors with
  | some (scalar _ .plain "") => some []
  | some (mapping _ entries) =>
    entries.mapM fun (key, value) => (keyText? anchors key).map (·, value)
  | _ => none

/-- The value of a field, or its default if it is missing; fails if the field is repeated. -/
def field? {α : Type} (fields : List (String × Yaml)) (name : String) (read : Yaml → Option α)
    (default : α) : Option α :=
  match fields.filter (·.1 == name) with
  | [] => some default
  | [(_, value)] => read value
  | _ => none

end Yaml

namespace Settings

/-- Reads the section on the reader. -/
def readerOfYaml? (anchors : List (Nat × Yaml)) (y : Yaml) : Option ReadOptions := do
  let fields ← y.fields? anchors
  return { allowComments := ← Yaml.field? fields "allow_comments" (Yaml.switch? anchors) true
           maxDepth := ← Yaml.field? fields "max_depth" (Yaml.depth? anchors) 128 }

/-- Reads the section on the checks. -/
def checksOfYaml? (anchors : List (Nat × Yaml)) (y : Yaml) : Option Checks := do
  let fields ← y.fields? anchors
  return { paths := ← Yaml.field? fields "paths" (Yaml.switch? anchors) true
           unusedTimers := ← Yaml.field? fields "unused_timers" (Yaml.switch? anchors) true
           callbackNames := ← Yaml.field? fields "callback_names" (Yaml.switch? anchors) true }

/-- Reads settings with any depth. -/
def ofYamlNode? (y : Yaml) : Option Settings := do
  let anchors := y.anchored
  let fields ← y.fields? anchors
  return { reader := ← Yaml.field? fields "reader" (readerOfYaml? anchors) {}
           checks := ← Yaml.field? fields "checks" (checksOfYaml? anchors) {} }

/-- Reads settings from a text. -/
def ofYaml (text : String) : Except SettingsError Settings :=
  match (Yaml.parse? text).bind ofYamlNode? with
  | none => .error .syntaxOrType
  | some s => if s.reader.maxDepth = 0 then .error .zeroDepth else .ok s

end Settings

end TimedMachine
