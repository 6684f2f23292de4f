import TimedMachine.Yaml.Cursor

/-!
# Block scalars

The text of a block scalar is the lines after its header that are indented, without their
indentation. The header says how the breaks at the end are chomped and may say by how much the
lines are indented; otherwise the deepest of the leading blank lines and the first other line say
it. A literal scalar keeps its breaks. A folded one makes a space of a single line feed between
two lines that do not begin with a blank, and drops one line feed where there are several.
-/

namespace TimedMachine.Yaml

/-! ## Headers -/

/-- What becomes of the line breaks at the end of a text: all go, one stays, or all stay. -/
inductive Chomping where
  | strip
  | clip
  | keep
deriving DecidableEq, Repr

/-- The chomping that a header asks for. -/
def chomping? (c : Char) : Option Chomping :=
  match c with
  | '-' => some .strip
  | '+' => some .keep
  | _ => none

/-- The indentation that a header asks for. -/
def increment? (c : Char) : Option Nat := if c.isDigit then some (c.toNat - '0'.toNat) else none

/-- Reads the chomping and the indentation, in either order; both can be missing. -/
def blockHeader (c : Cursor) : Chomping × Option Nat × Cursor :=
  match c.rest.head?.bind chomping?, c.rest.head?.bind increment? with
  | some chomping, _ =>
    match (c.drop 1).rest.head?.bind increment? with
    | some n => (chomping, some n, c.drop 2)
    | none => (chomping, none, c.drop 1)
  | none, some n =>
    match (c.drop 1).rest.head?.bind chomping? with
    | some chomping => (chomping, some n, c.drop 2)
    | none => (.clip, some n, c.drop 1)
  | none, none => (.clip, none, c)

/-- The largest indentation of the blank lines at the beginning of a text and of the line after
them; a tab in it is an error. `column` is where the text begins. -/
def leadingIndent? (column : Nat) : List Char → Option Nat
  | [] => some column
  | c :: cs =>
    if c = ' ' then leadingIndent? (column + 1) cs
    else if c = '\t' then none
    else if isBreak c then (leadingIndent? 0 cs).map (max column)
    else some column

/-! ## Lines -/

/-- A text with its latest line breaks: the one that ends its last line and those of the blank
lines after it. Texts are in reverse. -/
structure BlockText where
  text : List Char := []
  lineEnd : Option Char := none
  blankLines : List Char := []
  /-- Whether the last line begins with a blank. -/
  afterBlank : Bool := false
deriving DecidableEq, Repr

namespace BlockText

/-- Begins a line with its first character. -/
def beginLine (folds : Bool) (c : Char) (t : BlockText) : BlockText :=
  let joint :=
    if folds && t.lineEnd == some '\n' && !t.afterBlank && !isWhite c then
      if t.blankLines.isEmpty then [' '] else t.blankLines
    else t.blankLines ++ t.lineEnd.toList
  { text := c :: joint ++ t.text, afterBlank := isWhite c }

/-- The whole text, with the breaks at its end chomped. -/
def chomp (t : BlockText) : Chomping → List Char
  | .strip => t.text.reverse
  | .clip => (t.lineEnd.toList ++ t.text).reverse
  | .keep => (t.blankLines ++ t.lineEnd.toList ++ t.text).reverse

end BlockText

/-- Reads lines that are indented by `indent`, up to the first that is indented by less. `inLine`
says whether a line is being read or its indentation. -/
def blockLines? (folds : Bool) (indent : Nat) :
    (inLine : Bool) → BlockText → List Char → Place → Option (BlockText × Cursor)
  | _, t, [], p => some (t, ⟨[], p⟩)
  | true, t, c :: cs, p =>
    if isBreak c then blockLines? folds indent false { t with lineEnd := some c } cs (p.next c)
    else blockLines? folds indent true { t with text := c :: t.text } cs (p.next c)
  | false, t, c :: cs, p =>
    if isBreak c then
      blockLines? folds indent false { t with blankLines := c :: t.blankLines } cs (p.next c)
    else if p.column < indent then
      if c = ' ' then blockLines? folds indent false t cs (p.next c)
      else if c = '\t' then none
      else some (t, ⟨c :: cs, p⟩)
    else blockLines? folds indent true (t.beginLine folds c) cs (p.next c)

/-- Reads a block scalar after the character that says whether it `folds`. -/
def blockScalar? (folds : Bool) (margin : Nat) (c : Cursor) : Option (List Char × Cursor) := do
  let (chomping, increment, c) := blockHeader c
  if increment = some 0 then none
  let c ← c.endLine?
  let indent ← match increment with
    | some n => some (margin - 1 + n)
    | none => (leadingIndent? c.place.column c.rest).map (max (max margin 1))
  let (t, c) ← blockLines? folds indent false {} c.rest c.place
  return (t.chomp chomping, c)

end TimedMachine.Yaml
