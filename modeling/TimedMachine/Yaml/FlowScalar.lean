import TimedMachine.Json.Quoted
import TimedMachine.Yaml.Cursor

/-!
# Plain and quoted scalars

A scalar that is plain or in quotes may go on over several lines, and then it is folded: the
blanks at both sides of a line break count for nothing, a single line feed stands for a space, and
of several line feeds the first counts for nothing. `Gap` is what has been read since the last
character of the text that is none of this, and `Gap.folded` is what the text has for it.

All three readers go over the text once, a character at a time. They keep the gap, and the reader
of double quotes also what it has seen of an escape.
-/

namespace TimedMachine.Yaml

/-! ## Folding -/

/-- The blanks and line breaks between two characters of a scalar, the latest first. -/
inductive Gap where
  /-- Blanks on one line. -/
  | blanks (cs : List Char)
  /-- A line break, unless it is escaped, and the breaks after it. -/
  | lines (first : Option Char) (more : List Char)
deriving DecidableEq, Repr

namespace Gap

/-- The gap in which there is nothing. -/
def empty : Gap := blanks []

/-- Adds a blank or a line break. Blanks before and after a line break are dropped. -/
def push (c : Char) : Gap → Gap
  | blanks cs => if isBreak c then lines (some c) [] else blanks (c :: cs)
  | lines first more => if isBreak c then lines first (c :: more) else lines first more

/-- Whether there is a line break in the gap. -/
def hasBreak : Gap → Bool
  | blanks _ => false
  | lines _ _ => true

/-- The text that a gap stands for. -/
def folded : Gap → List Char
  | blanks cs => cs.reverse
  | lines (some '\n') [] => [' ']
  | lines (some '\n') more => more.reverse
  | lines first more => first.toList ++ more.reverse

end Gap

/-! ## Plain scalars -/

/-- A plain scalar: its text, whether a line break comes next, and the place after it. -/
structure PlainScalar where
  text : List Char
  beforeBreak : Bool
  rest : Cursor
deriving DecidableEq, Repr

/-- Whether a plain scalar goes no further than to these characters, wherever they stand. -/
def stopsPlain (inFlow : Bool) : List Char → Bool
  | [] => true
  | c :: cs => (c == ':' && endsWord cs) || (inFlow && c ∈ [',', '[', ']', '\x7b', '\x7d'])

/-- Whether a plain scalar ends for what comes after a gap: a comment, a mark between documents
or, in block style, a line that is indented by less than `margin`. -/
def stopsAfterGap (inFlow : Bool) (margin : Nat) (gap : Gap) (cs : List Char) (p : Place) : Bool :=
  (gap.hasBreak && !inFlow && p.column < margin) ||
  (p.column == 0 && beginsWithDocumentMark cs) ||
  (gap != .empty && cs.head? == some '#')

/-- Whether a colon stands before a mark of flow style, where it is an error. -/
def isLostColon : List Char → Bool
  | ':' :: c :: _ => c ∈ [',', '?', '[', ']', '\x7b', '\x7d']
  | _ => false

/-- Reads a plain scalar. A tab must not indent a line of it by less than `margin`. -/
def plainScalar? (inFlow : Bool) (margin : Nat) : Gap → List Char → Place → Option PlainScalar
  | gap, [], p => some ⟨[], gap.hasBreak, ⟨[], p⟩⟩
  | gap, c :: cs, p =>
    if isWhite c || isBreak c then
      if gap.hasBreak && c == '\t' && p.column < margin then none
      else plainScalar? inFlow margin (gap.push c) cs (p.next c)
    else if stopsAfterGap inFlow margin gap (c :: cs) p then
      some ⟨[], gap.hasBreak, ⟨c :: cs, p⟩⟩
    else if inFlow && isLostColon (c :: cs) then none
    else if stopsPlain inFlow (c :: cs) then some ⟨[], gap.hasBreak, ⟨c :: cs, p⟩⟩
    else (plainScalar? inFlow margin .empty cs (p.next c)).map fun s =>
      { s with text := gap.folded ++ c :: s.text }

/-! ## Quoted scalars -/

/-- Puts characters in front of a text that has been read. -/
def prepend (cs : List Char) : List Char × Cursor → List Char × Cursor
  | (text, rest) => (cs ++ text, rest)

/-- Reads a scalar in single quotes after its opening quote. A quote in it is written twice. -/
def singleQuoted? : Gap → List Char → Place → Option (List Char × Cursor)
  | _, [], _ => none
  | gap, '\'' :: '\'' :: cs, p =>
    (singleQuoted? .empty cs ⟨p.line, p.column + 2⟩).map (prepend (gap.folded ++ ['\'']))
  | gap, c :: cs, p =>
    if p.column == 0 && beginsWithDocumentMark (c :: cs) then none
    else if isWhite c || isBreak c then singleQuoted? (gap.push c) cs (p.next c)
    else if c = '\'' then some (gap.folded, ⟨cs, p.next c⟩)
    else (singleQuoted? .empty cs (p.next c)).map (prepend (gap.folded ++ [c]))

/-- The character of an escape that is one character long. -/
def escapedChar? (c : Char) : Option Char :=
  match c with
  | '0' => some '\x00'
  | 'a' => some '\x07'
  | 'b' => some '\x08'
  | 't' | '\t' => some '\t'
  | 'n' => some '\n'
  | 'v' => some '\x0b'
  | 'f' => some '\x0c'
  | 'r' => some '\r'
  | 'e' => some '\x1b'
  | ' ' | '"' | '/' | '\\' => some c
  | 'N' => some '\u0085'
  | '_' => some '\u00a0'
  | 'L' => some '\u2028'
  | 'P' => some '\u2029'
  | _ => none

/-- The number of hexadecimal digits in an escape that begins with this character. -/
def codeLength? (c : Char) : Option Nat :=
  match c with
  | 'x' => some 2
  | 'u' => some 4
  | 'U' => some 8
  | _ => none

/-- The character of a code point; a surrogate has none. -/
def charOfCode? (n : Nat) : Option Char :=
  if n < 0xd800 || (0xdfff < n && n < 0x110000) then some (Char.ofNat n) else none

/-- What has been read of an escape: nothing, its backslash, or the digits of a code up to the
last `missing` ones. -/
inductive Escape where
  | none
  | begun
  | code (missing : Nat) (value : Nat)
deriving DecidableEq, Repr

/-- Reads a scalar in double quotes after its opening quote. An escaped line break counts for
nothing, and so do the blanks at the beginning of the line after it. -/
def doubleQuoted? : Escape → Gap → List Char → Place → Option (List Char × Cursor)
  | _, _, [], _ => none
  | .none, gap, c :: cs, p =>
    if p.column == 0 && beginsWithDocumentMark (c :: cs) then none
    else if isWhite c || isBreak c then doubleQuoted? .none (gap.push c) cs (p.next c)
    else if c = '"' then some (gap.folded, ⟨cs, p.next c⟩)
    else if c = '\\' then
      (doubleQuoted? .begun .empty cs (p.next c)).map (prepend gap.folded)
    else (doubleQuoted? .none .empty cs (p.next c)).map (prepend (gap.folded ++ [c]))
  | .begun, _, c :: cs, p =>
    if isBreak c then doubleQuoted? .none (.lines none []) cs (p.next c)
    else match escapedChar? c, codeLength? c with
      | some d, _ => (doubleQuoted? .none .empty cs (p.next c)).map (prepend [d])
      | none, some n => doubleQuoted? (.code n 0) .empty cs (p.next c)
      | none, none => none
  | .code missing value, _, c :: cs, p => do
    let value := 16 * value + (← Json.Quoted.hexValue? c)
    if missing ≤ 1 then
      let d ← charOfCode? value
      (doubleQuoted? .none .empty cs (p.next c)).map (prepend [d])
    else doubleQuoted? (.code (missing - 1) value) .empty cs (p.next c)

end TimedMachine.Yaml
