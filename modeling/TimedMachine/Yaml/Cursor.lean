/-!
# Places in a YAML text

The layout of a YAML text says as much as its characters do, so a reader keeps the line and the
column of the place where it stands. `Place.next` moves a place over one character and a `Cursor`
is a place with all the text that follows it.

A text has one kind of line break for the carriage return, the line feed and U+0085, and two more
that keep their character. `characters?` makes the breaks of the first kind line feeds and refuses
a text with a control character.
-/

namespace TimedMachine.Yaml

/-! ## Characters -/

/-- A space or a tab. -/
def isWhite (c : Char) : Bool := c == ' ' || c == '\t'

/-- A line break. -/
def isBreak (c : Char) : Bool := c == '\n' || c == '\u2028' || c == '\u2029'

/-- A character of the names of anchors, tag handles and directives. -/
def isWordChar (c : Char) : Bool := c.isAlphanum || c == '_' || c == '-'

/-- Whether a word ends before these characters. -/
def endsWord : List Char → Bool
  | [] => true
  | c :: _ => isWhite c || isBreak c

/-- Whether a character may stand in a text at all. -/
def isPermitted (c : Char) : Bool :=
  let n := c.toNat
  n == 0x9 || n == 0xa || n == 0xd || (0x20 ≤ n && n ≤ 0x7e) || n == 0x85 ||
  (0xa0 ≤ n && n ≤ 0xfffd) || 0x10000 ≤ n

/-- Makes one line feed of a carriage return, with a line feed after it or not, and of U+0085. -/
def unifyBreaks : List Char → List Char
  | [] => []
  | '\r' :: '\n' :: cs => '\n' :: unifyBreaks cs
  | '\r' :: cs => '\n' :: unifyBreaks cs
  | '\u0085' :: cs => '\n' :: unifyBreaks cs
  | c :: cs => c :: unifyBreaks cs

/-- The characters of a text, unless one of them is not permitted. -/
def characters? (text : String) : Option (List Char) :=
  if text.toList.all isPermitted then some (unifyBreaks text.toList) else none

/-- Whether the text begins with the word that is three times the character `c`. -/
def beginsWithMark (c : Char) : List Char → Bool
  | a :: b :: d :: rest => a == c && b == c && d == c && endsWord rest
  | _ => false

/-- Whether the text begins with one of the two marks that stand between documents. -/
def beginsWithDocumentMark (cs : List Char) : Bool :=
  beginsWithMark '-' cs || beginsWithMark '.' cs

/-! ## Places -/

/-- A line and a column, both from 0. -/
structure Place where
  line : Nat := 0
  column : Nat := 0
deriving DecidableEq, Repr, Inhabited

/-- The place after the character `c`. -/
def Place.next (p : Place) (c : Char) : Place :=
  if isBreak c then ⟨p.line + 1, 0⟩ else ⟨p.line, p.column + 1⟩

/-- A place in a text and what follows it. -/
structure Cursor where
  rest : List Char
  place : Place := {}
deriving DecidableEq, Repr, Inhabited

namespace Cursor

/-- The cursor after `n` characters of the line. -/
def drop (n : Nat) (c : Cursor) : Cursor :=
  ⟨c.rest.drop n, ⟨c.place.line, c.place.column + n⟩⟩

/-- Splits off the characters for which `p` holds, none of which is a line break. -/
def span (p : Char → Bool) (c : Cursor) : List Char × Cursor :=
  let taken := c.rest.takeWhile p
  (taken, c.drop taken.length)

/-- Goes over blanks and a comment to the next line; fails if there is anything else. -/
def endLine? (c : Cursor) : Option Cursor :=
  let (_, c) := c.span isWhite
  let (_, c) := if c.rest.head? = some '#' then c.span (!isBreak ·) else ([], c)
  match c.rest with
  | [] => some c
  | a :: rest => if isBreak a then some ⟨rest, c.place.next a⟩ else none

end Cursor

end TimedMachine.Yaml
