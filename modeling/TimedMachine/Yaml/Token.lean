import TimedMachine.Yaml.BlockScalar
import TimedMachine.Yaml.FlowScalar
import TimedMachine.Yaml.Tag

/-!
# YAML tokens

A text is a row of tokens, and those that open and close the collections of block style are not
written: they follow from the indentation. `Token.ofText?` reads the row.

A key need not be marked as one. Where a node begins on which a colon may follow, its number in
the row is kept, and when the colon comes, the mark of the key is put in front of that node,
together with the opening of a mapping if the key is indented further than the blocks that are
open. A colon is such a colon only on the line of the node and at most 1024 characters after its
beginning.

Anchors are numbered by how many names there are before them, a name that comes again being one
name, and an alias has the number that its name had last. So an alias may have the number of an
anchor with another name.
-/

namespace TimedMachine.Yaml

/-- How a scalar is written. -/
inductive Style where
  | plain
  | singleQuoted
  | doubleQuoted
  | literal
  | folded
deriving DecidableEq, Repr, Inhabited

/-- A part of a text. -/
inductive Token where
  | directive (d : Directive)
  | documentStart
  | documentEnd
  | blockSequenceStart
  | blockMappingStart
  | blockEnd
  | flowSequenceStart
  | flowSequenceEnd
  | flowMappingStart
  | flowMappingEnd
  /-- The dash of an item of block style. -/
  | item
  /-- The comma between the parts of a collection of flow style. -/
  | comma
  | key
  | value
  | aliasOf (number : Nat)
  | anchor (number : Nat)
  | tag (t : Tag)
  | scalar (style : Style) (text : String)
deriving DecidableEq, Repr

/-- The beginning of a node that may turn out to be a key. -/
structure KeyStart where
  /-- The number of tokens before the node. -/
  index : Nat
  place : Place
  /-- Whether it is an error if the node is no key. -/
  required : Bool
deriving DecidableEq, Repr

/-- Whether a colon at `p` makes a key of the node. -/
def KeyStart.reaches (k : KeyStart) (p : Place) : Bool :=
  k.place.line == p.line && p.column ≤ k.place.column + 1024

/-- What is known between two tokens of a text. -/
structure Scan where
  cursor : Cursor
  /-- The tokens so far, the latest first. -/
  tokens : List Token := []
  count : Nat := 0
  /-- The columns of the blocks that are open, the innermost first. -/
  indents : List Nat := []
  /-- The node that may be a key in the innermost collection of flow style, or outside of all. -/
  key : Option KeyStart := none
  /-- The same for what is around each open collection of flow style, the innermost first. -/
  outerKeys : List (Option KeyStart) := []
  /-- Whether a node that begins here may be a key. -/
  keyAllowed : Bool := true
  /-- The numbers of the names of anchors. -/
  anchors : List (String × Nat) := []
deriving DecidableEq, Repr

namespace Scan

/-! ## State -/

/-- Whether a collection of flow style is open. -/
def inFlow (s : Scan) : Bool := !s.outerKeys.isEmpty

/-- The column of the next character. -/
def column (s : Scan) : Nat := s.cursor.place.column

/-- The least column that is further than the innermost block. -/
def margin (s : Scan) : Nat := (s.indents.head?.map (· + 1)).getD 0

/-- Adds a token. -/
def push (t : Token) (s : Scan) : Scan :=
  { s with tokens := t :: s.tokens, count := s.count + 1 }

/-- Adds a token that `n` characters write. -/
def indicator (t : Token) (n : Nat) (s : Scan) : Scan :=
  { s.push t with cursor := s.cursor.drop n }

/-- Adds a token that is written up to `rest`. -/
def pushUpTo (t : Token) (rest : Cursor) (s : Scan) : Scan := { s.push t with cursor := rest }

/-- Puts tokens in front of the one with the given number. -/
def insert (index : Nat) (ts : List Token) (s : Scan) : Scan :=
  let later := s.count - index
  { s with
    tokens := s.tokens.take later ++ ts.reverse ++ s.tokens.drop later
    count := s.count + ts.length }

/-- Closes the blocks for whose columns `p` holds, if no collection of flow style is open. -/
def closeBlocks (p : Nat → Bool) (s : Scan) : Scan :=
  if s.inFlow then s
  else
    let closed := s.indents.takeWhile p
    { s with
      tokens := closed.map (fun _ => .blockEnd) ++ s.tokens
      count := s.count + closed.length
      indents := s.indents.drop closed.length }

/-- Opens a block here, unless there is one. -/
def openBlock (t : Token) (s : Scan) : Scan :=
  if s.margin ≤ s.column then { s.push t with indents := s.column :: s.indents } else s

/-- Opens a block for an indicator of block style, which must stand where a key may begin; in flow
style there is nothing to open. -/
def openBlock? (t : Token) (s : Scan) : Option Scan :=
  if s.inFlow then some s else if s.keyAllowed then some (s.openBlock t) else none

/-- Gives up that the last node may be a key. -/
def dropKey? (s : Scan) : Option Scan :=
  if s.key.any (·.required) then none else some { s with key := none }

/-- Keeps in mind that the node that begins here may be a key. It has to be one if it stands where
the keys of the innermost block do. -/
def saveKey? (s : Scan) : Option Scan :=
  if s.keyAllowed then do
    let k : KeyStart :=
      ⟨s.count, s.cursor.place, !s.inFlow && s.indents.head? == some s.column⟩
    return { ← s.dropKey? with key := some k }
  else some s

/-- Begins a node of which no other part may be a key. -/
def beginNode? (s : Scan) : Option Scan := do
  return { ← s.saveKey? with keyAllowed := false }

/-! ## Blanks -/

/-- Goes over blanks, comments and line breaks. A tab is a blank only in flow style or where no key
may begin, and in block style a key may begin on a new line. -/
def skipBlanks (inFlow : Bool) :
    (inComment keyAllowed : Bool) → List Char → Place → Bool × Cursor
  | _, keyAllowed, [], p => (keyAllowed, ⟨[], p⟩)
  | inComment, keyAllowed, c :: cs, p =>
    if isBreak c then skipBlanks inFlow false (keyAllowed || !inFlow) cs (p.next c)
    else if inComment || c == ' ' || (c == '\t' && (inFlow || !keyAllowed)) ||
        (c == '\ufeff' && p.column == 0) then
      skipBlanks inFlow inComment keyAllowed cs (p.next c)
    else if c = '#' then skipBlanks inFlow true keyAllowed cs (p.next c)
    else (keyAllowed, ⟨c :: cs, p⟩)

/-- Goes on to the next token and closes the blocks that are indented further than it. -/
def toToken (s : Scan) : Scan :=
  let (keyAllowed, cursor) := skipBlanks s.inFlow false s.keyAllowed s.cursor.rest s.cursor.place
  closeBlocks (cursor.place.column < ·) { s with cursor, keyAllowed }

/-! ## Tokens of structure -/

/-- Closes all blocks for what stands between documents. -/
def leaveDocument? (s : Scan) : Option Scan := do
  return { ← (s.closeBlocks fun _ => true).dropKey? with keyAllowed := false }

/-- Reads a directive. -/
def readDirective? (s : Scan) : Option Scan := do
  let s ← s.leaveDocument?
  let (d, rest) ← directive? s.cursor
  return s.pushUpTo (.directive d) rest

/-- Reads a mark between documents. -/
def readDocumentMark? (t : Token) (s : Scan) : Option Scan := do
  return (← s.leaveDocument?).indicator t 3

/-- Reads an opening bracket or brace. -/
def openFlow? (t : Token) (s : Scan) : Option Scan := do
  let s ← s.saveKey?
  return { s.indicator t 1 with key := none, outerKeys := s.key :: s.outerKeys, keyAllowed := true }

/-- Reads a closing bracket or brace. -/
def closeFlow? (t : Token) (s : Scan) : Option Scan := do
  let s := (← s.dropKey?).indicator t 1
  match s.outerKeys with
  | [] => return { s with keyAllowed := false }
  | k :: outer => return { s with key := k, outerKeys := outer, keyAllowed := false }

/-- Reads a comma. -/
def readComma? (s : Scan) : Option Scan := do
  return { (← s.dropKey?).indicator .comma 1 with keyAllowed := true }

/-- Reads the dash of an item. -/
def readItem? (s : Scan) : Option Scan := do
  let s ← s.openBlock? .blockSequenceStart
  return { (← s.dropKey?).indicator .item 1 with keyAllowed := true }

/-- Reads the mark of a key. -/
def readKey? (s : Scan) : Option Scan := do
  let s ← s.openBlock? .blockMappingStart
  return { (← s.dropKey?).indicator .key 1 with keyAllowed := !s.inFlow }

/-- Reads a colon that belongs to the node `k`. -/
def readValueOf (k : KeyStart) (s : Scan) : Scan :=
  let opens := !s.inFlow && s.margin ≤ k.place.column
  let s := s.insert k.index (if opens then [.blockMappingStart, .key] else [.key])
  { s.indicator .value 1 with
    indents := if opens then k.place.column :: s.indents else s.indents
    key := none
    keyAllowed := false }

/-- Reads a colon with no node before it. -/
def readLoneValue? (s : Scan) : Option Scan := do
  let s ← s.openBlock? .blockMappingStart
  return { s.indicator .value 1 with key := none, keyAllowed := !s.inFlow }

/-- Reads a colon. -/
def readValue? (s : Scan) : Option Scan :=
  match s.key with
  | none => s.readLoneValue?
  | some k =>
    if k.reaches s.cursor.place then some (s.readValueOf k)
    else if k.required then none
    else s.readLoneValue?

/-! ## Tokens of nodes -/

/-- Reads an alias, whose name must have been an anchor's. -/
def readAlias? (s : Scan) : Option Scan := do
  let s ← s.beginNode?
  let (name, rest) ← anchorName? (s.cursor.drop 1)
  return s.pushUpTo (.aliasOf (← s.anchors.lookup name)) rest

/-- Reads an anchor. -/
def readAnchor? (s : Scan) : Option Scan := do
  let s ← s.beginNode?
  let (name, rest) ← anchorName? (s.cursor.drop 1)
  let number := s.anchors.length
  let others := s.anchors.filter (·.1 ≠ name)
  return { s.pushUpTo (.anchor number) rest with anchors := (name, number) :: others }

/-- Reads a tag. -/
def readTag? (s : Scan) : Option Scan := do
  let s ← s.beginNode?
  let (t, rest) ← tag? s.inFlow s.cursor
  return s.pushUpTo (.tag t) rest

/-- Reads a literal or a folded scalar. -/
def readBlockScalar? (style : Style) (s : Scan) : Option Scan := do
  let s ← s.dropKey?
  let (text, rest) ← blockScalar? (style == .folded) s.margin (s.cursor.drop 1)
  return { s.pushUpTo (.scalar style (String.ofList text)) rest with keyAllowed := true }

/-- Reads a scalar in single quotes. -/
def readSingleQuoted? (s : Scan) : Option Scan := do
  let s ← s.beginNode?
  let start := s.cursor.drop 1
  let (text, rest) ← singleQuoted? .empty start.rest start.place
  return s.pushUpTo (.scalar .singleQuoted (String.ofList text)) rest

/-- Reads a scalar in double quotes. -/
def readDoubleQuoted? (s : Scan) : Option Scan := do
  let s ← s.beginNode?
  let start := s.cursor.drop 1
  let (text, rest) ← doubleQuoted? .none .empty start.rest start.place
  return s.pushUpTo (.scalar .doubleQuoted (String.ofList text)) rest

/-- Reads a plain scalar. -/
def readPlain? (s : Scan) : Option Scan := do
  let s ← s.beginNode?
  let p ← plainScalar? s.inFlow s.margin .empty s.cursor.rest s.cursor.place
  return { s.pushUpTo (.scalar .plain (String.ofList p.text)) p.rest with
           keyAllowed := p.beforeBreak }

/-! ## The row -/

/-- Reads the token that begins here; there is no token only at the end of a text. -/
def read? (s : Scan) : Option Scan :=
  match s.cursor.rest with
  | [] => none
  | c :: cs =>
    if s.column = 0 ∧ c = '%' then s.readDirective?
    else if s.column = 0 ∧ beginsWithMark '-' (c :: cs) then s.readDocumentMark? .documentStart
    else if s.column = 0 ∧ beginsWithMark '.' (c :: cs) then s.readDocumentMark? .documentEnd
    else match c with
      | '[' => s.openFlow? .flowSequenceStart
      | ']' => s.closeFlow? .flowSequenceEnd
      | '\x7b' => s.openFlow? .flowMappingStart
      | '\x7d' => s.closeFlow? .flowMappingEnd
      | ',' => s.readComma?
      | '-' => if endsWord cs then s.readItem? else s.readPlain?
      | '?' => if s.inFlow || endsWord cs then s.readKey? else s.readPlain?
      | ':' => if s.inFlow || endsWord cs then s.readValue? else s.readPlain?
      | '*' => s.readAlias?
      | '&' => s.readAnchor?
      | '!' => s.readTag?
      | '|' => if s.inFlow then none else s.readBlockScalar? .literal
      | '>' => if s.inFlow then none else s.readBlockScalar? .folded
      | '\'' => s.readSingleQuoted?
      | '"' => s.readDoubleQuoted?
      | '\t' | '%' | '@' | '\x60' => none
      | _ => s.readPlain?

/-- The row of tokens, if all of the text has been read. -/
def finish? (s : Scan) : Option (List Token) := do
  let s ← s.leaveDocument?
  return s.tokens.reverse

/-- Reads on to the end of the text. `fuel` bounds the number of tokens that are written. -/
def run? : (fuel : Nat) → Scan → Option (List Token)
  | 0, _ => none
  | fuel + 1, s =>
    let s := s.toToken
    if s.cursor.rest.isEmpty then s.finish? else s.read?.bind (run? fuel)

end Scan

/-- The tokens of a text. Each that is written takes up a character at least. -/
def Token.ofText? (text : String) : Option (List Token) := do
  let cs ← characters? text
  Scan.run? (cs.length + 1) { cursor := { rest := cs } }

end TimedMachine.Yaml
