import TimedMachine.Json.Quoted
import TimedMachine.Number.Literal
import TimedMachine.Yaml.Cursor

/-!
# Anchors, tags and directives

What a text says about its nodes, by name. A tag is a handle and a suffix, and a directive before
a document says what text a handle stands for. The text of a tag is kept an octet to a character,
because an escape in it stands for an octet; it ends at the first octet that is zero.
-/

namespace TimedMachine.Yaml

/-! ## Anchors -/

/-- Reads the name of an anchor or an alias after its indicator. -/
def anchorName? (c : Cursor) : Option (String × Cursor) :=
  let (name, c) := c.span isWordChar
  let ends := endsWord c.rest ||
    c.rest.head?.any (· ∈ ['?', ':', ',', ']', '\x7d', '%', '@', '\x60'])
  if !name.isEmpty && ends then some (String.ofList name, c) else none

/-! ## Tags -/

/-- A tag as it is written. A tag in angle brackets has the empty handle. -/
structure Tag where
  handle : String
  suffix : String
deriving DecidableEq, Repr

/-- A character that stands for itself in a tag. More of them do where a tag is `verbatim`. -/
def isTagChar (verbatim : Bool) (c : Char) : Bool :=
  isWordChar c ||
  c ∈ [';', '/', '?', ':', '@', '&', '=', '+', '$', '.', '!', '~', '*', '\'', '(', ')'] ||
  (verbatim && c ∈ [',', '[', ']'])

/-- The octet that two hexadecimal digits write. -/
def octet? (a b : Char) : Option Nat := do
  return 16 * (← Json.Quoted.hexValue? a) + (← Json.Quoted.hexValue? b)

/-- How many octets follow a first one in UTF-8. -/
def octetsAfter? (octet : Nat) : Option Nat :=
  if octet < 0x80 then some 0
  else if octet < 0xc0 then none
  else if octet < 0xe0 then some 1
  else if octet < 0xf0 then some 2
  else if octet < 0xf8 then some 3
  else none

/-- Splits off the longest text of a tag. Escapes must write whole characters, of which `missing`
octets are still to come. -/
def tagText? (verbatim : Bool) :
    (missing : Nat) → List Char → Place → Option (List Char × Cursor)
  | 0, [], p => some ([], ⟨[], p⟩)
  | 0, '%' :: a :: b :: cs, p => do
    let octet ← octet? a b
    let (text, rest) ← tagText? verbatim (← octetsAfter? octet) cs ⟨p.line, p.column + 3⟩
    return (Char.ofNat octet :: text, rest)
  | missing + 1, '%' :: a :: b :: cs, p => do
    let octet ← octet? a b
    if octet / 0x40 = 2 then
      let (text, rest) ← tagText? verbatim missing cs ⟨p.line, p.column + 3⟩
      return (Char.ofNat octet :: text, rest)
    else none
  | _ + 1, _, _ => none
  | 0, c :: cs, p =>
    if c = '%' then none
    else if isTagChar verbatim c then
      (tagText? verbatim 0 cs (p.next c)).map fun (text, rest) => (c :: text, rest)
    else some ([], ⟨c :: cs, p⟩)

/-- The part of a tag that counts. -/
def tagString (text : List Char) : String := String.ofList (text.takeWhile (· ≠ '\x00'))

/-- Reads the text of a tag where one has to be. -/
def someTagText? (verbatim : Bool) (c : Cursor) : Option (String × Cursor) :=
  match tagText? verbatim 0 c.rest c.place with
  | some (a :: text, rest) => some (tagString (a :: text), rest)
  | _ => none

/-- Splits off the word after an exclamation mark, and a second exclamation mark if there is one;
`true` says that there is. -/
def tagHandle (c : Cursor) : List Char × Bool × Cursor :=
  let (word, c) := (c.drop 1).span isWordChar
  if c.rest.head? = some '!' then (word, true, c.drop 1) else (word, false, c)

/-- The handle with a word between two exclamation marks. -/
def namedHandle (word : List Char) : String := "!" ++ String.ofList word ++ "!"

/-- Reads a tag that is not in angle brackets. An exclamation mark alone is a tag of its own. -/
def shortTag? (c : Cursor) : Option (Tag × Cursor) := do
  match tagHandle c with
  | (word, true, c) =>
    let (suffix, c) ← someTagText? false c
    return (⟨namedHandle word, suffix⟩, c)
  | (word, false, c) =>
    let (text, c) ← tagText? false 0 c.rest c.place
    let suffix := tagString (word ++ text)
    return (if suffix.isEmpty then ⟨"", "!"⟩ else ⟨"!", suffix⟩, c)

/-- Reads a tag in angle brackets. -/
def verbatimTag? (c : Cursor) : Option (Tag × Cursor) := do
  let (suffix, c) ← someTagText? true (c.drop 2)
  if c.rest.head? = some '>' then return (⟨"", suffix⟩, c.drop 1) else none

/-- Reads a tag, at its exclamation mark. -/
def tag? (inFlow : Bool) (c : Cursor) : Option (Tag × Cursor) := do
  let (tag, c) ← if c.rest[1]? = some '<' then verbatimTag? c else shortTag? c
  if endsWord c.rest || (inFlow && c.rest.head? == some ',') then return (tag, c) else none

/-! ## Directives -/

/-- A line before a document. -/
inductive Directive where
  /-- The version of YAML, one that can be read. -/
  | version
  /-- The text that a tag handle stands for. -/
  | handle (handle : String) (expansion : String)
deriving DecidableEq, Repr

/-- Reads a part of a version: at most nine digits. -/
def versionPart? (c : Cursor) : Option (Nat × Cursor) :=
  let (digits, c) := c.span Char.isDigit
  if digits.isEmpty || 9 < digits.length then none else some (Number.numberOfDigits digits, c)

/-- Reads the version, which is 1.1 or 1.2. -/
def version? (c : Cursor) : Option (Directive × Cursor) := do
  let (major, c) ← versionPart? (c.span isWhite).2
  if c.rest.head? = some '.' then
    let (minor, c) ← versionPart? (c.drop 1)
    if major = 1 ∧ (minor = 1 ∨ minor = 2) then return (.version, c) else none
  else none

/-- Reads a handle and what it stands for. -/
def handleDirective? (c : Cursor) : Option (Directive × Cursor) := do
  let c := (c.span isWhite).2
  if c.rest.head? ≠ some '!' then none
  let (handle, c) ← match tagHandle c with
    | ([], false, c) => some ("!", c)
    | (word, true, c) => some (namedHandle word, c)
    | _ => none
  if !c.rest.head?.any isWhite then none
  let (expansion, c) ← someTagText? true (c.span isWhite).2
  if endsWord c.rest then return (.handle handle expansion, c) else none

/-- Reads the line of a directive, at its percent sign. -/
def directive? (c : Cursor) : Option (Directive × Cursor) := do
  let (name, c) := (c.drop 1).span isWordChar
  if !endsWord c.rest then none
  let (directive, c) ←
    if name = "YAML".toList then version? c
    else if name = "TAG".toList then handleDirective? c
    else none
  return (directive, ← c.endLine?)

end TimedMachine.Yaml
