/-!
# Quoted strings

`encode` writes a string with the fewest escapes: the quote, the backslash and the characters
below U+0020. `decode` reads what stands between two quotes and undoes every escape of JSON; where
it fails it says what is wrong and after how many bytes of the literal. `splitQuoted` finds the
closing quote first, with no regard to whether the escapes are valid.
-/

namespace TimedMachine.Json.Quoted

/-- A hexadecimal digit of a value below 16, small letters. -/
def hexDigit (n : Nat) : Char := Nat.digitChar n

/-- The value of a hexadecimal digit of either case. -/
def hexValue? (c : Char) : Option Nat :=
  if c.isDigit then some (c.toNat - '0'.toNat)
  else if 'a' ≤ c ∧ c ≤ 'f' then some (c.toNat - 'a'.toNat + 10)
  else if 'A' ≤ c ∧ c ≤ 'F' then some (c.toNat - 'A'.toNat + 10)
  else none

/-- The written form of one character. -/
def encodeChar (c : Char) : List Char :=
  match c with
  | '"' => ['\\', '"']
  | '\\' => ['\\', '\\']
  | '\n' => ['\\', 'n']
  | '\r' => ['\\', 'r']
  | '\t' => ['\\', 't']
  | '\x08' => ['\\', 'b']
  | '\x0c' => ['\\', 'f']
  | c =>
    if c.toNat < 0x20 then
      ['\\', 'u', '0', '0', hexDigit (c.toNat / 16), hexDigit (c.toNat % 16)]
    else [c]

/-- The literal that writes a string, quotes included. -/
def encode (cs : List Char) : List Char := '"' :: cs.flatMap encodeChar ++ ['"']

/-- What is wrong with a literal. -/
inductive Problem where
  | controlCharacter
  | invalidEscape
  | endInsideEscape
  | loneSurrogate
  | missingSurrogate
deriving DecidableEq, Repr

/-- The wording of a problem. -/
def Problem.text : Problem → String
  | .controlCharacter =>
    "control character (\\u0000-\\u001F) found while parsing a string"
  | .invalidEscape => "invalid escape"
  | .endInsideEscape => "EOF while parsing a string"
  | .loneSurrogate => "lone leading surrogate in hex escape"
  | .missingSurrogate => "unexpected end of hex escape"

/-- A problem and the number of bytes of the literal up to which it was read. -/
structure Fault where
  problem : Problem
  offset : Nat
deriving DecidableEq, Repr

/-- The number of bytes of a text in UTF-8. -/
def byteLength (cs : List Char) : Nat := cs.foldl (fun n c => n + c.utf8Size) 0

/-- Splits the characters after an opening quote at the closing quote, which is the first quote
that no backslash escapes. -/
def splitQuoted : List Char → Option (List Char × List Char)
  | [] => none
  | '"' :: rest => some ([], rest)
  | ['\\'] => none
  | '\\' :: c :: rest => (splitQuoted rest).map fun (body, rest) => ('\\' :: c :: body, rest)
  | c :: rest => (splitQuoted rest).map fun (body, rest) => (c :: body, rest)

/-- The value of the four hexadecimal digits in front of `cs`, of which `offset` bytes came
before. -/
def hexEscape (offset : Nat) (cs : List Char) : Except Fault Nat :=
  let digits := cs.take 4
  if byteLength digits < 4 then .error ⟨.endInsideEscape, offset + byteLength digits⟩
  else match digits.mapM hexValue? with
    | some values => .ok (values.foldl (fun n d => 16 * n + d) 0)
    | none => .error ⟨.invalidEscape, offset + 4⟩

/-- The character of an escape that is one letter. -/
def letterEscape? (c : Char) : Option Char :=
  match c with
  | '"' => some '"'
  | '\\' => some '\\'
  | '/' => some '/'
  | 'b' => some '\x08'
  | 'f' => some '\x0c'
  | 'n' => some '\n'
  | 'r' => some '\r'
  | 't' => some '\t'
  | _ => none

/-- Whether a 16-bit unit is the second half of a surrogate pair. -/
def isTrailing (n : Nat) : Bool := 0xDC00 ≤ n && n ≤ 0xDFFF

/-- Whether a 16-bit unit is the first half of a surrogate pair. -/
def isLeading (n : Nat) : Bool := 0xD800 ≤ n && n ≤ 0xDBFF

/-- The character of a unicode escape and the number of characters after the `u` that belong to
it: four digits, or two units of four digits with a second `\u` between them. -/
def unicodeEscape (offset : Nat) (cs : List Char) : Except Fault (Char × Nat) := do
  let unit ← hexEscape offset cs
  if isTrailing unit then throw ⟨.loneSurrogate, offset + 4⟩
  else if isLeading unit then
    if cs[4]? ≠ some '\\' then throw ⟨.missingSurrogate, offset + 5⟩
    else if cs[5]? ≠ some 'u' then throw ⟨.missingSurrogate, offset + 6⟩
    else
      let second ← hexEscape (offset + 6) (cs.drop 6)
      if isTrailing second then
        return (Char.ofNat (0x10000 + (unit - 0xD800) * 0x400 + (second - 0xDC00)), 10)
      else throw ⟨.loneSurrogate, offset + 10⟩
  else return (Char.ofNat unit, 4)

/-- The character of the escape after a backslash and the number of characters it takes up. -/
def escape (offset : Nat) : List Char → Except Fault (Char × Nat)
  | [] => .error ⟨.endInsideEscape, offset⟩
  | c :: rest =>
    match letterEscape? c with
    | some d => .ok (d, 1)
    | none =>
      if c = 'u' then (unicodeEscape (offset + 1) rest).map fun (d, n) => (d, n + 1)
      else .error ⟨.invalidEscape, offset + 1⟩

/-- Decodes the rest of a literal, its closing quote included; `offset` bytes came before it. -/
def decodeFrom (offset : Nat) : List Char → Except Fault (List Char)
  | [] => .ok []
  | c :: rest =>
    if c = '"' then .ok []
    else if c = '\\' then
      match escape (offset + 1) rest with
      | .error e => .error e
      | .ok (d, n) =>
        (decodeFrom (offset + 1 + byteLength (rest.take n)) (rest.drop n)).map (d :: ·)
    else if c.toNat < 0x20 then .error ⟨.controlCharacter, offset + 1⟩
    else (decodeFrom (offset + c.utf8Size) rest).map (c :: ·)
termination_by cs => cs.length
decreasing_by
  · rw [List.length_drop, List.length_cons]
    omega
  · exact Nat.lt_succ_self _

/-- Decodes what stands between the two quotes of a literal. -/
def decode (body : List Char) : Except Fault (List Char) := decodeFrom 1 (body ++ ['"'])

/-- The line and the column of an offset into a literal: lines count from 1, and the column is the
number of bytes since the last line feed. -/
def placeOf : List Char → Nat → Nat × Nat → Nat × Nat
  | [], _, place => place
  | c :: rest, offset, (line, column) =>
    if offset = 0 then (line, column)
    else if c = '\n' then placeOf rest (offset - 1) (line + 1, 0)
    else placeOf rest (offset - c.utf8Size) (line, column + min offset c.utf8Size)

/-- A fault in words, with its place in the literal that has `body` between its quotes. -/
def Fault.text (f : Fault) (body : List Char) : String :=
  let (line, column) := placeOf ('"' :: body ++ ['"']) f.offset (1, 0)
  f.problem.text ++ " at line " ++ toString line ++ " column " ++ toString column

end TimedMachine.Json.Quoted
