import TimedMachine.Number.Literal
import TimedMachine.Text.Alphanumeric
import TimedMachine.Token.ReadError

/-!
# Lexemes

A source text is a row of lexemes with trivia before, between and after them. Trivia are the four
JSON blanks and, where they are allowed, `//` comments up to the end of the line and `/* */`
comments up to the first `*/`. A lexeme is a punctuation mark, a string, a number or a word; any
other character is a lexeme of its own that no document has.

Scanning never stops at a lexeme that is no good, because only its reader can tell whether a value
was wanted there at all; the lexeme keeps the fault. It does stop at a comment that is none, which
is a fault wherever it stands.
-/

namespace TimedMachine

/-- A value without parts, other than a string. -/
inductive Scalar where
  | null
  | bool (b : Bool)
  | number (x : Float)
deriving DecidableEq

/-- What a lexeme is. Literals hold the value that they write or the fault that they have. -/
inductive Lexeme.Form where
  | openObject
  | closeObject
  | openArray
  | closeArray
  | colon
  | comma
  | string (value : Except ReadError String)
  | scalar (value : Except ReadError Scalar)
  | junk

/-- A piece of text that belongs together: its place, its first character and what it is. -/
structure Lexeme where
  span : Span
  first : Char
  form : Lexeme.Form

/-- How a text ends: with its last character, or with a comment that is none. -/
inductive TextEnd where
  | eof (span : Span)
  | fault (e : ReadError)

namespace Lexeme

/-! ## Trivia -/

/-- The blanks of JSON. -/
def isJsonBlank (c : Char) : Bool := c == ' ' || c == '\t' || c == '\n' || c == '\r'

/-- Where a scan of trivia stands: between trivia, after the first slash of a comment, in a line
comment, in a block comment, or in a block comment after a star. -/
inductive Trivia where
  | between
  | slash
  | line
  | block
  | star
deriving DecidableEq, Repr

/-- Skips trivia. The result is what is left of the text and the place where it starts. -/
def skipTrivia (comments : Bool) : Trivia → Span → List Char → Except ReadError (Span × List Char)
  | .between, s, [] | .line, s, [] => .ok (s, [])
  | .slash, s, [] | .block, s, [] | .star, s, [] => .error (.unexpectedEof s)
  | .between, s, c :: cs =>
    if isJsonBlank c then skipTrivia comments .between (s.next c) cs
    else if c = '/' ∧ comments then skipTrivia comments .slash (s.next c) cs
    else .ok (s, c :: cs)
  | .slash, s, c :: cs =>
    if c = '/' then skipTrivia comments .line (s.next c) cs
    else if c = '*' then skipTrivia comments .block (s.next c) cs
    else .error (.unexpectedChar s c .commentMark)
  | .line, s, c :: cs =>
    skipTrivia comments (if c = '\n' then .between else .line) (s.next c) cs
  | .block, s, c :: cs =>
    skipTrivia comments (if c = '*' then .star else .block) (s.next c) cs
  | .star, s, c :: cs =>
    skipTrivia comments (if c = '/' then .between else if c = '*' then .star else .block)
      (s.next c) cs

/-- Skipping trivia never adds text. -/
theorem length_skipTrivia_le {comments : Bool} {m : Trivia} {s : Span} {cs : List Char}
    {s' : Span} {rest : List Char} (h : skipTrivia comments m s cs = .ok (s', rest)) :
    rest.length ≤ cs.length := by
  induction cs generalizing m s with
  | nil => cases m <;> simp_all [skipTrivia]
  | cons c cs ih =>
    have step {m s} (h : skipTrivia comments m s cs = .ok (s', rest)) :
        rest.length ≤ (c :: cs).length := Nat.le_succ_of_le (ih h)
    cases m with
    | between =>
      rw [skipTrivia] at h
      split at h
      · exact step h
      · split at h
        · exact step h
        · cases h
          exact Nat.le_refl _
    | slash =>
      rw [skipTrivia] at h
      split at h
      · exact step h
      · split at h
        · exact step h
        · cases h
    | line => exact step (by rwa [skipTrivia] at h)
    | block => exact step (by rwa [skipTrivia] at h)
    | star => exact step (by rwa [skipTrivia] at h)

/-! ## Lexemes -/

/-- The characters that a number literal can have. -/
def isNumberChar (c : Char) : Bool :=
  c.isDigit || c == '-' || c == '+' || c == '.' || c == 'e' || c == 'E'

/-- The literal that begins at `s` and has `body` between its quotes. -/
def stringForm (s : Span) (body : List Char) : Form :=
  match Json.Quoted.decode body with
  | .ok cs => .string (.ok (String.ofList cs))
  | .error fault => .string (.error (.invalidString s body fault))

/-- The number literal `cs` that begins at `s`. -/
def numberForm (s : Span) (cs : List Char) : Form :=
  match (Number.Literal.ofChars? cs).bind Number.Literal.toFloat? with
  | some x => .scalar (.ok (.number x))
  | none => .scalar (.error (.invalidNumber s (String.ofList cs)))

/-- The word `cs` that begins at `s`. -/
def wordForm (s : Span) (cs : List Char) : Form :=
  if cs = ['t', 'r', 'u', 'e'] then .scalar (.ok (.bool true))
  else if cs = ['f', 'a', 'l', 's', 'e'] then .scalar (.ok (.bool false))
  else if cs = ['n', 'u', 'l', 'l'] then .scalar (.ok .null)
  else .scalar (.error (.invalidLiteral s))

/-- A mark or junk: what a character is that begins no literal. -/
def markForm (c : Char) : Form :=
  match c with
  | '\x7b' => .openObject
  | '\x7d' => .closeObject
  | '[' => .openArray
  | ']' => .closeArray
  | ':' => .colon
  | ',' => .comma
  | _ => .junk

/-- A lexeme cut off a text: what it is, its characters after the first, and the text after it. -/
structure Cut where
  form : Form
  taken : List Char
  rest : List Char

/-- Cuts off the lexeme that begins at `s` with the character `c`, which `cs` follows. -/
def cut (s : Span) (c : Char) (cs : List Char) : Cut :=
  if c = '"' then
    match Json.Quoted.splitQuoted cs with
    | some (body, rest) => ⟨stringForm s body, body ++ ['"'], rest⟩
    | none => ⟨.string (.error (.unexpectedEof (s.after (c :: cs)))), cs, []⟩
  else if c = '-' ∨ c.isDigit then
    let taken := cs.takeWhile isNumberChar
    ⟨numberForm s (c :: taken), taken, cs.dropWhile isNumberChar⟩
  else if c = 't' ∨ c = 'f' ∨ c = 'n' then
    let taken := cs.takeWhile isNameChar
    ⟨wordForm s (c :: taken), taken, cs.dropWhile isNameChar⟩
  else ⟨markForm c, [], cs⟩

/-- The text after the closing quote, and what stands before it, make up the whole. -/
theorem append_of_splitQuoted {cs body rest : List Char}
    (h : Json.Quoted.splitQuoted cs = some (body, rest)) : cs = body ++ '"' :: rest := by
  fun_induction Json.Quoted.splitQuoted cs generalizing body rest with
  | case1 => cases h
  | case2 => simp_all
  | case3 => cases h
  | case4 c cs ih =>
    obtain ⟨⟨b, r⟩, hb, h⟩ := Option.map_eq_some_iff.1 h
    cases h
    simp [ih hb]
  | case5 c cs _ _ _ ih =>
    obtain ⟨⟨b, r⟩, hb, h⟩ := Option.map_eq_some_iff.1 h
    cases h
    simp [ih hb]

/-- A lexeme and the text after it make up the text from its beginning on. -/
theorem taken_append_rest (s : Span) (c : Char) (cs : List Char) :
    (cut s c cs).taken ++ (cut s c cs).rest = cs := by
  unfold cut
  split
  · split
    · next h => simp [append_of_splitQuoted h]
    · simp
  · split
    · simp
    · split <;> simp

/-- A lexeme never adds text. -/
theorem length_rest_le (s : Span) (c : Char) (cs : List Char) :
    (cut s c cs).rest.length ≤ cs.length := by
  have h := congrArg List.length (taken_append_rest s c cs)
  rw [List.length_append] at h
  omega

/-- The lexemes of a text that begins at `s`, and how it ends. -/
def scan (comments : Bool) (s : Span) (cs : List Char) : List Lexeme × TextEnd :=
  match _h : skipTrivia comments .between s cs with
  | .error e => ([], .fault e)
  | .ok (s, []) => ([], .eof s)
  | .ok (s, c :: cs) =>
    let lexeme := cut s c cs
    let (lexemes, stop) := scan comments (s.after (c :: lexeme.taken)) lexeme.rest
    (⟨s, c, lexeme.form⟩ :: lexemes, stop)
termination_by cs.length
decreasing_by exact Nat.lt_of_le_of_lt (length_rest_le s c _) (length_skipTrivia_le _h)

end Lexeme

end TimedMachine
