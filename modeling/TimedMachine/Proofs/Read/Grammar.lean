import TimedMachine.Json.Basic
import TimedMachine.Token.Lexeme

/-!
# The grammar of texts

Which texts are documents, and which value a text denotes, said without a reader: a document is a
value with trivia before and after it, and a value is JSON with trivia around every mark.

The conversion of a literal is given: a string literal means what `Json.Quoted.decode` makes of its
body, and a number literal what `Number.Literal.toFloat?` makes of its parts. Which characters are
a literal at all is said here.

`IsValue n` counts the nesting: a value of depth `n` has at most `n` containers inside one another.
-/

namespace TimedMachine.Grammar

/-! ## Trivia -/

/-- A row of blanks and comments. Where the text ends after it, its last line comment needs no line
feed. -/
inductive IsTrivia (comments atEnd : Bool) : List Char → Prop
  | nil : IsTrivia comments atEnd []
  | blank {c : Char} {cs : List Char} (hc : c ∈ [' ', '\t', '\n', '\r']) :
      IsTrivia comments atEnd cs → IsTrivia comments atEnd (c :: cs)
  | line {body cs : List Char} (hcomments : comments) (hbody : '\n' ∉ body) :
      IsTrivia comments atEnd cs → IsTrivia comments atEnd ('/' :: '/' :: body ++ '\n' :: cs)
  | lastLine {body : List Char} (hcomments : comments) (hend : atEnd) (hbody : '\n' ∉ body) :
      IsTrivia comments atEnd ('/' :: '/' :: body)
  | block {body cs : List Char} (hcomments : comments) (hbody : ¬['*', '/'] <:+: body) :
      IsTrivia comments atEnd cs →
      IsTrivia comments atEnd ('/' :: '*' :: body ++ '*' :: '/' :: cs)

/-! ## Literals -/

/-- The text between the quotes of a string literal: a quote or a backslash in it follows a
backslash. -/
inductive IsStringBody : List Char → Prop
  | nil : IsStringBody []
  | plain {c : Char} {cs : List Char} (hquote : c ≠ '"') (hbackslash : c ≠ '\\') :
      IsStringBody cs → IsStringBody (c :: cs)
  | escaped {c : Char} {cs : List Char} : IsStringBody cs → IsStringBody ('\\' :: c :: cs)

/-- A string literal and the string that it decodes to. -/
def IsString (cs : List Char) (s : String) : Prop :=
  ∃ body, cs = '"' :: body ++ ['"'] ∧ IsStringBody body ∧ Json.Quoted.decode body = .ok s.toList

/-- Decimal digits, at least one. -/
def IsDigits (ds : List Char) : Prop := ds ≠ [] ∧ ∀ c ∈ ds, c.isDigit

/-- The whole part of a number: only a zero that stands alone comes first. -/
def IsWhole (ds : List Char) : Prop := IsDigits ds ∧ (ds.head? = some '0' → ds = ['0'])

/-- The fraction of a number, if it has one, and its digits. -/
inductive IsFraction : List Char → Option (List Char) → Prop
  | none : IsFraction [] none
  | some {ds : List Char} (hds : IsDigits ds) : IsFraction ('.' :: ds) (some ds)

/-- The exponent of a number, if it has one: whether it is below zero, and its digits. -/
inductive IsExponent : List Char → Option (Bool × List Char) → Prop
  | none : IsExponent [] none
  | unsigned {e : Char} {ds : List Char} (he : e = 'e' ∨ e = 'E') (hds : IsDigits ds) :
      IsExponent (e :: ds) (some (false, ds))
  | plus {e : Char} {ds : List Char} (he : e = 'e' ∨ e = 'E') (hds : IsDigits ds) :
      IsExponent (e :: '+' :: ds) (some (false, ds))
  | minus {e : Char} {ds : List Char} (he : e = 'e' ∨ e = 'E') (hds : IsDigits ds) :
      IsExponent (e :: '-' :: ds) (some (true, ds))

/-- The sign of a number. -/
inductive IsSign : List Char → Bool → Prop
  | none : IsSign [] false
  | minus : IsSign ['-'] true

/-- A number literal and its parts. -/
structure IsNumber (cs : List Char) (l : Number.Literal) : Prop where
  spelled : ∃ sign fraction exponent : List Char,
    cs = sign ++ l.whole ++ fraction ++ exponent ∧
      IsSign sign l.negative ∧ IsFraction fraction l.fraction ∧ IsExponent exponent l.exponent
  whole : IsWhole l.whole

/-- A literal other than a string and its value. -/
inductive IsScalar : List Char → Scalar → Prop
  | null : IsScalar ['n', 'u', 'l', 'l'] .null
  | true : IsScalar ['t', 'r', 'u', 'e'] (.bool true)
  | false : IsScalar ['f', 'a', 'l', 's', 'e'] (.bool false)
  | number {cs : List Char} {l : Number.Literal} {x : Float} (hl : IsNumber cs l)
      (hx : l.toFloat? = some x) : IsScalar cs (.number x)

/-! ## Values -/

/-- A scalar as a JSON value. -/
def ofScalar : Scalar → Json
  | .null => .null
  | .bool b => .bool b
  | .number x => .number x

mutual

/-- A value of depth at most `n` and what it denotes. -/
inductive IsValue (comments : Bool) : Nat → List Char → Json → Prop
  | scalar {n : Nat} {cs : List Char} {x : Scalar} (h : IsScalar cs x) :
      IsValue comments n cs (ofScalar x)
  | string {n : Nat} {cs : List Char} {s : String} (h : IsString cs s) :
      IsValue comments n cs (.string s)
  | emptyArray {n : Nat} {cs : List Char} (h : IsTrivia comments false cs) :
      IsValue comments (n + 1) ('[' :: cs ++ [']']) (.array [])
  | array {n : Nat} {cs : List Char} {vs : List Json} (h : IsItems comments n cs vs) :
      IsValue comments (n + 1) ('[' :: cs ++ [']']) (.array vs)
  | emptyObject {n : Nat} {cs : List Char} (h : IsTrivia comments false cs) :
      IsValue comments (n + 1) ('\x7b' :: cs ++ ['\x7d']) (.object [])
  | object {n : Nat} {cs : List Char} {ms : List (String × Json)}
      (h : IsMembers comments n cs ms) (hkeys : (ms.map (·.1)).Nodup) :
      IsValue comments (n + 1) ('\x7b' :: cs ++ ['\x7d']) (.object ms)

/-- The items of an array, at least one, with commas between them. -/
inductive IsItems (comments : Bool) : Nat → List Char → List Json → Prop
  | last {n : Nat} {before cs after : List Char} {v : Json}
      (hbefore : IsTrivia comments false before) (hv : IsValue comments n cs v)
      (hafter : IsTrivia comments false after) :
      IsItems comments n (before ++ cs ++ after) [v]
  | more {n : Nat} {before cs after rest : List Char} {v : Json} {vs : List Json}
      (hbefore : IsTrivia comments false before) (hv : IsValue comments n cs v)
      (hafter : IsTrivia comments false after) (hrest : IsItems comments n rest vs) :
      IsItems comments n (before ++ cs ++ after ++ ',' :: rest) (v :: vs)

/-- The members of an object, at least one, with commas between them. -/
inductive IsMembers (comments : Bool) : Nat → List Char → List (String × Json) → Prop
  | last {n : Nat} {cs : List Char} {m : String × Json} (hm : IsMember comments n cs m) :
      IsMembers comments n cs [m]
  | more {n : Nat} {cs rest : List Char} {m : String × Json} {ms : List (String × Json)}
      (hm : IsMember comments n cs m) (hrest : IsMembers comments n rest ms) :
      IsMembers comments n (cs ++ ',' :: rest) (m :: ms)

/-- A member of an object: its key, a colon and its value, with trivia around each. -/
inductive IsMember (comments : Bool) : Nat → List Char → String × Json → Prop
  | mk {n : Nat} {before key between afterColon cs after : List Char} {k : String} {v : Json}
      (hbefore : IsTrivia comments false before) (hkey : IsString key k)
      (hbetween : IsTrivia comments false between)
      (hafterColon : IsTrivia comments false afterColon) (hv : IsValue comments n cs v)
      (hafter : IsTrivia comments false after) :
      IsMember comments n (before ++ key ++ between ++ ':' :: afterColon ++ cs ++ after) (k, v)

end

/-- A document of depth at most `n` and the value that it denotes. -/
inductive IsDocument (comments : Bool) (n : Nat) : List Char → Json → Prop
  | mk {before cs after : List Char} {v : Json} (hbefore : IsTrivia comments false before)
      (hv : IsValue comments n cs v) (hafter : IsTrivia comments true after) :
      IsDocument comments n (before ++ cs ++ after) v

end TimedMachine.Grammar
