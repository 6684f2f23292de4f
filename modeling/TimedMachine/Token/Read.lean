import TimedMachine.Token.Basic
import TimedMachine.Token.Lexeme

/-!
# Reading documents

A document is read lexeme by lexeme. A `Reading` says what may come next and holds what has been
read: the containers that are still open, innermost first, each with its parts so far. `step` takes
one lexeme, so where and why a document is refused depends on the lexemes up to that place alone.

`read` refuses objects that repeat a key. `Json.parse?` reads plain JSON, where the last member
with a key counts.
-/

namespace TimedMachine

/-- What a document may hold. -/
structure ReadOptions where
  /-- Whether `//` and `/* */` comments are skipped like blanks. -/
  allowComments : Bool := true
  /-- How deep arrays and objects may nest. -/
  maxDepth : Nat := 128
deriving DecidableEq, Repr, Inhabited

/-- A container that is still open while one of its parts is read; parts come latest first. -/
inductive OpenContainer where
  | array (span : Span) (items : List Token)
  /-- An object that has `members` and waits for the value of `key`. -/
  | object (span : Span) (members : Members) (key : Key)

/-- What has been read of a document, and what may come next. Parts of containers come latest
first. -/
inductive Reading where
  | value (up : List OpenContainer)
  | firstItem (span : Span) (up : List OpenContainer)
  | afterItem (span : Span) (items : List Token) (up : List OpenContainer)
  | firstKey (span : Span) (up : List OpenContainer)
  | nextKey (span : Span) (members : Members) (up : List OpenContainer)
  | afterKey (span : Span) (members : Members) (key : Key) (up : List OpenContainer)
  | afterMember (span : Span) (members : Members) (up : List OpenContainer)
  | done (t : Token)

namespace Reading

/-- Limits on documents: the depth of nesting, and whether keys must differ in each object. -/
structure Limits where
  maxDepth : Nat
  distinctKeys : Bool
deriving DecidableEq, Repr

/-- A token at a place of the text; it gets its path when the document is complete. -/
def siteAt (span : Span) : Site := { span := some span }

/-- A scalar as a token. -/
def scalarToken (span : Span) : Scalar → Token
  | .null => .null (siteAt span)
  | .bool b => .bool (siteAt span) b
  | .number x => .number (siteAt span) x

/-- Takes in a value that is complete. -/
def receive (t : Token) : List OpenContainer → Reading
  | [] => .done t
  | .array span items :: up => .afterItem span (t :: items) up
  | .object span members key :: up => .afterMember span ((key, t) :: members) up

/-- Ends an array whose items are `items`, latest first. -/
def closeArray (span : Span) (items : List Token) (up : List OpenContainer) : Reading :=
  receive (.array (siteAt span) items.reverse) up

/-- Ends an object whose members are `members`, latest first. -/
def closeObject (span : Span) (members : Members) (up : List OpenContainer) : Reading :=
  receive (.object (siteAt span) members.reverse) up

/-- The fault of a lexeme in a place where only `expected` could stand. -/
def unexpected (l : Lexeme) (expected : Expected) : ReadError :=
  .unexpectedChar l.span l.first expected

/-- Opens a container inside of `up`, unless that nests too deep. -/
def enter (limits : Limits) (l : Lexeme) (up : List OpenContainer) (r : Reading) :
    Except ReadError Reading :=
  if limits.maxDepth ≤ up.length then .error (.depthLimitExceeded l.span limits.maxDepth)
  else .ok r

/-- Begins a value. -/
def beginValue (limits : Limits) (l : Lexeme) (up : List OpenContainer) :
    Except ReadError Reading :=
  match l.form with
  | .openObject => enter limits l up (.firstKey l.span up)
  | .openArray => enter limits l up (.firstItem l.span up)
  | .string s? => s?.map fun s => receive (.string (siteAt l.span) s) up
  | .scalar v? => v?.map fun v => receive (scalarToken l.span v) up
  | _ => .error (unexpected l .value)

/-- Begins a member of an object that has `members`. -/
def beginMember (limits : Limits) (l : Lexeme) (span : Span) (members : Members)
    (up : List OpenContainer) : Except ReadError Reading :=
  match l.form with
  | .string key? => do
    let key ← key?
    if limits.distinctKeys ∧ members.any (·.1.name == key) then
      throw (.duplicateKey l.span key)
    return .afterKey span members ⟨key, some l.span⟩ up
  | _ => .error (unexpected l .key)

/-- Takes in one lexeme. -/
def step (limits : Limits) (l : Lexeme) : Reading → Except ReadError Reading
  | .value up => beginValue limits l up
  | .firstItem span up =>
    match l.form with
    | .closeArray => .ok (closeArray span [] up)
    | _ => beginValue limits l (.array span [] :: up)
  | .afterItem span items up =>
    match l.form with
    | .comma => .ok (.value (.array span items :: up))
    | .closeArray => .ok (closeArray span items up)
    | _ => .error (unexpected l .itemEnd)
  | .firstKey span up =>
    match l.form with
    | .closeObject => .ok (closeObject span [] up)
    | _ => beginMember limits l span [] up
  | .nextKey span members up => beginMember limits l span members up
  | .afterKey span members key up =>
    match l.form with
    | .colon => .ok (.value (.object span members key :: up))
    | _ => .error (unexpected l .colon)
  | .afterMember span members up =>
    match l.form with
    | .comma => .ok (.nextKey span members up)
    | .closeObject => .ok (closeObject span members up)
    | _ => .error (unexpected l .memberEnd)
  | .done _ => .error (.trailingCharacters l.span)

/-- Takes in lexemes until they end or one is refused. -/
def run (limits : Limits) : List Lexeme → Reading → Except ReadError Reading
  | [], r => .ok r
  | l :: ls, r => (r.step limits l).bind (run limits ls)

/-- The document at the end of the text; it must be complete there. -/
def finish (stop : TextEnd) (r : Reading) : Except ReadError Token :=
  match stop, r with
  | .fault e, _ => .error e
  | .eof _, .done t => .ok t
  | .eof s, _ => .error (.unexpectedEof s)

/-- Reads a text as a token tree without paths. -/
def document (limits : Limits) (comments : Bool) (text : String) : Except ReadError Token :=
  let (lexemes, stop) := Lexeme.scan comments .start text.toList
  (run limits lexemes (.value [])).bind (finish stop)

end Reading

/-- Reads a text as a token tree. -/
def Token.read (o : ReadOptions) (text : String) : Except ReadError Token :=
  (Reading.document ⟨o.maxDepth, true⟩ o.allowComments text).map (·.placed "")

/-- Reads plain JSON; `none` if the text is none. -/
def Json.parse? (text : String) : Option Json :=
  match Reading.document ⟨text.length, false⟩ false text with
  | .ok t => some t.toJson
  | .error _ => none

end TimedMachine
