import TimedMachine.Json.Quoted
import TimedMachine.Number.Style

/-!
# JSON values

A JSON value whose objects keep the order of their members. `Json.text` writes it without any
blanks; numbers are written in `Style.document`, and a number that JSON has no literal for is
written `null`.
-/

namespace TimedMachine

/-- A JSON value; objects are lists of members in order. -/
inductive Json where
  | null
  | bool (b : Bool)
  | number (x : Float)
  | string (s : String)
  | array (items : List Json)
  | object (members : List (String × Json))
deriving Inhabited

namespace Json

/-- The literal of a string. -/
def quote (s : String) : List Char := Quoted.encode s.toList

/-- The literal of a number. -/
def numeral (x : Float) : List Char :=
  if x.isFinite then Number.Style.document.chars x else ['n', 'u', 'l', 'l']

mutual

/-- The characters of a value, without blanks. -/
def chars : Json → List Char
  | .null => ['n', 'u', 'l', 'l']
  | .bool true => ['t', 'r', 'u', 'e']
  | .bool false => ['f', 'a', 'l', 's', 'e']
  | .number x => numeral x
  | .string s => quote s
  | .array items => '[' :: itemChars items ++ [']']
  | .object members => '\x7b' :: memberChars members ++ ['\x7d']

/-- The items of an array with commas between them. -/
def itemChars : List Json → List Char
  | [] => []
  | [v] => v.chars
  | v :: w :: rest => v.chars ++ ',' :: itemChars (w :: rest)

/-- The members of an object with commas between them. -/
def memberChars : List (String × Json) → List Char
  | [] => []
  | [(k, v)] => quote k ++ ':' :: v.chars
  | (k, v) :: m :: rest => quote k ++ ':' :: v.chars ++ ',' :: memberChars (m :: rest)

end

/-- The text of a value, without blanks. -/
def text (v : Json) : String := String.ofList v.chars

/-- Sets a member: a key that is there keeps its place and gets the new value, any other goes to
the end. -/
def setMember (key : String) (value : Json) : List (String × Json) → List (String × Json)
  | [] => [(key, value)]
  | (k, v) :: rest =>
    if k = key then (k, value) :: rest else (k, v) :: setMember key value rest

/-- The members that come about by setting each of `members` in turn. -/
def mergeMembers (members : List (String × Json)) : List (String × Json) :=
  members.foldl (fun done (k, v) => setMember k v done) []

end Json

end TimedMachine
