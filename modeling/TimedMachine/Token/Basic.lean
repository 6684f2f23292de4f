import TimedMachine.Json.Basic
import TimedMachine.Text.Span
import TimedMachine.Token.Path

/-!
# Token trees

A token tree is an untyped document of which every part knows its path and, when it was read from
a text, the place where it starts there. Objects keep their members in order and may repeat a key;
a look-up then finds the first.

`Token.placed` gives every token of a tree the path of the route that leads to it. Both readers of
documents use it: `Token.ofJson` here and the reader of texts.
-/

namespace TimedMachine

/-- Where a token stands: its path and, for a token read from a text, its place there. -/
structure Site where
  path : String := ""
  span : Option Span := none
deriving DecidableEq, Repr, Inhabited

/-- The key of an object's member and its place in the text. -/
structure Key where
  name : String
  span : Option Span := none
deriving DecidableEq, Repr, Inhabited

/-- A part of a document. -/
inductive Token where
  | null (site : Site)
  | bool (site : Site) (b : Bool)
  | number (site : Site) (x : Float)
  | string (site : Site) (s : String)
  | array (site : Site) (items : List Token)
  | object (site : Site) (members : List (Key × Token))
deriving Inhabited

/-- The members of an object, in order. -/
abbrev Members := List (Key × Token)

namespace Token

/-- The type of a token. -/
inductive Kind where
  | null
  | boolean
  | number
  | string
  | array
  | object
deriving DecidableEq, Repr

/-- The name of a type in messages. -/
def Kind.text : Kind → String
  | .null => "Null"
  | .boolean => "Boolean"
  | .number => "Number"
  | .string => "String"
  | .array => "Array"
  | .object => "Object"

/-- The type of a token. -/
def kind : Token → Kind
  | .null _ => .null
  | .bool _ _ => .boolean
  | .number _ _ => .number
  | .string _ _ => .string
  | .array _ _ => .array
  | .object _ _ => .object

/-- Where a token stands. -/
def site : Token → Site
  | .null s | .bool s _ | .number s _ | .string s _ | .array s _ | .object s _ => s

/-- The path of a token. -/
def path (t : Token) : String := t.site.path

/-- The place of a token in its text. -/
def span (t : Token) : Option Span := t.site.span

/-- Whether a token is `null`. -/
def isNull : Token → Bool
  | .null _ => true
  | _ => false

/-- The value of a Boolean. -/
def bool? : Token → Option Bool
  | .bool _ b => some b
  | _ => none

/-- The value of a number. -/
def number? : Token → Option Float
  | .number _ x => some x
  | _ => none

/-- The value of a string. -/
def string? : Token → Option String
  | .string _ s => some s
  | _ => none

/-- The items of an array. -/
def items? : Token → Option (List Token)
  | .array _ ts => some ts
  | _ => none

/-- The members of an object. -/
def members? : Token → Option Members
  | .object _ ms => some ms
  | _ => none

end Token

/-- The value of the first member with a key. -/
def Members.get? (ms : Members) (key : String) : Option Token :=
  (ms.find? fun m => m.1.name == key).map (·.2)

namespace Token

/-- The member of an object with a key. -/
def get? (t : Token) (key : String) : Option Token := t.members?.bind (·.get? key)

/-- The token one step below another. -/
def child? (t : Token) : Step → Option Token
  | .key name => t.get? name
  | .index i => t.items?.bind (·[i]?)

/-- The token at the end of a route. -/
def follow? (t : Token) : List Step → Option Token
  | [] => some t
  | s :: route => (t.child? s).bind (·.follow? route)

mutual

/-- Gives a tree the path `path` and each token in it the path that its route leads to. -/
def placed (path : String) : Token → Token
  | .null s => .null { s with path }
  | .bool s b => .bool { s with path } b
  | .number s x => .number { s with path } x
  | .string s v => .string { s with path } v
  | .array s items => .array { s with path } (placedItems path 0 items)
  | .object s members => .object { s with path } (placedMembers path members)

/-- Places the items of the array at `path`, the first of which has the index `i`. -/
def placedItems (path : String) (i : Nat) : List Token → List Token
  | [] => []
  | t :: ts => t.placed (Path.index path i) :: placedItems path (i + 1) ts

/-- Places the members of the object at `path`. -/
def placedMembers (path : String) : Members → Members
  | [] => []
  | (k, t) :: ms => (k, t.placed (Path.child path k.name)) :: placedMembers path ms

end

mutual

/-- A JSON value as a token tree that knows neither paths nor places. -/
def bareOfJson : Json → Token
  | .null => .null {}
  | .bool b => .bool {} b
  | .number x => .number {} x
  | .string s => .string {} s
  | .array items => .array {} (bareItems items)
  | .object members => .object {} (bareMembers members)

/-- The items of a JSON array as tokens. -/
def bareItems : List Json → List Token
  | [] => []
  | v :: vs => bareOfJson v :: bareItems vs

/-- The members of a JSON object as tokens. -/
def bareMembers : List (String × Json) → Members
  | [] => []
  | (k, v) :: ms => ({ name := k }, bareOfJson v) :: bareMembers ms

end

/-- A JSON value as a token tree; its tokens have paths but no places. -/
def ofJson (v : Json) : Token := (bareOfJson v).placed ""

mutual

/-- The value of a token tree. Of a repeated key the first place and the last value count. -/
def toJson : Token → Json
  | .null _ => .null
  | .bool _ b => .bool b
  | .number _ x => .number x
  | .string _ s => .string s
  | .array _ items => .array (itemsToJson items)
  | .object _ members => .object (Json.mergeMembers (membersToJson members))

/-- The values of an array's items. -/
def itemsToJson : List Token → List Json
  | [] => []
  | t :: ts => t.toJson :: itemsToJson ts

/-- The keys and values of an object's members, one per member. -/
def membersToJson : Members → List (String × Json)
  | [] => []
  | (k, t) :: ms => (k.name, t.toJson) :: membersToJson ms

end

end Token

end TimedMachine
