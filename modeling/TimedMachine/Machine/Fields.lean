import TimedMachine.Machine.LoadError

/-!
# Reading the members of objects

Every object of a specification is read by taking the members that it may have, one by one, and by
refusing the object if it has a member with any other key. A key that is repeated counts where it
stands first.
-/

namespace TimedMachine

/-- The outcome of reading a part of a specification. -/
abbrev Loaded (α : Type) := Except LoadError α

namespace Token

/-- Reports that a token has another type than expected. -/
def unexpectedType (t : Token) (name expected : String) : LoadError :=
  (LoadFault.unexpectedType name expected t.kind).at t

/-- The string that a token must be. -/
def asString (t : Token) (name : String) : Loaded String :=
  match t with
  | .string _ s => .ok s
  | _ => .error (t.unexpectedType name "String")

/-- The members of the object that a token must be. -/
def asMembers (t : Token) (name : String) : Loaded Members :=
  match t with
  | .object _ ms => .ok ms
  | _ => .error (t.unexpectedType name "Object")

/-- The items of the array that a token must be. -/
def asItems (t : Token) (name : String) : Loaded (List Token) :=
  match t with
  | .array _ ts => .ok ts
  | _ => .error (t.unexpectedType name "Array")

/-- The Boolean that a token must be. -/
def asBool (t : Token) (name : String) : Loaded Bool :=
  match t with
  | .bool _ b => .ok b
  | _ => .error (t.unexpectedType name "Boolean")

/-- The number that a token must be. -/
def asNumber (t : Token) (name : String) : Loaded Float :=
  match t with
  | .number _ x => .ok x
  | _ => .error (t.unexpectedType name "Number")

end Token

namespace Members

/-- The value of a member, if it is there, as `read` makes it out. -/
def optional {α : Type} (ms : Members) (key : String) (read : Token → Loaded α) :
    Loaded (Option α) :=
  match ms.get? key with
  | some t => (read t).map some
  | none => .ok none

/-- The value of a member, if it is there and not `null`. -/
def optionalOrNull {α : Type} (ms : Members) (key : String) (read : Token → Loaded α) :
    Loaded (Option α) :=
  ms.optional key (fun t => if t.isNull then .ok none else (read t).map some)
    |>.map Option.join

/-- A member that must be there in the object `t`. -/
def required (ms : Members) (t : Token) (key : String) : Loaded Token :=
  match ms.get? key with
  | some v => .ok v
  | none => .error ((LoadFault.missingField key).at t)

/-- A member that must be there and be an object; its members. -/
def requiredObject (ms : Members) (t : Token) (key : String) : Loaded Members := do
  (← ms.required t key).asMembers key

/-- A member that must be there and be a string. -/
def requiredString (ms : Members) (t : Token) (key : String) : Loaded (String × Token) := do
  let v ← ms.required t key
  if v.isNull then throw ((LoadFault.nullField key).at v)
  return (← v.asString key, v)

/-- Refuses the first member whose key is not among `known`. -/
def onlyKnown (ms : Members) (known : List String) : Loaded Unit :=
  match ms.find? fun m => !known.contains m.1.name with
  | some (key, v) => .error ((LoadFault.unusedField key.name).atKey key v)
  | none => .ok ()

end Members

/-- Reads the items of a list in order, none of which may have the name of an earlier one. An item
is read in two parts: `check` finds its name, and `read` makes out the rest of it once the name is
known to be new. -/
def readDistinct {α β γ ν : Type} [DecidableEq ν] (check : α → Loaded β) (name : β → ν)
    (duplicate : α → β → LoadError) (read : α → β → Loaded γ) : List ν → List α → Loaded (List γ)
  | _, [] => .ok []
  | seen, a :: as => do
    let b ← check a
    if name b ∈ seen then throw (duplicate a b)
    let c ← read a b
    return c :: (← readDistinct check name duplicate read (name b :: seen) as)

end TimedMachine
