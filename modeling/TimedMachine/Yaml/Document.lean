import TimedMachine.Yaml.Basic

/-!
# YAML documents

`Yaml.ofTokens?` puts the tokens of a text together to its only document, and `Yaml.parse?` reads a
text. A node that is missing is an empty scalar, and so is the document of a text that has none.
`fuel` bounds the nesting and the number of parts; the number of tokens gives enough.
-/

namespace TimedMachine.Yaml

/-- Whether the tokens begin with one of the given ones. -/
def beginsWith (ts : List Token) (given : List Token) : Bool :=
  ts.head?.any (· ∈ given)

/-! ## Properties -/

/-- The texts that tag handles stand for. -/
abbrev Handles := List (String × String)

/-- The handles that need no directive. -/
def defaultHandles : Handles := [("!", "!"), ("!!", "tag:yaml.org,2002:")]

/-- The whole text of a tag. -/
def Tag.resolve? (handles : Handles) (t : Tag) : Option String :=
  if t.handle.isEmpty then some t.suffix else (handles.lookup t.handle).map (· ++ t.suffix)

/-- Reads an anchor and a tag, in either order; both can be missing. -/
def properties? (handles : Handles) : List Token → Option (Properties × List Token)
  | .anchor n :: .tag t :: ts => do return (⟨some n, some (← t.resolve? handles)⟩, ts)
  | .tag t :: .anchor n :: ts => do return (⟨some n, some (← t.resolve? handles)⟩, ts)
  | .anchor n :: ts => some (⟨some n, none⟩, ts)
  | .tag t :: ts => do return (⟨none, some (← t.resolve? handles)⟩, ts)
  | ts => some ({}, ts)

/-! ## Nodes -/

/-- Where a node may stand. -/
inductive Site where
  /-- In a collection of flow style, where there is none of block style. -/
  | flow
  | block
  /-- In a mapping of block style, where a sequence need not be indented. -/
  | entry
deriving DecidableEq, Repr

mutual

/-- Reads a node. -/
def node? (handles : Handles) : (fuel : Nat) → Site → List Token → Option (Yaml × List Token)
  | 0, _, _ => none
  | _ + 1, _, .aliasOf n :: ts => some (.aliasOf n, ts)
  | fuel + 1, site, ts => do
    let (p, ts) ← properties? handles ts
    content? handles fuel site p ts

/-- Reads a node after its properties. A node with properties need not have a content. -/
def content? (handles : Handles) :
    (fuel : Nat) → Site → Properties → List Token → Option (Yaml × List Token)
  | 0, _, _, _ => none
  | _ + 1, _, p, .scalar style text :: ts => some (.scalar p style text, ts)
  | fuel + 1, _, p, .flowSequenceStart :: ts =>
    (flowItems? handles fuel true ts).map fun (items, ts) => (.sequence p items, ts)
  | fuel + 1, _, p, .flowMappingStart :: ts =>
    (flowEntries? handles fuel true ts).map fun (entries, ts) => (.mapping p entries, ts)
  | fuel + 1, site, p, ts =>
    if site = .entry ∧ beginsWith ts [.item] then
      (looseItems? handles fuel ts).map fun (items, ts) => (.sequence p items, ts)
    else if site ≠ .flow ∧ beginsWith ts [.blockSequenceStart] then
      (blockItems? handles fuel ts.tail).map fun (items, ts) => (.sequence p items, ts)
    else if site ≠ .flow ∧ beginsWith ts [.blockMappingStart] then
      (blockEntries? handles fuel ts.tail).map fun (entries, ts) => (.mapping p entries, ts)
    else if p ≠ {} then some (.empty p, ts)
    else none

/-- Reads a node that is missing if one of the tokens `ends` comes next. -/
def nodeBefore? (handles : Handles) :
    (fuel : Nat) → Site → (ends : List Token) → List Token → Option (Yaml × List Token)
  | 0, _, _, _ => none
  | fuel + 1, site, ends, ts =>
    if beginsWith ts ends then some (.empty {}, ts) else node? handles fuel site ts

/-- Reads the node after the mark of a value; without the mark there is none. -/
def valueBefore? (handles : Handles) :
    (fuel : Nat) → Site → (ends : List Token) → List Token → Option (Yaml × List Token)
  | 0, _, _, _ => none
  | fuel + 1, site, ends, .value :: ts => nodeBefore? handles fuel site ends ts
  | _ + 1, _, _, ts => some (.empty {}, ts)

/-- Reads the items of a sequence up to the end of its block. -/
def blockItems? (handles : Handles) :
    (fuel : Nat) → List Token → Option (List Yaml × List Token)
  | 0, _ => none
  | fuel + 1, .item :: ts => do
    let (item, ts) ← nodeBefore? handles fuel .block [.item, .blockEnd] ts
    let (items, ts) ← blockItems? handles fuel ts
    return (item :: items, ts)
  | _ + 1, .blockEnd :: ts => some ([], ts)
  | _ + 1, _ => none

/-- Reads the items of a sequence that is no block of its own. -/
def looseItems? (handles : Handles) :
    (fuel : Nat) → List Token → Option (List Yaml × List Token)
  | 0, _ => none
  | fuel + 1, .item :: ts => do
    let (item, ts) ← nodeBefore? handles fuel .block [.item, .key, .value, .blockEnd] ts
    let (items, ts) ← looseItems? handles fuel ts
    return (item :: items, ts)
  | _ + 1, ts => some ([], ts)

/-- Reads the entries of a mapping up to the end of its block. -/
def blockEntries? (handles : Handles) :
    (fuel : Nat) → List Token → Option (List (Yaml × Yaml) × List Token)
  | 0, _ => none
  | fuel + 1, .key :: ts => do
    let (key, ts) ← nodeBefore? handles fuel .entry [.key, .value, .blockEnd] ts
    let (value, ts) ← valueBefore? handles fuel .entry [.key, .value, .blockEnd] ts
    let (entries, ts) ← blockEntries? handles fuel ts
    return ((key, value) :: entries, ts)
  | _ + 1, .blockEnd :: ts => some ([], ts)
  | _ + 1, _ => none

/-- Reads the items of a sequence up to its closing bracket; `ready` says that none came since the
opening bracket or the last comma. A comma may stand after the last item. -/
def flowItems? (handles : Handles) :
    (fuel : Nat) → (ready : Bool) → List Token → Option (List Yaml × List Token)
  | 0, _, _ => none
  | _ + 1, _, .flowSequenceEnd :: ts => some ([], ts)
  | fuel + 1, false, .comma :: ts => flowItems? handles fuel true ts
  | _ + 1, false, _ => none
  | fuel + 1, true, .key :: ts => do
    let (entry, ts) ← pair? handles fuel ts
    let (items, ts) ← flowItems? handles fuel false ts
    return (.mapping {} [entry] :: items, ts)
  | fuel + 1, true, ts => do
    let (item, ts) ← node? handles fuel .flow ts
    let (items, ts) ← flowItems? handles fuel false ts
    return (item :: items, ts)

/-- Reads the entry of an item that is a mapping without braces. Where its key is missing, the
token that shows it is lost. -/
def pair? (handles : Handles) : (fuel : Nat) → List Token → Option ((Yaml × Yaml) × List Token)
  | 0, _ => none
  | fuel + 1, ts => do
    let (key, ts) ←
      if beginsWith ts [.value, .comma, .flowSequenceEnd] then some (.empty {}, ts.tail)
      else node? handles fuel .flow ts
    let (value, ts) ← valueBefore? handles fuel .flow [.comma, .flowSequenceEnd] ts
    return ((key, value), ts)

/-- Reads the entries of a mapping up to its closing brace; `ready` says that none came since the
opening brace or the last comma. A comma may stand after the last entry, and a key may stand
alone. -/
def flowEntries? (handles : Handles) :
    (fuel : Nat) → (ready : Bool) → List Token → Option (List (Yaml × Yaml) × List Token)
  | 0, _, _ => none
  | _ + 1, _, .flowMappingEnd :: ts => some ([], ts)
  | fuel + 1, false, .comma :: ts => flowEntries? handles fuel true ts
  | _ + 1, false, _ => none
  | fuel + 1, true, .key :: ts => do
    let (key, ts) ← nodeBefore? handles fuel .flow [.value, .comma, .flowMappingEnd] ts
    let (value, ts) ← valueBefore? handles fuel .flow [.comma, .flowMappingEnd] ts
    let (entries, ts) ← flowEntries? handles fuel false ts
    return ((key, value) :: entries, ts)
  | fuel + 1, true, ts => do
    let (key, ts) ← node? handles fuel .flow ts
    let (entries, ts) ← flowEntries? handles fuel false ts
    return ((key, .empty {}) :: entries, ts)

end

/-! ## Documents -/

/-- Reads directives, none of which may be repeated for the same handle, or for the version. -/
def directives? : Bool → Handles → List Token → Option (Handles × List Token)
  | versioned, handles, .directive .version :: ts =>
    if versioned then none else directives? true handles ts
  | versioned, handles, .directive (.handle h expansion) :: ts =>
    if (handles.lookup h).isSome then none
    else directives? versioned (handles ++ [(h, expansion)]) ts
  | _, handles, ts => some (handles, ts)

/-- A token that no node begins with and that ends a document. -/
def Token.isBetweenDocuments : Token → Bool
  | directive _ | documentStart | documentEnd => true
  | _ => false

/-- Reads the node of a document. The mark at its beginning can be missing, and then there are no
directives and there must be a node. -/
def root? (fuel : Nat) (ts : List Token) : Option (Yaml × List Token) := do
  match ← directives? false [] ts with
  | (handles, .documentStart :: ts) =>
    if ts.head?.all Token.isBetweenDocuments then return (.empty {}, ts)
    else node? (handles ++ defaultHandles) fuel .block ts
  | _ => node? defaultHandles fuel .block ts

/-- Puts together the only document that the tokens of a text form. -/
def ofTokens? (ts : List Token) : Option Yaml :=
  if ts.isEmpty then some (.empty {})
  else do
    let (y, rest) ← root? (4 * ts.length + 4) ts
    if rest.all (· == .documentEnd) then return y else none

/-- Reads a text. -/
def parse? (text : String) : Option Yaml := do ofTokens? (← Token.ofText? text)

end TimedMachine.Yaml
