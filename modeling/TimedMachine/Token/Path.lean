import TimedMachine.Text.Alphanumeric

/-!
# Paths of tokens

The path of a token names the way to it from the root of its document, such as
`states.S0.start_timers[1]`. A key that is a plain name follows a dot, any other stands quoted in
brackets; the root has the empty path.
-/

namespace TimedMachine

/-- One step from a token down to another. -/
inductive Step where
  | key (name : String)
  | index (i : Nat)
deriving DecidableEq, Repr

namespace Path

/-- Whether a key can follow a dot: it has only letters, digits and underscores, at least one. -/
def isPlain (key : String) : Bool := !key.isEmpty && key.toList.all isNameChar

/-- A key as it stands between quotes. -/
def quoteKey (key : String) : String :=
  String.ofList (key.toList.flatMap fun c => if c = '\'' then ['\\', '\''] else [c])

/-- The path of the member `key` under `parent`. -/
def child (parent key : String) : String :=
  if isPlain key then
    if parent.isEmpty then key else parent ++ "." ++ key
  else parent ++ "['" ++ quoteKey key ++ "']"

/-- The path of the element `i` under `parent`. -/
def index (parent : String) (i : Nat) : String := parent ++ "[" ++ toString i ++ "]"

/-- The path one step below `parent`. -/
def step (parent : String) : Step → String
  | .key name => child parent name
  | .index i => index parent i

/-- The path at the end of a route that starts at `start`. -/
def along (start : String) (route : List Step) : String := route.foldl step start

/-- The paths after each step of a route that starts at `start`. -/
def trace (start : String) : List Step → List String
  | [] => []
  | s :: route => step start s :: trace (step start s) route

end Path

end TimedMachine
