/-!
# Places in a text

A place is a line and a column, both counted in characters from 1. `Span.after` moves a place
over a run of characters, so the place of the character at index `i` of a text is
`Span.start.after (text.take i)`.
-/

namespace TimedMachine

/-- A place in a source text: the line and the column of a character, both from 1. -/
structure Span where
  line : Nat
  column : Nat
deriving DecidableEq, Repr, Inhabited

namespace Span

/-- The place of the first character of a text. -/
def start : Span := ⟨1, 1⟩

/-- The place just after the character `c` that stands at `s`. -/
def next (s : Span) (c : Char) : Span :=
  if c = '\n' then ⟨s.line + 1, 1⟩ else ⟨s.line, s.column + 1⟩

/-- The place just after the characters `cs`, the first of which stands at `s`. -/
def after (s : Span) (cs : List Char) : Span := cs.foldl next s

/-- The place as messages write it. -/
def text (s : Span) : String := "line: " ++ toString s.line ++ ", pos: " ++ toString s.column

@[simp] theorem after_nil (s : Span) : s.after [] = s := rfl

@[simp] theorem after_cons (s : Span) (c : Char) (cs : List Char) :
    s.after (c :: cs) = (s.next c).after cs := rfl

@[simp] theorem after_append (s : Span) (cs ds : List Char) :
    s.after (cs ++ ds) = (s.after cs).after ds := List.foldl_append

end Span

end TimedMachine
