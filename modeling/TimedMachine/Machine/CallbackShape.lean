/-!
# Shapes of callback names

An edge may ask for callbacks that are called whenever it is taken. The shape of a callback says
which of the source state, the invoker and the target state its name is made of.
-/

namespace TimedMachine

/-- Which parts of an edge make up the name of a callback. -/
inductive CallbackShape where
  | full
  | eventOnly
  | eventAndTarget
  | sourceAndEvent
  | sourceAndTarget
  | sourceOnly
  | targetOnly
deriving DecidableEq, Repr

namespace CallbackShape

/-- All shapes, in the order in which they are listed everywhere. -/
def all : List CallbackShape :=
  [full, eventOnly, eventAndTarget, sourceAndEvent, sourceAndTarget, sourceOnly, targetOnly]

/-- The name of a shape in specifications. -/
def text : CallbackShape → String
  | full => "full"
  | eventOnly => "event_only"
  | eventAndTarget => "event_and_target"
  | sourceAndEvent => "source_and_event"
  | sourceAndTarget => "source_and_target"
  | sourceOnly => "source_only"
  | targetOnly => "target_only"

/-- The shape with a name. -/
def ofName? (name : String) : Option CallbackShape := all.find? (·.text == name)

/-- Whether the name has the target state in it, so that the edge must have a single one. -/
def needsTarget : CallbackShape → Bool
  | full | eventAndTarget | sourceAndTarget | targetOnly => true
  | eventOnly | sourceAndEvent | sourceOnly => false

/-- Whether the name has the invoker in it, so that the callback gets the invoker's arguments. -/
def namesInvoker : CallbackShape → Bool
  | full | eventOnly | eventAndTarget | sourceAndEvent => true
  | sourceAndTarget | sourceOnly | targetOnly => false

@[simp] theorem ofName?_text (shape : CallbackShape) : ofName? shape.text = some shape := by
  cases shape <;> decide

end CallbackShape

end TimedMachine
