/-!
# Rules that change a delay

A state that starts a timer may change the timer's delay. A rule has up to five parts, which apply
in a fixed order: `set`, `multiplier`, `increment`, and then the bounds `min` and `max`.
-/

namespace TimedMachine

/-- A rule for the delay of a timer, over any type of numbers. -/
structure DelayRule (α : Type) where
  set : Option α := none
  multiplier : Option α := none
  increment : Option α := none
  min : Option α := none
  max : Option α := none
deriving DecidableEq, Repr

namespace DelayRule

variable {α : Type}

/-- The rule that changes nothing. -/
def unchanged : DelayRule α := {}

/-- Raises a delay to a lower bound. -/
def atLeast [LT α] [DecidableLT α] (least : Option α) (delay : α) : α :=
  match least with
  | some least => if delay < least then least else delay
  | none => delay

/-- Lowers a delay to an upper bound. -/
def atMost [LT α] [DecidableLT α] (most : Option α) (delay : α) : α :=
  match most with
  | some most => if most < delay then most else delay
  | none => delay

/-- The delay that a rule makes of another. -/
def apply [Mul α] [Add α] [LT α] [DecidableLT α] (r : DelayRule α) (delay : α) : α :=
  let delay := r.set.getD delay
  let delay := r.multiplier.elim delay (delay * ·)
  let delay := r.increment.elim delay (delay + ·)
  atMost r.max (atLeast r.min delay)

/-- The delays after a rule has been applied once, twice, and so on up to `n` times. -/
def iterates [Mul α] [Add α] [LT α] [DecidableLT α] (r : DelayRule α) : Nat → α → List α
  | 0, _ => []
  | n + 1, delay => r.apply delay :: r.iterates n (r.apply delay)

/-- The delay after several rules, one after the other. -/
def applyAll [Mul α] [Add α] [LT α] [DecidableLT α] (rules : List (DelayRule α)) (delay : α) : α :=
  rules.foldl (fun d r => r.apply d) delay

/-- The delays after each of several groups of rules. -/
def delays [Mul α] [Add α] [LT α] [DecidableLT α] : List (List (DelayRule α)) → α → List α
  | [], _ => []
  | rules :: groups, delay => applyAll rules delay :: delays groups (applyAll rules delay)

end DelayRule

end TimedMachine
