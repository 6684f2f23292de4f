import Std.Data.TreeSet
import TimedMachine.Explore.Mask
import TimedMachine.Violation

/-!
# Configurations

What a run can do next depends on the state that it is in, on which timers run, on which events
are armed and on which of them have fired. States, timers and events are numbers here. There are
finitely many configurations, and `Configuration.all` lists them.
-/

namespace TimedMachine

/-- Where a run stands: its state, the timers that run, the events that are armed and the events
that have fired and come only once. -/
structure Configuration (S T E : Nat) where
  state : Fin S
  running : Mask T
  armed : Mask E
  fired : Mask E
deriving DecidableEq

/-- A way out of a configuration. -/
structure Move (S E : Nat) where
  target : Fin S
  label : Label
  /-- The event that makes the move, if one does. -/
  event : Option (Fin E)
deriving DecidableEq

/-- Something wrong with a configuration, whatever the way to it. -/
inductive Problem (S T E : Nat) where
  | unhandledEvent (state : Fin S) (event : Fin E)
  | missingTimerEdge (state : Fin S) (timer : Fin T)
  | ghostTimerEdge (state : Fin S) (timer : Fin T)
  | stall (state : Fin S)
deriving DecidableEq

/-! ## Orders

Sets of configurations and of problems are search trees, so both have a total order: by their
parts, one after the other. -/

section Order

variable {S T E : Nat}

/-- Equal comparisons of one part after another are equal comparisons of all. -/
theorem compareLex_eq_eq {α : Type} {f g : α → α → Ordering} {a b : α} :
    compareLex f g a b = .eq ↔ f a b = .eq ∧ g a b = .eq := by
  simp [compareLex, Ordering.then_eq_eq]

/-- Compares two configurations by their state, and then by the words of each of their sets. -/
def Configuration.order : Configuration S T E → Configuration S T E → Ordering :=
  compareLex (compareOn (·.state.val)) <| compareLex (compareOn (·.running.bitmap.words)) <|
    compareLex (compareOn (·.armed.bitmap.words)) (compareOn (·.fired.bitmap.words))

instance : Ord (Configuration S T E) := ⟨Configuration.order⟩

instance : Std.TransOrd (Configuration S T E) :=
  inferInstanceAs (Std.TransCmp (compareLex (compareOn _) <| compareLex (compareOn _) <|
    compareLex (compareOn _) (compareOn _)))

instance : Std.LawfulEqOrd (Configuration S T E) where
  eq_of_compare {a b} h := by
    have h : Configuration.order a b = .eq := h
    simp only [Configuration.order, compareLex_eq_eq, compareOn, Std.compare_eq_iff_eq] at h
    obtain ⟨hs, hr, ha, hf⟩ := h
    cases a
    cases b
    cases Fin.ext hs
    cases Mask.eq_of_words_eq hr
    cases Mask.eq_of_words_eq ha
    cases Mask.eq_of_words_eq hf
    rfl

namespace Problem

/-- The number of a problem's kind. -/
def rank : Problem S T E → Nat
  | unhandledEvent _ _ => 0
  | missingTimerEdge _ _ => 1
  | ghostTimerEdge _ _ => 2
  | stall _ => 3

/-- The state that a problem is in. -/
def state : Problem S T E → Fin S
  | unhandledEvent s _ | missingTimerEdge s _ | ghostTimerEdge s _ | stall s => s

/-- The event or timer that a problem is with, zero for none. -/
def invoker : Problem S T E → Nat
  | unhandledEvent _ e => e
  | missingTimerEdge _ t | ghostTimerEdge _ t => t
  | stall _ => 0

/-- Compares two problems by their kind, their state and their invoker. -/
def order : Problem S T E → Problem S T E → Ordering :=
  compareLex (compareOn rank) <| compareLex (compareOn (·.state.val)) (compareOn invoker)

instance : Ord (Problem S T E) := ⟨order⟩

instance : Std.TransOrd (Problem S T E) :=
  inferInstanceAs (Std.TransCmp (compareLex (compareOn _) <|
    compareLex (compareOn _) (compareOn _)))

instance : Std.LawfulEqOrd (Problem S T E) where
  eq_of_compare {a b} h := by
    have h : order a b = .eq := h
    simp only [order, compareLex_eq_eq, compareOn, Nat.compare_eq_eq] at h
    obtain ⟨hr, hs, hi⟩ := h
    cases a <;> cases b <;> simp_all [rank, state, invoker, Fin.ext_iff]

end Problem

end Order

namespace Configuration

variable {S T E : Nat}

/-- All configurations. -/
def all (S T E : Nat) : List (Configuration S T E) :=
  (List.finRange S).flatMap fun state =>
  (Mask.all T).flatMap fun running =>
  (Mask.all E).flatMap fun armed =>
  (Mask.all E).map fun fired => ⟨state, running, armed, fired⟩

@[simp] theorem mem_all (c : Configuration S T E) : c ∈ all S T E :=
  List.mem_flatMap.mpr ⟨c.state, List.mem_finRange _,
    List.mem_flatMap.mpr ⟨c.running, Mask.mem_all _,
      List.mem_flatMap.mpr ⟨c.armed, Mask.mem_all _,
        List.mem_map.mpr ⟨c.fired, Mask.mem_all _, rfl⟩⟩⟩⟩

end Configuration

end TimedMachine
