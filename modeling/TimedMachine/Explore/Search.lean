import TimedMachine.Explore.Plan

/-!
# Searching all runs

The search goes through the configurations depth first. A configuration on the stack closes a
cycle, and one that is settled has had all its moves tried, so neither is entered again. Hence each
configuration is pushed at most once and each of its moves is tried at most once; as there are
finitely many of both, the search ends.

Problems are reported once, with the trail on which they are found first. Each frame on the stack
carries the trail by which the run came to it. The stack and the moves that have been tried give the
same path without that (`Search.pathTo`, `Machine.path_rebuilt`).
-/

namespace TimedMachine

/-- A configuration on the stack of the search: how the run came to it, and the moves that are
still to be tried. -/
structure Frame (S T E : Nat) where
  config : Configuration S T E
  trail : Trail (Fin S)
  ahead : List (Move S E)

/-- What a search knows. -/
structure Search (S T E : Nat) where
  /-- The configurations whose moves are being tried, innermost first. -/
  stack : List (Frame S T E)
  onStack : Std.TreeSet (Configuration S T E)
  /-- The configurations whose moves have all been tried. -/
  settled : Std.TreeSet (Configuration S T E)
  /-- The states that were entered. -/
  entered : Mask S
  /-- For each state the events that could come in one of its configurations. -/
  enabledIn : Vector (Mask E) S
  /-- For each state the timers that ran in one of its configurations. -/
  runningIn : Vector (Mask T) S
  reported : Std.TreeSet (Problem S T E)
  /-- The problems that were reported and the way to each, latest first. -/
  found : List (Problem S T E × Trail (Fin S))
  maxDepth : Nat

namespace Search

variable {S T E : Nat}

/-- The search before it begins. -/
def empty : Search S T E where
  stack := []
  onStack := ∅
  settled := ∅
  entered := .empty
  enabledIn := .replicate S .empty
  runningIn := .replicate S .empty
  reported := ∅
  found := []
  maxDepth := 0

/-- Adds members to the set at a position. -/
def addAt {n k : Nat} (sets : Vector (Mask k) n) (i : Fin n) (more : Mask k) :
    Vector (Mask k) n :=
  sets.set i ((sets.get i).union more) i.isLt

/-- Puts a new configuration on the stack and reports what is wrong with it. -/
def push (p : Plan S T E) (σ : Search S T E) (c : Configuration S T E) (trail : Trail (Fin S)) :
    Search S T E :=
  let fresh := (p.problems c).filter (· ∉ σ.reported)
  { stack := ⟨c, trail, p.moves c⟩ :: σ.stack
    onStack := σ.onStack.insert c
    settled := σ.settled
    entered := σ.entered
    enabledIn := addAt σ.enabledIn c.state (p.enabled c)
    runningIn := addAt σ.runningIn c.state c.running
    reported := σ.reported.insertMany fresh
    found := (fresh.map fun problem => (problem, trail)).reverse ++ σ.found
    maxDepth := max σ.maxDepth (σ.stack.length + 1) }

/-- Whether a configuration has been pushed. -/
def hasSeen (σ : Search S T E) (c : Configuration S T E) : Bool :=
  σ.onStack.contains c || σ.settled.contains c

/-- Remembers that a state was entered. -/
def enter (σ : Search S T E) (s : Fin S) : Search S T E := { σ with entered := σ.entered.insert s }

/-- Enters the state that a trail leads to, in the configuration that this gives. The configuration
is pushed unless `skip` holds of it. -/
def visit (skip : Search S T E → Configuration S T E → Bool) (p : Plan S T E) (σ : Search S T E)
    (c? : Option (Configuration S T E)) (trail : Trail (Fin S)) : Search S T E :=
  match c? with
  | none => σ.enter trail.last
  | some c => if skip σ c then σ.enter trail.last else (σ.enter trail.last).push p c trail

/-- The search with another stack, of the same configurations. -/
def restack (σ : Search S T E) (stack : List (Frame S T E)) : Search S T E := { σ with stack }

/-- Takes the innermost configuration off the stack, as all its moves have been tried. -/
def settle (σ : Search S T E) (c : Configuration S T E) (below : List (Frame S T E)) :
    Search S T E :=
  { σ with stack := below, onStack := σ.onStack.erase c, settled := σ.settled.insert c }

/-- Tries the next move of the innermost configuration, or settles it if there is none left. -/
def step (skip : Search S T E → Configuration S T E → Bool) (p : Plan S T E) (σ : Search S T E) :
    Search S T E :=
  match σ.stack with
  | [] => σ
  | ⟨c, _, []⟩ :: below => σ.settle c below
  | ⟨c, trail, m :: ahead⟩ :: below =>
    (σ.restack (⟨c, trail, ahead⟩ :: below)).visit skip p (p.enter? c m.target m.event)
      (.step trail m.label m.target)

/-- The search after it has entered the start state. -/
def start (skip : Search S T E → Configuration S T E → Bool) (p : Plan S T E) : Search S T E :=
  match p.start with
  | none => empty
  | some s => empty.visit skip p (p.enter? (p.before s) s none) (.start s)

/-! ## The search ends -/

/-- How many steps a configuration takes: one for each of its moves, and one to settle it. -/
def cost (p : Plan S T E) (c : Configuration S T E) : Nat := (p.moves c).length + 1

/-- How much the members of a list weigh together. -/
def weigh {α : Type} (f : α → Nat) : List α → Nat
  | [] => 0
  | a :: l => f a + weigh f l

/-- How many steps are left for the configurations on the stack. -/
def pending (σ : Search S T E) : Nat := weigh (fun f => f.ahead.length + 1) σ.stack

/-- How many steps the configurations would take that have not been pushed. -/
def unseen (p : Plan S T E) (σ : Search S T E) : Nat :=
  weigh (cost p) ((Configuration.all S T E).filter fun c => !σ.hasSeen c)

theorem weigh_append {α : Type} (f : α → Nat) (l l' : List α) :
    weigh f (l ++ l') = weigh f l + weigh f l' := by
  induction l with
  | nil => simp [weigh]
  | cons a l ih => simp [weigh, ih, Nat.add_assoc]

theorem weigh_filter_le {α : Type} (f : α → Nat) {p q : α → Bool} (hpq : ∀ a, q a → p a)
    (l : List α) : weigh f (l.filter q) ≤ weigh f (l.filter p) := by
  induction l with
  | nil => exact Nat.le_refl _
  | cons a l ih =>
    by_cases hq : q a
    · simp [hq, hpq a hq, weigh, ih]
    · by_cases hp : p a
      · simp [hq, hp, weigh]
        omega
      · simp [hq, hp, ih]

theorem weigh_filter_add_le {α : Type} (f : α → Nat) {p q : α → Bool} (hpq : ∀ a, q a → p a)
    {l : List α} {a : α} (ha : a ∈ l) (hp : p a) (hq : ¬q a) :
    weigh f (l.filter q) + f a ≤ weigh f (l.filter p) := by
  obtain ⟨xs, ys, rfl⟩ := List.append_of_mem ha
  have hx := weigh_filter_le f hpq xs
  have hy := weigh_filter_le f hpq ys
  simp [hp, hq, weigh, weigh_append]
  omega

theorem hasSeen_push {p : Plan S T E} {σ : Search S T E} {c d : Configuration S T E}
    {trail : Trail (Fin S)} : (σ.push p c trail).hasSeen d = (d == c || σ.hasSeen d) := by
  simp only [hasSeen, push, Std.TreeSet.contains_insert, ← Bool.or_assoc]
  congr 2
  rw [Bool.eq_iff_iff, beq_iff_eq, beq_iff_eq, Std.compare_eq_iff_eq, eq_comm]

/-- A push takes the steps of its configuration from the unseen ones. -/
theorem unseen_push_add_cost_le (p : Plan S T E) {σ : Search S T E} {c : Configuration S T E}
    (trail : Trail (Fin S)) (h : σ.hasSeen c = false) :
    (σ.push p c trail).unseen p + cost p c ≤ σ.unseen p := by
  refine weigh_filter_add_le (cost p) ?_ (Configuration.mem_all c) ?_ ?_
  · intro d hd
    rw [hasSeen_push] at hd
    simp_all
  · simp [h]
  · simp [hasSeen_push]

/-- A visit adds no steps. -/
theorem visit_le (p : Plan S T E) (σ : Search S T E) (c? : Option (Configuration S T E))
    (trail : Trail (Fin S)) :
    (σ.visit hasSeen p c? trail).unseen p + (σ.visit hasSeen p c? trail).pending ≤
      σ.unseen p + σ.pending := by
  cases c? with
  | none => exact Nat.le_refl _
  | some c =>
    unfold visit
    dsimp only
    split
    · exact Nat.le_refl _
    · next h =>
      have hu : ((σ.enter trail.last).push p c trail).unseen p + cost p c ≤ σ.unseen p :=
        unseen_push_add_cost_le p trail (Bool.eq_false_iff.mpr h)
      have hp : ((σ.enter trail.last).push p c trail).pending = cost p c + σ.pending := by
        simp [pending, push, enter, cost, weigh]
      omega

/-- Settling a configuration leaves it seen. -/
theorem unseen_settle_le (p : Plan S T E) (σ : Search S T E) (c : Configuration S T E)
    (below : List (Frame S T E)) : (σ.settle c below).unseen p ≤ σ.unseen p := by
  refine weigh_filter_le (cost p) (fun d hd => ?_) _
  simp only [hasSeen, settle, Std.TreeSet.contains_erase, Std.TreeSet.contains_insert] at hd
  simp only [hasSeen]
  grind

/-- With each step there is less left to do. -/
theorem step_lt {p : Plan S T E} {σ : Search S T E} (h : σ.stack ≠ []) :
    (σ.step hasSeen p).unseen p + (σ.step hasSeen p).pending < σ.unseen p + σ.pending := by
  unfold step
  split
  · contradiction
  · next c _ below hs =>
    have hu := unseen_settle_le p σ c below
    simp only [pending, settle, hs, weigh, List.length_nil] at hu ⊢
    omega
  · next c trail m ahead below hs =>
    refine Nat.lt_of_le_of_lt (visit_le p _ _ _) ?_
    simp only [unseen, hasSeen, pending, restack, hs, weigh, List.length_cons]
    omega

/-- Goes on until the stack is empty. -/
def run (p : Plan S T E) (σ : Search S T E) : Search S T E :=
  if _h : σ.stack = [] then σ else run p (σ.step hasSeen p)
termination_by σ.unseen p + σ.pending
decreasing_by exact step_lt _h

/-- The search when it is complete. -/
def complete (p : Plan S T E) : Search S T E := (start hasSeen p).run p

end Search

end TimedMachine
