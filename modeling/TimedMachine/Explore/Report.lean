import TimedMachine.Explore.Search

/-!
# Reports on the runs of a machine

`Machine.plan` turns a machine into tables: names become positions, in the order of declaration,
and every edge is found at the position of its invoker. `Machine.explore` searches all runs by
these tables and puts what it finds into names again, and then lists the states that no run enters
and the edges that no run can take.

The names of a machine that loads are distinct, and so are the invokers of a state's edges for
events, and of those for timers. So a name has one position there, and an invoker one edge
(`Machine.WellFormed`). Where there are several, the look-ups below take the first one; in a machine
that loads the last one is the same.
-/

namespace TimedMachine

namespace Machine

variable (m : Machine)

/-- The name of the state at a position. -/
abbrev stateName (s : Fin m.states.length) : String := (m.states.get s).name

/-- The name of the timer at a position. -/
abbrev timerName (t : Fin m.timers.length) : String := (m.timers.get t).name

/-- The name of the event at a position. -/
abbrev eventName (e : Fin m.events.length) : String := (m.events.get e).name

/-- The position of the first state with a name, which is the only one if the machine loads. -/
def stateIndex? (name : String) : Option (Fin m.states.length) :=
  m.states.findFinIdx? (·.name == name)

/-- The position of the first timer with a name, which is the only one if the machine loads. -/
def timerIndex? (name : String) : Option (Fin m.timers.length) :=
  m.timers.findFinIdx? (·.name == name)

/-- The position of the first event with a name, which is the only one if the machine loads. -/
def eventIndex? (name : String) : Option (Fin m.events.length) :=
  m.events.findFinIdx? (·.name == name)

/-- The moves of the machine. -/
abbrev Moves := List (Move m.states.length m.events.length)

/-- The move to a target; none unless the target is a state. -/
def moveTo? (target : Target) (label : Label) (event : Option (Fin m.events.length)) :
    Option (Move m.states.length m.events.length) :=
  (target.state?.bind m.stateIndex?).map fun s => ⟨s, label, event⟩

/-- The moves along an edge. -/
def edgeMoves (e : Edge) (event : Option (Fin m.events.length)) : m.Moves :=
  match e.targets with
  | .single target => (m.moveTo? target (.invoker e.kind e.invoker none) event).toList
  | .decision choices => choices.filterMap fun c =>
    m.moveTo? c.target (.invoker e.kind e.invoker (some c.name)) event

/-- The moves out of a passing state. -/
def nextMoves : NextState → m.Moves
  | .state name => (m.moveTo? (.state name) .nextState none).toList
  | .decision choices => choices.filterMap fun c => m.moveTo? c.target (.onEnter c.name) none

/-- The table of edges by the positions of their invokers. `moves` gives the moves along an edge,
and `position` is the one of the first edge. Of edges with the same invoker the first one counts,
but a state of a machine that loads has one at most. -/
def edgeTable {n : Nat} (index? : String → Option (Fin n)) (moves : Edge → Fin n → m.Moves)
    (position : Nat) :
    List Edge → Vector (Option (Slot m.states.length m.events.length)) n
  | [] => .replicate n none
  | e :: es =>
    let table := edgeTable index? moves (position + 1) es
    match index? e.invoker with
    | some i => table.set i (some ⟨position, moves e i⟩) i.isLt
    | none => table

/-- The table of a state's edges for events. -/
def eventTable (es : List Edge) :
    Vector (Option (Slot m.states.length m.events.length)) m.events.length :=
  m.edgeTable m.eventIndex? (fun e i => m.edgeMoves e (some i)) 0 es

/-- The table of a state's edges for timers. -/
def timerTable (es : List Edge) :
    Vector (Option (Slot m.states.length m.events.length)) m.timers.length :=
  m.edgeTable m.timerIndex? (fun e _ => m.edgeMoves e none) 0 es

/-- What the machine says about a state. -/
def row (s : State) : Row m.states.length m.timers.length m.events.length where
  starts := .ofPred fun t => s.startsTimer (m.timerName t)
  stops := .ofPred fun t => s.stopsTimer (m.timerName t)
  arms := .ofPred fun e => (m.events.get e).isArmedBy s.name
  body := match s.shape with
    | .final => .final
    | .passThrough next => .passing (m.nextMoves next)
    | .branching eventEdges timerEdges =>
      .branching (m.eventTable eventEdges) (m.timerTable timerEdges)

/-- The tables of the machine. -/
def plan : Plan m.states.length m.timers.length m.events.length where
  rows := .ofFn fun s => m.row (m.states.get s)
  initiallyArmed := .ofPred fun e => (m.events.get e).isInitiallyArmed
  onlyOnce := .ofPred fun e => (m.events.get e).onlyOnce
  start := m.stateIndex? m.startState

@[simp] theorem get_rows (s : Fin m.states.length) :
    m.plan.rows.get s = m.row (m.states.get s) := by
  show (Vector.ofFn fun s => m.row (m.states.get s))[s.val] = m.row (m.states.get s)
  rw [Vector.getElem_ofFn]

/-- The searches of the machine's runs. -/
abbrev Searches := Search m.states.length m.timers.length m.events.length

/-- A problem in names. -/
def violation (trail : Trail (Fin m.states.length)) :
    Problem m.states.length m.timers.length m.events.length → Violation
  | .unhandledEvent s e =>
    .unhandledEvent (m.stateName s) (m.eventName e) (trail.map m.stateName)
  | .missingTimerEdge s t =>
    .missingTimerEdge (m.stateName s) (m.timerName t) (trail.map m.stateName)
  | .ghostTimerEdge s t =>
    .ghostTimerEdge (m.stateName s) (m.timerName t) (trail.map m.stateName)
  | .stall s => .stall (m.stateName s) (trail.map m.stateName)

/-- The problems that a search has reported, in the order of their discovery. -/
def foundViolations (σ : m.Searches) : List Violation :=
  σ.found.reverse.map fun (problem, trail) => m.violation trail problem

/-- Whether a search has seen a configuration in which an edge of a state can be taken. -/
def isUsable (σ : m.Searches) (s : Fin m.states.length) (e : Edge) : Bool :=
  match e.kind with
  | .event => (m.eventIndex? e.invoker).any (· ∈ σ.enabledIn.get s)
  | .timer => (m.timerIndex? e.invoker).any (· ∈ σ.runningIn.get s)

/-- The edges of a state that cannot be taken. -/
def unusableEdges (σ : m.Searches) (s : Fin m.states.length) : List Violation :=
  ((m.states.get s).edges.filter fun e => !m.isUsable σ s e).map fun e =>
    .unusableEdge (m.stateName s) e.kind e.invoker e.targets

/-- What a complete search has to say about a state: whether it was entered, and which edges cannot
be taken. -/
def closingViolations (σ : m.Searches) (s : Fin m.states.length) : List Violation :=
  (if s ∈ σ.entered then [] else [.unreachableState (m.stateName s)]) ++ m.unusableEdges σ s

end Machine

/-- What is said about the runs of a machine. -/
structure PathReport where
  /-- How many configurations the runs come to. -/
  configurations : Nat
  /-- The size of the stack of the search at its largest. -/
  maxDepth : Nat
  violations : List Violation
deriving DecidableEq

/-- The report of a search that is complete. -/
def Machine.reportOf (m : Machine) (σ : m.Searches) : PathReport where
  configurations := σ.settled.size
  maxDepth := σ.maxDepth
  violations :=
    m.foundViolations σ ++ (List.finRange m.states.length).flatMap (m.closingViolations σ)

/-- Searches all runs of a machine. -/
def Machine.explore (m : Machine) : PathReport := m.reportOf (.complete m.plan)

end TimedMachine
