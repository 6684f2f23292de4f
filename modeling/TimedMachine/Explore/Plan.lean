import TimedMachine.Explore.Configuration

/-!
# The rules of runs

A `Plan` holds what a machine says about each of its states and events. `Plan.enter?` is the rule
by which a configuration comes about, `Plan.moves` lists the ways out of one, and `Plan.problems`
what is wrong with it.
-/

namespace TimedMachine

/-- The edge of a state for one event or timer: its position among the edges and its moves. -/
structure Slot (S E : Nat) where
  position : Nat
  moves : List (Move S E)
deriving DecidableEq

/-- The ways out of a state, by what takes them. -/
inductive Body (S T E : Nat) where
  | final
  | passing (moves : List (Move S E))
  | branching (onEvent : Vector (Option (Slot S E)) E) (onTimer : Vector (Option (Slot S E)) T)

/-- Whether a state ends the runs that enter it. -/
def Body.isFinal {S T E : Nat} : Body S T E → Bool
  | .final => true
  | .passing _ | .branching _ _ => false

/-- What a machine says about a state. -/
structure Row (S T E : Nat) where
  starts : Mask T
  stops : Mask T
  /-- The events that entering the state arms. -/
  arms : Mask E
  body : Body S T E

/-- What a machine says about its states and events. -/
structure Plan (S T E : Nat) where
  rows : Vector (Row S T E) S
  initiallyArmed : Mask E
  onlyOnce : Mask E
  start : Option (Fin S)

namespace Plan

variable {S T E : Nat}

/-- The configuration before the start state is entered: no timer runs, and the events that do not
wait for a state are armed. -/
def before (p : Plan S T E) (start : Fin S) : Configuration S T E :=
  ⟨start, .empty, p.initiallyArmed, .empty⟩

/-- The events that have fired after one more event. -/
def fire (p : Plan S T E) (fired : Mask E) : Option (Fin E) → Mask E
  | some e => if e ∈ p.onlyOnce then fired.insert e else fired
  | none => fired

/-- The configuration that comes about by entering `state` from `prev` by way of `event`. A final
state has none, as the run ends there. -/
def enter? (p : Plan S T E) (prev : Configuration S T E) (state : Fin S)
    (event : Option (Fin E)) : Option (Configuration S T E) :=
  let row := p.rows.get state
  if row.body.isFinal then none
  else some
    { state
      running := (prev.running.diff row.stops).union row.starts
      armed := prev.armed.union row.arms
      fired := p.fire prev.fired event }

/-- The events that may come: those armed, other than events that come only once and have
fired. -/
def enabled (p : Plan S T E) (c : Configuration S T E) : Mask E :=
  c.armed.diff (c.fired.inter p.onlyOnce)

/-- The moves by an event or a timer, none if there is no edge for it. -/
def slotMoves : Option (Slot S E) → List (Move S E)
  | some slot => slot.moves
  | none => []

/-- The ways out of a configuration: those by events, in their order, and then those by timers. -/
def moves (p : Plan S T E) (c : Configuration S T E) : List (Move S E) :=
  match (p.rows.get c.state).body with
  | .final => []
  | .passing moves => moves
  | .branching onEvent onTimer =>
    (p.enabled c).toList.flatMap (fun e => slotMoves (onEvent.get e)) ++
    c.running.toList.flatMap (fun t => slotMoves (onTimer.get t))

/-- The problem with an event in a state, given the state's edge for it. -/
def eventProblem? (state : Fin S) (event : Fin E) : Option (Slot S E) → Option (Problem S T E)
  | some _ => none
  | none => some (.unhandledEvent state event)

/-- The problem with a timer in a state, given whether it runs and the state's edge for it. -/
def timerProblem? (state : Fin S) (timer : Fin T) (runs : Bool) :
    Option (Slot S E) → Option (Problem S T E)
  | some _ => if runs then none else some (.ghostTimerEdge state timer)
  | none => if runs then some (.missingTimerEdge state timer) else none

/-- What is wrong with the edges of a configuration's state. -/
def edgeProblems (p : Plan S T E) (c : Configuration S T E) : List (Problem S T E) :=
  match (p.rows.get c.state).body with
  | .final | .passing _ => []
  | .branching onEvent onTimer =>
    (p.enabled c).toList.filterMap (fun e => eventProblem? c.state e (onEvent.get e)) ++
    (List.finRange T).filterMap (fun t => timerProblem? c.state t (t ∈ c.running) (onTimer.get t))

/-- What is wrong with a configuration, in the order in which it is reported. -/
def problems (p : Plan S T E) (c : Configuration S T E) : List (Problem S T E) :=
  p.edgeProblems c ++ if (p.moves c).isEmpty then [.stall c.state] else []

@[simp] theorem mem_enabled {p : Plan S T E} {c : Configuration S T E} {e : Fin E} :
    e ∈ p.enabled c ↔ e ∈ c.armed ∧ ¬(e ∈ p.onlyOnce ∧ e ∈ c.fired) := by
  simp [enabled, and_comm]

/-- An entered configuration is in the state that was entered. -/
theorem state_of_enter? {p : Plan S T E} {prev c : Configuration S T E} {s : Fin S}
    {e : Option (Fin E)} (h : p.enter? prev s e = some c) : c.state = s := by
  simp only [enter?] at h
  split at h
  · cases h
  · cases h
    rfl

end Plan

end TimedMachine
