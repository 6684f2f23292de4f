import TimedMachine.Machine.OfToken

/-!
# Well-formed machines

The checks of a machine look names up and pass over those that they do not find. So what they say
can only be trusted of a machine in which every name stands for exactly one thing. This module says
what that takes: `Machine.WellFormed` holds of a machine when its names are distinct, everything
that is named is declared, and its numbers make sense.

The parts of a machine are well-formed relative to the names that it declares.
-/

namespace TimedMachine

/-- The names that a machine declares. -/
def Machine.names (m : Machine) : Names :=
  ⟨m.timers.map Timer.name, m.events.map Event.name, m.states.map State.name⟩

/-! ## Timers and rules -/

/-- A timer's delay is a positive number of seconds. -/
def Timer.WellFormed (t : Timer) : Prop := t.interval.isFinite ∧ 0 < t.interval

/-- A rule for a delay changes something; what it sets or multiplies by is positive, all of its
numbers are finite, and its bounds are in order. -/
structure DelayRule.WellFormed (r : DelayRule Float) : Prop where
  ne_unchanged : r ≠ .unchanged
  set : ∀ x ∈ r.set, x.isFinite ∧ 0 < x
  multiplier : ∀ x ∈ r.multiplier, x.isFinite ∧ 0 < x
  increment : ∀ x ∈ r.increment, x.isFinite
  min : ∀ x ∈ r.min, x.isFinite
  max : ∀ x ∈ r.max, x.isFinite
  min_le_max : ∀ least ∈ r.min, ∀ most ∈ r.max, least ≤ most

/-! ## Events, targets and edges -/

section Parts

variable (ns : Names)

/-- An event that waits for states waits for some, each of them declared and named once. -/
structure Event.WellFormed (e : Event) : Prop where
  ne_nil : ∀ names ∈ e.afterStates, names ≠ []
  nodup : ∀ names ∈ e.afterStates, names.Nodup
  declared : ∀ names ∈ e.afterStates, ∀ name ∈ names, name ∈ ns.states

/-- A target that is a state is declared. -/
def Target.WellFormed (t : Target) : Prop := ∀ name ∈ t.state?, name ∈ ns.states

/-- A decision has something to choose from, and every choice has a well-formed target. -/
structure WellFormedDecision (choices : List Choice) : Prop where
  ne_nil : choices ≠ []
  target : ∀ c ∈ choices, c.target.WellFormed ns

/-- Targets are well-formed if the one that there is or the decision among several is. -/
def Targets.WellFormed : Targets → Prop
  | .single target => target.WellFormed ns
  | .decision choices => WellFormedDecision ns choices

variable {ns} in
theorem Targets.WellFormed.of_mem_toList {targets : Targets} (h : targets.WellFormed ns)
    {target : Target} (ht : target ∈ targets.toList) : target.WellFormed ns := by
  cases targets with
  | single target' =>
    obtain rfl := List.mem_singleton.mp ht
    exact h
  | decision choices =>
    obtain ⟨c, hc, rfl⟩ := List.mem_map.mp ht
    exact h.target c hc

/-- An edge belongs to a declared event or timer, its targets are well-formed, and only an event
may let a function choose. Its callbacks are distinct, and one with the target in its name has a
target to be named after. -/
structure Edge.WellFormed (kind : InvokerKind) (e : Edge) : Prop where
  kind_eq : e.kind = kind
  declared : e.invoker ∈ ns.ofKind kind
  targets : e.targets.WellFormed ns
  single_of_timer : kind = .timer → ∃ target, e.targets = .single target
  callbacks_nodup : e.callbacks.Nodup
  callbacks_target : ∀ shape ∈ e.callbacks, shape.needsTarget →
    e.targets = .single .noChange ∨ ∃ name, e.targets = .single (.state name)

/-- The edges of a state for events or for timers: well-formed, and no two for the same. -/
structure WellFormedEdges (kind : InvokerKind) (es : List Edge) : Prop where
  nodup : (es.map Edge.invoker).Nodup
  edge : ∀ e ∈ es, e.WellFormed ns kind

/-! ## States -/

/-- A place to go on to is declared, or it is a decision. -/
def NextState.WellFormed : NextState → Prop
  | .state name => name ∈ ns.states
  | .decision choices => WellFormedDecision ns choices

/-- The shape of a state is well-formed in its parts. -/
def Shape.WellFormed : Shape → Prop
  | .branching eventEdges timerEdges =>
    WellFormedEdges ns .event eventEdges ∧ WellFormedEdges ns .timer timerEdges
  | .passThrough next => next.WellFormed ns
  | .final => True

/-- A state starts and stops declared timers, none of them both, and stops each only once. -/
structure State.WellFormed (s : State) : Prop where
  starts_declared : ∀ start ∈ s.startTimers, start.timer ∈ ns.timers
  starts_rule : ∀ start ∈ s.startTimers, ∀ r ∈ start.rule, r.WellFormed
  stops_declared : ∀ timer ∈ s.stopTimers, timer ∈ ns.timers
  stops_nodup : s.stopTimers.Nodup
  not_started_and_stopped : ∀ start ∈ s.startTimers, start.timer ∉ s.stopTimers
  shape : s.shape.WellFormed ns

end Parts

/-! ## Machines -/

/-- The names of a well-formed machine are distinct, and all of its parts are well-formed. -/
structure Machine.WellFormed (m : Machine) : Prop where
  timers_nodup : m.names.timers.Nodup
  events_nodup : m.names.events.Nodup
  states_nodup : m.names.states.Nodup
  start_declared : m.startState ∈ m.names.states
  timer : ∀ t ∈ m.timers, t.WellFormed
  event : ∀ e ∈ m.events, e.WellFormed m.names
  state : ∀ s ∈ m.states, s.WellFormed m.names

namespace Machine.WellFormed

variable {m : Machine}

/-- The edges of a state, branching or not, are well-formed. -/
theorem eventEdges (h : m.WellFormed) {s : State} (hs : s ∈ m.states) :
    WellFormedEdges m.names .event s.eventEdges := by
  have hshape := (h.state s hs).shape
  unfold State.eventEdges
  cases hsh : s.shape with
  | branching es ts =>
    rw [hsh] at hshape
    exact hshape.1
  | passThrough next => exact ⟨List.nodup_nil, by simp⟩
  | final => exact ⟨List.nodup_nil, by simp⟩

theorem timerEdges (h : m.WellFormed) {s : State} (hs : s ∈ m.states) :
    WellFormedEdges m.names .timer s.timerEdges := by
  have hshape := (h.state s hs).shape
  unfold State.timerEdges
  cases hsh : s.shape with
  | branching es ts =>
    rw [hsh] at hshape
    exact hshape.2
  | passThrough next => exact ⟨List.nodup_nil, by simp⟩
  | final => exact ⟨List.nodup_nil, by simp⟩

/-- Every edge of a state is well-formed for its kind of invoker. -/
theorem edge (h : m.WellFormed) {s : State} (hs : s ∈ m.states) {e : Edge} (he : e ∈ s.edges) :
    e.WellFormed m.names e.kind := by
  rcases List.mem_append.mp he with he | he
  · have hwf := (h.eventEdges hs).edge e he
    rwa [hwf.kind_eq]
  · have hwf := (h.timerEdges hs).edge e he
    rwa [hwf.kind_eq]

end Machine.WellFormed

end TimedMachine
