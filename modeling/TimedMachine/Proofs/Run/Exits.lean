import TimedMachine.Proofs.Machine.OfToken
import TimedMachine.Proofs.Run.Tables

/-!
# Nothing is lost between names and positions

The tables of a machine look up every name once and leave out what they do not find. In a machine
that was loaded they leave out nothing: `Machine.tables_faithful` says what each table holds, that
every name in the machine has a position, and that the moves out of a configuration are the exits of
its situation, one by one and in the same order. The exits are listed by name, with no look-up of a
state (`Machine.exits`).

Positions of states, timers and events are bounded by their types. The position of an edge is a mere
number, and so it is part of the statement that there is an edge at it.
-/

namespace TimedMachine

/-! ## Exits by name -/

/-- The states that a choice leads to: one or none. -/
def Choice.exit? (label : String → Label) (c : Choice) : Option (Label × String) :=
  c.target.state?.map (label c.name, ·)

/-- The states that an edge leads to, in order. -/
def Edge.exits (e : Edge) : List (Label × String) :=
  match e.targets with
  | .single target => (target.state?.map (Label.invoker e.kind e.invoker none, ·)).toList
  | .decision choices => choices.filterMap (·.exit? fun c => .invoker e.kind e.invoker (some c))

/-- The states that a passing state goes on to, in order. -/
def NextState.exits : NextState → List (Label × String)
  | .state name => [(.nextState, name)]
  | .decision choices => choices.filterMap (·.exit? .onEnter)

/-- The names of all states that a state leads to. -/
def State.destinations (s : State) : List String :=
  match s.shape with
  | .final => []
  | .passThrough next => next.exits.map Prod.snd
  | .branching eventEdges timerEdges =>
    (eventEdges ++ timerEdges).flatMap fun e => e.exits.map Prod.snd

instance (c : Situation) (e : Event) : Decidable (c.Enables e) :=
  inferInstanceAs (Decidable (e.name ∈ c.armed ∧ ¬(e.onlyOnce = true ∧ e.name ∈ c.fired)))

/-- The ways out of a situation: those by the events that may come, in the order of their
declaration, and then those by the timers that run. -/
def Machine.exits (m : Machine) (c : Situation) : List (Label × String) :=
  match c.state.shape with
  | .final => []
  | .passThrough next => next.exits
  | .branching _ _ =>
    (m.events.filter fun e => c.Enables e).flatMap
      (fun e => (c.state.eventEdge? e.name).elim [] Edge.exits) ++
    (m.timers.filter fun t => t.name ∈ c.running).flatMap
      fun t => (c.state.timerEdge? t.name).elim [] Edge.exits

namespace Plan

variable {S T E : Nat}

/-- The entry of a state's table for an event; a state that does not branch has none. -/
def eventSlot? (p : Plan S T E) (s : Fin S) (e : Fin E) : Option (Slot S E) :=
  match (p.rows.get s).body with
  | .branching onEvent _ => onEvent.get e
  | .final | .passing _ => none

/-- The entry of a state's table for a timer; a state that does not branch has none. -/
def timerSlot? (p : Plan S T E) (s : Fin S) (t : Fin T) : Option (Slot S E) :=
  match (p.rows.get s).body with
  | .branching _ onTimer => onTimer.get t
  | .final | .passing _ => none

end Plan

namespace Machine

variable {m : Machine}

/-! ## Positions in tables -/

theorem exists_getElem?_cons {α : Type} {a : α} {l : List α} {P : Nat → α → Prop} :
    (∃ p b, (a :: l)[p]? = some b ∧ P p b) ↔ P 0 a ∨ ∃ p b, l[p]? = some b ∧ P (p + 1) b := by
  constructor
  · rintro ⟨p, b, hb, hP⟩
    cases p with
    | zero =>
      obtain rfl := Option.some.inj hb
      exact .inl hP
    | succ p => exact .inr ⟨p, b, hb, hP⟩
  · rintro (hP | ⟨p, b, hb, hP⟩)
    · exact ⟨0, a, rfl, hP⟩
    · exact ⟨p + 1, b, hb, hP⟩

section EdgeTable

variable {n : Nat} {index? : String → Option (Fin n)} {moves : Edge → Fin n → m.Moves}
  {es : List Edge} {i : Fin n} {name : String}

/-- At the position of a name there is the edge with that name, and where it stands in the list. -/
theorem get_edgeTable_eq_some (hindex : ∀ other, index? other = some i ↔ name = other)
    (hes : (es.map Edge.invoker).Nodup) (position : Nat)
    {slot : Slot m.states.length m.events.length} :
    (m.edgeTable index? moves position es).get i = some slot ↔
      ∃ p e, es[p]? = some e ∧ e.invoker = name ∧ slot = ⟨position + p, moves e i⟩ := by
  induction es generalizing position with
  | nil =>
    rw [edgeTable, Plan.get_replicate]
    simp
  | cons e es ih =>
    rw [List.map_cons, List.nodup_cons] at hes
    have hrest := ih hes.2 (position + 1)
    simp only [Nat.add_assoc, Nat.add_comm 1] at hrest
    rw [exists_getElem?_cons, edgeTable]
    by_cases he : e.invoker = name
    · -- no later edge has the name
      have hi : index? e.invoker = some i := (hindex _).mpr he.symm
      have hlater : ¬∃ p e', es[p]? = some e' ∧ e'.invoker = name ∧
          slot = ⟨position + (p + 1), moves e' i⟩ := by
        rintro ⟨p, e', he', hname, -⟩
        exact hes.1 (List.mem_map.mpr ⟨e', List.mem_of_getElem? he', hname.trans he.symm⟩)
      rw [or_iff_left hlater, and_iff_right he, hi]
      dsimp only
      rw [Plan.get_set, if_pos rfl, Option.some.injEq, eq_comm]
      rfl
    · have hi : index? e.invoker ≠ some i := fun h => he ((hindex _).mp h).symm
      cases hj : index? e.invoker with
      | none => simp [he, hrest]
      | some j =>
        have hij : j ≠ i := fun h => hi (h ▸ hj)
        simp [he, hrest, Plan.get_set, hij]

/-- A table is faithful to a list of edges. At the position of a name there is a position of the
list if and only if the edge there has the name; then it is the edge that a look-up by name finds,
and the moves are those along it. Every edge has its place in the table. -/
structure FaithfulTable (es : List Edge) (name : Fin n → String) (moves : Edge → Fin n → m.Moves)
    (slot? : Fin n → Option (Slot m.states.length m.events.length)) : Prop where
  position_iff : ∀ i p, (slot? i).map Slot.position = some p ↔
    ∃ e, es[p]? = some e ∧ e.invoker = name i
  edge : ∀ i slot, slot? i = some slot → ∃ e, es[slot.position]? = some e ∧
    es.find? (·.invoker == name i) = some e ∧ slot.moves = moves e i
  occurs : ∀ p e, es[p]? = some e → ∃ i, (slot? i).map Slot.position = some p

theorem faithful_edgeTable {name : Fin n → String}
    (hindex : ∀ i other, index? other = some i ↔ name i = other)
    (hes : (es.map Edge.invoker).Nodup) (hdeclared : ∀ e ∈ es, ∃ i, name i = e.invoker) :
    FaithfulTable es name moves (m.edgeTable index? moves 0 es).get := by
  have hsome : ∀ i slot, (m.edgeTable index? moves 0 es).get i = some slot ↔
      ∃ p e, es[p]? = some e ∧ e.invoker = name i ∧ slot = ⟨p, moves e i⟩ := by
    intro i slot
    simpa using get_edgeTable_eq_some (hindex i) hes 0
  have hposition : ∀ i p, ((m.edgeTable index? moves 0 es).get i).map Slot.position = some p ↔
      ∃ e, es[p]? = some e ∧ e.invoker = name i := by
    intro i p
    simp only [Option.map_eq_some_iff, hsome]
    constructor
    · rintro ⟨_, ⟨p, e, he, hname, rfl⟩, rfl⟩
      exact ⟨e, he, hname⟩
    · rintro ⟨e, he, hname⟩
      exact ⟨_, ⟨p, e, he, hname, rfl⟩, rfl⟩
  refine ⟨hposition, fun i slot hslot => ?_, fun p e he => ?_⟩
  · obtain ⟨p, e, he, hname, rfl⟩ := (hsome i slot).mp hslot
    obtain ⟨j, rfl⟩ := List.get_of_mem (List.mem_of_getElem? he)
    exact ⟨_, he, hname ▸ find?_name hes j, rfl⟩
  · obtain ⟨i, hi⟩ := hdeclared e (List.mem_of_getElem? he)
    exact ⟨i, (hposition i p).mpr ⟨e, he, hi.symm⟩⟩

theorem faithful_nil (name : Fin n → String) (moves : Edge → Fin n → m.Moves) :
    FaithfulTable [] name moves fun _ => none :=
  ⟨by simp, by simp, by simp⟩

end EdgeTable

/-- The table of a state for events is faithful to its edges for events. -/
theorem faithful_eventSlot? (h : m.WellFormed) (s : Fin m.states.length) :
    FaithfulTable (m.states.get s).eventEdges m.eventName (fun e i => m.edgeMoves e (some i))
      (m.plan.eventSlot? s) := by
  have hedges := h.eventEdges (List.get_mem m.states s)
  unfold State.eventEdges at hedges ⊢
  unfold Plan.eventSlot?
  rw [body_eq]
  cases hshape : (m.states.get s).shape with
  | branching es ts =>
    rw [hshape] at hedges
    exact faithful_edgeTable (fun _ _ => eventIndex?_eq_some h) hedges.nodup
      fun e he => exists_position (hedges.edge e he).declared
  | passThrough next => exact faithful_nil _ _
  | final => exact faithful_nil _ _

/-- The table of a state for timers is faithful to its edges for timers. -/
theorem faithful_timerSlot? (h : m.WellFormed) (s : Fin m.states.length) :
    FaithfulTable (m.states.get s).timerEdges m.timerName (fun e _ => m.edgeMoves e none)
      (m.plan.timerSlot? s) := by
  have hedges := h.timerEdges (List.get_mem m.states s)
  unfold State.timerEdges at hedges ⊢
  unfold Plan.timerSlot?
  rw [body_eq]
  cases hshape : (m.states.get s).shape with
  | branching es ts =>
    rw [hshape] at hedges
    exact faithful_edgeTable (fun _ _ => timerIndex?_eq_some h) hedges.nodup
      fun e he => exists_position (hedges.edge e he).declared
  | passThrough next => exact faithful_nil _ _
  | final => exact faithful_nil _ _

/-! ## Moves are exits -/

/-- A move in words: its label and the name of the state that it leads to. -/
def moveName (m : Machine) (mv : Move m.states.length m.events.length) : Label × String :=
  (mv.label, m.stateName mv.target)

theorem map_moveTo? (h : m.WellFormed) {target : Target} (htarget : target.WellFormed m.names)
    (label : Label) (event : Option (Fin m.events.length)) :
    (m.moveTo? target label event).map m.moveName = target.state?.map (label, ·) := by
  unfold moveTo?
  cases hstate : target.state? with
  | none => rfl
  | some name =>
    -- a state that is named is declared, so the look-up finds it
    obtain ⟨s, rfl⟩ := exists_position (f := State.name) (htarget name hstate)
    have hs : m.stateIndex? (m.stateName s) = some s := (stateIndex?_eq_some h).mpr rfl
    rw [Option.bind_some, hs]
    rfl

theorem map_choiceMoves (h : m.WellFormed) {choices : List Choice}
    (hchoices : WellFormedDecision m.names choices) (label : String → Label)
    (event : Option (Fin m.events.length)) :
    (choices.filterMap fun c => m.moveTo? c.target (label c.name) event).map m.moveName =
      choices.filterMap (·.exit? label) := by
  rw [List.map_filterMap]
  refine List.filterMap_congr fun c hc => ?_
  exact map_moveTo? h (hchoices.target c hc) (label c.name) event

theorem map_edgeMoves (h : m.WellFormed) {e : Edge} (he : e.targets.WellFormed m.names)
    (event : Option (Fin m.events.length)) : (m.edgeMoves e event).map m.moveName = e.exits := by
  unfold edgeMoves Edge.exits
  cases htargets : e.targets with
  | single target =>
    rw [htargets] at he
    dsimp only
    rw [← Option.toList_map, map_moveTo? h he]
  | decision choices =>
    rw [htargets] at he
    exact map_choiceMoves h he (fun c => .invoker e.kind e.invoker (some c)) event

theorem map_nextMoves (h : m.WellFormed) {next : NextState} (hnext : next.WellFormed m.names) :
    (m.nextMoves next).map m.moveName = next.exits := by
  cases next with
  | state name =>
    have hname : (Target.state name).WellFormed m.names := by
      rintro _ ⟨⟩
      exact hnext
    show (m.moveTo? (.state name) .nextState none).toList.map m.moveName = [(.nextState, name)]
    rw [← Option.toList_map, map_moveTo? h hname]
    rfl
  | decision choices => exact map_choiceMoves h hnext .onEnter none

/-- The moves at the position of a name are the exits of the edge that a look-up by name finds. -/
theorem map_slotMoves_edgeTable {n : Nat} {index? : String → Option (Fin n)}
    {moves : Edge → Fin n → m.Moves} {i : Fin n} {name : String} {es : List Edge}
    (hindex : ∀ other, index? other = some i ↔ name = other)
    (hmoves : ∀ e ∈ es, (moves e i).map m.moveName = e.exits) :
    (Plan.slotMoves ((m.edgeTable index? moves 0 es).get i)).map m.moveName =
      (es.find? (·.invoker == name)).elim [] Edge.exits := by
  have hpred : (fun e : Edge => decide (index? e.invoker = some i)) = (·.invoker == name) := by
    funext e
    rw [Bool.eq_iff_iff, decide_eq_true_eq, hindex, beq_iff_eq, eq_comm]
  rw [Plan.slotMoves_eq, get_edgeTable, hpred]
  cases hfind : es.find? (·.invoker == name) with
  | none => rfl
  | some e => exact hmoves e (List.mem_of_find?_eq_some hfind)

/-- What is done for the members of a list with a property, and for the positions of a mask that has
the same members. -/
theorem flatMap_toList_mask {α β : Type} {l : List α} {mask : Mask l.length} {P : α → Prop}
    [DecidablePred P] (hmask : ∀ i, i ∈ mask ↔ P (l.get i)) (g : α → List β) :
    mask.toList.flatMap (fun i => g (l.get i)) = (l.filter P).flatMap g := by
  conv_rhs => rw [← List.map_get_finRange l]
  rw [List.filter_map, List.flatMap_map, Mask.toList]
  refine congrArg (List.flatMap _) (List.filter_congr fun i _ => ?_)
  simp only [Function.comp_apply, hmask]

/-- By its tables a machine goes on from a configuration just as its situation says by name, with
the same exits in the same order. -/
theorem map_moves (h : m.WellFormed)
    (c : Configuration m.states.length m.timers.length m.events.length) :
    (m.plan.moves c).map m.moveName = m.exits (m.situation c) := by
  have hshape := (h.state _ (List.get_mem m.states c.state)).shape
  unfold Plan.moves exits
  rw [body_eq]
  have hstate : (m.situation c).state = m.states.get c.state := rfl
  rw [hstate]
  unfold State.eventEdge? State.timerEdge? State.eventEdges State.timerEdges
  cases hsh : (m.states.get c.state).shape with
  | final => rfl
  | passThrough next =>
    rw [hsh] at hshape
    exact map_nextMoves h hshape
  | branching es ts =>
    rw [hsh] at hshape
    obtain ⟨hes, hts⟩ := hshape
    have hevent : ∀ e : Fin m.events.length,
        (Plan.slotMoves ((m.eventTable es).get e)).map m.moveName =
          (es.find? (·.invoker == m.eventName e)).elim [] Edge.exits := by
      intro e
      refine map_slotMoves_edgeTable (fun _ => eventIndex?_eq_some h) fun edge hedge => ?_
      exact map_edgeMoves h (hes.edge edge hedge).targets (some e)
    have htimer : ∀ t : Fin m.timers.length,
        (Plan.slotMoves ((m.timerTable ts).get t)).map m.moveName =
          (ts.find? (·.invoker == m.timerName t)).elim [] Edge.exits := by
      intro t
      refine map_slotMoves_edgeTable (fun _ => timerIndex?_eq_some h) fun edge hedge => ?_
      exact map_edgeMoves h (hts.edge edge hedge).targets none
    dsimp only
    rw [List.map_append, List.map_flatMap, List.map_flatMap]
    simp only [hevent, htimer]
    exact congrArg₂ (· ++ ·)
      (flatMap_toList_mask (fun _ => (enables_iff h).symm)
        fun e : Event => (es.find? (·.invoker == e.name)).elim [] Edge.exits)
      (flatMap_toList_mask (fun _ => (timer_mem_running h).symm)
        fun t : Timer => (ts.find? (·.invoker == t.name)).elim [] Edge.exits)

/-! ## Every name has a position -/

theorem findFinIdx?_val_eq_some {α : Type} {f : α → String} {l : List α} (h : (l.map f).Nodup)
    {name : String} {i : Nat} :
    (l.findFinIdx? (f · == name)).map Fin.val = some i ↔ l[i]?.map f = some name := by
  simp only [Option.map_eq_some_iff, findFinIdx?_name_eq_some h]
  constructor
  · rintro ⟨i, hi, rfl⟩
    exact ⟨l.get i, List.getElem?_eq_getElem i.isLt, hi⟩
  · rintro ⟨a, ha, rfl⟩
    obtain ⟨hi, rfl⟩ := List.getElem?_eq_some_iff.mp ha
    exact ⟨⟨i, hi⟩, rfl, rfl⟩

theorem exists_index_of_mem {α : Type} {f : α → String} {l : List α} (h : (l.map f).Nodup)
    {name : String} (hname : name ∈ l.map f) : ∃ i, l.findFinIdx? (f · == name) = some i := by
  obtain ⟨i, hi⟩ := exists_position hname
  exact ⟨i, (findFinIdx?_name_eq_some h).mpr hi⟩

/-- What moves lead to has a position. -/
theorem exists_index_of_mem_moves (h : m.WellFormed) {moves : m.Moves} {name : String}
    (hname : name ∈ (moves.map m.moveName).map Prod.snd) : ∃ s, m.stateIndex? name = some s := by
  rw [List.map_map] at hname
  obtain ⟨mv, _, rfl⟩ := List.mem_map.mp hname
  exact ⟨mv.target, (stateIndex?_eq_some h).mpr rfl⟩

theorem exists_index_of_mem_destinations (h : m.WellFormed) {s : State} (hs : s ∈ m.states)
    {name : String} (hname : name ∈ s.destinations) : ∃ i, m.stateIndex? name = some i := by
  have hshape := (h.state s hs).shape
  unfold State.destinations at hname
  cases hsh : s.shape with
  | final => simp [hsh] at hname
  | passThrough next =>
    rw [hsh] at hshape hname
    have hname : name ∈ next.exits.map Prod.snd := hname
    rw [← map_nextMoves h hshape] at hname
    exact exists_index_of_mem_moves h hname
  | branching es ts =>
    rw [hsh] at hshape hname
    obtain ⟨e, he, hname⟩ := List.mem_flatMap.mp hname
    have htargets : e.targets.WellFormed m.names := by
      rcases List.mem_append.mp he with he | he
      · exact (hshape.1.edge e he).targets
      · exact (hshape.2.edge e he).targets
    rw [← map_edgeMoves h htargets none] at hname
    exact exists_index_of_mem_moves h hname

/-- In the tables of a machine that was loaded everything has its place. A name has a position if
and only if the state there has the name. The tables of edges are faithful, and the sets of a row
hold just the timers that the state starts and stops and the events that it arms. Every timer, event
and state that is named has a position, the start state among them. So no move is left out: the
moves out of any configuration are the exits of its situation, in order. -/
theorem tables_faithful {t : Token} (h : ofToken t = .ok m) :
    (∀ name (i : Nat), (m.stateIndex? name).map Fin.val = some i ↔
      m.states[i]?.map State.name = some name) ∧
    (∀ s, FaithfulTable (m.states.get s).eventEdges m.eventName
      (fun e i => m.edgeMoves e (some i)) (m.plan.eventSlot? s)) ∧
    (∀ s, FaithfulTable (m.states.get s).timerEdges m.timerName
      (fun e _ => m.edgeMoves e none) (m.plan.timerSlot? s)) ∧
    (∀ s i, i ∈ (m.plan.rows.get s).starts ↔
      (m.states.get s).startsTimer (m.timerName i) = true) ∧
    (∀ s i, i ∈ (m.plan.rows.get s).stops ↔
      (m.states.get s).stopsTimer (m.timerName i) = true) ∧
    (∀ s i, i ∈ (m.plan.rows.get s).arms ↔
      (m.events.get i).isArmedBy (m.stateName s) = true) ∧
    (∀ s ∈ m.states,
      (∀ start ∈ s.startTimers, ∃ i, m.timerIndex? start.timer = some i) ∧
      (∀ timer ∈ s.stopTimers, ∃ i, m.timerIndex? timer = some i) ∧
      (∀ e ∈ s.eventEdges, ∃ i, m.eventIndex? e.invoker = some i) ∧
      (∀ e ∈ s.timerEdges, ∃ i, m.timerIndex? e.invoker = some i) ∧
      ∀ name ∈ s.destinations, ∃ i, m.stateIndex? name = some i) ∧
    (∃ s, m.plan.start = some s ∧ m.stateName s = m.startState) ∧
    ∀ c, (m.plan.moves c).map m.moveName = m.exits (m.situation c) := by
  have hm := wellFormed_of_ofToken h
  refine ⟨fun name i => findFinIdx?_val_eq_some hm.states_nodup, faithful_eventSlot? hm,
    faithful_timerSlot? hm, fun s i => mem_starts, fun s i => mem_stops, fun s i => mem_arms,
    fun s hs => ?_, ?_, map_moves hm⟩
  · have hwf := hm.state s hs
    refine ⟨fun start hstart => ?_, fun timer htimer => ?_, fun e he => ?_, fun e he => ?_,
      fun name => exists_index_of_mem_destinations hm hs⟩
    · exact exists_index_of_mem hm.timers_nodup (hwf.starts_declared start hstart)
    · exact exists_index_of_mem hm.timers_nodup (hwf.stops_declared timer htimer)
    · exact exists_index_of_mem hm.events_nodup ((hm.eventEdges hs).edge e he).declared
    · exact exists_index_of_mem hm.timers_nodup ((hm.timerEdges hs).edge e he).declared
  · obtain ⟨s, hs⟩ := exists_position (f := State.name) hm.start_declared
    exact ⟨s, (stateIndex?_eq_some hm).mpr hs, hs⟩

/-- The only edge of the open door is for the second event, to close it, and stands in the table at
that event's position. -/
theorem tables_faithful_door :
    ofToken (.ofJson door) = .ok doorMachine ∧
    (doorMachine.plan.eventSlot? ⟨0, by decide⟩ ⟨1, by decide⟩).map Slot.position = some 0 := by
  obtain ⟨-, hevents, -⟩ := tables_faithful ofToken_door
  exact ⟨ofToken_door, ((hevents ⟨0, by decide⟩).position_iff ⟨1, by decide⟩ 0).mpr ⟨_, rfl, rfl⟩⟩

end Machine

end TimedMachine
