import TimedMachine.Proofs.Run.Names
import TimedMachine.Proofs.Run.Plan

/-!
# The tables say what the machine says

By its tables, a well-formed machine goes on from a configuration just as it does by name from the
situation that the configuration stands for, and the same is wrong with both.
-/

namespace TimedMachine

/-! ## Edges of a shape -/

theorem State.mem_eventEdges {s : State} {edge : Edge} :
    edge ∈ s.eventEdges ↔ ∃ es ts, s.shape = .branching es ts ∧ edge ∈ es := by
  unfold State.eventEdges
  cases s.shape <;> simp

theorem State.mem_timerEdges {s : State} {edge : Edge} :
    edge ∈ s.timerEdges ↔ ∃ es ts, s.shape = .branching es ts ∧ edge ∈ ts := by
  unfold State.timerEdges
  cases s.shape <;> simp

/-- The states that well-formed targets lead to are declared. -/
theorem Targets.WellFormed.of_lead {ns : Names} {targets : Targets} (h : targets.WellFormed ns)
    {choice : Option String} {name : String} (hlead : targets.Lead choice name) :
    name ∈ ns.states := by
  cases hlead with
  | single => exact h name rfl
  | choice hc htarget => exact h.target _ hc name (by rw [htarget]; rfl)

namespace Machine

variable {m : Machine}

/-! ## Moves along targets -/

theorem moveTo?_eq_some (h : m.WellFormed) {target : Target} {label : Label}
    {event : Option (Fin m.events.length)} {mv : Move m.states.length m.events.length} :
    m.moveTo? target label event = some mv ↔
      target = .state (m.stateName mv.target) ∧ mv.label = label ∧ mv.event = event := by
  obtain ⟨s, label', event'⟩ := mv
  cases target with
  | state name =>
    simp only [moveTo?, Target.state?, Option.bind_some, Option.map_eq_some_iff,
      stateIndex?_eq_some h, Move.mk.injEq, Target.state.injEq]
    constructor
    · rintro ⟨s, hs, rfl, rfl, rfl⟩
      exact ⟨hs.symm, rfl, rfl⟩
    · rintro ⟨rfl, rfl, rfl⟩
      exact ⟨s, rfl, rfl, rfl, rfl⟩
  | noChange => simp [moveTo?, Target.state?]
  | failure => simp [moveTo?, Target.state?]

/-- The moves along an edge lead where its targets do. -/
theorem mem_edgeMoves (h : m.WellFormed) {edge : Edge} {event : Option (Fin m.events.length)}
    {mv : Move m.states.length m.events.length} :
    mv ∈ m.edgeMoves edge event ↔ mv.event = event ∧ ∃ choice,
      edge.targets.Lead choice (m.stateName mv.target) ∧
      mv.label = .invoker edge.kind edge.invoker choice := by
  unfold edgeMoves
  cases edge.targets with
  | single target =>
    rw [Option.mem_toList, moveTo?_eq_some h]
    constructor
    · rintro ⟨rfl, hlabel, hevent⟩
      exact ⟨hevent, none, .single, hlabel⟩
    · rintro ⟨hevent, choice, ⟨⟩, hlabel⟩
      exact ⟨rfl, hlabel, hevent⟩
  | decision choices =>
    simp only [List.mem_filterMap, moveTo?_eq_some h]
    constructor
    · rintro ⟨c, hc, htarget, hlabel, hevent⟩
      exact ⟨hevent, some c.name, .choice hc htarget, hlabel⟩
    · rintro ⟨hevent, choice, hlead, hlabel⟩
      generalize hname : m.stateName mv.target = name at hlead
      cases hlead with
      | @choice _ c _ hc htarget => exact ⟨c, hc, hname ▸ htarget, hlabel, hevent⟩

/-! ## Tables of edges -/

/-- At a position there is what belongs to the first edge with an invoker there. -/
theorem get_edgeTable {n : Nat} (index? : String → Option (Fin n))
    (moves : Edge → Fin n → m.Moves) (position : Nat) (es : List Edge) (i : Fin n) :
    ((m.edgeTable index? moves position es).get i).map Slot.moves =
      (es.find? fun e => index? e.invoker = some i).map (moves · i) := by
  induction es generalizing position with
  | nil =>
    rw [edgeTable, Plan.get_replicate]
    rfl
  | cons e es ih =>
    rw [edgeTable]
    cases hj : index? e.invoker with
    | none => simpa [hj] using ih (position + 1)
    | some j =>
      -- the entry that is set here hides those of later edges
      by_cases hij : j = i
      · simp [hj, hij, Plan.get_set]
      · simpa [hj, hij, Plan.get_set] using ih (position + 1)

section EdgeTable

variable {n : Nat} {index? : String → Option (Fin n)} {moves : Edge → Fin n → m.Moves}
  {position : Nat} {es : List Edge} {i : Fin n} {name : String}

theorem edgeTable_eq_none (hindex : ∀ other, index? other = some i ↔ name = other) :
    (m.edgeTable index? moves position es).get i = none ↔ ∀ e ∈ es, e.invoker ≠ name := by
  rw [← Option.map_eq_none_iff (f := Slot.moves), get_edgeTable, Option.map_eq_none_iff,
    List.find?_eq_none]
  simp only [hindex, decide_eq_true_eq]
  exact forall₂_congr fun _ _ => not_congr eq_comm

/-- No two edges have the same invoker, so the first one there is the only one. -/
theorem mem_slotMoves_edgeTable (hindex : ∀ other, index? other = some i ↔ name = other)
    (hes : (es.map Edge.invoker).Nodup) {mv : Move m.states.length m.events.length} :
    mv ∈ Plan.slotMoves ((m.edgeTable index? moves position es).get i) ↔
      ∃ e ∈ es, e.invoker = name ∧ mv ∈ moves e i := by
  rw [Plan.slotMoves_eq, get_edgeTable]
  constructor
  · intro hmv
    cases hfind : es.find? fun e => index? e.invoker = some i with
    | none => simp [hfind] at hmv
    | some e =>
      rw [hfind] at hmv
      have he := List.find?_some hfind
      rw [decide_eq_true_eq, hindex] at he
      exact ⟨e, List.mem_of_find?_eq_some hfind, he.symm, hmv⟩
  · rintro ⟨e, he, rfl, hmv⟩
    have hfind : (es.find? fun e => index? e.invoker = some i) = some e := by
      have hpred : (fun e' => decide (index? e'.invoker = some i)) =
          fun e' : Edge => e'.invoker == e.invoker := by
        funext e'
        rw [Bool.eq_iff_iff, decide_eq_true_eq, hindex, beq_iff_eq, eq_comm]
      obtain ⟨j, rfl⟩ := List.get_of_mem he
      rw [hpred]
      exact find?_name hes j
    rw [hfind]
    exact hmv

end EdgeTable

/-! ## Moves -/

variable {c : Configuration m.states.length m.timers.length m.events.length}
  {mv : Move m.states.length m.events.length}

theorem body_eq (s : Fin m.states.length) : (m.plan.rows.get s).body =
    match (m.states.get s).shape with
    | .final => .final
    | .passThrough next => .passing (m.nextMoves next)
    | .branching es ts => .branching (m.eventTable es) (m.timerTable ts) := by
  rw [get_rows]
  rfl

theorem WellFormed.branching (h : m.WellFormed) {s : Fin m.states.length} {es ts : List Edge}
    (hshape : (m.states.get s).shape = .branching es ts) :
    WellFormedEdges m.names .event es ∧ WellFormedEdges m.names .timer ts := by
  have hwf := (h.state _ (List.get_mem _ s)).shape
  rw [hshape] at hwf
  exact hwf

/-- The moves out of a branching state are those along the edges of the events that may come and
of the timers that run. -/
theorem mem_moves_branching (h : m.WellFormed) {es ts : List Edge}
    (hshape : (m.states.get c.state).shape = .branching es ts) :
    mv ∈ m.plan.moves c ↔
      (∃ e, e ∈ m.plan.enabled c ∧ ∃ edge ∈ es, edge.invoker = m.eventName e ∧
        mv ∈ m.edgeMoves edge (some e)) ∨
      (∃ t, t ∈ c.running ∧ ∃ edge ∈ ts, edge.invoker = m.timerName t ∧
        mv ∈ m.edgeMoves edge none) := by
  obtain ⟨hes, hts⟩ := h.branching hshape
  have hevent : ∀ e : Fin m.events.length, mv ∈ Plan.slotMoves ((m.eventTable es).get e) ↔
      ∃ edge ∈ es, edge.invoker = m.eventName e ∧ mv ∈ m.edgeMoves edge (some e) :=
    fun e => mem_slotMoves_edgeTable (fun _ => eventIndex?_eq_some h) hes.nodup
  have htimer : ∀ t : Fin m.timers.length, mv ∈ Plan.slotMoves ((m.timerTable ts).get t) ↔
      ∃ edge ∈ ts, edge.invoker = m.timerName t ∧ mv ∈ m.edgeMoves edge none :=
    fun t => mem_slotMoves_edgeTable (fun _ => timerIndex?_eq_some h) hts.nodup
  simp only [Plan.moves, body_eq, hshape, List.mem_append, List.mem_flatMap, Mask.mem_toList,
    hevent, htimer]

/-- A move of the tables is a way to go on, by the event that its label names. -/
theorem leads_of_mem_moves (h : m.WellFormed) (hmv : mv ∈ m.plan.moves c) :
    m.Leads (m.situation c) mv.label (m.stateName mv.target) ∧
      mv.event.map m.eventName = mv.label.event? := by
  cases hshape : (m.states.get c.state).shape with
  | final => simp only [Plan.moves, body_eq, hshape, List.not_mem_nil] at hmv
  | passThrough next =>
    simp only [Plan.moves, body_eq, hshape] at hmv
    cases next with
    | state name =>
      obtain ⟨htarget, hlabel, hevent⟩ := (moveTo?_eq_some h).mp (Option.mem_toList.mp hmv)
      cases htarget
      rw [hlabel, hevent]
      exact ⟨.next hshape, rfl⟩
    | decision choices =>
      obtain ⟨choice, hchoice, hmove⟩ := List.mem_filterMap.mp hmv
      obtain ⟨htarget, hlabel, hevent⟩ := (moveTo?_eq_some h).mp hmove
      rw [hlabel, hevent]
      exact ⟨.onEnter hshape hchoice htarget, rfl⟩
  | branching es ts =>
    -- the move is along an edge of an event that may come, or of a timer that runs
    obtain ⟨hes, hts⟩ := h.branching hshape
    rcases (mem_moves_branching h hshape).mp hmv with
      ⟨e, he, edge, hedge, hinvoker, hmove⟩ | ⟨t, ht, edge, hedge, hinvoker, hmove⟩
    · obtain ⟨hevent, choice, hlead, hlabel⟩ := (mem_edgeMoves h).mp hmove
      rw [hlabel, hevent, (hes.edge edge hedge).kind_eq, hinvoker]
      exact ⟨.event (List.get_mem _ _) ((enables_iff h).mpr he)
        (State.mem_eventEdges.mpr ⟨es, ts, hshape, hedge⟩) hinvoker hlead, rfl⟩
    · obtain ⟨hevent, choice, hlead, hlabel⟩ := (mem_edgeMoves h).mp hmove
      rw [hlabel, hevent, (hts.edge edge hedge).kind_eq]
      refine ⟨.timer (State.mem_timerEdges.mpr ⟨es, ts, hshape, hedge⟩) ?_ hlead, rfl⟩
      rw [hinvoker]
      exact (timer_mem_running h).mpr ht

/-- Each way to go on is a move of the tables. -/
theorem exists_move_of_leads (h : m.WellFormed) {label : Label} {name : String}
    (hleads : m.Leads (m.situation c) label name) :
    ∃ mv ∈ m.plan.moves c, mv.label = label ∧ m.stateName mv.target = name := by
  have hshape' := (h.state _ (List.get_mem _ c.state)).shape
  cases hleads with
  | next hshape =>
    have hshape : (m.states.get c.state).shape = .passThrough (.state name) := hshape
    rw [hshape] at hshape'
    -- the next state is declared, so it has a position, and a move leads there
    obtain ⟨s, rfl⟩ := exists_position (f := State.name) (l := m.states) hshape'
    refine ⟨⟨s, .nextState, none⟩, ?_, rfl, rfl⟩
    simp only [Plan.moves, body_eq, hshape, nextMoves, Option.mem_toList]
    exact (moveTo?_eq_some h).mpr ⟨rfl, rfl, rfl⟩
  | @onEnter choices choice name hshape hchoice htarget =>
    have hshape : (m.states.get c.state).shape = .passThrough (.decision choices) := hshape
    rw [hshape] at hshape'
    obtain ⟨s, rfl⟩ := exists_position (f := State.name) (l := m.states)
      (hshape'.target choice hchoice name (by rw [htarget]; rfl))
    refine ⟨⟨s, .onEnter choice.name, none⟩, ?_, rfl, rfl⟩
    simp only [Plan.moves, body_eq, hshape, nextMoves, List.mem_filterMap]
    exact ⟨choice, hchoice, (moveTo?_eq_some h).mpr ⟨htarget, rfl, rfl⟩⟩
  | @event e edge choice name he henables hedge hinvoker hlead =>
    obtain ⟨es, ts, hshape, hedge⟩ := State.mem_eventEdges.mp hedge
    have hedgewf := (h.branching hshape).1.edge edge hedge
    obtain ⟨s, rfl⟩ := exists_position (f := State.name) (hedgewf.targets.of_lead hlead)
    obtain ⟨i, rfl⟩ := List.get_of_mem he
    refine ⟨⟨s, .invoker .event (m.eventName i) choice, some i⟩, ?_, rfl, rfl⟩
    refine (mem_moves_branching h hshape).mpr (.inl ⟨i, (enables_iff h).mp henables, edge,
      hedge, hinvoker, (mem_edgeMoves h).mpr ⟨rfl, choice, hlead, ?_⟩⟩)
    rw [hedgewf.kind_eq, hinvoker]
  | @timer edge choice name hedge hrunning hlead =>
    obtain ⟨es, ts, hshape, hedge⟩ := State.mem_timerEdges.mp hedge
    have hedgewf := (h.branching hshape).2.edge edge hedge
    obtain ⟨s, rfl⟩ := exists_position (f := State.name) (hedgewf.targets.of_lead hlead)
    obtain ⟨t, ht, hinvoker⟩ := Mask.mem_names.mp hrunning
    refine ⟨⟨s, .invoker .timer edge.invoker choice, none⟩, ?_, rfl, rfl⟩
    refine (mem_moves_branching h hshape).mpr (.inr ⟨t, ht, edge, hedge, hinvoker.symm,
      (mem_edgeMoves h).mpr ⟨rfl, choice, hlead, ?_⟩⟩)
    rw [hedgewf.kind_eq]

/-! ## Problems -/

/-- A problem of the tables in names. -/
def fault (m : Machine) : Problem m.states.length m.timers.length m.events.length → Fault
  | .unhandledEvent s e => .unhandledEvent (m.stateName s) (m.eventName e)
  | .missingTimerEdge s t => .missingTimerEdge (m.stateName s) (m.timerName t)
  | .ghostTimerEdge s t => .ghostTimerEdge (m.stateName s) (m.timerName t)
  | .stall s => .stall (m.stateName s)

/-- Different problems have different names. -/
theorem fault_injective (h : m.WellFormed) : Function.Injective m.fault := by
  intro pr pr' heq
  cases pr <;> cases pr' <;> simp only [fault, Fault.unhandledEvent.injEq,
    Fault.missingTimerEdge.injEq, Fault.ghostTimerEdge.injEq, Fault.stall.injEq,
    reduceCtorEq] at heq
  case unhandledEvent.unhandledEvent =>
    rw [name_inj h.states_nodup heq.1, name_inj h.events_nodup heq.2]
  case missingTimerEdge.missingTimerEdge =>
    rw [name_inj h.states_nodup heq.1, name_inj h.timers_nodup heq.2]
  case ghostTimerEdge.ghostTimerEdge =>
    rw [name_inj h.states_nodup heq.1, name_inj h.timers_nodup heq.2]
  case stall.stall => rw [name_inj h.states_nodup heq]

variable {pr : Problem m.states.length m.timers.length m.events.length}

/-- The problems with the edges of a branching state. -/
theorem mem_edgeProblems_branching (h : m.WellFormed) {es ts : List Edge}
    (hshape : (m.states.get c.state).shape = .branching es ts) :
    pr ∈ m.plan.edgeProblems c ↔
      (∃ e, e ∈ m.plan.enabled c ∧ (∀ edge ∈ es, edge.invoker ≠ m.eventName e) ∧
        pr = .unhandledEvent c.state e) ∨
      (∃ t, t ∈ c.running ∧ (∀ edge ∈ ts, edge.invoker ≠ m.timerName t) ∧
        pr = .missingTimerEdge c.state t) ∨
      (∃ t, t ∉ c.running ∧ (∃ edge ∈ ts, edge.invoker = m.timerName t) ∧
        pr = .ghostTimerEdge c.state t) := by
  have hevent : ∀ e : Fin m.events.length, (m.eventTable es).get e = none ↔
      ∀ edge ∈ es, edge.invoker ≠ m.eventName e :=
    fun e => edgeTable_eq_none fun _ => eventIndex?_eq_some h
  have htimer : ∀ t : Fin m.timers.length, (m.timerTable ts).get t = none ↔
      ∀ edge ∈ ts, edge.invoker ≠ m.timerName t :=
    fun t => edgeTable_eq_none fun _ => timerIndex?_eq_some h
  have htimer' : ∀ t : Fin m.timers.length, ((m.timerTable ts).get t).isSome = true ↔
      ∃ edge ∈ ts, edge.invoker = m.timerName t := by
    intro t
    rw [Option.isSome_iff_ne_none, ne_eq, htimer]
    simp only [ne_eq, not_forall, not_not, exists_prop]
  simp only [Plan.edgeProblems, body_eq, hshape, List.mem_append, List.mem_filterMap,
    Mask.mem_toList, List.mem_finRange, true_and, Plan.eventProblem?_eq_some,
    Plan.timerProblem?_eq_some, hevent, htimer, htimer', decide_eq_true_eq]
  refine or_congr Iff.rfl ⟨?_, ?_⟩
  · rintro ⟨t, ⟨hedges, ht, rfl⟩ | ⟨hedge, ht, rfl⟩⟩
    · exact .inl ⟨t, ht, hedges, rfl⟩
    · exact .inr ⟨t, ht, hedge, rfl⟩
  · rintro (⟨t, ht, hedges, rfl⟩ | ⟨t, ht, hedge, rfl⟩)
    · exact ⟨t, .inl ⟨hedges, ht, rfl⟩⟩
    · exact ⟨t, .inr ⟨hedge, ht, rfl⟩⟩

theorem moves_eq_nil_iff (h : m.WellFormed) :
    m.plan.moves c = [] ↔ ∀ label name, ¬m.Leads (m.situation c) label name := by
  constructor
  · intro hnil label name hleads
    obtain ⟨mv, hmv, _⟩ := exists_move_of_leads h hleads
    rw [hnil] at hmv
    cases hmv
  · intro hleads
    refine List.eq_nil_iff_forall_not_mem.mpr fun mv hmv => ?_
    exact hleads _ _ (leads_of_mem_moves h hmv).1

theorem mem_problems : pr ∈ m.plan.problems c ↔
    pr ∈ m.plan.edgeProblems c ∨ (m.plan.moves c = [] ∧ pr = .stall c.state) := by
  rw [Plan.problems, List.mem_append]
  cases m.plan.moves c <;> simp

theorem shows_of_mem_problems (h : m.WellFormed) (hpr : pr ∈ m.plan.problems c) :
    m.Shows (m.situation c) (m.fault pr) := by
  rcases mem_problems.mp hpr with hedges | ⟨hnil, rfl⟩
  · cases hshape : (m.states.get c.state).shape with
    | final => simp only [Plan.edgeProblems, body_eq, hshape, List.not_mem_nil] at hedges
    | passThrough next =>
      simp only [Plan.edgeProblems, body_eq, hshape, List.not_mem_nil] at hedges
    | branching es ts =>
      -- the edges of the situation's state are those of the shape
      have hevents : (m.situation c).state.eventEdges = es := by
        simp only [situation, State.eventEdges, hshape]
      have htimers : (m.situation c).state.timerEdges = ts := by
        simp only [situation, State.timerEdges, hshape]
      rcases (mem_edgeProblems_branching h hshape).mp hedges with
        ⟨e, he, hnone, rfl⟩ | ⟨t, ht, hnone, rfl⟩ | ⟨t, ht, ⟨edge, hts, hinvoker⟩, rfl⟩
      · exact .unhandledEvent ⟨es, ts, hshape⟩ (List.get_mem _ _) ((enables_iff h).mpr he)
          (by rwa [hevents])
      · exact .missingTimerEdge ⟨es, ts, hshape⟩ ((timer_mem_running h).mpr ht)
          (by rwa [htimers])
      · rw [fault, ← hinvoker]
        refine .ghostTimerEdge (htimers ▸ hts) ?_
        rw [hinvoker]
        exact mt (timer_mem_running h).mp ht
  · exact .stall ((moves_eq_nil_iff h).mp hnil)

theorem exists_problem_of_shows (h : m.WellFormed) {f : Fault}
    (hshows : m.Shows (m.situation c) f) : ∃ pr ∈ m.plan.problems c, m.fault pr = f := by
  cases hshows with
  | @unhandledEvent e hbranches he henables hnone =>
    obtain ⟨es, ts, hshape⟩ := hbranches
    obtain ⟨i, rfl⟩ := List.get_of_mem he
    refine ⟨.unhandledEvent c.state i, mem_problems.mpr (.inl ?_), rfl⟩
    refine (mem_edgeProblems_branching h hshape).mpr
      (.inl ⟨_, (enables_iff h).mp henables, ?_, rfl⟩)
    exact fun edge hedge => hnone edge (State.mem_eventEdges.mpr ⟨es, ts, hshape, hedge⟩)
  | missingTimerEdge hbranches hrunning hnone =>
    obtain ⟨es, ts, hshape⟩ := hbranches
    obtain ⟨t, ht, rfl⟩ := Mask.mem_names.mp hrunning
    refine ⟨.missingTimerEdge c.state t, mem_problems.mpr (.inl ?_), rfl⟩
    refine (mem_edgeProblems_branching h hshape).mpr (.inr (.inl ⟨t, ht, ?_, rfl⟩))
    exact fun edge hedge => hnone edge (State.mem_timerEdges.mpr ⟨es, ts, hshape, hedge⟩)
  | @ghostTimerEdge edge hedge hrunning =>
    obtain ⟨es, ts, hshape, hedge⟩ := State.mem_timerEdges.mp hedge
    obtain ⟨t, ht⟩ := exists_position ((h.branching hshape).2.edge edge hedge).declared
    have hname : m.timerName t = edge.invoker := ht
    refine ⟨.ghostTimerEdge c.state t, mem_problems.mpr (.inl ?_), by rw [fault, hname]; rfl⟩
    refine (mem_edgeProblems_branching h hshape).mpr
      (.inr (.inr ⟨t, ?_, ⟨edge, hedge, hname.symm⟩, rfl⟩))
    rw [← hname] at hrunning
    exact mt (timer_mem_running h).mpr hrunning
  | stall hleads =>
    exact ⟨.stall c.state, mem_problems.mpr (.inr ⟨(moves_eq_nil_iff h).mpr hleads, rfl⟩), rfl⟩

end Machine

end TimedMachine
