import TimedMachine.Proofs.Report.Verdicts
import TimedMachine.Proofs.Search.Confined

/-!
# States that no run enters

A search looks only where runs come, so a report on a machine hangs on the states that runs enter.
The states that no run enters count with their names alone: with other bodies the machine has the
same faults, found by the same paths, the same states without a run, and the same edges of the
others that no run can take (`Machine.explore_of_same_where_entered`).
-/

namespace TimedMachine

theorem finRange_cast {n k : Nat} (h : n = k) :
    (List.finRange n).map (Fin.cast h) = List.finRange k := by
  subst h
  exact List.map_id _

/-- The kinds of the violations that show where a run stands. -/
def ViolationKind.ofRuns : List ViolationKind :=
  [.unhandledEvent, .missingTimerEdge, .ghostTimerEdge, .stall]

namespace Machine

/-- A machine with other states. -/
abbrev withStates (m : Machine) (states : List State) : Machine := { m with states }

variable {m : Machine} {states : List State}

/-! ## Tables of the same names -/

section Names

variable (h : m.states.length = states.length)
  (hnames : states.map State.name = m.states.map State.name)
include hnames

theorem stateName_cast (s : Fin m.states.length) :
    (m.withStates states).stateName (s.cast h) = m.stateName s := by
  have hs : s.val < states.length := h ▸ s.isLt
  have hget : (states.map State.name)[s.val]? = (m.states.map State.name)[s.val]? := by
    rw [hnames]
  rw [List.getElem?_map, List.getElem?_map, List.getElem?_eq_getElem hs,
    List.getElem?_eq_getElem s.isLt] at hget
  exact Option.some.inj hget

variable (hm : m.WellFormed)
include hm

theorem stateIndex?_cast (name : String) :
    (m.withStates states).stateIndex? name = (m.stateIndex? name).map (Fin.cast h) := by
  have hnodup : (states.map State.name).Nodup := hnames ▸ hm.states_nodup
  ext i
  rw [Option.map_eq_some_iff]
  have hindex : (m.withStates states).stateIndex? name = some i ↔
      (m.withStates states).stateName i = name := findFinIdx?_name_eq_some hnodup
  rw [hindex]
  constructor
  · rintro rfl
    refine ⟨i.cast h.symm, (stateIndex?_eq_some hm).mpr ?_, rfl⟩
    exact (stateName_cast h hnames (i.cast h.symm)).symm
  · rintro ⟨s, hs, rfl⟩
    rw [stateName_cast h hnames]
    exact (stateIndex?_eq_some hm).mp hs

theorem moveTo?_cast (target : Target) (label : Label) (event : Option (Fin m.events.length)) :
    (m.withStates states).moveTo? target label event =
      (m.moveTo? target label event).map (Move.cast h) := by
  unfold moveTo?
  cases target.state? with
  | none => rfl
  | some name =>
    rw [Option.bind_some, Option.bind_some, stateIndex?_cast h hnames hm, Option.map_map,
      Option.map_map]
    rfl

theorem choiceMoves_cast (choices : List Choice) (label : Choice → Label)
    (event : Option (Fin m.events.length)) :
    choices.filterMap (fun c => (m.withStates states).moveTo? c.target (label c) event) =
      (choices.filterMap fun c => m.moveTo? c.target (label c) event).map (Move.cast h) := by
  simp only [moveTo?_cast h hnames hm, List.map_filterMap]

theorem edgeMoves_cast (e : Edge) (event : Option (Fin m.events.length)) :
    (m.withStates states).edgeMoves e event = (m.edgeMoves e event).map (Move.cast h) := by
  unfold edgeMoves
  cases e.targets with
  | single target => simp only [moveTo?_cast h hnames hm, Option.toList_map]
  | decision choices => exact choiceMoves_cast h hnames hm choices _ event

theorem nextMoves_cast (next : NextState) :
    (m.withStates states).nextMoves next = (m.nextMoves next).map (Move.cast h) := by
  cases next with
  | state name => simp only [nextMoves, moveTo?_cast h hnames hm, Option.toList_map]
  | decision choices => exact choiceMoves_cast h hnames hm choices _ none

omit hnames hm in
/-- Tables of edges correspond if the moves along each edge do. -/
theorem edgeTable_cast {n : Nat} (index? : String → Option (Fin n)) {moves : Edge → Fin n → m.Moves}
    {moves' : Edge → Fin n → (m.withStates states).Moves}
    (hmoves : ∀ e i, moves' e i = (moves e i).map (Move.cast h)) (position : Nat) (es : List Edge) :
    (m.withStates states).edgeTable index? moves' position es =
      (m.edgeTable index? moves position es).map (Option.map (Slot.cast h)) := by
  induction es generalizing position with
  | nil => simp [edgeTable]
  | cons e es ih =>
    unfold edgeTable
    cases index? e.invoker with
    | none => exact ih (position + 1)
    | some i => simp [ih, Slot.cast, hmoves]

/-- What a state means in the one machine it means in the other. -/
theorem row_cast (s : State) : (m.withStates states).row s = (m.row s).cast h := by
  obtain ⟨name, starts, stops, onEnter, shape⟩ := s
  refine congrArg (Row.mk _ _ _) ?_
  cases shape with
  | final => rfl
  | passThrough next => exact congrArg Body.passing (nextMoves_cast h hnames hm next)
  | branching es ts =>
    refine congrArg₂ Body.branching ?_ ?_
    · exact edgeTable_cast h _ (fun e i => edgeMoves_cast h hnames hm e (some i)) 0 es
    · exact edgeTable_cast h _ (fun e _ => edgeMoves_cast h hnames hm e none) 0 ts

/-! ## Searches and reports -/

variable (hsame : ∀ s ∈ m.states, m.Enters s.name → s ∈ states)
include hsame

/-- A state that runs enter stands in the same place. -/
theorem get_cast {s : Fin m.states.length} (hs : m.plan.Enters s) :
    states.get (s.cast h) = m.states.get s := by
  have hnodup : (states.map State.name).Nodup := hnames ▸ hm.states_nodup
  obtain ⟨i, hi⟩ :=
    List.get_of_mem (hsame _ (List.get_mem _ s) ((enters_name_iff hm).mpr hs))
  have hname : (states.get i).name = (states.get (s.cast h)).name := by
    rw [hi]
    exact (stateName_cast h hnames s).symm
  rw [← name_inj hnodup hname, hi]

theorem plan_matches : m.plan.Matches h (m.withStates states).plan where
  start := stateIndex?_cast h hnames hm m.startState
  initiallyArmed := rfl
  onlyOnce := rfl
  row s hs := by
    have hget : (m.withStates states).states.get (s.cast h) = m.states.get s :=
      get_cast h hnames hm hsame hs
    rw [get_rows, get_rows, hget]
    exact row_cast h hnames hm _

omit hm hsame

variable {σ : m.Searches} {τ : (m.withStates states).Searches} (hστ : σ.Matches h τ)
include hστ

/-- The same problems are reported, with the same paths. -/
theorem foundViolations_cast : (m.withStates states).foundViolations τ = m.foundViolations σ := by
  have htrail : ∀ trail : Trail (Fin m.states.length),
      (trail.map (Fin.cast h)).map (m.withStates states).stateName = trail.map m.stateName := by
    intro trail
    induction trail with
    | start s => exact congrArg Trail.start (stateName_cast h hnames s)
    | step before label s ih =>
      simp only [Trail.map, ih, stateName_cast h hnames]
  unfold foundViolations
  rw [hστ.found, ← List.map_reverse, List.map_map]
  refine List.map_congr_left fun found _ => ?_
  obtain ⟨pr, trail⟩ := found
  cases pr <;> simp only [Function.comp_apply, Problem.cast, violation, htrail,
    stateName_cast h hnames]

/-- What is picked from the violations corresponds if it does in what is said in closing about each
state. -/
theorem filter_violations_cast {g : Violation → Bool}
    (hg : ∀ s, ((m.withStates states).closingViolations τ (s.cast h)).filter g =
      (m.closingViolations σ s).filter g) :
    ((m.withStates states).reportOf τ).violations.filter g =
      (m.reportOf σ).violations.filter g := by
  have hclosing : (List.finRange states.length).flatMap
      (fun s => ((m.withStates states).closingViolations τ s).filter g) =
      (List.finRange m.states.length).flatMap fun s => (m.closingViolations σ s).filter g := by
    rw [← finRange_cast h, List.flatMap_map]
    exact congrArg (List.flatMap · _) (funext hg)
  simp only [reportOf, List.filter_append, List.filter_flatMap, foundViolations_cast h hnames hστ]
  exact congrArg _ hclosing

/-- Of a state in the same place, the same edges are said to be taken by no run. -/
theorem unusableEdges_cast {s : Fin m.states.length}
    (hs : states.get (s.cast h) = m.states.get s) :
    (m.withStates states).unusableEdges τ (s.cast h) = m.unusableEdges σ s := by
  have husable : ∀ e, (m.withStates states).isUsable τ (s.cast h) e = m.isUsable σ s e := by
    intro e
    simp only [isUsable, hστ.enabledIn, hστ.runningIn]
    rfl
  have hget : (m.withStates states).states.get (s.cast h) = m.states.get s := hs
  simp only [unusableEdges, hget, husable, stateName_cast h hnames]

end Names

/-! ## What is picked from the closing violations -/

theorem filter_ofRuns_closingViolations (σ : m.Searches) (s : Fin m.states.length) :
    (m.closingViolations σ s).filter (·.kind ∈ ViolationKind.ofRuns) = [] := by
  rw [List.filter_eq_nil_iff]
  intro v hv
  rcases mem_closingViolations.mp hv with ⟨_, rfl⟩ | ⟨e, _, _, rfl⟩ <;>
    simp [Violation.kind, ViolationKind.ofRuns]

theorem filter_unreachable_closingViolations (σ : m.Searches) (s : Fin m.states.length) :
    (m.closingViolations σ s).filter (·.kind = .unreachableState) =
      if s ∈ σ.entered then [] else [.unreachableState (m.stateName s)] := by
  have hedges : (m.unusableEdges σ s).filter (·.kind = .unreachableState) = [] := by
    rw [List.filter_eq_nil_iff]
    intro v hv
    obtain ⟨e, _, rfl⟩ := List.mem_map.mp hv
    simp [Violation.kind]
  rw [closingViolations, List.filter_append, hedges, List.append_nil]
  split <;> simp [Violation.kind]

open Classical in
/-- What is said in closing about the edges of the states with a property. -/
theorem filter_unusable_closingViolations (P : String → Prop) (σ : m.Searches)
    (s : Fin m.states.length) :
    (m.closingViolations σ s).filter (fun v => ∃ e ∈ v.unusable?, P e.1) =
      if P (m.stateName s) then m.unusableEdges σ s else [] := by
  have hentered : (if s ∈ σ.entered then []
      else [Violation.unreachableState (m.stateName s)]).filter
        (fun v => ∃ e ∈ v.unusable?, P e.1) = [] := by
    split <;> simp [Violation.unusable?]
  have hedges : ∀ v ∈ m.unusableEdges σ s, (∃ e ∈ v.unusable?, P e.1) ↔ P (m.stateName s) := by
    intro v hv
    obtain ⟨e, _, rfl⟩ := List.mem_map.mp hv
    simp [Violation.unusable?]
  rw [closingViolations, List.filter_append, hentered, List.nil_append]
  split
  · next hs => exact List.filter_eq_self.mpr fun v hv => decide_eq_true ((hedges v hv).mpr hs)
  · next hs =>
    rw [List.filter_eq_nil_iff]
    intro v hv
    rw [decide_eq_true_iff, hedges v hv]
    exact hs

/-! ## The report -/

open Classical in
/-- Nothing in a report comes from the bodies of states that no run enters. A machine with the same
timers, events, start state and names of states, and with the same states where runs enter, has the
same violations of runs with the same paths in the same order, the same states that no run enters,
the same edges of the others that no run can take, and its search comes to as many configurations
and is as deep. -/
theorem explore_of_same_where_entered {t : Token} {m m' : Machine} (h : ofToken t = .ok m)
    (htimers : m'.timers = m.timers) (hevents : m'.events = m.events)
    (hstart : m'.startState = m.startState)
    (hnames : m'.states.map State.name = m.states.map State.name)
    (hsame : ∀ s ∈ m.states, m.Enters s.name → s ∈ m'.states) :
    m'.explore.violations.filter (·.kind ∈ ViolationKind.ofRuns) =
      m.explore.violations.filter (·.kind ∈ ViolationKind.ofRuns) ∧
    m'.explore.violations.filter (·.kind = .unreachableState) =
      m.explore.violations.filter (·.kind = .unreachableState) ∧
    m'.explore.violations.filter (fun v => ∃ e ∈ v.unusable?, m.Enters e.1) =
      m.explore.violations.filter (fun v => ∃ e ∈ v.unusable?, m.Enters e.1) ∧
    m'.explore.configurations = m.explore.configurations ∧
    m'.explore.maxDepth = m.explore.maxDepth := by
  have hm := wellFormed_of_ofToken h
  obtain ⟨timers, events, states, start⟩ := m'
  obtain rfl : timers = m.timers := htimers
  obtain rfl : events = m.events := hevents
  obtain rfl : start = m.startState := hstart
  have hlength : m.states.length = states.length := by
    simpa using (congrArg List.length hnames).symm
  have hmatch := Search.matches_complete (plan_matches hlength hnames hm hsame)
  refine ⟨?_, ?_, ?_, hmatch.size_settled, hmatch.maxDepth⟩
  · refine filter_violations_cast hlength hnames hmatch fun s => ?_
    rw [filter_ofRuns_closingViolations, filter_ofRuns_closingViolations]
  · refine filter_violations_cast hlength hnames hmatch fun s => ?_
    rw [filter_unreachable_closingViolations, filter_unreachable_closingViolations,
      stateName_cast hlength hnames]
    simp only [hmatch.entered]
  · refine filter_violations_cast hlength hnames hmatch fun s => ?_
    rw [filter_unusable_closingViolations m.Enters, filter_unusable_closingViolations m.Enters,
      stateName_cast hlength hnames]
    refine if_ctx_congr Iff.rfl (fun hs => ?_) fun _ => rfl
    exact unusableEdges_cast hlength hnames hmatch
      (get_cast hlength hnames hm hsame ((enters_name_iff hm).mp hs))

/-- The door with another body for its spare state, to which nothing leads. -/
def refurbishedDoor : Machine := doorMachine.withStates <| doorMachine.states.dropLast ++
  [⟨"Spare", [⟨"AutoLock", none⟩], [], none,
    .branching [⟨"Open", .event, .single (.state "Opened"), [], none⟩] []⟩]

/-- With another body for its spare state it is not the same door any more, but the faults on its
runs are the same and are found by the same paths. -/
theorem explore_of_same_where_entered_door :
    refurbishedDoor ≠ doorMachine ∧
    refurbishedDoor.explore.violations.filter (·.kind ∈ ViolationKind.ofRuns) =
      doorMachine.explore.violations.filter (·.kind ∈ ViolationKind.ofRuns) := by
  have hspare : ¬doorMachine.Enters "Spare" :=
    ((unreachableState_mem_explore (wellFormed_of_ofToken ofToken_door)).mp
      (by decide +kernel)).2
  have hsame : ∀ s ∈ doorMachine.states, doorMachine.Enters s.name →
      s ∈ refurbishedDoor.states := by
    intro s hs henters
    rcases List.mem_append.mp (show s ∈ doorMachine.states.dropLast ++ _ from hs) with hs | hs
    · exact List.mem_append_left _ hs
    · obtain rfl := List.mem_singleton.mp hs
      exact absurd henters hspare
  have hreport := @explore_of_same_where_entered _ _ refurbishedDoor ofToken_door rfl rfl rfl rfl
    hsame
  exact ⟨by decide +kernel, hreport.1⟩

end Machine

end TimedMachine
