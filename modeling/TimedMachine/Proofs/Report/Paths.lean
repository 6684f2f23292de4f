import TimedMachine.Proofs.Run.Firing
import TimedMachine.Proofs.Report.Faults
import TimedMachine.Proofs.Search.Trails

/-!
# The paths that a report gives

With each fault that a report lists goes the path of a run that shows it. The search only keeps what
it needs to go on, but its trails are those of runs (`Search.Traced`), and by name too such a run
comes to stand in a different situation after each of its steps. What the report prints is its
trail.
-/

namespace TimedMachine

/-! ## Trails in words -/

/-- How the labels of runs are written. No function chooses for a timer. -/
inductive Label.Written : Label → String → Prop
  | event {name : String} : Written (.invoker .event name none) ("[event: " ++ name ++ "]")
  | eventChoice {name choice : String} :
    Written (.invoker .event name (some choice)) ("[event: " ++ name ++ " (" ++ choice ++ ")]")
  | timer {name : String} : Written (.invoker .timer name none) ("[timer: " ++ name ++ "]")
  | nextState : Written .nextState "[next_state]"
  | onEnter {choice : String} : Written (.onEnter choice) ("[on_enter: " ++ choice ++ "]")

/-- Each state that a trail goes on from, and what led on from there. -/
def Trail.hops : Trail String → List String
  | .start _ => []
  | .step before label _ => before.hops ++ [before.last ++ " " ++ label.text]

/-- A trail in words is its hops and its last state, with arrows between them. -/
theorem Trail.text_eq_intercalate (trail : Trail String) :
    trail.text = " -> ".intercalate (trail.hops ++ [trail.last]) := by
  induction trail with
  | start s => rfl
  | step before label s ih =>
    have hextend : ∀ (hops : List String) (last more : String),
        " -> ".intercalate (hops ++ [last ++ more]) =
          " -> ".intercalate (hops ++ [last]) ++ more := by
      intro hops last more
      by_cases hnil : hops = []
      · subst hnil
        simp
      · simp [String.intercalate_append_of_ne_nil hnil, String.append_assoc]
    have hhop : before.last ++ " " ++ label.text = before.last ++ (" " ++ label.text) :=
      String.append_assoc
    rw [hops, String.intercalate_append_of_ne_nil (by simp) (by simp), hhop, hextend, ← ih]
    simp [text, last, String.append_assoc]

/-- A trail with labels of all kinds. -/
example :
    let trail : Trail String := .step (.step (.step (.step (.step (.start "A")
      (.invoker .event "E" none) "B") (.invoker .event "E" (some "x")) "C")
      (.invoker .timer "T" none) "D") .nextState "E") (.onEnter "y") "F"
    trail.text = "A [event: E] -> B [event: E (x)] -> C [timer: T] -> D [next_state] -> " ++
      "E [on_enter: y] -> F" := by decide

/-! ## What violations say -/

/-- The path that a violation gives, if it is one of where a run stands. -/
def Violation.path? : Violation → Option (Trail String)
  | .unhandledEvent _ _ path | .missingTimerEdge _ _ path | .ghostTimerEdge _ _ path
  | .stall _ path => some path
  | .unreachableState _ | .unusableEdge _ _ _ _ | .unusedTimer _ | .ambiguousCallback _ _ _
  | .conflictingDecisionTargets _ _ _ => none

/-- The state that a fault is in. -/
def Fault.state : Fault → String
  | .unhandledEvent state _ | .missingTimerEdge state _ | .ghostTimerEdge state _
  | .stall state => state

namespace Machine

variable {m : Machine}

theorem path?_violation (trail : Trail (Fin m.states.length))
    (pr : Problem m.states.length m.timers.length m.events.length) :
    (m.violation trail pr).path? = some (trail.map m.stateName) := by
  cases pr <;> rfl

/-- A fault shows in its own state. -/
theorem Shows.state_eq {c : Situation} {f : Fault} (h : m.Shows c f) : c.state.name = f.state := by
  cases h <;> rfl

/-- A violation with a fault is one that the search has found. -/
theorem exists_found_of_fault? {v : Violation} {f : Fault} (hv : v ∈ m.explore.violations)
    (hf : v.fault? = some f) : ∃ pr trail, (pr, trail) ∈ (Search.complete m.plan).found ∧
      m.violation trail pr = v ∧ m.fault pr = f := by
  rcases List.mem_append.mp hv with hv | hv
  · obtain ⟨⟨pr, trail⟩, hfound, rfl⟩ := List.mem_map.mp hv
    rw [fault?_violation] at hf
    exact ⟨pr, trail, List.mem_reverse.mp hfound, rfl, Option.some.inj hf⟩
  · obtain ⟨s, -, hv⟩ := List.mem_flatMap.mp hv
    have hnone := List.filterMap_eq_nil_iff.mp (filterMap_closingViolations _ s) v hv
    rw [hnone] at hf
    cases hf

/-! ## Labels of runs -/

variable {trail : Trail (Fin m.states.length)} {t t' : Trail String}
  {c : Configuration m.states.length m.timers.length m.events.length}
  {cs : List (Configuration m.states.length m.timers.length m.events.length)}

theorem written_of_mem_moves (h : m.WellFormed) {mv : Move m.states.length m.events.length}
    (hmv : mv ∈ m.plan.moves c) : mv.label.Written mv.label.text := by
  have hleads := (leads_of_mem_moves h hmv).1
  generalize mv.label = label at hleads ⊢
  cases hleads with
  | next _ => exact .nextState
  | onEnter _ _ _ => exact .onEnter
  | @event _ _ choice _ _ _ _ _ _ =>
    cases choice with
    | none => exact .event
    | some choice => exact .eventChoice
  | timer hedge _ hlead =>
    obtain ⟨es, ts, hshape, hedge⟩ := State.mem_timerEdges.mp hedge
    obtain ⟨target, htargets⟩ := ((h.branching hshape).2.edge _ hedge).single_of_timer rfl
    rw [htargets] at hlead
    cases hlead with
    | single => exact .timer

theorem written_of_run (h : m.WellFormed)
    {c? : Option (Configuration m.states.length m.timers.length m.events.length)}
    (hrun : m.plan.Run trail c?) : ∀ label ∈ trail.labels, label.Written label.text := by
  induction hrun with
  | start _ => simp [Trail.labels]
  | step _ hmv ih =>
    intro label hlabel
    rcases List.mem_append.mp hlabel with hlabel | hlabel
    · exact ih label hlabel
    · obtain rfl := List.mem_singleton.mp hlabel
      exact written_of_mem_moves h hmv

/-! ## Runs that never stand anywhere twice -/

/-- After each beginning of a run by the tables, the run by name stands in the situation of one of
the configurations. -/
theorem exists_after_of_goesOn (h : m.WellFormed) (hvisits : m.plan.Visits trail cs)
    (ht : t.GoesOn (trail.map m.stateName)) : ∃ c ∈ cs, m.after t = some (m.situation c) := by
  induction hvisits with
  | @start s c hs hc =>
    obtain rfl := Trail.goesOn_start_iff.mp ht
    have hrun := (Plan.Visits.start hs hc).run
    exact ⟨c, List.mem_cons_self, (run_map_of_planRun h hrun).2⟩
  | @step trail c d cs mv hvisits hmv hd ih =>
    rcases Trail.goesOn_step_iff.mp ht with rfl | ht
    · have hrun := (Plan.Visits.step hvisits hmv hd).run
      exact ⟨d, List.mem_cons_self, (run_map_of_planRun h hrun).2⟩
    · obtain ⟨c', hc', hafter⟩ := ih ht
      exact ⟨c', List.mem_cons_of_mem _ hc', hafter⟩

/-- If the configurations differ, so do the situations after different beginnings. -/
theorem eq_of_after_eq (h : m.WellFormed) (hvisits : m.plan.Visits trail cs) (hnodup : cs.Nodup)
    (ht : t.GoesOn (trail.map m.stateName)) (ht' : t'.GoesOn (trail.map m.stateName))
    (heq : m.after t = m.after t') : t = t' := by
  induction hvisits with
  | start _ _ =>
    rw [Trail.goesOn_start_iff.mp ht, Trail.goesOn_start_iff.mp ht']
  | @step trail c d cs mv hvisits hmv hd ih =>
    obtain ⟨hnotMem, hnodup⟩ := List.nodup_cons.mp hnodup
    have hlast := (run_map_of_planRun h (Plan.Visits.step hvisits hmv hd).run).2
    -- a beginning that stands where the whole run does is the whole run
    have hshorter : ∀ t : Trail String, t.GoesOn (trail.map m.stateName) →
        m.after t ≠ some (m.situation d) := by
      intro t ht hafter
      obtain ⟨c', hc', hafter'⟩ := exists_after_of_goesOn h hvisits ht
      rw [hafter] at hafter'
      exact hnotMem (situation_injective h (Option.some.inj hafter') ▸ hc')
    rcases Trail.goesOn_step_iff.mp ht with rfl | ht
    · rcases Trail.goesOn_step_iff.mp ht' with rfl | ht'
      · rfl
      · exact absurd (heq.symm.trans hlast) (hshorter t' ht')
    · rcases Trail.goesOn_step_iff.mp ht' with rfl | ht'
      · exact absurd (heq.trans hlast) (hshorter t ht)
      · exact ih hnodup ht ht'

/-- With each fault of a loaded machine, its report gives the trail of a run that comes to stand in
the fault's state, in a situation that shows the fault, and that has stood in different situations
all along. The trail is printed state by state, each with the label of what led on from it, and ends
in the fault's state. -/
theorem explore_paths_genuine {tree : Token} (hload : Machine.ofToken tree = .ok m) {v : Violation}
    (hv : v ∈ m.explore.violations) {f : Fault} (hf : v.fault? = some f) :
    ∃ trail c, v.path? = some trail ∧ m.Run trail ∧ m.after trail = some c ∧ m.Shows c f ∧
      c.state.name = f.state ∧ trail.last = f.state ∧
      (∀ t t', t.GoesOn trail → t'.GoesOn trail → m.after t = m.after t' → t = t') ∧
      (∀ label ∈ trail.labels, label.Written label.text) ∧
      trail.text = " -> ".intercalate (trail.hops ++ [f.state]) := by
  have h := wellFormed_of_ofToken hload
  obtain ⟨pr, trail, hfound, rfl, rfl⟩ := exists_found_of_fault? hv hf
  obtain ⟨c, cs, hvisits, hnodup, hpr⟩ := (Search.Traced.complete m.plan).found pr trail hfound
  obtain ⟨hrun, hafter⟩ := run_map_of_planRun h hvisits.run
  have hshows := shows_of_mem_problems h hpr
  have hlast : (trail.map m.stateName).last = (m.fault pr).state := by
    rw [← hshows.state_eq, Trail.last_map, ← Plan.state_of_run hvisits.run]
    rfl
  refine ⟨_, _, path?_violation trail pr, hrun, hafter, hshows, hshows.state_eq, hlast, ?_, ?_,
    ?_⟩
  · exact fun t t' ht ht' => eq_of_after_eq h hvisits hnodup ht ht'
  · rw [Trail.labels_map]
    exact written_of_run h hvisits.run
  · rw [Trail.text_eq_intercalate, hlast]

/-- Once the door has been closed, its closing may have to be reported when it stands open again.
The run enters the same state twice, but not in the same situation. -/
theorem explore_paths_genuine_door :
    ∃ trail c, trail.text = "Opened [event: Close] -> Closed [event: Open (free)] -> Opened" ∧
      doorMachine.Run trail ∧ doorMachine.after trail = some c ∧
      doorMachine.Shows c (.unhandledEvent "Opened" "Report") := by
  let closed : Trail String := .step (.start "Opened") (.invoker .event "Close" none) "Closed"
  let trail := Trail.step closed (.invoker .event "Open" (some "free")) "Opened"
  have hv : .unhandledEvent "Opened" "Report" trail ∈ doorMachine.explore.violations := by
    decide +kernel
  obtain ⟨_, c, hpath, hrun, hafter, hshows, -⟩ := explore_paths_genuine ofToken_door hv rfl
  cases hpath
  exact ⟨trail, c, by decide, hrun, hafter, hshows⟩

end Machine

end TimedMachine
