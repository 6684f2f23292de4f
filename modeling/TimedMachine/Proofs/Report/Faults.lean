import TimedMachine.Proofs.Machine.OfToken
import TimedMachine.Proofs.Run.Bridge
import TimedMachine.Proofs.Search.Complete

/-!
# The faults that a report lists

A report lists a fault if and only if it shows somewhere that a run comes to stand, and lists it
once.
-/

namespace TimedMachine

namespace Machine

variable {m : Machine}

/-- A report lists the problems found and then what it closes with for each state. -/
theorem filterMap_violations {β : Type} (g : Violation → Option β) (σ : m.Searches) :
    (m.reportOf σ).violations.filterMap g = (m.foundViolations σ).filterMap g ++
      (List.finRange m.states.length).flatMap fun s => (m.closingViolations σ s).filterMap g := by
  rw [reportOf, List.filterMap_append, List.filterMap_flatMap]

/-- The closing violations of a report are about no situation. -/
theorem filterMap_closingViolations (σ : m.Searches) (s : Fin m.states.length) :
    (m.closingViolations σ s).filterMap Violation.fault? = [] := by
  rw [List.filterMap_eq_nil_iff]
  intro v hv
  rcases List.mem_append.mp hv with hv | hv
  · split at hv
    · cases hv
    · obtain rfl := List.mem_singleton.mp hv
      rfl
  · obtain ⟨e, _, rfl⟩ := List.mem_map.mp hv
    rfl

theorem fault?_violation (trail : Trail (Fin m.states.length))
    (pr : Problem m.states.length m.timers.length m.events.length) :
    (m.violation trail pr).fault? = some (m.fault pr) := by
  cases pr <;> rfl

/-- The faults of a report are the problems found, in their order. -/
theorem faults_explore (m : Machine) :
    m.explore.violations.filterMap Violation.fault? =
      ((Search.complete m.plan).found.map Prod.fst).reverse.map m.fault := by
  have hclosing : (List.finRange m.states.length).flatMap (fun s =>
      (m.closingViolations (.complete m.plan) s).filterMap Violation.fault?) = [] :=
    List.flatMap_eq_nil_iff.mpr fun s _ => filterMap_closingViolations _ s
  rw [explore, filterMap_violations, hclosing, List.append_nil, foundViolations,
    List.filterMap_map, ← List.map_reverse, List.map_map, ← List.filterMap_eq_map]
  refine List.filterMap_congr fun pair _ => ?_
  exact fault?_violation pair.2 pair.1

theorem nodup_faults_explore (h : m.WellFormed) :
    (m.explore.violations.filterMap Violation.fault?).Nodup := by
  rw [faults_explore]
  have hnodup := (Search.Sound.complete m.plan).nodup
  exact (List.nodup_reverse.mpr hnodup).map (fault_injective h)

/-- A fault is reported if it shows where a run comes to stand. -/
theorem mem_faults_explore (h : m.WellFormed) {f : Fault} :
    f ∈ m.explore.violations.filterMap Violation.fault? ↔ ∃ c, m.Reachable c ∧ m.Shows c f := by
  rw [faults_explore, List.mem_map]
  simp only [List.mem_reverse, Search.mem_found_complete]
  constructor
  · rintro ⟨pr, ⟨c, hc, hpr⟩, rfl⟩
    exact ⟨m.situation c, (reachable_iff h).mpr ⟨c, hc, rfl⟩, shows_of_mem_problems h hpr⟩
  · rintro ⟨_, hreachable, hshows⟩
    obtain ⟨c, hc, rfl⟩ := (reachable_iff h).mp hreachable
    obtain ⟨pr, hpr, rfl⟩ := exists_problem_of_shows h hshows
    exact ⟨pr, ⟨c, hc, hpr⟩, rfl⟩

/-- The report on a machine that was loaded lists each fault of its runs once, and no other: an
event that may come and has no edge, a timer that runs and has no edge, an edge for a timer that
does not run, and a state that a run cannot leave though it is not final. -/
theorem explore_faults_exact {t : Token} (h : ofToken t = .ok m) :
    (m.explore.violations.filterMap Violation.fault?).Nodup ∧
    ∀ f, f ∈ m.explore.violations.filterMap Violation.fault? ↔
      ∃ c, m.Reachable c ∧ m.Shows c f := by
  have hwf := wellFormed_of_ofToken h
  exact ⟨nodup_faults_explore hwf, fun f => mem_faults_explore hwf⟩

/-- The door may be told to open when it stands open, as the report says. -/
theorem explore_faults_exact_door :
    ∃ c, doorMachine.Reachable c ∧ doorMachine.Shows c (.unhandledEvent "Opened" "Open") := by
  obtain ⟨_, hmem⟩ := explore_faults_exact ofToken_door
  exact (hmem _).mp (by decide +kernel)

end Machine

end TimedMachine
