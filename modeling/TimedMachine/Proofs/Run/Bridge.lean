import TimedMachine.Proofs.Run.Tables

/-!
# Runs by name and by position

The runs of a well-formed machine and those of its tables are the same, step by step: the one is
the other with its positions replaced by names.
-/

namespace TimedMachine

namespace Machine

variable {m : Machine}

theorem after_start (h : m.WellFormed) {s : Fin m.states.length} :
    m.after (.start (m.stateName s)) =
      (m.plan.enter? (m.plan.before s) s none).map m.situation := by
  rw [after, state?_name h, Option.bind_some, ← situation_before, ← enter_situation h]
  rfl

theorem after_step (h : m.WellFormed) {trail : Trail String}
    {c : Configuration m.states.length m.timers.length m.events.length}
    (htrail : m.after trail = some (m.situation c))
    {mv : Move m.states.length m.events.length} (hmv : mv ∈ m.plan.moves c) :
    m.after (.step trail mv.label (m.stateName mv.target)) =
      (m.plan.enter? c mv.target mv.event).map m.situation := by
  rw [after, htrail, Option.bind_some, state?_name h, Option.bind_some, ← enter_situation h,
    (leads_of_mem_moves h hmv).2]

/-- A run of the tables is a run, and ends in the situation that its configuration stands for. -/
theorem run_map_of_planRun (h : m.WellFormed) {trail : Trail (Fin m.states.length)}
    {c? : Option (Configuration m.states.length m.timers.length m.events.length)}
    (hrun : m.plan.Run trail c?) :
    m.Run (trail.map m.stateName) ∧
      m.after (trail.map m.stateName) = c?.map m.situation := by
  induction hrun with
  | @start s hs =>
    have hname : m.stateName s = m.startState := (stateIndex?_eq_some h).mp hs
    refine ⟨?_, after_start h⟩
    rw [Trail.map, hname]
    exact .start
  | step _ hmv ih =>
    exact ⟨.step ih.1 ih.2 (leads_of_mem_moves h hmv).1, after_step h ih.2 hmv⟩

/-- A trail decides where the run by the tables stands. -/
theorem planRun_unique (h : m.WellFormed) {trail : Trail (Fin m.states.length)}
    {c? d? : Option (Configuration m.states.length m.timers.length m.events.length)}
    (hc : m.plan.Run trail c?) (hd : m.plan.Run trail d?) : c? = d? := by
  apply Option.map_injective (situation_injective h)
  exact (run_map_of_planRun h hc).2.symm.trans (run_map_of_planRun h hd).2

/-- Every run is a run of the tables. -/
theorem exists_planRun (h : m.WellFormed) {trail : Trail String} (hrun : m.Run trail) :
    ∃ trail' c?, m.plan.Run trail' c? ∧ trail'.map m.stateName = trail := by
  induction hrun with
  | start =>
    obtain ⟨s, hs⟩ := exists_position h.start_declared
    exact ⟨_, _, .start ((stateIndex?_eq_some h).mpr hs), congrArg Trail.start hs⟩
  | @step trail c label name _ hc hleads ih =>
    obtain ⟨trail', c?, hrun', rfl⟩ := ih
    -- the run so far stands where a configuration of the tables does, and goes on by its moves
    rw [(run_map_of_planRun h hrun').2] at hc
    obtain ⟨c', rfl, rfl⟩ := Option.map_eq_some_iff.mp hc
    obtain ⟨mv, hmv, rfl, rfl⟩ := exists_move_of_leads h hleads
    exact ⟨_, _, .step hrun' hmv, rfl⟩

/-- Runs come to stand where the configurations of the tables stand for. -/
theorem reachable_iff (h : m.WellFormed) {c : Situation} :
    m.Reachable c ↔ ∃ c', m.plan.Reachable c' ∧ m.situation c' = c := by
  constructor
  · rintro ⟨trail, hrun, hc⟩
    obtain ⟨trail', c?, hrun', rfl⟩ := exists_planRun h hrun
    rw [(run_map_of_planRun h hrun').2] at hc
    obtain ⟨c', rfl, rfl⟩ := Option.map_eq_some_iff.mp hc
    exact ⟨c', ⟨trail', hrun'⟩, rfl⟩
  · rintro ⟨c', ⟨trail, hrun⟩, rfl⟩
    obtain ⟨hrun', hafter⟩ := run_map_of_planRun h hrun
    exact ⟨_, hrun', hafter⟩

/-- Runs enter the states that the tables enter. -/
theorem enters_name_iff (h : m.WellFormed) {s : Fin m.states.length} :
    m.Enters (m.stateName s) ↔ m.plan.Enters s := by
  rw [enters_iff]
  constructor
  · rintro ⟨trail, hrun, hlast⟩
    obtain ⟨trail', c?, hrun', rfl⟩ := exists_planRun h hrun
    rw [Trail.last_map] at hlast
    exact ⟨trail', c?, hrun', name_inj h.states_nodup hlast⟩
  · rintro ⟨trail, c?, hrun, rfl⟩
    exact ⟨_, (run_map_of_planRun h hrun).1, Trail.last_map _ trail⟩

/-- A state is where configurations in its position stand. -/
theorem situation_state_eq_iff (h : m.WellFormed) {s : Fin m.states.length}
    {c : Configuration m.states.length m.timers.length m.events.length} :
    (m.situation c).state = (m.states.get s) ↔ c.state = s := by
  constructor
  · intro hstate
    exact name_inj h.states_nodup (congrArg State.name hstate)
  · rintro rfl
    rfl

end Machine

end TimedMachine
