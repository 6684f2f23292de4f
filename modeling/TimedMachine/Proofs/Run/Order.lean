import TimedMachine.Proofs.Machine.Order
import TimedMachine.Proofs.Run.Bridge

/-!
# Runs of machines that differ in order

Nothing that a run does depends on the order in which its machine lists things, except which of
several parts with one name a look-up finds, and in a well-formed machine there are no two. So two
well-formed machines that differ in the order of their lists have the same runs, and a run of both
comes to stand in situations that differ in the order of lists alone.

Everything is proved in one direction only; the other is the same with the machines exchanged.
-/

namespace TimedMachine

/-- Two situations are in states that differ in the order of lists, and nothing else differs. -/
structure Situation.Reordered (c c' : Situation) : Prop where
  state : c.state.Reordered c'.state
  running : c'.running = c.running
  armed : c'.armed = c.armed
  fired : c'.fired = c.fired

theorem Situation.Reordered.symm {c c' : Situation} (h : c.Reordered c') : c'.Reordered c :=
  ⟨h.state.symm, h.running.symm, h.armed.symm, h.fired.symm⟩

/-! ## Parts of states -/

namespace State.Reordered

variable {s s' : State}

theorem isFinal_eq (h : s.Reordered s') : s'.isFinal = s.isFinal := by
  have hshape := h.shape
  unfold State.isFinal
  generalize s.shape = shape at hshape
  generalize s'.shape = shape' at hshape
  cases hshape <;> rfl

theorem branches (h : s.Reordered s') (hs : s.Branches) : s'.Branches := by
  obtain ⟨es, ts, hbranching⟩ := hs
  have hshape := h.shape
  rw [hbranching] at hshape
  generalize hshape' : s'.shape = shape' at hshape
  cases hshape
  exact ⟨_, _, hshape'⟩

theorem eventEdges (h : s.Reordered s') : Rearranged Edge.Reordered s.eventEdges s'.eventEdges := by
  have hshape := h.shape
  unfold State.eventEdges
  generalize s.shape = shape at hshape
  generalize s'.shape = shape' at hshape
  cases hshape with
  | branching hevents _ => exact hevents
  | passThrough _ => exact ⟨[], .nil, .rfl⟩
  | final => exact ⟨[], .nil, .rfl⟩

theorem timerEdges (h : s.Reordered s') : Rearranged Edge.Reordered s.timerEdges s'.timerEdges := by
  have hshape := h.shape
  unfold State.timerEdges
  generalize s.shape = shape at hshape
  generalize s'.shape = shape' at hshape
  cases hshape with
  | branching _ htimers => exact htimers
  | passThrough _ => exact ⟨[], .nil, .rfl⟩
  | final => exact ⟨[], .nil, .rfl⟩

/-- Every edge of a state is one of the other state too. -/
theorem exists_edge (h : s.Reordered s') {e : Edge} (he : e ∈ s.edges) :
    ∃ e' ∈ s'.edges, e.Reordered e' := by
  rcases List.mem_append.mp he with he | he
  · obtain ⟨e', he', hedge⟩ := h.eventEdges.exists_right he
    exact ⟨e', List.mem_append.mpr (.inl he'), hedge⟩
  · obtain ⟨e', he', hedge⟩ := h.timerEdges.exists_right he
    exact ⟨e', List.mem_append.mpr (.inr he'), hedge⟩

theorem startTimer_names_eq (h : s.Reordered s') :
    (s'.startTimers.map TimerStart.timer).toFinset =
      (s.startTimers.map TimerStart.timer).toFinset :=
  (List.toFinset_eq_of_perm _ _ (h.startTimers.map _)).symm

end State.Reordered

theorem Targets.Reordered.lead {targets targets' : Targets} (h : targets.Reordered targets')
    {choice : Option String} {name : String} (hlead : targets.Lead choice name) :
    targets'.Lead choice name := by
  cases h with
  | single => exact hlead
  | decision hperm =>
    cases hlead with
    | choice hc htarget => exact .choice (hperm.mem_iff.mp hc) htarget

theorem Situation.Reordered.enables {c c' : Situation} {e e' : Event} (hc : c.Reordered c')
    (he : e.Reordered e') (henables : c.Enables e) : c'.Enables e' := by
  unfold Situation.Enables
  rw [he.name, he.onlyOnce, hc.armed, hc.fired]
  exact henables

namespace Machine

variable {m m' : Machine}

namespace Reordered

/-! ## Entering states -/

/-- The names of the events with a property that does not depend on the order of arguments. -/
theorem eventNames_subset (h : m.Reordered m') {p : Event → Bool}
    (hp : ∀ e e', Event.Reordered e e' → p e' = p e) :
    ((m.events.filter p).map Event.name).toFinset ⊆
      ((m'.events.filter p).map Event.name).toFinset := by
  intro name hname
  rw [List.mem_toFinset, List.mem_map] at hname ⊢
  obtain ⟨e, he, rfl⟩ := hname
  obtain ⟨he, hpe⟩ := List.mem_filter.mp he
  obtain ⟨e', he', hee'⟩ := h.events.exists_right he
  exact ⟨e', List.mem_filter.mpr ⟨he', (hp e e' hee').trans hpe⟩, hee'.name⟩

theorem eventNames_eq (h : m.Reordered m') {p : Event → Bool}
    (hp : ∀ e e', Event.Reordered e e' → p e' = p e) :
    ((m'.events.filter p).map Event.name).toFinset =
      ((m.events.filter p).map Event.name).toFinset :=
  Finset.Subset.antisymm (h.symm.eventNames_subset hp) (h.eventNames_subset hp)

theorem comesOnce_of_comesOnce (h : m.Reordered m') {event : String}
    (honce : m.comesOnce event = true) : m'.comesOnce event = true := by
  obtain ⟨e, he, hname⟩ := List.any_eq_true.mp honce
  obtain ⟨e', he', hee'⟩ := h.events.exists_right he
  apply List.any_eq_true.mpr
  refine ⟨e', he', ?_⟩
  rw [hee'.name, hee'.onlyOnce]
  exact hname

theorem fire_eq (h : m.Reordered m') (fired : Finset String) (event? : Option String) :
    m'.fire fired event? = m.fire fired event? := by
  cases event? with
  | none => rfl
  | some event =>
    have honce : m'.comesOnce event = m.comesOnce event := by
      rw [Bool.eq_iff_iff]
      exact ⟨h.symm.comesOnce_of_comesOnce, h.comesOnce_of_comesOnce⟩
    simp only [fire, honce]

theorem before (h : m.Reordered m') {s s' : State} (hs : s.Reordered s') :
    (m.before s).Reordered (m'.before s') := by
  refine ⟨hs, rfl, ?_, rfl⟩
  apply h.eventNames_eq
  intro e e' he
  unfold Event.isInitiallyArmed
  rw [he.afterStates]

theorem exists_enter (h : m.Reordered m') {prev prev' : Situation} (hprev : prev.Reordered prev')
    {s s' : State} (hs : s.Reordered s') {event? : Option String} {c : Situation}
    (hc : m.enter prev s event? = some c) :
    ∃ c', m'.enter prev' s' event? = some c' ∧ c.Reordered c' := by
  have harms : ((m'.events.filter (·.isArmedBy s'.name)).map Event.name).toFinset =
      ((m.events.filter (·.isArmedBy s.name)).map Event.name).toFinset := by
    rw [hs.name]
    apply h.eventNames_eq
    intro e e' he
    unfold Event.isArmedBy
    rw [he.afterStates]
  unfold enter at hc ⊢
  rw [hs.isFinal_eq]
  split at hc
  · cases hc
  · next hfinal =>
    cases hc
    rw [if_neg hfinal]
    refine ⟨_, rfl, hs, ?_, ?_, ?_⟩
    · rw [hprev.running, hs.stopTimers, hs.startTimer_names_eq]
    · rw [hprev.armed, harms]
    · rw [hprev.fired, h.fire_eq]

/-- What a name stands for in one machine it stands for in the other. -/
theorem exists_state? (h : m.Reordered m') (hwf' : m'.WellFormed) {name : String} {s : State}
    (hs : m.state? name = some s) : ∃ s', m'.state? name = some s' ∧ s.Reordered s' := by
  have hname : s.name = name :=
    beq_iff_eq.mp (List.find?_some (p := fun s : State => s.name == name) hs)
  obtain ⟨s', hs', hss'⟩ := h.states.exists_right (List.mem_of_find?_eq_some hs)
  obtain ⟨i, rfl⟩ := List.get_of_mem hs'
  refine ⟨_, ?_, hss'⟩
  -- no other state of a well-formed machine has the name, so the look-up finds this one
  rw [← hname, ← hss'.name]
  exact state?_name hwf' i

/-! ## Runs -/

theorem leads (h : m.Reordered m') {c c' : Situation} (hc : c.Reordered c') {label : Label}
    {name : String} (hleads : m.Leads c label name) : m'.Leads c' label name := by
  have hshape := hc.state.shape
  generalize hshape' : c'.state.shape = shape' at hshape
  cases hleads with
  | next hnext =>
    rw [hnext] at hshape
    cases hshape with
    | passThrough hnext' =>
      cases hnext'
      exact .next hshape'
  | onEnter hdecision hchoice htarget =>
    rw [hdecision] at hshape
    cases hshape with
    | passThrough hnext' =>
      cases hnext' with
      | decision hperm => exact .onEnter hshape' (hperm.mem_iff.mp hchoice) htarget
  | event he henables hedge hinvoker hlead =>
    obtain ⟨e', he', hee'⟩ := h.events.exists_right he
    obtain ⟨edge', hedge', hsame⟩ := hc.state.eventEdges.exists_right hedge
    rw [← hee'.name] at hinvoker ⊢
    exact .event he' (hc.enables hee' henables) hedge' (hsame.invoker.trans hinvoker)
      (hsame.targets.lead hlead)
  | timer hedge hrunning hlead =>
    obtain ⟨edge', hedge', hsame⟩ := hc.state.timerEdges.exists_right hedge
    rw [← hc.running] at hrunning
    rw [← hsame.invoker] at hrunning ⊢
    exact .timer hedge' hrunning (hsame.targets.lead hlead)

/-- A trail leads to the same place. -/
theorem after (h : m.Reordered m') (hwf' : m'.WellFormed) {trail : Trail String} {c : Situation}
    (hc : m.after trail = some c) : ∃ c', m'.after trail = some c' ∧ c.Reordered c' := by
  induction trail generalizing c with
  | start name =>
    obtain ⟨s, hs, henter⟩ := Option.bind_eq_some_iff.mp hc
    obtain ⟨s', hs', hss'⟩ := h.exists_state? hwf' hs
    rw [Machine.after, hs', Option.bind_some]
    exact h.exists_enter (h.before hss') hss' henter
  | step trail label name ih =>
    obtain ⟨prev, hprev, hc⟩ := Option.bind_eq_some_iff.mp hc
    obtain ⟨s, hs, henter⟩ := Option.bind_eq_some_iff.mp hc
    obtain ⟨prev', hprev', hpp'⟩ := ih hprev
    obtain ⟨s', hs', hss'⟩ := h.exists_state? hwf' hs
    rw [Machine.after, hprev', Option.bind_some, hs', Option.bind_some]
    exact h.exists_enter hpp' hss' henter

theorem run (h : m.Reordered m') (hwf' : m'.WellFormed) {trail : Trail String}
    (hrun : m.Run trail) : m'.Run trail := by
  induction hrun with
  | start =>
    rw [← h.startState]
    exact .start
  | step _ hc hleads ih =>
    obtain ⟨c', hc', hcc'⟩ := h.after hwf' hc
    exact .step ih hc' (h.leads hcc' hleads)

theorem reachable (h : m.Reordered m') (hwf' : m'.WellFormed) {c : Situation}
    (hc : m.Reachable c) : ∃ c', m'.Reachable c' ∧ c.Reordered c' := by
  obtain ⟨trail, hrun, hafter⟩ := hc
  obtain ⟨c', hafter', hcc'⟩ := h.after hwf' hafter
  exact ⟨c', ⟨trail, h.run hwf' hrun, hafter'⟩, hcc'⟩

theorem enters (h : m.Reordered m') (hwf' : m'.WellFormed) {name : String}
    (henters : m.Enters name) : m'.Enters name := by
  obtain ⟨trail, hrun, hname⟩ := henters
  exact ⟨trail, h.run hwf' hrun, hname⟩

/-! ## What shows on a run -/

/-- A fault shows in both machines. Where a fault is that there is no edge or no way to go on, it is
the edges and ways of the other machine that are followed back. -/
theorem shows (h : m.Reordered m') {c c' : Situation} (hc : c.Reordered c') {f : Fault}
    (hshows : m.Shows c f) : m'.Shows c' f := by
  cases hshows with
  | unhandledEvent hbranches he henables hnone =>
    obtain ⟨e', he', hee'⟩ := h.events.exists_right he
    rw [← hc.state.name, ← hee'.name]
    refine .unhandledEvent (hc.state.branches hbranches) he' (hc.enables hee' henables) ?_
    intro edge' hedge'
    obtain ⟨edge, hedge, hsame⟩ := hc.state.eventEdges.exists_left hedge'
    rw [hsame.invoker, hee'.name]
    exact hnone edge hedge
  | missingTimerEdge hbranches hrunning hnone =>
    rw [← hc.running] at hrunning
    rw [← hc.state.name]
    refine .missingTimerEdge (hc.state.branches hbranches) hrunning ?_
    intro edge' hedge'
    obtain ⟨edge, hedge, hsame⟩ := hc.state.timerEdges.exists_left hedge'
    rw [hsame.invoker]
    exact hnone edge hedge
  | ghostTimerEdge hedge hrunning =>
    obtain ⟨edge', hedge', hsame⟩ := hc.state.timerEdges.exists_right hedge
    rw [← hc.running] at hrunning
    rw [← hsame.invoker] at hrunning
    rw [← hc.state.name, ← hsame.invoker]
    exact .ghostTimerEdge hedge' hrunning
  | stall hstuck =>
    rw [← hc.state.name]
    apply Shows.stall
    intro label name hleads
    exact hstuck label name (h.symm.leads hc.symm hleads)

theorem canTake (h : m.Reordered m') (hwf' : m'.WellFormed) {s s' : State} {e e' : Edge}
    (hs' : s' ∈ m'.states) (hss' : s.Reordered s') (hee' : e.Reordered e')
    (htake : m.CanTake s e) : m'.CanTake s' e' := by
  obtain ⟨c, hreachable, rfl, hinvoker⟩ := htake
  obtain ⟨c', hreachable', hcc'⟩ := h.reachable hwf' hreachable
  -- the two states of the other machine that correspond to the same one have one name
  have hstate : c'.state = s' := by
    obtain ⟨i, rfl⟩ := List.get_of_mem hs'
    obtain ⟨configuration, _, rfl⟩ := (reachable_iff hwf').mp hreachable'
    apply (situation_state_eq_iff hwf').mpr
    apply name_inj hwf'.states_nodup
    exact hcc'.state.name.trans hss'.name.symm
  refine ⟨c', hreachable', hstate, ?_⟩
  rw [hee'.kind]
  cases hkind : e.kind with
  | event =>
    rw [hkind] at hinvoker
    obtain ⟨event, hevent, hname, henables⟩ := hinvoker
    obtain ⟨event', hevent', hsame⟩ := h.events.exists_right hevent
    have hname' : event'.name = e'.invoker := by
      rw [hsame.name, hee'.invoker]
      exact hname
    exact ⟨event', hevent', hname', hcc'.enables hsame henables⟩
  | timer =>
    rw [hkind] at hinvoker
    show e'.invoker ∈ c'.running
    rw [hee'.invoker, hcc'.running]
    exact hinvoker

end Reordered

end Machine

end TimedMachine
