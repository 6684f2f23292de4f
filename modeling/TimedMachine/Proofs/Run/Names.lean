import TimedMachine.Explore.Report
import TimedMachine.Proofs.Machine.WellFormed
import TimedMachine.Proofs.Run.Basic

/-!
# Names and positions

The tables of a machine speak of its states, timers and events by position. In a well-formed
machine each name has one position, so a configuration of the tables stands for one situation of a
run, and to enter a state by the tables is to enter it by name.
-/

namespace TimedMachine

/-! ## Lists with distinct names -/

section Named

variable {α : Type} {f : α → String} {l : List α}

theorem name_inj (h : (l.map f).Nodup) {i j : Fin l.length}
    (hij : f (l.get i) = f (l.get j)) : i = j := by
  have hi : i.val < (l.map f).length := by simp
  have hj : j.val < (l.map f).length := by simp
  have heq : (l.map f)[i.val] = (l.map f)[j.val] := by
    rw [List.getElem_map, List.getElem_map]
    exact hij
  exact Fin.ext (h.getElem_inj_iff.mp heq)

theorem exists_position {name : String} (h : name ∈ l.map f) :
    ∃ i : Fin l.length, f (l.get i) = name := by
  obtain ⟨a, ha, rfl⟩ := List.mem_map.mp h
  obtain ⟨i, rfl⟩ := List.get_of_mem ha
  exact ⟨i, rfl⟩

theorem findFinIdx?_name_eq_some (h : (l.map f).Nodup) {name : String} {i : Fin l.length} :
    l.findFinIdx? (f · == name) = some i ↔ f (l.get i) = name := by
  rw [List.findFinIdx?_eq_some_iff]
  constructor
  · rintro ⟨hi, _⟩
    exact beq_iff_eq.mp hi
  · intro hi
    refine ⟨beq_iff_eq.mpr hi, fun j hj hj' => ?_⟩
    have hname : f (l.get j) = f (l.get i) := (beq_iff_eq.mp hj').trans hi.symm
    exact absurd (name_inj h hname) (Fin.ne_of_lt hj)

theorem find?_name (h : (l.map f).Nodup) (i : Fin l.length) :
    l.find? (f · == f (l.get i)) = some (l.get i) := by
  have hsome : (l.find? (f · == f (l.get i))).isSome :=
    List.find?_isSome.mpr ⟨l.get i, List.get_mem _ _, beq_self_eq_true _⟩
  obtain ⟨a, ha⟩ := Option.isSome_iff_exists.mp hsome
  -- whatever is found has the name, and no other has it
  obtain ⟨j, rfl⟩ := List.get_of_mem (List.mem_of_find?_eq_some ha)
  have hname : f (l.get j) = f (l.get i) :=
    beq_iff_eq.mp (List.find?_some (p := (f · == f (l.get i))) ha)
  obtain rfl := name_inj h hname
  exact ha

/-- The names of the members of a mask. -/
def Mask.names (mask : Mask l.length) (f : α → String) : Finset String :=
  (mask.toList.map fun i => f (l.get i)).toFinset

theorem Mask.mem_names {mask : Mask l.length} {name : String} :
    name ∈ mask.names f ↔ ∃ i, i ∈ mask ∧ f (l.get i) = name := by
  simp [Mask.names]

theorem Mask.get_mem_names (h : (l.map f).Nodup) {mask : Mask l.length} {i : Fin l.length} :
    f (l.get i) ∈ mask.names f ↔ i ∈ mask := by
  rw [Mask.mem_names]
  constructor
  · rintro ⟨j, hj, hij⟩
    obtain rfl := name_inj h hij
    exact hj
  · exact fun hi => ⟨i, hi, rfl⟩

theorem Mask.eq_of_names_eq (h : (l.map f).Nodup) {a b : Mask l.length}
    (hab : a.names f = b.names f) : a = b := by
  apply Mask.ext
  intro i
  rw [← Mask.get_mem_names h, hab, Mask.get_mem_names h]

end Named

namespace Machine

variable {m : Machine}

/-! ## Lookups -/

theorem stateIndex?_eq_some (h : m.WellFormed) {name : String} {s : Fin m.states.length} :
    m.stateIndex? name = some s ↔ m.stateName s = name :=
  findFinIdx?_name_eq_some h.states_nodup

theorem timerIndex?_eq_some (h : m.WellFormed) {name : String} {t : Fin m.timers.length} :
    m.timerIndex? name = some t ↔ m.timerName t = name :=
  findFinIdx?_name_eq_some h.timers_nodup

theorem eventIndex?_eq_some (h : m.WellFormed) {name : String} {e : Fin m.events.length} :
    m.eventIndex? name = some e ↔ m.eventName e = name :=
  findFinIdx?_name_eq_some h.events_nodup

theorem state?_name (h : m.WellFormed) (s : Fin m.states.length) :
    m.state? (m.stateName s) = some (m.states.get s) :=
  find?_name h.states_nodup s

/-- An event that comes only once is declared to. -/
theorem comesOnce_name (h : m.WellFormed) (e : Fin m.events.length) :
    m.comesOnce (m.eventName e) = (m.events.get e).onlyOnce := by
  rw [Bool.eq_iff_iff, comesOnce, List.any_eq_true]
  constructor
  · rintro ⟨e', he', hname⟩
    obtain ⟨i, rfl⟩ := List.get_of_mem he'
    rw [Bool.and_eq_true, beq_iff_eq] at hname
    obtain rfl : i = e := name_inj h.events_nodup hname.1
    exact hname.2
  · exact fun honce => ⟨m.events.get e, List.get_mem _ _, by rw [honce, beq_self_eq_true]; rfl⟩

/-! ## Situations -/

/-- The situation that a configuration stands for. -/
def situation (m : Machine) (c : Configuration m.states.length m.timers.length m.events.length) :
    Situation :=
  ⟨m.states.get c.state, c.running.names Timer.name, c.armed.names Event.name,
    c.fired.names Event.name⟩

variable {c : Configuration m.states.length m.timers.length m.events.length}

/-- Different configurations stand for different situations. -/
theorem situation_injective (h : m.WellFormed) : Function.Injective m.situation := by
  rintro ⟨s, running, armed, fired⟩ ⟨s', running', armed', fired'⟩ heq
  simp only [situation, Situation.mk.injEq] at heq
  obtain ⟨hs, hrunning, harmed, hfired⟩ := heq
  cases name_inj h.states_nodup (congrArg State.name hs)
  cases Mask.eq_of_names_eq h.timers_nodup hrunning
  cases Mask.eq_of_names_eq h.events_nodup harmed
  cases Mask.eq_of_names_eq h.events_nodup hfired
  rfl

theorem timer_mem_running (h : m.WellFormed) {t : Fin m.timers.length} :
    m.timerName t ∈ (m.situation c).running ↔ t ∈ c.running :=
  Mask.get_mem_names h.timers_nodup

theorem mem_onlyOnce {e : Fin m.events.length} :
    e ∈ m.plan.onlyOnce ↔ (m.events.get e).onlyOnce = true := by
  simp [plan]

theorem mem_initiallyArmed {e : Fin m.events.length} :
    e ∈ m.plan.initiallyArmed ↔ (m.events.get e).isInitiallyArmed = true := by
  simp [plan]

theorem mem_starts {s : Fin m.states.length} {t : Fin m.timers.length} :
    t ∈ (m.plan.rows.get s).starts ↔ (m.states.get s).startsTimer (m.timerName t) = true := by
  rw [get_rows, row, Mask.mem_ofPred]

theorem mem_stops {s : Fin m.states.length} {t : Fin m.timers.length} :
    t ∈ (m.plan.rows.get s).stops ↔ (m.states.get s).stopsTimer (m.timerName t) = true := by
  rw [get_rows, row, Mask.mem_ofPred]

theorem mem_arms {s : Fin m.states.length} {e : Fin m.events.length} :
    e ∈ (m.plan.rows.get s).arms ↔ (m.events.get e).isArmedBy (m.stateName s) = true := by
  rw [get_rows, row, Mask.mem_ofPred]

/-- The tables enable the same events. -/
theorem enables_iff (h : m.WellFormed) {e : Fin m.events.length} :
    (m.situation c).Enables (m.events.get e) ↔ e ∈ m.plan.enabled c := by
  have harmed : m.eventName e ∈ (m.situation c).armed ↔ e ∈ c.armed :=
    Mask.get_mem_names h.events_nodup
  have hfired : m.eventName e ∈ (m.situation c).fired ↔ e ∈ c.fired :=
    Mask.get_mem_names h.events_nodup
  rw [Plan.mem_enabled, mem_onlyOnce, Situation.Enables, harmed, hfired]

/-! ## Entering states -/

theorem situation_before (m : Machine) (s : Fin m.states.length) :
    m.situation (m.plan.before s) = m.before (m.states.get s) := by
  have hnone : ∀ {α : Type} {f : α → String} {l : List α},
      (Mask.empty : Mask l.length).names f = ∅ := by
    intro α f l
    ext name
    simp [Mask.mem_names]
  have harmed : m.plan.initiallyArmed.names Event.name =
      ((m.events.filter Event.isInitiallyArmed).map Event.name).toFinset := by
    ext name
    rw [Mask.mem_names, List.mem_toFinset, List.mem_map]
    constructor
    · rintro ⟨e, he, rfl⟩
      exact ⟨_, List.mem_filter.mpr ⟨List.get_mem _ _, mem_initiallyArmed.mp he⟩, rfl⟩
    · rintro ⟨e, he, rfl⟩
      obtain ⟨he, harmed⟩ := List.mem_filter.mp he
      obtain ⟨i, rfl⟩ := List.get_of_mem he
      exact ⟨i, mem_initiallyArmed.mpr harmed, rfl⟩
  simp only [situation, Plan.before, before, hnone, harmed]

/-- Timers stop and start by the tables as they do by name. -/
theorem running_names (h : m.WellFormed) {s : Fin m.states.length}
    (running : Mask m.timers.length) :
    ((running.diff (m.plan.rows.get s).stops).union (m.plan.rows.get s).starts).names Timer.name =
      (running.names Timer.name \ (m.states.get s).stopTimers.toFinset) ∪
        ((m.states.get s).startTimers.map TimerStart.timer).toFinset := by
  have hstops : ∀ t, t ∈ (m.plan.rows.get s).stops ↔
      m.timerName t ∈ (m.states.get s).stopTimers := by
    intro t
    rw [mem_stops, State.stopsTimer, List.contains_iff_mem]
  have hstarts : ∀ t, t ∈ (m.plan.rows.get s).starts ↔
      m.timerName t ∈ (m.states.get s).startTimers.map TimerStart.timer := by
    intro t
    rw [mem_starts]
    simp [State.startsTimer]
  have hs := h.state _ (List.get_mem _ s)
  ext name
  simp only [Mask.mem_names, Mask.mem_union, Mask.mem_diff, hstops, hstarts, Finset.mem_union,
    Finset.mem_sdiff, List.mem_toFinset]
  constructor
  · rintro ⟨t, ⟨ht, hstop⟩ | hstart, rfl⟩
    · exact .inl ⟨⟨t, ht, rfl⟩, hstop⟩
    · exact .inr hstart
  · rintro (⟨⟨t, ht, rfl⟩, hstop⟩ | hstart)
    · exact ⟨t, .inl ⟨ht, hstop⟩, rfl⟩
    · -- a timer that is started is declared, so it has a position
      obtain ⟨start, hin, rfl⟩ := List.mem_map.mp hstart
      obtain ⟨t, ht⟩ := exists_position (hs.starts_declared start hin)
      have hname : m.timerName t = start.timer := ht
      exact ⟨t, .inr (hname ▸ hstart), hname⟩

theorem armed_names (m : Machine) {s : Fin m.states.length} (armed : Mask m.events.length) :
    (armed.union (m.plan.rows.get s).arms).names Event.name = armed.names Event.name ∪
      ((m.events.filter (·.isArmedBy (m.stateName s))).map Event.name).toFinset := by
  ext name
  simp only [Mask.mem_names, Mask.mem_union, mem_arms, Finset.mem_union, List.mem_toFinset,
    List.mem_map, List.mem_filter]
  constructor
  · rintro ⟨e, he | he, rfl⟩
    · exact .inl ⟨e, he, rfl⟩
    · exact .inr ⟨_, ⟨List.get_mem _ _, he⟩, rfl⟩
  · rintro (⟨e, he, rfl⟩ | ⟨e, ⟨hin, he⟩, rfl⟩)
    · exact ⟨e, .inl he, rfl⟩
    · obtain ⟨i, rfl⟩ := List.get_of_mem hin
      exact ⟨i, .inr he, rfl⟩

theorem fired_names (h : m.WellFormed) (fired : Mask m.events.length)
    (event : Option (Fin m.events.length)) :
    (m.plan.fire fired event).names Event.name =
      m.fire (fired.names Event.name) (event.map m.eventName) := by
  cases event with
  | none => rfl
  | some e =>
    simp only [Plan.fire, Option.map_some, fire, comesOnce_name h]
    by_cases honce : (m.events.get e).onlyOnce = true
    · rw [if_pos (mem_onlyOnce.mpr honce), if_pos honce]
      ext name
      simp only [Mask.mem_names, Mask.mem_insert, Finset.mem_insert]
      constructor
      · rintro ⟨i, hi | rfl, rfl⟩
        · exact .inr ⟨i, hi, rfl⟩
        · exact .inl rfl
      · rintro (rfl | ⟨i, hi, rfl⟩)
        · exact ⟨e, .inr rfl, rfl⟩
        · exact ⟨i, .inl hi, rfl⟩
    · rw [if_neg (mt mem_onlyOnce.mp honce), if_neg honce]

/-- To enter a state by the tables is to enter it by name. -/
theorem enter_situation (h : m.WellFormed)
    (prev : Configuration m.states.length m.timers.length m.events.length)
    (s : Fin m.states.length) (event : Option (Fin m.events.length)) :
    m.enter (m.situation prev) (m.states.get s) (event.map m.eventName) =
      (m.plan.enter? prev s event).map m.situation := by
  have hfinal : (m.plan.rows.get s).body.isFinal = (m.states.get s).isFinal := by
    rw [get_rows, row, State.isFinal]
    cases (m.states.get s).shape <;> rfl
  simp only [enter, Plan.enter?, hfinal]
  split
  · rfl
  · simp only [Option.map_some, situation, running_names h, armed_names, fired_names h]

end Machine

end TimedMachine
