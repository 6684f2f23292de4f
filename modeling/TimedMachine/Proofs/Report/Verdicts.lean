import TimedMachine.Checker
import TimedMachine.Proofs.Report.Faults

/-!
# What a report closes with

After the faults of runs, a report lists the states that no run enters and the edges that no run can
take. Each is listed once, and a machine without violations is one whose runs enter all states and
can take all edges, and on whose runs no fault shows.
-/

namespace TimedMachine

/-- The state that a violation reports as one that no run enters. -/
def Violation.unreachable? : Violation → Option String
  | .unreachableState state => some state
  | _ => none

/-- The edge that a violation reports as one that no run can take, by its state, the kind of its
invoker and its invoker. -/
def Violation.unusable? : Violation → Option (String × InvokerKind × String)
  | .unusableEdge state kind invoker _ => some (state, kind, invoker)
  | _ => none

namespace Machine

variable {m : Machine}

/-! ## What the closing violations say -/

theorem mem_violations_reportOf {σ : m.Searches} {v : Violation} :
    v ∈ (m.reportOf σ).violations ↔
      v ∈ m.foundViolations σ ∨ ∃ s, v ∈ m.closingViolations σ s := by
  simp [reportOf]

/-- A problem is neither of the things that a report closes with. -/
theorem kind_of_mem_foundViolations {σ : m.Searches} {v : Violation}
    (hv : v ∈ m.foundViolations σ) :
    v.kind ≠ .unreachableState ∧ v.kind ≠ .unusableEdge := by
  obtain ⟨⟨pr, trail⟩, _, rfl⟩ := List.mem_map.mp hv
  cases pr <;> simp [violation, Violation.kind]

theorem mem_closingViolations {σ : m.Searches} {s : Fin m.states.length} {v : Violation} :
    v ∈ m.closingViolations σ s ↔
      (s ∉ σ.entered ∧ v = .unreachableState (m.stateName s)) ∨
      ∃ e ∈ (m.states.get s).edges, m.isUsable σ s e = false ∧
        v = .unusableEdge (m.stateName s) e.kind e.invoker e.targets := by
  rw [closingViolations, List.mem_append]
  refine or_congr ?_ ?_
  · by_cases hs : s ∈ σ.entered <;> simp [hs]
  · simp only [unusableEdges, List.mem_map, List.mem_filter, Bool.not_eq_true', and_assoc,
      @eq_comm _ _ v]

/-- A complete search has seen an edge usable if a run can come to take it. -/
theorem isUsable_iff (h : m.WellFormed) {s : Fin m.states.length} {e : Edge} :
    m.isUsable (.complete m.plan) s e = true ↔ m.CanTake (m.states.get s) e := by
  unfold isUsable CanTake
  cases e.kind with
  | event =>
    simp only [Option.any_eq_true, decide_eq_true_eq, eventIndex?_eq_some h,
      Search.mem_enabledIn_complete]
    constructor
    · rintro ⟨i, hi, c, hc, hs, henabled⟩
      exact ⟨_, (reachable_iff h).mpr ⟨c, hc, rfl⟩, (situation_state_eq_iff h).mpr hs,
        _, List.get_mem _ _, hi, (enables_iff h).mpr henabled⟩
    · rintro ⟨_, hreachable, hs, _, he, hname, henables⟩
      obtain ⟨c, hc, rfl⟩ := (reachable_iff h).mp hreachable
      obtain ⟨i, rfl⟩ := List.get_of_mem he
      exact ⟨i, hname, c, hc, (situation_state_eq_iff h).mp hs, (enables_iff h).mp henables⟩
  | timer =>
    simp only [Option.any_eq_true, decide_eq_true_eq, timerIndex?_eq_some h,
      Search.mem_runningIn_complete]
    constructor
    · rintro ⟨i, hi, c, hc, hs, hrunning⟩
      exact ⟨_, (reachable_iff h).mpr ⟨c, hc, rfl⟩, (situation_state_eq_iff h).mpr hs,
        Mask.mem_names.mpr ⟨i, hrunning, hi⟩⟩
    · rintro ⟨_, hreachable, hs, hrunning⟩
      obtain ⟨c, hc, rfl⟩ := (reachable_iff h).mp hreachable
      obtain ⟨i, hi, hname⟩ := Mask.mem_names.mp hrunning
      exact ⟨i, hname, c, hc, (situation_state_eq_iff h).mp hs, hi⟩

theorem mem_entered_iff (h : m.WellFormed) {s : Fin m.states.length} :
    s ∈ (Search.complete m.plan).entered ↔ m.Enters (m.stateName s) := by
  rw [Search.mem_entered_complete, enters_name_iff h]

/-- The states that are reported are those that no run enters. -/
theorem unreachableState_mem_explore (h : m.WellFormed) {name : String} :
    .unreachableState name ∈ m.explore.violations ↔
      name ∈ m.states.map State.name ∧ ¬m.Enters name := by
  rw [explore, mem_violations_reportOf]
  simp only [mem_closingViolations, mem_entered_iff h]
  constructor
  · rintro (hv | ⟨s, ⟨hs, hname⟩ | ⟨e, _, _, hv⟩⟩)
    · exact absurd rfl (kind_of_mem_foundViolations hv).1
    · obtain rfl := Violation.unreachableState.inj hname
      exact ⟨List.mem_map.mpr ⟨_, List.get_mem _ _, rfl⟩, hs⟩
    · cases hv
  · rintro ⟨hname, hs⟩
    obtain ⟨s, rfl⟩ := exists_position hname
    exact .inr ⟨s, .inl ⟨hs, rfl⟩⟩

/-- The edges that are reported are those that no run can take. -/
theorem unusableEdge_mem_explore (h : m.WellFormed) {state : String} {kind : InvokerKind}
    {invoker : String} {targets : Targets} :
    .unusableEdge state kind invoker targets ∈ m.explore.violations ↔
      ∃ s ∈ m.states, s.name = state ∧ ∃ e ∈ s.edges, e.kind = kind ∧ e.invoker = invoker ∧
        e.targets = targets ∧ ¬m.CanTake s e := by
  rw [explore, mem_violations_reportOf]
  simp only [mem_closingViolations, Bool.eq_false_iff, ne_eq, isUsable_iff h]
  constructor
  · rintro (hv | ⟨s, ⟨_, hv⟩ | ⟨e, he, htake, hv⟩⟩)
    · exact absurd rfl (kind_of_mem_foundViolations hv).2
    · cases hv
    · obtain ⟨rfl, rfl, rfl, rfl⟩ := Violation.unusableEdge.inj hv
      exact ⟨_, List.get_mem _ _, rfl, e, he, rfl, rfl, rfl, htake⟩
  · rintro ⟨s, hs, rfl, e, he, rfl, rfl, rfl, htake⟩
    obtain ⟨i, rfl⟩ := List.get_of_mem hs
    exact .inr ⟨i, .inr ⟨e, he, htake, rfl⟩⟩

/-! ## Each is said once -/

/-- Lists about one state each have nothing in common. -/
theorem nodup_flatMap_of_state (h : m.WellFormed) {β : Type}
    {part : Fin m.states.length → List β} (stateOf : β → String)
    (hstate : ∀ s, ∀ b ∈ part s, stateOf b = m.stateName s) (hpart : ∀ s, (part s).Nodup) :
    ((List.finRange m.states.length).flatMap part).Nodup := by
  refine List.nodup_flatMap.mpr ⟨fun s _ => hpart s, ?_⟩
  refine (List.nodup_finRange _).imp fun {s s'} hne => ?_
  intro b hb hb'
  exact hne (name_inj h.states_nodup ((hstate s b hb).symm.trans (hstate s' b hb')))

/-- The edges of a state differ in their invokers, or in the kind of invoker. -/
theorem nodup_invokers (h : m.WellFormed) {s : State} (hs : s ∈ m.states) :
    (s.edges.map fun e => (s.name, e.kind, e.invoker)).Nodup := by
  have hevents := h.eventEdges hs
  have htimers := h.timerEdges hs
  have hpart : ∀ es : List Edge, (es.map Edge.invoker).Nodup →
      (es.map fun e => (s.name, e.kind, e.invoker)).Nodup := by
    intro es hes
    refine List.Nodup.of_map (fun triple => triple.2.2) ?_
    rw [List.map_map]
    exact hes
  rw [State.edges, List.map_append]
  refine List.nodup_append.mpr ⟨hpart _ hevents.nodup, hpart _ htimers.nodup, ?_⟩
  intro x hx y hy
  obtain ⟨e, he, rfl⟩ := List.mem_map.mp hx
  obtain ⟨e', he', rfl⟩ := List.mem_map.mp hy
  intro heq
  have hkind : e.kind = e'.kind := congrArg (fun triple => triple.2.1) heq
  rw [(hevents.edge e he).kind_eq, (htimers.edge e' he').kind_eq] at hkind
  cases hkind

/-- What is said about no problem is said in the closing violations. -/
theorem filterMap_violations_of_closing {β : Type} {g : Violation → Option β} {σ : m.Searches}
    (hg : ∀ trail pr, g (m.violation trail pr) = none) :
    (m.reportOf σ).violations.filterMap g =
      (List.finRange m.states.length).flatMap fun s => (m.closingViolations σ s).filterMap g := by
  have hfound : (m.foundViolations σ).filterMap g = [] := by
    rw [List.filterMap_eq_nil_iff]
    intro v hv
    obtain ⟨⟨pr, trail⟩, _, rfl⟩ := List.mem_map.mp hv
    exact hg trail pr
  rw [filterMap_violations, hfound, List.nil_append]

theorem nodup_unreachable_explore (h : m.WellFormed) :
    (m.explore.violations.filterMap Violation.unreachable?).Nodup := by
  have hpart : ∀ s, (m.closingViolations (.complete m.plan) s).filterMap Violation.unreachable? =
      if s ∈ (Search.complete m.plan).entered then [] else [m.stateName s] := by
    intro s
    rw [closingViolations, List.filterMap_append, unusableEdges, List.filterMap_map]
    split <;> simp [Violation.unreachable?, Function.comp_def]
  rw [explore, filterMap_violations_of_closing]
  · refine nodup_flatMap_of_state h id ?_ ?_
    · intro s name hname
      rw [hpart] at hname
      split at hname
      · cases hname
      · exact List.mem_singleton.mp hname
    · intro s
      rw [hpart]
      split <;> simp
  · intro trail pr
    cases pr <;> rfl

theorem nodup_unusable_explore (h : m.WellFormed) :
    (m.explore.violations.filterMap Violation.unusable?).Nodup := by
  have hpart : ∀ s, (m.closingViolations (.complete m.plan) s).filterMap Violation.unusable? =
      ((m.states.get s).edges.filter fun e => !m.isUsable (.complete m.plan) s e).map fun e =>
        (m.stateName s, e.kind, e.invoker) := by
    intro s
    rw [closingViolations, List.filterMap_append, unusableEdges, List.filterMap_map,
      ← List.filterMap_eq_map]
    split <;> rfl
  rw [explore, filterMap_violations_of_closing]
  · refine nodup_flatMap_of_state h Prod.fst ?_ ?_
    · intro s triple htriple
      rw [hpart] at htriple
      obtain ⟨e, _, rfl⟩ := List.mem_map.mp htriple
      rfl
    · intro s
      rw [hpart]
      -- fewer edges than the state has, all of them different
      exact (nodup_invokers h (List.get_mem _ s)).sublist (List.filter_sublist.map _)
  · intro trail pr
    cases pr <;> rfl

/-! ## Machines without violations -/

/-- No fault shows where a run stands if every event that may come and exactly the timers that run
have edges, and there is a way to go on. -/
theorem not_shows_iff {c : Situation} :
    (∀ f, ¬m.Shows c f) ↔
      (c.state.Branches →
        (∀ e ∈ m.events, c.Enables e → ∃ edge ∈ c.state.eventEdges, edge.invoker = e.name) ∧
        (∀ timer ∈ c.running, ∃ edge ∈ c.state.timerEdges, edge.invoker = timer) ∧
        ∀ edge ∈ c.state.timerEdges, edge.invoker ∈ c.running) ∧
      ∃ label name, m.Leads c label name := by
  constructor
  · intro hnone
    refine ⟨fun hbranches => ⟨?_, ?_, ?_⟩, ?_⟩
    · intro e he henables
      by_contra hedges
      exact hnone _ (.unhandledEvent hbranches he henables fun edge hedge hname =>
        hedges ⟨edge, hedge, hname⟩)
    · intro timer ht
      by_contra hedges
      exact hnone _ (.missingTimerEdge hbranches ht fun edge hedge hname =>
        hedges ⟨edge, hedge, hname⟩)
    · intro edge hedge
      by_contra hrunning
      exact hnone _ (.ghostTimerEdge hedge hrunning)
    · by_contra hleads
      exact hnone _ (.stall fun label name hlead => hleads ⟨label, name, hlead⟩)
  · rintro ⟨hedges, label, name, hleads⟩ f hshows
    cases hshows with
    | unhandledEvent hbranches he henables hnone =>
      obtain ⟨edge, hedge, hname⟩ := (hedges hbranches).1 _ he henables
      exact hnone edge hedge hname
    | missingTimerEdge hbranches ht hnone =>
      obtain ⟨edge, hedge, hname⟩ := (hedges hbranches).2.1 _ ht
      exact hnone edge hedge hname
    | ghostTimerEdge hedge hrunning =>
      obtain ⟨es, ts, hshape, _⟩ := State.mem_timerEdges.mp hedge
      exact hrunning ((hedges ⟨es, ts, hshape⟩).2.2 _ hedge)
    | stall hstuck => exact hstuck label name hleads

/-- A report has no violations if no fault shows on a run, and runs enter all states and can take
all edges. -/
theorem violations_explore_eq_nil_iff (h : m.WellFormed) :
    m.explore.violations = [] ↔
      (∀ s ∈ m.states, m.Enters s.name) ∧ (∀ s ∈ m.states, ∀ e ∈ s.edges, m.CanTake s e) ∧
      ∀ c, m.Reachable c → ∀ f, ¬m.Shows c f := by
  constructor
  · intro hnil
    refine ⟨fun s hs => ?_, fun s hs e he => ?_, fun c hc f hshows => ?_⟩
    · by_contra henters
      have hmem := (unreachableState_mem_explore h).mpr ⟨List.mem_map.mpr ⟨s, hs, rfl⟩, henters⟩
      rw [hnil] at hmem
      cases hmem
    · by_contra htake
      have hmem := (unusableEdge_mem_explore h).mpr ⟨s, hs, rfl, e, he, rfl, rfl, rfl, htake⟩
      rw [hnil] at hmem
      cases hmem
    · have hmem := (mem_faults_explore h).mpr ⟨c, hc, hshows⟩
      rw [hnil] at hmem
      cases hmem
  · rintro ⟨henters, htake, hnone⟩
    refine List.eq_nil_iff_forall_not_mem.mpr fun v hv => ?_
    rcases mem_violations_reportOf.mp hv with hfound | ⟨s, hclosing⟩
    · obtain ⟨⟨pr, trail⟩, _, rfl⟩ := List.mem_map.mp hfound
      obtain ⟨c, hc, hshows⟩ := (mem_faults_explore h).mp
        (List.mem_filterMap.mpr ⟨_, hv, fault?_violation trail pr⟩)
      exact hnone c hc _ hshows
    · rcases mem_closingViolations.mp hclosing with ⟨hs, _⟩ | ⟨e, he, hunused, _⟩
      · exact hs ((mem_entered_iff h).mpr (henters _ (List.get_mem _ s)))
      · rw [(isUsable_iff h).mpr (htake _ (List.get_mem _ s) e he)] at hunused
        cases hunused

/-- The report on a machine that was loaded lists each state that no run enters once, and each edge
that no run can take once, and no others. So the pass over its paths finds nothing wrong if and only
if runs enter every state and can take every edge, and wherever a run comes to stand, every event
that may come and exactly the timers that run have edges, and there is a way to go on. -/
theorem explore_verdicts_exact {t : Token} (h : ofToken t = .ok m) :
    (∀ name, .unreachableState name ∈ m.explore.violations ↔
      name ∈ m.states.map State.name ∧ ¬m.Enters name) ∧
    (m.explore.violations.filterMap Violation.unreachable?).Nodup ∧
    (∀ state kind invoker targets,
      .unusableEdge state kind invoker targets ∈ m.explore.violations ↔
        ∃ s ∈ m.states, s.name = state ∧ ∃ e ∈ s.edges, e.kind = kind ∧ e.invoker = invoker ∧
          e.targets = targets ∧ ¬m.CanTake s e) ∧
    (m.explore.violations.filterMap Violation.unusable?).Nodup ∧
    (m.violationsOf .paths = [] ↔
      (∀ s ∈ m.states, m.Enters s.name) ∧ (∀ s ∈ m.states, ∀ e ∈ s.edges, m.CanTake s e) ∧
      ∀ c, m.Reachable c →
        (c.state.Branches →
          (∀ e ∈ m.events, c.Enables e → ∃ edge ∈ c.state.eventEdges, edge.invoker = e.name) ∧
          (∀ timer ∈ c.running, ∃ edge ∈ c.state.timerEdges, edge.invoker = timer) ∧
          ∀ edge ∈ c.state.timerEdges, edge.invoker ∈ c.running) ∧
        ∃ label name, m.Leads c label name) := by
  have hwf := wellFormed_of_ofToken h
  refine ⟨fun name => unreachableState_mem_explore hwf, nodup_unreachable_explore hwf,
    fun state kind invoker targets => unusableEdge_mem_explore hwf, nodup_unusable_explore hwf, ?_⟩
  simp only [violationsOf, violations_explore_eq_nil_iff hwf, not_shows_iff]

/-- Nothing leads to the spare state of the door, as the report says. -/
theorem explore_verdicts_exact_door : ¬doorMachine.Enters "Spare" := by
  obtain ⟨hstates, _⟩ := explore_verdicts_exact ofToken_door
  exact ((hstates "Spare").mp (by decide +kernel)).2

end Machine

end TimedMachine
