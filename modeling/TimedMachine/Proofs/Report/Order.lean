import TimedMachine.Proofs.Naming.Signatures
import TimedMachine.Proofs.Report.Size
import TimedMachine.Proofs.Report.Verdicts
import TimedMachine.Proofs.Run.Order

/-!
# Verdicts do not depend on order

The order of members in a specification decides which state a search numbers first, which run comes
to a fault first and which use of a callback name is compared with the others. What the checks find
does not depend on it: they find a fault if it shows on some run, a name if two of its uses
disagree, and a timer if no state starts it, and to each of these the order of lists is all the same
(`Machine.verdict_of_reordered`).
-/

namespace TimedMachine

/-! ## Findings on paths -/

/-- What a violation on the paths of a machine says, leaving aside how a run gets there and where
edges lead. -/
structure Finding where
  kind : ViolationKind
  state : String
  invoker : Option (InvokerKind × String)
deriving DecidableEq

/-- The finding of a violation, if it is one on paths. -/
def Violation.finding? : Violation → Option Finding
  | .unhandledEvent state event _ => some ⟨.unhandledEvent, state, some (.event, event)⟩
  | .missingTimerEdge state timer _ => some ⟨.missingTimerEdge, state, some (.timer, timer)⟩
  | .ghostTimerEdge state timer _ => some ⟨.ghostTimerEdge, state, some (.timer, timer)⟩
  | .stall state _ => some ⟨.stall, state, none⟩
  | .unreachableState state => some ⟨.unreachableState, state, none⟩
  | .unusableEdge state kind invoker _ => some ⟨.unusableEdge, state, some (kind, invoker)⟩
  | .unusedTimer _ | .ambiguousCallback _ _ _ | .conflictingDecisionTargets _ _ _ => none

/-- The finding that a fault is reported as. -/
def Fault.finding : Fault → Finding
  | .unhandledEvent state event => ⟨.unhandledEvent, state, some (.event, event)⟩
  | .missingTimerEdge state timer => ⟨.missingTimerEdge, state, some (.timer, timer)⟩
  | .ghostTimerEdge state timer => ⟨.ghostTimerEdge, state, some (.timer, timer)⟩
  | .stall state => ⟨.stall, state, none⟩

theorem Violation.finding?_of_fault? {v : Violation} {f : Fault} (h : v.fault? = some f) :
    v.finding? = some f.finding := by
  cases v <;> cases h <;> rfl

/-- A finding comes from a fault, from a state that is not reached or from an edge that cannot be
taken. -/
theorem Violation.finding?_eq_some {v : Violation} {f : Finding} (h : v.finding? = some f) :
    (∃ fault, v.fault? = some fault ∧ fault.finding = f) ∨
      (∃ name, v = .unreachableState name ∧ f = ⟨.unreachableState, name, none⟩) ∨
      ∃ state kind invoker targets, v = .unusableEdge state kind invoker targets ∧
        f = ⟨.unusableEdge, state, some (kind, invoker)⟩ := by
  cases v with
  | unhandledEvent | missingTimerEdge | ghostTimerEdge | stall =>
    exact .inl ⟨_, rfl, Option.some.inj h⟩
  | unreachableState => exact .inr (.inl ⟨_, rfl, (Option.some.inj h).symm⟩)
  | unusableEdge => exact .inr (.inr ⟨_, _, _, _, rfl, (Option.some.inj h).symm⟩)
  | unusedTimer | ambiguousCallback | conflictingDecisionTargets => cases h

/-- What tells the situations of a machine apart: the name of the state, and what runs, is armed and
has fired. -/
def Situation.key (c : Situation) : String × Finset String × Finset String × Finset String :=
  (c.state.name, c.running, c.armed, c.fired)

theorem Situation.Reordered.key_eq {c c' : Situation} (h : c.Reordered c') : c'.key = c.key := by
  unfold Situation.key
  rw [h.state.name, h.running, h.armed, h.fired]

namespace Machine

variable {m m' : Machine}

/-- The findings on the paths of a machine. -/
def findings (m : Machine) : List Finding := m.explore.violations.filterMap Violation.finding?

/-- What is found: the faults that show on runs, the states that no run enters and the edges that
no run can take. -/
theorem mem_findings (h : m.WellFormed) {f : Finding} :
    f ∈ m.findings ↔
      (∃ fault c, m.Reachable c ∧ m.Shows c fault ∧ fault.finding = f) ∨
      (∃ s ∈ m.states, ¬m.Enters s.name ∧ f = ⟨.unreachableState, s.name, none⟩) ∨
      ∃ s ∈ m.states, ∃ e ∈ s.edges, ¬m.CanTake s e ∧
        f = ⟨.unusableEdge, s.name, some (e.kind, e.invoker)⟩ := by
  unfold findings
  rw [List.mem_filterMap]
  constructor
  · intro hf
    obtain ⟨v, hv, hfinding⟩ := hf
    rcases Violation.finding?_eq_some hfinding with
      ⟨fault, hfault, rfl⟩ | ⟨name, rfl, rfl⟩ | ⟨state, kind, invoker, targets, rfl, rfl⟩
    · obtain ⟨c, hc, hshows⟩ := (mem_faults_explore h).mp (List.mem_filterMap.mpr ⟨v, hv, hfault⟩)
      exact .inl ⟨fault, c, hc, hshows, rfl⟩
    · obtain ⟨hname, hnot⟩ := (unreachableState_mem_explore h).mp hv
      obtain ⟨s, hs, rfl⟩ := List.mem_map.mp hname
      exact .inr (.inl ⟨s, hs, hnot, rfl⟩)
    · obtain ⟨s, hs, rfl, e, he, rfl, rfl, rfl, hnot⟩ := (unusableEdge_mem_explore h).mp hv
      exact .inr (.inr ⟨s, hs, e, he, hnot, rfl⟩)
  · rintro (⟨fault, c, hc, hshows, rfl⟩ | ⟨s, hs, hnot, rfl⟩ | ⟨s, hs, e, he, hnot, rfl⟩)
    · obtain ⟨v, hv, hfault⟩ := List.mem_filterMap.mp ((mem_faults_explore h).mpr ⟨c, hc, hshows⟩)
      exact ⟨v, hv, Violation.finding?_of_fault? hfault⟩
    · have hname : s.name ∈ m.states.map State.name := List.mem_map.mpr ⟨s, hs, rfl⟩
      exact ⟨_, (unreachableState_mem_explore h).mpr ⟨hname, hnot⟩, rfl⟩
    · exact ⟨_, (unusableEdge_mem_explore h).mpr ⟨s, hs, rfl, e, he, rfl, rfl, rfl, hnot⟩, rfl⟩

/-- A report without violations is one without findings. -/
theorem violations_explore_eq_nil_iff_findings (h : m.WellFormed) :
    m.explore.violations = [] ↔ ∀ f, f ∉ m.findings := by
  constructor
  · intro hnil f hf
    unfold findings at hf
    rw [hnil] at hf
    cases hf
  · intro hnone
    rw [violations_explore_eq_nil_iff h]
    refine ⟨fun s hs => ?_, fun s hs e he => ?_, fun c hc fault hshows => ?_⟩
    · by_contra hnot
      exact hnone _ ((mem_findings h).mpr (.inr (.inl ⟨s, hs, hnot, rfl⟩)))
    · by_contra hnot
      exact hnone _ ((mem_findings h).mpr (.inr (.inr ⟨s, hs, e, he, hnot, rfl⟩)))
    · exact hnone _ ((mem_findings h).mpr (.inl ⟨fault, c, hc, hshows, rfl⟩))

/-! ## Configurations -/

theorem key_situation_injective (h : m.WellFormed) :
    Function.Injective fun c => Situation.key (m.situation c) := by
  intro c c' hkey
  simp only [Situation.key, Prod.mk.injEq] at hkey
  obtain ⟨hname, hsets⟩ := hkey
  have hstate : (m.situation c).state = (m.situation c').state :=
    congrArg m.states.get (name_inj h.states_nodup hname)
  exact situation_injective h ((Situation.mk.injEq ..).mpr ⟨hstate, hsets⟩)

/-- A report counts what tells apart the situations that runs come to. -/
theorem configurations_explore (h : m.WellFormed) :
    m.explore.configurations = (Situation.key '' {c | m.Reachable c}).ncard := by
  have hinj : Set.InjOn Situation.key {c | m.Reachable c} := by
    intro c hc c' hc' hkey
    obtain ⟨d, -, rfl⟩ := (reachable_iff h).mp hc
    obtain ⟨d', -, rfl⟩ := (reachable_iff h).mp hc'
    exact congrArg m.situation (key_situation_injective h hkey)
  rw [configurations_eq_ncard h, hinj.ncard_image]

end Machine

/-! ## Uses of callback names -/

theorem Targets.Reordered.choiceNames_eq {targets targets' : Targets}
    (h : targets.Reordered targets') : targets'.choiceNames = targets.choiceNames := by
  cases h with
  | single => rfl
  | decision hperm => exact Targets.choiceNames_eq_of_perm (hperm.symm.map Choice.name)

theorem Edge.Reordered.callbackUse?_eq {e e' : Edge} (h : e.Reordered e') (state : String)
    (shape : CallbackShape) : e'.callbackUse? state shape = e.callbackUse? state shape := by
  obtain ⟨invoker, kind, targets, callbacks, comment⟩ := e
  obtain ⟨invoker', kind', targets', callbacks', comment'⟩ := e'
  obtain ⟨hinvoker, hkind, htargets, -, -⟩ := h
  obtain rfl : invoker' = invoker := hinvoker
  obtain rfl : kind' = kind := hkind
  have hcompose : shape.compose state ⟨invoker', kind', targets', callbacks', comment'⟩ =
      shape.compose state ⟨invoker', kind', targets, callbacks, comment⟩ := by
    cases htargets <;> rfl
  have hchoices : targets'.choiceNames = targets.choiceNames := htargets.choiceNames_eq
  simp only [Edge.callbackUse?, hcompose, hchoices]

namespace Machine

variable {m m' : Machine}

/-! ## Unused timers -/

theorem mem_unusedTimers {v : Violation} :
    v ∈ m.unusedTimers ↔ ∃ t ∈ m.timers, (∀ s ∈ m.states, s.startsTimer t.name = false) ∧
      v = .unusedTimer t.name := by
  simp only [unusedTimers, List.mem_map, List.mem_filter, Bool.not_eq_true', List.any_eq_false,
    Bool.not_eq_true, and_assoc, @eq_comm _ _ v]

theorem unusedTimers_eq_nil_iff :
    m.unusedTimers = [] ↔ ∀ timer, .unusedTimer timer ∉ m.unusedTimers := by
  constructor
  · intro hnil timer htimer
    rw [hnil] at htimer
    cases htimer
  · intro hnone
    apply List.eq_nil_iff_forall_not_mem.mpr
    intro v hv
    obtain ⟨t, _, _, rfl⟩ := mem_unusedTimers.mp hv
    exact hnone t.name hv

/-- A machine passes all checks if no pass finds anything. -/
theorem validate_eq_nil_iff (h : m.WellFormed) :
    m.validate = [] ↔ (∀ f, f ∉ m.findings) ∧ (∀ timer, .unusedTimer timer ∉ m.unusedTimers) ∧
      ∀ name, name ∉ m.namingViolations.filterMap Violation.callbackName? := by
  rw [← violations_explore_eq_nil_iff_findings h, ← unusedTimers_eq_nil_iff,
    ← namingViolations_eq_nil_iff]
  unfold validate
  rw [List.append_eq_nil_iff, List.append_eq_nil_iff, and_assoc]

/-! ## What reordering does not change -/

namespace Reordered

theorem mem_callbackUses (h : m.Reordered m') {u : CallbackUse} (hu : u ∈ m.callbackUses) :
    u ∈ m'.callbackUses := by
  rw [Machine.mem_callbackUses] at hu ⊢
  obtain ⟨s, hs, e, he, shape, hshape, huse⟩ := hu
  obtain ⟨s', hs', hss'⟩ := h.states.exists_right hs
  obtain ⟨e', he', hee'⟩ := hss'.exists_edge he
  refine ⟨s', hs', e', he', shape, ?_, ?_⟩
  · rw [hee'.callbacks]
    exact hshape
  · rw [hss'.name, hee'.callbackUse?_eq]
    exact huse

theorem mem_conflictingNames (h : m.Reordered m') {name : String}
    (hname : name ∈ m.namingViolations.filterMap Violation.callbackName?) :
    name ∈ m'.namingViolations.filterMap Violation.callbackName? := by
  rw [Machine.mem_conflictingNames] at hname ⊢
  obtain ⟨u, hu, v, hv, hdisagree⟩ := hname
  exact ⟨u, h.mem_callbackUses hu, v, h.mem_callbackUses hv, hdisagree⟩

theorem mem_unusedTimers (h : m.Reordered m') {v : Violation} (hv : v ∈ m.unusedTimers) :
    v ∈ m'.unusedTimers := by
  rw [Machine.mem_unusedTimers] at hv ⊢
  obtain ⟨t, ht, hnone, rfl⟩ := hv
  refine ⟨t, h.timers.mem_iff.mp ht, ?_, rfl⟩
  intro s' hs'
  obtain ⟨s, hs, hss'⟩ := h.states.exists_left hs'
  have hstarts : s'.startsTimer t.name = s.startsTimer t.name := hss'.startTimers.symm.any_eq
  rw [hstarts]
  exact hnone s hs

/-- What is found in one machine is found in the other. That no run gets to a state or to an edge is
carried over by following the runs of the other machine back. -/
theorem mem_findings (h : m.Reordered m') (hwf : m.WellFormed) (hwf' : m'.WellFormed)
    {f : Finding} (hf : f ∈ m.findings) : f ∈ m'.findings := by
  rw [Machine.mem_findings hwf] at hf
  rw [Machine.mem_findings hwf']
  rcases hf with ⟨fault, c, hc, hshows, rfl⟩ | ⟨s, hs, hnot, rfl⟩ | ⟨s, hs, e, he, hnot, rfl⟩
  · obtain ⟨c', hc', hcc'⟩ := h.reachable hwf' hc
    exact .inl ⟨fault, c', hc', h.shows hcc' hshows, rfl⟩
  · obtain ⟨s', hs', hss'⟩ := h.states.exists_right hs
    rw [← hss'.name] at hnot ⊢
    refine .inr (.inl ⟨s', hs', ?_, rfl⟩)
    intro henters
    exact hnot (h.symm.enters hwf henters)
  · obtain ⟨s', hs', hss'⟩ := h.states.exists_right hs
    obtain ⟨e', he', hee'⟩ := hss'.exists_edge he
    rw [← hss'.name, ← hee'.kind, ← hee'.invoker]
    refine .inr (.inr ⟨s', hs', e', he', ?_, rfl⟩)
    intro htake
    exact hnot (h.symm.canTake hwf hs hss'.symm hee'.symm htake)

theorem keys_subset (h : m.Reordered m') (hwf' : m'.WellFormed) :
    Situation.key '' {c | m.Reachable c} ⊆ Situation.key '' {c | m'.Reachable c} := by
  intro key hkey
  obtain ⟨c, hc, rfl⟩ := hkey
  obtain ⟨c', hc', hcc'⟩ := h.reachable hwf' hc
  exact ⟨c', hc', hcc'.key_eq⟩

theorem configurations_eq (h : m.Reordered m') (hwf : m.WellFormed) (hwf' : m'.WellFormed) :
    m'.explore.configurations = m.explore.configurations := by
  have hkeys : Situation.key '' {c | m'.Reachable c} = Situation.key '' {c | m.Reachable c} :=
    Set.Subset.antisymm (h.symm.keys_subset hwf) (h.keys_subset hwf')
  rw [configurations_explore hwf, configurations_explore hwf', hkeys]

theorem validate_eq_nil (h : m.Reordered m') (hwf : m.WellFormed) (hwf' : m'.WellFormed)
    (hnil : m.validate = []) : m'.validate = [] := by
  obtain ⟨hfindings, htimers, hnames⟩ := (validate_eq_nil_iff hwf).mp hnil
  apply (validate_eq_nil_iff hwf').mpr
  refine ⟨fun f hf => ?_, fun timer htimer => ?_, fun name hname => ?_⟩
  · exact hfindings f (h.symm.mem_findings hwf' hwf hf)
  · exact htimers timer (h.symm.mem_unusedTimers htimer)
  · exact hnames name (h.symm.mem_conflictingNames hname)

end Reordered

/-- A specification that is reordered loads as the same machine up to order. -/
theorem exists_ofToken_reordered {t t' : Token} (ht : t.distinctKeys) (h : t.Reordered t')
    (hload : ofToken t = .ok m) : ∃ m', ofToken t' = .ok m' ∧ m.Reordered m' := by
  have ht' : t'.distinctKeys := h.distinctKeys_eq.trans ht
  obtain ⟨m', hm', hreordered⟩ := (specifies_of_ofToken ht hload).reordered h
  exact ⟨m', ofToken_of_specifies ht' hm', hreordered⟩

/-- The order of members never changes the verdict on a specification that repeats no key. If the
members of any of its objects are permuted, it loads if and only if it did before. The same is then
found on the paths of the machine, the same timers are unused, the same callback names are used for
different things, and runs come to as many configurations. So the machine passes all checks if and
only if it did before. -/
theorem verdict_of_reordered {t t' : Token} (ht : t.distinctKeys) (h : t.Reordered t') :
    ((∃ m, ofToken t = .ok m) ↔ ∃ m', ofToken t' = .ok m') ∧
    ∀ m m', ofToken t = .ok m → ofToken t' = .ok m' →
      (∀ f, f ∈ m.explore.violations.filterMap Violation.finding? ↔
        f ∈ m'.explore.violations.filterMap Violation.finding?) ∧
      (∀ timer, .unusedTimer timer ∈ m.unusedTimers ↔ .unusedTimer timer ∈ m'.unusedTimers) ∧
      (∀ name, name ∈ m.namingViolations.filterMap Violation.callbackName? ↔
        name ∈ m'.namingViolations.filterMap Violation.callbackName?) ∧
      m.explore.configurations = m'.explore.configurations ∧
      (m.validate = [] ↔ m'.validate = []) := by
  have ht' : t'.distinctKeys := h.distinctKeys_eq.trans ht
  refine ⟨⟨?_, ?_⟩, ?_⟩
  · intro hm
    obtain ⟨m, hm⟩ := hm
    obtain ⟨m', hm', -⟩ := exists_ofToken_reordered ht h hm
    exact ⟨m', hm'⟩
  · intro hm'
    obtain ⟨m', hm'⟩ := hm'
    obtain ⟨m, hm, -⟩ := exists_ofToken_reordered ht' h.symm hm'
    exact ⟨m, hm⟩
  · intro m m' hm hm'
    have hwf := wellFormed_of_ofToken hm
    have hwf' := wellFormed_of_ofToken hm'
    have hreordered : m.Reordered m' := by
      obtain ⟨m₁, hm₁, hreordered⟩ := exists_ofToken_reordered ht h hm
      rw [hm'] at hm₁
      cases hm₁
      exact hreordered
    refine ⟨fun f => ⟨?_, ?_⟩, fun timer => ⟨?_, ?_⟩, fun name => ⟨?_, ?_⟩, ?_, ?_, ?_⟩
    · exact hreordered.mem_findings hwf hwf'
    · exact hreordered.symm.mem_findings hwf' hwf
    · exact hreordered.mem_unusedTimers
    · exact hreordered.symm.mem_unusedTimers
    · exact hreordered.mem_conflictingNames
    · exact hreordered.symm.mem_conflictingNames
    · exact (hreordered.configurations_eq hwf hwf').symm
    · exact hreordered.validate_eq_nil hwf hwf'
    · exact hreordered.symm.validate_eq_nil hwf' hwf

/-- The door's specification may be written backwards. The states are then declared and searched in
the opposite order, but runs come to as many configurations, and the spare state is still found to
be out of reach. -/
theorem verdict_of_reordered_door :
    (Token.ofJson door).distinctKeys ∧
    (Token.ofJson door).Reordered (Token.ofJson door).backwards ∧
    ∃ m, ofToken (Token.ofJson door).backwards = .ok m ∧
      m.states.map State.name = ["Spare", "Locked", "Closed", "Opened"] ∧
      doorMachine.explore.configurations = m.explore.configurations ∧
      ⟨.unreachableState, "Spare", none⟩ ∈ m.explore.violations.filterMap Violation.finding? := by
  have hdistinct : (Token.ofJson door).distinctKeys := by decide
  have hreordered := Token.reordered_backwards (Token.ofJson door)
  obtain ⟨hload, hsame⟩ := verdict_of_reordered hdistinct hreordered
  obtain ⟨m, hm⟩ := hload.mp ⟨_, ofToken_door⟩
  have hstates : (ofToken (Token.ofJson door).backwards).map (fun m => m.states.map State.name) =
      .ok ["Spare", "Locked", "Closed", "Opened"] := by rfl
  rw [hm] at hstates
  obtain ⟨hfindings, -, -, hconfigurations, -⟩ := hsame _ _ ofToken_door hm
  exact ⟨hdistinct, hreordered, m, hm, Except.ok.inj hstates, hconfigurations,
    (hfindings _).mp (by decide +kernel)⟩

end Machine

end TimedMachine
