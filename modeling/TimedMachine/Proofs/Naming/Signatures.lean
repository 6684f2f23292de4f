import TimedMachine.Proofs.Machine.OfToken
import TimedMachine.Proofs.Naming.Conflicts

/-!
# The callbacks of a machine and their names

A loaded machine asks for callbacks that all have names: a shape with the target in it is only ever
asked for by an edge with a single state to go to or stay in. The check of names looks at each of
them, and a machine that passes it uses no name for both a notification and a function, nor for
functions with different choices. Whether a callback gets arguments is not checked: a state and an
event may have the same name, and then so may a callback named after the one and a callback named
after the other.
-/

namespace TimedMachine

/-! ## Requested callbacks -/

/-- An edge asks only for callbacks that have a name. -/
theorem Edge.WellFormed.exists_compose {ns : Names} {kind : InvokerKind} {e : Edge}
    (h : e.WellFormed ns kind) {shape : CallbackShape} (hshape : shape ∈ e.callbacks)
    (source : String) : ∃ c, shape.compose source e = some c := by
  have htarget : shape.needsTarget → ∃ target, e.destination? source = some target := by
    intro hneeds
    unfold Edge.destination?
    rcases h.callbacks_target shape hshape hneeds with hno | ⟨name, hstate⟩
    · exact ⟨source, by rw [hno]⟩
    · exact ⟨name, by rw [hstate]⟩
  have hparts : ∃ parts, shape.parts? source e.invoker (e.destination? source) = some parts := by
    by_cases hneeds : shape.needsTarget
    · obtain ⟨target, ht⟩ := htarget hneeds
      rw [ht]
      cases shape <;> exact ⟨_, rfl⟩
    · cases shape
      case eventOnly => exact ⟨_, rfl⟩
      case sourceAndEvent => exact ⟨_, rfl⟩
      case sourceOnly => exact ⟨_, rfl⟩
      all_goals exact absurd rfl hneeds
  obtain ⟨parts, hparts⟩ := hparts
  rw [CallbackShape.compose, hparts]
  exact ⟨_, rfl⟩

namespace Machine

variable {m : Machine}

/-- The uses of callbacks are the requests of the edges, in order, and none is passed over. -/
theorem callbackUses_eq (h : m.WellFormed) :
    (m.callbackUses.map fun u => (u.site, some u.callback, u.choices)) =
      m.states.flatMap fun s => s.edges.flatMap fun e => e.callbacks.map fun shape =>
        (⟨s.name, e.kind, e.invoker, shape⟩, shape.compose s.name e, e.targets.choiceNames) := by
  have hedge : ∀ s ∈ m.states, ∀ e ∈ s.edges,
      ((e.callbacks.filterMap (e.callbackUse? s.name)).map
        fun u => (u.site, some u.callback, u.choices)) = e.callbacks.map fun shape =>
        (⟨s.name, e.kind, e.invoker, shape⟩, shape.compose s.name e, e.targets.choiceNames) := by
    intro s hs e he
    rw [List.map_filterMap, ← List.filterMap_eq_map]
    apply List.filterMap_congr
    intro shape hshape
    obtain ⟨c, hc⟩ := (h.edge hs he).exists_compose hshape s.name
    simp [Edge.callbackUse?, hc]
  rw [callbackUses, List.map_flatMap]
  apply List.flatMap_congr
  intro s hs
  rw [State.callbackUses, List.map_flatMap]
  exact List.flatMap_congr (hedge s hs)

theorem mem_callbackUses {u : CallbackUse} : u ∈ m.callbackUses ↔
    ∃ s ∈ m.states, ∃ e ∈ s.edges, ∃ shape ∈ e.callbacks, e.callbackUse? s.name shape = some u := by
  simp only [callbackUses, State.callbackUses, List.mem_flatMap, List.mem_filterMap]

/-! ## The names that are reported -/

theorem reportsFrom_namingViolations (m : Machine) :
    CallbackUse.ReportsFrom m.callbackUses 0 m.namingViolations :=
  CallbackUse.reportsFrom_conflicts (.zero m.callbackUses)

/-- A name is reported if and only if two of its uses disagree. -/
theorem mem_conflictingNames {name : String} :
    name ∈ m.namingViolations.filterMap Violation.callbackName? ↔
      ∃ u ∈ m.callbackUses, ∃ v ∈ m.callbackUses, u.callback.name = name ∧
        v.callback.name = name ∧ ¬u.Agrees v := by
  obtain ⟨pairs, -, hmem, heq⟩ := m.reportsFrom_namingViolations
  rw [heq, ← CallbackUse.exists_disputes_iff]
  simp only [List.filterMap_map, List.mem_filterMap, Function.comp_apply,
    CallbackUse.callbackName?_dispute, Option.some.injEq]
  constructor
  · rintro ⟨⟨i, j⟩, hij, hname⟩
    exact ⟨i, j, ((hmem i j).mp hij).2, hname⟩
  · rintro ⟨i, j, hij, hname⟩
    exact ⟨⟨i, j⟩, (hmem i j).mpr ⟨Nat.zero_le _, hij⟩, hname⟩

/-- No name is reported twice. -/
theorem nodup_conflictingNames (m : Machine) :
    (m.namingViolations.filterMap Violation.callbackName?).Nodup := by
  obtain ⟨pairs, hsorted, hmem, heq⟩ := m.reportsFrom_namingViolations
  have hnames : m.namingViolations.filterMap Violation.callbackName? =
      pairs.map fun p => (m.callbackUses.get p.2).callback.name := by
    rw [heq, List.filterMap_map, ← List.filterMap_eq_map]
    apply List.filterMap_congr
    intro p _
    exact CallbackUse.callbackName?_dispute _ _
  rw [hnames]
  apply List.Nodup.map_on
  · rintro ⟨i, j⟩ hij ⟨i', j'⟩ hij' hname
    obtain ⟨rfl, rfl⟩ := ((hmem i j).mp hij).2.unique ((hmem i' j').mp hij').2 hname
    rfl
  · apply hsorted.imp
    rintro p q hlt rfl
    exact lt_irrefl _ hlt

/-- A machine passes the check if no name is reported. -/
theorem namingViolations_eq_nil_iff :
    m.namingViolations = [] ↔
      ∀ name, name ∉ m.namingViolations.filterMap Violation.callbackName? := by
  constructor
  · intro hnil name hname
    rw [hnil] at hname
    cases hname
  · intro hnone
    obtain ⟨pairs, -, -, heq⟩ := m.reportsFrom_namingViolations
    apply List.eq_nil_iff_forall_not_mem.mpr
    intro v hv
    have hname : ∃ name, v.callbackName? = some name := by
      rw [heq] at hv
      obtain ⟨p, _, rfl⟩ := List.mem_map.mp hv
      exact ⟨_, CallbackUse.callbackName?_dispute _ _⟩
    obtain ⟨name, hname⟩ := hname
    exact hnone name (List.mem_filterMap.mpr ⟨v, hv, hname⟩)

/-- In a machine that passes the check, uses of the same name agree. -/
theorem agrees_of_namingViolations_eq_nil (h : m.namingViolations = []) {u v : CallbackUse}
    (hu : u ∈ m.callbackUses) (hv : v ∈ m.callbackUses)
    (hname : u.callback.name = v.callback.name) : u.Agrees v := by
  by_contra hdisagree
  have hmem := mem_conflictingNames.mpr ⟨u, hu, v, hv, hname, rfl, hdisagree⟩
  exact namingViolations_eq_nil_iff.mp h _ hmem

/-- The check of names of a loaded machine passes over no callback that an edge asks for, and it
reports each name once of which two uses disagree, and no other. What it reports is about the first
use of the name and the earliest later one that disagrees with it: that one of them is a
notification and the other a function, or that both are functions and have different choices. The
reports are in the order of the later uses. -/
theorem namingViolations_exact {t : Token} (h : Machine.ofToken t = .ok m) :
    ((m.callbackUses.map fun u => (u.site, some u.callback, u.choices)) =
      m.states.flatMap fun s => s.edges.flatMap fun e => e.callbacks.map fun shape =>
        (⟨s.name, e.kind, e.invoker, shape⟩, shape.compose s.name e, e.targets.choiceNames)) ∧
    (∃ pairs : List (Fin m.callbackUses.length × Fin m.callbackUses.length),
      pairs.Pairwise (fun p q => p.2 < q.2) ∧
      (∀ i j, (i, j) ∈ pairs ↔ CallbackUse.Disputes m.callbackUses i j) ∧
      m.namingViolations = pairs.map fun p =>
        (m.callbackUses.get p.1).dispute (m.callbackUses.get p.2)) ∧
    (m.namingViolations.filterMap Violation.callbackName?).Nodup ∧
    ∀ name, name ∈ m.namingViolations.filterMap Violation.callbackName? ↔
      ∃ u ∈ m.callbackUses, ∃ v ∈ m.callbackUses, u.callback.name = name ∧
        v.callback.name = name ∧ ¬u.Agrees v := by
  refine ⟨callbackUses_eq (wellFormed_of_ofToken h), ?_, m.nodup_conflictingNames,
    fun name => mem_conflictingNames⟩
  obtain ⟨pairs, hsorted, hmem, heq⟩ := m.reportsFrom_namingViolations
  refine ⟨pairs, hsorted, ?_, heq⟩
  intro i j
  rw [hmem]
  exact and_iff_right (Nat.zero_le _)

end Machine

/-! ### A door between two rooms -/

/-- Two rooms with a door between them, which may be jammed on the side of the front room. What a
push does on the other side is left open. -/
def rooms (push : Json) : Json := .object
  [("events", .object [("Push", .object [])]),
    ("states", .object
      [("Front", .object [("on_event", .object [("Push", .object
          [("targets", .object [("open", .string "Back"), ("jammed", .bool false)]),
            ("on_traverse", .string "event_only")])])]),
        ("Back", .object [("on_event", .object [("Push", push)])])]),
    ("start_state", .string "Front")]

/-- The way from the front room to the back room. -/
def pushAtFront : Edge :=
  ⟨"Push", .event, .decision [⟨"open", .state "Back"⟩, ⟨"jammed", .failure⟩], [.eventOnly], none⟩

/-- The way back, if a push on that side has the given targets. -/
def pushAtBack (targets : Targets) : Edge := ⟨"Push", .event, targets, [.eventOnly], none⟩

/-- The machine that the two rooms specify. -/
def roomsMachine (back : Targets) : Machine where
  timers := []
  events := [⟨"Push", [], none, false⟩]
  states :=
    [⟨"Front", [], [], none, .branching [pushAtFront] []⟩,
      ⟨"Back", [], [], none, .branching [pushAtBack back] []⟩]
  startState := "Front"

/-- A door that never jams from behind: what chooses on the one side is told on the other. -/
theorem ofToken_rooms_single :
    Machine.ofToken (.ofJson (rooms (.object
      [("state", .string "Front"), ("on_traverse", .string "event_only")]))) =
      .ok (roomsMachine (.single (.state "Front"))) := by rfl

/-- The two sides of such a door ask for a function and for a notification of the same name. -/
theorem namingViolations_exact_rooms :
    "OnEventTraverse__Push" ∈ (roomsMachine (.single (.state "Front"))).namingViolations.filterMap
      Violation.callbackName? := by
  obtain ⟨_, _, _, hnames⟩ := Machine.namingViolations_exact ofToken_rooms_single
  refine (hnames _).mpr ⟨_, Machine.mem_callbackUses.mpr ⟨_, .head _, _, .head _, .eventOnly,
    .head _, rfl⟩, _, Machine.mem_callbackUses.mpr ⟨_, .tail _ (.head _), _, .head _, .eventOnly,
    .head _, rfl⟩, rfl, rfl, ?_⟩
  rintro (⟨hno, -⟩ | ⟨-, hyes, -⟩)
  · cases hno
  · cases hyes

/-! ## What a name tells -/

/-- A name says by its beginning whether events or timers lead to the callback. -/
theorem InvokerKind.eq_of_callbackStem {kind kind' : InvokerKind} {rest rest' : String}
    (h : kind.callbackStem ++ rest = kind'.callbackStem ++ rest') : kind = kind' := by
  have hlist := congrArg String.toList h
  rw [String.toList_append, String.toList_append] at hlist
  cases kind <;> cases kind'
  case event.event => rfl
  case timer.timer => rfl
  all_goals simp [callbackStem] at hlist

namespace CallbackShape

variable {shape shape' : CallbackShape} {source source' : String} {e e' : Edge}
  {c c' : CallbackName}

theorem isFunction_of_compose (h : shape.compose source e = some c) :
    c.isFunction = e.isDecision := by
  obtain ⟨parts, -, rfl⟩ := Option.map_eq_some_iff.mp h
  rfl

theorem hasArgs_of_compose (h : shape.compose source e = some c) :
    c.hasArgs = (!e.isTimer && shape.namesInvoker) := by
  obtain ⟨parts, -, rfl⟩ := Option.map_eq_some_iff.mp h
  rfl

theorem kind_eq_of_compose (h : shape.compose source e = some c)
    (h' : shape'.compose source' e' = some c') (hname : c.name = c'.name) : e.kind = e'.kind := by
  obtain ⟨parts, -, rfl⟩ := Option.map_eq_some_iff.mp h
  obtain ⟨parts', -, rfl⟩ := Option.map_eq_some_iff.mp h'
  exact InvokerKind.eq_of_callbackStem hname

/-- Callbacks with one name differ in their arguments only if events lead to both, and one of them
is named after its event and the other is not. -/
theorem hasArgs_eq_iff (h : shape.compose source e = some c)
    (h' : shape'.compose source' e' = some c') (hname : c.name = c'.name) :
    c.hasArgs = c'.hasArgs ↔ e.kind = .timer ∨ shape.namesInvoker = shape'.namesInvoker := by
  rw [hasArgs_of_compose h, hasArgs_of_compose h', Edge.isTimer, Edge.isTimer,
    ← kind_eq_of_compose h h' hname]
  cases e.kind with
  | event =>
    show (!false && shape.namesInvoker) = (!false && shape'.namesInvoker) ↔ _
    simp
  | timer =>
    show (!true && shape.namesInvoker) = (!true && shape'.namesInvoker) ↔ _
    simp

end CallbackShape

/-- Sorting keeps the names that a decision offers. -/
theorem Targets.mem_choiceNames {choices : List Choice} {name : String} :
    name ∈ (Targets.decision choices).choiceNames ↔ name ∈ choices.map Choice.name := by
  rw [choiceNames, List.mem_mergeSort]

/-- The names of a decision are in ascending order, in whatever order its choices are listed. -/
theorem Targets.choiceNames_eq_of_perm {choices choices' : List Choice}
    (h : (choices.map Choice.name).Perm (choices'.map Choice.name)) :
    (Targets.decision choices).choiceNames = (Targets.decision choices').choiceNames := by
  have hsorted : ∀ names : List String,
      (names.mergeSort fun a b => a ≤ b).Pairwise fun a b => (decide (a ≤ b)) = true := by
    intro names
    apply List.pairwise_mergeSort
    · intro a b c hab hbc
      exact decide_eq_true (String.le_trans (of_decide_eq_true hab) (of_decide_eq_true hbc))
    · intro a b
      simpa using String.le_total a b
  show (choices.map Choice.name).mergeSort _ = (choices'.map Choice.name).mergeSort _
  apply List.Perm.eq_of_pairwise _ (hsorted _) (hsorted _)
  · exact ((List.mergeSort_perm _ _).trans h).trans (List.mergeSort_perm _ _).symm
  · intro a b _ _ hab hba
    exact String.le_antisymm (of_decide_eq_true hab) (of_decide_eq_true hba)

namespace Machine

/-- In a loaded machine that passes the check of names, callbacks with the same name belong to the
same kind of invoker, they are both notifications or both functions, and functions with the same
name offer the same choices. They agree in whether they get arguments if timers lead to them or if
both or neither are named after their event, and only then. -/
theorem signatures_agree {t : Token} {m : Machine} (h : Machine.ofToken t = .ok m)
    (hnaming : m.namingViolations = []) {s s' : State} (hs : s ∈ m.states) (hs' : s' ∈ m.states)
    {e e' : Edge} (he : e ∈ s.edges) (he' : e' ∈ s'.edges) {shape shape' : CallbackShape}
    (hshape : shape ∈ e.callbacks) (hshape' : shape' ∈ e'.callbacks) :
    ∃ c c', shape.compose s.name e = some c ∧ shape'.compose s'.name e' = some c' ∧
      (c.name = c'.name → c.isFunction = c'.isFunction ∧ e.kind = e'.kind ∧
        (c.hasArgs = c'.hasArgs ↔
          e.kind = .timer ∨ shape.namesInvoker = shape'.namesInvoker) ∧
        (c.isFunction = true → ∃ choices choices', e.targets = .decision choices ∧
          e'.targets = .decision choices' ∧
          ∀ name, name ∈ choices.map Choice.name ↔ name ∈ choices'.map Choice.name)) := by
  have hwf := wellFormed_of_ofToken h
  obtain ⟨c, hc⟩ := (hwf.edge hs he).exists_compose hshape s.name
  obtain ⟨c', hc'⟩ := (hwf.edge hs' he').exists_compose hshape' s'.name
  refine ⟨c, c', hc, hc', fun hname => ?_⟩
  have huse : (⟨c, ⟨s.name, e.kind, e.invoker, shape⟩, e.targets.choiceNames⟩ : CallbackUse) ∈
      m.callbackUses :=
    mem_callbackUses.mpr ⟨s, hs, e, he, shape, hshape, by rw [Edge.callbackUse?, hc]; rfl⟩
  have huse' : (⟨c', ⟨s'.name, e'.kind, e'.invoker, shape'⟩, e'.targets.choiceNames⟩ :
      CallbackUse) ∈ m.callbackUses :=
    mem_callbackUses.mpr ⟨s', hs', e', he', shape', hshape', by rw [Edge.callbackUse?, hc']; rfl⟩
  have hkind := CallbackShape.kind_eq_of_compose hc hc' hname
  have hargs := CallbackShape.hasArgs_eq_iff hc hc' hname
  rcases agrees_of_namingViolations_eq_nil hnaming huse huse' hname with
    ⟨hno, hno'⟩ | ⟨hyes, hyes', hchoices⟩
  · have hno : c.isFunction = false := hno
    have hno' : c'.isFunction = false := hno'
    refine ⟨hno.trans hno'.symm, hkind, hargs, ?_⟩
    intro hyes
    rw [hno] at hyes
    cases hyes
  · have hyes : c.isFunction = true := hyes
    have hyes' : c'.isFunction = true := hyes'
    refine ⟨hyes.trans hyes'.symm, hkind, hargs, fun _ => ?_⟩
    rw [CallbackShape.isFunction_of_compose hc, Edge.isDecision] at hyes
    rw [CallbackShape.isFunction_of_compose hc', Edge.isDecision] at hyes'
    have hchoices : e.targets.choiceNames = e'.targets.choiceNames := hchoices
    cases htargets : e.targets with
    | single target =>
      rw [htargets] at hyes
      cases hyes
    | decision choices =>
      cases htargets' : e'.targets with
      | single target =>
        rw [htargets'] at hyes'
        cases hyes'
      | decision choices' =>
        rw [htargets, htargets'] at hchoices
        refine ⟨choices, choices', rfl, rfl, ?_⟩
        intro name
        rw [← Targets.mem_choiceNames, hchoices, Targets.mem_choiceNames]

end Machine

/-- The choices on the back side of a door that jams from both sides, in another order than in
front. -/
def backChoices : List Choice := [⟨"jammed", .failure⟩, ⟨"open", .state "Front"⟩]

theorem ofToken_rooms_decision :
    Machine.ofToken (.ofJson (rooms (.object
      [("targets", .object [("jammed", .bool false), ("open", .string "Front")]),
        ("on_traverse", .string "event_only")]))) =
      .ok (roomsMachine (.decision backChoices)) := by rfl

/-- The use of the function by one side of the door. -/
def pushUse (side : String) (choices : List String) : CallbackUse :=
  ⟨⟨"OnEventTraverse__Push", true, true⟩, ⟨side, .event, "Push", .eventOnly⟩, choices⟩

theorem namingViolations_rooms_decision :
    (roomsMachine (.decision backChoices)).namingViolations = [] := by
  have hsame : pushAtFront.targets.choiceNames = (Targets.decision backChoices).choiceNames :=
    Targets.choiceNames_eq_of_perm (by decide)
  show CallbackUse.conflicts [] [] [pushUse "Front" pushAtFront.targets.choiceNames,
    pushUse "Back" (Targets.decision backChoices).choiceNames] = []
  rw [hsame]
  simp [CallbackUse.conflicts, CallbackUse.conflict?, pushUse]

/-- Both sides of the door call the same function, which chooses from the same names. -/
theorem signatures_agree_rooms :
    ∃ c c', CallbackShape.compose .eventOnly "Front" pushAtFront = some c ∧
      CallbackShape.compose .eventOnly "Back" (pushAtBack (.decision backChoices)) = some c' ∧
      c.name = c'.name ∧ c.isFunction = c'.isFunction ∧ c.hasArgs = c'.hasArgs := by
  have hfront : ⟨"Front", [], [], none, .branching [pushAtFront] []⟩ ∈
      (roomsMachine (.decision backChoices)).states := .head _
  have hback : ⟨"Back", [], [], none, .branching [pushAtBack (.decision backChoices)] []⟩ ∈
      (roomsMachine (.decision backChoices)).states := .tail _ (.head _)
  have hshape : CallbackShape.eventOnly ∈ pushAtFront.callbacks := .head _
  have hshape' : CallbackShape.eventOnly ∈ (pushAtBack (.decision backChoices)).callbacks :=
    .head _
  obtain ⟨c, c', hc, hc', h⟩ := Machine.signatures_agree ofToken_rooms_decision
    namingViolations_rooms_decision hfront hback
    (.head _) (.head _) hshape hshape'
  have hname : c.name = c'.name := by
    cases hc
    cases hc'
    rfl
  obtain ⟨hfunction, -, hargs, -⟩ := h hname
  exact ⟨c, c', hc, hc', hname, hfunction, hargs.mpr (.inr rfl)⟩

/-- A state and an event with the same name, and callbacks named after each of them. -/
def namesakes : Json := .object
  [("events", .object [("Knock", .object [("args", .object [("hand", .string "string")])])]),
    ("states", .object
      [("Knock", .object [("on_event", .object [("Knock", .object [("state", .string "Open"),
          ("on_traverse", .array [.string "event_only", .string "source_only"])])])]),
        ("Open", .object [("final", .bool true)])]),
    ("start_state", .string "Knock")]

/-- The edge that asks for both callbacks. -/
def knock : Edge :=
  ⟨"Knock", .event, .single (.state "Open"), [.eventOnly, .sourceOnly], none⟩

/-- The machine in which they meet. -/
def namesakesMachine : Machine where
  timers := []
  events := [⟨"Knock", [⟨"hand", "string"⟩], none, false⟩]
  states := [⟨"Knock", [], [], none, .branching [knock] []⟩, ⟨"Open", [], [], none, .final⟩]
  startState := "Knock"

/-- The check of names does not see that one callback gets the arguments of the event and the other,
of the same name, gets none. -/
theorem hasArgs_differ_namesakes :
    Machine.ofToken (.ofJson namesakes) = .ok namesakesMachine ∧
    namesakesMachine.namingViolations = [] ∧
    ∃ s ∈ namesakesMachine.states, ∃ e ∈ s.edges, ∃ shape ∈ e.callbacks, ∃ shape' ∈ e.callbacks,
      ∃ c c', shape.compose s.name e = some c ∧ shape'.compose s.name e = some c' ∧
        c.name = c'.name ∧ c.hasArgs ≠ c'.hasArgs := by
  refine ⟨by rfl, by rfl, ⟨"Knock", [], [], none, .branching [knock] []⟩, .head _, knock, .head _,
    .eventOnly, .head _, .sourceOnly, .tail _ (.head _), _, _, rfl, rfl, rfl, by decide⟩

end TimedMachine
