import TimedMachine.Proofs.Machine.Fields
import TimedMachine.Proofs.Machine.WellFormed
import TimedMachine.Proofs.Number.Exact

/-!
# Loaded machines are well-formed

Every reader of a part of a specification has a lemma here that says what it accepts, and the main
statement puts them together: a machine that was read from a token tree, whatever the tree, is
well-formed.
-/

namespace TimedMachine

open Loaded

/-! ## Numbers -/

section Numbers

theorem checkPositive_eq_ok {name : String} {rule : NumberRule} {t : Token} {x y : Float} :
    checkPositive name rule t x = .ok y ↔ (x.isFinite ∧ 0 < x) ∧ x = y := by
  unfold checkPositive
  split
  · next h => simp [h]
  · next h => simp [h]

theorem checkFinite_eq_ok {name : String} {t : Token} {x y : Float} :
    checkFinite name t x = .ok y ↔ x.isFinite ∧ x = y := by
  unfold checkFinite
  split
  · next h => simp [h]
  · next h => simp [h]

end Numbers

variable {ns : Names}

/-! ## Names -/

theorem checkState_eq_ok {role : NameRole} {t : Token} {name name' : String} :
    ns.checkState role t name = .ok name' ↔ name ∈ ns.states ∧ name = name' := by
  unfold Names.checkState
  split
  · next h => simp [h]
  · next h => simp [h]

theorem checkTimer_eq_ok {t : Token} {name name' : String} :
    ns.checkTimer t name = .ok name' ↔ name ∈ ns.timers ∧ name = name' := by
  unfold Names.checkTimer
  split
  · next h => simp [h]
  · next h => simp [h]

/-- The names in a list are distinct, and each of them was accepted. -/
theorem of_namesOfItems {item : String} {check : Token → String → Loaded String} {role : NameRole}
    {ts : List Token} {names : List String} (h : namesOfItems item check role ts = .ok names) :
    names.Nodup ∧ ∀ name ∈ names, ∃ t s, check t s = .ok name := by
  have hname : ∀ (a : Token) (b c : String), (.ok b : Loaded String) = .ok c → id c = id b := by
    intro a b c h
    cases h
    rfl
  obtain ⟨hall, hnd, -⟩ := (readDistinct_eq_ok hname).mp h
  refine ⟨by simpa using hnd, ?_⟩
  intro name hmem
  obtain ⟨t, -, b, hb, hbn⟩ := exists_of_mem_forall₂ hall hmem
  cases hbn
  obtain ⟨s, -, hs⟩ := bind_eq_ok.mp hb
  exact ⟨t, s, hs⟩

/-! ## Timers and events -/

theorem Timer.of_ofMember {m : Key × Token} {t : Timer} (h : Timer.ofMember m = .ok t) :
    t.name = m.1.name ∧ t.WellFormed := by
  simp only [Timer.ofMember, bind_eq_ok, checkPositive_eq_ok, pure_eq_ok] at h
  obtain ⟨x, -, y, ⟨hx, rfl⟩, rfl⟩ := h
  exact ⟨rfl, hx⟩

/-- The timers have distinct names and positive delays. -/
theorem Timer.of_ofMembers {ms : Members} {ts : List Timer} (h : Timer.ofMembers ms = .ok ts) :
    (ts.map Timer.name).Nodup ∧ ∀ t ∈ ts, t.WellFormed := by
  have hname : ∀ (m : Key × Token) (t u : Timer), (.ok t : Loaded Timer) = .ok u →
      u.name = t.name := by
    intro m t u h
    cases h
    rfl
  obtain ⟨hall, hnd, -⟩ := (readDistinct_eq_ok hname).mp h
  refine ⟨hnd, ?_⟩
  intro t ht
  obtain ⟨m, -, t', ht', h⟩ := exists_of_mem_forall₂ hall ht
  cases h
  exact (Timer.of_ofMember ht').2

/-- The states that an event waits for are none at all, or they are distinct and declared. -/
theorem of_afterStates {ts : List Token} {o : Option (List String)}
    (h : ns.afterStates ts = .ok o) :
    ∀ names ∈ o, names ≠ [] ∧ names.Nodup ∧ ∀ name ∈ names, name ∈ ns.states := by
  simp only [Names.afterStates, bind_eq_ok, pure_eq_ok] at h
  obtain ⟨names, hnames, rfl⟩ := h
  obtain ⟨hnd, hdecl⟩ := of_namesOfItems hnames
  intro names' hmem
  cases names with
  | nil => simp at hmem
  | cons a as =>
    obtain rfl : a :: as = names' := by simpa using hmem
    refine ⟨List.cons_ne_nil _ _, hnd, ?_⟩
    intro name hname
    obtain ⟨t, s, hs⟩ := hdecl name hname
    obtain ⟨hmem, rfl⟩ := checkState_eq_ok.mp hs
    exact hmem

theorem of_event {m : Key × Token} {e : Event} (h : ns.event m = .ok e) : e.WellFormed ns := by
  simp only [Names.event, bind_eq_ok, pure_eq_ok] at h
  obtain ⟨ms, -, items, -, afterStates, hafter, o, -, args, -, onlyOnce, -, _, -, rfl⟩ := h
  have hstates := of_afterStates hafter
  exact ⟨fun names hn => (hstates names hn).1, fun names hn => (hstates names hn).2.1,
    fun names hn => (hstates names hn).2.2⟩

/-- The events have distinct names and wait for declared states. -/
theorem of_eventList {ms : Members} {es : List Event} (h : ns.eventList ms = .ok es) :
    (es.map Event.name).Nodup ∧ ∀ e ∈ es, e.WellFormed ns := by
  have hname : ∀ (m : Key × Token) (e e' : Event), (.ok e : Loaded Event) = .ok e' →
      e'.name = e.name := by
    intro m e e' h
    cases h
    rfl
  obtain ⟨hall, hnd, -⟩ := (readDistinct_eq_ok hname).mp h
  refine ⟨hnd, ?_⟩
  intro e he
  obtain ⟨m, -, e', he', h⟩ := exists_of_mem_forall₂ hall he
  cases h
  exact of_event he'

/-! ## Targets and edges -/

theorem of_target {t : Token} {target : Target} (h : ns.target t = .ok target) :
    target.WellFormed ns := by
  intro name hname
  unfold Names.target at h
  split at h
  · cases h
    cases hname
  · next s =>
    obtain ⟨name', hs, rfl⟩ := map_eq_ok.mp h
    obtain ⟨hmem, rfl⟩ := checkState_eq_ok.mp hs
    cases hname
    exact hmem
  · cases h
    cases hname
  · cases h
  · cases h

theorem of_choiceTarget {t : Token} {target : Target} (h : ns.choiceTarget t = .ok target) :
    target.WellFormed ns := by
  unfold Names.choiceTarget at h
  split at h
  · simp only [bind_eq_ok, pure_eq_ok] at h
    obtain ⟨v, -, target', htarget, _, -, rfl⟩ := h
    exact of_target htarget
  · exact of_target h

theorem of_choices {owner : String} {t : Token} {choices : List Choice}
    (h : ns.choices owner t = .ok choices) : WellFormedDecision ns choices := by
  simp only [Names.choices, bind_eq_ok, guard_eq_ok, mapM_eq_ok, pure_eq_ok] at h
  obtain ⟨ms, -, hne, hall⟩ := h
  constructor
  · rintro rfl
    rw [List.forall₂_nil_right_iff] at hall
    simp [hall] at hne
  · intro c hc
    obtain ⟨m, -, target, htarget, rfl⟩ := exists_of_mem_forall₂ hall hc
    exact of_choiceTarget htarget

/-- The callbacks of an edge are distinct. -/
theorem nodup_of_listOfToken {t : Token} {shapes : List CallbackShape}
    (h : CallbackShape.listOfToken t = .ok shapes) : shapes.Nodup := by
  unfold CallbackShape.listOfToken at h
  split at h
  · cases h
    exact List.nodup_nil
  · cases h
    simp
  · obtain ⟨shape, -, rfl⟩ := map_eq_ok.mp h
    simp
  · have hname : ∀ (t : Token) (b c : CallbackShape), (.ok b : Loaded CallbackShape) = .ok c →
        id c = id b := by
      intro t b c h
      cases h
      rfl
    simpa using ((readDistinct_eq_ok hname).mp h).2.1
  · cases h

/-- The targets that can name a state are the single ones other than a failure. -/
theorem namesState_iff {targets : Targets} : targets.namesState = true ↔
    targets = .single .noChange ∨ ∃ name, targets = .single (.state name) := by
  cases targets with
  | single target => cases target <;> simp [Targets.namesState]
  | decision choices => simp [Targets.namesState]

theorem of_callbacksOfToken {invoker : String} {targets : Targets} {t : Token}
    {shapes : List CallbackShape} (h : callbacksOfToken invoker targets t = .ok shapes) :
    shapes.Nodup ∧ ∀ shape ∈ shapes, shape.needsTarget →
      targets = .single .noChange ∨ ∃ name, targets = .single (.state name) := by
  unfold callbacksOfToken at h
  obtain ⟨shapes', hshapes, h⟩ := bind_eq_ok.mp h
  split at h
  · simp at h
  · next hfind =>
    obtain rfl := pure_eq_ok.mp h
    refine ⟨nodup_of_listOfToken hshapes, ?_⟩
    intro shape hshape hneeds
    have hno := List.find?_eq_none.mp hfind shape hshape
    rw [← namesState_iff]
    simpa [hneeds] using hno

theorem of_edgeTargets {kind : InvokerKind} {invoker : String} {t : Token} {ms : Members}
    {targets : Targets} (h : ns.edgeTargets kind invoker t ms = .ok targets) :
    targets.WellFormed ns ∧ (kind = .timer → ∃ target, targets = .single target) := by
  unfold Names.edgeTargets at h
  split at h
  · obtain ⟨target, htarget, rfl⟩ := map_eq_ok.mp h
    exact ⟨of_target htarget, fun _ => ⟨target, rfl⟩⟩
  · cases kind with
    | timer => cases h
    | event =>
      obtain ⟨choices, hchoices, rfl⟩ := map_eq_ok.mp h
      exact ⟨of_choices hchoices, fun hk => by cases hk⟩
  · cases h

theorem invoker_of_edge {kind : InvokerKind} {invoker : String} {t : Token} {e : Edge}
    (h : ns.edge kind invoker t = .ok e) : e.invoker = invoker := by
  unfold Names.edge at h
  split at h
  · simp only [bind_eq_ok, pure_eq_ok] at h
    obtain ⟨targets, -, callbacks, -, comment, -, _, -, rfl⟩ := h
    rfl
  · obtain ⟨target, -, rfl⟩ := map_eq_ok.mp h
    rfl

theorem of_edge {kind : InvokerKind} {invoker : String} {t : Token} {e : Edge}
    (h : ns.edge kind invoker t = .ok e) (hdecl : invoker ∈ ns.ofKind kind) :
    e.WellFormed ns kind := by
  unfold Names.edge at h
  split at h
  · simp only [bind_eq_ok, pure_eq_ok] at h
    obtain ⟨targets, htargets, callbacks, hcallbacks, comment, -, _, -, rfl⟩ := h
    obtain ⟨hwf, hsingle⟩ := of_edgeTargets htargets
    have hshapes : (callbacks.getD []).Nodup ∧ ∀ shape ∈ callbacks.getD [], shape.needsTarget →
        targets = .single .noChange ∨ ∃ name, targets = .single (.state name) := by
      cases callbacks with
      | none => exact ⟨List.nodup_nil, by simp⟩
      | some shapes =>
        obtain ⟨v, -, hv⟩ := Members.optional_eq_some.mp hcallbacks
        exact of_callbacksOfToken hv
    exact ⟨rfl, hdecl, hwf, hsingle, hshapes.1, hshapes.2⟩
  · obtain ⟨target, htarget, rfl⟩ := map_eq_ok.mp h
    exact ⟨rfl, hdecl, of_target htarget, fun _ => ⟨target, rfl⟩, List.nodup_nil, by simp⟩

theorem checkInvoker_eq_ok {kind : InvokerKind} {m : Key × Token} {name : String} :
    ns.checkInvoker kind m = .ok name ↔ m.1.name ∈ ns.ofKind kind ∧ m.1.name = name := by
  unfold Names.checkInvoker
  split
  · next h => simp [h]
  · next h => simp [h]

theorem of_edges {kind : InvokerKind} {ms : Members} {es : List Edge}
    (h : ns.edges kind ms = .ok es) : WellFormedEdges ns kind es := by
  have hname : ∀ (m : Key × Token) (name : String) (e : Edge), ns.edge kind name m.2 = .ok e →
      e.invoker = id name := fun _ _ _ => invoker_of_edge
  obtain ⟨hall, hnd, -⟩ := (readDistinct_eq_ok hname).mp h
  refine ⟨hnd, ?_⟩
  intro e he
  obtain ⟨m, -, name, hcheck, hedge⟩ := exists_of_mem_forall₂ hall he
  obtain ⟨hdecl, rfl⟩ := checkInvoker_eq_ok.mp hcheck
  exact of_edge hedge hdecl

/-! ## Timers of states -/

/-- A part of a rule was checked, if it is there. -/
theorem of_rulePart {ms : Members} {key : String} {check : Token → Float → Loaded Float}
    {o : Option Float} (h : rulePart ms key check = .ok o) :
    ∀ y ∈ o, ∃ t x, check t x = .ok y := by
  intro y hy
  obtain rfl : o = some y := hy
  obtain ⟨t, -, -, hread⟩ := Members.optionalOrNull_eq_some.mp h
  obtain ⟨x, -, hx⟩ := bind_eq_ok.mp hread
  exact ⟨t, x, hx⟩

theorem positive_of_rulePart {ms : Members} {key name : String} {rule : NumberRule}
    {o : Option Float} (h : rulePart ms key (checkPositive name rule) = .ok o) :
    ∀ y ∈ o, y.isFinite ∧ 0 < y := by
  intro y hy
  obtain ⟨t, x, hx⟩ := of_rulePart h y hy
  obtain ⟨hpos, rfl⟩ := checkPositive_eq_ok.mp hx
  exact hpos

theorem finite_of_rulePart {ms : Members} {key name : String} {o : Option Float}
    (h : rulePart ms key (checkFinite name) = .ok o) : ∀ y ∈ o, y.isFinite := by
  intro y hy
  obtain ⟨t, x, hx⟩ := of_rulePart h y hy
  obtain ⟨hfin, rfl⟩ := checkFinite_eq_ok.mp hx
  exact hfin

theorem DelayRule.of_ofToken {timer : String} {t : Token} {r : DelayRule Float}
    (h : DelayRule.ofToken timer t = .ok r) : r.WellFormed := by
  simp only [DelayRule.ofToken, bind_eq_ok, guard_eq_ok] at h
  obtain ⟨ms, -, set, hset, multiplier, hmultiplier, increment, hincrement, min, hmin, max, hmax,
    _, -, hne, h⟩ := h
  have hbounds : r = { set, multiplier, increment, min, max } ∧
      ∀ least ∈ min, ∀ most ∈ max, least ≤ most := by
    cases min with
    | none => exact ⟨(pure_eq_ok.mp h).symm, by simp⟩
    | some least =>
      cases max with
      | none => exact ⟨(pure_eq_ok.mp h).symm, by simp⟩
      | some most =>
        dsimp only at h
        split at h
        · simp at h
        · next hlt =>
          refine ⟨(pure_eq_ok.mp h).symm, ?_⟩
          rintro _ ⟨⟩ _ ⟨⟩
          exact (Number.float_not_lt (finite_of_rulePart hmin least rfl)
            (finite_of_rulePart hmax most rfl)).mp hlt
  obtain ⟨rfl, hle⟩ := hbounds
  exact ⟨hne, positive_of_rulePart hset, positive_of_rulePart hmultiplier,
    finite_of_rulePart hincrement, finite_of_rulePart hmin, finite_of_rulePart hmax, hle⟩

theorem of_timerStart {m : Key × Token} {start : TimerStart} (h : ns.timerStart m = .ok start) :
    start.timer ∈ ns.timers ∧ ∀ r ∈ start.rule, r.WellFormed := by
  simp only [Names.timerStart, guard_eq_ok, not_not] at h
  obtain ⟨hdecl, h⟩ := h
  split at h
  · obtain rfl := pure_eq_ok.mp h
    exact ⟨hdecl, by simp⟩
  · simp only [bind_eq_ok, pure_eq_ok] at h
    obtain ⟨r, hr, rfl⟩ := h
    refine ⟨hdecl, ?_⟩
    rintro _ ⟨⟩
    exact DelayRule.of_ofToken hr

/-- The timers that a state starts are declared, in either form of the list. -/
theorem of_startTimers {t : Token} {starts : List TimerStart}
    (h : ns.startTimers t = .ok starts) :
    ∀ start ∈ starts, start.timer ∈ ns.timers ∧ ∀ r ∈ start.rule, r.WellFormed := by
  intro start hstart
  unfold Names.startTimers at h
  split at h
  · simp only [bind_eq_ok, pure_eq_ok] at h
    obtain ⟨names, hnames, rfl⟩ := h
    obtain ⟨name, hname, rfl⟩ := List.mem_map.mp hstart
    obtain ⟨t, s, hs⟩ := (of_namesOfItems hnames).2 name hname
    obtain ⟨hdecl, rfl⟩ := checkTimer_eq_ok.mp hs
    exact ⟨hdecl, by simp⟩
  · obtain ⟨m, -, hm⟩ := exists_of_mem_forall₂ (mapM_eq_ok.mp h) hstart
    exact of_timerStart hm
  · cases h

theorem of_stopTimers {ts : List Token} {stops : List String} (h : ns.stopTimers ts = .ok stops) :
    stops.Nodup ∧ ∀ timer ∈ stops, timer ∈ ns.timers := by
  obtain ⟨hnd, hall⟩ := of_namesOfItems h
  refine ⟨hnd, ?_⟩
  intro timer htimer
  obtain ⟨t, s, hs⟩ := hall timer htimer
  obtain ⟨hdecl, rfl⟩ := checkTimer_eq_ok.mp hs
  exact hdecl

/-! ## States -/

/-- The choices among the next states, if there are any, make a well-formed decision. -/
theorem of_onEnter {t : Token} {onEnter : Option OnEnter} {o : Option (List Choice)}
    (h : ns.onEnter t = .ok (onEnter, o)) : ∀ choices ∈ o, WellFormedDecision ns choices := by
  rintro choices ⟨⟩
  unfold Names.onEnter at h
  split at h
  · cases h
  · cases h
  · cases h
  · simp only [bind_eq_ok, pure_eq_ok] at h
    obtain ⟨comment, -, o, ho, _, -, h⟩ := h
    cases h
    obtain ⟨v, -, hv⟩ := Members.optional_eq_some.mp ho
    exact of_choices hv
  · cases h

/-- A shape is well-formed if the fields that it is made of are. -/
theorem ShapeFields.shape_wellFormed {f : ShapeFields}
    (hevents : ∀ es ∈ f.eventEdges, WellFormedEdges ns .event es)
    (htimers : ∀ es ∈ f.timerEdges, WellFormedEdges ns .timer es)
    (hnext : ∀ name ∈ f.nextState, name ∈ ns.states)
    (hchoices : ∀ choices ∈ f.choices, WellFormedDecision ns choices) :
    f.shape.WellFormed ns := by
  have hgetD : ∀ (kind : InvokerKind) (o : Option (List Edge)),
      (∀ es ∈ o, WellFormedEdges ns kind es) → WellFormedEdges ns kind (o.getD []) := by
    intro kind o ho
    cases o with
    | none => exact ⟨List.nodup_nil, by simp⟩
    | some es => exact ho es rfl
  unfold ShapeFields.shape
  split
  · next _ name hn => exact hnext name hn
  · next choices _ hc => exact hchoices choices hc
  · split
    · trivial
    · exact ⟨hgetD _ _ hevents, hgetD _ _ htimers⟩

theorem checkStops_eq_ok {state : String} {t : Token} {starts : List TimerStart}
    {stops : List String} : checkStops state t starts stops = .ok () ↔
      ∀ timer ∈ stops, ∀ start ∈ starts, start.timer ≠ timer := by
  have hfind : stops.find? (fun timer => starts.any (·.timer == timer)) = none ↔
      ∀ timer ∈ stops, ∀ start ∈ starts, start.timer ≠ timer := by
    simp [List.find?_eq_none]
  rw [← hfind]
  unfold checkStops
  split
  · next timer h => simp [h]
  · next h => simp [h]

theorem of_state {m : Key × Token} {s : State} (h : ns.state m = .ok s) :
    s.name = m.1.name ∧ s.WellFormed ns := by
  simp only [Names.state, bind_eq_ok, pure_eq_ok] at h
  obtain ⟨ms, -, starts, hstarts, stopItems, -, stops, hstops, _, hclash, enter, henter,
    timerEdges, htimers, eventEdges, hevents, next, hnext, isFinal, -, _, -, _, -, rfl⟩ := h
  have hstart : ∀ start ∈ starts.getD [], start.timer ∈ ns.timers ∧
      ∀ r ∈ start.rule, r.WellFormed := by
    cases starts with
    | none => simp
    | some starts =>
      obtain ⟨v, -, hv⟩ := Members.optional_eq_some.mp hstarts
      exact of_startTimers hv
  obtain ⟨hnd, hstop⟩ := of_stopTimers hstops
  have hshape : Shape.WellFormed ns (ShapeFields.shape ⟨timerEdges, eventEdges, next,
      (enter.getD (none, none)).2, isFinal.getD false⟩) := by
    refine ShapeFields.shape_wellFormed ?_ ?_ ?_ ?_
    · rintro es ⟨⟩
      obtain ⟨v, -, hv⟩ := Members.optional_eq_some.mp hevents
      obtain ⟨members, -, hes⟩ := bind_eq_ok.mp hv
      exact of_edges hes
    · rintro es ⟨⟩
      obtain ⟨v, -, hv⟩ := Members.optional_eq_some.mp htimers
      obtain ⟨members, -, hes⟩ := bind_eq_ok.mp hv
      exact of_edges hes
    · rintro name ⟨⟩
      obtain ⟨v, -, -, hv⟩ := Members.optionalOrNull_eq_some.mp hnext
      obtain ⟨s, -, hs⟩ := bind_eq_ok.mp hv
      obtain ⟨hmem, rfl⟩ := checkState_eq_ok.mp hs
      exact hmem
    · cases enter with
      | none => simp
      | some pair =>
        obtain ⟨v, -, hv⟩ := Members.optional_eq_some.mp henter
        exact of_onEnter hv
  refine ⟨rfl, fun start hs => (hstart start hs).1, fun start hs => (hstart start hs).2, hstop,
    hnd, ?_, hshape⟩
  intro start hs hstopped
  exact checkStops_eq_ok.mp hclash _ hstopped start hs rfl

/-! ## Machines -/

/-- The names of the states are the keys that declare them. -/
theorem of_stateNames {ms : Members} {names : List String} (h : stateNames ms = .ok names) :
    names.Nodup ∧ names = ms.map (·.1.name) := by
  have hname : ∀ (m : Key × Token) (b c : String), (.ok b : Loaded String) = .ok c →
      id c = id b := by
    intro m b c h
    cases h
    rfl
  obtain ⟨hall, hnd, -⟩ := (readDistinct_eq_ok hname).mp h
  have hkeys : ∀ (m : Key × Token) (name : String), (∃ b, (.ok m.1.name : Loaded String) = .ok b ∧
      (.ok b : Loaded String) = .ok name) → id name = m.1.name := by
    rintro m name ⟨b, ⟨⟩, ⟨⟩⟩
    rfl
  rw [List.map_id] at hnd
  exact ⟨hnd, by simpa using map_eq_map_of_forall₂ hkeys hall⟩

/-- A machine that was read from a token tree is well-formed, whatever the tree. -/
theorem Machine.wellFormed_of_ofToken {t : Token} {m : Machine} (h : Machine.ofToken t = .ok m) :
    m.WellFormed := by
  simp only [Machine.ofToken, bind_eq_ok, pure_eq_ok] at h
  obtain ⟨ms, -, eventMembers, -, stateMembers, -, timerMembers, -, timers, htimers, names,
    hnames, events, hevents, states, hstates, ⟨start, token⟩, -, start', hstart, _, -, rfl⟩ := h
  obtain ⟨htnd, htimer⟩ := Timer.of_ofMembers htimers
  obtain ⟨hend, hevent⟩ := of_eventList hevents
  obtain ⟨hsnd, hkeys⟩ := of_stateNames hnames
  rw [mapM_eq_ok] at hstates
  -- the states were read with the names that the machine declares
  obtain rfl : states.map State.name = names := by
    rw [hkeys]
    exact map_eq_map_of_forall₂ (fun m s hs => (of_state hs).1) hstates
  obtain ⟨hdecl, rfl⟩ := checkState_eq_ok.mp hstart
  refine ⟨htnd, hend, hsnd, hdecl, htimer, ?_, ?_⟩
  · intro e he
    obtain ⟨hne, hnd, hdecl⟩ := hevent e he
    exact ⟨hne, hnd, hdecl⟩
  · intro s hs
    obtain ⟨m, -, hm⟩ := exists_of_mem_forall₂ hstates hs
    exact (of_state hm).2

/-! ## What loading guarantees -/

/-- A specification of a door that locks itself. It loads, but it has faults: a door that stands
open may be opened, and nothing leads to the spare state. -/
def door : Json := .object
  [("timers", .object [("AutoLock", .number 30)]),
    ("events", .object [("Open", .object []), ("Close", .object []),
      ("Report", .object
        [("after_states", .array [.string "Closed"]), ("only_once", .bool true)])]),
    ("states", .object
      [("Opened", .object [("stop_timers", .array [.string "AutoLock"]),
          ("on_event", .object [("Close", .object [("state", .string "Closed"),
            ("on_traverse", .array [.string "event_only", .string "full"])])])]),
        ("Closed", .object
          [("start_timers", .object [("AutoLock", .object [("multiplier", .number 2),
            ("min", .number 10), ("max", .number 120)])]),
          ("on_event", .object [("Open", .object [("targets", .object
            [("free", .string "Opened"), ("jammed", .bool false)])])]),
          ("on_timer", .object [("AutoLock", .string "Locked")])]),
        ("Locked", .object [("final", .bool true)]),
        ("Spare", .object [("next_state", .string "Locked")])]),
    ("start_state", .string "Opened")]

/-- The machine that the door's specification gives. -/
def doorMachine : Machine where
  timers := [⟨"AutoLock", 30⟩]
  events := [⟨"Open", [], none, false⟩, ⟨"Close", [], none, false⟩,
    ⟨"Report", [], some ["Closed"], true⟩]
  states :=
    [⟨"Opened", [], ["AutoLock"], none, .branching
        [⟨"Close", .event, .single (.state "Closed"), [.eventOnly, .full], none⟩] []⟩,
      ⟨"Closed", [⟨"AutoLock", some ⟨none, some 2, none, some 10, some 120⟩⟩], [], none, .branching
        [⟨"Open", .event, .decision [⟨"free", .state "Opened"⟩, ⟨"jammed", .failure⟩], [], none⟩]
        [⟨"AutoLock", .timer, .single (.state "Locked"), [], none⟩]⟩,
      ⟨"Locked", [], [], none, .final⟩,
      ⟨"Spare", [], [], none, .passThrough (.state "Locked")⟩]
  startState := "Opened"

theorem ofToken_door : Machine.ofToken (.ofJson door) = .ok doorMachine := by rfl

/-- What loading guarantees. Timers, events and states have distinct names; whatever is named as
the start state, as a next state, as a target or as a state that arms an event is a declared state;
timers that are started, stopped or have edges are declared, and so are events that have edges. The
edges of a state are of the right kind, no two are for the same invoker, only an event has a
decision, no decision is empty, and the callbacks of an edge fit its targets. Delays are positive,
and rules for delays are well-formed. -/
theorem ofToken_ok_resolves {t : Token} {m : Machine} (h : Machine.ofToken t = .ok m) :
    (m.timers.map Timer.name).Nodup ∧ (m.events.map Event.name).Nodup ∧
    (m.states.map State.name).Nodup ∧ m.startState ∈ m.states.map State.name ∧
    (∀ timer ∈ m.timers, timer.interval.isFinite ∧ 0 < timer.interval) ∧
    (∀ e ∈ m.events, ∀ names ∈ e.afterStates, names ≠ [] ∧ names.Nodup ∧
      ∀ name ∈ names, name ∈ m.states.map State.name) ∧
    ∀ s ∈ m.states,
      (∀ start ∈ s.startTimers, start.timer ∈ m.timers.map Timer.name ∧
        start.timer ∉ s.stopTimers ∧ ∀ r ∈ start.rule, r.WellFormed) ∧
      (∀ timer ∈ s.stopTimers, timer ∈ m.timers.map Timer.name) ∧ s.stopTimers.Nodup ∧
      (∀ name, s.shape = .passThrough (.state name) → name ∈ m.states.map State.name) ∧
      (∀ choices, s.shape = .passThrough (.decision choices) → choices ≠ [] ∧
        ∀ c ∈ choices, ∀ name, c.target = .state name → name ∈ m.states.map State.name) ∧
      (s.eventEdges.map Edge.invoker).Nodup ∧ (s.timerEdges.map Edge.invoker).Nodup ∧
      (∀ e ∈ s.eventEdges, e.kind = .event ∧ e.invoker ∈ m.events.map Event.name) ∧
      (∀ e ∈ s.timerEdges, e.kind = .timer ∧ e.invoker ∈ m.timers.map Timer.name ∧
        ∃ target, e.targets = .single target) ∧
      ∀ e ∈ s.edges,
        (∀ choices, e.targets = .decision choices → choices ≠ []) ∧
        (∀ name, .state name ∈ e.targets.toList → name ∈ m.states.map State.name) ∧
        e.callbacks.Nodup ∧ ∀ shape ∈ e.callbacks, shape.needsTarget →
          e.targets = .single .noChange ∨ ∃ name, e.targets = .single (.state name) := by
  have hm := Machine.wellFormed_of_ofToken h
  refine ⟨hm.timers_nodup, hm.events_nodup, hm.states_nodup, hm.start_declared, hm.timer, ?_, ?_⟩
  · intro e he names hnames
    have hwf := hm.event e he
    exact ⟨hwf.ne_nil names hnames, hwf.nodup names hnames, hwf.declared names hnames⟩
  · intro s hs
    have hwf := hm.state s hs
    have hshape := hwf.shape
    refine ⟨?_, hwf.stops_declared, hwf.stops_nodup, ?_, ?_, (hm.eventEdges hs).nodup,
      (hm.timerEdges hs).nodup, ?_, ?_, ?_⟩
    · intro start hstart
      exact ⟨hwf.starts_declared start hstart, hwf.not_started_and_stopped start hstart,
        hwf.starts_rule start hstart⟩
    · intro name hnext
      rw [hnext] at hshape
      exact hshape
    · intro choices hnext
      rw [hnext] at hshape
      refine ⟨hshape.ne_nil, ?_⟩
      intro c hc name hname
      exact hshape.target c hc name (congrArg Target.state? hname)
    · intro e he
      have hedge := (hm.eventEdges hs).edge e he
      exact ⟨hedge.kind_eq, hedge.declared⟩
    · intro e he
      have hedge := (hm.timerEdges hs).edge e he
      exact ⟨hedge.kind_eq, hedge.declared, hedge.single_of_timer rfl⟩
    · intro e he
      have hedge := hm.edge hs he
      have htargets := hedge.targets
      refine ⟨?_, ?_, hedge.callbacks_nodup, hedge.callbacks_target⟩
      · intro choices hchoices
        rw [hchoices] at htargets
        exact htargets.ne_nil
      · intro name hname
        exact htargets.of_mem_toList hname name rfl

/-- The door's specification loads, so its start state is declared and its delays are positive. -/
theorem ofToken_ok_resolves_door :
    Machine.ofToken (.ofJson door) = .ok doorMachine ∧
    doorMachine.startState ∈ doorMachine.states.map State.name ∧
    ∀ timer ∈ doorMachine.timers, timer.interval.isFinite ∧ 0 < timer.interval := by
  obtain ⟨_, _, _, hstart, htimers, _⟩ := ofToken_ok_resolves ofToken_door
  exact ⟨ofToken_door, hstart, htimers⟩

end TimedMachine
