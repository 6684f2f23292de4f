import TimedMachine.Proofs.Machine.Accepts
import TimedMachine.Proofs.Machine.Repeats

/-!
# Names inside of events, states and decisions

An event names its arguments, a state the timers that it starts, and a decision its choices. The
names of each list stand in the specification at one place, in the same order, and nothing compares
them there other than the names in an array of timers. So the names differ in all lists of a machine
exactly if none of the objects at these places repeats a key (`Machine.uniqueInParts_iff`); without
that they may be repeated in every kind of list (`ofToken_repeatsInParts`).
-/

namespace TimedMachine

open Loaded

/-! ## Where names stand -/

/-- The keys of the object at the end of a route, in order; where no object stands there are
none. -/
def Token.keysAt (t : Token) (route : List Step) : List String :=
  ((t.follow? route).bind Token.members?).elim [] Members.keys

/-- The choices of a decision; a single target has none. -/
def Targets.choices : Targets → List Choice
  | .single _ => []
  | .decision choices => choices

/-- The choices among the next states of a state that passes on; other states have none. -/
def State.nextChoices (s : State) : List Choice :=
  match s.shape with
  | .passThrough (.decision choices) => choices
  | _ => []

/-- Whether the names differ in every list of arguments, of started timers and of choices. -/
structure Machine.UniqueInParts (m : Machine) : Prop where
  args : ∀ e ∈ m.events, (e.args.map Argument.name).Nodup
  starts : ∀ s ∈ m.states, (s.startTimers.map TimerStart.timer).Nodup
  nextChoices : ∀ s ∈ m.states, (s.nextChoices.map Choice.name).Nodup
  edgeChoices : ∀ s ∈ m.states, ∀ e ∈ s.eventEdges, (e.targets.choices.map Choice.name).Nodup

/-- Whether the objects that list arguments, started timers and choices repeat no key. Of a record
that repeats a key itself, the first member with that key is looked into. -/
structure Token.UniqueInParts (t : Token) : Prop where
  args : ∀ event, (t.keysAt [.key "events", .key event, .key "args"]).Nodup
  starts : ∀ state, (t.keysAt [.key "states", .key state, .key "start_timers"]).Nodup
  nextChoices : ∀ state,
    (t.keysAt [.key "states", .key state, .key "on_enter", .key "targets"]).Nodup
  edgeChoices : ∀ state event,
    (t.keysAt [.key "states", .key state, .key "on_event", .key event, .key "targets"]).Nodup

/-! ## Following routes -/

section Routes

variable {t v : Token} {ms : Members} {key name : String} {route : List Step}

/-- A route that starts with a key goes on in the member with the key. -/
theorem Token.keysAt_key (h : t.members? = some ms) :
    t.keysAt (.key key :: route) = (ms.get? key).elim [] (·.keysAt route) := by
  rw [Token.keysAt, Token.follow?, Token.child?, Token.get?, h, Option.bind_some]
  cases ms.get? key <;> rfl

/-- Below a token that is no object there are no keys. -/
theorem Token.keysAt_key_of_members?_eq_none (h : t.members? = none) :
    t.keysAt (.key key :: route) = [] := by
  rw [Token.keysAt, Token.follow?, Token.child?, Token.get?, h]
  rfl

/-- The keys of a token itself. -/
theorem Token.keysAt_nil : t.keysAt [] = t.members?.elim [] Members.keys := rfl

theorem Members.requiredObject_eq_ok {ms' : Members} (h : ms.requiredObject t key = .ok ms') :
    ∃ v, ms.get? key = some v ∧ v.members? = some ms' := by
  simp only [Members.requiredObject, bind_eq_ok, asMembers_eq_ok_iff] at h
  obtain ⟨v, hv, hms'⟩ := h
  unfold Members.required at hv
  split at hv
  · next w hw =>
    cases hv
    exact ⟨_, hw, hms'⟩
  · cases hv

end Routes

/-! ## What is found under a name -/

section Named

variable {β : Type} {R : Key × Token → β → Prop} {ms : Members} {bs : List β} {name : β → String}

/-- What is read from members one by one under their keys is found under a name exactly if a member
is, and was read from that member. -/
theorem rel_get?_find? (hall : List.Forall₂ R ms bs) (hname : ∀ m b, R m b → name b = m.1.name)
    (key : String) :
    Option.Rel (fun v b => ∃ k, R (k, v) b) (ms.get? key) (bs.find? (name · == key)) := by
  induction hall with
  | nil => exact .none
  | @cons m b ms bs hR _ ih =>
    unfold Members.get? at ih ⊢
    rw [List.find?_cons, List.find?_cons, hname m b hR]
    cases m.1.name == key with
    | true => exact .some ⟨m.1, hR⟩
    | false => exact ih

/-- The keys under a member, if they are the names of what was read from it. -/
theorem elim_keysAt_eq (hall : List.Forall₂ R ms bs) (hname : ∀ m b, R m b → name b = m.1.name)
    {route : List Step} {names : β → List String}
    (hnames : ∀ m b, R m b → m.2.keysAt route = names b) (key : String) :
    (ms.get? key).elim [] (·.keysAt route) = (bs.find? (name · == key)).elim [] names := by
  have hrel := rel_get?_find? hall hname key
  generalize ms.get? key = o, bs.find? (name · == key) = o' at hrel
  cases hrel with
  | none => rfl
  | some h =>
    obtain ⟨k, hR⟩ := h
    exact hnames _ _ hR

/-- Among items with distinct names, what holds of all of them is what holds of whatever a look-up
finds. -/
theorem forall_mem_iff_forall_find? (h : (bs.map name).Nodup) {P : β → Prop} :
    (∀ b ∈ bs, P b) ↔ ∀ key, ∀ b ∈ bs.find? (name · == key), P b := by
  constructor
  · intro hP key b hb
    exact hP b (List.mem_of_find?_eq_some hb)
  · intro hP b hb
    apply hP (name b)
    cases hfind : bs.find? (name · == name b) with
    | none => simpa using List.find?_eq_none.1 hfind b hb
    | some b' =>
      have hname : name b' = name b := by simpa using List.find?_some hfind
      rw [List.inj_on_of_nodup_map h (List.mem_of_find?_eq_some hfind) hb hname]
      rfl

/-- The names in every item with distinct names differ exactly if the names do that are found under
each name. -/
theorem forall_nodup_iff (h : (bs.map name).Nodup) {names : β → List String} :
    (∀ b ∈ bs, (names b).Nodup) ↔
      ∀ key, ((bs.find? (name · == key)).elim [] names).Nodup := by
  rw [forall_mem_iff_forall_find? h]
  apply forall_congr'
  intro key
  cases bs.find? (name · == key) <;> simp

end Named

/-! ## Events, edges and states -/

section Parts

variable {ns : Names} {k : Key} {v : Token}

/-- The keys under an optional member, if they are the names in what was read from it. -/
theorem keysAt_of_optional {α : Type} {ms : Members} {key : String} {route : List Step}
    {read : Token → Loaded α} {names : α → List String} {o : Option α}
    (h : ms.optional key read = .ok o)
    (hread : ∀ w a, read w = .ok a → w.keysAt route = names a) :
    (ms.get? key).elim [] (·.keysAt route) = o.elim [] names := by
  obtain ⟨hnone, rfl⟩ | ⟨w, hw, a, ha, rfl⟩ := Members.optional_eq_ok.1 h
  · rw [hnone]
    rfl
  · rw [hw]
    exact hread w a ha

/-- The arguments of an event have the keys of its `args` as names. -/
theorem keysAt_of_event {e : Event} (h : ns.event (k, v) = .ok e) :
    v.keysAt [.key "args"] = e.args.map Argument.name := by
  simp only [Names.event, bind_eq_ok, pure_eq_ok, asMembers_eq_ok_iff] at h
  obtain ⟨ms, hms, _, -, _, -, o, ho, args, hargs, _, -, _, -, rfl⟩ := h
  have hkeys : ∀ (w : Token) (ms' : Members), w.asMembers "args" = .ok ms' →
      w.keysAt [] = ms'.keys := by
    intro w ms' hw
    rw [Token.keysAt_nil, asMembers_eq_ok_iff.1 hw]
    rfl
  rw [Token.keysAt_key hms, keysAt_of_optional ho hkeys, names_arguments hargs]
  cases o <;> rfl

/-- The names of choices are the keys of their `targets`. -/
theorem keysAt_of_choices {owner : String} {choices : List Choice}
    (h : ns.choices owner v = .ok choices) : v.keysAt [] = choices.map Choice.name := by
  cases v
  case object s ms => exact (names_choices h).symm
  all_goals cases h

/-- The choices of an edge have the keys of its `targets` as names. -/
theorem keysAt_of_edge {invoker : String} {e : Edge} (h : ns.edge .event invoker v = .ok e) :
    v.keysAt [.key "targets"] = e.targets.choices.map Choice.name := by
  cases v
  case object s ms =>
    simp only [Names.edge, bind_eq_ok, pure_eq_ok] at h
    obtain ⟨targets, htargets, _, -, _, -, _, -, rfl⟩ := h
    rw [Token.keysAt_key rfl]
    unfold Names.edgeTargets at htargets
    split at htargets
    · next hnone =>
      obtain ⟨target, -, rfl⟩ := map_eq_ok.1 htargets
      rw [hnone]
      rfl
    · next hsome =>
      obtain ⟨choices, hchoices, rfl⟩ := map_eq_ok.1 htargets
      rw [hsome]
      exact keysAt_of_choices hchoices
    · cases htargets
  all_goals
    -- the edge is a target alone
    unfold Names.edge at h
    obtain ⟨target, -, rfl⟩ := map_eq_ok.1 h
    rfl

/-- The edges of a state for events are found under their events. -/
theorem keysAt_of_edges {es : List Edge} {ms : Members} (h : ns.edges .event ms = .ok es)
    (event : String) :
    (ms.get? event).elim [] (·.keysAt [.key "targets"]) =
      (es.find? (·.invoker == event)).elim [] fun e => e.targets.choices.map Choice.name := by
  have hname : ∀ (m : Key × Token) (name : String) (e : Edge), ns.edge .event name m.2 = .ok e →
      e.invoker = id name := fun _ _ _ => invoker_of_edge
  obtain ⟨hall, -, -⟩ := (readDistinct_eq_ok hname).mp h
  apply elim_keysAt_eq hall
  · rintro m e ⟨name, hcheck, he⟩
    exact (invoker_of_edge he).trans (checkInvoker_eq_ok.1 hcheck).2.symm
  · rintro m e ⟨name, -, he⟩
    exact keysAt_of_edge he

/-- The timers that are started have the keys of an object as names; those of an array differ. -/
theorem keysAt_of_startTimers {starts : List TimerStart} (h : ns.startTimers v = .ok starts) :
    v.keysAt [] = starts.map TimerStart.timer ∨
      v.keysAt [] = [] ∧ (starts.map TimerStart.timer).Nodup := by
  cases v
  case object s ms => exact .inl (timers_starts h).symm
  case array s items =>
    simp only [Names.startTimers, bind_eq_ok, pure_eq_ok] at h
    obtain ⟨names, hnames, rfl⟩ := h
    refine .inr ⟨rfl, ?_⟩
    rw [List.map_map]
    exact (List.map_id names).symm ▸ (of_namesOfItems hnames).1
  all_goals cases h

/-- The choices that a state is given to go on have the keys of their `targets` as names. -/
theorem keysAt_of_onEnter {enter : Option OnEnter × Option (List Choice)}
    (h : ns.onEnter v = .ok enter) :
    v.keysAt [.key "targets"] = (enter.2.getD []).map Choice.name := by
  cases v
  case object s ms =>
    simp only [Names.onEnter, bind_eq_ok, pure_eq_ok] at h
    obtain ⟨comment, -, choices, hchoices, _, -, rfl⟩ := h
    rw [Token.keysAt_key rfl, keysAt_of_optional hchoices fun w a => keysAt_of_choices]
    cases choices <;> rfl
  case bool s b => cases b <;> cases h <;> rfl
  case string s comment =>
    cases h
    rfl
  all_goals cases h

/-- The fields of a state give the choices among its next states and its edges for events. -/
theorem parts_of_isShape {s : State} {timerEdges eventEdges : Option (List Edge)}
    {next : Option String} {choices : Option (List Choice)} {final : Bool}
    (h : Format.IsShape eventEdges timerEdges next choices final s.shape) :
    s.nextChoices = choices.getD [] ∧ s.eventEdges = eventEdges.getD [] := by
  obtain ⟨name, starts, stops, onEnter, shape⟩ := s
  cases h <;> exact ⟨rfl, rfl⟩

/-- The keys where a list of names stands differ exactly if the names do, when the keys are the
names, or when they are missing and the names differ anyway. -/
theorem nodup_iff_of_eq_or {keys names : List String}
    (h : keys = names ∨ keys = [] ∧ names.Nodup) : keys.Nodup ↔ names.Nodup := by
  obtain rfl | ⟨rfl, hnames⟩ := h
  · exact Iff.rfl
  · exact ⟨fun _ => hnames, fun _ => List.nodup_nil⟩

/-- What the keys that stand in a state's specification are the names of. -/
structure KeysOfState (v : Token) (s : State) : Prop where
  starts : v.keysAt [.key "start_timers"] = s.startTimers.map TimerStart.timer ∨
    v.keysAt [.key "start_timers"] = [] ∧ (s.startTimers.map TimerStart.timer).Nodup
  nextChoices :
    v.keysAt [.key "on_enter", .key "targets"] = s.nextChoices.map Choice.name
  edgeChoices : ∀ event, v.keysAt [.key "on_event", .key event, .key "targets"] =
    (s.eventEdge? event).elim [] fun e => e.targets.choices.map Choice.name

theorem keysAt_of_state {s : State} (h : ns.state (k, v) = .ok s) : KeysOfState v s := by
  simp only [Names.state, bind_eq_ok, pure_eq_ok, asMembers_eq_ok_iff] at h
  obtain ⟨ms, hms, starts, hstarts, _, -, _, -, _, -, enter, henter, _, -, eventEdges, hevents,
    _, -, _, -, _, hcheck, _, -, hs⟩ := h
  obtain ⟨hnext, hedges⟩ :=
    parts_of_isShape (ShapeFields.check_eq_ok_iff.1 ⟨hcheck, congrArg State.shape hs⟩)
  have hstarted : s.startTimers = starts.getD [] := congrArg State.startTimers hs.symm
  refine ⟨?_, ?_, fun event => ?_⟩
  · rw [Token.keysAt_key hms, hstarted]
    obtain ⟨hnone, rfl⟩ | ⟨w, hw, starts, hread, rfl⟩ := Members.optional_eq_ok.1 hstarts
    · exact .inl (by rw [hnone]; rfl)
    · rw [hw]
      exact keysAt_of_startTimers hread
  · rw [Token.keysAt_key hms, keysAt_of_optional henter fun w a => keysAt_of_onEnter, hnext]
    cases enter <;> rfl
  · have hread : ∀ (w : Token) (es : List Edge),
        (do ns.edges .event (← w.asMembers "on_event")) = .ok es →
        w.keysAt [.key event, .key "targets"] =
          (es.find? (·.invoker == event)).elim [] fun e => e.targets.choices.map Choice.name := by
      intro w es hw
      obtain ⟨ms', hms', hes⟩ := bind_eq_ok.1 hw
      rw [Token.keysAt_key (asMembers_eq_ok_iff.1 hms'), keysAt_of_edges hes]
    rw [Token.keysAt_key hms, keysAt_of_optional hevents hread, State.eventEdge?, hedges]
    cases eventEdges <;> rfl

end Parts

/-! ## Machines -/

section Machines

variable {t : Token} {m : Machine}

/-- The members that a machine's events and states were read from. -/
theorem exists_members_of_ofToken (h : Machine.ofToken t = .ok m) :
    ∃ ms events states, t.members? = some ms ∧
      (∃ v, ms.get? "events" = some v ∧ v.members? = some events) ∧
      (∃ v, ms.get? "states" = some v ∧ v.members? = some states) ∧
      (∃ ns : Names, List.Forall₂ (fun m e => ns.event m = .ok e) events m.events) ∧
      ∃ ns : Names, List.Forall₂ (fun m s => ns.state m = .ok s) states m.states := by
  simp only [Machine.ofToken, bind_eq_ok, pure_eq_ok, asMembers_eq_ok_iff] at h
  obtain ⟨ms, hms, eventMembers, hevents, stateMembers, hstates, _, -, _, -, _, -, events, hes,
    states, hss, _, -, _, -, _, -, rfl⟩ := h
  exact ⟨ms, eventMembers, stateMembers, hms, Members.requiredObject_eq_ok hevents,
    Members.requiredObject_eq_ok hstates, ⟨_, (readDistinct_ok_eq_ok.1 hes).1⟩,
    ⟨_, mapM_eq_ok.1 hss⟩⟩

theorem keysAt_args (h : Machine.ofToken t = .ok m) (event : String) :
    t.keysAt [.key "events", .key event, .key "args"] =
      (m.event? event).elim [] fun e => e.args.map Argument.name := by
  obtain ⟨ms, events, -, hms, ⟨v, hv, hevents⟩, -, ⟨ns, hall⟩, -⟩ := exists_members_of_ofToken h
  rw [Token.keysAt_key hms, hv, Option.elim_some, Token.keysAt_key hevents]
  exact elim_keysAt_eq hall (fun m e => name_event) (fun m e => keysAt_of_event) event

/-- What stands under the name of a state is what the state was read from. -/
theorem exists_rel_state? (h : Machine.ofToken t = .ok m) (state : String) :
    ∃ o, Option.Rel KeysOfState o (m.state? state) ∧
      ∀ route, t.keysAt (.key "states" :: .key state :: route) = o.elim [] (·.keysAt route) := by
  obtain ⟨ms, -, states, hms, -, ⟨v, hv, hstates⟩, -, ns, hall⟩ := exists_members_of_ofToken h
  refine ⟨states.get? state, ?_, fun route => ?_⟩
  · have hrel := rel_get?_find? hall (fun m s hs => (of_state hs).1) state
    change Option.Rel _ (states.get? state) (m.state? state) at hrel
    generalize states.get? state = o, m.state? state = o' at hrel ⊢
    cases hrel with
    | none => exact .none
    | some hs =>
      obtain ⟨k, hs⟩ := hs
      exact .some (keysAt_of_state hs)
  · rw [Token.keysAt_key hms, hv, Option.elim_some, Token.keysAt_key hstates]

/-- In a tree that repeats no key, the keys at the end of a way of keys differ. -/
theorem Token.nodup_keysAt (ht : t.distinctKeys) (keys : List String) :
    (t.keysAt (keys.map .key)).Nodup := by
  induction keys generalizing t with
  | nil =>
    rw [List.map_nil, keysAt_nil]
    cases hms : t.members? with
    | none => exact List.nodup_nil
    | some ms => exact (distinctKeys_of_members ht hms).1
  | cons key keys ih =>
    rw [List.map_cons]
    cases hms : t.members? with
    | none =>
      rw [keysAt_key_of_members?_eq_none hms]
      exact List.nodup_nil
    | some ms =>
      rw [keysAt_key hms]
      have hkeys := distinctKeys_of_members ht hms
      cases hv : ms.get? key with
      | none => exact List.nodup_nil
      | some v =>
        exact ih (Members.distinctKeys_of_has hkeys ((Members.get?_eq_some_iff hkeys).1 hv))

/-- A tree that repeats no key at all repeats none where names are listed. -/
theorem Token.uniqueInParts_of_distinctKeys (ht : t.distinctKeys) : t.UniqueInParts where
  args event := nodup_keysAt ht ["events", event, "args"]
  starts state := nodup_keysAt ht ["states", state, "start_timers"]
  nextChoices state := nodup_keysAt ht ["states", state, "on_enter", "targets"]
  edgeChoices state event := nodup_keysAt ht ["states", state, "on_event", event, "targets"]

/-- What holds of all states exactly if it holds of the keys that they were read from holds of all
states exactly if it holds of the keys under every name. -/
theorem forall_state_iff (h : Machine.ofToken t = .ok m) {P : State → Prop}
    {Q : (List Step → List String) → Prop} (hnone : Q fun _ => [])
    (hsome : ∀ v, ∀ s ∈ m.states, KeysOfState v s → (P s ↔ Q v.keysAt)) :
    (∀ s ∈ m.states, P s) ↔
      ∀ state, Q fun route => t.keysAt (.key "states" :: .key state :: route) := by
  rw [forall_mem_iff_forall_find? (Machine.wellFormed_of_ofToken h).states_nodup]
  refine forall_congr' fun state => ?_
  obtain ⟨o, hrel, hkeys⟩ := exists_rel_state? h state
  simp only [hkeys]
  rw [Machine.state?] at hrel
  cases hs : m.states.find? (·.name == state) with
  | none =>
    rw [hs] at hrel
    cases hrel
    simpa using hnone
  | some s =>
    rw [hs] at hrel
    cases hrel with
    | some hrel => simpa using hsome _ s (List.mem_of_find?_eq_some hs) hrel

/-- The names differ in every list of arguments, of started timers and of choices of a machine that
was loaded exactly if no object repeats a key where the specification lists them. So they differ if
the specification repeats no key anywhere. -/
theorem Machine.uniqueInParts_iff (h : Machine.ofToken t = .ok m) :
    (m.UniqueInParts ↔ t.UniqueInParts) ∧ (t.distinctKeys → m.UniqueInParts) := by
  have hm := Machine.wellFormed_of_ofToken h
  have hargs : (∀ e ∈ m.events, (e.args.map Argument.name).Nodup) ↔
      ∀ event, (t.keysAt [.key "events", .key event, .key "args"]).Nodup := by
    rw [forall_nodup_iff hm.events_nodup]
    exact forall_congr' fun event => by rw [keysAt_args h, Machine.event?]
  have hstarts : (∀ s ∈ m.states, (s.startTimers.map TimerStart.timer).Nodup) ↔
      ∀ state, (t.keysAt [.key "states", .key state, .key "start_timers"]).Nodup :=
    forall_state_iff h (Q := fun keys => (keys [.key "start_timers"]).Nodup) List.nodup_nil
      fun v s _ hs => (nodup_iff_of_eq_or hs.starts).symm
  have hnext : (∀ s ∈ m.states, (s.nextChoices.map Choice.name).Nodup) ↔ ∀ state,
      (t.keysAt [.key "states", .key state, .key "on_enter", .key "targets"]).Nodup :=
    forall_state_iff h (Q := fun keys => (keys [.key "on_enter", .key "targets"]).Nodup)
      List.nodup_nil fun v s _ hs => by rw [hs.nextChoices]
  have hedges : (∀ s ∈ m.states, ∀ e ∈ s.eventEdges,
        (e.targets.choices.map Choice.name).Nodup) ↔ ∀ state event,
      (t.keysAt [.key "states", .key state, .key "on_event", .key event, .key "targets"]).Nodup :=
    forall_state_iff h
      (Q := fun keys => ∀ event, (keys [.key "on_event", .key event, .key "targets"]).Nodup)
      (fun _ => List.nodup_nil) fun v s hmem hs => by
        rw [forall_nodup_iff (hm.eventEdges hmem).nodup]
        exact forall_congr' fun event => by rw [hs.edgeChoices event, State.eventEdge?]
  have hiff : m.UniqueInParts ↔ t.UniqueInParts := by
    constructor
    · rintro ⟨h₁, h₂, h₃, h₄⟩
      exact ⟨hargs.1 h₁, hstarts.1 h₂, hnext.1 h₃, hedges.1 h₄⟩
    · rintro ⟨h₁, h₂, h₃, h₄⟩
      exact ⟨hargs.2 h₁, hstarts.2 h₂, hnext.2 h₃, hedges.2 h₄⟩
  exact ⟨hiff, fun ht => hiff.2 (Token.uniqueInParts_of_distinctKeys ht)⟩

/-- In the machine of the door's specification, which repeats no key, the names differ. -/
theorem uniqueInParts_iff_door :
    Machine.ofToken (.ofJson door) = .ok doorMachine ∧ doorMachine.UniqueInParts :=
  ⟨ofToken_door, (Machine.uniqueInParts_iff ofToken_door).2 (by decide)⟩

end Machines

/-- A specification that repeats an argument, a timer that is started, and a choice of either kind
of decision. -/
def repeatsInParts : Token := .object {}
  [(⟨"timers", none⟩, .object {} [(⟨"T", none⟩, .number {} 1)]),
    (⟨"events", none⟩, .object {}
      [(⟨"E", none⟩, .object {}
        [(⟨"args", none⟩, .object {}
          [(⟨"a", none⟩, .string {} "int"), (⟨"a", none⟩, .string {} "string")])])]),
    (⟨"states", none⟩, .object {}
      [(⟨"A", none⟩, .object {}
          [(⟨"start_timers", none⟩, .object {} [(⟨"T", none⟩, .null {}), (⟨"T", none⟩, .null {})]),
            (⟨"on_event", none⟩, .object {}
              [(⟨"E", none⟩, .object {}
                [(⟨"targets", none⟩, .object {}
                  [(⟨"x", none⟩, .null {}), (⟨"x", none⟩, .string {} "B")])])]),
            (⟨"on_timer", none⟩, .object {} [(⟨"T", none⟩, .string {} "B")])]),
        (⟨"B", none⟩, .object {}
          [(⟨"on_enter", none⟩, .object {}
            [(⟨"targets", none⟩, .object {}
              [(⟨"y", none⟩, .string {} "C"), (⟨"y", none⟩, .bool {} false)])])]),
        (⟨"C", none⟩, .object {} [(⟨"final", none⟩, .bool {} true)])]),
    (⟨"start_state", none⟩, .string {} "A")]

/-- The machine of that specification. -/
def repeatsInPartsMachine : Machine where
  timers := [⟨"T", 1⟩]
  events := [⟨"E", [⟨"a", "int"⟩, ⟨"a", "string"⟩], none, false⟩]
  states :=
    [⟨"A", [⟨"T", none⟩, ⟨"T", none⟩], [], none, .branching
        [⟨"E", .event, .decision [⟨"x", .noChange⟩, ⟨"x", .state "B"⟩], [], none⟩]
        [⟨"T", .timer, .single (.state "B"), [], none⟩]⟩,
      ⟨"B", [], [], some ⟨none⟩, .passThrough (.decision [⟨"y", .state "C"⟩, ⟨"y", .failure⟩])⟩,
      ⟨"C", [], [], none, .final⟩]
  startState := "A"

/-- A specification may repeat an argument, a started timer and a choice and still load, and the
machine repeats them all. -/
theorem ofToken_repeatsInParts :
    Machine.ofToken repeatsInParts = .ok repeatsInPartsMachine ∧
      (∃ e ∈ repeatsInPartsMachine.events, ¬(e.args.map Argument.name).Nodup) ∧
      (∃ s ∈ repeatsInPartsMachine.states, ¬(s.startTimers.map TimerStart.timer).Nodup) ∧
      (∃ s ∈ repeatsInPartsMachine.states, ¬(s.nextChoices.map Choice.name).Nodup) ∧
      ∃ s ∈ repeatsInPartsMachine.states, ∃ e ∈ s.eventEdges,
        ¬(e.targets.choices.map Choice.name).Nodup :=
  ⟨by rfl, by decide, by decide, by decide, by decide⟩

end TimedMachine
