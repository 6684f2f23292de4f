import TimedMachine.Proofs.Machine.Keys
import TimedMachine.Proofs.Machine.OfToken

/-!
# Members with the same key

A tree that was not read from a text may have objects that repeat a key. What becomes of the
repeated members depends on what the object is for. In a record, whose keys the format fixes, the
first member with a key counts and the others are passed over, whatever they hold: they do not even
count as members that the record must not have. An object that declares timers, events or states,
or that lists the edges of a state, is refused. The arguments of an event, the choices of a decision
and the timers that a state starts all become part of the machine, one for each member.
-/

namespace TimedMachine

open Loaded

namespace Members

/-- The members of an object without those that repeat the key of an earlier one. -/
def firsts : Members → Members
  | [] => []
  | m :: ms => m :: (firsts ms).filter (·.1.name ≠ m.1.name)

/-- The keys of an object, in order. -/
def keys (ms : Members) : List String := ms.map (·.1.name)

variable {ms : Members} {key : String} {α : Type} {read : Token → Loaded α}

/-- A search by key ends at the same member, since only members with the keys of earlier ones have
gone. -/
theorem find?_firsts (q : String → Bool) (ms : Members) :
    ms.firsts.find? (fun m => q m.1.name) = ms.find? (fun m => q m.1.name) := by
  induction ms with
  | nil => rfl
  | cons m ms ih =>
    rw [firsts, List.find?_cons, List.find?_cons]
    cases hq : q m.1.name with
    | true => rfl
    | false =>
      -- no member that has gone satisfies `q`, because the head does not
      have hpred : ∀ m' : Key × Token,
          decide (decide (m'.1.name ≠ m.1.name) = true ∧ q m'.1.name = true) = q m'.1.name := by
        intro m'
        by_cases hkey : m'.1.name = m.1.name
        · simp [hkey, hq]
        · simp [hkey]
      rw [List.find?_filter]
      simp only [hpred]
      exact ih

@[simp] theorem get?_firsts : ms.firsts.get? key = ms.get? key := by
  rw [Members.get?, Members.get?, find?_firsts (· == key)]

@[simp] theorem onlyKnown_firsts {known : List String} :
    ms.firsts.onlyKnown known = ms.onlyKnown known := by
  rw [Members.onlyKnown, Members.onlyKnown, find?_firsts (fun name => !known.contains name)]

@[simp] theorem optional_firsts : ms.firsts.optional key read = ms.optional key read := by
  rw [Members.optional, Members.optional, get?_firsts]

@[simp] theorem optionalOrNull_firsts :
    ms.firsts.optionalOrNull key read = ms.optionalOrNull key read := by
  rw [Members.optionalOrNull, Members.optionalOrNull, optional_firsts]

end Members

/-! ## Records -/

section Records

variable {ns : Names} {s : Site} {ms : Members} {k : Key}

/-- Faults are reported at the place of an object, whatever its members are. -/
theorem LoadFault.at_object (fault : LoadFault) (s : Site) (ms : Members) :
    fault.at (.object s ms) = ⟨fault, s⟩ := rfl

theorem event_firsts : ns.event (k, .object s ms.firsts) = ns.event (k, .object s ms) := by
  simp only [Names.event, Token.asMembers, bind, Except.bind, Members.optional_firsts,
    Members.onlyKnown_firsts]

theorem choiceTarget_firsts :
    ns.choiceTarget (.object s ms.firsts) = ns.choiceTarget (.object s ms) := by
  simp only [Names.choiceTarget, Members.required, Members.get?_firsts, Members.onlyKnown_firsts,
    LoadFault.at_object]

theorem edge_firsts {kind : InvokerKind} {invoker : String} :
    ns.edge kind invoker (.object s ms.firsts) = ns.edge kind invoker (.object s ms) := by
  simp only [Names.edge, Names.edgeTargets, Members.get?_firsts, Members.optional_firsts,
    Members.optionalOrNull_firsts, Members.onlyKnown_firsts, LoadFault.at_object]

theorem onEnter_firsts : ns.onEnter (.object s ms.firsts) = ns.onEnter (.object s ms) := by
  simp only [Names.onEnter, Members.optional_firsts, Members.optionalOrNull_firsts,
    Members.onlyKnown_firsts]

theorem delayRule_firsts {timer : String} :
    DelayRule.ofToken timer (.object s ms.firsts) = DelayRule.ofToken timer (.object s ms) := by
  simp only [DelayRule.ofToken, Token.asMembers, bind, Except.bind, rulePart,
    Members.optionalOrNull_firsts, Members.onlyKnown_firsts, LoadFault.at_object]

theorem state_firsts : ns.state (k, .object s ms.firsts) = ns.state (k, .object s ms) := by
  simp only [Names.state, Token.asMembers, bind, Except.bind, checkStops, ShapeFields.check,
    Members.optional_firsts, Members.optionalOrNull_firsts, Members.onlyKnown_firsts,
    LoadFault.at_object]

theorem ofToken_firsts :
    Machine.ofToken (.object s ms.firsts) = Machine.ofToken (.object s ms) := by
  simp only [Machine.ofToken, Token.asMembers, bind, Except.bind, Members.requiredObject,
    Members.requiredString, Members.required, Members.get?_firsts, Members.optional_firsts,
    Members.onlyKnown_firsts, LoadFault.at_object]

end Records

/-! ## Lists -/

section Lists

variable {ns : Names} {ms : Members} {β γ : Type}

/-- What is read from members one by one has their keys as names. -/
theorem names_eq_keys {read : Key × Token → Loaded β} {name : β → String} {bs : List β}
    (hname : ∀ m b, read m = .ok b → name b = m.1.name) (h : ms.mapM read = .ok bs) :
    bs.map name = ms.keys :=
  map_eq_map_of_forall₂ hname (mapM_eq_ok.mp h)

/-- What is read from members that must not repeat a name has their keys as names, and so the keys
differ. -/
theorem distinct_names_eq_keys {check : Key × Token → Loaded β} {name : β → String}
    {duplicate : Key × Token → β → LoadError} {read : Key × Token → β → Loaded γ}
    {nameOf : γ → String} {cs : List γ} (hcheck : ∀ m b, check m = .ok b → name b = m.1.name)
    (hname : ∀ m b c, read m b = .ok c → nameOf c = name b)
    (h : readDistinct check name duplicate read [] ms = .ok cs) :
    cs.map nameOf = ms.keys ∧ ms.keys.Nodup := by
  obtain ⟨hall, hnodup, -⟩ := (readDistinct_eq_ok hname).mp h
  have hkeys : cs.map nameOf = ms.keys := by
    apply map_eq_map_of_forall₂ _ hall
    intro m c hc
    obtain ⟨b, hb, hc⟩ := hc
    exact (hname m b c hc).trans (hcheck m b hb)
  rw [← hkeys]
  exact ⟨rfl, hnodup⟩

/-- The same of members that are read in one go. -/
theorem distinct_names_eq_keys_of_ok {read : Key × Token → Loaded β} {name : β → String}
    {duplicate : Key × Token → β → LoadError} {bs : List β}
    (hname : ∀ m b, read m = .ok b → name b = m.1.name)
    (h : readDistinct read name duplicate (fun _ b => .ok b) [] ms = .ok bs) :
    bs.map name = ms.keys ∧ ms.keys.Nodup := by
  apply distinct_names_eq_keys hname _ h
  intro m b c hc
  cases hc
  rfl

theorem names_timers {ts : List Timer} (h : Timer.ofMembers ms = .ok ts) :
    ts.map Timer.name = ms.keys ∧ ms.keys.Nodup :=
  distinct_names_eq_keys_of_ok (fun _ _ ht => (Timer.of_ofMember ht).1) h

theorem name_event {m : Key × Token} {e : Event} (h : ns.event m = .ok e) : e.name = m.1.name := by
  simp only [Names.event, bind_eq_ok, pure_eq_ok] at h
  obtain ⟨_, -, _, -, _, -, _, -, _, -, _, -, _, -, rfl⟩ := h
  rfl

theorem names_events {es : List Event} (h : ns.eventList ms = .ok es) :
    es.map Event.name = ms.keys ∧ ms.keys.Nodup :=
  distinct_names_eq_keys_of_ok (fun _ _ he => name_event he) h

theorem names_states {names : List String} (h : stateNames ms = .ok names) :
    names = ms.keys ∧ ms.keys.Nodup := by
  have hname : ∀ (m : Key × Token) (name : String),
      (.ok m.1.name : Loaded String) = .ok name → id name = m.1.name := by
    intro m name hn
    cases hn
    rfl
  have hkeys := distinct_names_eq_keys_of_ok hname h
  rwa [List.map_id] at hkeys

theorem invokers_edges {kind : InvokerKind} {es : List Edge} (h : ns.edges kind ms = .ok es) :
    es.map Edge.invoker = ms.keys ∧ ms.keys.Nodup := by
  have hname : ∀ (m : Key × Token) (name : String),
      ns.checkInvoker kind m = .ok name → id name = m.1.name := by
    intro m name hcheck
    exact (checkInvoker_eq_ok.mp hcheck).2.symm
  apply distinct_names_eq_keys hname _ h
  intro m name e he
  exact invoker_of_edge he

theorem names_arguments {args : List Argument} (h : Argument.ofMembers ms = .ok args) :
    args.map Argument.name = ms.keys := by
  apply names_eq_keys _ h
  intro m a ha
  obtain ⟨_, -, ha⟩ := bind_eq_ok.mp ha
  cases pure_eq_ok.mp ha
  rfl

theorem names_choices {owner : String} {s : Site} {choices : List Choice}
    (h : ns.choices owner (.object s ms) = .ok choices) : choices.map Choice.name = ms.keys := by
  simp only [Names.choices, bind_eq_ok, guard_eq_ok, asMembers_eq_ok_iff] at h
  obtain ⟨_, hms, -, h⟩ := h
  cases hms
  apply names_eq_keys _ h
  intro m c hc
  obtain ⟨_, -, hc⟩ := bind_eq_ok.mp hc
  cases pure_eq_ok.mp hc
  rfl

theorem timers_starts {s : Site} {starts : List TimerStart}
    (h : ns.startTimers (.object s ms) = .ok starts) :
    starts.map TimerStart.timer = ms.keys := by
  apply names_eq_keys _ h
  intro m start hstart
  simp only [Names.timerStart, guard_eq_ok] at hstart
  obtain ⟨-, hstart⟩ := hstart
  split at hstart
  · cases pure_eq_ok.mp hstart
    rfl
  · obtain ⟨_, -, hstart⟩ := bind_eq_ok.mp hstart
    cases pure_eq_ok.mp hstart
    rfl

end Lists

/-! ## All kinds of objects -/

/-- What becomes of repeated keys, by the kind of object. The records of a specification are read as
if they had only the first member with each key: the specification itself, an event, a state, what
a state does on being entered, an edge, the target of a choice, and a rule for a delay. Where
timers, events, states or the edges of a state are declared, each member stands for one of them and
no key is repeated. Each argument of an event, each choice and each timer that is started comes from
a member of its own, also where a key is repeated. -/
theorem repeated_keys_by_object (ns : Names) (s : Site) (ms : Members) :
    (Machine.ofToken (.object s ms) = Machine.ofToken (.object s ms.firsts) ∧
      (∀ k, ns.event (k, .object s ms) = ns.event (k, .object s ms.firsts)) ∧
      (∀ k, ns.state (k, .object s ms) = ns.state (k, .object s ms.firsts)) ∧
      ns.onEnter (.object s ms) = ns.onEnter (.object s ms.firsts) ∧
      (∀ kind invoker,
        ns.edge kind invoker (.object s ms) = ns.edge kind invoker (.object s ms.firsts)) ∧
      ns.choiceTarget (.object s ms) = ns.choiceTarget (.object s ms.firsts) ∧
      ∀ timer,
        DelayRule.ofToken timer (.object s ms) = DelayRule.ofToken timer (.object s ms.firsts)) ∧
    ((∀ ts, Timer.ofMembers ms = .ok ts → ts.map Timer.name = ms.keys ∧ ms.keys.Nodup) ∧
      (∀ es, ns.eventList ms = .ok es → es.map Event.name = ms.keys ∧ ms.keys.Nodup) ∧
      (∀ names, stateNames ms = .ok names → names = ms.keys ∧ ms.keys.Nodup) ∧
      ∀ kind es, ns.edges kind ms = .ok es → es.map Edge.invoker = ms.keys ∧ ms.keys.Nodup) ∧
    (∀ args, Argument.ofMembers ms = .ok args → args.map Argument.name = ms.keys) ∧
    (∀ owner choices, ns.choices owner (.object s ms) = .ok choices →
      choices.map Choice.name = ms.keys) ∧
    ∀ starts, ns.startTimers (.object s ms) = .ok starts →
      starts.map TimerStart.timer = ms.keys := by
  refine ⟨⟨ofToken_firsts.symm, fun _ => event_firsts.symm, fun _ => state_firsts.symm,
    onEnter_firsts.symm, fun _ _ => edge_firsts.symm, choiceTarget_firsts.symm,
    fun _ => delayRule_firsts.symm⟩, ⟨?_, ?_, ?_, ?_⟩, ?_, ?_, ?_⟩
  · exact fun ts h => names_timers h
  · exact fun es h => names_events h
  · exact fun names h => names_states h
  · exact fun kind es h => invokers_edges h
  · exact fun args h => names_arguments h
  · exact fun owner choices h => names_choices h
  · exact fun starts h => timers_starts h

/-- A specification that names its start state twice, and the second time a state that it does not
have. -/
def startedTwice : Token := .object {}
  [(⟨"events", none⟩, .object {} []),
    (⟨"states", none⟩, .object {}
      [(⟨"A", none⟩, .object {} [(⟨"final", none⟩, .bool {} true)])]),
    (⟨"start_state", none⟩, .string {} "A"),
    (⟨"start_state", none⟩, .string {} "Nowhere")]

/-- A tree that loads may repeat a key, and the repeated member is not looked at. -/
theorem ofToken_startedTwice :
    Machine.ofToken startedTwice = .ok ⟨[], [], [⟨"A", [], [], none, .final⟩], "A"⟩ ∧
      startedTwice.distinctKeys = false :=
  ⟨by rfl, by decide⟩

end TimedMachine
