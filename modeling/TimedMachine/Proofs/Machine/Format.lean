import TimedMachine.Proofs.Machine.WellFormed
import Mathlib.Data.List.Forall2

/-!
# The format of specifications

Which token trees specify a machine, and which one, said without a reader: what members an object
may have and of which types, and what of the machine comes from them. A list in a machine has one
item for each member of an object or each item of an array, in their order. The members of a record
are found by their keys, wherever they stand, and what a part names is looked up among all names
that the machine declares.

With `strict` the format asks for two things that its description leaves out: the numbers of a rule
for a delay are finite, and a decision on entering a state has something to choose from.
-/

namespace TimedMachine

/-! ## Trees without repeated keys -/

mutual

/-- Whether no object in a tree repeats a key. -/
def Token.distinctKeys : Token → Bool
  | .null _ | .bool _ _ | .number _ _ | .string _ _ => true
  | .array _ items => Token.itemsDistinctKeys items
  | .object _ members =>
    decide (members.map (·.1.name)).Nodup && Token.membersDistinctKeys members

/-- Whether no object in a list of trees repeats a key. -/
def Token.itemsDistinctKeys : List Token → Bool
  | [] => true
  | t :: ts => t.distinctKeys && Token.itemsDistinctKeys ts

/-- Whether no object in the values of members repeats a key. -/
def Token.membersDistinctKeys : Members → Bool
  | [] => true
  | (_, t) :: ms => t.distinctKeys && Token.membersDistinctKeys ms

end

namespace Format

/-! ## Members -/

section Members

variable {α : Type}

/-- An object has a member with a key and a value. -/
def Has (ms : Members) (key : String) (t : Token) : Prop := ∃ k, (k, t) ∈ ms ∧ k.name = key

/-- An object has no member with a key. -/
def Lacks (ms : Members) (key : String) : Prop := ∀ m ∈ ms, m.1.name ≠ key

/-- An object has members with certain keys only. -/
def OnlyHas (ms : Members) (keys : List String) : Prop := ∀ m ∈ ms, m.1.name ∈ keys

instance (ms : Members) (key : String) : Decidable (Lacks ms key) :=
  inferInstanceAs (Decidable (∀ m ∈ ms, m.1.name ≠ key))

instance (ms : Members) (keys : List String) : Decidable (OnlyHas ms keys) :=
  inferInstanceAs (Decidable (∀ m ∈ ms, m.1.name ∈ keys))

/-- A member that need not be there. -/
inductive Optional (ms : Members) (key : String) (R : Token → α → Prop) : Option α → Prop
  | absent (h : Lacks ms key) : Optional ms key R none
  | present {t : Token} {a : α} (h : Has ms key t) (ha : R t a) : Optional ms key R (some a)

/-- A member that need not be there and may be `null` instead. -/
inductive OptionalOrNull (ms : Members) (key : String) (R : Token → α → Prop) : Option α → Prop
  | absent (h : Lacks ms key) : OptionalOrNull ms key R none
  | null {s : Site} (h : Has ms key (.null s)) : OptionalOrNull ms key R none
  | present {t : Token} {a : α} (h : Has ms key t) (hnull : t.isNull = false) (ha : R t a) :
      OptionalOrNull ms key R (some a)

/-- An object with one part for each member. -/
def IsObjectOf (R : Key × Token → α → Prop) (t : Token) (parts : List α) : Prop :=
  ∃ ms, t.members? = some ms ∧ List.Forall₂ R ms parts

end Members

/-! ## Names, timers and events -/

/-- A list of names that are declared and differ from one another. -/
structure IsNames (declared : List String) (t : Token) (names : List String) : Prop where
  items : ∃ ts, t.items? = some ts ∧ List.Forall₂ (fun t name => t.string? = some name) ts names
  nodup : names.Nodup
  declared : ∀ name ∈ names, name ∈ declared

/-- A member that declares a timer: a number of seconds, finite and above zero. -/
structure IsTimer (m : Key × Token) (t : Timer) : Prop where
  name : t.name = m.1.name
  number : m.2.number? = some t.interval
  positive : t.interval.isFinite ∧ 0 < t.interval

/-- A member that declares an argument of an event: the word for its type. -/
structure IsArgument (m : Key × Token) (a : Argument) : Prop where
  name : a.name = m.1.name
  type : m.2.string? = some a.type

section Parts

variable (strict : Bool) (ns : Names)

/-- The members of an event. An empty list of states is as good as none. -/
structure EventFields (ms : Members) (e : Event) : Prop where
  onlyHas : OnlyHas ms ["after_states", "args", "only_once"]
  afterStates : ∃ o, Optional ms "after_states" (IsNames ns.states) o ∧
    e.afterStates = o.filter fun names => !names.isEmpty
  args : ∃ o, Optional ms "args" (IsObjectOf IsArgument) o ∧ e.args = o.getD []
  onlyOnce : ∃ o, Optional ms "only_once" (fun t b => t.bool? = some b) o ∧
    e.onlyOnce = o.getD false

/-- A member that declares an event. -/
structure IsEvent (m : Key × Token) (e : Event) : Prop where
  name : e.name = m.1.name
  fields : ∃ ms, m.2.members? = some ms ∧ EventFields ns ms e

/-! ## Targets and edges -/

/-- A target: `null` for no change, a declared state, or `false` for a failure. -/
inductive IsTarget : Token → Target → Prop
  | noChange {s : Site} : IsTarget (.null s) .noChange
  | state {s : Site} {name : String} (h : name ∈ ns.states) :
      IsTarget (.string s name) (.state name)
  | failure {s : Site} : IsTarget (.bool s false) .failure

/-- The target of a choice, alone or in an object of its own. -/
inductive IsChoiceTarget : Token → Target → Prop
  | plain {t : Token} {target : Target} (h : IsTarget ns t target) : IsChoiceTarget t target
  | object {s : Site} {ms : Members} {t : Token} {target : Target} (honly : OnlyHas ms ["state"])
      (hstate : Has ms "state" t) (h : IsTarget ns t target) :
      IsChoiceTarget (.object s ms) target

/-- A member that is a choice of a decision. -/
structure IsChoice (m : Key × Token) (c : Choice) : Prop where
  name : c.name = m.1.name
  target : IsChoiceTarget ns m.2 c.target

/-- The targets in the members of an edge: one state, or a decision, which only an event may have
and which has something to choose from. -/
inductive IsTargets (kind : InvokerKind) (ms : Members) : Targets → Prop
  | single {t : Token} {target : Target} (hstate : Has ms "state" t) (hno : Lacks ms "targets")
      (h : IsTarget ns t target) : IsTargets kind ms (.single target)
  | decision {t : Token} {choices : List Choice} (hkind : kind = .event) (hno : Lacks ms "state")
      (htargets : Has ms "targets" t) (h : IsObjectOf (IsChoice ns) t choices)
      (hne : choices ≠ []) : IsTargets kind ms (.decision choices)

/-- The callbacks of an edge: `false` for none, `true` for the one named after the event alone, a
shape, or a list of distinct shapes. -/
inductive IsCallbacks : Token → List CallbackShape → Prop
  | none {s : Site} : IsCallbacks (.bool s false) []
  | eventOnly {s : Site} : IsCallbacks (.bool s true) [.eventOnly]
  | one {s : Site} {name : String} {shape : CallbackShape} (h : name = shape.text) :
      IsCallbacks (.string s name) [shape]
  | many {s : Site} {ts : List Token} {shapes : List CallbackShape}
      (h : List.Forall₂ (fun t shape => t.string? = some shape.text) ts shapes)
      (hnodup : shapes.Nodup) : IsCallbacks (.array s ts) shapes

/-- Whether a single state can be named as the target: a declared one or the source itself. -/
def NamesState (targets : Targets) : Prop :=
  targets = .single .noChange ∨ ∃ name, targets = .single (.state name)

/-- The value of an edge's member: its targets, its callbacks and its comment. Callbacks that are
named after the target need one. -/
inductive IsEdgeValue (kind : InvokerKind) :
    Token → Targets → List CallbackShape → Option String → Prop
  | plain {t : Token} {target : Target} (h : IsTarget ns t target) :
      IsEdgeValue kind t (.single target) [] none
  | object {s : Site} {ms : Members} {targets : Targets} {callbacks : Option (List CallbackShape)}
      {comment : Option String}
      (honly : OnlyHas ms ["state", "targets", "on_traverse", "comment"])
      (htargets : IsTargets ns kind ms targets)
      (hcallbacks : Optional ms "on_traverse" IsCallbacks callbacks)
      (hneeds : ∀ shape ∈ callbacks.getD [], shape.needsTarget → NamesState targets)
      (hcomment : OptionalOrNull ms "comment" (fun t c => t.string? = some c) comment) :
      IsEdgeValue kind (.object s ms) targets (callbacks.getD []) comment

/-- A member that is an edge; its key names an event or a timer. -/
structure IsEdge (kind : InvokerKind) (m : Key × Token) (e : Edge) : Prop where
  invoker : e.invoker = m.1.name
  kind_eq : e.kind = kind
  declared : m.1.name ∈ ns.ofKind kind
  value : IsEdgeValue ns kind m.2 e.targets e.callbacks e.comment

/-! ## Timers of states -/

/-- A number in a rule for a delay. -/
def IsRuleNumber (t : Token) (x : Float) : Prop :=
  t.number? = some x ∧ (strict = true → x.isFinite)

/-- The members of a rule for a delay. One of them at least is there and not `null`. -/
structure RuleFields (ms : Members) (r : DelayRule Float) : Prop where
  onlyHas : OnlyHas ms ["set", "multiplier", "increment", "min", "max"]
  set : OptionalOrNull ms "set" (fun t x => IsRuleNumber strict t x ∧ 0 < x) r.set
  multiplier : OptionalOrNull ms "multiplier" (fun t x => IsRuleNumber strict t x ∧ 0 < x)
    r.multiplier
  increment : OptionalOrNull ms "increment" (IsRuleNumber strict) r.increment
  min : OptionalOrNull ms "min" (IsRuleNumber strict) r.min
  max : OptionalOrNull ms "max" (IsRuleNumber strict) r.max
  ne_unchanged : r ≠ .unchanged
  min_le_max : ∀ least ∈ r.min, ∀ most ∈ r.max, least ≤ most

/-- A member that starts a timer, with a rule for its delay or with `null`. -/
inductive IsStart : Key × Token → TimerStart → Prop
  | plain {k : Key} {s : Site} (h : k.name ∈ ns.timers) : IsStart (k, .null s) ⟨k.name, none⟩
  | rule {k : Key} {s : Site} {ms : Members} {r : DelayRule Float} (h : k.name ∈ ns.timers)
      (hr : RuleFields strict ms r) : IsStart (k, .object s ms) ⟨k.name, some r⟩

/-- The timers that a state starts: a list of names, or an object of names and rules. -/
inductive IsStarts : Token → List TimerStart → Prop
  | names {t : Token} {names : List String} (h : IsNames ns.timers t names) :
      IsStarts t (names.map fun name => ⟨name, none⟩)
  | rules {t : Token} {starts : List TimerStart} (h : IsObjectOf (IsStart strict ns) t starts) :
      IsStarts t starts

/-! ## States -/

/-- What a state does on being entered: whether it notifies, with which comment, and the decision
among its next states. -/
inductive IsOnEnter : Token → Option OnEnter × Option (List Choice) → Prop
  | no {s : Site} : IsOnEnter (.bool s false) (none, none)
  | yes {s : Site} : IsOnEnter (.bool s true) (some ⟨none⟩, none)
  | comment {s : Site} {c : String} : IsOnEnter (.string s c) (some ⟨some c⟩, none)
  | object {s : Site} {ms : Members} {comment : Option String} {choices : Option (List Choice)}
      (honly : OnlyHas ms ["comment", "targets"])
      (hcomment : OptionalOrNull ms "comment" (fun t c => t.string? = some c) comment)
      (hchoices : Optional ms "targets" (IsObjectOf (IsChoice ns)) choices)
      (hne : strict = true → ∀ cs ∈ choices, cs ≠ []) :
      IsOnEnter (.object s ms) (some ⟨comment⟩, choices)

/-- The shape of a state, from the fields that may give it one. Exactly one of them does. -/
inductive IsShape : Option (List Edge) → Option (List Edge) → Option String →
    Option (List Choice) → Bool → Shape → Prop
  | branching {eventEdges timerEdges : Option (List Edge)}
      (h : eventEdges.isSome ∨ timerEdges.isSome) :
      IsShape eventEdges timerEdges none none false
        (.branching (eventEdges.getD []) (timerEdges.getD []))
  | next {name : String} : IsShape none none (some name) none false (.passThrough (.state name))
  | decision {choices : List Choice} :
      IsShape none none none (some choices) false (.passThrough (.decision choices))
  | final : IsShape none none none none true .final

/-- The members of a state. It starts and stops no timer both. -/
structure StateFields (ms : Members) (s : State) : Prop where
  onlyHas : OnlyHas ms
    ["start_timers", "stop_timers", "on_enter", "on_timer", "on_event", "next_state", "final"]
  starts : ∃ o, Optional ms "start_timers" (IsStarts strict ns) o ∧ s.startTimers = o.getD []
  stops : ∃ o, Optional ms "stop_timers" (IsNames ns.timers) o ∧ s.stopTimers = o.getD []
  not_both : ∀ start ∈ s.startTimers, start.timer ∉ s.stopTimers
  shape : ∃ enter timerEdges eventEdges next final,
    Optional ms "on_enter" (IsOnEnter strict ns) enter ∧
    Optional ms "on_timer" (IsObjectOf (IsEdge ns .timer)) timerEdges ∧
    Optional ms "on_event" (IsObjectOf (IsEdge ns .event)) eventEdges ∧
    OptionalOrNull ms "next_state" (fun t name => t.string? = some name ∧ name ∈ ns.states) next ∧
    Optional ms "final" (fun t b => t.bool? = some b) final ∧
    s.onEnter = (enter.getD (none, none)).1 ∧
    IsShape eventEdges timerEdges next (enter.getD (none, none)).2 (final.getD false) s.shape

/-- A member that declares a state. -/
structure IsState (m : Key × Token) (s : State) : Prop where
  name : s.name = m.1.name
  fields : ∃ ms, m.2.members? = some ms ∧ StateFields strict ns ms s

end Parts

/-! ## Machines -/

/-- The members of a specification. -/
structure Fields (strict : Bool) (ms : Members) (m : Machine) : Prop where
  onlyHas : OnlyHas ms ["events", "states", "timers", "start_state"]
  timers : ∃ o, Optional ms "timers" (IsObjectOf IsTimer) o ∧ m.timers = o.getD []
  events : ∃ t, Has ms "events" t ∧ IsObjectOf (IsEvent m.names) t m.events
  states : ∃ t, Has ms "states" t ∧ IsObjectOf (IsState strict m.names) t m.states
  start : ∃ t, Has ms "start_state" t ∧ t.string? = some m.startState
  start_declared : m.startState ∈ m.names.states

/-- A tree specifies a machine. -/
def Specifies (strict : Bool) (t : Token) (m : Machine) : Prop :=
  ∃ ms, t.members? = some ms ∧ Fields strict ms m

end Format

end TimedMachine
