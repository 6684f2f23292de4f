import TimedMachine.Proofs.Machine.Accepts
import TimedMachine.Proofs.Token.Order

/-!
# Specifications in another order

A machine lists what its specification declares, in the order of the members. So permuting the
members of objects anywhere in a specification permutes these lists, and it changes nothing else
(`Format.Specifies.reordered`): what a machine names is looked up among all declared names, and the
members of a record are found by their keys.

Lists that come from arrays, such as the callbacks of an edge, keep their order.
-/

namespace TimedMachine

/-! ## Machines up to the order of their lists -/

/-- Two events differ at most in the order of their arguments. -/
structure Event.Reordered (e e' : Event) : Prop where
  name : e'.name = e.name
  args : e.args.Perm e'.args
  afterStates : e'.afterStates = e.afterStates
  onlyOnce : e'.onlyOnce = e.onlyOnce

/-- Two targets are the same, or decisions among the same choices. -/
inductive Targets.Reordered : Targets → Targets → Prop
  | single {target : Target} : Reordered (.single target) (.single target)
  | decision {choices choices' : List Choice} (h : choices.Perm choices') :
    Reordered (.decision choices) (.decision choices')

/-- Two edges differ at most in the order of their choices. -/
structure Edge.Reordered (e e' : Edge) : Prop where
  invoker : e'.invoker = e.invoker
  kind : e'.kind = e.kind
  targets : e.targets.Reordered e'.targets
  callbacks : e'.callbacks = e.callbacks
  comment : e'.comment = e.comment

/-- Two places to go on to are the same, or decisions among the same choices. -/
inductive NextState.Reordered : NextState → NextState → Prop
  | state {name : String} : Reordered (.state name) (.state name)
  | decision {choices choices' : List Choice} (h : choices.Perm choices') :
    Reordered (.decision choices) (.decision choices')

/-- Two shapes differ at most in the order of edges and choices. -/
inductive Shape.Reordered : Shape → Shape → Prop
  | branching {es es' ts ts' : List Edge} (hevents : Rearranged Edge.Reordered es es')
    (htimers : Rearranged Edge.Reordered ts ts') : Reordered (.branching es ts) (.branching es' ts')
  | passThrough {next next' : NextState} (h : next.Reordered next') :
    Reordered (.passThrough next) (.passThrough next')
  | final : Reordered .final .final

/-- Two states differ at most in the order of the timers that they start, of edges and choices. -/
structure State.Reordered (s s' : State) : Prop where
  name : s'.name = s.name
  startTimers : s.startTimers.Perm s'.startTimers
  stopTimers : s'.stopTimers = s.stopTimers
  onEnter : s'.onEnter = s.onEnter
  shape : s.shape.Reordered s'.shape

/-- Two machines differ at most in the order in which they list things. -/
structure Machine.Reordered (m m' : Machine) : Prop where
  timers : m.timers.Perm m'.timers
  events : Rearranged Event.Reordered m.events m'.events
  states : Rearranged State.Reordered m.states m'.states
  startState : m'.startState = m.startState

theorem Event.Reordered.symm {e e' : Event} (h : e.Reordered e') : e'.Reordered e :=
  ⟨h.name.symm, h.args.symm, h.afterStates.symm, h.onlyOnce.symm⟩

theorem Targets.Reordered.symm {targets targets' : Targets} (h : targets.Reordered targets') :
    targets'.Reordered targets := by
  cases h with
  | single => exact .single
  | decision h => exact .decision h.symm

theorem Edge.Reordered.symm {e e' : Edge} (h : e.Reordered e') : e'.Reordered e :=
  ⟨h.invoker.symm, h.kind.symm, h.targets.symm, h.callbacks.symm, h.comment.symm⟩

theorem NextState.Reordered.symm {next next' : NextState} (h : next.Reordered next') :
    next'.Reordered next := by
  cases h with
  | state => exact .state
  | decision h => exact .decision h.symm

theorem Shape.Reordered.symm {shape shape' : Shape} (h : shape.Reordered shape') :
    shape'.Reordered shape := by
  have hedge : ∀ e e' : Edge, e.Reordered e' → e'.Reordered e := fun _ _ he => he.symm
  cases h with
  | branching hevents htimers => exact .branching (hevents.symm hedge) (htimers.symm hedge)
  | passThrough h => exact .passThrough h.symm
  | final => exact .final

theorem State.Reordered.symm {s s' : State} (h : s.Reordered s') : s'.Reordered s :=
  ⟨h.name.symm, h.startTimers.symm, h.stopTimers.symm, h.onEnter.symm, h.shape.symm⟩

theorem Machine.Reordered.symm {m m' : Machine} (h : m.Reordered m') : m'.Reordered m :=
  ⟨h.timers.symm, h.events.symm fun _ _ he => he.symm, h.states.symm fun _ _ hs => hs.symm,
    h.startState.symm⟩

/-- All names of some declarations are among those of others. -/
structure Names.Within (ns ns' : Names) : Prop where
  timers : ∀ name ∈ ns.timers, name ∈ ns'.timers
  events : ∀ name ∈ ns.events, name ∈ ns'.events
  states : ∀ name ∈ ns.states, name ∈ ns'.states

theorem Names.Within.ofKind {ns ns' : Names} (h : ns.Within ns') (kind : InvokerKind) :
    ∀ name ∈ ns.ofKind kind, name ∈ ns'.ofKind kind := by
  cases kind with
  | event => exact h.events
  | timer => exact h.timers

namespace Format

/-! ## Members -/

section Members

variable {α : Type} {ms ms' : Members} {key : String} {t t' : Token}

theorem Has.reordered (h : ms.Reordered ms') (ht : Has ms key t) :
    ∃ t', Has ms' key t' ∧ t.Reordered t' := by
  obtain ⟨k, hk, rfl⟩ := ht
  obtain ⟨⟨k', t'⟩, hm', hsame⟩ := h.exists_right hk
  have hkey : k' = k := hsame.key
  subst hkey
  exact ⟨t', ⟨_, hm', rfl⟩, hsame.value⟩

theorem Lacks.reordered (h : ms.Reordered ms') (hlacks : Lacks ms key) : Lacks ms' key := by
  intro m' hm'
  obtain ⟨m, hm, hsame⟩ := h.exists_left hm'
  rw [hsame.key]
  exact hlacks m hm

theorem OnlyHas.reordered {keys : List String} (h : ms.Reordered ms') (honly : OnlyHas ms keys) :
    OnlyHas ms' keys := by
  intro m' hm'
  obtain ⟨m, hm, hsame⟩ := h.exists_left hm'
  rw [hsame.key]
  exact honly m hm

theorem Optional.reordered {R R' : Token → α → Prop} {S : α → α → Prop} (h : ms.Reordered ms')
    (hR : ∀ t t' a, t.Reordered t' → R t a → ∃ a', R' t' a' ∧ S a a') {o : Option α}
    (ho : Optional ms key R o) : ∃ o', Optional ms' key R' o' ∧ Option.Rel S o o' := by
  cases ho with
  | absent hlacks => exact ⟨none, .absent (hlacks.reordered h), .none⟩
  | present ht ha =>
    obtain ⟨t', ht', htt'⟩ := ht.reordered h
    obtain ⟨a', ha', hS⟩ := hR _ _ _ htt' ha
    exact ⟨some a', .present ht' ha', .some hS⟩

theorem Optional.kept {R R' : Token → α → Prop} (h : ms.Reordered ms')
    (hR : ∀ t t' a, t.Reordered t' → R t a → R' t' a) {o : Option α}
    (ho : Optional ms key R o) : Optional ms' key R' o := by
  cases ho with
  | absent hlacks => exact .absent (hlacks.reordered h)
  | present ht ha =>
    obtain ⟨t', ht', htt'⟩ := ht.reordered h
    exact .present ht' (hR _ _ _ htt' ha)

theorem OptionalOrNull.kept {R R' : Token → α → Prop} (h : ms.Reordered ms')
    (hR : ∀ t t' a, t.Reordered t' → R t a → R' t' a) {o : Option α}
    (ho : OptionalOrNull ms key R o) : OptionalOrNull ms' key R' o := by
  cases ho with
  | absent hlacks => exact .absent (hlacks.reordered h)
  | null ht =>
    obtain ⟨t', ht', htt'⟩ := ht.reordered h
    rw [htt'.null] at ht'
    exact .null ht'
  | present ht hnull ha =>
    obtain ⟨t', ht', htt'⟩ := ht.reordered h
    exact .present ht' (htt'.isNull_eq.trans hnull) (hR _ _ _ htt' ha)

theorem IsObjectOf.reordered {R R' : Key × Token → α → Prop} {S : α → α → Prop} {parts : List α}
    (ht : t.Reordered t')
    (hR : ∀ m m' a, Token.SameMember m m' → R m a → ∃ a', R' m' a' ∧ S a a')
    (h : IsObjectOf R t parts) : ∃ parts', IsObjectOf R' t' parts' ∧ Rearranged S parts parts' := by
  obtain ⟨ms, hms, hparts⟩ := h
  obtain ⟨ms', hms', hreordered⟩ := ht.members? hms
  obtain ⟨parts', hparts', hS⟩ := hreordered.exists_parts hparts hR
  exact ⟨parts', ⟨ms', hms', hparts'⟩, hS⟩

/-- What members say whatever the order of members in their values is only permuted. -/
theorem IsObjectOf.permuted {R R' : Key × Token → α → Prop} {parts : List α}
    (ht : t.Reordered t') (hR : ∀ m m' a, Token.SameMember m m' → R m a → R' m' a)
    (h : IsObjectOf R t parts) : ∃ parts', IsObjectOf R' t' parts' ∧ parts.Perm parts' := by
  obtain ⟨parts', hparts', hrearranged⟩ :=
    h.reordered ht fun m m' a hsame ha => ⟨a, hR m m' a hsame ha, rfl⟩
  exact ⟨parts', hparts', hrearranged.perm⟩

/-- The items of an array say what they said. -/
theorem forall₂_items {P : Token → α → Prop} {ts ts' : List Token} {as : List α}
    (h : List.Forall₂ Token.Reordered ts ts')
    (hP : ∀ t t' a, t.Reordered t' → P t a → P t' a) (hall : List.Forall₂ P ts as) :
    List.Forall₂ P ts' as := by
  induction h generalizing as with
  | nil => exact hall
  | cons ht _ ih =>
    obtain ⟨a, as, ha, has, rfl⟩ := List.forall₂_cons_left_iff.mp hall
    exact .cons (hP _ _ _ ht ha) (ih has)

/-- Lists that need not be there are related if they are so where they are there. -/
theorem rel_getD {S : List α → List α → Prop} {o o' : Option (List α)} (hnil : S [] [])
    (h : Option.Rel S o o') : S (o.getD []) (o'.getD []) := by
  cases h with
  | none => exact hnil
  | some h => exact h

end Members

/-! ## Names, timers and events -/

variable {ns ns' : Names} {t t' : Token} {m m' : Key × Token} {strict : Bool}

theorem string?_kept (t t' : Token) (s : String) (ht : t.Reordered t') (h : t.string? = some s) :
    t'.string? = some s :=
  ht.string?_eq.trans h

theorem bool?_kept (t t' : Token) (b : Bool) (ht : t.Reordered t') (h : t.bool? = some b) :
    t'.bool? = some b :=
  ht.bool?_eq.trans h

theorem IsNames.reordered {declared declared' names : List String}
    (hdeclared : ∀ name ∈ declared, name ∈ declared') (ht : t.Reordered t')
    (h : IsNames declared t names) : IsNames declared' t' names := by
  obtain ⟨ts, hts, hall⟩ := h.items
  obtain ⟨ts', hts', hreordered⟩ := ht.items? hts
  exact ⟨⟨ts', hts', forall₂_items hreordered string?_kept hall⟩, h.nodup,
    fun name hname => hdeclared name (h.declared name hname)⟩

theorem IsTimer.reordered {timer : Timer} (hm : Token.SameMember m m') (h : IsTimer m timer) :
    IsTimer m' timer := by
  refine ⟨?_, hm.value.number?_eq.trans h.number, h.positive⟩
  rw [hm.key]
  exact h.name

theorem IsArgument.reordered {a : Argument} (hm : Token.SameMember m m') (h : IsArgument m a) :
    IsArgument m' a := by
  refine ⟨?_, hm.value.string?_eq.trans h.type⟩
  rw [hm.key]
  exact h.name

theorem EventFields.reordered {ms ms' : Members} {e : Event} (hns : ns.Within ns')
    (hms : ms.Reordered ms') (h : EventFields ns ms e) :
    ∃ e', EventFields ns' ms' e' ∧ e.Reordered e' := by
  obtain ⟨after, hafter, hafterStates⟩ := h.afterStates
  obtain ⟨args, hargs, heq⟩ := h.args
  obtain ⟨once, honce, honlyOnce⟩ := h.onlyOnce
  have hafter' := hafter.kept hms fun _ _ _ ht hnames => hnames.reordered hns.states ht
  obtain ⟨args', hargs', hrel⟩ := hargs.reordered hms fun _ _ _ ht hobject =>
    hobject.permuted ht fun _ _ _ hm harg => harg.reordered hm
  refine ⟨⟨e.name, args'.getD [], e.afterStates, e.onlyOnce⟩,
    ⟨h.onlyHas.reordered hms, ⟨after, hafter', hafterStates⟩, ⟨args', hargs', rfl⟩,
      ⟨once, honce.kept hms bool?_kept, honlyOnce⟩⟩, rfl, ?_, rfl, rfl⟩
  rw [heq]
  exact rel_getD .rfl hrel

theorem IsEvent.reordered {e : Event} (hns : ns.Within ns') (hm : Token.SameMember m m')
    (h : IsEvent ns m e) : ∃ e', IsEvent ns' m' e' ∧ e.Reordered e' := by
  obtain ⟨ms, hms, hfields⟩ := h.fields
  obtain ⟨ms', hms', hreordered⟩ := hm.value.members? hms
  obtain ⟨e', hfields', he⟩ := hfields.reordered hns hreordered
  refine ⟨e', ⟨?_, ms', hms', hfields'⟩, he⟩
  rw [he.name, hm.key]
  exact h.name

/-! ## Targets and edges -/

theorem IsTarget.reordered {target : Target} (hns : ns.Within ns') (ht : t.Reordered t')
    (h : IsTarget ns t target) : IsTarget ns' t' target := by
  cases h with
  | noChange =>
    obtain rfl := ht.null
    exact .noChange
  | state hname =>
    obtain rfl := ht.string
    exact .state (hns.states _ hname)
  | failure =>
    obtain rfl := ht.bool
    exact .failure

theorem IsChoiceTarget.reordered {target : Target} (hns : ns.Within ns') (ht : t.Reordered t')
    (h : IsChoiceTarget ns t target) : IsChoiceTarget ns' t' target := by
  cases h with
  | plain h => exact .plain (h.reordered hns ht)
  | object honly hstate h =>
    obtain ⟨ms', rfl, hms⟩ := ht.object
    obtain ⟨state', hstate', hs⟩ := hstate.reordered hms
    exact .object (honly.reordered hms) hstate' (h.reordered hns hs)

theorem IsChoice.reordered {c : Choice} (hns : ns.Within ns') (hm : Token.SameMember m m')
    (h : IsChoice ns m c) : IsChoice ns' m' c := by
  refine ⟨?_, h.target.reordered hns hm.value⟩
  rw [hm.key]
  exact h.name

/-- The choices of a decision are permuted. -/
theorem choices_permuted {choices : List Choice} (hns : ns.Within ns') (ht : t.Reordered t')
    (h : IsObjectOf (IsChoice ns) t choices) :
    ∃ choices', IsObjectOf (IsChoice ns') t' choices' ∧ choices.Perm choices' :=
  h.permuted ht fun _ _ _ hm hc => hc.reordered hns hm

theorem IsTargets.reordered {kind : InvokerKind} {ms ms' : Members} {targets : Targets}
    (hns : ns.Within ns') (hms : ms.Reordered ms') (h : IsTargets ns kind ms targets) :
    ∃ targets', IsTargets ns' kind ms' targets' ∧ targets.Reordered targets' := by
  cases h with
  | single hstate hno h =>
    obtain ⟨state', hstate', hs⟩ := hstate.reordered hms
    exact ⟨_, .single hstate' (hno.reordered hms) (h.reordered hns hs), .single⟩
  | decision hkind hno htargets h hne =>
    obtain ⟨t', htargets', ht⟩ := htargets.reordered hms
    obtain ⟨choices', hchoices', hperm⟩ := choices_permuted hns ht h
    refine ⟨_, .decision hkind (hno.reordered hms) htargets' hchoices' ?_, .decision hperm⟩
    intro hnil
    rw [hnil, List.perm_nil] at hperm
    exact hne hperm

theorem IsCallbacks.reordered {shapes : List CallbackShape} (ht : t.Reordered t')
    (h : IsCallbacks t shapes) : IsCallbacks t' shapes := by
  cases h with
  | none =>
    obtain rfl := ht.bool
    exact .none
  | eventOnly =>
    obtain rfl := ht.bool
    exact .eventOnly
  | one h =>
    obtain rfl := ht.string
    exact .one h
  | many h hnodup =>
    obtain ⟨ts', rfl, hts⟩ := ht.array
    exact .many (forall₂_items hts (fun t t' _ ht h => string?_kept t t' _ ht h) h) hnodup

theorem NamesState.reordered {targets targets' : Targets} (h : targets.Reordered targets')
    (hnames : NamesState targets) : NamesState targets' := by
  cases h with
  | single => exact hnames
  | decision _ =>
    rcases hnames with h | ⟨name, h⟩ <;> cases h

theorem IsEdgeValue.reordered {kind : InvokerKind} {targets : Targets}
    {callbacks : List CallbackShape} {comment : Option String} (hns : ns.Within ns')
    (ht : t.Reordered t') (h : IsEdgeValue ns kind t targets callbacks comment) :
    ∃ targets', IsEdgeValue ns' kind t' targets' callbacks comment ∧
      targets.Reordered targets' := by
  cases h with
  | plain h => exact ⟨_, .plain (h.reordered hns ht), .single⟩
  | object honly htargets hcallbacks hneeds hcomment =>
    obtain ⟨ms', rfl, hms⟩ := ht.object
    obtain ⟨targets', htargets', htt'⟩ := htargets.reordered hns hms
    refine ⟨targets', .object (honly.reordered hms) htargets'
      (hcallbacks.kept hms fun _ _ _ ht h => h.reordered ht) ?_
      (hcomment.kept hms string?_kept), htt'⟩
    intro shape hshape hneed
    exact (hneeds shape hshape hneed).reordered htt'

theorem IsEdge.reordered {kind : InvokerKind} {e : Edge} (hns : ns.Within ns')
    (hm : Token.SameMember m m') (h : IsEdge ns kind m e) :
    ∃ e', IsEdge ns' kind m' e' ∧ e.Reordered e' := by
  obtain ⟨targets', hvalue, htargets⟩ := h.value.reordered hns hm.value
  refine ⟨⟨e.invoker, e.kind, targets', e.callbacks, e.comment⟩, ⟨?_, h.kind_eq, ?_, hvalue⟩,
    rfl, rfl, htargets, rfl, rfl⟩
  · rw [hm.key]
    exact h.invoker
  · rw [hm.key]
    exact hns.ofKind kind _ h.declared

/-! ## Timers of states -/

theorem IsRuleNumber.reordered {x : Float} (ht : t.Reordered t') (h : IsRuleNumber strict t x) :
    IsRuleNumber strict t' x :=
  ⟨ht.number?_eq.trans h.1, h.2⟩

theorem RuleFields.reordered {ms ms' : Members} {r : DelayRule Float} (hms : ms.Reordered ms')
    (h : RuleFields strict ms r) : RuleFields strict ms' r where
  onlyHas := h.onlyHas.reordered hms
  set := h.set.kept hms fun _ _ _ ht hx => ⟨hx.1.reordered ht, hx.2⟩
  multiplier := h.multiplier.kept hms fun _ _ _ ht hx => ⟨hx.1.reordered ht, hx.2⟩
  increment := h.increment.kept hms fun _ _ _ ht hx => hx.reordered ht
  min := h.min.kept hms fun _ _ _ ht hx => hx.reordered ht
  max := h.max.kept hms fun _ _ _ ht hx => hx.reordered ht
  ne_unchanged := h.ne_unchanged
  min_le_max := h.min_le_max

theorem IsStart.reordered {start : TimerStart} (hns : ns.Within ns')
    (hm : Token.SameMember m m') (h : IsStart strict ns m start) :
    IsStart strict ns' m' start := by
  obtain ⟨k', t'⟩ := m'
  obtain ⟨hkey, ht⟩ := hm
  cases h with
  | plain hk =>
    obtain rfl : k' = _ := hkey
    obtain rfl : t' = _ := ht.null
    exact .plain (hns.timers _ hk)
  | rule hk hr =>
    obtain rfl : k' = _ := hkey
    obtain ⟨ms', heq, hms⟩ := ht.object
    obtain rfl : t' = _ := heq
    exact .rule (hns.timers _ hk) (hr.reordered hms)

theorem IsStarts.reordered {starts : List TimerStart} (hns : ns.Within ns')
    (ht : t.Reordered t') (h : IsStarts strict ns t starts) :
    ∃ starts', IsStarts strict ns' t' starts' ∧ starts.Perm starts' := by
  cases h with
  | names h => exact ⟨_, .names (h.reordered hns.timers ht), .rfl⟩
  | rules h =>
    obtain ⟨starts', hstarts', hperm⟩ := h.permuted ht fun _ _ _ hm hs => hs.reordered hns hm
    exact ⟨starts', .rules hstarts', hperm⟩

/-! ## States -/

theorem IsOnEnter.reordered {enter : Option OnEnter × Option (List Choice)}
    (hns : ns.Within ns') (ht : t.Reordered t') (h : IsOnEnter strict ns t enter) :
    ∃ enter', IsOnEnter strict ns' t' enter' ∧
      (enter'.1 = enter.1 ∧ Option.Rel List.Perm enter.2 enter'.2) := by
  cases h with
  | no =>
    obtain rfl := ht.bool
    exact ⟨_, .no, rfl, .none⟩
  | yes =>
    obtain rfl := ht.bool
    exact ⟨_, .yes, rfl, .none⟩
  | comment =>
    obtain rfl := ht.string
    exact ⟨_, .comment, rfl, .none⟩
  | object honly hcomment hchoices hne =>
    obtain ⟨ms', rfl, hms⟩ := ht.object
    obtain ⟨choices', hchoices', hrel⟩ := hchoices.reordered hms fun _ _ _ ht h =>
      choices_permuted hns ht h
    refine ⟨_, .object (honly.reordered hms) (hcomment.kept hms string?_kept) hchoices' ?_,
      rfl, hrel⟩
    intro hstrict cs' hcs' hnil
    subst hnil
    cases hcs'
    cases hrel with
    | some hperm => exact hne hstrict _ rfl (List.perm_nil.mp hperm)

theorem isSome_eq_of_rel {α : Type} {S : α → α → Prop} {o o' : Option α} (h : Option.Rel S o o') :
    o'.isSome = o.isSome := by
  cases h <;> rfl

/-- Fields that are rearranged give a state a rearranged shape. -/
theorem IsShape.reordered {eventEdges eventEdges' timerEdges timerEdges' : Option (List Edge)}
    {next : Option String} {choices choices' : Option (List Choice)} {final : Bool} {shape : Shape}
    (hevents : Option.Rel (Rearranged Edge.Reordered) eventEdges eventEdges')
    (htimers : Option.Rel (Rearranged Edge.Reordered) timerEdges timerEdges')
    (hchoices : Option.Rel List.Perm choices choices')
    (h : IsShape eventEdges timerEdges next choices final shape) :
    ∃ shape', IsShape eventEdges' timerEdges' next choices' final shape' ∧
      shape.Reordered shape' := by
  -- a field that is missing is missing from the other specification too
  cases h with
  | branching h =>
    cases hchoices
    rw [← isSome_eq_of_rel hevents, ← isSome_eq_of_rel htimers] at h
    exact ⟨_, .branching h,
      .branching (rel_getD ⟨[], .nil, .rfl⟩ hevents) (rel_getD ⟨[], .nil, .rfl⟩ htimers)⟩
  | next =>
    cases hevents
    cases htimers
    cases hchoices
    exact ⟨_, .next, .passThrough .state⟩
  | decision =>
    cases hevents
    cases htimers
    cases hchoices with
    | some hperm => exact ⟨_, .decision, .passThrough (.decision hperm)⟩
  | final =>
    cases hevents
    cases htimers
    cases hchoices
    exact ⟨_, .final, .final⟩

theorem edges_reordered {kind : InvokerKind} {es : List Edge} (hns : ns.Within ns')
    (ht : t.Reordered t') (h : IsObjectOf (IsEdge ns kind) t es) :
    ∃ es', IsObjectOf (IsEdge ns' kind) t' es' ∧ Rearranged Edge.Reordered es es' :=
  h.reordered ht fun _ _ _ hm he => he.reordered hns hm

theorem StateFields.reordered {ms ms' : Members} {s : State} (hns : ns.Within ns')
    (hms : ms.Reordered ms') (h : StateFields strict ns ms s) :
    ∃ s', StateFields strict ns' ms' s' ∧ s.Reordered s' := by
  obtain ⟨starts, hstarts, hstartsEq⟩ := h.starts
  obtain ⟨stops, hstops, hstopsEq⟩ := h.stops
  obtain ⟨enter, timerEdges, eventEdges, next, final, henter, htimers, hevents, hnext, hfinal,
    honEnter, hshape⟩ := h.shape
  obtain ⟨starts', hstarts', hstartsRel⟩ := hstarts.reordered hms fun _ _ _ ht h =>
    h.reordered hns ht
  have hstops' := hstops.kept hms fun _ _ _ ht hnames => hnames.reordered hns.timers ht
  obtain ⟨timerEdges', htimers', htimersRel⟩ := htimers.reordered hms fun _ _ _ ht h =>
    edges_reordered hns ht h
  obtain ⟨eventEdges', hevents', heventsRel⟩ := hevents.reordered hms fun _ _ _ ht h =>
    edges_reordered hns ht h
  have hnext' : OptionalOrNull ms' "next_state"
      (fun t name => t.string? = some name ∧ name ∈ ns'.states) next :=
    hnext.kept hms fun t t' name ht h => ⟨string?_kept t t' name ht h.1, hns.states name h.2⟩
  obtain ⟨enter', henter', henterRel⟩ := henter.reordered hms fun _ _ _ ht h => h.reordered hns ht
  have henterEq : (enter'.getD (none, none)).1 = (enter.getD (none, none)).1 ∧
      Option.Rel List.Perm (enter.getD (none, none)).2 (enter'.getD (none, none)).2 := by
    cases henterRel with
    | none => exact ⟨rfl, .none⟩
    | some h => exact h
  obtain ⟨shape', hshape', hshapeRel⟩ := hshape.reordered heventsRel htimersRel henterEq.2
  have hperm : s.startTimers.Perm (starts'.getD []) := by
    rw [hstartsEq]
    exact rel_getD .rfl hstartsRel
  refine ⟨⟨s.name, starts'.getD [], s.stopTimers, s.onEnter, shape'⟩,
    ⟨h.onlyHas.reordered hms, ⟨starts', hstarts', rfl⟩, ⟨stops, hstops', hstopsEq⟩, ?_,
      ⟨enter', timerEdges', eventEdges', next, final, henter', htimers', hevents', hnext',
        hfinal.kept hms bool?_kept, honEnter.trans henterEq.1.symm, hshape'⟩⟩,
    ⟨rfl, hperm, rfl, rfl, hshapeRel⟩⟩
  intro start hstart
  exact h.not_both start (hperm.mem_iff.mpr hstart)

theorem IsState.reordered {s : State} (hns : ns.Within ns') (hm : Token.SameMember m m')
    (h : IsState strict ns m s) : ∃ s', IsState strict ns' m' s' ∧ s.Reordered s' := by
  obtain ⟨ms, hms, hfields⟩ := h.fields
  obtain ⟨ms', hms', hreordered⟩ := hm.value.members? hms
  obtain ⟨s', hfields', hs⟩ := hfields.reordered hns hreordered
  refine ⟨s', ⟨?_, ms', hms', hfields'⟩, hs⟩
  rw [hs.name, hm.key]
  exact h.name

/-! ## Machines -/

theorem names_of_isObjectOf {α : Type} {R : Key × Token → α → Prop} {nameOf : α → String}
    {ms : Members} {parts : List α} (hR : ∀ m a, R m a → nameOf a = m.1.name)
    (hms : t.members? = some ms) (h : IsObjectOf R t parts) :
    parts.map nameOf = ms.map (·.1.name) := by
  obtain ⟨ms', hms', hall⟩ := h
  obtain rfl : ms = ms' := Option.some.inj (hms.symm.trans hms')
  exact map_eq_map_of_forall₂ hR hall

/-- Parts that are named by the keys of members keep their names, in another order. -/
theorem names_perm_keys {α : Type} {R : Key × Token → α → Prop} {nameOf : α → String}
    {parts : List α} (hR : ∀ m a, R m a → nameOf a = m.1.name) (ht : t.Reordered t')
    (h : IsObjectOf R t parts) :
    ∃ ms', t'.members? = some ms' ∧ (parts.map nameOf).Perm (ms'.map (·.1.name)) := by
  obtain ⟨ms, hms, -⟩ := id h
  obtain ⟨ms', hms', hreordered⟩ := ht.members? hms
  refine ⟨ms', hms', ?_⟩
  rw [names_of_isObjectOf hR hms h]
  apply hreordered.perm_map
  intro m m' hm
  rw [hm.key]

theorem Fields.reordered {ms ms' : Members} {m : Machine} (hms : ms.Reordered ms')
    (h : Fields strict ms m) : ∃ m', Fields strict ms' m' ∧ m.Reordered m' := by
  obtain ⟨timers, htimers, htimersEq⟩ := h.timers
  obtain ⟨te, hte, hevents⟩ := h.events
  obtain ⟨ts, hts, hstates⟩ := h.states
  obtain ⟨start, hstart, hstartEq⟩ := h.start
  obtain ⟨te', hte', hte⟩ := hte.reordered hms
  obtain ⟨ts', hts', hts⟩ := hts.reordered hms
  obtain ⟨start', hstart', hstart⟩ := hstart.reordered hms
  obtain ⟨timers', htimers', htimersRel⟩ := htimers.reordered hms fun _ _ _ ht hobject =>
    hobject.permuted ht fun _ _ _ hm htimer => htimer.reordered hm
  have htimersPerm : m.timers.Perm (timers'.getD []) := by
    rw [htimersEq]
    exact rel_getD .rfl htimersRel
  -- the parts are read with the names of the new machine, which are the keys of the members
  obtain ⟨eventMembers, hem, heventNames⟩ := names_perm_keys (fun _ _ he => he.name) hte hevents
  obtain ⟨stateMembers, hsm, hstateNames⟩ := names_perm_keys (fun _ _ hs => hs.name) hts hstates
  let ns' : Names := ⟨(timers'.getD []).map Timer.name, eventMembers.map (·.1.name),
    stateMembers.map (·.1.name)⟩
  have hns : m.names.Within ns' :=
    ⟨fun _ => (htimersPerm.map Timer.name).mem_iff.mp, fun _ => heventNames.mem_iff.mp,
      fun _ => hstateNames.mem_iff.mp⟩
  obtain ⟨events', hevents', heventsRel⟩ := hevents.reordered hte fun _ _ _ hm he =>
    he.reordered hns hm
  obtain ⟨states', hstates', hstatesRel⟩ := hstates.reordered hts fun _ _ _ hm hs =>
    hs.reordered hns hm
  let m' : Machine := ⟨timers'.getD [], events', states', m.startState⟩
  have hnames : m'.names = ns' := by
    have hevents : events'.map Event.name = eventMembers.map (·.1.name) :=
      names_of_isObjectOf (fun _ _ he => he.name) hem hevents'
    have hstates : states'.map State.name = stateMembers.map (·.1.name) :=
      names_of_isObjectOf (fun _ _ hs => hs.name) hsm hstates'
    show (⟨_, events'.map Event.name, states'.map State.name⟩ : Names) = ns'
    rw [hevents, hstates]
  refine ⟨m', ⟨h.onlyHas.reordered hms, ⟨timers', htimers', rfl⟩, ⟨te', hte', ?_⟩,
    ⟨ts', hts', ?_⟩, ⟨start', hstart', hstart.string?_eq.trans hstartEq⟩, ?_⟩,
    ⟨htimersPerm, heventsRel, hstatesRel, rfl⟩⟩
  · rw [hnames]
    exact hevents'
  · rw [hnames]
    exact hstates'
  · rw [hnames]
    exact hns.states _ h.start_declared

/-- A reordered specification specifies a machine that lists the same in another order. -/
theorem Specifies.reordered {m : Machine} (ht : t.Reordered t') (h : Specifies strict t m) :
    ∃ m', Specifies strict t' m' ∧ m.Reordered m' := by
  obtain ⟨ms, hms, hfields⟩ := h
  obtain ⟨ms', hms', hreordered⟩ := ht.members? hms
  obtain ⟨m', hfields', hm⟩ := hfields.reordered hreordered
  exact ⟨m', ⟨ms', hms', hfields'⟩, hm⟩

end Format

end TimedMachine
