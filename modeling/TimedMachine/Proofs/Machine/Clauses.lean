import TimedMachine.Proofs.Machine.Keys
import Mathlib.Tactic.MkIffOfInductiveProp

/-!
# The format, clause by clause

Each part of the format as a formula about the value of a token and about what its object says by
each key (`Format.Tells`). A part that may be left out is said by the default in its place, and one
that is written alone or as an object is said by its value or by the members of the object.
-/

namespace TimedMachine

namespace Format

attribute [mk_iff] IsTimer IsArgument IsNames EventFields IsEvent IsTarget IsChoiceTarget IsChoice
  IsCallbacks IsEdge RuleFields IsStarts IsOnEnter IsState Fields

/-! ## Members -/

/-- What an object says by the member with a key: its value satisfies `P`, or the object lacks it,
which is right if `absent` holds. -/
def Tells (ms : Members) (key : String) (P : Token → Prop) (absent : Prop) : Prop :=
  (Lacks ms key ∧ absent) ∨ ∃ m ∈ ms, m.1.name = key ∧ P m.2

section Tells

variable {α β : Type} {ms : Members} {key : String} {Q : Token → α → Prop}

theorem exists_has_iff_tells {P : Token → Prop} :
    (∃ t, Has ms key t ∧ P t) ↔ Tells ms key P False := by
  simp only [Tells, Has, and_false, false_or]
  constructor
  · intro h
    obtain ⟨t, ⟨k, hm, hk⟩, ht⟩ := h
    exact ⟨(k, t), hm, hk, ht⟩
  · intro h
    obtain ⟨⟨k, t⟩, hm, hk, ht⟩ := h
    exact ⟨t, ⟨k, hm, hk⟩, ht⟩

theorem lacks_iff_tells : Lacks ms key ↔ Tells ms key (fun _ => False) True := by
  simp [Tells]

theorem tells_iff_lacks_or_has {P : Token → Prop} {absent : Prop} :
    Tells ms key P absent ↔ (Lacks ms key ∧ absent) ∨ ∃ t, Has ms key t ∧ P t := by
  rw [exists_has_iff_tells]
  simp [Tells]

theorem tells_perm {P : Token → Prop} {absent : Prop} {ms' : Members} (h : ms.Perm ms') :
    Tells ms key P absent ↔ Tells ms' key P absent := by
  simp only [Tells, Lacks, h.mem_iff]

theorem tells_cons {P : Token → Prop} {absent : Prop} {k : Key} {t : Token} :
    Tells ((k, t) :: ms) key P absent ↔ (k.name ≠ key ∧ Lacks ms key ∧ absent) ∨
      (k.name = key ∧ P t) ∨ ∃ m ∈ ms, m.1.name = key ∧ P m.2 := by
  simp [Tells, Lacks, and_assoc]

theorem tells_iff_of_lacks {P : Token → Prop} {absent : Prop} (h : Lacks ms key) :
    Tells ms key P absent ↔ absent := by
  have hnone : ¬∃ m ∈ ms, m.1.name = key ∧ P m.2 := fun ⟨m, hm, hkey, _⟩ => h m hm hkey
  simp only [Tells, h, hnone, true_and, or_false]

/-- A member that may be left out for a default. -/
theorem optional_iff_tells {g : Option α → β} {b : β} :
    (∃ o, Optional ms key Q o ∧ b = g o) ↔
      Tells ms key (fun t => ∃ a, Q t a ∧ b = g (some a)) (b = g none) := by
  rw [tells_iff_lacks_or_has]
  constructor
  · intro h
    obtain ⟨o, ho, hb⟩ := h
    cases ho with
    | absent hlacks => exact .inl ⟨hlacks, hb⟩
    | present ht ha => exact .inr ⟨_, ht, _, ha, hb⟩
  · intro h
    obtain ⟨hlacks, hb⟩ | ⟨t, ht, a, ha, hb⟩ := h
    · exact ⟨none, .absent hlacks, hb⟩
    · exact ⟨some a, .present ht ha, hb⟩

theorem optionalOrNull_iff_tells {o : Option α} :
    OptionalOrNull ms key Q o ↔
      Tells ms key (fun t => t.isNull ∧ o = none ∨ t.isNull = false ∧ ∃ a, Q t a ∧ o = some a)
        (o = none) := by
  rw [tells_iff_lacks_or_has]
  constructor
  · intro h
    cases h with
    | absent hlacks => exact .inl ⟨hlacks, rfl⟩
    | null ht => exact .inr ⟨_, ht, .inl ⟨rfl, rfl⟩⟩
    | present ht hnull ha => exact .inr ⟨_, ht, .inr ⟨hnull, _, ha, rfl⟩⟩
  · intro h
    obtain ⟨hlacks, rfl⟩ | ⟨t, ht, ⟨hnull, rfl⟩ | ⟨hnull, a, ha, rfl⟩⟩ := h
    · exact .absent hlacks
    · obtain ⟨s, rfl⟩ := Token.eq_null hnull
      exact .null ht
    · exact .present ht hnull ha

theorem isObjectOf_iff_of_empty {P : Key × Token → α → Prop} {parts : List α} {t : Token}
    (h : t.members? = some []) : IsObjectOf P t parts ↔ parts = [] := by
  simp [IsObjectOf, h]

end Tells

variable {strict : Bool} {ns : Names} {t : Token} {m : Key × Token} {ms : Members}

/-! ## Names, targets and edges -/

theorem isNames_iff_of_empty {declared names : List String} (h : t.items? = some []) :
    IsNames declared t names ↔ names = [] := by
  rw [isNames_iff]
  constructor
  · intro hnames
    obtain ⟨⟨ts, hts, hall⟩, _⟩ := hnames
    rw [h, Option.some_inj] at hts
    subst hts
    exact List.forall₂_nil_left_iff.mp hall
  · intro hnames
    subst hnames
    exact ⟨⟨[], h, .nil⟩, List.nodup_nil, by simp⟩

theorem not_isTarget_object {s : Site} {target : Target} : ¬IsTarget ns (.object s ms) target := by
  intro h
  cases h

/-- The target of a choice stands alone, or an object says it. -/
theorem isChoiceTarget_iff_members {target : Target} :
    IsChoiceTarget ns t target ↔ IsTarget ns t target ∨ ∃ ms, t.members? = some ms ∧
      OnlyHas ms ["state"] ∧ ∃ u, Has ms "state" u ∧ IsTarget ns u target := by
  cases t <;> simp [isChoiceTarget_iff, Token.members?]

/-- The targets of an edge, by its members. -/
theorem isTargets_iff_members {kind : InvokerKind} {targets : Targets} :
    IsTargets ns kind ms targets ↔
      (∃ target, targets = .single target ∧ Lacks ms "targets" ∧
        ∃ t, Has ms "state" t ∧ IsTarget ns t target) ∨
      ∃ choices, targets = .decision choices ∧ kind = .event ∧ choices ≠ [] ∧ Lacks ms "state" ∧
        ∃ t, Has ms "targets" t ∧ IsObjectOf (IsChoice ns) t choices := by
  constructor
  · intro h
    cases h with
    | single hstate hno h => exact .inl ⟨_, rfl, hno, _, hstate, h⟩
    | decision hkind hno htargets h hne => exact .inr ⟨_, rfl, hkind, hne, hno, _, htargets, h⟩
  · intro h
    obtain ⟨target, rfl, hno, t, hstate, h⟩ | ⟨choices, rfl, hkind, hne, hno, t, htargets, h⟩ := h
    · exact .single hstate hno h
    · exact .decision hkind hno htargets h hne

/-- The callbacks of an edge, by the value of the token. -/
theorem isCallbacks_iff_values {shapes : List CallbackShape} :
    IsCallbacks t shapes ↔ t.bool? = some false ∧ shapes = [] ∨
      t.bool? = some true ∧ shapes = [.eventOnly] ∨
      (∃ shape, t.string? = some shape.text ∧ shapes = [shape]) ∨
      (∃ ts, t.items? = some ts ∧
        List.Forall₂ (fun u shape => u.string? = some shape.text) ts shapes) ∧ shapes.Nodup := by
  cases t <;> simp [isCallbacks_iff, Token.bool?, Token.string?, Token.items?]

theorem isCallbacks_iff_of_default {shapes : List CallbackShape}
    (h : t.bool? = some false ∨ t.items? = some []) : IsCallbacks t shapes ↔ shapes = [] := by
  rw [isCallbacks_iff_values]
  obtain h | h := h
  · obtain ⟨s, rfl⟩ := Token.eq_bool h
    simp [Token.bool?, Token.string?, Token.items?]
  · obtain ⟨s, rfl⟩ := Token.eq_array h
    simpa [Token.bool?, Token.string?, Token.items?] using fun hnil => hnil ▸ List.nodup_nil

/-- The members of an edge that is written as an object. -/
@[mk_iff]
structure EdgeFields (ns : Names) (kind : InvokerKind) (ms : Members) (lead : Targets)
    (shapes : List CallbackShape) (remark : Option String) : Prop where
  onlyHas : OnlyHas ms ["state", "targets", "on_traverse", "comment"]
  targets : IsTargets ns kind ms lead
  callbacks : ∃ o, Optional ms "on_traverse" IsCallbacks o ∧ shapes = o.getD []
  needs : ∀ shape ∈ shapes, shape.needsTarget → NamesState lead
  comment : OptionalOrNull ms "comment" (fun t c => t.string? = some c) remark

/-- The value of an edge's member is a target alone, or an object says it. -/
theorem isEdgeValue_iff_members {kind : InvokerKind} {targets : Targets}
    {callbacks : List CallbackShape} {comment : Option String} :
    IsEdgeValue ns kind t targets callbacks comment ↔
      (∃ target, IsTarget ns t target ∧ targets = .single target ∧ callbacks = [] ∧
        comment = none) ∨
      ∃ ms, t.members? = some ms ∧ EdgeFields ns kind ms targets callbacks comment := by
  constructor
  · intro h
    cases h with
    | plain h => exact .inl ⟨_, h, rfl, rfl, rfl⟩
    | object honly htargets hcallbacks hneeds hcomment =>
      exact .inr ⟨_, rfl, honly, htargets, ⟨_, hcallbacks, rfl⟩, hneeds, hcomment⟩
  · intro h
    obtain ⟨target, h, rfl, rfl, rfl⟩ | ⟨ms, hms, h⟩ := h
    · exact .plain h
    · obtain ⟨o, hcallbacks, rfl⟩ := h.callbacks
      obtain ⟨s, rfl⟩ := Token.eq_object hms
      exact .object h.onlyHas h.targets hcallbacks h.needs h.comment

/-! ## Timers of states -/

/-- A timer is started with `null` or with the members of a rule. -/
theorem isStart_iff_members {start : TimerStart} :
    IsStart strict ns m start ↔ start.timer = m.1.name ∧ m.1.name ∈ ns.timers ∧
      (m.2.isNull ∧ start.rule = none ∨
        ∃ ms, m.2.members? = some ms ∧ ∃ r, start.rule = some r ∧ RuleFields strict ms r) := by
  obtain ⟨timer, rule⟩ := start
  constructor
  · intro h
    cases h with
    | plain hk => exact ⟨rfl, hk, .inl ⟨rfl, rfl⟩⟩
    | rule hk hr => exact ⟨rfl, hk, .inr ⟨_, rfl, _, rfl, hr⟩⟩
  · intro h
    obtain ⟨k, t⟩ := m
    obtain ⟨rfl, hk, ⟨hnull, rfl⟩ | ⟨ms, hms, r, rfl, hr⟩⟩ := h
    · obtain ⟨s, rfl : t = _⟩ := Token.eq_null hnull
      exact .plain hk
    · obtain ⟨s, rfl : t = _⟩ := Token.eq_object hms
      exact .rule hk hr

theorem isStart_iff_of_isNull {start : TimerStart} (h : m.2.isNull) :
    IsStart strict ns m start ↔ start = ⟨m.1.name, none⟩ ∧ m.1.name ∈ ns.timers := by
  obtain ⟨k, t⟩ := m
  obtain ⟨timer, rule⟩ := start
  obtain ⟨s, rfl : t = _⟩ := Token.eq_null h
  simp only [isStart_iff_members, Token.isNull, Token.members?, reduceCtorEq, false_and,
    exists_false, or_false, true_and, TimerStart.mk.injEq]
  tauto

theorem isStarts_iff_of_empty {starts : List TimerStart}
    (h : t.items? = some [] ∨ t.members? = some []) :
    IsStarts strict ns t starts ↔ starts = [] := by
  obtain h | h := h
  · have hno : ¬IsObjectOf (IsStart strict ns) t starts := by
      intro hstarts
      obtain ⟨ms, hms, _⟩ := hstarts
      obtain ⟨s, rfl⟩ := Token.eq_object hms
      cases h
    simp [isStarts_iff, isNames_iff_of_empty h, hno]
  · have hno : ∀ names, ¬IsNames ns.timers t names := by
      intro names hnames
      obtain ⟨ts, hts, _⟩ := hnames.items
      obtain ⟨s, rfl⟩ := Token.eq_array hts
      cases h
    simp [isStarts_iff, isObjectOf_iff_of_empty h, hno]

/-! ## States -/

/-- The members of the object that says what a state does on being entered. -/
@[mk_iff]
structure OnEnterFields (strict : Bool) (ns : Names) (ms : Members)
    (enter : Option OnEnter × Option (List Choice)) : Prop where
  onlyHas : OnlyHas ms ["comment", "targets"]
  comment : ∃ c, OptionalOrNull ms "comment" (fun t c => t.string? = some c) c ∧
    enter.1 = some ⟨c⟩
  choices : Optional ms "targets" (IsObjectOf (IsChoice ns)) enter.2
  ne_nil : strict = true → ∀ cs ∈ enter.2, cs ≠ []

/-- What a state does on being entered, by the value of the token or by its members. -/
theorem isOnEnter_iff_values {enter : Option OnEnter × Option (List Choice)} :
    IsOnEnter strict ns t enter ↔ t.bool? = some false ∧ enter = (none, none) ∨
      t.bool? = some true ∧ enter = (some ⟨none⟩, none) ∨
      (∃ c, t.string? = some c ∧ enter = (some ⟨some c⟩, none)) ∨
      ∃ ms, t.members? = some ms ∧ OnEnterFields strict ns ms enter := by
  constructor
  · intro h
    cases h with
    | no => exact .inl ⟨rfl, rfl⟩
    | yes => exact .inr (.inl ⟨rfl, rfl⟩)
    | comment => exact .inr (.inr (.inl ⟨_, rfl, rfl⟩))
    | object honly hcomment hchoices hne =>
      exact .inr (.inr (.inr ⟨_, rfl, honly, ⟨_, hcomment, rfl⟩, hchoices, hne⟩))
  · intro h
    obtain ⟨hb, rfl⟩ | ⟨hb, rfl⟩ | ⟨c, hc, rfl⟩ | ⟨ms, hms, h⟩ := h
    · obtain ⟨s, rfl⟩ := Token.eq_bool hb
      exact .no
    · obtain ⟨s, rfl⟩ := Token.eq_bool hb
      exact .yes
    · obtain ⟨s, rfl⟩ := Token.eq_string hc
      exact .comment
    · obtain ⟨notify, choices⟩ := enter
      obtain ⟨honly, ⟨c, hcomment, hnotify⟩, hchoices, hne⟩ := h
      obtain rfl : notify = some ⟨c⟩ := hnotify
      obtain ⟨s, rfl⟩ := Token.eq_object hms
      exact .object honly hcomment hchoices hne

theorem isOnEnter_iff_of_false {enter : Option OnEnter × Option (List Choice)}
    (h : t.bool? = some false) : IsOnEnter strict ns t enter ↔ enter = (none, none) := by
  obtain ⟨s, rfl⟩ := Token.eq_bool h
  simp [isOnEnter_iff]

/-- The members of a state that say what it does on being entered and what its shape is. -/
@[mk_iff]
structure ShapeParts (strict : Bool) (ns : Names) (ms : Members)
    (notify : Option OnEnter × Option (List Choice)) (onTimer onEvent : Option (List Edge))
    (state : Option String) (isFinal : Bool) : Prop where
  enter : ∃ o, Optional ms "on_enter" (IsOnEnter strict ns) o ∧ notify = o.getD (none, none)
  timerEdges : Optional ms "on_timer" (IsObjectOf (IsEdge ns .timer)) onTimer
  eventEdges : Optional ms "on_event" (IsObjectOf (IsEdge ns .event)) onEvent
  next : OptionalOrNull ms "next_state" (fun t name => t.string? = some name ∧ name ∈ ns.states)
    state
  final : ∃ o, Optional ms "final" (fun t b => t.bool? = some b) o ∧ isFinal = o.getD false

/-- The members of a state. -/
theorem stateFields_iff_parts {s : State} :
    StateFields strict ns ms s ↔
      OnlyHas ms ["start_timers", "stop_timers", "on_enter", "on_timer", "on_event", "next_state",
        "final"] ∧
      (∃ o, Optional ms "start_timers" (IsStarts strict ns) o ∧ s.startTimers = o.getD []) ∧
      (∃ o, Optional ms "stop_timers" (IsNames ns.timers) o ∧ s.stopTimers = o.getD []) ∧
      (∀ start ∈ s.startTimers, start.timer ∉ s.stopTimers) ∧
      ∃ notify onTimer onEvent state isFinal,
        ShapeParts strict ns ms notify onTimer onEvent state isFinal ∧ s.onEnter = notify.1 ∧
          IsShape onEvent onTimer state notify.2 isFinal s.shape := by
  constructor
  · intro h
    obtain ⟨enter, timerEdges, eventEdges, next, final, henter, htimer, hevent, hnext, hfinal,
      hnotify, hshape⟩ := h.shape
    exact ⟨h.onlyHas, h.starts, h.stops, h.not_both, _, _, _, _, _,
      ⟨⟨_, henter, rfl⟩, htimer, hevent, hnext, ⟨_, hfinal, rfl⟩⟩, hnotify, hshape⟩
  · intro h
    obtain ⟨honly, hstarts, hstops, hboth, _, _, _, _, _, hparts, hnotify, hshape⟩ := h
    obtain ⟨⟨enter, henter, rfl⟩, htimer, hevent, hnext, ⟨final, hfinal, rfl⟩⟩ := hparts
    exact ⟨honly, hstarts, hstops, hboth, _, _, _, _, _, henter, htimer, hevent, hnext, hfinal,
      hnotify, hshape⟩

end Format

end TimedMachine
