import TimedMachine.Proofs.Machine.Accepts
import TimedMachine.Proofs.Machine.Spelling

/-!
# Spellings say the same

However a specification is written, it specifies the same machine (`Format.specifies_iff`): each
part of the format says the same of a token and of any token that may take its place. So trees
without repeated keys that are spellings of one another load to the same machine, or none of them
loads (`Machine.ofToken_respelled`).
-/

namespace TimedMachine

namespace Format

open Spelling

variable {strict : Bool} {ns : Names} {t t' : Token} {m m' : Key × Token} {ms ms' : Members}

/-! ## Names, timers and events -/

theorem isNames_iff_of_resited {declared names : List String} (h : t.Resited t') :
    IsNames declared t names ↔ IsNames declared t' names := by
  rw [isNames_iff, isNames_iff,
    h.exists_items_iff fun _ _ hu name => hu.string?_eq_some_iff name]

theorem isTimer_iff_of_resited {timer : Timer} (h : Token.SameKey Token.Resited m m') :
    IsTimer m timer ↔ IsTimer m' timer := by
  rw [isTimer_iff, isTimer_iff, h.key, h.value.number?_eq]

theorem isArgument_iff_of_resited {a : Argument} (h : Token.SameKey Token.Resited m m') :
    IsArgument m a ↔ IsArgument m' a := by
  rw [isArgument_iff, isArgument_iff, h.key, h.value.string?_eq]

theorem eventFields_iff_of_respelled {e : Event}
    (h : Members.Respelled (fun _ => Token.Resited) EventDefault ms ms') :
    EventFields ns ms e ↔ EventFields ns ms' e := by
  have honly : OnlyHas ms ["after_states", "args", "only_once"] ↔
      OnlyHas ms' ["after_states", "args", "only_once"] := by
    apply h.onlyHas_iff
    intro key t ht
    simp only [EventDefault] at ht
    obtain ⟨rfl, _⟩ | ⟨rfl, _⟩ | ⟨rfl, _⟩ := ht <;> simp
  have hafter : (∃ o, Optional ms "after_states" (IsNames ns.states) o ∧
        e.afterStates = o.filter fun names => !names.isEmpty) ↔
      ∃ o, Optional ms' "after_states" (IsNames ns.states) o ∧
        e.afterStates = o.filter fun names => !names.isEmpty := by
    apply h.default_iff
    · intro t t' ht names
      exact isNames_iff_of_resited ht
    · intro t ht
      have hitems : t.items? = some [] := by simpa [EventDefault] using ht
      simp only [isNames_iff_of_empty hitems, exists_eq_left]
      exact Iff.rfl
  have hargs : (∃ o, Optional ms "args" (IsObjectOf IsArgument) o ∧ e.args = o.getD []) ↔
      ∃ o, Optional ms' "args" (IsObjectOf IsArgument) o ∧ e.args = o.getD [] := by
    apply h.default_iff
    · intro t t' ht args
      apply (ByMembers.entries_of_resited (fun _ _ hu => hu) ht).isObjectOf_iff
      intro m m' hm a
      exact isArgument_iff_of_resited hm
    · intro t ht
      have hmembers : t.members? = some [] := by simpa [EventDefault] using ht
      simp [isObjectOf_iff_of_empty hmembers]
  have honce : (∃ o, Optional ms "only_once" (fun t b => t.bool? = some b) o ∧
        e.onlyOnce = o.getD false) ↔
      ∃ o, Optional ms' "only_once" (fun t b => t.bool? = some b) o ∧
        e.onlyOnce = o.getD false := by
    apply h.flag_iff fun _ _ ht => ht
    intro t ht
    simpa [EventDefault] using ht
  rw [eventFields_iff, eventFields_iff, honly, hafter, hargs, honce]

theorem isEvent_iff_of_respelled {e : Event}
    (h : Token.SameKey (Record (fun _ => Token.Resited) EventDefault) m m') :
    IsEvent ns m e ↔ IsEvent ns m' e := by
  rw [isEvent_iff, isEvent_iff, h.key,
    h.value.exists_members_iff fun _ _ hms => eventFields_iff_of_respelled hms]

/-! ## Targets and edges -/

theorem isTarget_iff_of_resited {target : Target} (h : t.Resited t') :
    IsTarget ns t target ↔ IsTarget ns t' target := by
  cases h <;> simp [isTarget_iff]

theorem isTarget_iff_of_byMembers {Q : Members → Members → Prop} {target : Target}
    (h : ByMembers Q t t') : IsTarget ns t target ↔ IsTarget ns t' target := by
  cases h with
  | members => simp [not_isTarget_object]
  | other _ h => exact isTarget_iff_of_resited h

theorem has_singleton_iff {k : Key} {u u' : Token} {key : String} (hk : k.name = key) :
    Has [(k, u)] key u' ↔ u' = u := by
  simp [Has, hk]

theorem isChoiceTarget_iff_of_respelled {target : Target} (h : TargetRespelled t t') :
    IsChoiceTarget ns t target ↔ IsChoiceTarget ns t' target := by
  rw [isChoiceTarget_iff_members, isChoiceTarget_iff_members]
  cases h with
  | boxed h =>
    cases h with
    | @box s k ht hk =>
      have hmembers : (Token.object s [(k, t)]).members? = some [(k, t)] := rfl
      have honly : OnlyHas [(k, t)] ["state"] := by simp [OnlyHas, hk]
      simp [hmembers, ht, honly, not_isTarget_object, has_singleton_iff hk]
  | record h =>
    rw [isTarget_iff_of_byMembers h, h.exists_members_iff]
    intro ms ms' hms
    have honly : OnlyHas ms ["state"] ↔ OnlyHas ms' ["state"] := hms.onlyHas_iff fun _ _ h => h.elim
    have hstate : (∃ u, Has ms "state" u ∧ IsTarget ns u target) ↔
        ∃ u, Has ms' "state" u ∧ IsTarget ns u target :=
      hms.exists_has_iff (fun _ _ hu => isTarget_iff_of_resited hu) fun _ h => h
    rw [honly, hstate]

theorem targetRespelled_of_resited (h : t.Resited t') : TargetRespelled t t' :=
  .record (ByMembers.record_of_resited (fun _ _ _ hu => hu) h)

theorem isChoice_iff_of_respelled {c : Choice} (h : Token.SameKey TargetRespelled m m') :
    IsChoice ns m c ↔ IsChoice ns m' c := by
  rw [isChoice_iff, isChoice_iff, h.key, isChoiceTarget_iff_of_respelled h.value]

/-- The choices of a decision. -/
theorem isChoices_iff_of_respelled {choices : List Choice}
    (h : t.Resited t' ∨ Entries TargetRespelled t t') :
    IsObjectOf (IsChoice ns) t choices ↔ IsObjectOf (IsChoice ns) t' choices := by
  have hentries : Entries TargetRespelled t t' :=
    h.elim (ByMembers.entries_of_resited fun _ _ => targetRespelled_of_resited) id
  exact hentries.isObjectOf_iff fun _ _ hm _ => isChoice_iff_of_respelled hm

theorem isTargets_iff_of_respelled {kind : InvokerKind} {targets : Targets}
    (h : Members.Respelled EdgeField EdgeDefault ms ms') :
    IsTargets ns kind ms targets ↔ IsTargets ns kind ms' targets := by
  have hstays : ∀ t, ¬EdgeDefault "state" t := by simp [EdgeDefault]
  have htargetsStay : ∀ t, ¬EdgeDefault "targets" t := by simp [EdgeDefault]
  have hstate : ∀ target, (∃ t, Has ms "state" t ∧ IsTarget ns t target) ↔
      ∃ t, Has ms' "state" t ∧ IsTarget ns t target := by
    intro target
    apply h.exists_has_iff _ hstays
    intro t t' ht
    exact isTarget_iff_of_resited (by simpa [EdgeField] using ht)
  have htargets : ∀ choices, (∃ t, Has ms "targets" t ∧ IsObjectOf (IsChoice ns) t choices) ↔
      ∃ t, Has ms' "targets" t ∧ IsObjectOf (IsChoice ns) t choices := by
    intro choices
    apply h.exists_has_iff _ htargetsStay
    intro t t' ht
    exact isChoices_iff_of_respelled (by simpa [EdgeField] using ht)
  simp only [isTargets_iff_members, h.lacks_iff hstays, h.lacks_iff htargetsStay, hstate, htargets]

theorem isCallbacks_iff_of_respelled {shapes : List CallbackShape}
    (h : t.Resited t' ∨ CallbacksRespelled t t') :
    IsCallbacks t shapes ↔ IsCallbacks t' shapes := by
  rw [isCallbacks_iff_values, isCallbacks_iff_values]
  obtain h | h := h
  · rw [h.bool?_eq, h.string?_eq,
      h.exists_items_iff fun _ _ hu shape => hu.string?_eq_some_iff shape.text]
  · cases h with
    | eventOnly =>
      have htext : ∀ shape : CallbackShape, "event_only" = shape.text ↔ shape = .eventOnly := by
        intro shape
        cases shape <;> simp [CallbackShape.text]
      simp [Token.bool?, Token.string?, Token.items?, htext]
    | single =>
      have hnodup : ∀ shape, shapes = [shape] → shapes.Nodup := by
        intro shape hshapes
        rw [hshapes]
        exact List.nodup_singleton shape
      simpa [Token.bool?, Token.string?, Token.items?, List.forall₂_cons_left_iff]
        using fun shape _ => hnodup shape

theorem edgeFields_iff_of_respelled {kind : InvokerKind} {targets : Targets}
    {callbacks : List CallbackShape} {comment : Option String}
    (h : Members.Respelled EdgeField EdgeDefault ms ms') :
    EdgeFields ns kind ms targets callbacks comment ↔
      EdgeFields ns kind ms' targets callbacks comment := by
  have honly : OnlyHas ms ["state", "targets", "on_traverse", "comment"] ↔
      OnlyHas ms' ["state", "targets", "on_traverse", "comment"] := by
    apply h.onlyHas_iff
    intro key t ht
    simp only [EdgeDefault] at ht
    obtain ⟨rfl, _⟩ | ⟨rfl, _⟩ := ht <;> simp
  have hcallbacks : (∃ o, Optional ms "on_traverse" IsCallbacks o ∧ callbacks = o.getD []) ↔
      ∃ o, Optional ms' "on_traverse" IsCallbacks o ∧ callbacks = o.getD [] := by
    apply h.default_iff
    · intro t t' ht shapes
      exact isCallbacks_iff_of_respelled (by simpa [EdgeField] using ht)
    · intro t ht
      simp [isCallbacks_iff_of_default (by simpa [EdgeDefault] using ht)]
  have hcomment : OptionalOrNull ms "comment" (fun t c => t.string? = some c) comment ↔
      OptionalOrNull ms' "comment" (fun t c => t.string? = some c) comment := by
    apply h.text_iff
    · intro t t' ht
      simpa [EdgeField] using ht
    · intro t ht
      simpa [EdgeDefault] using ht
  rw [edgeFields_iff, edgeFields_iff, honly, isTargets_iff_of_respelled h, hcallbacks, hcomment]

/-- An object with a target alone says what the target says. -/
theorem edgeFields_iff_of_boxed {kind : InvokerKind} {targets : Targets}
    {callbacks : List CallbackShape} {comment : Option String} {k : Key} (hk : k.name = "state") :
    EdgeFields ns kind [(k, t)] targets callbacks comment ↔
      ∃ target, IsTarget ns t target ∧ targets = .single target ∧ callbacks = [] ∧
        comment = none := by
  have hlacks : ∀ key, key ≠ "state" → Lacks [(k, t)] key := by
    intro key hkey m hm
    rw [List.mem_singleton.mp hm, hk]
    exact hkey.symm
  have hnoTargets : Lacks [(k, t)] "targets" := hlacks _ (by decide)
  have hnoCallbacks : Lacks [(k, t)] "on_traverse" := hlacks _ (by decide)
  have hnoComment : Lacks [(k, t)] "comment" := hlacks _ (by decide)
  have hhas : ¬Lacks [(k, t)] "state" := fun h => h (k, t) (List.mem_singleton_self _) hk
  have honly : OnlyHas [(k, t)] ["state", "targets", "on_traverse", "comment"] := by
    simp [OnlyHas, hk]
  constructor
  · intro h
    obtain ⟨_, htargets, hcallbacks, _, hcomment⟩ := h
    rw [optional_iff_tells, tells_iff_of_lacks hnoCallbacks] at hcallbacks
    rw [optionalOrNull_iff_tells, tells_iff_of_lacks hnoComment] at hcomment
    cases htargets with
    | single hstate _ htarget =>
      rw [has_singleton_iff hk] at hstate
      subst hstate
      exact ⟨_, htarget, rfl, hcallbacks, hcomment⟩
    | decision _ hno => exact absurd hno hhas
  · intro h
    obtain ⟨target, htarget, rfl, rfl, rfl⟩ := h
    have hstate : Has [(k, t)] "state" t := (has_singleton_iff hk).mpr rfl
    exact ⟨honly, .single hstate hnoTargets htarget, ⟨none, .absent hnoCallbacks, rfl⟩, by simp,
      .absent hnoComment⟩

theorem isEdgeValue_iff_of_respelled {kind : InvokerKind} {targets : Targets}
    {callbacks : List CallbackShape} {comment : Option String} (h : EdgeRespelled t t') :
    IsEdgeValue ns kind t targets callbacks comment ↔
      IsEdgeValue ns kind t' targets callbacks comment := by
  rw [isEdgeValue_iff_members, isEdgeValue_iff_members]
  cases h with
  | boxed h =>
    cases h with
    | @box s k ht hk =>
      have hmembers : (Token.object s [(k, t)]).members? = some [(k, t)] := rfl
      simp [hmembers, ht, not_isTarget_object, edgeFields_iff_of_boxed hk]
  | record h =>
    simp only [isTarget_iff_of_byMembers h]
    rw [h.exists_members_iff fun _ _ hms => edgeFields_iff_of_respelled hms]

theorem edgeRespelled_of_resited (h : t.Resited t') : EdgeRespelled t t' :=
  .record (ByMembers.record_of_resited (fun _ _ _ => .inl) h)

theorem isEdge_iff_of_respelled {kind : InvokerKind} {e : Edge}
    (h : Token.SameKey EdgeRespelled m m') : IsEdge ns kind m e ↔ IsEdge ns kind m' e := by
  rw [isEdge_iff, isEdge_iff, h.key, isEdgeValue_iff_of_respelled h.value]

/-- The edges of a state. -/
theorem isEdges_iff_of_respelled {kind : InvokerKind} {es : List Edge}
    (h : t.Resited t' ∨ Entries EdgeRespelled t t') :
    IsObjectOf (IsEdge ns kind) t es ↔ IsObjectOf (IsEdge ns kind) t' es := by
  have hentries : Entries EdgeRespelled t t' :=
    h.elim (ByMembers.entries_of_resited fun _ _ => edgeRespelled_of_resited) id
  exact hentries.isObjectOf_iff fun _ _ hm _ => isEdge_iff_of_respelled hm

/-! ## Timers of states -/

theorem ruleFields_iff_of_respelled {r : DelayRule Float}
    (h : Members.Respelled (fun _ => Token.Resited) RuleDefault ms ms') :
    RuleFields strict ms r ↔ RuleFields strict ms' r := by
  have honly : OnlyHas ms ["set", "multiplier", "increment", "min", "max"] ↔
      OnlyHas ms' ["set", "multiplier", "increment", "min", "max"] :=
    h.onlyHas_iff fun _ _ ht => ht.1
  have hnumber : ∀ key (o : Option Float), OptionalOrNull ms key (IsRuleNumber strict) o ↔
      OptionalOrNull ms' key (IsRuleNumber strict) o := by
    intro key o
    apply h.optionalOrNull_iff (fun _ _ ht => ht) _ fun _ ht => ht.2
    intro t t' ht x
    rw [IsRuleNumber, IsRuleNumber, ht.number?_eq]
  have hpositive : ∀ key (o : Option Float),
      OptionalOrNull ms key (fun t x => IsRuleNumber strict t x ∧ 0 < x) o ↔
      OptionalOrNull ms' key (fun t x => IsRuleNumber strict t x ∧ 0 < x) o := by
    intro key o
    apply h.optionalOrNull_iff (fun _ _ ht => ht) _ fun _ ht => ht.2
    intro t t' ht x
    rw [IsRuleNumber, IsRuleNumber, ht.number?_eq]
  simp only [ruleFields_iff, honly, hnumber, hpositive]

theorem isStart_iff_of_respelled {start : TimerStart}
    (h : Token.SameKey (Record (fun _ => Token.Resited) RuleDefault) m m') :
    IsStart strict ns m start ↔ IsStart strict ns m' start := by
  have hrule := h.value.exists_members_iff (P := fun ms =>
      ∃ r, start.rule = some r ∧ RuleFields strict ms r) fun ms ms' hms => by
    simp only [ruleFields_iff_of_respelled hms]
  rw [isStart_iff_members, isStart_iff_members, h.key, h.value.isNull_eq, hrule]

section Named

variable {s : Site} {ts : List Token}

/-- A list of names that are the keys of an object. -/
theorem isNames_iff_of_named {names : List String}
    (h : List.Forall₂ (fun t m => t.string? = some m.1.name ∧ m.2.isNull) ts ms)
    (hms : (ms.map (·.1.name)).Nodup) :
    IsNames ns.timers (.array s ts) names ↔
      names = ms.map (·.1.name) ∧ ∀ m ∈ ms, m.1.name ∈ ns.timers := by
  have hall : List.Forall₂ (fun t name => t.string? = some name) ts names ↔
      names = ms.map (·.1.name) ∧ ∀ m ∈ ms, True := by
    apply forall₂_iff_eq_map h
    intro t m hm name
    rw [hm.1, Option.some_inj]
    exact ⟨fun h => ⟨h.symm, trivial⟩, fun h => h.1.symm⟩
  have hitems : (∃ ts', (Token.array s ts).items? = some ts' ∧
      List.Forall₂ (fun t name => t.string? = some name) ts' names) ↔
      names = ms.map (·.1.name) := by
    simpa [Token.items?] using hall
  rw [isNames_iff, hitems]
  constructor
  · intro h
    obtain ⟨rfl, _, hdeclared⟩ := h
    exact ⟨rfl, fun m hm => hdeclared _ (List.mem_map_of_mem hm)⟩
  · intro h
    obtain ⟨rfl, hdeclared⟩ := h
    exact ⟨rfl, hms, List.forall_mem_map.mpr hdeclared⟩

/-- An object that starts every timer without a rule. -/
theorem isObjectOf_isStart_iff_of_isNull {starts : List TimerStart} (h : ∀ m ∈ ms, m.2.isNull) :
    IsObjectOf (IsStart strict ns) (.object s ms) starts ↔
      starts = ms.map (fun m => ⟨m.1.name, none⟩) ∧ ∀ m ∈ ms, m.1.name ∈ ns.timers := by
  have hnull : List.Forall₂ (fun m m' : Key × Token => m = m' ∧ m.2.isNull) ms ms :=
    List.forall₂_same.mpr fun m hm => ⟨rfl, h m hm⟩
  have hall : List.Forall₂ (IsStart strict ns) ms starts ↔
      starts = ms.map (fun m => ⟨m.1.name, none⟩) ∧ ∀ m ∈ ms, m.1.name ∈ ns.timers := by
    apply forall₂_iff_eq_map hnull
    intro m m' hm start
    obtain ⟨rfl, hm⟩ := hm
    exact isStart_iff_of_isNull hm
  simpa [IsObjectOf, Token.members?] using hall

/-- An object that gives every timer `null` says what the list of its keys says. -/
theorem isStarts_iff_of_named {s' : Site} {starts : List TimerStart}
    (h : List.Forall₂ (fun t m => t.string? = some m.1.name ∧ m.2.isNull) ts ms)
    (hms : (ms.map (·.1.name)).Nodup) :
    IsStarts strict ns (.array s ts) starts ↔ IsStarts strict ns (.object s' ms) starts := by
  have hnull : ∀ m ∈ ms, m.2.isNull := by
    intro m hm
    obtain ⟨t, _, ht⟩ := exists_of_mem_forall₂ h hm
    exact ht.2
  have hnoNames : ∀ names, ¬IsNames ns.timers (.object s' ms) names := by
    simp [isNames_iff, Token.items?]
  have hnoObject : ¬IsObjectOf (IsStart strict ns) (.array s ts) starts := by
    simp [IsObjectOf, Token.members?]
  rw [isStarts_iff, isStarts_iff, isObjectOf_isStart_iff_of_isNull hnull]
  simp only [isNames_iff_of_named h hms, hnoNames, hnoObject, false_and, exists_false, or_false,
    false_or]
  constructor
  · intro h
    obtain ⟨names, ⟨rfl, hdeclared⟩, rfl⟩ := h
    exact ⟨List.map_map, hdeclared⟩
  · intro h
    obtain ⟨rfl, hdeclared⟩ := h
    refine ⟨_, ⟨rfl, hdeclared⟩, ?_⟩
    rw [List.map_map]
    rfl

end Named

theorem isNames_iff_of_byMembers {Q : Members → Members → Prop} {declared names : List String}
    (h : ByMembers Q t t') : IsNames declared t names ↔ IsNames declared t' names := by
  cases h with
  | members => simp [isNames_iff, Token.items?]
  | other _ h => exact isNames_iff_of_resited h

theorem isStarts_iff_of_respelled {starts : List TimerStart} (h : StartsRespelled t t') :
    IsStarts strict ns t starts ↔ IsStarts strict ns t' starts := by
  cases h with
  | named h hms => exact isStarts_iff_of_named h hms
  | entries h =>
    have hobject : IsObjectOf (IsStart strict ns) t starts ↔
        IsObjectOf (IsStart strict ns) t' starts :=
      h.isObjectOf_iff fun _ _ hm _ => isStart_iff_of_respelled hm
    simp only [isStarts_iff, isNames_iff_of_byMembers h, hobject]

theorem startsRespelled_of_resited (h : t.Resited t') : StartsRespelled t t' :=
  .entries (ByMembers.entries_of_resited
    (fun _ _ => ByMembers.record_of_resited fun _ _ _ hu => hu) h)

/-! ## States -/

theorem onEnterFields_iff_of_respelled {enter : Option OnEnter × Option (List Choice)}
    (h : Members.Respelled OnEnterField (fun key t => key = "comment" ∧ t.isNull) ms ms') :
    OnEnterFields strict ns ms enter ↔ OnEnterFields strict ns ms' enter := by
  have honly : OnlyHas ms ["comment", "targets"] ↔ OnlyHas ms' ["comment", "targets"] := by
    apply h.onlyHas_iff
    intro key t ht
    simp [ht.1]
  have hcomment : ∀ c, OptionalOrNull ms "comment" (fun t c => t.string? = some c) c ↔
      OptionalOrNull ms' "comment" (fun t c => t.string? = some c) c := by
    intro c
    apply h.text_iff _ fun _ ht => ht.2
    intro t t' ht
    simpa [OnEnterField] using ht
  have hchoices : Optional ms "targets" (IsObjectOf (IsChoice ns)) enter.2 ↔
      Optional ms' "targets" (IsObjectOf (IsChoice ns)) enter.2 := by
    apply h.optional_iff _ (by simp)
    intro t t' ht choices
    exact isChoices_iff_of_respelled (by simpa [OnEnterField] using ht)
  simp only [onEnterFields_iff, honly, hcomment, hchoices]

/-- An object without choices says what the comment says. -/
theorem onEnterFields_iff_of_comment {enter : Option OnEnter × Option (List Choice)}
    {c : Option String} (hms : OnlyHas ms ["comment"])
    (hc : ∀ c', OptionalOrNull ms "comment" (fun t c => t.string? = some c) c' ↔ c' = c) :
    OnEnterFields strict ns ms enter ↔ enter = (some ⟨c⟩, none) := by
  have hno : Lacks ms "targets" := by
    intro m hm hkey
    have hcomment : m.1.name = "comment" := by simpa using hms m hm
    rw [hcomment] at hkey
    exact absurd hkey (by decide)
  have honly : OnlyHas ms ["comment", "targets"] :=
    fun m hm => List.mem_cons.mpr (.inl (by simpa using hms m hm))
  obtain ⟨notify, choices⟩ := enter
  constructor
  · intro h
    obtain ⟨_, ⟨c', hcomment, hnotify⟩, hchoices, _⟩ := h
    obtain rfl := (hc c').mp hcomment
    cases hchoices with
    | absent => exact Prod.ext hnotify rfl
    | present ht =>
      obtain ⟨k, hk, hkey⟩ := ht
      exact absurd hkey (hno _ hk)
  · intro h
    cases h
    exact ⟨honly, ⟨c, (hc c).mpr rfl, rfl⟩, .absent hno, by simp⟩

theorem isOnEnter_iff_of_respelled {enter : Option OnEnter × Option (List Choice)}
    (h : OnEnterRespelled t t') : IsOnEnter strict ns t enter ↔ IsOnEnter strict ns t' enter := by
  rw [isOnEnter_iff_values, isOnEnter_iff_values]
  cases h with
  | yes =>
    have hempty : OnEnterFields strict ns [] enter ↔ enter = (some ⟨none⟩, none) := by
      apply onEnterFields_iff_of_comment
      · simp [OnlyHas]
      · intro c
        rw [optionalOrNull_iff_tells, tells_iff_of_lacks (by simp [Lacks])]
    simp [Token.bool?, Token.string?, Token.members?, hempty]
  | @comment s c _ h =>
    cases h with
    | @box _ k _ hk =>
      have hcomment : OnEnterFields strict ns [(k, .string s c)] enter ↔
          enter = (some ⟨some c⟩, none) := by
        apply onEnterFields_iff_of_comment
        · simp [OnlyHas, hk]
        · intro c'
          simp [optionalOrNull_iff_tells, Tells, Lacks, hk, Token.isNull, Token.string?]
      simp [Token.bool?, Token.string?, Token.members?, hcomment]
  | record h =>
    rw [h.bool?_eq, h.string?_eq,
      h.exists_members_iff fun _ _ hms => onEnterFields_iff_of_respelled hms]

theorem onEnterRespelled_of_resited (h : t.Resited t') : OnEnterRespelled t t' :=
  .record (ByMembers.record_of_resited (fun _ _ _ => .inl) h)

theorem shapeParts_iff_of_respelled {notify : Option OnEnter × Option (List Choice)}
    {onTimer onEvent : Option (List Edge)} {state : Option String} {isFinal : Bool}
    (h : Members.Respelled StateField StateDefault ms ms') :
    ShapeParts strict ns ms notify onTimer onEvent state isFinal ↔
      ShapeParts strict ns ms' notify onTimer onEvent state isFinal := by
  have henter : (∃ o, Optional ms "on_enter" (IsOnEnter strict ns) o ∧
        notify = o.getD (none, none)) ↔
      ∃ o, Optional ms' "on_enter" (IsOnEnter strict ns) o ∧ notify = o.getD (none, none) := by
    apply h.default_iff
    · intro t t' ht enter
      have hrespelled : t.Resited t' ∨ OnEnterRespelled t t' := by simpa [StateField] using ht
      exact isOnEnter_iff_of_respelled (hrespelled.elim onEnterRespelled_of_resited id)
    · intro t ht
      have hbool : t.bool? = some false := by simpa [StateDefault] using ht
      simp [isOnEnter_iff_of_false hbool]
  have hedges : ∀ key kind (es : Option (List Edge)), key = "on_timer" ∨ key = "on_event" →
      (Optional ms key (IsObjectOf (IsEdge ns kind)) es ↔
        Optional ms' key (IsObjectOf (IsEdge ns kind)) es) := by
    intro key kind es hkey
    apply h.optional_iff
    · intro t t' ht es
      apply isEdges_iff_of_respelled
      obtain rfl | rfl := hkey <;> simpa [StateField] using ht
    · obtain rfl | rfl := hkey <;> simp [StateDefault]
  have hnext : OptionalOrNull ms "next_state"
        (fun t name => t.string? = some name ∧ name ∈ ns.states) state ↔
      OptionalOrNull ms' "next_state"
        (fun t name => t.string? = some name ∧ name ∈ ns.states) state := by
    apply h.optionalOrNull_iff
    · intro t t' ht
      simpa [StateField] using ht
    · intro t t' ht name
      rw [ht.string?_eq]
    · intro t ht
      simpa [StateDefault] using ht
  have hfinal : (∃ o, Optional ms "final" (fun t b => t.bool? = some b) o ∧
        isFinal = o.getD false) ↔
      ∃ o, Optional ms' "final" (fun t b => t.bool? = some b) o ∧ isFinal = o.getD false := by
    apply h.flag_iff
    · intro t t' ht
      simpa [StateField] using ht
    · intro t ht
      simpa [StateDefault] using ht
  rw [shapeParts_iff, shapeParts_iff, henter, hedges _ _ _ (.inl rfl), hedges _ _ _ (.inr rfl),
    hnext, hfinal]

theorem stateFields_iff_of_respelled {s : State}
    (h : Members.Respelled StateField StateDefault ms ms') :
    StateFields strict ns ms s ↔ StateFields strict ns ms' s := by
  have honly : OnlyHas ms ["start_timers", "stop_timers", "on_enter", "on_timer", "on_event",
        "next_state", "final"] ↔
      OnlyHas ms' ["start_timers", "stop_timers", "on_enter", "on_timer", "on_event",
        "next_state", "final"] := by
    apply h.onlyHas_iff
    intro key t ht
    simp only [StateDefault] at ht
    obtain ⟨rfl, _⟩ | ⟨rfl, _⟩ | ⟨rfl, _⟩ | ⟨rfl, _⟩ | ⟨rfl, _⟩ := ht <;> simp
  have hstarts : (∃ o, Optional ms "start_timers" (IsStarts strict ns) o ∧
        s.startTimers = o.getD []) ↔
      ∃ o, Optional ms' "start_timers" (IsStarts strict ns) o ∧ s.startTimers = o.getD [] := by
    apply h.default_iff
    · intro t t' ht starts
      have hrespelled : t.Resited t' ∨ StartsRespelled t t' := by simpa [StateField] using ht
      exact isStarts_iff_of_respelled (hrespelled.elim startsRespelled_of_resited id)
    · intro t ht
      simp [isStarts_iff_of_empty (by simpa [StateDefault] using ht)]
  have hstops : (∃ o, Optional ms "stop_timers" (IsNames ns.timers) o ∧
        s.stopTimers = o.getD []) ↔
      ∃ o, Optional ms' "stop_timers" (IsNames ns.timers) o ∧ s.stopTimers = o.getD [] := by
    apply h.default_iff
    · intro t t' ht names
      exact isNames_iff_of_resited (by simpa [StateField] using ht)
    · intro t ht
      simp [isNames_iff_of_empty (by simpa [StateDefault] using ht)]
  simp only [stateFields_iff_parts, honly, hstarts, hstops, shapeParts_iff_of_respelled h]

theorem isState_iff_of_respelled {s : State}
    (h : Token.SameKey (Record StateField StateDefault) m m') :
    IsState strict ns m s ↔ IsState strict ns m' s := by
  rw [isState_iff, isState_iff, h.key,
    h.value.exists_members_iff fun _ _ hms => stateFields_iff_of_respelled hms]

/-! ## Machines -/

theorem fields_iff_of_respelled {machine : Machine}
    (h : Members.Respelled RootField RootDefault ms ms') :
    Fields strict ms machine ↔ Fields strict ms' machine := by
  have honly : OnlyHas ms ["events", "states", "timers", "start_state"] ↔
      OnlyHas ms' ["events", "states", "timers", "start_state"] := by
    apply h.onlyHas_iff
    intro key t ht
    simp [ht.1]
  have htimers : (∃ o, Optional ms "timers" (IsObjectOf IsTimer) o ∧
        machine.timers = o.getD []) ↔
      ∃ o, Optional ms' "timers" (IsObjectOf IsTimer) o ∧ machine.timers = o.getD [] := by
    apply h.default_iff
    · intro t t' ht timers
      have hresited : t.Resited t' := by simpa [RootField] using ht
      apply (ByMembers.entries_of_resited (fun _ _ hu => hu) hresited).isObjectOf_iff
      intro m m' hm timer
      exact isTimer_iff_of_resited hm
    · intro t ht
      simp [isObjectOf_iff_of_empty ht.2]
  have hevents : (∃ t, Has ms "events" t ∧ IsObjectOf (IsEvent machine.names) t machine.events) ↔
      ∃ t, Has ms' "events" t ∧ IsObjectOf (IsEvent machine.names) t machine.events := by
    apply h.exists_has_iff _ (by simp [RootDefault])
    intro t t' ht
    have hentries : t.Resited t' ∨ Entries (Record (fun _ => Token.Resited) EventDefault) t t' := by
      simpa [RootField] using ht
    have hentries : Entries (Record (fun _ => Token.Resited) EventDefault) t t' :=
      hentries.elim (ByMembers.entries_of_resited
        fun _ _ => ByMembers.record_of_resited fun _ _ _ hu => hu) id
    exact hentries.isObjectOf_iff fun _ _ hm _ => isEvent_iff_of_respelled hm
  have hstates : (∃ t, Has ms "states" t ∧
        IsObjectOf (IsState strict machine.names) t machine.states) ↔
      ∃ t, Has ms' "states" t ∧ IsObjectOf (IsState strict machine.names) t machine.states := by
    apply h.exists_has_iff _ (by simp [RootDefault])
    intro t t' ht
    have hentries : t.Resited t' ∨ Entries (Record StateField StateDefault) t t' := by
      simpa [RootField] using ht
    have hentries : Entries (Record StateField StateDefault) t t' :=
      hentries.elim (ByMembers.entries_of_resited
        fun _ _ => ByMembers.record_of_resited fun _ _ _ => .inl) id
    exact hentries.isObjectOf_iff fun _ _ hm _ => isState_iff_of_respelled hm
  have hstart : (∃ t, Has ms "start_state" t ∧ t.string? = some machine.startState) ↔
      ∃ t, Has ms' "start_state" t ∧ t.string? = some machine.startState := by
    apply h.exists_has_iff _ (by simp [RootDefault])
    intro t t' ht
    have hresited : t.Resited t' := by simpa [RootField] using ht
    rw [hresited.string?_eq]
  rw [fields_iff, fields_iff, honly, htimers, hevents, hstates, hstart]

/-- A specification that is written in another way specifies the same machine. -/
theorem specifies_iff_of_respelled {machine : Machine} (h : t.Respelled t') :
    Specifies strict t machine ↔ Specifies strict t' machine :=
  h.exists_members_iff fun _ _ => fields_iff_of_respelled

theorem specifies_iff {machine : Machine} (h : Relation.EqvGen Token.Respelled t t') :
    Specifies strict t machine ↔ Specifies strict t' machine := by
  induction h with
  | rel _ _ h => exact specifies_iff_of_respelled h
  | refl _ => rfl
  | symm _ _ _ ih => exact ih.symm
  | trans _ _ _ _ _ ih ih' => exact ih.trans ih'

end Format

namespace Machine

open Spelling

/-- Trees without repeated keys that are spellings of one another load to the same machine, or none
of them loads. -/
theorem ofToken_respelled {t t' : Token} (ht : t.distinctKeys) (ht' : t'.distinctKeys)
    (h : Relation.EqvGen Token.Respelled t t') :
    (∃ m, ofToken t = .ok m ∧ ofToken t' = .ok m) ∨
      (∃ e, ofToken t = .error e) ∧ ∃ e, ofToken t' = .error e := by
  have hok : ∀ m, ofToken t = .ok m ↔ ofToken t' = .ok m := by
    intro m
    have hsame : Format.Specifies true t m ↔ Format.Specifies true t' m := Format.specifies_iff h
    constructor
    · intro hm
      exact ofToken_of_specifies ht' (hsame.mp (specifies_of_ofToken ht hm))
    · intro hm
      exact ofToken_of_specifies ht (hsame.mpr (specifies_of_ofToken ht' hm))
  cases hload : ofToken t with
  | ok m => exact .inl ⟨m, rfl, (hok m).mp hload⟩
  | error e =>
    cases hload' : ofToken t' with
    | ok m =>
      rw [(hok m).mpr hload'] at hload
      cases hload
    | error e' => exact .inr ⟨⟨e, rfl⟩, e', rfl⟩

/-- The members of a specification with a single edge. -/
def knocking (edge : Token) : Members :=
  [(⟨"events", none⟩, .object {} [(⟨"knock", none⟩, .object {} [])]),
    (⟨"states", none⟩, .object {}
      [(⟨"A", none⟩, .object {} [(⟨"on_event", none⟩, .object {} [(⟨"knock", none⟩, edge)])])]),
    (⟨"start_state", none⟩, .string {} "A")]

/-- The edge with its target alone. -/
def knockingInShort : Token := .object {} (knocking (.null {}))

/-- The edge as an object, in a specification that begins with its start state. -/
def knockingAtLength : Token :=
  .object ⟨"", some ⟨1, 1⟩⟩ (knocking (.object {} [(⟨"state", none⟩, .null {})])).reverse

theorem respelled_knocking :
    Relation.EqvGen Token.Respelled knockingInShort knockingAtLength := by
  have hedge : EdgeRespelled (.null {}) (.object {} [(⟨"state", none⟩, .null {})]) :=
    .boxed (.box rfl rfl)
  have hstate : Record StateField StateDefault
      (.object {} [(⟨"on_event", none⟩, .object {} [(⟨"knock", none⟩, .null {})])])
      (.object {} [(⟨"on_event", none⟩, .object {}
        [(⟨"knock", none⟩, .object {} [(⟨"state", none⟩, .null {})])])]) :=
    .members (.values (.cons
      ⟨rfl, .inr (.inr (.inr ⟨.inr rfl, .members (.cons ⟨rfl, hedge⟩ .nil)⟩))⟩ .nil))
  have hvalues : knockingInShort.Respelled
      (.object {} (knocking (.object {} [(⟨"state", none⟩, .null {})]))) :=
    .members (.values (.cons ⟨rfl, .inl (Token.resited_refl _)⟩
      (.cons ⟨rfl, .inr (.inr ⟨rfl, .members (.cons ⟨rfl, hstate⟩ .nil)⟩)⟩
        (.cons ⟨rfl, .inl .string⟩ .nil))))
  exact .trans _ _ _ (.rel _ _ hvalues)
    (.rel _ _ (.members (.reordered (List.reverse_perm _).symm)))

theorem ofToken_respelled_knocking :
    knockingInShort.distinctKeys ∧ knockingAtLength.distinctKeys ∧
      ∃ m, ofToken knockingInShort = .ok m ∧ ofToken knockingAtLength = .ok m := by
  refine ⟨by decide, by decide, ?_⟩
  obtain hm | ⟨⟨e, he⟩, _⟩ := ofToken_respelled (by decide) (by decide) respelled_knocking
  · exact hm
  · cases he

end Machine

end TimedMachine
