import TimedMachine.Proofs.Machine.Keys
import TimedMachine.Proofs.Machine.OfToken

/-!
# The loader accepts the format

Each reader of a part of a specification accepts what the format says of that part, and nothing
else. The lemmas follow the readers from names up to whole machines
(`Machine.ofToken_eq_ok_iff_specifies`). They are about trees without repeated keys, for of several
members with one key only the first is read.

At the end are two trees that the loader refuses although the description of the format has nothing
against them. They show what the strict format is strict about.
-/

namespace TimedMachine

open Loaded Format

/-! ## Names, timers and events -/

variable {ns : Names}

theorem namesOfItems_eq_ok_iff {item : String} {check : Token → String → Loaded String}
    {role : NameRole} {declared : List String} {t : Token} {ts : List Token} {names : List String}
    (hcheck : ∀ t s name, check t s = .ok name ↔ s ∈ declared ∧ s = name)
    (ht : t.items? = some ts) :
    namesOfItems item check role ts = .ok names ↔ IsNames declared t names := by
  have hitem : ∀ t ∈ ts, ∀ name,
      (do check t (← t.asString item)) = .ok name ↔ name ∈ declared ∧ t.string? = some name := by
    intro t _ name
    simp only [bind_eq_ok, hcheck, asString_eq_ok_iff]
    constructor
    · rintro ⟨_, hs, hdecl, rfl⟩
      exact ⟨hdecl, hs⟩
    · rintro ⟨hdecl, hs⟩
      exact ⟨name, hs, hdecl, rfl⟩
  rw [namesOfItems, readDistinct_ok_eq_ok, forall₂_iff_of_mem hitem, List.map_id]
  constructor
  · rintro ⟨hall, hnd⟩
    refine ⟨⟨ts, ht, hall.imp fun _ _ h => h.2⟩, hnd, ?_⟩
    intro name hmem
    obtain ⟨t, -, h, -⟩ := exists_of_mem_forall₂ hall hmem
    exact h
  · rintro ⟨⟨ts', ht', hall⟩, hnd, hdecl⟩
    obtain rfl : ts = ts' := Option.some.inj (ht.symm.trans ht')
    exact ⟨((List.forall₂_and_left _ _).2 ⟨hdecl, hall.flip⟩).flip, hnd⟩

theorem Timer.ofMember_eq_ok_iff {m : Key × Token} {t : Timer} :
    Timer.ofMember m = .ok t ↔ IsTimer m t := by
  simp only [Timer.ofMember, bind_eq_ok, asNumber_eq_ok_iff, checkPositive_eq_ok, pure_eq_ok]
  constructor
  · rintro ⟨x, hx, _, ⟨hpos, rfl⟩, rfl⟩
    exact ⟨rfl, hx, hpos⟩
  · rintro ⟨hname, hx, hpos⟩
    exact ⟨_, hx, _, ⟨hpos, rfl⟩, by rw [← hname]⟩

theorem Timer.ofMembers_eq_ok_iff {ms : Members} {ts : List Timer} (hms : ms.DistinctKeys) :
    Timer.ofMembers ms = .ok ts ↔ List.Forall₂ IsTimer ms ts :=
  readDistinct_named_eq_ok_iff hms (fun _ _ h => h.name) fun _ _ _ => Timer.ofMember_eq_ok_iff

theorem Argument.ofMembers_eq_ok_iff {ms : Members} {args : List Argument} :
    Argument.ofMembers ms = .ok args ↔ List.Forall₂ IsArgument ms args := by
  refine mapM_eq_ok_iff ?_
  intro m _ a
  simp only [bind_eq_ok, asString_eq_ok_iff, pure_eq_ok]
  constructor
  · rintro ⟨type, htype, rfl⟩
    exact ⟨rfl, htype⟩
  · rintro ⟨hname, htype⟩
    exact ⟨_, htype, by rw [← hname]⟩

/-- The states that arm an event, with an empty list for none. -/
theorem afterStates_eq_ok_iff {ms : Members} {o : Option (List String)} (hms : ms.DistinctKeys) :
    (∃ ts, ms.optional "after_states" (·.asItems "after_states") = .ok ts ∧
      ns.afterStates (ts.getD []) = .ok o) ↔
    ∃ names, Optional ms "after_states" (IsNames ns.states) names ∧
      o = names.filter fun names => !names.isEmpty := by
  refine Members.optional_getD_eq_ok_iff ns.afterStates
    (Option.filter fun names => !names.isEmpty) hms rfl ?_
  intro t _ o
  simp only [asItems_eq_ok_iff, Names.afterStates, bind_eq_ok, pure_eq_ok]
  have ho : ∀ names : List String, (if names.isEmpty then none else some names) =
      (some names).filter fun names => !names.isEmpty := by
    intro names
    cases names <;> rfl
  constructor
  · rintro ⟨ts, hts, names, hnames, rfl⟩
    exact ⟨names, (namesOfItems_eq_ok_iff (fun _ _ _ => checkState_eq_ok) hts).1 hnames, ho names⟩
  · rintro ⟨names, hnames, rfl⟩
    obtain ⟨ts, hts, -⟩ := hnames.items
    exact ⟨ts, hts, names,
      (namesOfItems_eq_ok_iff (fun _ _ _ => checkState_eq_ok) hts).2 hnames, ho names⟩

/-- The events are read before any event is declared, but all states are declared by then. -/
theorem event_eq_ok_iff {ns' : Names} {m : Key × Token} {e : Event} (hm : m.2.distinctKeys)
    (hns : ns'.states = ns.states) : ns.event m = .ok e ↔ IsEvent ns' m e := by
  simp only [Names.event, bind_eq_ok, pure_eq_ok, asMembers_eq_ok_iff]
  constructor
  · rintro ⟨ms, hms, ts, hts, afterStates, hafter, args, hargs, args', hargs', once, honce, u,
      honly, rfl⟩
    have hkeys := Token.distinctKeys_of_members hm hms
    refine ⟨rfl, ms, hms, Members.onlyKnown_eq_ok_iff.1 honly, ?_, ?_, once, ?_, rfl⟩
    · rw [hns]
      exact (afterStates_eq_ok_iff hkeys).1 ⟨ts, hts, hafter⟩
    · exact (optional_members_eq_ok_iff hkeys fun _ _ _ => Argument.ofMembers_eq_ok_iff).1
        ⟨args, hargs, hargs'⟩
    · exact (Members.optionalBool_eq_ok_iff hkeys).1 honce
  · rintro ⟨hname, ms, hms, honly, hafter, hargs, once, honce, heq⟩
    have hkeys := Token.distinctKeys_of_members hm hms
    rw [hns] at hafter
    obtain ⟨ts, hts, hafter⟩ := (afterStates_eq_ok_iff hkeys).2 hafter
    obtain ⟨args, hargs, hargs'⟩ :=
      (optional_members_eq_ok_iff hkeys fun _ _ _ => Argument.ofMembers_eq_ok_iff).2 hargs
    refine ⟨ms, hms, ts, hts, _, hafter, args, hargs, _, hargs', once,
      (Members.optionalBool_eq_ok_iff hkeys).2 honce, (), Members.onlyKnown_eq_ok_iff.2 honly, ?_⟩
    rw [← hname, ← heq]

theorem eventList_eq_ok_iff {ns' : Names} {ms : Members} {es : List Event} (hms : ms.DistinctKeys)
    (hns : ns'.states = ns.states) :
    ns.eventList ms = .ok es ↔ List.Forall₂ (IsEvent ns') ms es :=
  readDistinct_named_eq_ok_iff hms (fun _ _ h => h.name)
    fun m hm _ => event_eq_ok_iff (hms.2 m hm) hns

/-! ## Targets and edges -/

theorem target_eq_ok_iff {t : Token} {target : Target} :
    ns.target t = .ok target ↔ IsTarget ns t target := by
  constructor
  · intro h
    unfold Names.target at h
    split at h
    · cases h
      exact .noChange
    · obtain ⟨name, hname, rfl⟩ := map_eq_ok.1 h
      obtain ⟨hdecl, rfl⟩ := checkState_eq_ok.1 hname
      exact .state hdecl
    · cases h
      exact .failure
    · cases h
    · cases h
  · rintro (_ | hdecl | _)
    · rfl
    · exact map_eq_ok.2 ⟨_, checkState_eq_ok.2 ⟨hdecl, rfl⟩, rfl⟩
    · rfl

theorem choiceTarget_eq_ok_iff {t : Token} {target : Target} (ht : t.distinctKeys) :
    ns.choiceTarget t = .ok target ↔ IsChoiceTarget ns t target := by
  cases t
  case object s ms =>
    have hms := Token.distinctKeys_of_members ht rfl
    simp only [Names.choiceTarget, bind_eq_ok, pure_eq_ok, target_eq_ok_iff,
      Members.required_eq_ok_iff hms, Members.onlyKnown_eq_ok_iff]
    constructor
    · rintro ⟨v, hv, target, htarget, u, honly, rfl⟩
      exact .object honly hv htarget
    · rintro (⟨⟨⟩⟩ | ⟨honly, hv, htarget⟩)
      exact ⟨_, hv, _, htarget, (), honly, rfl⟩
  all_goals
    simp only [Names.choiceTarget, target_eq_ok_iff]
    refine ⟨.plain, ?_⟩
    rintro ⟨h⟩
    exact h

/-- The choices of a decision; an empty one is refused wherever it stands. -/
theorem choices_eq_ok_iff {owner : String} {t : Token} {choices : List Choice}
    (ht : t.distinctKeys) : ns.choices owner t = .ok choices ↔
      IsObjectOf (IsChoice ns) t choices ∧ choices ≠ [] := by
  have hchoice : ∀ ms : Members, ms.DistinctKeys → ∀ choices : List Choice,
      (ms.mapM fun m => return ⟨m.1.name, ← ns.choiceTarget m.2⟩ : Loaded _) = .ok choices ↔
        List.Forall₂ (IsChoice ns) ms choices := by
    intro ms hms choices
    refine mapM_eq_ok_iff ?_
    intro m hm c
    simp only [bind_eq_ok, pure_eq_ok, choiceTarget_eq_ok_iff (hms.2 m hm)]
    constructor
    · rintro ⟨target, htarget, rfl⟩
      exact ⟨rfl, htarget⟩
    · rintro ⟨hname, htarget⟩
      exact ⟨_, htarget, by rw [← hname]⟩
  -- there is a choice for each member, so an object without members is an empty decision
  have hempty : ∀ {ms : Members}, List.Forall₂ (IsChoice ns) ms choices →
      (¬ms.isEmpty ↔ choices ≠ []) := by
    intro ms h
    cases h <;> simp
  simp only [Names.choices, bind_eq_ok, guard_eq_ok, asMembers_eq_ok_iff, IsObjectOf]
  constructor
  · rintro ⟨ms, hms, hne, hread⟩
    rw [hchoice ms (Token.distinctKeys_of_members ht hms)] at hread
    exact ⟨⟨ms, hms, hread⟩, (hempty hread).1 hne⟩
  · rintro ⟨⟨ms, hms, hall⟩, hne⟩
    exact ⟨ms, hms, (hempty hall).2 hne,
      (hchoice ms (Token.distinctKeys_of_members ht hms) choices).2 hall⟩

theorem CallbackShape.ofToken_eq_ok_iff {t : Token} {shape : CallbackShape} :
    CallbackShape.ofToken t = .ok shape ↔ t.string? = some shape.text := by
  simp only [CallbackShape.ofToken, bind_eq_ok, asString_eq_ok_iff]
  constructor
  · rintro ⟨name, hname, h⟩
    split at h
    · next shape' hshape =>
      obtain rfl := pure_eq_ok.1 h
      have htext : shape'.text = name := by simpa using List.find?_some hshape
      rw [hname, htext]
    · simp at h
  · intro h
    exact ⟨_, h, by simp [pure_eq_ok]⟩

theorem CallbackShape.listOfToken_eq_ok_iff {t : Token} {shapes : List CallbackShape} :
    CallbackShape.listOfToken t = .ok shapes ↔ IsCallbacks t shapes := by
  have hlist : ∀ ts, readDistinct CallbackShape.ofToken id
      (fun t shape => (LoadFault.duplicateCallbackShape shape).at t) (fun _ shape => .ok shape) []
      ts = .ok shapes ↔
        List.Forall₂ (fun t shape => t.string? = some shape.text) ts shapes ∧ shapes.Nodup := by
    intro ts
    simp only [readDistinct_ok_eq_ok, CallbackShape.ofToken_eq_ok_iff, List.map_id]
  constructor
  · intro h
    unfold CallbackShape.listOfToken at h
    split at h
    · cases h
      exact .none
    · cases h
      exact .eventOnly
    · obtain ⟨shape, hshape, rfl⟩ := map_eq_ok.1 h
      exact .one (Option.some.inj (CallbackShape.ofToken_eq_ok_iff.1 hshape))
    · obtain ⟨hall, hnd⟩ := (hlist _).1 h
      exact .many hall hnd
    · cases h
  · rintro (_ | _ | rfl | ⟨hall, hnd⟩)
    · rfl
    · rfl
    · exact map_eq_ok.2 ⟨_, CallbackShape.ofToken_eq_ok_iff.2 rfl, rfl⟩
    · exact (hlist _).2 ⟨hall, hnd⟩

theorem callbacksOfToken_eq_ok_iff {invoker : String} {targets : Targets} {t : Token}
    {shapes : List CallbackShape} : callbacksOfToken invoker targets t = .ok shapes ↔
      IsCallbacks t shapes ∧ ∀ shape ∈ shapes, shape.needsTarget → NamesState targets := by
  have hfind : ∀ shapes : List CallbackShape,
      shapes.find? (fun shape => shape.needsTarget && !targets.namesState) = none ↔
        ∀ shape ∈ shapes, shape.needsTarget → NamesState targets := by
    intro shapes
    simp [List.find?_eq_none, NamesState, ← namesState_iff]
  simp only [callbacksOfToken, bind_eq_ok, CallbackShape.listOfToken_eq_ok_iff]
  constructor
  · rintro ⟨shapes', hshapes, h⟩
    split at h
    · simp at h
    · next hnone =>
      obtain rfl := pure_eq_ok.1 h
      exact ⟨hshapes, (hfind _).1 hnone⟩
  · rintro ⟨hshapes, hneeds⟩
    exact ⟨shapes, hshapes, by rw [(hfind shapes).2 hneeds]; rfl⟩

theorem edgeTargets_eq_ok_iff {kind : InvokerKind} {invoker : String} {t : Token} {ms : Members}
    {targets : Targets} (hms : ms.DistinctKeys) :
    ns.edgeTargets kind invoker t ms = .ok targets ↔ IsTargets ns kind ms targets := by
  constructor
  · intro h
    unfold Names.edgeTargets at h
    split at h
    · next state hstate hno =>
      obtain ⟨target, htarget, rfl⟩ := map_eq_ok.1 h
      exact .single ((Members.get?_eq_some_iff hms).1 hstate) (Members.get?_eq_none_iff.1 hno)
        (target_eq_ok_iff.1 htarget)
    · next v hno hv =>
      cases kind with
      | timer => cases h
      | event =>
        obtain ⟨choices, hchoices, rfl⟩ := map_eq_ok.1 h
        rw [Members.get?_eq_some_iff hms] at hv
        obtain ⟨hall, hne⟩ :=
          (choices_eq_ok_iff (Members.distinctKeys_of_has hms hv)).1 hchoices
        exact .decision rfl (Members.get?_eq_none_iff.1 hno) hv hall hne
    · cases h
  · rintro (⟨hstate, hno, htarget⟩ | ⟨rfl, hno, hv, hall, hne⟩)
    · rw [Names.edgeTargets, (Members.get?_eq_some_iff hms).2 hstate,
        Members.get?_eq_none_iff.2 hno]
      exact map_eq_ok.2 ⟨_, target_eq_ok_iff.2 htarget, rfl⟩
    · rw [Names.edgeTargets, (Members.get?_eq_some_iff hms).2 hv, Members.get?_eq_none_iff.2 hno]
      exact map_eq_ok.2
        ⟨_, (choices_eq_ok_iff (Members.distinctKeys_of_has hms hv)).2 ⟨hall, hne⟩, rfl⟩

/-- The callbacks of an edge, if it has any. -/
theorem optionalCallbacks_eq_ok_iff {invoker key : String} {targets : Targets} {ms : Members}
    {callbacks : Option (List CallbackShape)} (hms : ms.DistinctKeys) :
    ms.optional key (callbacksOfToken invoker targets) = .ok callbacks ↔
      Optional ms key IsCallbacks callbacks ∧
        ∀ shape ∈ callbacks.getD [], shape.needsTarget → NamesState targets := by
  rw [Members.optional_eq_ok_iff hms fun _ _ _ => callbacksOfToken_eq_ok_iff, optional_and_iff]
  cases callbacks <;> simp

theorem edge_eq_ok_iff {kind : InvokerKind} {invoker : String} {t : Token} {e : Edge}
    (ht : t.distinctKeys) : ns.edge kind invoker t = .ok e ↔
      e.invoker = invoker ∧ e.kind = kind ∧
        IsEdgeValue ns kind t e.targets e.callbacks e.comment := by
  cases t
  case object s ms =>
    have hms := Token.distinctKeys_of_members ht rfl
    simp only [Names.edge, bind_eq_ok, pure_eq_ok, edgeTargets_eq_ok_iff hms,
      optionalCallbacks_eq_ok_iff hms, Members.optionalString_eq_ok_iff hms,
      Members.onlyKnown_eq_ok_iff]
    constructor
    · rintro ⟨targets, htargets, callbacks, ⟨hcallbacks, hneeds⟩, comment, hcomment, u, honly, rfl⟩
      exact ⟨rfl, rfl, .object honly htargets hcallbacks hneeds hcomment⟩
    · obtain ⟨invoker', kind', targets, callbacks, comment⟩ := e
      rintro ⟨rfl, rfl, ⟨⟨⟩⟩ | ⟨honly, htargets, hcallbacks, hneeds, hcomment⟩⟩
      exact ⟨_, htargets, _, ⟨hcallbacks, hneeds⟩, _, hcomment, (), honly, rfl⟩
  all_goals
    simp only [Names.edge, map_eq_ok, target_eq_ok_iff]
    constructor
    · rintro ⟨target, htarget, rfl⟩
      exact ⟨rfl, rfl, .plain htarget⟩
    · obtain ⟨invoker', kind', targets, callbacks, comment⟩ := e
      rintro ⟨rfl, rfl, ⟨htarget⟩⟩
      exact ⟨_, htarget, rfl⟩

theorem edges_eq_ok_iff {kind : InvokerKind} {ms : Members} {es : List Edge}
    (hms : ms.DistinctKeys) :
    ns.edges kind ms = .ok es ↔ List.Forall₂ (IsEdge ns kind) ms es := by
  have hname : ∀ (m : Key × Token) (name : String) (e : Edge), ns.edge kind name m.2 = .ok e →
      e.invoker = id name := fun _ _ _ => invoker_of_edge
  refine readDistinct_members_eq_ok_iff hms hname (fun _ _ h => h.invoker) ?_
  intro m hm e
  simp only [checkInvoker_eq_ok, edge_eq_ok_iff (hms.2 m hm)]
  constructor
  · rintro ⟨name, ⟨hdecl, rfl⟩, hinvoker, hkind, hvalue⟩
    exact ⟨hinvoker, hkind, hdecl, hvalue⟩
  · rintro ⟨hinvoker, hkind, hdecl, hvalue⟩
    exact ⟨_, ⟨hdecl, rfl⟩, hinvoker, hkind, hvalue⟩

/-! ## Timers of states -/

theorem positivePart_eq_ok_iff {ms : Members} {key name : String} {rule : NumberRule}
    {o : Option Float} (hms : ms.DistinctKeys) :
    rulePart ms key (checkPositive name rule) = .ok o ↔
      OptionalOrNull ms key (fun t x => IsRuleNumber true t x ∧ 0 < x) o := by
  refine Members.optionalOrNull_eq_ok_iff hms ?_
  intro t x
  simp only [bind_eq_ok, asNumber_eq_ok_iff, checkPositive_eq_ok, IsRuleNumber]
  constructor
  · rintro ⟨_, hx, ⟨hfinite, hpos⟩, rfl⟩
    exact ⟨⟨hx, fun _ => hfinite⟩, hpos⟩
  · rintro ⟨⟨hx, hfinite⟩, hpos⟩
    exact ⟨_, hx, ⟨hfinite trivial, hpos⟩, rfl⟩

theorem finitePart_eq_ok_iff {ms : Members} {key name : String} {o : Option Float}
    (hms : ms.DistinctKeys) :
    rulePart ms key (checkFinite name) = .ok o ↔
      OptionalOrNull ms key (IsRuleNumber true) o := by
  refine Members.optionalOrNull_eq_ok_iff hms ?_
  intro t x
  simp only [bind_eq_ok, asNumber_eq_ok_iff, checkFinite_eq_ok, IsRuleNumber]
  constructor
  · rintro ⟨_, hx, hfinite, rfl⟩
    exact ⟨hx, fun _ => hfinite⟩
  · rintro ⟨hx, hfinite⟩
    exact ⟨_, hx, hfinite trivial, rfl⟩

theorem finite_of_isRuleNumber {ms : Members} {key : String} {o : Option Float}
    (h : OptionalOrNull ms key (IsRuleNumber true) o) : ∀ x ∈ o, x.isFinite := by
  rintro x ⟨⟩
  obtain _ | _ | ⟨-, -, -, hfinite⟩ := h
  exact hfinite rfl

theorem DelayRule.ofToken_eq_ok_iff {timer : String} {t : Token} {r : DelayRule Float}
    (ht : t.distinctKeys) : DelayRule.ofToken timer t = .ok r ↔
      ∃ ms, t.members? = some ms ∧ RuleFields true ms r := by
  constructor
  · intro h
    have hwf := DelayRule.of_ofToken h
    simp only [DelayRule.ofToken, bind_eq_ok, guard_eq_ok, asMembers_eq_ok_iff] at h
    obtain ⟨ms, hms, set, hset, multiplier, hmultiplier, increment, hincrement, min, hmin, max,
      hmax, u, honly, hne, h⟩ := h
    have hkeys := Token.distinctKeys_of_members ht hms
    -- the check of the bounds refuses the rule or leaves it as it is
    have hrule : r = { set, multiplier, increment, min, max } := by
      split at h
      · split at h
        · simp at h
        · exact (pure_eq_ok.1 h).symm
      · exact (pure_eq_ok.1 h).symm
    subst hrule
    exact ⟨ms, hms, Members.onlyKnown_eq_ok_iff.1 honly, (positivePart_eq_ok_iff hkeys).1 hset,
      (positivePart_eq_ok_iff hkeys).1 hmultiplier, (finitePart_eq_ok_iff hkeys).1 hincrement,
      (finitePart_eq_ok_iff hkeys).1 hmin, (finitePart_eq_ok_iff hkeys).1 hmax, hne,
      hwf.min_le_max⟩
  · rintro ⟨ms, hms, hr⟩
    have hkeys := Token.distinctKeys_of_members ht hms
    simp only [DelayRule.ofToken, bind_eq_ok, guard_eq_ok, asMembers_eq_ok_iff]
    refine ⟨ms, hms, r.set, (positivePart_eq_ok_iff hkeys).2 hr.set,
      r.multiplier, (positivePart_eq_ok_iff hkeys).2 hr.multiplier,
      r.increment, (finitePart_eq_ok_iff hkeys).2 hr.increment,
      r.min, (finitePart_eq_ok_iff hkeys).2 hr.min, r.max, (finitePart_eq_ok_iff hkeys).2 hr.max,
      (), Members.onlyKnown_eq_ok_iff.2 hr.onlyHas, hr.ne_unchanged, ?_⟩
    split
    · next least most hleast hmost =>
      -- only of finite bounds does `least ≤ most` say that `most < least` fails
      have hlt := (Number.float_not_lt (finite_of_isRuleNumber hr.min least hleast)
        (finite_of_isRuleNumber hr.max most hmost)).mpr (hr.min_le_max least hleast most hmost)
      rw [if_neg hlt]
      rfl
    · rfl

theorem timerStart_eq_ok_iff {m : Key × Token} {start : TimerStart} (hm : m.2.distinctKeys) :
    ns.timerStart m = .ok start ↔ IsStart true ns m start := by
  obtain ⟨k, t⟩ := m
  simp only [Names.timerStart, guard_eq_ok, not_not]
  cases t
  case null s =>
    simp only [Token.isNull, if_true, pure_eq_ok]
    constructor
    · rintro ⟨hdecl, rfl⟩
      exact .plain hdecl
    · rintro ⟨hdecl⟩
      exact ⟨hdecl, rfl⟩
  case object s ms =>
    simp only [Token.isNull, Bool.false_eq_true, if_false, bind_eq_ok, pure_eq_ok,
      DelayRule.ofToken_eq_ok_iff hm]
    constructor
    · rintro ⟨hdecl, r, ⟨_, ⟨⟩, hr⟩, rfl⟩
      exact .rule hdecl hr
    · rintro (_ | ⟨hdecl, hr⟩)
      exact ⟨hdecl, _, ⟨_, rfl, hr⟩, rfl⟩
  all_goals
    simp only [Token.isNull, Bool.false_eq_true, if_false, bind_eq_ok, pure_eq_ok,
      DelayRule.ofToken_eq_ok_iff hm]
    constructor
    · rintro ⟨-, r, ⟨_, ⟨⟩, -⟩, -⟩
    · rintro ⟨⟩

theorem startTimers_eq_ok_iff {t : Token} {starts : List TimerStart} (ht : t.distinctKeys) :
    ns.startTimers t = .ok starts ↔ IsStarts true ns t starts := by
  have hnames : ∀ {ts : List Token} {names : List String}, t.items? = some ts →
      (namesOfItems "timer name" ns.checkTimer .startedTimer ts = .ok names ↔
        IsNames ns.timers t names) :=
    namesOfItems_eq_ok_iff fun _ _ _ => checkTimer_eq_ok
  have hrules : ∀ {ms : Members}, t.members? = some ms →
      (ms.mapM ns.timerStart = .ok starts ↔ List.Forall₂ (IsStart true ns) ms starts) := by
    intro ms hms
    refine mapM_eq_ok_iff ?_
    intro m hm start
    exact timerStart_eq_ok_iff ((Token.distinctKeys_of_members ht hms).2 m hm)
  constructor
  · intro h
    unfold Names.startTimers at h
    split at h
    · simp only [bind_eq_ok, pure_eq_ok] at h
      obtain ⟨names, hread, rfl⟩ := h
      exact .names ((hnames rfl).1 hread)
    · next s ms => exact .rules ⟨ms, rfl, (hrules rfl).1 h⟩
    · cases h
  · rintro (h | ⟨ms, hms, hall⟩)
    · obtain ⟨ts, hts, -⟩ := h.items
      have hread := (hnames hts).2 h
      cases t <;> cases hts
      simp only [Names.startTimers, bind_eq_ok, pure_eq_ok]
      exact ⟨_, hread, rfl⟩
    · have hread := (hrules hms).2 hall
      cases t <;> cases hms
      exact hread

/-- The timers that a state stops, if it stops any. -/
theorem stopTimers_eq_ok_iff {ms : Members} {stops : List String} (hms : ms.DistinctKeys) :
    (∃ o, ms.optional "stop_timers" (·.asItems "stop_timers") = .ok o ∧
      ns.stopTimers (o.getD []) = .ok stops) ↔
    ∃ o, Optional ms "stop_timers" (IsNames ns.timers) o ∧ stops = o.getD [] := by
  refine Members.optional_getD_eq_ok_iff ns.stopTimers (fun o => o.getD []) hms rfl ?_
  intro t _ stops
  simp only [asItems_eq_ok_iff, Names.stopTimers, Option.getD_some, exists_eq_right']
  constructor
  · rintro ⟨ts, hts, h⟩
    exact (namesOfItems_eq_ok_iff (fun _ _ _ => checkTimer_eq_ok) hts).1 h
  · intro h
    obtain ⟨ts, hts, -⟩ := h.items
    exact ⟨ts, hts, (namesOfItems_eq_ok_iff (fun _ _ _ => checkTimer_eq_ok) hts).2 h⟩

/-! ## States -/

theorem onEnter_eq_ok_iff {t : Token} {enter : Option OnEnter × Option (List Choice)}
    (ht : t.distinctKeys) : ns.onEnter t = .ok enter ↔ IsOnEnter true ns t enter := by
  cases t
  case object s ms =>
    have hms := Token.distinctKeys_of_members ht rfl
    simp only [Names.onEnter, bind_eq_ok, pure_eq_ok, Members.optionalString_eq_ok_iff hms,
      Members.optional_eq_ok_iff hms fun _ ht _ => choices_eq_ok_iff ht, optional_and_iff,
      Members.onlyKnown_eq_ok_iff]
    constructor
    · rintro ⟨comment, hcomment, choices, ⟨hchoices, hne⟩, u, honly, rfl⟩
      exact .object honly hcomment hchoices fun _ => hne
    · rintro (_ | _ | _ | ⟨honly, hcomment, hchoices, hne⟩)
      exact ⟨_, hcomment, _, ⟨hchoices, hne rfl⟩, (), honly, rfl⟩
  case bool s b =>
    cases b
    · constructor
      · rintro ⟨⟩
        exact .no
      · rintro ⟨⟩
        rfl
    · constructor
      · rintro ⟨⟩
        exact .yes
      · rintro ⟨⟩
        rfl
  case string s c =>
    constructor
    · rintro ⟨⟩
      exact .comment
    · rintro ⟨⟩
      rfl
  all_goals exact ⟨nofun, nofun⟩

theorem ShapeFields.check_eq_ok_iff {f : ShapeFields} {state : String} {t : Token} {u : Unit}
    {shape : Shape} : f.check state t = .ok u ∧ f.shape = shape ↔
      IsShape f.eventEdges f.timerEdges f.nextState f.choices f.isFinal shape := by
  obtain ⟨timerEdges, eventEdges, next, choices, isFinal⟩ := f
  constructor
  · rintro ⟨h, rfl⟩
    -- every combination of fields but those that give one shape is refused
    cases timerEdges <;> cases eventEdges <;> cases next <;> cases choices <;> cases isFinal <;>
      cases h <;> constructor <;> simp
  · rintro (h | _ | _ | _)
    · simp [check, present, ShapeFields.shape, h.symm]
    · exact ⟨rfl, rfl⟩
    · exact ⟨rfl, rfl⟩
    · exact ⟨rfl, rfl⟩

/-- The edges of a state for events or for timers, if it has the member for them. -/
theorem optionalEdges_eq_ok_iff {kind : InvokerKind} {ms : Members} {key : String}
    {es : Option (List Edge)} (hms : ms.DistinctKeys) :
    ms.optional key (fun t => do ns.edges kind (← t.asMembers key)) = .ok es ↔
      Optional ms key (IsObjectOf (IsEdge ns kind)) es := by
  refine Members.optional_eq_ok_iff hms ?_
  intro t ht es
  rw [bind_eq_ok]
  exact asMembers_bind_eq_ok_iff ht fun _ hms _ => edges_eq_ok_iff hms

theorem nextState_eq_ok_iff {ms : Members} {next : Option String} (hms : ms.DistinctKeys) :
    (ms.optionalOrNull "next_state" fun t => do
      ns.checkState .nextState t (← t.asString "next_state")) = .ok next ↔
    OptionalOrNull ms "next_state" (fun t name => t.string? = some name ∧ name ∈ ns.states)
      next := by
  refine Members.optionalOrNull_eq_ok_iff hms ?_
  intro t name
  simp only [bind_eq_ok, asString_eq_ok_iff, checkState_eq_ok]
  constructor
  · rintro ⟨_, hname, hdecl, rfl⟩
    exact ⟨hname, hdecl⟩
  · rintro ⟨hname, hdecl⟩
    exact ⟨name, hname, hdecl, rfl⟩

theorem state_eq_ok_iff {m : Key × Token} {s : State} (hm : m.2.distinctKeys) :
    ns.state m = .ok s ↔ IsState true ns m s := by
  simp only [Names.state, bind_eq_ok, pure_eq_ok, asMembers_eq_ok_iff]
  constructor
  · rintro ⟨ms, hms, starts, hstarts, items, hitems, stops, hstops, _, hclash, enter, henter,
      timerEdges, htimers, eventEdges, hevents, next, hnext, final, hfinal, _, hshape, _, honly,
      rfl⟩
    have hkeys := Token.distinctKeys_of_members hm hms
    refine ⟨rfl, ms, hms, Members.onlyKnown_eq_ok_iff.1 honly, ⟨starts, ?_, rfl⟩,
      (stopTimers_eq_ok_iff hkeys).1 ⟨items, hitems, hstops⟩, ?_,
      enter, timerEdges, eventEdges, next, final, ?_, (optionalEdges_eq_ok_iff hkeys).1 htimers,
      (optionalEdges_eq_ok_iff hkeys).1 hevents, (nextState_eq_ok_iff hkeys).1 hnext,
      (Members.optionalBool_eq_ok_iff hkeys).1 hfinal, rfl,
      ShapeFields.check_eq_ok_iff.1 ⟨hshape, rfl⟩⟩
    · exact (Members.optional_eq_ok_iff hkeys fun _ ht _ => startTimers_eq_ok_iff ht).1 hstarts
    · intro start hstart hstop
      exact checkStops_eq_ok.1 hclash _ hstop start hstart rfl
    · exact (Members.optional_eq_ok_iff hkeys fun _ ht _ => onEnter_eq_ok_iff ht).1 henter
  · rintro ⟨hname, ms, hms, honly, ⟨starts, hstarts, hs⟩, hstops, hboth, enter, timerEdges,
      eventEdges, next, final, henter, htimers, hevents, hnext, hfinal, honEnter, hshape⟩
    have hkeys := Token.distinctKeys_of_members hm hms
    obtain ⟨items, hitems, hstops⟩ := (stopTimers_eq_ok_iff hkeys).2 hstops
    have hclash : checkStops m.1.name m.2 (starts.getD []) s.stopTimers = .ok () := by
      rw [checkStops_eq_ok, ← hs]
      rintro _ hstop start hstart rfl
      exact hboth start hstart hstop
    -- the shape was given by the format, and only now by the fields that the loader looks at
    obtain ⟨hcheck, hshape⟩ := (ShapeFields.check_eq_ok_iff (f := ⟨timerEdges, eventEdges, next,
      (enter.getD (none, none)).2, final.getD false⟩) (t := m.2) (u := ())).2 hshape
    refine ⟨ms, hms, starts, ?_, items, hitems, _, hstops, (), hclash, enter, ?_, timerEdges,
      (optionalEdges_eq_ok_iff hkeys).2 htimers, eventEdges,
      (optionalEdges_eq_ok_iff hkeys).2 hevents, next, (nextState_eq_ok_iff hkeys).2 hnext, final,
      (Members.optionalBool_eq_ok_iff hkeys).2 hfinal, (), hcheck, (),
      Members.onlyKnown_eq_ok_iff.2 honly, ?_⟩
    · exact (Members.optional_eq_ok_iff hkeys fun _ ht _ => startTimers_eq_ok_iff ht).2 hstarts
    · exact (Members.optional_eq_ok_iff hkeys fun _ ht _ => onEnter_eq_ok_iff ht).2 henter
    · rw [← hname, ← hs, ← honEnter, hshape]

/-! ## Machines -/

theorem stateNames_eq_ok_iff {ms : Members} {names : List String} (hms : ms.DistinctKeys) :
    stateNames ms = .ok names ↔ names = ms.map (·.1.name) := by
  rw [eq_comm (a := names), ← List.forall₂_eq_eq_eq, List.forall₂_map_left_iff]
  exact readDistinct_named_eq_ok_iff hms (fun _ _ h => h.symm) fun m _ name => by simp

theorem Format.Has.distinctKeys_of_members {ms ms' : Members} {key : String} {t : Token}
    (h : Has ms key t) (hms : ms.DistinctKeys) (ht : t.members? = some ms') : ms'.DistinctKeys :=
  Token.distinctKeys_of_members (Members.distinctKeys_of_has hms h) ht

theorem Machine.specifies_of_ofToken {t : Token} {m : Machine} (ht : t.distinctKeys)
    (h : Machine.ofToken t = .ok m) : Specifies true t m := by
  simp only [Machine.ofToken, bind_eq_ok, pure_eq_ok, asMembers_eq_ok_iff] at h
  obtain ⟨ms, hms, eventMembers, hevents, stateMembers, hstates, timerMembers, htimers, timers,
    htimers', names, hnames, events, hevents', states, hstates', ⟨start, token⟩, hstart, start',
    hcheck, _, honly, rfl⟩ := h
  have hkeys := Token.distinctKeys_of_members ht hms
  obtain ⟨te, hte, hem⟩ := (Members.requiredObject_eq_ok_iff hkeys).1 hevents
  obtain ⟨ts, hts, hsm⟩ := (Members.requiredObject_eq_ok_iff hkeys).1 hstates
  have hstateKeys := hts.distinctKeys_of_members hkeys hsm
  have hstates' := (mapM_eq_ok_iff fun m hm _ => state_eq_ok_iff (hstateKeys.2 m hm)).1 hstates'
  -- the states were read with the names that the machine declares
  obtain rfl : states.map State.name = names := by
    rw [(stateNames_eq_ok_iff hstateKeys).1 hnames]
    exact map_eq_map_of_forall₂ (fun _ _ hs => hs.name) hstates'
  obtain ⟨ht, hstart⟩ := (Members.requiredString_eq_ok_iff hkeys).1 hstart
  obtain ⟨hdecl, rfl⟩ := checkState_eq_ok.1 hcheck
  have htimers := (optional_members_eq_ok_iff hkeys fun _ hms _ =>
    Timer.ofMembers_eq_ok_iff hms).1 ⟨timerMembers, htimers, htimers'⟩
  refine ⟨ms, hms, Members.onlyKnown_eq_ok_iff.1 honly, htimers, ⟨te, hte, _, hem, ?_⟩,
    ⟨ts, hts, _, hsm, hstates'⟩, ⟨token, ht, hstart⟩, hdecl⟩
  exact (eventList_eq_ok_iff (hte.distinctKeys_of_members hkeys hem) rfl).1 hevents'

theorem Machine.ofToken_of_specifies {t : Token} {m : Machine} (ht : t.distinctKeys)
    (h : Specifies true t m) : Machine.ofToken t = .ok m := by
  obtain ⟨ms, hms, honly, htimers, ⟨te, hte, eventMembers, hem, hevents⟩,
    ⟨ts, hts, stateMembers, hsm, hstates⟩, ⟨token, htoken, hstart⟩, hdecl⟩ := h
  have hkeys := Token.distinctKeys_of_members ht hms
  have hstateKeys := hts.distinctKeys_of_members hkeys hsm
  obtain ⟨timerMembers, htimers, htimers'⟩ := (optional_members_eq_ok_iff hkeys fun _ hms _ =>
    Timer.ofMembers_eq_ok_iff hms).2 htimers
  have hnames := (stateNames_eq_ok_iff hstateKeys).2
    (map_eq_map_of_forall₂ (fun _ _ hs => hs.name) hstates)
  simp only [Machine.ofToken, bind_eq_ok, pure_eq_ok, asMembers_eq_ok_iff]
  refine ⟨ms, hms, eventMembers, (Members.requiredObject_eq_ok_iff hkeys).2 ⟨te, hte, hem⟩,
    stateMembers, (Members.requiredObject_eq_ok_iff hkeys).2 ⟨ts, hts, hsm⟩, timerMembers,
    htimers, m.timers, htimers', m.states.map State.name, hnames, m.events, ?_, m.states, ?_,
    ⟨m.startState, token⟩, (Members.requiredString_eq_ok_iff hkeys).2 ⟨htoken, hstart⟩,
    m.startState, checkState_eq_ok.2 ⟨hdecl, rfl⟩, (), Members.onlyKnown_eq_ok_iff.2 honly, rfl⟩
  · refine (eventList_eq_ok_iff (hte.distinctKeys_of_members hkeys hem) ?_).2 hevents
    rfl
  · exact (mapM_eq_ok_iff fun m hm _ => state_eq_ok_iff (hstateKeys.2 m hm)).2 hstates

/-- The loader reads the tree of a specification as the machine that it specifies, and it refuses
all other trees. -/
theorem Machine.ofToken_eq_ok_iff_specifies {t : Token} {m : Machine} (ht : t.distinctKeys) :
    Machine.ofToken t = .ok m ↔ Specifies true t m :=
  ⟨Machine.specifies_of_ofToken ht, Machine.ofToken_of_specifies ht⟩

/-- The door's specification repeats no key, so it follows the format. -/
theorem ofToken_eq_ok_iff_specifies_door :
    (Token.ofJson door).distinctKeys ∧ Specifies true (.ofJson door) doorMachine :=
  ⟨by decide, (Machine.ofToken_eq_ok_iff_specifies (by decide)).1 ofToken_door⟩

/-! ## What the description leaves out -/

/-- A state that decides where to go next and has nothing to choose from. -/
def undecided : Token := .object {}
  [(⟨"events", none⟩, .object {} []),
    (⟨"states", none⟩, .object {}
      [(⟨"A", none⟩, .object {} [(⟨"on_enter", none⟩, .object {}
        [(⟨"targets", none⟩, .object {} [])])])]),
    (⟨"start_state", none⟩, .string {} "A")]

/-- The machine that `undecided` describes. -/
def undecidedMachine : Machine where
  timers := []
  events := []
  states := [⟨"A", [], [], some ⟨none⟩, .passThrough (.decision [])⟩]
  startState := "A"

theorem specifies_undecided : Specifies false undecided undecidedMachine := by
  refine ⟨_, rfl, by decide, ⟨none, .absent (by decide), rfl⟩, ?_, ?_, ?_, by decide⟩
  · exact ⟨_, ⟨_, .head _, rfl⟩, _, rfl, .nil⟩
  · refine ⟨_, ⟨_, .tail _ (.head _), rfl⟩, _, rfl, .cons ⟨rfl, _, rfl, ?_⟩ .nil⟩
    refine ⟨by decide, ⟨none, .absent (by decide), rfl⟩, ⟨none, .absent (by decide), rfl⟩, nofun,
      some (some ⟨none⟩, some []), none, none, none, none, ?_, .absent (by decide),
      .absent (by decide), .absent (by decide), .absent (by decide), rfl, .decision⟩
    exact .present ⟨_, .head _, rfl⟩ (.object (by decide) (.absent (by decide))
      (.present ⟨_, .head _, rfl⟩ ⟨_, rfl, .nil⟩) nofun)
  · exact ⟨_, ⟨_, .tail _ (.tail _ (.head _)), rfl⟩, rfl⟩

/-- A state that makes the delay of a timer infinite. -/
def unbounded : Token := .object {}
  [(⟨"timers", none⟩, .object {} [(⟨"T", none⟩, .number {} 1)]),
    (⟨"events", none⟩, .object {} []),
    (⟨"states", none⟩, .object {}
      [(⟨"A", none⟩, .object {}
        [(⟨"start_timers", none⟩, .object {}
          [(⟨"T", none⟩, .object {} [(⟨"increment", none⟩, .number {} (1 / 0))])]),
        (⟨"final", none⟩, .bool {} true)])]),
    (⟨"start_state", none⟩, .string {} "A")]

/-- The machine that `unbounded` describes. -/
def unboundedMachine : Machine where
  timers := [⟨"T", 1⟩]
  events := []
  states := [⟨"A", [⟨"T", some ⟨none, none, some (1 / 0), none, none⟩⟩], [], none, .final⟩]
  startState := "A"

theorem specifies_unbounded : Specifies false unbounded unboundedMachine := by
  have hrule : RuleFields false [(⟨"increment", none⟩, .number {} (1 / 0))]
      ⟨none, none, some (1 / 0), none, none⟩ :=
    ⟨by decide, .absent (by decide), .absent (by decide),
      .present ⟨_, .head _, rfl⟩ rfl ⟨rfl, nofun⟩, .absent (by decide), .absent (by decide), nofun,
      nofun⟩
  refine ⟨_, rfl, by decide, ⟨some [⟨"T", 1⟩], ?_, rfl⟩, ?_, ?_, ?_, by decide⟩
  · exact .present ⟨_, .head _, rfl⟩ ⟨_, rfl, .cons ⟨rfl, rfl, by decide⟩ .nil⟩
  · exact ⟨_, ⟨_, .tail _ (.head _), rfl⟩, _, rfl, .nil⟩
  · refine ⟨_, ⟨_, .tail _ (.tail _ (.head _)), rfl⟩, _, rfl, .cons ⟨rfl, _, rfl, ?_⟩ .nil⟩
    refine ⟨by decide, ⟨some _, ?_, rfl⟩, ⟨none, .absent (by decide), rfl⟩, by decide,
      none, none, none, none, some true, .absent (by decide), .absent (by decide),
      .absent (by decide), .absent (by decide), .present ⟨_, .tail _ (.head _), rfl⟩ rfl, rfl,
      .final⟩
    exact .present ⟨_, .head _, rfl⟩ (.rules ⟨_, rfl, .cons (.rule (by decide) hrule) .nil⟩)
  · exact ⟨_, ⟨_, .tail _ (.tail _ (.tail _ (.head _))), rfl⟩, rfl⟩

/-- The description alone does not say which trees the loader accepts: it says nothing of an empty
decision on entering a state nor of a number in a rule that is not finite, and the loader refuses
both. -/
theorem specifies_not_ofToken :
    (undecided.distinctKeys ∧ Specifies false undecided undecidedMachine ∧
      ∀ m, Machine.ofToken undecided ≠ .ok m) ∧
    unbounded.distinctKeys ∧ Specifies false unbounded unboundedMachine ∧
      ∀ m, Machine.ofToken unbounded ≠ .ok m :=
  ⟨⟨by decide, specifies_undecided, nofun⟩, by decide, specifies_unbounded, nofun⟩

end TimedMachine
