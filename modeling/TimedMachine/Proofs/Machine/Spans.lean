import TimedMachine.Machine.OfToken
import TimedMachine.Proofs.Token.Spans

/-!
# Loading does not depend on places

A tree and the same tree without its places in a text load alike: to the same machine, or to the
same fault at the same path (`Machine.alike_ofToken`). The two runs are compared step by step:
there is a rule for each piece that readers are put together from, and from the rules a lemma for
each reader.
-/

namespace TimedMachine

/-- A fault that does not know its place in a text. -/
def LoadError.withoutSpan (e : LoadError) : LoadError := { e with site := e.site.withoutSpan }

namespace Token

/-- Where a token stands, but for its place. -/
theorem site_withoutSpans (t : Token) : t.withoutSpans.site = t.site.withoutSpan := by
  cases t <;> rfl

/-- A token stays `null` or not. -/
theorem isNull_withoutSpans (t : Token) : t.withoutSpans.isNull = t.isNull := by
  cases t <;> rfl

end Token

open Token

/-- A fault at a token without its place. -/
theorem LoadFault.at_withoutSpans (fault : LoadFault) (t : Token) :
    fault.at t.withoutSpans = (fault.at t).withoutSpan := by
  rw [LoadFault.at, site_withoutSpans]
  rfl

/-- A fault at the key of a member without its places. -/
theorem LoadFault.atKey_withoutSpans (fault : LoadFault) (k : Key) (t : Token) :
    fault.atKey k.withoutSpan t.withoutSpans = (fault.atKey k t).withoutSpan := by
  rw [LoadFault.atKey, Token.path, Token.span, site_withoutSpans]
  rfl

namespace Loaded

variable {α β γ δ : Type}

/-- Two runs end alike: both succeed, with results that `R` relates, or both fail, and the second
one's fault is the first one's without its place. -/
inductive Alike (R : α → β → Prop) : Loaded α → Loaded β → Prop
  | ok {a : α} {b : β} (h : R a b) : Alike R (.ok a) (.ok b)
  | error {e e' : LoadError} (h : e' = e.withoutSpan) : Alike R (.error e) (.error e')

namespace Alike

variable {R : α → β → Prop} {S : γ → δ → Prop} {x : Loaded α} {y : Loaded β}

/-! ## Rules -/

theorem bind {f : α → Loaded γ} {g : β → Loaded δ} (h : Alike R x y)
    (hfg : ∀ a b, R a b → Alike S (f a) (g b)) : Alike S (x >>= f) (y >>= g) := by
  cases h with
  | ok h => exact hfg _ _ h
  | error h => exact .error h

theorem map {f : α → γ} {g : β → δ} (h : Alike R x y) (hfg : ∀ a b, R a b → S (f a) (g b)) :
    Alike S (x.map f) (y.map g) := by
  cases h with
  | ok h => exact .ok (hfg _ _ h)
  | error h => exact .error h

/-- Results are mapped alike. -/
theorem map_eq {x y : Loaded α} (h : Alike Eq x y) (f : α → γ) : Alike Eq (x.map f) (y.map f) :=
  h.map fun _ _ => congrArg f

theorem ite {c : Prop} [Decidable c] {x' : Loaded α} {y' : Loaded β} (h : Alike R x y)
    (h' : Alike R x' y') : Alike R (if c then x else x') (if c then y else y') := by
  split
  · exact h
  · exact h'

/-- A check that fails in both runs or in neither. -/
theorem guard {c : Prop} [Decidable c] {e e' : LoadError} {f : γ → Loaded α} {g : δ → Loaded β}
    (he : e' = e.withoutSpan) (h : Alike R x y) :
    Alike R (if c then (throw e : Loaded γ) >>= f else x)
      (if c then (throw e' : Loaded δ) >>= g else y) :=
  .ite (.error he) h

theorem mapM {f : α → Loaded β} {φ : α → α} (h : ∀ a, Alike Eq (f a) (f (φ a))) (l : List α) :
    Alike Eq (l.mapM f) ((l.map φ).mapM f) := by
  induction l with
  | nil => exact .ok rfl
  | cons a l ih =>
    rw [List.map_cons, List.mapM_cons, List.mapM_cons]
    refine (h a).bind ?_
    rintro b _ rfl
    refine ih.bind ?_
    rintro bs _ rfl
    exact .ok rfl

theorem readDistinct {ν : Type} [DecidableEq ν] {check : α → Loaded β} {name : β → ν}
    {duplicate : α → β → LoadError} {read : α → β → Loaded γ} {φ : α → α}
    (hcheck : ∀ a, Alike Eq (check a) (check (φ a)))
    (hduplicate : ∀ a b, duplicate (φ a) b = (duplicate a b).withoutSpan)
    (hread : ∀ a b, Alike Eq (read a b) (read (φ a) b)) (seen : List ν) (l : List α) :
    Alike Eq (readDistinct check name duplicate read seen l)
      (readDistinct check name duplicate read seen (l.map φ)) := by
  induction l generalizing seen with
  | nil => exact .ok rfl
  | cons a l ih =>
    refine (hcheck a).bind ?_
    rintro b _ rfl
    refine .guard (hduplicate a b) ?_
    refine (hread a b).bind ?_
    rintro c _ rfl
    refine (ih _).bind ?_
    rintro cs _ rfl
    exact .ok rfl

end Alike

end Loaded

open Loaded

/-! ## Types and members -/

section Members

variable {α β : Type}

theorem alike_asString (t : Token) (name : String) :
    Alike Eq (t.asString name) (t.withoutSpans.asString name) := by
  cases t
  case string => exact .ok rfl
  all_goals exact .error rfl

theorem alike_asBool (t : Token) (name : String) :
    Alike Eq (t.asBool name) (t.withoutSpans.asBool name) := by
  cases t
  case bool => exact .ok rfl
  all_goals exact .error rfl

theorem alike_asNumber (t : Token) (name : String) :
    Alike Eq (t.asNumber name) (t.withoutSpans.asNumber name) := by
  cases t
  case number => exact .ok rfl
  all_goals exact .error rfl

theorem alike_asItems (t : Token) (name : String) :
    Alike (fun ts ts' => ts' = ts.map withoutSpans) (t.asItems name)
      (t.withoutSpans.asItems name) := by
  cases t
  case array => exact .ok (itemsWithoutSpans_eq_map _)
  all_goals exact .error rfl

theorem alike_asMembers (t : Token) (name : String) :
    Alike (fun ms ms' => ms' = membersWithoutSpans ms) (t.asMembers name)
      (t.withoutSpans.asMembers name) := by
  cases t
  case object => exact .ok rfl
  all_goals exact .error rfl

namespace Members

variable (ms : Members) (key : String)

/-- A look-up finds the same member. -/
theorem get?_withoutSpans :
    Members.get? (membersWithoutSpans ms) key = (ms.get? key).map withoutSpans := by
  induction ms with
  | nil => rfl
  | cons m ms ih =>
    obtain ⟨k, t⟩ := m
    by_cases hk : k.name = key
    · simp [membersWithoutSpans, Members.get?, Key.withoutSpan, hk]
    · simpa [membersWithoutSpans, Members.get?, Key.withoutSpan, hk] using ih

variable {read : Token → Loaded α}

/-- An optional member with parts that know their places. -/
theorem alike_optional_map {φ : α → α}
    (h : ∀ t, Alike (fun a a' => a' = φ a) (read t) (read t.withoutSpans)) :
    Alike (fun o o' => o' = o.map φ) (ms.optional key read)
      (Members.optional (membersWithoutSpans ms) key read) := by
  unfold Members.optional
  rw [get?_withoutSpans]
  cases ms.get? key with
  | none => exact .ok rfl
  | some t => exact (h t).map fun _ _ hab => congrArg some hab

theorem alike_optional (h : ∀ t, Alike Eq (read t) (read t.withoutSpans)) :
    Alike Eq (ms.optional key read) (Members.optional (membersWithoutSpans ms) key read) := by
  unfold Members.optional
  rw [get?_withoutSpans]
  cases ms.get? key with
  | none => exact .ok rfl
  | some t => exact (h t).map_eq some

theorem alike_optionalOrNull (h : ∀ t, Alike Eq (read t) (read t.withoutSpans)) :
    Alike Eq (ms.optionalOrNull key read)
      (Members.optionalOrNull (membersWithoutSpans ms) key read) := by
  refine (alike_optional ms key fun t => ?_).map_eq Option.join
  rw [isNull_withoutSpans]
  exact .ite (.ok rfl) ((h t).map_eq some)

theorem alike_required (t : Token) :
    Alike (fun v v' => v' = v.withoutSpans) (ms.required t key)
      (Members.required (membersWithoutSpans ms) t.withoutSpans key) := by
  unfold Members.required
  rw [get?_withoutSpans]
  cases ms.get? key with
  | none => exact .error (LoadFault.at_withoutSpans _ t)
  | some v => exact .ok rfl

theorem alike_requiredObject (t : Token) :
    Alike (fun ms ms' => ms' = membersWithoutSpans ms) (ms.requiredObject t key)
      (Members.requiredObject (membersWithoutSpans ms) t.withoutSpans key) := by
  refine (alike_required ms key t).bind ?_
  rintro v _ rfl
  exact alike_asMembers v key

theorem alike_requiredString (t : Token) :
    Alike (fun p p' => p' = (p.1, p.2.withoutSpans)) (ms.requiredString t key)
      (Members.requiredString (membersWithoutSpans ms) t.withoutSpans key) := by
  refine (alike_required ms key t).bind ?_
  rintro v _ rfl
  rw [isNull_withoutSpans]
  refine .guard (LoadFault.at_withoutSpans _ v) ?_
  refine (alike_asString v key).bind ?_
  rintro s _ rfl
  exact .ok rfl

theorem alike_onlyKnown (known : List String) :
    Alike Eq (ms.onlyKnown known) (Members.onlyKnown (membersWithoutSpans ms) known) := by
  unfold Members.onlyKnown
  have hfind : (membersWithoutSpans ms).find? (fun m => !known.contains m.1.name) =
      (ms.find? fun m => !known.contains m.1.name).map
        fun m => (m.1.withoutSpan, m.2.withoutSpans) := by
    rw [membersWithoutSpans_eq_map, List.find?_map]
    rfl
  rw [hfind]
  cases ms.find? fun m => !known.contains m.1.name with
  | none => exact .ok rfl
  | some m => exact .error (LoadFault.atKey_withoutSpans _ m.1 m.2)

end Members

end Members

/-! ## Numbers, names, timers and events -/

section Readers

variable (ns : Names)

theorem alike_checkPositive (name : String) (rule : NumberRule) (t : Token) (x : Float) :
    Alike Eq (checkPositive name rule t x) (checkPositive name rule t.withoutSpans x) :=
  .ite (.ok rfl) (.error (LoadFault.at_withoutSpans _ t))

theorem alike_checkFinite (name : String) (t : Token) (x : Float) :
    Alike Eq (checkFinite name t x) (checkFinite name t.withoutSpans x) :=
  .ite (.ok rfl) (.error (LoadFault.at_withoutSpans _ t))

theorem alike_checkState (role : NameRole) (t : Token) (name : String) :
    Alike Eq (ns.checkState role t name) (ns.checkState role t.withoutSpans name) :=
  .ite (.ok rfl) (.error (LoadFault.at_withoutSpans _ t))

theorem alike_checkTimer (t : Token) (name : String) :
    Alike Eq (ns.checkTimer t name) (ns.checkTimer t.withoutSpans name) :=
  .ite (.ok rfl) (.error (LoadFault.at_withoutSpans _ t))

theorem alike_namesOfItems {item : String} {check : Token → String → Loaded String}
    {role : NameRole} (h : ∀ t name, Alike Eq (check t name) (check t.withoutSpans name))
    (ts : List Token) :
    Alike Eq (namesOfItems item check role ts)
      (namesOfItems item check role (ts.map withoutSpans)) := by
  refine .readDistinct (fun t => ?_) ?_ ?_ [] ts
  · refine (alike_asString t item).bind ?_
    rintro name _ rfl
    exact h t name
  · exact fun t _ => LoadFault.at_withoutSpans _ t
  · exact fun _ _ => .ok rfl

theorem alike_timerOfMembers (ms : Members) :
    Alike Eq (Timer.ofMembers ms) (Timer.ofMembers (membersWithoutSpans ms)) := by
  rw [membersWithoutSpans_eq_map]
  refine .readDistinct (fun m => ?_) ?_ ?_ [] ms
  · refine (alike_asNumber m.2 m.1.name).bind ?_
    rintro x _ rfl
    refine (alike_checkPositive m.1.name .positiveSeconds m.2 x).bind ?_
    rintro y _ rfl
    exact .ok rfl
  · exact fun m _ => LoadFault.at_withoutSpans _ m.2
  · exact fun _ _ => .ok rfl

theorem alike_afterStates (ts : List Token) :
    Alike Eq (ns.afterStates ts) (ns.afterStates (ts.map withoutSpans)) := by
  refine (alike_namesOfItems (alike_checkState ns .afterState) ts).bind ?_
  rintro names _ rfl
  exact .ok rfl

theorem alike_argumentOfMembers (ms : Members) :
    Alike Eq (Argument.ofMembers ms) (Argument.ofMembers (membersWithoutSpans ms)) := by
  rw [membersWithoutSpans_eq_map]
  refine .mapM (fun m => ?_) ms
  refine (alike_asString m.2 "arg type").bind ?_
  rintro type _ rfl
  exact .ok rfl

/-- An optional list that is not there is empty, with or without its places. -/
theorem getD_map_nil {α : Type} {φ : List α → List α} (hφ : φ [] = []) (o : Option (List α)) :
    (o.map φ).getD [] = φ (o.getD []) := by
  cases o with
  | none => exact hφ.symm
  | some l => rfl

theorem alike_event (m : Key × Token) :
    Alike Eq (ns.event m) (ns.event (m.1.withoutSpan, m.2.withoutSpans)) := by
  refine (alike_asMembers m.2 m.1.name).bind ?_
  rintro ms _ rfl
  refine (Members.alike_optional_map ms _ fun t => alike_asItems t _).bind ?_
  rintro items _ rfl
  rw [getD_map_nil List.map_nil]
  refine (alike_afterStates ns _).bind ?_
  rintro afterStates _ rfl
  refine (Members.alike_optional_map ms _ fun t => alike_asMembers t _).bind ?_
  rintro args _ rfl
  rw [getD_map_nil rfl]
  refine (alike_argumentOfMembers _).bind ?_
  rintro args _ rfl
  refine (Members.alike_optional ms _ fun t => alike_asBool t _).bind ?_
  rintro onlyOnce _ rfl
  refine (Members.alike_onlyKnown ms _).bind ?_
  rintro _ _ rfl
  exact .ok rfl

theorem alike_eventList (ms : Members) :
    Alike Eq (ns.eventList ms) (ns.eventList (membersWithoutSpans ms)) := by
  rw [membersWithoutSpans_eq_map]
  refine .readDistinct (alike_event ns) ?_ ?_ [] ms
  · exact fun m _ => LoadFault.at_withoutSpans _ m.2
  · exact fun _ _ => .ok rfl

/-! ## Targets and edges -/

theorem alike_target (t : Token) : Alike Eq (ns.target t) (ns.target t.withoutSpans) := by
  cases t with
  | null => exact .ok rfl
  | string s name => exact (alike_checkState ns _ (.string s name) name).map_eq _
  | bool s b =>
    cases b
    · exact .ok rfl
    · exact .error rfl
  | number | array | object => exact .error rfl

theorem alike_choiceTarget (t : Token) :
    Alike Eq (ns.choiceTarget t) (ns.choiceTarget t.withoutSpans) := by
  cases t with
  | object s ms =>
    refine (Members.alike_required ms _ (.object s ms)).bind ?_
    rintro v _ rfl
    refine (alike_target ns v).bind ?_
    rintro target _ rfl
    refine (Members.alike_onlyKnown ms _).bind ?_
    rintro _ _ rfl
    exact .ok rfl
  | null s => exact alike_target ns (.null s)
  | bool s b => exact alike_target ns (.bool s b)
  | number s x => exact alike_target ns (.number s x)
  | string s name => exact alike_target ns (.string s name)
  | array s items => exact alike_target ns (.array s items)

theorem alike_choices (owner : String) (t : Token) :
    Alike Eq (ns.choices owner t) (ns.choices owner t.withoutSpans) := by
  refine (alike_asMembers t "targets").bind ?_
  rintro ms _ rfl
  rw [membersWithoutSpans_eq_map, List.isEmpty_map]
  refine .guard (LoadFault.at_withoutSpans _ t) (.mapM (fun m => ?_) ms)
  refine (alike_choiceTarget ns m.2).bind ?_
  rintro target _ rfl
  exact .ok rfl

theorem alike_callbackShape (t : Token) :
    Alike Eq (CallbackShape.ofToken t) (CallbackShape.ofToken t.withoutSpans) := by
  refine (alike_asString t _).bind ?_
  rintro name _ rfl
  cases CallbackShape.ofName? name with
  | none => exact .error (LoadFault.at_withoutSpans _ t)
  | some shape => exact .ok rfl

theorem alike_listOfToken (t : Token) :
    Alike Eq (CallbackShape.listOfToken t) (CallbackShape.listOfToken t.withoutSpans) := by
  cases t with
  | bool s b => cases b <;> exact .ok rfl
  | string s name =>
    exact (alike_callbackShape (.string s name)).map_eq _
  | array s items =>
    rw [withoutSpans, itemsWithoutSpans_eq_map]
    refine .readDistinct alike_callbackShape ?_ ?_ [] items
    · exact fun t _ => LoadFault.at_withoutSpans _ t
    · exact fun _ _ => .ok rfl
  | null | number | object => exact .error rfl

theorem alike_callbacksOfToken (invoker : String) (targets : Targets) (t : Token) :
    Alike Eq (callbacksOfToken invoker targets t)
      (callbacksOfToken invoker targets t.withoutSpans) := by
  refine (alike_listOfToken t).bind ?_
  rintro shapes _ rfl
  split
  · exact .error (LoadFault.at_withoutSpans _ t)
  · exact .ok rfl

theorem alike_edgeTargets (kind : InvokerKind) (invoker : String) (t : Token) (ms : Members) :
    Alike Eq (ns.edgeTargets kind invoker t ms)
      (ns.edgeTargets kind invoker t.withoutSpans (membersWithoutSpans ms)) := by
  unfold Names.edgeTargets
  rw [Members.get?_withoutSpans, Members.get?_withoutSpans]
  cases ms.get? "state" with
  | none =>
    cases ms.get? "targets" with
    | none => exact .error (LoadFault.at_withoutSpans _ t)
    | some targets =>
      cases kind with
      | timer => exact .error (LoadFault.at_withoutSpans _ targets)
      | event => exact (alike_choices ns invoker targets).map_eq _
  | some state =>
    cases ms.get? "targets" with
    | none => exact (alike_target ns state).map_eq _
    | some targets => exact .error (LoadFault.at_withoutSpans _ t)

/-- An edge that is a target alone. -/
theorem alike_plainEdge (kind : InvokerKind) (invoker : String) (t : Token) :
    Alike Eq ((ns.target t).map fun target => Edge.mk invoker kind (.single target) [] none)
      ((ns.target t.withoutSpans).map fun target => ⟨invoker, kind, .single target, [], none⟩) :=
  (alike_target ns t).map_eq _

theorem alike_edge (kind : InvokerKind) (invoker : String) (t : Token) :
    Alike Eq (ns.edge kind invoker t) (ns.edge kind invoker t.withoutSpans) := by
  cases t with
  | object s ms =>
    refine (alike_edgeTargets ns kind invoker (.object s ms) ms).bind ?_
    rintro targets _ rfl
    refine (Members.alike_optional ms _ (alike_callbacksOfToken invoker targets)).bind ?_
    rintro callbacks _ rfl
    refine (Members.alike_optionalOrNull ms _ fun t => alike_asString t _).bind ?_
    rintro comment _ rfl
    refine (Members.alike_onlyKnown ms _).bind ?_
    rintro _ _ rfl
    exact .ok rfl
  | null s => exact alike_plainEdge ns kind invoker (.null s)
  | bool s b => exact alike_plainEdge ns kind invoker (.bool s b)
  | number s x => exact alike_plainEdge ns kind invoker (.number s x)
  | string s name => exact alike_plainEdge ns kind invoker (.string s name)
  | array s items => exact alike_plainEdge ns kind invoker (.array s items)

theorem alike_edges (kind : InvokerKind) (ms : Members) :
    Alike Eq (ns.edges kind ms) (ns.edges kind (membersWithoutSpans ms)) := by
  rw [membersWithoutSpans_eq_map]
  refine .readDistinct (fun m => ?_) ?_ ?_ [] ms
  · exact .ite (.ok rfl) (.error (LoadFault.atKey_withoutSpans _ m.1 m.2))
  · exact fun m _ => LoadFault.atKey_withoutSpans _ m.1 m.2
  · exact fun m name => alike_edge ns kind name m.2

/-! ## Timers of states -/

theorem alike_rulePart {check : Token → Float → Loaded Float}
    (h : ∀ t x, Alike Eq (check t x) (check t.withoutSpans x)) (ms : Members) (key : String) :
    Alike Eq (rulePart ms key check) (rulePart (membersWithoutSpans ms) key check) := by
  refine Members.alike_optionalOrNull ms key fun t => (alike_asNumber t key).bind ?_
  rintro x _ rfl
  exact h t x

theorem alike_delayRule (timer : String) (t : Token) :
    Alike Eq (DelayRule.ofToken timer t) (DelayRule.ofToken timer t.withoutSpans) := by
  refine (alike_asMembers t timer).bind ?_
  rintro ms _ rfl
  refine (alike_rulePart (alike_checkPositive _ _) ms _).bind ?_
  rintro set _ rfl
  refine (alike_rulePart (alike_checkPositive _ _) ms _).bind ?_
  rintro multiplier _ rfl
  refine (alike_rulePart (alike_checkFinite _) ms _).bind ?_
  rintro increment _ rfl
  refine (alike_rulePart (alike_checkFinite _) ms _).bind ?_
  rintro min _ rfl
  refine (alike_rulePart (alike_checkFinite _) ms _).bind ?_
  rintro max _ rfl
  refine (Members.alike_onlyKnown ms _).bind ?_
  rintro _ _ rfl
  refine .guard (LoadFault.at_withoutSpans _ t) ?_
  split
  · exact .ite (.error (LoadFault.at_withoutSpans _ t)) (.ok rfl)
  · exact .ok rfl

theorem alike_timerStart (m : Key × Token) :
    Alike Eq (ns.timerStart m) (ns.timerStart (m.1.withoutSpan, m.2.withoutSpans)) := by
  refine .guard (LoadFault.atKey_withoutSpans _ m.1 m.2) ?_
  rw [isNull_withoutSpans]
  refine .ite (.ok rfl) ((alike_delayRule m.1.name m.2).bind ?_)
  rintro rule _ rfl
  exact .ok rfl

theorem alike_startTimers (t : Token) :
    Alike Eq (ns.startTimers t) (ns.startTimers t.withoutSpans) := by
  cases t with
  | array s items =>
    rw [withoutSpans, itemsWithoutSpans_eq_map]
    refine (alike_namesOfItems (alike_checkTimer ns) items).bind ?_
    rintro names _ rfl
    exact .ok rfl
  | object s ms =>
    rw [withoutSpans, membersWithoutSpans_eq_map]
    exact .mapM (alike_timerStart ns) ms
  | null | bool | number | string => exact .error rfl

theorem alike_checkStops (state : String) (t : Token) (starts : List TimerStart)
    (stops : List String) :
    Alike Eq (checkStops state t starts stops) (checkStops state t.withoutSpans starts stops) := by
  unfold checkStops
  split
  · exact .error (LoadFault.at_withoutSpans _ t)
  · exact .ok rfl

/-! ## States and machines -/

theorem alike_onEnter (t : Token) : Alike Eq (ns.onEnter t) (ns.onEnter t.withoutSpans) := by
  cases t with
  | bool s b => cases b <;> exact .ok rfl
  | string => exact .ok rfl
  | object s ms =>
    refine (Members.alike_optionalOrNull ms _ fun t => alike_asString t _).bind ?_
    rintro comment _ rfl
    refine (Members.alike_optional ms _ (alike_choices ns "on_enter")).bind ?_
    rintro choices _ rfl
    refine (Members.alike_onlyKnown ms _).bind ?_
    rintro _ _ rfl
    exact .ok rfl
  | null | number | array => exact .error rfl

theorem alike_shapeFieldsCheck (f : ShapeFields) (state : String) (t : Token) :
    Alike Eq (f.check state t) (f.check state t.withoutSpans) := by
  unfold ShapeFields.check
  split
  · exact .error (LoadFault.at_withoutSpans _ t)
  · exact .ok rfl
  · exact .error (LoadFault.at_withoutSpans _ t)

/-- An optional member that holds the edges of a state. -/
theorem alike_optionalEdges (kind : InvokerKind) (key : String) (ms : Members) :
    Alike Eq (ms.optional key fun t => do ns.edges kind (← t.asMembers key))
      (Members.optional (membersWithoutSpans ms) key
        fun t => do ns.edges kind (← t.asMembers key)) := by
  refine Members.alike_optional ms key fun t => (alike_asMembers t key).bind ?_
  rintro ms _ rfl
  exact alike_edges ns kind ms

theorem alike_state (m : Key × Token) :
    Alike Eq (ns.state m) (ns.state (m.1.withoutSpan, m.2.withoutSpans)) := by
  refine (alike_asMembers m.2 m.1.name).bind ?_
  rintro ms _ rfl
  refine (Members.alike_optional ms _ (alike_startTimers ns)).bind ?_
  rintro starts _ rfl
  refine (Members.alike_optional_map ms _ fun t => alike_asItems t _).bind ?_
  rintro items _ rfl
  rw [getD_map_nil List.map_nil]
  refine (alike_namesOfItems (alike_checkTimer ns) _).bind ?_
  rintro stops _ rfl
  refine (alike_checkStops m.1.name m.2 _ stops).bind ?_
  rintro _ _ rfl
  refine (Members.alike_optional ms _ (alike_onEnter ns)).bind ?_
  rintro enter _ rfl
  refine (alike_optionalEdges ns .timer _ ms).bind ?_
  rintro timerEdges _ rfl
  refine (alike_optionalEdges ns .event _ ms).bind ?_
  rintro eventEdges _ rfl
  refine (Members.alike_optionalOrNull ms _ fun t => (alike_asString t _).bind ?_).bind ?_
  · rintro name _ rfl
    exact alike_checkState ns _ t name
  rintro nextState _ rfl
  refine (Members.alike_optional ms _ fun t => alike_asBool t _).bind ?_
  rintro isFinal _ rfl
  refine (alike_shapeFieldsCheck _ m.1.name m.2).bind ?_
  rintro _ _ rfl
  refine (Members.alike_onlyKnown ms _).bind ?_
  rintro _ _ rfl
  exact .ok rfl

theorem alike_stateNames (ms : Members) :
    Alike Eq (stateNames ms) (stateNames (membersWithoutSpans ms)) := by
  rw [membersWithoutSpans_eq_map]
  refine .readDistinct ?_ ?_ ?_ [] ms
  · exact fun _ => .ok rfl
  · exact fun m _ => LoadFault.at_withoutSpans _ m.2
  · exact fun _ _ => .ok rfl

end Readers

/-- A tree loads like the same tree without its places. -/
theorem Machine.alike_ofToken (t : Token) :
    Alike Eq (Machine.ofToken t) (Machine.ofToken t.withoutSpans) := by
  refine (alike_asMembers t "root").bind ?_
  rintro ms _ rfl
  refine (Members.alike_requiredObject ms _ t).bind ?_
  rintro eventMembers _ rfl
  refine (Members.alike_requiredObject ms _ t).bind ?_
  rintro stateMembers _ rfl
  refine (Members.alike_optional_map ms _ fun t => alike_asMembers t _).bind ?_
  rintro timerMembers _ rfl
  rw [getD_map_nil rfl]
  refine (alike_timerOfMembers _).bind ?_
  rintro timers _ rfl
  refine (alike_stateNames stateMembers).bind ?_
  rintro names _ rfl
  refine (alike_eventList _ eventMembers).bind ?_
  rintro events _ rfl
  rw [membersWithoutSpans_eq_map stateMembers]
  refine (Alike.mapM (alike_state _) stateMembers).bind ?_
  rintro states _ rfl
  refine (Members.alike_requiredString ms _ t).bind ?_
  rintro ⟨start, startToken⟩ _ rfl
  refine (alike_checkState _ _ startToken start).bind ?_
  rintro startState _ rfl
  refine (Members.alike_onlyKnown ms _).bind ?_
  rintro _ _ rfl
  exact .ok rfl

end TimedMachine
