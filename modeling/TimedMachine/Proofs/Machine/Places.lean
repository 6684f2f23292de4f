import TimedMachine.Machine.OfToken
import TimedMachine.Proofs.Machine.Keys

/-!
# Where faults of specifications are reported

A tree that does not load is refused for a fault at one of its own tokens: the error has the path of
the token and its place in the text, or the place of the key that it is the value of, and what the
fault says is true of that token (`Machine.ofToken_error_located`). This holds of every tree, also
of one whose paths and places are wrong or missing.

A reader is taken apart step by step. `Ends` says of the outcome of a reader what is known of its
result, or that its fault is located in the tree; there is a rule for each piece that readers are
put together from, and from the rules a lemma for each reader.
-/

namespace TimedMachine

open Format

/-! ## Tokens of a tree -/

/-- The tokens of a tree. A token that is the value of a member comes with its key. -/
inductive Token.Part (root : Token) : Option Key → Token → Prop
  | root : Part root none root
  | item {key : Option Key} {s : Site} {ts : List Token} {t : Token}
      (h : Part root key (.array s ts)) (ht : t ∈ ts) : Part root none t
  | member {key : Option Key} {s : Site} {ms : Members} {k : Key} {t : Token}
      (h : Part root key (.object s ms)) (hm : (k, t) ∈ ms) : Part root (some k) t

/-- The key of a member has a name. -/
def HasKey (key : Option Key) (name : String) : Prop := ∃ k, key = some k ∧ k.name = name

/-- What a fault says is true of the token `n` that it is reported at. -/
def LoadFault.Fits (key : Option Key) (n : Token) : LoadFault → Prop
  | .unexpectedType _ _ actual => n.kind = actual
  | .missingField name => ∃ ms, n.members? = some ms ∧ Lacks ms name
  | .nullField name => n.isNull ∧ HasKey key name
  | .unusedField name | .missingStateShape name | .conflictingStateShape name _
  | .timerStartedAndStopped name _ | .emptyTimerModify name | .invalidTimerBounds name _ _
  | .ambiguousEdgeObject name => HasKey key name
  | .duplicateName _ name | .unknownName _ name => n.string? = some name ∨ HasKey key name
  | .invalidNumber name _ x => n.number? = some x ∧ HasKey key name
  | .failureMustBeFalse => n.bool? = some true
  | .emptyDecision _ => n.members? = some []
  | .decisionOnTimer _ => HasKey key "targets"
  | .callbackShapeNeedsTarget _ _ => HasKey key "on_traverse"
  | .unknownCallbackShape name => n.string? = some name
  | .duplicateCallbackShape shape => n.string? = some shape.text

/-- An error is about the token `n`: it has the path of the token, and its place or the place of its
key, and the fault fits the token. -/
structure LoadError.About (e : LoadError) (key : Option Key) (n : Token) : Prop where
  path : e.site.path = n.path
  span : e.site.span = n.span ∨ ∃ k s, key = some k ∧ k.span = some s ∧ e.site.span = some s
  fits : e.fault.Fits key n

/-- An error is about one of the tokens of a tree. -/
def LoadError.LocatedIn (root : Token) (e : LoadError) : Prop :=
  ∃ key n, root.Part key n ∧ e.About key n

variable {root t : Token} {key : Option Key} {k : Key} {fault : LoadFault}

theorem LoadFault.Fits.at (h : fault.Fits key t) (ht : root.Part key t) :
    (fault.at t).LocatedIn root :=
  ⟨key, t, ht, rfl, .inl rfl, h⟩

theorem LoadFault.Fits.atKey (h : fault.Fits (some k) t) (ht : root.Part (some k) t) :
    (fault.atKey k t).LocatedIn root := by
  refine ⟨some k, t, ht, rfl, ?_, h⟩
  show k.span.or t.span = t.span ∨ _
  cases hs : k.span with
  | none => exact .inl rfl
  | some s =>
    refine .inr ⟨k, s, rfl, hs, ?_⟩
    show k.span.or t.span = _
    rw [hs]
    rfl

/-! ## Rules -/

namespace Loaded

variable {α β γ : Type}

/-- A reader ends with a result that satisfies `Q`, or with a fault that is located in `root`. -/
inductive Ends (root : Token) (Q : α → Prop) : Loaded α → Prop
  | ok {a : α} (h : Q a) : Ends root Q (.ok a)
  | error {e : LoadError} (h : e.LocatedIn root) : Ends root Q (.error e)

/-- A reader of whose result nothing needs to be known. -/
abbrev Sound (root : Token) (x : Loaded α) : Prop := Ends root (fun _ => True) x

namespace Ends

variable {Q Q' : α → Prop} {R : β → Prop} {x : Loaded α}

theorem pure {a : α} (h : Q a) : Ends root Q (Pure.pure a) := .ok h

theorem imp (h : Ends root Q x) (hQ : ∀ a, Q a → Q' a) : Ends root Q' x := by
  cases h with
  | ok ha => exact .ok (hQ _ ha)
  | error he => exact .error he

theorem bind {f : α → Loaded β} (h : Ends root Q x) (hf : ∀ a, Q a → Ends root R (f a)) :
    Ends root R (x >>= f) := by
  cases h with
  | ok ha => exact hf _ ha
  | error he => exact .error he

theorem map {f : α → β} (h : Ends root Q x) (hf : ∀ a, Q a → R (f a)) : Ends root R (x.map f) := by
  cases h with
  | ok ha => exact .ok (hf _ ha)
  | error he => exact .error he

theorem sound (h : Ends root Q x) : Sound root x := h.imp fun _ _ => trivial

/-- A check that fails with a fault of its own. -/
theorem guard {c : Prop} [Decidable c] {e : LoadError} {f : β → Loaded α}
    (he : c → e.LocatedIn root) (h : Ends root Q x) :
    Ends root Q (if c then (throw e : Loaded β) >>= f else x) := by
  by_cases hc : c
  · rw [if_pos hc]
    exact .error (he hc)
  · rwa [if_neg hc]

end Ends

namespace Sound

theorem ok {a : α} : Sound root (.ok a) := Ends.ok trivial

theorem pure {a : α} : Sound root (Pure.pure a) := ok

theorem map {x : Loaded α} (h : Sound root x) (f : α → β) : Sound root (x.map f) :=
  Ends.map h fun _ _ => trivial

theorem mapM {f : α → Loaded β} {l : List α} (h : ∀ a ∈ l, Sound root (f a)) :
    Sound root (l.mapM f) := by
  induction l with
  | nil => exact .ok
  | cons a l ih =>
    rw [List.mapM_cons]
    apply (h a List.mem_cons_self).bind
    intro b _
    apply (ih fun a ha => h a (List.mem_cons_of_mem _ ha)).bind
    intro bs _
    exact Sound.pure

theorem readDistinct {ν : Type} [DecidableEq ν] {check : α → Loaded β} {name : β → ν}
    {duplicate : α → β → LoadError} {read : α → β → Loaded γ} {Q : α → β → Prop} {l : List α}
    (hcheck : ∀ a ∈ l, Ends root (Q a) (check a))
    (hduplicate : ∀ a ∈ l, ∀ b, Q a b → (duplicate a b).LocatedIn root)
    (hread : ∀ a ∈ l, ∀ b, Q a b → Sound root (read a b)) (seen : List ν) :
    Sound root (TimedMachine.readDistinct check name duplicate read seen l) := by
  induction l generalizing seen with
  | nil => exact .ok
  | cons a l ih =>
    apply (hcheck a List.mem_cons_self).bind
    intro b hb
    apply Ends.guard fun _ => hduplicate a List.mem_cons_self b hb
    apply (hread a List.mem_cons_self b hb).bind
    intro c _
    have hrest := ih (fun a ha => hcheck a (List.mem_cons_of_mem _ ha))
      (fun a ha => hduplicate a (List.mem_cons_of_mem _ ha))
      (fun a ha => hread a (List.mem_cons_of_mem _ ha)) (name b :: seen)
    apply hrest.bind
    intro cs _
    exact Sound.pure

end Sound

end Loaded

open Loaded

/-! ## Types and members -/

theorem ends_asString (ht : root.Part key t) (name : String) :
    Ends root (fun s => t.string? = some s) (t.asString name) := by
  cases t with
  | string => exact .ok rfl
  | null | bool | number | array | object => exact .error (LoadFault.Fits.at rfl ht)

theorem ends_asBool (ht : root.Part key t) (name : String) :
    Ends root (fun b => t.bool? = some b) (t.asBool name) := by
  cases t with
  | bool => exact .ok rfl
  | null | string | number | array | object => exact .error (LoadFault.Fits.at rfl ht)

theorem ends_asNumber (ht : root.Part key t) (name : String) :
    Ends root (fun x => t.number? = some x) (t.asNumber name) := by
  cases t with
  | number => exact .ok rfl
  | null | string | bool | array | object => exact .error (LoadFault.Fits.at rfl ht)

theorem ends_asItems (ht : root.Part key t) (name : String) :
    Ends root (fun ts => ∀ u ∈ ts, root.Part none u) (t.asItems name) := by
  cases t with
  | array s ts => exact .ok fun u hu => .item ht hu
  | null | string | bool | number | object => exact .error (LoadFault.Fits.at rfl ht)

/-- All members of an object are tokens of the tree. -/
def Token.Owns (root : Token) (ms : Members) : Prop := ∀ m ∈ ms, root.Part (some m.1) m.2

theorem Token.Part.owns {s : Site} {ms : Members} (h : root.Part key (.object s ms)) :
    root.Owns ms :=
  fun _ hm => .member h hm

theorem ends_asMembers (ht : root.Part key t) (name : String) :
    Ends root (fun ms => t.members? = some ms ∧ root.Owns ms) (t.asMembers name) := by
  cases t with
  | object s ms => exact .ok ⟨rfl, ht.owns⟩
  | null | string | bool | number | array => exact .error (LoadFault.Fits.at rfl ht)

namespace Members

variable {α : Type} {ms : Members} {name : String} {read : Token → Loaded α} {Q : α → Prop}

/-- A member that is found has the key that was looked for. -/
theorem part_of_get? (hms : root.Owns ms) (h : ms.get? name = some t) :
    ∃ k : Key, k.name = name ∧ root.Part (some k) t := by
  obtain ⟨⟨k, v⟩, hfind, rfl⟩ := Option.map_eq_some_iff.mp h
  exact ⟨k, by simpa using List.find?_some hfind, hms _ (List.mem_of_find?_eq_some hfind)⟩

theorem ends_optional (hms : root.Owns ms)
    (hread : ∀ k t, k.name = name → root.Part (some k) t → Ends root Q (read t)) :
    Ends root (fun o => ∀ a ∈ o, Q a) (ms.optional name read) := by
  unfold Members.optional
  cases h : ms.get? name with
  | none => exact .ok (by simp)
  | some t =>
    obtain ⟨k, hk, ht⟩ := part_of_get? hms h
    apply (hread k t hk ht).map
    intro a ha
    simpa using ha

theorem sound_optional (hms : root.Owns ms)
    (hread : ∀ k t, k.name = name → root.Part (some k) t → Sound root (read t)) :
    Sound root (ms.optional name read) :=
  (ends_optional hms hread).sound

theorem sound_optionalOrNull (hms : root.Owns ms)
    (hread : ∀ k t, k.name = name → root.Part (some k) t → Sound root (read t)) :
    Sound root (ms.optionalOrNull name read) := by
  apply Sound.map
  apply sound_optional hms
  intro k t hk ht
  split
  · exact .ok
  · exact (hread k t hk ht).map _

theorem ends_required (ht : root.Part key t) (hms : t.members? = some ms) (hown : root.Owns ms) :
    Ends root (fun v => ∃ k : Key, k.name = name ∧ root.Part (some k) v)
      (ms.required t name) := by
  unfold Members.required
  cases h : ms.get? name with
  | none =>
    have hfits : (LoadFault.missingField name).Fits key t := ⟨ms, hms, get?_eq_none_iff.mp h⟩
    exact .error (hfits.at ht)
  | some v => exact .ok (part_of_get? hown h)

theorem ends_requiredObject (ht : root.Part key t) (hms : t.members? = some ms)
    (hown : root.Owns ms) : Ends root root.Owns (ms.requiredObject t name) := by
  apply (ends_required ht hms hown).bind
  intro v hv
  obtain ⟨k, _, hv⟩ := hv
  exact (ends_asMembers hv name).imp fun _ h => h.2

theorem ends_requiredString (ht : root.Part key t) (hms : t.members? = some ms)
    (hown : root.Owns ms) :
    Ends root (fun p => p.2.string? = some p.1 ∧ ∃ k, root.Part (some k) p.2)
      (ms.requiredString t name) := by
  apply (ends_required ht hms hown).bind
  intro v hv
  obtain ⟨k, hk, hv⟩ := hv
  apply Ends.guard
  · intro hnull
    have hfits : (LoadFault.nullField name).Fits (some k) v := ⟨hnull, k, rfl, hk⟩
    exact hfits.at hv
  apply (ends_asString hv name).bind
  intro s hs
  exact .pure ⟨hs, k, hv⟩

theorem sound_onlyKnown (hms : root.Owns ms) (known : List String) :
    Sound root (ms.onlyKnown known) := by
  unfold Members.onlyKnown
  split
  · next k v h =>
    have hfits : (LoadFault.unusedField k.name).Fits (some k) v := ⟨k, rfl, rfl⟩
    exact .error (hfits.atKey (hms _ (List.mem_of_find?_eq_some h)))
  · exact .ok

end Members

/-! ## Numbers and names -/

section Readers

variable {ns : Names} {name invoker : String} {ms : Members} {ts : List Token} {m : Key × Token}
  {kind : InvokerKind}

/-- What holds of all parts of a list holds if the list is not there. -/
theorem forall_mem_getD {α : Type} {P : α → Prop} {o : Option (List α)}
    (h : ∀ l ∈ o, ∀ a ∈ l, P a) : ∀ a ∈ o.getD [], P a := by
  cases o with
  | none => simp
  | some l => exact h l rfl

theorem sound_checkPositive {rule : NumberRule} {x : Float} (ht : root.Part (some k) t)
    (hk : k.name = name) (hx : t.number? = some x) :
    Sound root (checkPositive name rule t x) := by
  unfold checkPositive
  split
  · exact .ok
  · have hfits : (LoadFault.invalidNumber name rule x).Fits (some k) t := ⟨hx, k, rfl, hk⟩
    exact .error (hfits.at ht)

theorem sound_checkFinite {x : Float} (ht : root.Part (some k) t) (hk : k.name = name)
    (hx : t.number? = some x) : Sound root (checkFinite name t x) := by
  unfold checkFinite
  split
  · exact .ok
  · have hfits : (LoadFault.invalidNumber name .finite x).Fits (some k) t := ⟨hx, k, rfl, hk⟩
    exact .error (hfits.at ht)

/-- A name that is accepted is the one that was checked. -/
theorem ends_checkState {role : NameRole} (ht : root.Part key t) (hname : t.string? = some name) :
    Ends root (fun name' => name' = name) (ns.checkState role t name) := by
  unfold Names.checkState
  split
  · exact .ok rfl
  · have hfits : (LoadFault.unknownName role name).Fits key t := .inl hname
    exact .error (hfits.at ht)

theorem ends_checkTimer (ht : root.Part key t) (hname : t.string? = some name) :
    Ends root (fun name' => name' = name) (ns.checkTimer t name) := by
  unfold Names.checkTimer
  split
  · exact .ok rfl
  · have hfits : (LoadFault.unknownName .timer name).Fits key t := .inl hname
    exact .error (hfits.at ht)

theorem sound_namesOfItems {item : String} {check : Token → String → Loaded String}
    {role : NameRole} (hts : ∀ t ∈ ts, root.Part none t)
    (hcheck : ∀ t name, root.Part none t → t.string? = some name →
      Ends root (fun name' => name' = name) (check t name)) :
    Sound root (namesOfItems item check role ts) := by
  apply Sound.readDistinct (Q := fun t name => t.string? = some name)
  · intro t ht
    apply (ends_asString (hts t ht) item).bind
    intro name hname
    apply (hcheck t name (hts t ht) hname).imp
    intro name' h
    rw [h, hname]
  · intro t ht name hname
    have hfits : (LoadFault.duplicateName role name).Fits none t := .inl hname
    exact hfits.at (hts t ht)
  · intro t _ name _
    exact .ok

/-! ## Timers and events -/

theorem sound_timers (hms : root.Owns ms) : Sound root (Timer.ofMembers ms) := by
  apply Sound.readDistinct (Q := fun m t => t.name = m.1.name)
  · intro m hm
    apply (ends_asNumber (hms m hm) _).bind
    intro x hx
    apply (sound_checkPositive (hms m hm) rfl hx).bind
    intro y _
    exact .pure rfl
  · intro m hm t ht
    have hfits : (LoadFault.duplicateName .timer t.name).Fits (some m.1) m.2 :=
      .inr ⟨m.1, rfl, ht.symm⟩
    exact hfits.at (hms m hm)
  · intro m _ t _
    exact .ok

theorem sound_afterStates (hts : ∀ t ∈ ts, root.Part none t) : Sound root (ns.afterStates ts) := by
  apply (sound_namesOfItems hts fun _ _ => ends_checkState).bind
  intro names _
  exact Sound.pure

theorem sound_arguments (hms : root.Owns ms) : Sound root (Argument.ofMembers ms) := by
  apply Sound.mapM
  intro m hm
  apply (ends_asString (hms m hm) _).bind
  intro type _
  exact Sound.pure

theorem ends_event (hm : root.Part (some m.1) m.2) :
    Ends root (fun e => e.name = m.1.name) (ns.event m) := by
  apply (ends_asMembers hm _).bind
  intro ms hms
  obtain ⟨_, hms⟩ := hms
  apply (Members.ends_optional hms fun _ _ _ ht => ends_asItems ht _).bind
  intro items hitems
  apply (sound_afterStates (forall_mem_getD hitems)).bind
  intro afterStates _
  have hargs : ∀ k t, k.name = "args" → root.Part (some k) t →
      Ends root root.Owns (t.asMembers "args") :=
    fun _ _ _ ht => (ends_asMembers ht _).imp fun _ h => h.2
  apply (Members.ends_optional hms hargs).bind
  intro args hargs
  apply (sound_arguments (forall_mem_getD hargs)).bind
  intro args _
  apply (Members.sound_optional hms fun _ _ _ ht => (ends_asBool ht _).sound).bind
  intro onlyOnce _
  apply (Members.sound_onlyKnown hms _).bind
  intro _ _
  exact .pure rfl

theorem sound_eventList (hms : root.Owns ms) : Sound root (ns.eventList ms) := by
  apply Sound.readDistinct (Q := fun m e => e.name = m.1.name)
  · intro m hm
    exact ends_event (hms m hm)
  · intro m hm e he
    have hfits : (LoadFault.duplicateName .event e.name).Fits (some m.1) m.2 :=
      .inr ⟨m.1, rfl, he.symm⟩
    exact hfits.at (hms m hm)
  · intro m _ e _
    exact .ok

/-! ## Targets and edges -/

theorem sound_target (ht : root.Part key t) : Sound root (ns.target t) := by
  cases t with
  | null => exact .ok
  | string s name =>
    apply Sound.map
    exact (ends_checkState ht rfl).sound
  | bool s b =>
    cases b with
    | false => exact .ok
    | true => exact .error (LoadFault.Fits.at rfl ht)
  | number | array | object => exact .error (LoadFault.Fits.at rfl ht)

theorem sound_choiceTarget (ht : root.Part key t) : Sound root (ns.choiceTarget t) := by
  have halone : Sound root (ns.target t) := sound_target ht
  cases t with
  | object s ms =>
    apply (Members.ends_required ht rfl ht.owns).bind
    intro v hv
    obtain ⟨k, _, hv⟩ := hv
    apply (sound_target hv).bind
    intro target _
    apply (Members.sound_onlyKnown ht.owns _).bind
    intro _ _
    exact Sound.pure
  | null | bool | number | string | array => exact halone

theorem sound_choices (ht : root.Part key t) : Sound root (ns.choices invoker t) := by
  apply (ends_asMembers ht _).bind
  intro ms hms
  obtain ⟨hmembers, hms⟩ := hms
  apply Ends.guard
  · intro hempty
    rw [List.isEmpty_iff.mp hempty] at hmembers
    have hfits : (LoadFault.emptyDecision invoker).Fits key t := hmembers
    exact hfits.at ht
  apply Sound.mapM
  intro m hm
  apply (sound_choiceTarget (hms m hm)).bind
  intro target _
  exact Sound.pure

/-- The shape of callback that is read is the one that is written. -/
theorem ends_callbackShape (ht : root.Part key t) :
    Ends root (fun shape => t.string? = some shape.text) (CallbackShape.ofToken t) := by
  apply (ends_asString ht _).bind
  intro name hname
  cases h : CallbackShape.ofName? name with
  | none => exact .error (LoadFault.Fits.at hname ht)
  | some shape =>
    have htext : shape.text = name := by simpa using List.find?_some h
    rw [← htext] at hname
    exact .pure hname

theorem sound_listOfToken (ht : root.Part key t) : Sound root (CallbackShape.listOfToken t) := by
  cases t with
  | bool s b => cases b <;> exact .ok
  | string s name =>
    apply Sound.map
    exact (ends_callbackShape ht).sound
  | array s items =>
    have hitem : ∀ u ∈ items, root.Part none u := fun u hu => .item ht hu
    apply Sound.readDistinct (Q := fun t shape => t.string? = some shape.text)
    · intro t ht
      exact ends_callbackShape (hitem t ht)
    · intro t ht shape hshape
      exact LoadFault.Fits.at hshape (hitem t ht)
    · intro t _ shape _
      exact .ok
  | null | number | object => exact .error (LoadFault.Fits.at rfl ht)

theorem sound_callbacks {targets : Targets} (ht : root.Part (some k) t)
    (hk : k.name = "on_traverse") : Sound root (callbacksOfToken invoker targets t) := by
  apply (sound_listOfToken ht).bind
  intro shapes _
  split
  · next shape _ =>
    have hfits : (LoadFault.callbackShapeNeedsTarget shape invoker).Fits (some k) t :=
      ⟨k, rfl, hk⟩
    exact .error (hfits.at ht)
  · exact Sound.pure

theorem sound_edgeTargets (ht : root.Part (some k) t) (hk : k.name = invoker)
    (hms : root.Owns ms) : Sound root (ns.edgeTargets kind invoker t ms) := by
  have hambiguous : Sound root (.error ((LoadFault.ambiguousEdgeObject invoker).at t) :
      Loaded Targets) := by
    have hfits : (LoadFault.ambiguousEdgeObject invoker).Fits (some k) t := ⟨k, rfl, hk⟩
    exact .error (hfits.at ht)
  unfold Names.edgeTargets
  cases hstate : ms.get? "state" with
  | none =>
    cases htargets : ms.get? "targets" with
    | none => exact hambiguous
    | some targets =>
      obtain ⟨k', hk', htargets⟩ := Members.part_of_get? hms htargets
      cases kind with
      | timer =>
        have hfits : (LoadFault.decisionOnTimer invoker).Fits (some k') targets := ⟨k', rfl, hk'⟩
        exact .error (hfits.at htargets)
      | event =>
        apply Sound.map
        exact sound_choices htargets
  | some state =>
    cases ms.get? "targets" with
    | none =>
      obtain ⟨k', _, hstate⟩ := Members.part_of_get? hms hstate
      apply Sound.map
      exact sound_target hstate
    | some targets => exact hambiguous

theorem sound_edge (ht : root.Part (some k) t) (hk : k.name = invoker) :
    Sound root (ns.edge kind invoker t) := by
  have halone : Sound root ((ns.target t).map
      fun target => Edge.mk invoker kind (.single target) [] none) :=
    Sound.map (sound_target ht) _
  cases t with
  | object s ms =>
    apply (sound_edgeTargets ht hk ht.owns).bind
    intro targets _
    apply (Members.sound_optional ht.owns fun _ _ hk ht => sound_callbacks ht hk).bind
    intro callbacks _
    apply (Members.sound_optionalOrNull ht.owns fun _ _ _ ht => (ends_asString ht _).sound).bind
    intro comment _
    apply (Members.sound_onlyKnown ht.owns _).bind
    intro _ _
    exact Sound.pure
  | null | bool | number | string | array => exact halone

theorem ends_checkInvoker (hm : root.Part (some m.1) m.2) :
    Ends root (fun name => name = m.1.name) (ns.checkInvoker kind m) := by
  unfold Names.checkInvoker
  split
  · exact .ok rfl
  · have hfits : (LoadFault.unknownName kind.role m.1.name).Fits (some m.1) m.2 :=
      .inr ⟨m.1, rfl, rfl⟩
    exact .error (hfits.atKey hm)

theorem sound_edges (hms : root.Owns ms) : Sound root (ns.edges kind ms) := by
  apply Sound.readDistinct (Q := fun m name => name = m.1.name)
  · intro m hm
    exact ends_checkInvoker (hms m hm)
  · intro m hm name hname
    have hfits : (LoadFault.duplicateName (.edge kind) name).Fits (some m.1) m.2 :=
      .inr ⟨m.1, rfl, hname.symm⟩
    exact hfits.atKey (hms m hm)
  · intro m hm name hname
    exact sound_edge (hms m hm) hname.symm

/-! ## Timers of states -/

theorem sound_rulePart {check : Token → Float → Loaded Float} (hms : root.Owns ms)
    (hcheck : ∀ k t x, k.name = name → root.Part (some k) t → t.number? = some x →
      Sound root (check t x)) : Sound root (rulePart ms name check) := by
  apply Members.sound_optionalOrNull hms
  intro k t hk ht
  apply (ends_asNumber ht name).bind
  intro x hx
  exact hcheck k t x hk ht hx

theorem sound_delayRule (ht : root.Part (some k) t) (hk : k.name = name) :
    Sound root (DelayRule.ofToken name t) := by
  apply (ends_asMembers ht name).bind
  intro ms hms
  obtain ⟨_, hms⟩ := hms
  apply (sound_rulePart hms fun _ _ _ hk ht hx => sound_checkPositive ht hk hx).bind
  intro set _
  apply (sound_rulePart hms fun _ _ _ hk ht hx => sound_checkPositive ht hk hx).bind
  intro multiplier _
  apply (sound_rulePart hms fun _ _ _ hk ht hx => sound_checkFinite ht hk hx).bind
  intro increment _
  apply (sound_rulePart hms fun _ _ _ hk ht hx => sound_checkFinite ht hk hx).bind
  intro min _
  apply (sound_rulePart hms fun _ _ _ hk ht hx => sound_checkFinite ht hk hx).bind
  intro max _
  apply (Members.sound_onlyKnown hms _).bind
  intro _ _
  apply Ends.guard
  · intro _
    have hfits : (LoadFault.emptyTimerModify name).Fits (some k) t := ⟨k, rfl, hk⟩
    exact hfits.at ht
  split
  · next least most =>
    split
    · have hfits : (LoadFault.invalidTimerBounds name least most).Fits (some k) t := ⟨k, rfl, hk⟩
      exact .error (hfits.at ht)
    · exact Sound.pure
  · exact Sound.pure

theorem sound_timerStart (hm : root.Part (some m.1) m.2) : Sound root (ns.timerStart m) := by
  apply Ends.guard
  · intro _
    have hfits : (LoadFault.unknownName .timer m.1.name).Fits (some m.1) m.2 :=
      .inr ⟨m.1, rfl, rfl⟩
    exact hfits.atKey hm
  split
  · exact Sound.pure
  · apply (sound_delayRule hm rfl).bind
    intro rule _
    exact Sound.pure

theorem sound_startTimers (ht : root.Part key t) : Sound root (ns.startTimers t) := by
  cases t with
  | array s items =>
    have hitem : ∀ u ∈ items, root.Part none u := fun u hu => .item ht hu
    apply (sound_namesOfItems hitem fun _ _ => ends_checkTimer).bind
    intro names _
    exact Sound.pure
  | object s ms =>
    apply Sound.mapM
    intro m hm
    exact sound_timerStart (ht.owns m hm)
  | null | bool | number | string => exact .error (LoadFault.Fits.at rfl ht)

theorem sound_checkStops {starts : List TimerStart} {stops : List String}
    (ht : root.Part (some k) t) (hk : k.name = name) :
    Sound root (checkStops name t starts stops) := by
  unfold checkStops
  split
  · next timer _ =>
    have hfits : (LoadFault.timerStartedAndStopped name timer).Fits (some k) t := ⟨k, rfl, hk⟩
    exact .error (hfits.at ht)
  · exact .ok

/-! ## States and machines -/

theorem sound_onEnter (ht : root.Part key t) : Sound root (ns.onEnter t) := by
  cases t with
  | bool s b => cases b <;> exact .ok
  | string => exact .ok
  | object s ms =>
    apply (Members.sound_optionalOrNull ht.owns fun _ _ _ ht => (ends_asString ht _).sound).bind
    intro comment _
    apply (Members.sound_optional ht.owns fun _ _ _ ht => sound_choices ht).bind
    intro choices _
    apply (Members.sound_onlyKnown ht.owns _).bind
    intro _ _
    exact Sound.pure
  | null | number | array => exact .error (LoadFault.Fits.at rfl ht)

theorem sound_shapeFieldsCheck {f : ShapeFields} (ht : root.Part (some k) t) (hk : k.name = name) :
    Sound root (f.check name t) := by
  unfold ShapeFields.check
  split
  · have hfits : (LoadFault.missingStateShape name).Fits (some k) t := ⟨k, rfl, hk⟩
    exact .error (hfits.at ht)
  · exact .ok
  · have hfits : (LoadFault.conflictingStateShape name f.present).Fits (some k) t := ⟨k, rfl, hk⟩
    exact .error (hfits.at ht)

/-- An optional member that holds the edges of a state. -/
theorem sound_optionalEdges (hms : root.Owns ms) :
    Sound root (ms.optional name fun t => do ns.edges kind (← t.asMembers name)) := by
  apply Members.sound_optional hms
  intro k t _ ht
  apply (ends_asMembers ht name).bind
  intro ms hms
  exact sound_edges hms.2

theorem sound_state (hm : root.Part (some m.1) m.2) : Sound root (ns.state m) := by
  apply (ends_asMembers hm _).bind
  intro ms hms
  obtain ⟨_, hms⟩ := hms
  apply (Members.sound_optional hms fun _ _ _ ht => sound_startTimers ht).bind
  intro starts _
  apply (Members.ends_optional hms fun _ _ _ ht => ends_asItems ht _).bind
  intro items hitems
  apply (sound_namesOfItems (forall_mem_getD hitems) fun _ _ => ends_checkTimer).bind
  intro stops _
  apply (sound_checkStops hm rfl).bind
  intro _ _
  apply (Members.sound_optional hms fun _ _ _ ht => sound_onEnter ht).bind
  intro enter _
  apply (sound_optionalEdges hms).bind
  intro timerEdges _
  apply (sound_optionalEdges hms).bind
  intro eventEdges _
  have hnext : ∀ k t, k.name = "next_state" → root.Part (some k) t →
      Sound root (do ns.checkState .nextState t (← t.asString "next_state")) := by
    intro k t _ ht
    apply (ends_asString ht _).bind
    intro name hname
    exact (ends_checkState ht hname).sound
  apply (Members.sound_optionalOrNull hms hnext).bind
  intro nextState _
  apply (Members.sound_optional hms fun _ _ _ ht => (ends_asBool ht _).sound).bind
  intro isFinal _
  apply (sound_shapeFieldsCheck hm rfl).bind
  intro _ _
  apply (Members.sound_onlyKnown hms _).bind
  intro _ _
  exact Sound.pure

theorem sound_stateNames (hms : root.Owns ms) : Sound root (stateNames ms) := by
  apply Sound.readDistinct (Q := fun m name => name = m.1.name)
  · intro m _
    exact .ok rfl
  · intro m hm name hname
    have hfits : (LoadFault.duplicateName .state name).Fits (some m.1) m.2 :=
      .inr ⟨m.1, rfl, hname.symm⟩
    exact hfits.at (hms m hm)
  · intro m _ name _
    exact .ok

end Readers

namespace Machine

theorem sound_ofToken (t : Token) : Sound t (ofToken t) := by
  have ht : t.Part none t := .root
  apply (ends_asMembers ht _).bind
  intro ms hms
  obtain ⟨hmembers, hms⟩ := hms
  apply (Members.ends_requiredObject ht hmembers hms).bind
  intro eventMembers hevents
  apply (Members.ends_requiredObject ht hmembers hms).bind
  intro stateMembers hstates
  have htimers : ∀ k v, k.name = "timers" → t.Part (some k) v →
      Ends t t.Owns (v.asMembers "timers") :=
    fun _ _ _ hv => (ends_asMembers hv _).imp fun _ h => h.2
  apply (Members.ends_optional hms htimers).bind
  intro timerMembers htimers
  apply (sound_timers (forall_mem_getD htimers)).bind
  intro timers _
  apply (sound_stateNames hstates).bind
  intro names _
  apply (sound_eventList hevents).bind
  intro events _
  apply (Sound.mapM fun m hm => sound_state (hstates m hm)).bind
  intro states _
  apply (Members.ends_requiredString ht hmembers hms).bind
  intro start hstart
  obtain ⟨hname, k, hstart⟩ := hstart
  apply (ends_checkState hstart hname).bind
  intro startState _
  apply (Members.sound_onlyKnown hms _).bind
  intro _ _
  exact Sound.pure

/-- A fault is found at one of the tokens of the tree, with the path of the token and its place or
the place of its key, and what the fault says is true of the token. -/
theorem ofToken_error_located {t : Token} {e : LoadError} (h : ofToken t = .error e) :
    ∃ key n, t.Part key n ∧ e.site.path = n.path ∧
      (e.site.span = n.span ∨ ∃ k s, key = some k ∧ k.span = some s ∧ e.site.span = some s) ∧
      e.fault.Fits key n := by
  have hsound := sound_ofToken t
  rw [h] at hsound
  cases hsound with
  | error he =>
    obtain ⟨key, n, hn, habout⟩ := he
    exact ⟨key, n, hn, habout.path, habout.span, habout.fits⟩

/-- A specification with a state that has a member that no state may have. -/
def misspelled : Token := .object ⟨"", some ⟨1, 1⟩⟩
  [(⟨"events", none⟩, .object {} []),
    (⟨"states", none⟩, .object {}
      [(⟨"A", none⟩, .object {}
        [(⟨"final", none⟩, .bool {} true),
          (⟨"finally", some ⟨4, 5⟩⟩, .null ⟨"states.A.finally", some ⟨4, 16⟩⟩)])]),
    (⟨"start_state", none⟩, .string {} "A")]

theorem ofToken_misspelled :
    ofToken misspelled = .error ⟨.unusedField "finally", "states.A.finally", some ⟨4, 5⟩⟩ ∧
      ∃ key n, misspelled.Part key n ∧ "states.A.finally" = n.path ∧
        (some ⟨4, 5⟩ = n.span ∨
          ∃ k s, key = some k ∧ k.span = some s ∧ (some ⟨4, 5⟩ : Option Span) = some s) ∧
        (LoadFault.unusedField "finally").Fits key n :=
  ⟨by rfl, ofToken_error_located
    (show ofToken misspelled = .error ⟨.unusedField "finally", "states.A.finally", some ⟨4, 5⟩⟩
      from by rfl)⟩

end Machine

end TimedMachine
