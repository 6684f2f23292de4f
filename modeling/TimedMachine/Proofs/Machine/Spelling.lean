import TimedMachine.Proofs.Machine.Clauses
import Mathlib.Logic.Relation

/-!
# Spellings of specifications

A specification can say the same in several ways: a target stands alone or in an object of its own,
what is not said is as good as a default that is written out, and the members of a record may stand
in any order. `Token.Respelled` relates two trees of which the second writes some parts of the first
in another way. It is put together from one relation for each kind of part, each with the ways in
which that part can be written.

Such a relation says what may be done with a part wherever it stands, and everything may be done at
once. `Relation.EqvGen Token.Respelled` is what any number of changes comes to.
-/

namespace TimedMachine

open Format

/-! ## Members that correspond -/

/-- Two members have the same key, and values that `R` relates. -/
inductive Token.SameKey (R : Token → Token → Prop) : Key × Token → Key × Token → Prop
  | mk {k k' : Key} {t t' : Token} (key : k'.name = k.name) (value : R t t') :
    SameKey R (k, t) (k', t')

/-- Two trees differ only in the paths and the places of their tokens. -/
inductive Token.Resited : Token → Token → Prop
  | null {s s' : Site} : Resited (.null s) (.null s')
  | bool {s s' : Site} {b : Bool} : Resited (.bool s b) (.bool s' b)
  | number {s s' : Site} {x : Float} : Resited (.number s x) (.number s' x)
  | string {s s' : Site} {v : String} : Resited (.string s v) (.string s' v)
  | array {s s' : Site} {ts ts' : List Token} (h : List.Forall₂ Resited ts ts') :
    Resited (.array s ts) (.array s' ts')
  | object {s s' : Site} {ms ms' : Members} (h : List.Forall₂ (Token.SameKey Resited) ms ms') :
    Resited (.object s ms) (.object s' ms')

/-- The members of a record are written in another way. A value is written as `R` allows for its
key, the members stand in another order, or one of them is left out, which is a default by `D`. -/
inductive Members.Respelled (R : String → Token → Token → Prop) (D : String → Token → Prop) :
    Members → Members → Prop
  | values {ms ms' : Members} (h : List.Forall₂ (fun m => Token.SameKey (R m.1.name) m) ms ms') :
    Respelled R D ms ms'
  | reordered {ms ms' : Members} (h : ms.Perm ms') : Respelled R D ms ms'
  | dropped {before after : Members} {k : Key} {t : Token} (ht : D k.name t)
      (hk : Lacks (before ++ after) k.name) :
    Respelled R D (before ++ (k, t) :: after) (before ++ after)

namespace Spelling

/-- An object is written in another way, with members that `Q` relates to its own. What is not an
object only changes its places. -/
inductive ByMembers (Q : Members → Members → Prop) : Token → Token → Prop
  | members {s s' : Site} {ms ms' : Members} (h : Q ms ms') :
    ByMembers Q (.object s ms) (.object s' ms')
  | other {t t' : Token} (ht : t.members? = none) (h : t.Resited t') : ByMembers Q t t'

/-- A record is written in another way. -/
abbrev Record (R : String → Token → Token → Prop) (D : String → Token → Prop) :
    Token → Token → Prop :=
  ByMembers (Members.Respelled R D)

/-- The values of an object are written in other ways, and its members keep their order. -/
abbrev Entries (R : Token → Token → Prop) : Token → Token → Prop :=
  ByMembers (List.Forall₂ (Token.SameKey R))

/-- A token that is no object becomes the only member of one. -/
inductive Boxed (key : String) : Token → Token → Prop
  | box {t : Token} {s : Site} {k : Key} (ht : t.members? = none) (hk : k.name = key) :
    Boxed key t (.object s [(k, t)])

/-! ## Edges -/

/-- A target of a decision, which is a target alone or in an object. -/
inductive TargetRespelled : Token → Token → Prop
  | boxed {t t' : Token} (h : Boxed "state" t t') : TargetRespelled t t'
  | record {t t' : Token} (h : Record (fun _ => Token.Resited) (fun _ _ => False) t t') :
    TargetRespelled t t'

/-- The callbacks of an edge. -/
inductive CallbacksRespelled : Token → Token → Prop
  | eventOnly {s s' : Site} : CallbacksRespelled (.bool s true) (.string s' "event_only")
  | single {s s' s'' : Site} {name : String} :
    CallbacksRespelled (.string s name) (.array s' [.string s'' name])

/-- The values in an edge. -/
def EdgeField (key : String) (t t' : Token) : Prop :=
  t.Resited t' ∨ key = "on_traverse" ∧ CallbacksRespelled t t' ∨
    key = "targets" ∧ Entries TargetRespelled t t'

/-- The defaults in an edge: no callbacks and no comment. -/
def EdgeDefault (key : String) (t : Token) : Prop :=
  key = "on_traverse" ∧ (t.bool? = some false ∨ t.items? = some []) ∨
    key = "comment" ∧ t.isNull

/-- An edge, which is a target alone or an object. -/
inductive EdgeRespelled : Token → Token → Prop
  | boxed {t t' : Token} (h : Boxed "state" t t') : EdgeRespelled t t'
  | record {t t' : Token} (h : Record EdgeField EdgeDefault t t') : EdgeRespelled t t'

/-! ## States -/

/-- The defaults in a rule for a delay: numbers that are not given. -/
def RuleDefault (key : String) (t : Token) : Prop :=
  key ∈ ["set", "multiplier", "increment", "min", "max"] ∧ t.isNull

/-- The timers that a state starts: a list of names, or an object of names and rules. The object
that takes the place of a list repeats no key. -/
inductive StartsRespelled : Token → Token → Prop
  | named {s s' : Site} {ts : List Token} {ms : Members}
      (h : List.Forall₂ (fun t m => t.string? = some m.1.name ∧ m.2.isNull) ts ms)
      (hms : (ms.map (·.1.name)).Nodup) :
    StartsRespelled (.array s ts) (.object s' ms)
  | entries {t t' : Token}
      (h : Entries (Record (fun _ => Token.Resited) RuleDefault) t t') : StartsRespelled t t'

/-- The values in the object for entering a state. -/
def OnEnterField (key : String) (t t' : Token) : Prop :=
  t.Resited t' ∨ key = "targets" ∧ Entries TargetRespelled t t'

/-- What a state does on being entered. -/
inductive OnEnterRespelled : Token → Token → Prop
  | yes {s s' : Site} : OnEnterRespelled (.bool s true) (.object s' [])
  | comment {s : Site} {c : String} {t' : Token} (h : Boxed "comment" (.string s c) t') :
    OnEnterRespelled (.string s c) t'
  | record {t t' : Token} (h : Record OnEnterField (fun key t => key = "comment" ∧ t.isNull) t t') :
    OnEnterRespelled t t'

/-- The values in a state. -/
def StateField (key : String) (t t' : Token) : Prop :=
  t.Resited t' ∨ key = "start_timers" ∧ StartsRespelled t t' ∨
    key = "on_enter" ∧ OnEnterRespelled t t' ∨
    (key = "on_timer" ∨ key = "on_event") ∧ Entries EdgeRespelled t t'

/-- The defaults in a state: no timers to start or to stop, nothing to do on being entered, no next
state, and not final. -/
def StateDefault (key : String) (t : Token) : Prop :=
  key = "start_timers" ∧ (t.items? = some [] ∨ t.members? = some []) ∨
    key = "stop_timers" ∧ t.items? = some [] ∨ key = "on_enter" ∧ t.bool? = some false ∨
    key = "next_state" ∧ t.isNull ∨ key = "final" ∧ t.bool? = some false

/-! ## Machines -/

/-- The defaults in an event: armed always, without arguments, and any number of times. -/
def EventDefault (key : String) (t : Token) : Prop :=
  key = "after_states" ∧ t.items? = some [] ∨ key = "args" ∧ t.members? = some [] ∨
    key = "only_once" ∧ t.bool? = some false

/-- The values in a specification. -/
def RootField (key : String) (t t' : Token) : Prop :=
  t.Resited t' ∨ key = "events" ∧ Entries (Record (fun _ => Token.Resited) EventDefault) t t' ∨
    key = "states" ∧ Entries (Record StateField StateDefault) t t'

/-- The default in a specification: no timers. -/
def RootDefault (key : String) (t : Token) : Prop := key = "timers" ∧ t.members? = some []

end Spelling

/-- Parts of a specification are written in other ways. -/
def Token.Respelled : Token → Token → Prop :=
  Spelling.Record Spelling.RootField Spelling.RootDefault

/-! ## Trees that are placed elsewhere -/

theorem Token.SameKey.key {R : Token → Token → Prop} {m m' : Key × Token} (h : SameKey R m m') :
    m'.1.name = m.1.name := by
  cases h with
  | mk key _ => exact key

theorem Token.SameKey.value {R : Token → Token → Prop} {m m' : Key × Token}
    (h : SameKey R m m') : R m.2 m'.2 := by
  cases h with
  | mk _ value => exact value

theorem forall₂_iff_of_forall₂ {α β : Type} {R : α → α → Prop} {P : α → β → Prop} {l l' : List α}
    {bs : List β} (h : List.Forall₂ R l l') (hP : ∀ a a', R a a' → ∀ b, P a b ↔ P a' b) :
    List.Forall₂ P l bs ↔ List.Forall₂ P l' bs := by
  induction h generalizing bs with
  | nil => rfl
  | cons ha _ ih => simp only [List.forall₂_cons_left_iff, hP _ _ ha, ih]

theorem forall₂_iff_eq_map {α β γ : Type} {R : α → β → Prop} {P : α → γ → Prop} {f : β → γ}
    {q : β → Prop} {l : List α} {l' : List β} {cs : List γ} (h : List.Forall₂ R l l')
    (hP : ∀ a b, R a b → ∀ c, P a c ↔ c = f b ∧ q b) :
    List.Forall₂ P l cs ↔ cs = l'.map f ∧ ∀ b ∈ l', q b := by
  induction h generalizing cs with
  | nil => simp
  | cons hab _ ih =>
    simp only [List.forall₂_cons_left_iff, hP _ _ hab, ih, List.map_cons, List.forall_mem_cons]
    constructor
    · intro h
      obtain ⟨c, cs, ⟨rfl, hb⟩, ⟨rfl, hbs⟩, rfl⟩ := h
      exact ⟨rfl, hb, hbs⟩
    · intro h
      obtain ⟨rfl, hb, hbs⟩ := h
      exact ⟨_, _, ⟨rfl, hb⟩, ⟨rfl, hbs⟩, rfl⟩

theorem exists_mem_iff_of_forall₂ {α : Type} {R : α → α → Prop} {p : α → Prop} {l l' : List α}
    (h : List.Forall₂ R l l') (hp : ∀ a a', R a a' → (p a ↔ p a')) :
    (∃ a ∈ l, p a) ↔ ∃ a ∈ l', p a := by
  induction h with
  | nil => simp
  | cons ha _ ih => simp only [List.exists_mem_cons_iff, hp _ _ ha, ih]

namespace Token.Resited

variable {t t' : Token}

theorem isNull_eq (h : t.Resited t') : t'.isNull = t.isNull := by
  cases h <;> rfl

theorem bool?_eq (h : t.Resited t') : t'.bool? = t.bool? := by
  cases h <;> rfl

theorem number?_eq (h : t.Resited t') : t'.number? = t.number? := by
  cases h <;> rfl

theorem string?_eq (h : t.Resited t') : t'.string? = t.string? := by
  cases h <;> rfl

theorem string?_eq_some_iff (h : t.Resited t') (v : String) :
    t.string? = some v ↔ t'.string? = some v := by
  rw [h.string?_eq]

theorem members?_eq_none (h : t.Resited t') (ht : t.members? = none) : t'.members? = none := by
  cases h with
  | object => cases ht
  | null | bool | number | string | array => rfl

/-- What the items of an array say one by one. -/
theorem exists_items_iff {α : Type} {P : Token → α → Prop} {as : List α} (h : t.Resited t')
    (hP : ∀ u u', Resited u u' → ∀ a, P u a ↔ P u' a) :
    (∃ ts, t.items? = some ts ∧ List.Forall₂ P ts as) ↔
      ∃ ts, t'.items? = some ts ∧ List.Forall₂ P ts as := by
  cases h with
  | array hts => simp [Token.items?, forall₂_iff_of_forall₂ hts hP]
  | null | bool | number | string | object => simp [Token.items?]

end Token.Resited

mutual

theorem Token.resited_refl : ∀ t : Token, t.Resited t
  | .null _ => .null
  | .bool _ _ => .bool
  | .number _ _ => .number
  | .string _ _ => .string
  | .array _ ts => .array (Token.resited_refl_items ts)
  | .object _ ms => .object (Token.resited_refl_members ms)

theorem Token.resited_refl_items : ∀ ts : List Token, List.Forall₂ Token.Resited ts ts
  | [] => .nil
  | t :: ts => .cons (Token.resited_refl t) (Token.resited_refl_items ts)

theorem Token.resited_refl_members : ∀ ms : Members,
    List.Forall₂ (Token.SameKey Token.Resited) ms ms
  | [] => .nil
  | (_, t) :: ms => .cons ⟨rfl, Token.resited_refl t⟩ (Token.resited_refl_members ms)

end

/-! ## What members say -/

namespace Members.Respelled

variable {α β : Type} {R : String → Token → Token → Prop} {D : String → Token → Prop}
  {ms ms' : Members} {key : String} {Q : Token → α → Prop}

/-- What the member with a key says stays the same if it does so for any value that may take its
place, and if a default says the same as no member. -/
theorem tells_iff {P : Token → Prop} {absent : Prop} (h : Respelled R D ms ms')
    (hR : ∀ t t', R key t t' → (P t ↔ P t')) (hD : ∀ t, D key t → (P t ↔ absent)) :
    Tells ms key P absent ↔ Tells ms' key P absent := by
  cases h with
  | values h =>
    have hlacks : (∃ m ∈ ms, m.1.name = key) ↔ ∃ m ∈ ms', m.1.name = key :=
      exists_mem_iff_of_forall₂ h fun m m' hm => by rw [hm.key]
    have htells : (∃ m ∈ ms, m.1.name = key ∧ P m.2) ↔ ∃ m ∈ ms', m.1.name = key ∧ P m.2 := by
      apply exists_mem_iff_of_forall₂ h
      intro m m' hm
      rw [hm.key]
      apply and_congr_right
      intro hkey
      exact hR _ _ (hkey ▸ hm.value)
    rw [← not_iff_not] at hlacks
    push Not at hlacks
    exact or_congr (and_congr_left fun _ => hlacks) htells
  | reordered h => exact tells_perm h
  | @dropped before after k t ht hk =>
    rw [tells_perm List.perm_middle, tells_cons]
    by_cases hkey : k.name = key
    · -- the member with the key is the one that is left out
      subst hkey
      have hnone : ¬∃ m ∈ before ++ after, m.1.name = k.name ∧ P m.2 :=
        fun ⟨m, hm, hname, _⟩ => hk m hm hname
      simp only [Tells, hnone, hk, hD t ht, ne_eq, not_true, false_and, true_and, false_or,
        or_false]
    · simp only [Tells, hkey, ne_eq, not_false_iff, true_and, false_and, false_or]

theorem onlyHas_iff {keys : List String} (h : Respelled R D ms ms')
    (hD : ∀ key t, D key t → key ∈ keys) : OnlyHas ms keys ↔ OnlyHas ms' keys := by
  cases h with
  | values h =>
    have hother : (∃ m ∈ ms, m.1.name ∉ keys) ↔ ∃ m ∈ ms', m.1.name ∉ keys :=
      exists_mem_iff_of_forall₂ h fun m m' hm => by rw [hm.key]
    rw [← not_iff_not] at hother
    push Not at hother
    exact hother
  | reordered h => simp only [OnlyHas, h.mem_iff]
  | dropped ht _ =>
    have hknown := hD _ _ ht
    simp only [OnlyHas, List.mem_append, List.mem_cons]
    constructor
    · intro h m hm
      exact h m (hm.imp_right .inr)
    · intro h m hm
      obtain hm | rfl | hm := hm
      · exact h m (.inl hm)
      · exact hknown
      · exact h m (.inr hm)

theorem lacks_iff (h : Respelled R D ms ms') (hD : ∀ t, ¬D key t) :
    Lacks ms key ↔ Lacks ms' key := by
  rw [lacks_iff_tells, lacks_iff_tells]
  exact h.tells_iff (fun _ _ _ => Iff.rfl) fun t ht => absurd ht (hD t)

theorem exists_has_iff {P : Token → Prop} (h : Respelled R D ms ms')
    (hR : ∀ t t', R key t t' → (P t ↔ P t')) (hD : ∀ t, ¬D key t) :
    (∃ t, Has ms key t ∧ P t) ↔ ∃ t, Has ms' key t ∧ P t := by
  rw [exists_has_iff_tells, exists_has_iff_tells]
  exact h.tells_iff hR fun t ht => absurd ht (hD t)

/-- A member that may be left out for a default. -/
theorem default_iff {g : Option α → β} {b : β} (h : Respelled R D ms ms')
    (hR : ∀ t t', R key t t' → ∀ a, Q t a ↔ Q t' a)
    (hD : ∀ t, D key t → ((∃ a, Q t a ∧ b = g (some a)) ↔ b = g none)) :
    (∃ o, Optional ms key Q o ∧ b = g o) ↔ ∃ o, Optional ms' key Q o ∧ b = g o := by
  rw [optional_iff_tells, optional_iff_tells]
  exact h.tells_iff (fun t t' ht => by simp only [hR t t' ht]) hD

theorem optional_iff {o : Option α} (h : Respelled R D ms ms')
    (hR : ∀ t t', R key t t' → ∀ a, Q t a ↔ Q t' a) (hD : ∀ t, ¬D key t) :
    Optional ms key Q o ↔ Optional ms' key Q o := by
  have hdefault := h.default_iff (g := id) (b := o) hR fun t ht => absurd ht (hD t)
  simpa using hdefault

/-- A member that may be `null` and that only changes its places otherwise. -/
theorem optionalOrNull_iff {o : Option α} (h : Respelled R D ms ms')
    (hR : ∀ t t', R key t t' → t.Resited t')
    (hQ : ∀ t t', Token.Resited t t' → ∀ a, Q t a ↔ Q t' a) (hD : ∀ t, D key t → t.isNull) :
    OptionalOrNull ms key Q o ↔ OptionalOrNull ms' key Q o := by
  rw [optionalOrNull_iff_tells, optionalOrNull_iff_tells]
  apply h.tells_iff
  · intro t t' ht
    have hresited := hR t t' ht
    simp only [hresited.isNull_eq, hQ t t' hresited]
  · intro t ht
    simp [hD t ht]

/-- A member that is a string or `null`. -/
theorem text_iff {o : Option String} (h : Respelled R D ms ms')
    (hR : ∀ t t', R key t t' → t.Resited t') (hD : ∀ t, D key t → t.isNull) :
    OptionalOrNull ms key (fun t s => t.string? = some s) o ↔
      OptionalOrNull ms' key (fun t s => t.string? = some s) o :=
  h.optionalOrNull_iff hR (fun _ _ => Token.Resited.string?_eq_some_iff) hD

/-- A member that is a Boolean and may be left out for `false`. -/
theorem flag_iff {b : Bool} (h : Respelled R D ms ms') (hR : ∀ t t', R key t t' → t.Resited t')
    (hD : ∀ t, D key t → t.bool? = some false) :
    (∃ o, Optional ms key (fun t b => t.bool? = some b) o ∧ b = o.getD false) ↔
      ∃ o, Optional ms' key (fun t b => t.bool? = some b) o ∧ b = o.getD false := by
  apply h.default_iff
  · intro t t' ht b
    rw [(hR t t' ht).bool?_eq]
  · intro t ht
    simp [hD t ht]

end Members.Respelled

namespace Spelling.ByMembers

variable {α : Type} {Q : Members → Members → Prop} {R : Token → Token → Prop} {t t' : Token}

/-- What an object says by its members. -/
theorem exists_members_iff {P : Members → Prop} (h : ByMembers Q t t')
    (hP : ∀ ms ms', Q ms ms' → (P ms ↔ P ms')) :
    (∃ ms, t.members? = some ms ∧ P ms) ↔ ∃ ms, t'.members? = some ms ∧ P ms := by
  cases h with
  | members h => simp [Token.members?, hP _ _ h]
  | other ht h => simp [ht, h.members?_eq_none ht]

theorem isNull_eq (h : ByMembers Q t t') : t'.isNull = t.isNull := by
  cases h with
  | members => rfl
  | other _ h => exact h.isNull_eq

theorem bool?_eq (h : ByMembers Q t t') : t'.bool? = t.bool? := by
  cases h with
  | members => rfl
  | other _ h => exact h.bool?_eq

theorem string?_eq (h : ByMembers Q t t') : t'.string? = t.string? := by
  cases h with
  | members => rfl
  | other _ h => exact h.string?_eq

theorem isObjectOf_iff {P : Key × Token → α → Prop} {parts : List α} (h : Entries R t t')
    (hP : ∀ m m', Token.SameKey R m m' → ∀ a, P m a ↔ P m' a) :
    IsObjectOf P t parts ↔ IsObjectOf P t' parts :=
  exists_members_iff h fun _ _ hms => forall₂_iff_of_forall₂ hms hP

/-- A tree that is only placed elsewhere is a spelling, if its members are. -/
theorem of_resited
    (hQ : ∀ ms ms', List.Forall₂ (Token.SameKey Token.Resited) ms ms' → Q ms ms')
    (h : t.Resited t') : ByMembers Q t t' := by
  cases h with
  | object h => exact .members (hQ _ _ h)
  | null => exact .other rfl .null
  | bool => exact .other rfl .bool
  | number => exact .other rfl .number
  | string => exact .other rfl .string
  | array h => exact .other rfl (.array h)

theorem entries_of_resited (hR : ∀ u u', Token.Resited u u' → R u u') (h : t.Resited t') :
    Entries R t t' :=
  of_resited (fun _ _ hms => hms.imp fun _ _ hm => ⟨hm.key, hR _ _ hm.value⟩) h

theorem record_of_resited {R : String → Token → Token → Prop} {D : String → Token → Prop}
    (hR : ∀ key u u', Token.Resited u u' → R key u u') (h : t.Resited t') : Record R D t t' :=
  of_resited
    (fun _ _ hms => .values (hms.imp fun _ _ hm => ⟨hm.key, hR _ _ _ hm.value⟩)) h

end Spelling.ByMembers

end TimedMachine
