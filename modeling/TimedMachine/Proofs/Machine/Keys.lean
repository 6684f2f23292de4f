import TimedMachine.Proofs.Machine.Format
import TimedMachine.Proofs.Machine.Fields
import Mathlib.Data.List.Nodup

/-!
# Reading objects without repeated keys

A reader takes the members of an object by their keys and finds the first with each. In an object
that repeats no key this is the only one, and success of a reader says what the format says: that
the member is there, that it is not, or that there are no others. The lemmas here are about the
pieces that readers are put together from; each turns success of a piece into the format's word
for it.
-/

namespace TimedMachine

open Loaded Format

/-! ## Tokens with a value -/

namespace Token

variable {t : Token}

theorem eq_null (h : t.isNull) : ∃ s, t = .null s := by
  cases t with
  | null s => exact ⟨s, rfl⟩
  | bool | number | string | array | object => cases h

theorem eq_bool {b : Bool} (h : t.bool? = some b) : ∃ s, t = .bool s b := by
  cases t with
  | bool s =>
    cases h
    exact ⟨s, rfl⟩
  | null | number | string | array | object => cases h

theorem eq_string {v : String} (h : t.string? = some v) : ∃ s, t = .string s v := by
  cases t with
  | string s =>
    cases h
    exact ⟨s, rfl⟩
  | null | bool | number | array | object => cases h

theorem eq_array {ts : List Token} (h : t.items? = some ts) : ∃ s, t = .array s ts := by
  cases t with
  | array s =>
    cases h
    exact ⟨s, rfl⟩
  | null | bool | number | string | object => cases h

theorem eq_object {ms : Members} (h : t.members? = some ms) : ∃ s, t = .object s ms := by
  cases t with
  | object s =>
    cases h
    exact ⟨s, rfl⟩
  | null | bool | number | string | array => cases h

end Token

/-! ## Distinct keys -/

/-- The keys of an object differ, and so do those of all objects in it. -/
def Members.DistinctKeys (ms : Members) : Prop :=
  (ms.map (·.1.name)).Nodup ∧ ∀ m ∈ ms, m.2.distinctKeys

theorem Token.membersDistinctKeys_iff {ms : Members} :
    membersDistinctKeys ms ↔ ∀ m ∈ ms, m.2.distinctKeys := by
  induction ms with
  | nil => simp [membersDistinctKeys]
  | cons m ms ih => simp [membersDistinctKeys, ih]

theorem Token.distinctKeys_of_members {t : Token} {ms : Members} (ht : t.distinctKeys)
    (h : t.members? = some ms) : ms.DistinctKeys := by
  obtain ⟨s, rfl⟩ := eq_object h
  simpa [distinctKeys, Members.DistinctKeys, membersDistinctKeys_iff] using ht

namespace Members

variable {ms : Members} {key : String} {t : Token}

theorem get?_eq_none_iff : ms.get? key = none ↔ Lacks ms key := by
  simp [Members.get?, Lacks]

/-- With distinct keys, the member that a look-up finds is the one with the key. -/
theorem get?_eq_some_iff (hms : ms.DistinctKeys) : ms.get? key = some t ↔ Has ms key t := by
  constructor
  · intro h
    obtain ⟨⟨k, t⟩, hm, rfl⟩ := Option.map_eq_some_iff.1 h
    exact ⟨k, List.mem_of_find?_eq_some hm, by simpa using List.find?_some hm⟩
  · rintro ⟨k, hk, rfl⟩
    unfold Members.get?
    cases h : ms.find? fun m => m.1.name == k.name with
    | none =>
      have hne := List.find?_eq_none.1 h (k, t) hk
      simp at hne
    | some m =>
      -- a member with the same key is the same member
      have hm : m.1.name = k.name := by simpa using List.find?_some h
      rw [List.inj_on_of_nodup_map hms.1 (List.mem_of_find?_eq_some h) hk hm]
      rfl

theorem distinctKeys_of_has (hms : ms.DistinctKeys) (h : Has ms key t) : t.distinctKeys := by
  obtain ⟨k, hk, -⟩ := h
  exact hms.2 _ hk

/-! ## Members -/

variable {α β : Type} {read : Token → Loaded α} {R : Token → α → Prop}

theorem optional_eq_ok_iff (hms : ms.DistinctKeys)
    (hread : ∀ t, t.distinctKeys → ∀ a, read t = .ok a ↔ R t a) {o : Option α} :
    ms.optional key read = .ok o ↔ Optional ms key R o := by
  rw [optional_eq_ok]
  constructor
  · rintro (⟨h, rfl⟩ | ⟨t, ht, a, ha, rfl⟩)
    · exact .absent (get?_eq_none_iff.1 h)
    · rw [get?_eq_some_iff hms] at ht
      exact .present ht ((hread t (distinctKeys_of_has hms ht) a).1 ha)
  · rintro (h | ⟨ht, ha⟩)
    · exact .inl ⟨get?_eq_none_iff.2 h, rfl⟩
    · exact .inr ⟨_, (get?_eq_some_iff hms).2 ht, _,
        (hread _ (distinctKeys_of_has hms ht) _).2 ha, rfl⟩

theorem optionalOrNull_eq_ok_iff (hms : ms.DistinctKeys)
    (hread : ∀ t, ∀ a, read t = .ok a ↔ R t a) {o : Option α} :
    ms.optionalOrNull key read = .ok o ↔ OptionalOrNull ms key R o := by
  constructor
  · intro h
    cases o with
    | some a =>
      obtain ⟨t, ht, hnull, ha⟩ := optionalOrNull_eq_some.1 h
      exact .present ((get?_eq_some_iff hms).1 ht) hnull ((hread t a).1 ha)
    | none =>
      -- nothing comes of a member that is not there, nor of one that is `null`
      simp only [optionalOrNull, map_eq_ok, optional_eq_ok] at h
      obtain ⟨o, ⟨hnone, rfl⟩ | ⟨t, ht, o, ho, rfl⟩, hjoin⟩ := h
      · exact .absent (get?_eq_none_iff.1 hnone)
      · obtain rfl : o = none := hjoin
        cases t
        case null s => exact .null ((get?_eq_some_iff hms).1 ht)
        all_goals
          obtain ⟨a, -, h⟩ := map_eq_ok.1 ho
          cases h
  · rintro (h | h | ⟨h, hnull, ha⟩)
    · simp [optionalOrNull, Members.optional, get?_eq_none_iff.2 h, Except.map]
    · simp [optionalOrNull, Members.optional, (get?_eq_some_iff hms).2 h, Token.isNull, Except.map]
    · exact optionalOrNull_eq_some.2 ⟨_, (get?_eq_some_iff hms).2 h, hnull, (hread _ _).2 ha⟩

theorem onlyKnown_eq_ok_iff {keys : List String} {u : Unit} :
    ms.onlyKnown keys = .ok u ↔ OnlyHas ms keys := by
  have hfind : ms.find? (fun m => !keys.contains m.1.name) = none ↔ OnlyHas ms keys := by
    simp [List.find?_eq_none, OnlyHas]
  rw [← hfind]
  unfold Members.onlyKnown
  split
  · next h =>
    rw [h]
    exact ⟨nofun, nofun⟩
  · next h => exact ⟨fun _ => h, fun _ => rfl⟩

theorem required_eq_ok_iff (hms : ms.DistinctKeys) {t v : Token} :
    ms.required t key = .ok v ↔ Has ms key v := by
  rw [← get?_eq_some_iff hms]
  unfold Members.required
  cases ms.get? key with
  | none => simp
  | some v => simp

end Members

/-! ## Types -/

section Types

variable {t : Token} {name : String}

theorem asString_eq_ok_iff {s : String} : t.asString name = .ok s ↔ t.string? = some s := by
  cases t <;> simp [Token.asString, Token.string?]

theorem asBool_eq_ok_iff {b : Bool} : t.asBool name = .ok b ↔ t.bool? = some b := by
  cases t <;> simp [Token.asBool, Token.bool?]

theorem asNumber_eq_ok_iff {x : Float} : t.asNumber name = .ok x ↔ t.number? = some x := by
  cases t <;> simp [Token.asNumber, Token.number?]

theorem asItems_eq_ok_iff {ts : List Token} : t.asItems name = .ok ts ↔ t.items? = some ts := by
  cases t <;> simp [Token.asItems, Token.items?]

theorem asMembers_eq_ok_iff {ms : Members} :
    t.asMembers name = .ok ms ↔ t.members? = some ms := by
  cases t <;> simp [Token.asMembers, Token.members?]

end Types

namespace Members

variable {ms : Members} {t : Token} {key name : String}

theorem requiredObject_eq_ok_iff (hms : ms.DistinctKeys) {ms' : Members} :
    ms.requiredObject t key = .ok ms' ↔ ∃ v, Has ms key v ∧ v.members? = some ms' := by
  simp only [requiredObject, bind_eq_ok, required_eq_ok_iff hms, asMembers_eq_ok_iff]

theorem requiredString_eq_ok_iff (hms : ms.DistinctKeys) {s : String} {v : Token} :
    ms.requiredString t key = .ok (s, v) ↔ Has ms key v ∧ v.string? = some s := by
  simp only [requiredString, bind_eq_ok, guard_eq_ok, pure_eq_ok, required_eq_ok_iff hms,
    asString_eq_ok_iff, Prod.mk.injEq]
  constructor
  · rintro ⟨_, hv, -, _, hs, rfl, rfl⟩
    exact ⟨hv, hs⟩
  · rintro ⟨hv, hs⟩
    refine ⟨v, hv, ?_, s, hs, rfl, rfl⟩
    intro hnull
    obtain ⟨_, rfl⟩ := Token.eq_null hnull
    cases hs

theorem optionalBool_eq_ok_iff (hms : ms.DistinctKeys) {o : Option Bool} :
    ms.optional key (·.asBool name) = .ok o ↔ Optional ms key (fun t b => t.bool? = some b) o :=
  optional_eq_ok_iff hms fun _ _ _ => asBool_eq_ok_iff

theorem optionalString_eq_ok_iff (hms : ms.DistinctKeys) {o : Option String} :
    ms.optionalOrNull key (·.asString name) = .ok o ↔
      OptionalOrNull ms key (fun t s => t.string? = some s) o :=
  optionalOrNull_eq_ok_iff hms fun _ _ => asString_eq_ok_iff

end Members

/-! ## Lists -/

section Lists

variable {α β γ : Type}

theorem forall₂_iff_of_mem {R S : α → β → Prop} {l : List α} {l' : List β}
    (h : ∀ a ∈ l, ∀ b, R a b ↔ S a b) : List.Forall₂ R l l' ↔ List.Forall₂ S l l' := by
  induction l generalizing l' with
  | nil => simp
  | cons a l ih =>
    simp only [List.forall₂_cons_left_iff, h a List.mem_cons_self,
      ih fun a ha => h a (List.mem_cons_of_mem _ ha)]

theorem mapM_eq_ok_iff {read : α → Loaded β} {R : α → β → Prop} {l : List α} {l' : List β}
    (h : ∀ a ∈ l, ∀ b, read a = .ok b ↔ R a b) :
    l.mapM read = .ok l' ↔ List.Forall₂ R l l' := by
  rw [mapM_eq_ok, forall₂_iff_of_mem h]

/-- Members that are named by their keys are read one by one, because distinct keys repeat no
name. -/
theorem readDistinct_members_eq_ok_iff {check : Key × Token → Loaded β} {name : β → String}
    {duplicate : Key × Token → β → LoadError} {read : Key × Token → β → Loaded γ}
    {R : Key × Token → γ → Prop} {nameOf : γ → String} {ms : Members} {cs : List γ}
    (hms : ms.DistinctKeys) (hname : ∀ m b c, read m b = .ok c → nameOf c = name b)
    (hkey : ∀ m c, R m c → nameOf c = m.1.name)
    (h : ∀ m ∈ ms, ∀ c, (∃ b, check m = .ok b ∧ read m b = .ok c) ↔ R m c) :
    readDistinct check name duplicate read [] ms = .ok cs ↔ List.Forall₂ R ms cs := by
  rw [readDistinct_eq_ok hname, forall₂_iff_of_mem h]
  constructor
  · rintro ⟨hall, -⟩
    exact hall
  · intro hall
    refine ⟨hall, ?_, by simp⟩
    rw [map_eq_map_of_forall₂ hkey hall]
    exact hms.1

/-- Members that are read in one go and named by their keys. -/
theorem readDistinct_named_eq_ok_iff {read : Key × Token → Loaded β} {name : β → String}
    {duplicate : Key × Token → β → LoadError} {R : Key × Token → β → Prop} {ms : Members}
    {bs : List β} (hms : ms.DistinctKeys) (hkey : ∀ m b, R m b → name b = m.1.name)
    (h : ∀ m ∈ ms, ∀ b, read m = .ok b ↔ R m b) :
    readDistinct read name duplicate (fun _ b => .ok b) [] ms = .ok bs ↔ List.Forall₂ R ms bs := by
  rw [readDistinct_ok_eq_ok, forall₂_iff_of_mem h]
  constructor
  · rintro ⟨hall, -⟩
    exact hall
  · intro hall
    refine ⟨hall, ?_⟩
    rw [map_eq_map_of_forall₂ hkey hall]
    exact hms.1

end Lists

/-- A member that is read only if it is there, and the rest of it as if it were empty otherwise. -/
theorem Members.optional_getD_eq_ok_iff {α β γ : Type} {ms : Members} {key : String}
    {first : Token → Loaded (List β)} {R : Token → α → Prop} (rest : List β → Loaded γ)
    (g : Option α → γ) (hms : ms.DistinctKeys) (hnone : rest [] = .ok (g none))
    (hread : ∀ t, t.distinctKeys → ∀ c,
      (∃ bs, first t = .ok bs ∧ rest bs = .ok c) ↔ ∃ a, R t a ∧ c = g (some a)) {c : γ} :
    (∃ o, ms.optional key first = .ok o ∧ rest (o.getD []) = .ok c) ↔
      ∃ o, Optional ms key R o ∧ c = g o := by
  simp only [optional_eq_ok]
  constructor
  · rintro ⟨_, ⟨h, rfl⟩ | ⟨t, ht, bs, hbs, rfl⟩, hc⟩
    · rw [Option.getD_none, hnone] at hc
      cases hc
      exact ⟨none, .absent (get?_eq_none_iff.1 h), rfl⟩
    · rw [get?_eq_some_iff hms] at ht
      obtain ⟨a, ha, rfl⟩ := (hread t (distinctKeys_of_has hms ht) c).1 ⟨bs, hbs, hc⟩
      exact ⟨some a, .present ht ha, rfl⟩
  · rintro ⟨_, h | ⟨ht, ha⟩, rfl⟩
    · exact ⟨none, .inl ⟨get?_eq_none_iff.2 h, rfl⟩, hnone⟩
    · obtain ⟨bs, hbs, hc⟩ := (hread _ (distinctKeys_of_has hms ht) _).2 ⟨_, ha, rfl⟩
      exact ⟨some bs, .inr ⟨_, (get?_eq_some_iff hms).2 ht, bs, hbs, rfl⟩, hc⟩

theorem optional_and_iff {α : Type} {ms : Members} {key : String} {R : Token → α → Prop}
    {p : α → Prop} {o : Option α} :
    Optional ms key (fun t a => R t a ∧ p a) o ↔ Optional ms key R o ∧ ∀ a ∈ o, p a := by
  constructor
  · rintro (h | ⟨ht, ha, hp⟩)
    · exact ⟨.absent h, by simp⟩
    · exact ⟨.present ht ha, by simpa using hp⟩
  · rintro ⟨h | ⟨ht, ha⟩, hp⟩
    · exact .absent h
    · exact .present ht ⟨ha, hp _ rfl⟩

/-- An object is read member by member. -/
theorem asMembers_bind_eq_ok_iff {α : Type} {t : Token} {name : String}
    {read : Members → Loaded (List α)} {R : Key × Token → α → Prop} {as : List α}
    (ht : t.distinctKeys)
    (h : ∀ ms : Members, ms.DistinctKeys → ∀ as, read ms = .ok as ↔ List.Forall₂ R ms as) :
    (∃ ms, t.asMembers name = .ok ms ∧ read ms = .ok as) ↔ IsObjectOf R t as := by
  simp only [asMembers_eq_ok_iff, IsObjectOf]
  constructor
  · rintro ⟨ms, hms, has⟩
    exact ⟨ms, hms, (h ms (Token.distinctKeys_of_members ht hms) as).1 has⟩
  · rintro ⟨ms, hms, has⟩
    exact ⟨ms, hms, (h ms (Token.distinctKeys_of_members ht hms) as).2 has⟩

/-- Optional members that are read one by one. -/
theorem optional_members_eq_ok_iff {α : Type} {ms : Members} {key name : String}
    {read : Members → Loaded (List α)} {R : Key × Token → α → Prop} {as : List α}
    (hms : ms.DistinctKeys)
    (h : ∀ ms : Members, ms.DistinctKeys → ∀ as, read ms = .ok as ↔ List.Forall₂ R ms as) :
    (∃ o, ms.optional key (·.asMembers name) = .ok o ∧ read (o.getD []) = .ok as) ↔
      ∃ o, Optional ms key (IsObjectOf R) o ∧ as = o.getD [] := by
  refine Members.optional_getD_eq_ok_iff read (fun o => o.getD []) hms ?_ ?_
  · exact (h [] ⟨List.nodup_nil, by simp⟩ []).2 .nil
  · intro t ht as
    simp [asMembers_bind_eq_ok_iff ht h]

end TimedMachine
