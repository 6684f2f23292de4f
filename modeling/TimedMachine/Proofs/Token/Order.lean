import TimedMachine.Proofs.Machine.Keys
import Mathlib.Data.List.Perm.Basic
import Mathlib.Logic.Relation

/-!
# The order of members

Two trees are reorderings of each other if they differ only in the order in which objects list
their members (`Token.Reordered`): one comes from the other by any number of steps, each of which
permutes the members of one object somewhere in the tree.

Seen from the root, an object is reordered by reordering the values of its members one by one and
permuting the members, and an array by reordering its items in place. `Rearranged` says this of
lists in general: two lists correspond item by item, up to a permutation. What is read off a list,
one part for each item, can be read off a rearranged one too, and the parts are rearranged.
-/

namespace TimedMachine

/-! ## Lists that correspond up to a permutation -/

section Rearranged

variable {α β : Type} {R S : α → α → Prop} {l l' l'' : List α}

theorem forall₂_trans {l₁ l₂ l₃ : List α} (hR : ∀ a b c, R a b → R b c → R a c)
    (h : List.Forall₂ R l₁ l₂) (h' : List.Forall₂ R l₂ l₃) : List.Forall₂ R l₁ l₃ := by
  induction h generalizing l₃ with
  | nil => exact h'
  | cons hab _ ih =>
    obtain ⟨c, l, hbc, hl, rfl⟩ := List.forall₂_cons_left_iff.mp h'
    exact .cons (hR _ _ _ hab hbc) (ih hl)

/-- Two lists correspond item by item after a permutation of the second. -/
def Rearranged (R : α → α → Prop) (l l' : List α) : Prop :=
  ∃ mid, List.Forall₂ R l mid ∧ mid.Perm l'

namespace Rearranged

theorem of_perm (hR : ∀ a, R a a) (h : l.Perm l') : Rearranged R l l' :=
  ⟨l, List.forall₂_same.mpr fun a _ => hR a, h⟩

theorem symm (h : Rearranged R l l') (hRS : ∀ a b, R a b → S b a) : Rearranged S l' l := by
  obtain ⟨mid, hmid, hperm⟩ := h
  have hflip : List.Forall₂ S mid l := (hmid.imp hRS).flip
  exact List.perm_comp_forall₂ hperm.symm hflip

theorem trans (hR : ∀ a b c, R a b → R b c → R a c) (h : Rearranged R l l')
    (h' : Rearranged R l' l'') : Rearranged R l l'' := by
  obtain ⟨mid, hmid, hperm⟩ := h
  obtain ⟨mid', hmid', hperm'⟩ := h'
  -- the permutation in the middle moves behind the second correspondence
  obtain ⟨l₂, hl₂, hperm₂⟩ := List.perm_comp_forall₂ hperm hmid'
  exact ⟨l₂, forall₂_trans hR hmid hl₂, hperm₂.trans hperm'⟩

/-- Lists that correspond by equality are permutations. -/
theorem perm (h : Rearranged Eq l l') : l.Perm l' := by
  obtain ⟨mid, hmid, hperm⟩ := h
  rw [List.forall₂_eq_eq_eq] at hmid
  exact hmid ▸ hperm

theorem perm_map {f : α → β} (hf : ∀ a b, R a b → f b = f a) (h : Rearranged R l l') :
    (l.map f).Perm (l'.map f) := by
  obtain ⟨mid, hmid, hperm⟩ := h
  rw [← map_eq_map_of_forall₂ hf hmid]
  exact hperm.map f

theorem exists_right (h : Rearranged R l l') {a : α} (ha : a ∈ l) : ∃ b ∈ l', R a b := by
  obtain ⟨mid, hmid, hperm⟩ := h
  obtain ⟨b, hb, hab⟩ := exists_of_mem_forall₂ hmid.flip ha
  exact ⟨b, hperm.mem_iff.mp hb, hab⟩

theorem exists_left (h : Rearranged R l l') {b : α} (hb : b ∈ l') : ∃ a ∈ l, R a b := by
  obtain ⟨mid, hmid, hperm⟩ := h
  exact exists_of_mem_forall₂ hmid (hperm.mem_iff.mpr hb)

/-- What corresponds item by item to a list has a rearrangement that corresponds to a rearrangement
of the list. -/
theorem exists_parts {P P' : α → β → Prop} {Q : β → β → Prop} {parts : List β}
    (h : Rearranged R l l') (hparts : List.Forall₂ P l parts)
    (hstep : ∀ a a' b, R a a' → P a b → ∃ b', P' a' b' ∧ Q b b') :
    ∃ parts', List.Forall₂ P' l' parts' ∧ Rearranged Q parts parts' := by
  obtain ⟨mid, hmid, hperm⟩ := h
  -- the items first, one by one, and then the permutation is taken over to the parts
  have hpointwise : ∃ parts₁, List.Forall₂ P' mid parts₁ ∧ List.Forall₂ Q parts parts₁ := by
    clear hperm
    induction hmid generalizing parts with
    | nil =>
      cases hparts
      exact ⟨[], .nil, .nil⟩
    | cons ha _ ih =>
      obtain ⟨b, bs, hb, hbs, rfl⟩ := List.forall₂_cons_left_iff.mp hparts
      obtain ⟨b', hb', hbb'⟩ := hstep _ _ _ ha hb
      obtain ⟨bs', hbs', hbbs'⟩ := ih hbs
      exact ⟨b' :: bs', .cons hb' hbs', .cons hbb' hbbs'⟩
  obtain ⟨parts₁, hparts₁, hQ⟩ := hpointwise
  obtain ⟨parts', hparts', hperm'⟩ := List.perm_comp_forall₂ hperm.symm hparts₁
  exact ⟨parts', hparts', parts₁, hQ, hperm'.symm⟩

end Rearranged

end Rearranged

/-! ## Trees -/

/-- The members of one object in a tree are permuted, and nothing else changes. -/
inductive Token.Permutes : Token → Token → Prop
  | members {s : Site} {ms ms' : Members} (h : ms.Perm ms') :
    Permutes (.object s ms) (.object s ms')
  | member {s : Site} {before after : Members} {k : Key} {t t' : Token} (h : Permutes t t') :
    Permutes (.object s (before ++ (k, t) :: after)) (.object s (before ++ (k, t') :: after))
  | item {s : Site} {before after : List Token} {t t' : Token} (h : Permutes t t') :
    Permutes (.array s (before ++ t :: after)) (.array s (before ++ t' :: after))

/-- A tree comes from another by permuting the members of any of its objects. -/
def Token.Reordered : Token → Token → Prop := Relation.ReflTransGen Token.Permutes

/-- Two members have the same key, and values that differ only in the order of members. -/
structure Token.SameMember (m m' : Key × Token) : Prop where
  key : m'.1 = m.1
  value : m.2.Reordered m'.2

/-- The members of an object are permuted, and so are those of any object in their values. -/
abbrev Members.Reordered (ms ms' : Members) : Prop := Rearranged Token.SameMember ms ms'

namespace Token

theorem Permutes.symm {t t' : Token} (h : t.Permutes t') : t'.Permutes t := by
  induction h with
  | members h => exact .members h.symm
  | member _ ih => exact .member ih
  | item _ ih => exact .item ih

theorem itemsDistinctKeys_iff {ts : List Token} :
    itemsDistinctKeys ts ↔ ∀ t ∈ ts, t.distinctKeys := by
  induction ts with
  | nil => simp [itemsDistinctKeys]
  | cons t ts ih => simp [itemsDistinctKeys, ih]

/-- Permuting members neither repeats a key nor removes a repetition. -/
theorem Permutes.distinctKeys_eq {t t' : Token} (h : t.Permutes t') :
    t'.distinctKeys = t.distinctKeys := by
  induction h with
  | members h =>
    rw [Bool.eq_iff_iff]
    simp only [distinctKeys, Bool.and_eq_true, decide_eq_true_eq, membersDistinctKeys_iff,
      (h.map _).nodup_iff, h.mem_iff]
  | member _ ih =>
    rw [Bool.eq_iff_iff]
    simp [distinctKeys, membersDistinctKeys_iff, or_imp, forall_and, ih]
  | item _ ih =>
    rw [Bool.eq_iff_iff]
    simp [distinctKeys, itemsDistinctKeys_iff, or_imp, forall_and, ih]

theorem SameMember.refl (m : Key × Token) : SameMember m m := ⟨rfl, .refl⟩

namespace Reordered

variable {t t' : Token}

theorem symm (h : t.Reordered t') : t'.Reordered t := by
  have hsymm : Std.Symm Permutes := ⟨fun _ _ => Permutes.symm⟩
  exact Relation.ReflTransGen.stdSymm.symm _ _ h

/-- What no permutation of members changes, no reordering changes. -/
theorem congr {α : Type} {f : Token → α} (hf : ∀ t t', Permutes t t' → f t' = f t)
    (h : t.Reordered t') : f t' = f t := by
  induction h with
  | refl => rfl
  | tail _ hstep ih => exact (hf _ _ hstep).trans ih

theorem distinctKeys_eq (h : t.Reordered t') : t'.distinctKeys = t.distinctKeys :=
  h.congr fun _ _ => Permutes.distinctKeys_eq

theorem isNull_eq (h : t.Reordered t') : t'.isNull = t.isNull := by
  refine h.congr fun _ _ hstep => ?_
  cases hstep <;> rfl

theorem bool?_eq (h : t.Reordered t') : t'.bool? = t.bool? := by
  refine h.congr fun _ _ hstep => ?_
  cases hstep <;> rfl

theorem number?_eq (h : t.Reordered t') : t'.number? = t.number? := by
  refine h.congr fun _ _ hstep => ?_
  cases hstep <;> rfl

theorem string?_eq (h : t.Reordered t') : t'.string? = t.string? := by
  refine h.congr fun _ _ hstep => ?_
  cases hstep <;> rfl

/-- A tree in which nothing can be permuted stays as it is. -/
theorem eq_of_not_permutes (ht : ∀ u, ¬t.Permutes u) (h : t.Reordered t') : t' = t := by
  rcases Relation.ReflTransGen.cases_head h with rfl | ⟨u, hu, -⟩
  · rfl
  · exact absurd hu (ht u)

theorem null {s : Site} (h : (Token.null s).Reordered t') : t' = .null s :=
  h.eq_of_not_permutes nofun

theorem bool {s : Site} {b : Bool} (h : (Token.bool s b).Reordered t') : t' = .bool s b :=
  h.eq_of_not_permutes nofun

theorem string {s : Site} {v : String} (h : (Token.string s v).Reordered t') :
    t' = .string s v :=
  h.eq_of_not_permutes nofun

/-- The members of an object are permuted, and their values reordered. -/
theorem object {s : Site} {ms : Members} (h : (Token.object s ms).Reordered t') :
    ∃ ms', t' = .object s ms' ∧ ms.Reordered ms' := by
  have htrans : ∀ m m' m'', SameMember m m' → SameMember m' m'' → SameMember m m'' :=
    fun _ _ _ h h' => ⟨h'.key.trans h.key, h.value.trans h'.value⟩
  induction h with
  | refl => exact ⟨ms, rfl, .of_perm SameMember.refl .rfl⟩
  | tail _ hstep ih =>
    obtain ⟨ms', rfl, hms⟩ := ih
    cases hstep with
    | members hperm => exact ⟨_, rfl, hms.trans htrans (.of_perm SameMember.refl hperm)⟩
    | @member _ before after k t t' hstep =>
      have hsame : List.Forall₂ SameMember (before ++ (k, t) :: after)
          (before ++ (k, t') :: after) :=
        List.rel_append (List.forall₂_same.mpr fun m _ => SameMember.refl m)
          (.cons ⟨rfl, .single hstep⟩ (List.forall₂_same.mpr fun m _ => SameMember.refl m))
      exact ⟨_, rfl, hms.trans htrans ⟨_, hsame, .rfl⟩⟩

/-- The items of an array stay in their order. -/
theorem array {s : Site} {ts : List Token} (h : (Token.array s ts).Reordered t') :
    ∃ ts', t' = .array s ts' ∧ List.Forall₂ Reordered ts ts' := by
  induction h with
  | refl => exact ⟨ts, rfl, List.forall₂_same.mpr fun _ _ => .refl⟩
  | tail _ hstep ih =>
    obtain ⟨ts', rfl, hts⟩ := ih
    cases hstep with
    | @item _ before after t t' hstep =>
      have hlast : List.Forall₂ Reordered (before ++ t :: after) (before ++ t' :: after) :=
        List.rel_append (List.forall₂_same.mpr fun _ _ => .refl)
          (.cons (.single hstep) (List.forall₂_same.mpr fun _ _ => .refl))
      exact ⟨_, rfl, forall₂_trans (fun _ _ _ => Relation.ReflTransGen.trans) hts hlast⟩

theorem members? {ms : Members} (h : t.Reordered t') (hms : t.members? = some ms) :
    ∃ ms', t'.members? = some ms' ∧ ms.Reordered ms' := by
  obtain ⟨s, rfl⟩ := eq_object hms
  obtain ⟨ms', rfl, hms'⟩ := h.object
  exact ⟨ms', rfl, hms'⟩

theorem items? {ts : List Token} (h : t.Reordered t') (hts : t.items? = some ts) :
    ∃ ts', t'.items? = some ts' ∧ List.Forall₂ Reordered ts ts' := by
  obtain ⟨s, rfl⟩ := eq_array hts
  obtain ⟨ts', rfl, hts'⟩ := h.array
  exact ⟨ts', rfl, hts'⟩

/-- A part of a tree can be reordered where it stands. -/
theorem within {f : Token → Token} (hf : ∀ t t', Permutes t t' → Permutes (f t) (f t'))
    (h : t.Reordered t') : (f t).Reordered (f t') := by
  induction h with
  | refl => exact .refl
  | tail _ hstep ih => exact ih.tail (hf _ _ hstep)

/-- The values of an object's members can be reordered one after the other. -/
theorem of_members {s : Site} {ms ms' : Members} (h : List.Forall₂ SameMember ms ms') :
    (Token.object s ms).Reordered (.object s ms') := by
  -- the members that are done stand before those that are left
  have hafter : ∀ before : Members,
      (Token.object s (before ++ ms)).Reordered (.object s (before ++ ms')) := by
    induction h with
    | nil =>
      intro before
      exact .refl
    | @cons m m' ms ms' hm _ ih =>
      intro before
      obtain ⟨k, v⟩ := m
      obtain ⟨k', v'⟩ := m'
      obtain rfl : k' = k := hm.key
      have hvalue : (Token.object s (before ++ (k', v) :: ms)).Reordered
          (.object s (before ++ (k', v') :: ms)) :=
        within (fun _ _ => Permutes.member) hm.value
      have hrest := ih (before ++ [(k', v')])
      rw [List.append_assoc, List.append_assoc] at hrest
      exact hvalue.trans hrest
  exact hafter []

theorem of_items {s : Site} {ts ts' : List Token} (h : List.Forall₂ Reordered ts ts') :
    (Token.array s ts).Reordered (.array s ts') := by
  have hafter : ∀ before : List Token,
      (Token.array s (before ++ ts)).Reordered (.array s (before ++ ts')) := by
    induction h with
    | nil =>
      intro before
      exact .refl
    | @cons t t' ts ts' ht _ ih =>
      intro before
      have hitem : (Token.array s (before ++ t :: ts)).Reordered
          (.array s (before ++ t' :: ts)) :=
        within (fun _ _ => Permutes.item) ht
      have hrest := ih (before ++ [t'])
      rw [List.append_assoc, List.append_assoc] at hrest
      exact hitem.trans hrest
  exact hafter []

end Reordered

/-! ### Trees written backwards -/

mutual

/-- A tree with the members of every object in the opposite order. -/
def backwards : Token → Token
  | .null s => .null s
  | .bool s b => .bool s b
  | .number s x => .number s x
  | .string s v => .string s v
  | .array s items => .array s (backwardsItems items)
  | .object s members => .object s (backwardsMembers members).reverse

/-- The items of an array, each of them written backwards. -/
def backwardsItems : List Token → List Token
  | [] => []
  | t :: ts => t.backwards :: backwardsItems ts

/-- The members of an object, the value of each of them written backwards. -/
def backwardsMembers : Members → Members
  | [] => []
  | (k, t) :: ms => (k, t.backwards) :: backwardsMembers ms

end

mutual

theorem reordered_backwards : ∀ t : Token, t.Reordered t.backwards
  | .null _ | .bool _ _ | .number _ _ | .string _ _ => .refl
  | .array _ items => Reordered.of_items (reordered_backwardsItems items)
  | .object _ members =>
    (Reordered.of_members (sameMember_backwardsMembers members)).trans
      (.single (.members (List.reverse_perm _).symm))

theorem reordered_backwardsItems : ∀ ts : List Token,
    List.Forall₂ Reordered ts (backwardsItems ts)
  | [] => .nil
  | t :: ts => .cons (reordered_backwards t) (reordered_backwardsItems ts)

theorem sameMember_backwardsMembers : ∀ ms : Members,
    List.Forall₂ SameMember ms (backwardsMembers ms)
  | [] => .nil
  | (_, t) :: ms => .cons ⟨rfl, reordered_backwards t⟩ (sameMember_backwardsMembers ms)

end

end Token

end TimedMachine
