import TimedMachine.Machine.Fields
import Mathlib.Data.List.Forall2

/-!
# When reading succeeds

The readers of a specification are put together from a few pieces: one after the other, an optional
member, every item of a list. For each piece there is a lemma here that says what its success
means, so that a reader is taken apart by rewriting and never unfolded down to `Except`.
-/

namespace TimedMachine

namespace Loaded

variable {α β : Type}

/-- Two readers in a row succeed iff the first does, and the second does on what the first found. -/
theorem bind_eq_ok {x : Loaded α} {f : α → Loaded β} {b : β} :
    x >>= f = .ok b ↔ ∃ a, x = .ok a ∧ f a = .ok b := by
  cases x with
  | error e => simp [bind, Except.bind]
  | ok a => simp [bind, Except.bind]

theorem map_eq_ok {x : Loaded α} {f : α → β} {b : β} :
    x.map f = .ok b ↔ ∃ a, x = .ok a ∧ f a = b := by
  cases x with
  | error e => simp [Except.map]
  | ok a => simp [Except.map]

theorem pure_eq_ok {a b : α} : (pure a : Loaded α) = .ok b ↔ a = b := by
  simp [pure, Except.pure]

@[simp] theorem throw_ne_ok {e : LoadError} {b : β} : (throw e : Loaded β) ≠ .ok b := by
  simp [throw, throwThe, MonadExceptOf.throw]

/-- A reader that checks a condition first succeeds only if the condition does not hold. -/
theorem guard_eq_ok {c : Prop} [Decidable c] {e : LoadError} {f : α → Loaded β} {x : Loaded β}
    {b : β} :
    (if c then (throw e : Loaded α) >>= f else x) = .ok b ↔ ¬c ∧ x = .ok b := by
  by_cases h : c
  · rw [if_pos h, bind_eq_ok]
    simp [h]
  · rw [if_neg h]
    simp [h]

/-- Reading every item of a list reads them one by one, in order. -/
theorem mapM_eq_ok {f : α → Loaded β} {l : List α} {l' : List β} :
    l.mapM f = .ok l' ↔ List.Forall₂ (fun a b => f a = .ok b) l l' := by
  induction l generalizing l' with
  | nil =>
    rw [List.mapM_nil, pure_eq_ok, List.forall₂_nil_left_iff]
    exact eq_comm
  | cons a l ih =>
    simp only [List.mapM_cons, bind_eq_ok, pure_eq_ok, List.forall₂_cons_left_iff, ih]
    constructor
    · rintro ⟨b, hb, bs, hbs, rfl⟩
      exact ⟨b, bs, hb, hbs, rfl⟩
    · rintro ⟨b, bs, hb, hbs, rfl⟩
      exact ⟨b, hb, bs, hbs, rfl⟩

end Loaded

open Loaded

/-! ## Members -/

namespace Members

variable {α : Type} {ms : Members} {key : String} {read : Token → Loaded α} {a : α}

theorem optional_eq_ok {o : Option α} :
    ms.optional key read = .ok o ↔
      (ms.get? key = none ∧ o = none) ∨
        ∃ t, ms.get? key = some t ∧ ∃ a, read t = .ok a ∧ o = some a := by
  unfold optional
  cases ms.get? key with
  | none => simp [eq_comm]
  | some t => simp [map_eq_ok, @eq_comm _ o]

/-- What an optional member gives was read from a token. -/
theorem optional_eq_some : ms.optional key read = .ok (some a) ↔
    ∃ t, ms.get? key = some t ∧ read t = .ok a := by
  rw [optional_eq_ok]
  simp

theorem optionalOrNull_eq_some : ms.optionalOrNull key read = .ok (some a) ↔
    ∃ t, ms.get? key = some t ∧ t.isNull = false ∧ read t = .ok a := by
  simp only [optionalOrNull, map_eq_ok, optional_eq_ok]
  constructor
  · rintro ⟨o, ⟨-, rfl⟩ | ⟨t, ht, o, ho, rfl⟩, hj⟩
    · cases hj
    · obtain rfl : o = some a := hj
      by_cases hn : t.isNull = true
      · simp [hn] at ho
      · rw [if_neg hn, map_eq_ok] at ho
        obtain ⟨a', ha', h⟩ := ho
        cases h
        exact ⟨t, ht, Bool.eq_false_iff.mpr hn, ha'⟩
  · rintro ⟨t, ht, hn, ha⟩
    refine ⟨some (some a), .inr ⟨t, ht, some a, ?_, rfl⟩, rfl⟩
    simp [hn, ha, Except.map]

end Members

/-! ## Lists of distinct items -/

section Distinct

variable {α β γ ν : Type} [DecidableEq ν] {check : α → Loaded β} {name : β → ν}
  {duplicate : α → β → LoadError} {read : α → β → Loaded γ}

/-- Reading a list of distinct items checks and reads every item, and it succeeds only if the
names are distinct from each other and from those seen before. The names are those of the items
that were checked; `nameOf` finds them again in what was read. -/
theorem readDistinct_eq_ok {nameOf : γ → ν}
    (hname : ∀ a b c, read a b = .ok c → nameOf c = name b) {seen : List ν} {as : List α}
    {cs : List γ} :
    readDistinct check name duplicate read seen as = .ok cs ↔
      List.Forall₂ (fun a c => ∃ b, check a = .ok b ∧ read a b = .ok c) as cs ∧
        (cs.map nameOf).Nodup ∧ ∀ c ∈ cs, nameOf c ∉ seen := by
  induction as generalizing seen cs with
  | nil =>
    rw [readDistinct, List.forall₂_nil_left_iff]
    constructor
    · rintro ⟨⟩
      simp
    · rintro ⟨rfl, -⟩
      rfl
  | cons a as ih =>
    simp only [readDistinct, bind_eq_ok, guard_eq_ok, pure_eq_ok, ih]
    constructor
    · rintro ⟨b, hb, hseen, c, hc, cs, ⟨hcs, hnd, hnew⟩, rfl⟩
      have hcb : nameOf c = name b := hname a b c hc
      refine ⟨.cons ⟨b, hb, hc⟩ hcs, ?_, ?_⟩
      · rw [List.map_cons, List.nodup_cons, List.mem_map]
        refine ⟨?_, hnd⟩
        rintro ⟨c', hc', h⟩
        exact hnew c' hc' (List.mem_cons.mpr (.inl (h.trans hcb)))
      · intro c' hc'
        rcases List.mem_cons.mp hc' with rfl | hc'
        · rw [hcb]
          exact hseen
        · exact fun h => hnew c' hc' (List.mem_cons_of_mem _ h)
    · rintro ⟨h, hnd, hnew⟩
      obtain ⟨c, cs, ⟨b, hb, hc⟩, hcs, rfl⟩ := List.forall₂_cons_left_iff.mp h
      have hcb : nameOf c = name b := hname a b c hc
      rw [List.map_cons, List.nodup_cons] at hnd
      refine ⟨b, hb, hcb ▸ hnew c List.mem_cons_self, c, hc, cs, ⟨hcs, hnd.2, ?_⟩, rfl⟩
      intro c' hc' h
      rcases List.mem_cons.mp h with h | h
      · exact hnd.1 (List.mem_map.mpr ⟨c', hc', h.trans hcb.symm⟩)
      · exact hnew c' (List.mem_cons_of_mem _ hc') h

/-- Reading a list of items that are distinct by their names, each of them in one go. -/
theorem readDistinct_ok_eq_ok {as : List α} {bs : List β} :
    readDistinct check name duplicate (fun _ b => .ok b) [] as = .ok bs ↔
      List.Forall₂ (fun a b => check a = .ok b) as bs ∧ (bs.map name).Nodup := by
  have hname : ∀ (a : α) (b c : β), (.ok b : Loaded β) = .ok c → name c = name b := by
    rintro a b c ⟨⟩
    rfl
  rw [readDistinct_eq_ok hname]
  simp

end Distinct

/-! ## Lists that correspond item by item -/

section Forall₂

variable {α β γ : Type} {R : α → β → Prop} {l : List α} {l' : List β}

/-- Every result of reading a list comes from one of its items. -/
theorem exists_of_mem_forall₂ (h : List.Forall₂ R l l') {b : β} (hb : b ∈ l') :
    ∃ a ∈ l, R a b := by
  induction h with
  | nil => cases hb
  | @cons a b' l l' hab _ ih =>
    rcases List.mem_cons.mp hb with rfl | hb
    · exact ⟨a, List.mem_cons_self, hab⟩
    · obtain ⟨a', ha', h'⟩ := ih hb
      exact ⟨a', List.mem_cons_of_mem _ ha', h'⟩

theorem map_eq_map_of_forall₂ {f : α → γ} {g : β → γ} (hR : ∀ a b, R a b → g b = f a)
    (h : List.Forall₂ R l l') : l'.map g = l.map f := by
  induction h with
  | nil => rfl
  | cons hab _ ih => rw [List.map_cons, List.map_cons, hR _ _ hab, ih]

end Forall₂

end TimedMachine
