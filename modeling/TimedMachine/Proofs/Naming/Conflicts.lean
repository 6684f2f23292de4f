import TimedMachine.Naming
import Mathlib.Data.List.Nodup
import Mathlib.Order.Fin.Basic

/-!
# Conflicts between uses of callback names

The check of names goes through the uses of callbacks once and compares each with the first use of
its name. It finds every name of which any two uses disagree, because to agree is an equivalence:
two uses that both agree with the first one agree with each other. A name is reported where a use
disagrees with the first one for the first time.
-/

namespace TimedMachine

/-- The callback name that a violation is about, if it is about one. -/
def Violation.callbackName? : Violation → Option String
  | .ambiguousCallback name _ _ | .conflictingDecisionTargets name _ _ => some name
  | _ => none

namespace CallbackUse

/-! ## Agreement -/

/-- Two uses agree if both are notifications, or both are functions that choose from the same
names. -/
def Agrees (u v : CallbackUse) : Prop :=
  (u.callback.isFunction = false ∧ v.callback.isFunction = false) ∨
    (u.callback.isFunction = true ∧ v.callback.isFunction = true ∧ u.choices = v.choices)

instance (u v : CallbackUse) : Decidable (u.Agrees v) :=
  inferInstanceAs (Decidable (_ ∨ _))

theorem Agrees.refl (u : CallbackUse) : u.Agrees u := by
  cases h : u.callback.isFunction with
  | false => exact .inl ⟨h, h⟩
  | true => exact .inr ⟨h, h, rfl⟩

theorem Agrees.symm {u v : CallbackUse} (h : u.Agrees v) : v.Agrees u := by
  rcases h with ⟨hu, hv⟩ | ⟨hu, hv, hchoices⟩
  · exact .inl ⟨hv, hu⟩
  · exact .inr ⟨hv, hu, hchoices.symm⟩

theorem Agrees.trans {u v w : CallbackUse} (h : u.Agrees v) (h' : v.Agrees w) : u.Agrees w := by
  rcases h with ⟨hu, hv⟩ | ⟨hu, hv, hchoices⟩
  · rcases h' with ⟨_, hw⟩ | ⟨hv', _⟩
    · exact .inl ⟨hu, hw⟩
    · rw [hv] at hv'
      cases hv'
  · rcases h' with ⟨hv', _⟩ | ⟨_, hw, hchoices'⟩
    · rw [hv] at hv'
      cases hv'
    · exact .inr ⟨hu, hw, hchoices.trans hchoices'⟩

/-- What is reported of two uses that disagree: that one of them is a notification and the other a
function, whichever comes first, or else that they are functions with different choices. -/
def dispute (first second : CallbackUse) : Violation :=
  if first.callback.isFunction = second.callback.isFunction then
    .conflictingDecisionTargets second.callback.name first.site second.site
  else if second.callback.isFunction then
    .ambiguousCallback second.callback.name first.site second.site
  else .ambiguousCallback second.callback.name second.site first.site

theorem conflict?_eq (first second : CallbackUse) :
    first.conflict? second = if first.Agrees second then none else some (first.dispute second) := by
  obtain ⟨⟨name, isFunction, hasArgs⟩, site, choices⟩ := first
  obtain ⟨⟨name', isFunction', hasArgs'⟩, site', choices'⟩ := second
  cases isFunction <;> cases isFunction' <;> simp [conflict?, dispute, Agrees]

theorem callbackName?_dispute (first second : CallbackUse) :
    (first.dispute second).callbackName? = some second.callback.name := by
  unfold dispute
  split
  · rfl
  · split <;> rfl

/-! ## First uses and the first to disagree -/

section Positions

variable {us : List CallbackUse} {i j : Fin us.length}

/-- The use at a position is the first one of its name. -/
def IsFirst (us : List CallbackUse) (i : Fin us.length) : Prop :=
  ∀ k < i, (us.get k).callback.name ≠ (us.get i).callback.name

/-- The two uses that a name is reported for: the first one, and the earliest later one that
disagrees with it. -/
structure Disputes (us : List CallbackUse) (i j : Fin us.length) : Prop where
  first : IsFirst us i
  lt : i < j
  name : (us.get j).callback.name = (us.get i).callback.name
  disagree : ¬(us.get i).Agrees (us.get j)
  earliest : ∀ k < j, (us.get k).callback.name = (us.get i).callback.name →
    (us.get i).Agrees (us.get k)

theorem IsFirst.unique (hi : IsFirst us i) (hj : IsFirst us j)
    (hname : (us.get i).callback.name = (us.get j).callback.name) : i = j := by
  rcases lt_trichotomy i j with h | h | h
  · exact absurd hname (hj i h)
  · exact h
  · exact absurd hname.symm (hi j h)

/-- A name has one pair of uses that it is reported for. -/
theorem Disputes.unique {i' j' : Fin us.length} (h : Disputes us i j) (h' : Disputes us i' j')
    (hname : (us.get j).callback.name = (us.get j').callback.name) : i = i' ∧ j = j' := by
  have hi : i = i' := by
    apply h.first.unique h'.first
    rw [← h.name, ← h'.name, hname]
  subst hi
  refine ⟨rfl, ?_⟩
  rcases lt_trichotomy j j' with hlt | heq | hlt
  · exact absurd (h'.earliest j hlt h.name) h.disagree
  · exact heq
  · exact absurd (h.earliest j' hlt h'.name) h'.disagree

/-- Each use has a first one of its name. -/
theorem exists_isFirst (us : List CallbackUse) (j : Fin us.length) :
    ∃ i ≤ j, IsFirst us i ∧ (us.get i).callback.name = (us.get j).callback.name := by
  induction j using WellFoundedLT.induction with
  | ind j ih =>
    by_cases hj : IsFirst us j
    · exact ⟨j, le_refl j, hj, rfl⟩
    · -- an earlier use of the same name has a first one
      simp only [IsFirst, ne_eq, not_forall, not_not] at hj
      obtain ⟨k, hk, hname⟩ := hj
      obtain ⟨i, hi, hfirst, hik⟩ := ih k hk
      exact ⟨i, hi.trans hk.le, hfirst, hik.trans hname⟩

/-- If a use disagrees with the first one of its name, then some use is the earliest to do so. -/
theorem IsFirst.exists_disputes (hi : IsFirst us i)
    (hname : (us.get j).callback.name = (us.get i).callback.name)
    (hdisagree : ¬(us.get i).Agrees (us.get j)) : ∃ k ≤ j, Disputes us i k := by
  induction j using WellFoundedLT.induction with
  | ind j ih =>
    by_cases h : ∃ k < j, (us.get k).callback.name = (us.get i).callback.name ∧
        ¬(us.get i).Agrees (us.get k)
    · obtain ⟨k, hk, hkname, hkdisagree⟩ := h
      obtain ⟨l, hl, hdisputes⟩ := ih k hk hkname hkdisagree
      exact ⟨l, hl.trans hk.le, hdisputes⟩
    · simp only [not_exists, not_and, not_not] at h
      have hlt : i < j := by
        rcases lt_trichotomy i j with hlt | rfl | hlt
        · exact hlt
        · exact absurd (Agrees.refl _) hdisagree
        · exact absurd hname (hi j hlt)
      exact ⟨j, le_refl j, ⟨hi, hlt, hname, hdisagree, h⟩⟩

/-- A name is reported if and only if any two of its uses disagree. -/
theorem exists_disputes_iff {name : String} :
    (∃ i j, Disputes us i j ∧ (us.get j).callback.name = name) ↔
      ∃ u ∈ us, ∃ v ∈ us, u.callback.name = name ∧ v.callback.name = name ∧ ¬u.Agrees v := by
  constructor
  · rintro ⟨i, j, h, hname⟩
    exact ⟨us.get i, List.get_mem us i, us.get j, List.get_mem us j, h.name.symm.trans hname, hname,
      h.disagree⟩
  · rintro ⟨u, hu, v, hv, hnu, hnv, hdisagree⟩
    obtain ⟨j, rfl⟩ := List.get_of_mem hu
    obtain ⟨k, rfl⟩ := List.get_of_mem hv
    obtain ⟨i, -, hi, hij⟩ := exists_isFirst us j
    have hname : (us.get i).callback.name = name := hij.trans hnu
    -- the first use cannot agree with both
    by_cases hj : (us.get i).Agrees (us.get j)
    · have hk : ¬(us.get i).Agrees (us.get k) := fun hk => hdisagree (hj.symm.trans hk)
      obtain ⟨l, -, hl⟩ := hi.exists_disputes (hnv.trans hname.symm) hk
      exact ⟨i, l, hl, hl.name.trans hname⟩
    · obtain ⟨l, -, hl⟩ := hi.exists_disputes (hnu.trans hname.symm) hj
      exact ⟨i, l, hl, hl.name.trans hname⟩

/-! ## The pass over the uses -/

/-- What the pass knows after the first `n` uses: the first use of each name among them, and the
names that they make it report. -/
structure Knows (us : List CallbackUse) (n : Nat) (firsts : List CallbackUse)
    (reported : List String) : Prop where
  firsts : ∀ name first, firsts.find? (·.callback.name == name) = some first ↔
    ∃ i : Fin us.length, i.val < n ∧ IsFirst us i ∧ us.get i = first ∧ first.callback.name = name
  reported : ∀ name, name ∈ reported ↔
    ∃ i j : Fin us.length, j.val < n ∧ Disputes us i j ∧ (us.get j).callback.name = name

/-- The violations from position `n` on: one for each pair of uses that a name is reported for, in
the order of the later use. -/
def ReportsFrom (us : List CallbackUse) (n : Nat) (vs : List Violation) : Prop :=
  ∃ pairs : List (Fin us.length × Fin us.length), pairs.Pairwise (fun p q => p.2 < q.2) ∧
    (∀ i j, (i, j) ∈ pairs ↔ n ≤ j.val ∧ Disputes us i j) ∧
    vs = pairs.map fun p => (us.get p.1).dispute (us.get p.2)

variable {firsts : List CallbackUse} {reported : List String} {vs : List Violation}

theorem val_lt_succ {k : Fin us.length} : k.val < j.val + 1 ↔ k.val < j.val ∨ k = j := by
  rw [Fin.ext_iff]
  omega

namespace Knows

/-- Nothing is known at the beginning. -/
theorem zero (us : List CallbackUse) : Knows us 0 [] [] :=
  ⟨by simp, by simp⟩

/-- If the pass finds no earlier use of a name, then there is none. -/
theorem isFirst (h : Knows us j firsts reported)
    (hnone : firsts.find? (·.callback.name == (us.get j).callback.name) = none) :
    IsFirst us j := by
  obtain ⟨i, hij, hi, hname⟩ := exists_isFirst us j
  rcases hij.lt_or_eq with hlt | rfl
  · have hsome := (h.firsts _ _).mpr ⟨i, hlt, hi, rfl, hname⟩
    rw [hnone] at hsome
    cases hsome
  · exact hi

/-- The first use of a name is remembered. -/
theorem insert (h : Knows us j firsts reported) (hj : IsFirst us j) :
    Knows us (j + 1) (us.get j :: firsts) reported := by
  constructor
  · intro name first
    rw [List.find?_cons]
    by_cases hname : (us.get j).callback.name = name
    · -- the name was not there before, so only the new use can be found
      rw [beq_iff_eq.mpr hname]
      constructor
      · intro heq
        cases heq
        exact ⟨j, Nat.lt_succ_self j, hj, rfl, hname⟩
      · rintro ⟨i, -, hi, rfl, hname'⟩
        rw [hi.unique hj (hname'.trans hname.symm)]
    · rw [beq_eq_false_iff_ne.mpr hname]
      show firsts.find? _ = some first ↔ _
      rw [h.firsts]
      constructor
      · rintro ⟨i, hlt, hi⟩
        exact ⟨i, Nat.lt_succ_of_lt hlt, hi⟩
      · rintro ⟨i, hlt, hi, rfl, hname'⟩
        rcases val_lt_succ.mp hlt with hlt | rfl
        · exact ⟨i, hlt, hi, rfl, hname'⟩
        · exact absurd hname' hname
  · intro name
    rw [h.reported]
    constructor
    · rintro ⟨i, k, hlt, hk⟩
      exact ⟨i, k, Nat.lt_succ_of_lt hlt, hk⟩
    · rintro ⟨i, k, hlt, hk, hname⟩
      rcases val_lt_succ.mp hlt with hlt | rfl
      · exact ⟨i, k, hlt, hk, hname⟩
      · exact absurd hk.name.symm (hj i hk.lt)

/-- A use that is not the first of its name changes nothing in the first uses. -/
theorem firsts_succ (h : Knows us j firsts reported) (hj : ¬IsFirst us j) (name : String)
    (first : CallbackUse) : firsts.find? (·.callback.name == name) = some first ↔
      ∃ i : Fin us.length, i.val < j + 1 ∧ IsFirst us i ∧ us.get i = first ∧
        first.callback.name = name := by
  rw [h.firsts]
  constructor
  · rintro ⟨i, hlt, hi⟩
    exact ⟨i, Nat.lt_succ_of_lt hlt, hi⟩
  · rintro ⟨i, hlt, hi, hrest⟩
    rcases val_lt_succ.mp hlt with hlt | rfl
    · exact ⟨i, hlt, hi, hrest⟩
    · exact absurd hi hj

/-- A use that is not the earliest to disagree leaves all as it is. -/
theorem skip (h : Knows us j firsts reported) (hj : ¬IsFirst us j)
    (hno : ∀ i, ¬Disputes us i j) : Knows us (j + 1) firsts reported := by
  refine ⟨h.firsts_succ hj, ?_⟩
  intro name
  rw [h.reported]
  constructor
  · rintro ⟨i, k, hlt, hk⟩
    exact ⟨i, k, Nat.lt_succ_of_lt hlt, hk⟩
  · rintro ⟨i, k, hlt, hk, hname⟩
    rcases val_lt_succ.mp hlt with hlt | rfl
    · exact ⟨i, k, hlt, hk, hname⟩
    · exact absurd hk (hno i)

/-- The name of a use that is the earliest to disagree is done with. -/
theorem report (h : Knows us j firsts reported) (hij : Disputes us i j) :
    Knows us (j + 1) firsts ((us.get j).callback.name :: reported) := by
  have hj : ¬IsFirst us j := fun hj => hj i hij.lt hij.name.symm
  refine ⟨h.firsts_succ hj, ?_⟩
  intro name
  rw [List.mem_cons, h.reported]
  constructor
  · rintro (rfl | ⟨i', k, hlt, hk⟩)
    · exact ⟨i, j, Nat.lt_succ_self j, hij, rfl⟩
    · exact ⟨i', k, Nat.lt_succ_of_lt hlt, hk⟩
  · rintro ⟨i', k, hlt, hk, hname⟩
    rcases val_lt_succ.mp hlt with hlt | rfl
    · exact .inr ⟨i', k, hlt, hk, hname⟩
    · exact .inl hname.symm

end Knows

namespace ReportsFrom

/-- At a position where no name is reported there is no violation. -/
theorem skip (h : ReportsFrom us (j + 1) vs) (hno : ∀ i, ¬Disputes us i j) :
    ReportsFrom us j vs := by
  obtain ⟨pairs, hsorted, hmem, rfl⟩ := h
  refine ⟨pairs, hsorted, ?_, rfl⟩
  intro i k
  rw [hmem]
  constructor
  · rintro ⟨hle, hk⟩
    exact ⟨Nat.le_of_succ_le hle, hk⟩
  · rintro ⟨hle, hk⟩
    have hne : j ≠ k := by
      rintro rfl
      exact hno i hk
    exact ⟨Nat.lt_of_le_of_ne hle (Fin.val_ne_of_ne hne), hk⟩

/-- At a position where a name is reported there is the violation for it. -/
theorem cons (h : ReportsFrom us (j + 1) vs) (hij : Disputes us i j) :
    ReportsFrom us j ((us.get i).dispute (us.get j) :: vs) := by
  obtain ⟨pairs, hsorted, hmem, rfl⟩ := h
  refine ⟨(i, j) :: pairs, ?_, ?_, rfl⟩
  · rw [List.pairwise_cons]
    refine ⟨?_, hsorted⟩
    intro p hp
    exact ((hmem p.1 p.2).mp hp).1
  · intro i' k
    rw [List.mem_cons, hmem, Prod.mk.injEq]
    constructor
    · rintro (⟨rfl, rfl⟩ | ⟨hle, hk⟩)
      · exact ⟨le_refl _, hij⟩
      · exact ⟨Nat.le_of_succ_le hle, hk⟩
    · rintro ⟨hle, hk⟩
      rcases hle.lt_or_eq with hlt | heq
      · exact .inr ⟨hlt, hk⟩
      · -- only one pair of uses has its later one here
        obtain rfl : j = k := Fin.ext heq
        exact .inl ⟨(hk.unique hij rfl).1, rfl⟩

end ReportsFrom

/-- What the pass finds from position `n` on, if it knows what there is before. -/
theorem reportsFrom_conflicts {n : Nat} (h : Knows us n firsts reported) :
    ReportsFrom us n (conflicts firsts reported (us.drop n)) := by
  induction hrest : us.drop n generalizing n firsts reported with
  | nil =>
    refine ⟨[], .nil, ?_, rfl⟩
    intro i j
    have hlen : us.length ≤ n := List.drop_eq_nil_iff.mp hrest
    have hj := j.isLt
    simp only [List.not_mem_nil, false_iff, not_and]
    omega
  | cons u rest ih =>
    have hn : n < us.length := by
      have hlen := congrArg List.length hrest
      rw [List.length_drop, List.length_cons] at hlen
      omega
    obtain ⟨j, rfl⟩ : ∃ j : Fin us.length, j.val = n := ⟨⟨n, hn⟩, rfl⟩
    rw [List.drop_eq_getElem_cons hn, List.cons.injEq] at hrest
    obtain ⟨rfl, hrest⟩ := hrest
    show ReportsFrom us j (conflicts firsts reported (us.get j :: rest))
    rw [conflicts]
    cases hfind : firsts.find? (·.callback.name == (us.get j).callback.name) with
    | none =>
      have hj := h.isFirst hfind
      apply (ih (h.insert hj) hrest).skip
      intro i hij
      exact hj i hij.lt hij.name.symm
    | some first =>
      -- the first use of the name stands at `i`, before this one
      obtain ⟨i, hlt, hi, rfl, hname⟩ := (h.firsts _ _).mp hfind
      have hj : ¬IsFirst us j := fun hj => hj i hlt hname
      dsimp only
      split
      · next hreported =>
        have hno : ∀ i', ¬Disputes us i' j := by
          intro i' hij
          obtain ⟨i'', k, hk, hdisputes, hkname⟩ := (h.reported _).mp hreported
          obtain ⟨-, rfl⟩ := hdisputes.unique hij hkname
          exact lt_irrefl _ hk
        exact (ih (h.skip hj hno) hrest).skip hno
      · next hreported =>
        rw [conflict?_eq]
        by_cases hagrees : (us.get i).Agrees (us.get j)
        · rw [if_pos hagrees]
          have hno : ∀ i', ¬Disputes us i' j := by
            intro i' hij
            obtain rfl := hij.first.unique hi (hij.name.symm.trans hname.symm)
            exact hij.disagree hagrees
          exact (ih (h.skip hj hno) hrest).skip hno
        · rw [if_neg hagrees]
          -- had an earlier use disagreed, the name would have been reported
          have hij : Disputes us i j := by
            obtain ⟨k, hkj, hk⟩ := hi.exists_disputes hname.symm hagrees
            rcases hkj.lt_or_eq with hkj | rfl
            · exact absurd ((h.reported _).mpr ⟨i, k, hkj, hk, hk.name.trans hname⟩) hreported
            · exact hk
          exact (ih (h.report hij) hrest).cons hij

end Positions

end CallbackUse

end TimedMachine
