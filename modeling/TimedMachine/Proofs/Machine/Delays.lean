import Mathlib.Order.Monotone.Basic
import TimedMachine.Proofs.Machine.OfToken

/-!
# Delays stay within their bounds

The rules of a machine that was loaded do to exact numbers what one expects of them: a greater delay
does not become a smaller one, and what comes out lies within the bounds of the rule. Both hang on
what the loader has checked. The lower bound is applied first, so it holds in the end as it is at
most the upper one, and a greater delay stays greater as the multiplier is positive.

So along any states that are entered the delay of a timer is within the bounds of the rule that was
applied last, and a timer that starts out with a greater delay never falls behind
(`Machine.delays_within_bounds`).
-/

namespace TimedMachine

/-! ## Rules -/

namespace DelayRule

/-- A rule over numbers of another type. -/
def map {α β : Type} (f : α → β) (r : DelayRule α) : DelayRule β where
  set := r.set.map f
  multiplier := r.multiplier.map f
  increment := r.increment.map f
  min := r.min.map f
  max := r.max.map f

/-- The rule over exact numbers. -/
def exact (r : DelayRule Float) : DelayRule ℚ := r.map Number.exactValue

/-- Whether a delay lies within the bounds of a rule. -/
structure Allows {α : Type} [LE α] (r : DelayRule α) (delay : α) : Prop where
  min_le : ∀ least ∈ r.min, least ≤ delay
  le_max : ∀ most ∈ r.max, delay ≤ most

/-- What has to hold of a rule so that it keeps delays in order and within its bounds. -/
structure Orderly (r : DelayRule ℚ) : Prop where
  multiplier_pos : ∀ x ∈ r.multiplier, 0 < x
  min_le_max : ∀ least ∈ r.min, ∀ most ∈ r.max, least ≤ most

/-! ## One rule -/

section Bounds

variable {bound : Option ℚ} {d d' : ℚ}

@[simp] theorem atLeast_some (least : ℚ) : atLeast (some least) d = d ⊔ least :=
  (max_def_lt d least).symm

@[simp] theorem atMost_some (most : ℚ) : atMost (some most) d = most ⊓ d :=
  (min_def_lt most d).symm

theorem atLeast_mono (h : d ≤ d') : atLeast bound d ≤ atLeast bound d' := by
  cases bound with
  | none => exact h
  | some least =>
    rw [atLeast_some, atLeast_some]
    exact max_le_max_right least h

theorem atMost_mono (h : d ≤ d') : atMost bound d ≤ atMost bound d' := by
  cases bound with
  | none => exact h
  | some most =>
    rw [atMost_some, atMost_some]
    exact min_le_min_left most h

/-- A lower bound holds where it has been applied. -/
theorem le_atLeast : ∀ least ∈ bound, least ≤ atLeast bound d := by
  rintro least rfl
  rw [atLeast_some]
  exact le_max_right d least

/-- An upper bound holds where it has been applied. -/
theorem atMost_le : ∀ most ∈ bound, atMost bound d ≤ most := by
  rintro most rfl
  rw [atMost_some]
  exact min_le_left most d

/-- An upper bound lowers a delay no further than what is below both. -/
theorem le_atMost {least : ℚ} (hd : least ≤ d) (hbound : ∀ most ∈ bound, least ≤ most) :
    least ≤ atMost bound d := by
  cases bound with
  | none => exact hd
  | some most =>
    rw [atMost_some]
    exact le_min (hbound most rfl) hd

end Bounds

namespace Orderly

variable {r : DelayRule ℚ}

/-- The rule makes no smaller delay of a greater one. -/
theorem monotone_apply (hr : r.Orderly) : Monotone r.apply := by
  -- the parts keep the order one after the other; only the multiplier could turn it round
  intro d d' h
  have hset : r.set.getD d ≤ r.set.getD d' := by
    cases r.set with
    | none => exact h
    | some x => exact le_rfl
  have hmultiplier : r.multiplier.elim (r.set.getD d) (r.set.getD d * ·) ≤
      r.multiplier.elim (r.set.getD d') (r.set.getD d' * ·) := by
    cases hx : r.multiplier with
    | none => exact hset
    | some x => exact mul_le_mul_of_nonneg_right hset (hr.multiplier_pos x hx).le
  refine atMost_mono (atLeast_mono ?_)
  cases r.increment with
  | none => exact hmultiplier
  | some x => exact add_le_add_left hmultiplier x

/-- What comes out of the rule lies within its bounds. -/
theorem allows_apply (hr : r.Orderly) (d : ℚ) : r.Allows (r.apply d) where
  -- the upper bound comes last, so it could undo a lower one that is above it
  min_le least hleast := le_atMost (le_atLeast least hleast) (hr.min_le_max least hleast)
  le_max := atMost_le

end Orderly

/-- A rule that the loader lets through is orderly over exact numbers. -/
theorem WellFormed.orderly {r : DelayRule Float} (hr : r.WellFormed) : r.exact.Orderly where
  multiplier_pos := by
    intro _ hvalue
    obtain ⟨x, hx, rfl⟩ := Option.mem_map.mp hvalue
    obtain ⟨hfinite, hpos⟩ := hr.multiplier x hx
    exact Number.exactValue_pos hfinite hpos
  min_le_max := by
    intro _ hlow _ hhigh
    obtain ⟨least, hleast, rfl⟩ := Option.mem_map.mp hlow
    obtain ⟨most, hmost, rfl⟩ := Option.mem_map.mp hhigh
    exact (Number.float_le_iff_exactValue (hr.min least hleast) (hr.max most hmost)).mp
      (hr.min_le_max least hleast most hmost)

/-- So is the rule that changes nothing. -/
theorem orderly_unchanged : (unchanged : DelayRule Float).exact.Orderly where
  multiplier_pos := nofun
  min_le_max := nofun

/-! ## Rules in a row -/

section Rows

variable {rules : List (DelayRule ℚ)} {groups : List (List (DelayRule ℚ))} {d d' : ℚ}

theorem applyAll_mono (hrules : ∀ r ∈ rules, r.Orderly) (h : d ≤ d') :
    applyAll rules d ≤ applyAll rules d' := by
  induction rules generalizing d d' with
  | nil => exact h
  | cons r rules ih =>
    obtain ⟨hr, hrules⟩ := List.forall_mem_cons.mp hrules
    exact ih hrules (hr.monotone_apply h)

/-- A timer that starts out with a greater delay never has a smaller one than another. -/
theorem delays_mono (hgroups : ∀ rules ∈ groups, ∀ r ∈ rules, r.Orderly) (h : d ≤ d') :
    List.Forall₂ (· ≤ ·) (delays groups d) (delays groups d') := by
  induction groups generalizing d d' with
  | nil => exact .nil
  | cons rules groups ih =>
    obtain ⟨hrules, hgroups⟩ := List.forall_mem_cons.mp hgroups
    have hfirst := applyAll_mono hrules h
    exact .cons hfirst (ih hgroups hfirst)

/-- After each rule the delay is within the bounds of that rule. -/
theorem delays_allowed (hrules : ∀ r ∈ rules, r.Orderly) (d : ℚ) :
    List.Forall₂ Allows rules (delays (rules.map ([·])) d) := by
  induction rules generalizing d with
  | nil => exact .nil
  | cons r rules ih =>
    obtain ⟨hr, hrules⟩ := List.forall_mem_cons.mp hrules
    exact .cons (hr.allows_apply d) (ih hrules (r.apply d))

end Rows

end DelayRule

/-! ## Machines -/

namespace Machine

variable {m : Machine}

/-- The rules for a timer's delay in each of some states, over exact numbers. -/
def exactRules (m : Machine) (timer : String) (states : List String) : List (List (DelayRule ℚ)) :=
  states.map fun s => (m.delayRules timer s).map DelayRule.exact

/-- The rules that the states of a loaded machine have are orderly. -/
theorem orderly_of_mem_delayRules (h : m.WellFormed) {timer state : String} {r : DelayRule Float}
    (hr : r ∈ m.delayRules timer state) : r.exact.Orderly := by
  unfold delayRules at hr
  obtain ⟨start, hstart, hr⟩ := List.mem_filterMap.mp hr
  split at hr
  · obtain rfl := Option.some.inj hr
    cases hs : m.state? state with
    | none =>
      rw [hs] at hstart
      cases hstart
    | some s =>
      rw [hs] at hstart
      have hmem : s ∈ m.states := List.mem_of_find?_eq_some hs
      cases hrule : start.rule with
      | none => exact DelayRule.orderly_unchanged
      | some r => exact ((h.state s hmem).starts_rule start hstart r hrule).orderly
  · cases hr

/-- In a machine that was loaded every rule for a timer's delay keeps exact delays in order, and
what comes out of it lies within its bounds. So along any states that are entered the delay after
each start of a timer is within the bounds of the rule of that start, whatever delay the timer had
before, and of two delays the greater one leads to delays that are not smaller, after each state and
after each start. -/
theorem delays_within_bounds {t : Token} (h : ofToken t = .ok m) :
    (∀ s ∈ m.states, ∀ start ∈ s.startTimers, ∀ r ∈ start.rule,
      Monotone r.exact.apply ∧ ∀ d, r.exact.Allows (r.exact.apply d)) ∧
    ∀ timer states,
      let groups := m.exactRules timer states
      let starts := groups.flatten.map ([·])
      (∀ d, List.Forall₂ DelayRule.Allows groups.flatten (DelayRule.delays starts d)) ∧
      ∀ d d', d ≤ d' →
        List.Forall₂ (· ≤ ·) (DelayRule.delays groups d) (DelayRule.delays groups d') ∧
        List.Forall₂ (· ≤ ·) (DelayRule.delays starts d) (DelayRule.delays starts d') := by
  have hm := wellFormed_of_ofToken h
  refine ⟨fun s hs start hstart r hr => ?_, fun timer states => ?_⟩
  · have horderly := ((hm.state s hs).starts_rule start hstart r hr).orderly
    exact ⟨horderly.monotone_apply, horderly.allows_apply⟩
  · have hgroups : ∀ rules ∈ m.exactRules timer states, ∀ r ∈ rules, r.Orderly := by
      intro rules hrules r hr
      obtain ⟨s, -, rfl⟩ := List.mem_map.mp hrules
      obtain ⟨rule, hrule, rfl⟩ := List.mem_map.mp hr
      exact orderly_of_mem_delayRules hm hrule
    have hrules : ∀ r ∈ (m.exactRules timer states).flatten, r.Orderly := by
      intro r hr
      obtain ⟨rules, hrules, hr⟩ := List.mem_flatten.mp hr
      exact hgroups rules hrules r hr
    refine ⟨DelayRule.delays_allowed hrules, fun d d' hd => ⟨DelayRule.delays_mono hgroups hd, ?_⟩⟩
    refine DelayRule.delays_mono ?_ hd
    intro rules hmem r hr
    obtain ⟨r', hr', rfl⟩ := List.mem_map.mp hmem
    obtain rfl := List.mem_singleton.mp hr
    exact hrules r hr'

/-- The rule of the closed door doubles the time after which it locks, up to two minutes. A timer
that is ahead when the door is closed twice stays ahead. -/
theorem delays_within_bounds_door :
    ofToken (.ofJson door) = .ok doorMachine ∧ (3 : ℚ) ≤ 5 ∧
    List.Forall₂ (· ≤ ·)
      (DelayRule.delays (doorMachine.exactRules "AutoLock" ["Closed", "Closed"]) 3)
      (DelayRule.delays (doorMachine.exactRules "AutoLock" ["Closed", "Closed"]) 5) := by
  have hle : (3 : ℚ) ≤ 5 := by norm_num
  obtain ⟨-, hdelays⟩ := delays_within_bounds ofToken_door
  obtain ⟨-, hmono⟩ := hdelays "AutoLock" ["Closed", "Closed"]
  exact ⟨ofToken_door, hle, (hmono 3 5 hle).1⟩

end Machine

end TimedMachine
