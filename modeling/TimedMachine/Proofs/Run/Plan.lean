import TimedMachine.Explore.Plan
import Mathlib.Data.List.Nodup

/-!
# Runs by the tables

A search works on positions, so the runs that it goes through are those of a `Plan`. They are
stated here once more, for any plan, and with them what it takes for a plan's list of problems to
name each problem once.
-/

namespace TimedMachine

namespace Plan

variable {S T E : Nat} (p : Plan S T E)

/-- The trails of runs, each with the configuration that it ends in, if it ends in one. -/
inductive Run : Trail (Fin S) → Option (Configuration S T E) → Prop
  | start {s : Fin S} : p.start = some s → Run (.start s) (p.enter? (p.before s) s none)
  | step {trail : Trail (Fin S)} {c : Configuration S T E} {mv : Move S E} :
    Run trail (some c) → mv ∈ p.moves c →
    Run (.step trail mv.label mv.target) (p.enter? c mv.target mv.event)

/-- A run comes to a configuration. -/
def Reachable (c : Configuration S T E) : Prop := ∃ trail, p.Run trail (some c)

/-- A run enters a state last. -/
def Enters (s : Fin S) : Prop := ∃ trail c?, p.Run trail c? ∧ trail.last = s

/-! ## Tables -/

theorem get_replicate {α : Type} {n : Nat} (a : α) (i : Fin n) :
    (Vector.replicate n a).get i = a := by
  show (Vector.replicate n a)[i.val] = a
  rw [Vector.getElem_replicate]

theorem get_set {α : Type} {n : Nat} (v : Vector α n) (i j : Fin n) (a : α) :
    (v.set i a i.isLt).get j = if i = j then a else v.get j := by
  show (v.set i a i.isLt)[j.val] = _
  rw [Vector.getElem_set]
  simp only [Fin.val_inj]
  rfl

variable {p}

theorem slotMoves_eq (slot? : Option (Slot S E)) :
    slotMoves slot? = (slot?.map Slot.moves).getD [] := by
  cases slot? <;> rfl

/-! ## Problems are listed once -/

theorem eventProblem?_eq_some {s : Fin S} {e : Fin E} {slot? : Option (Slot S E)}
    {pr : Problem S T E} : eventProblem? s e slot? = some pr ↔
      slot? = none ∧ pr = .unhandledEvent s e := by
  cases slot? <;> simp [eventProblem?, eq_comm]

theorem timerProblem?_eq_some {s : Fin S} {t : Fin T} {runs : Bool} {slot? : Option (Slot S E)}
    {pr : Problem S T E} : timerProblem? s t runs slot? = some pr ↔
      (slot? = none ∧ runs ∧ pr = .missingTimerEdge s t) ∨
      (slot?.isSome ∧ ¬runs ∧ pr = .ghostTimerEdge s t) := by
  cases slot? <;> cases runs <;> simp [timerProblem?, eq_comm]

/-- The problems with edges, none of which is a stall, are listed once each. -/
theorem nodup_edgeProblems (p : Plan S T E) (c : Configuration S T E) :
    (p.edgeProblems c).Nodup := by
  unfold edgeProblems
  split
  · exact List.nodup_nil
  · exact List.nodup_nil
  · refine List.nodup_append.mpr ⟨?_, ?_, ?_⟩
    · refine List.Nodup.filterMap ?_ ((List.nodup_finRange E).filter _)
      intro e e' pr he he'
      obtain ⟨_, rfl⟩ := eventProblem?_eq_some.mp he
      obtain ⟨_, heq⟩ := eventProblem?_eq_some.mp he'
      cases heq
      rfl
    · refine List.Nodup.filterMap ?_ (List.nodup_finRange T)
      intro t t' pr ht ht'
      rcases timerProblem?_eq_some.mp ht with ⟨_, _, rfl⟩ | ⟨_, _, rfl⟩ <;>
        rcases timerProblem?_eq_some.mp ht' with ⟨_, _, heq⟩ | ⟨_, _, heq⟩ <;> cases heq <;> rfl
    · -- no problem with an event is one with a timer
      intro pr hpr pr' hpr'
      obtain ⟨e, _, he⟩ := List.mem_filterMap.mp hpr
      obtain ⟨t, _, ht⟩ := List.mem_filterMap.mp hpr'
      obtain ⟨_, rfl⟩ := eventProblem?_eq_some.mp he
      rcases timerProblem?_eq_some.mp ht with ⟨_, _, rfl⟩ | ⟨_, _, rfl⟩ <;> simp

theorem stall_notMem_edgeProblems (p : Plan S T E) (c : Configuration S T E) (s : Fin S) :
    .stall s ∉ p.edgeProblems c := by
  unfold edgeProblems
  split
  · simp
  · simp
  · intro h
    rcases List.mem_append.mp h with h | h
    · obtain ⟨e, _, he⟩ := List.mem_filterMap.mp h
      cases (eventProblem?_eq_some.mp he).2
    · obtain ⟨t, _, ht⟩ := List.mem_filterMap.mp h
      rcases timerProblem?_eq_some.mp ht with ⟨_, _, h⟩ | ⟨_, _, h⟩ <;> cases h

theorem nodup_problems (p : Plan S T E) (c : Configuration S T E) : (p.problems c).Nodup := by
  unfold problems
  split
  · refine List.nodup_append.mpr ⟨p.nodup_edgeProblems c, List.nodup_singleton _, ?_⟩
    intro pr hpr pr' hpr'
    obtain rfl := List.mem_singleton.mp hpr'
    rintro rfl
    exact p.stall_notMem_edgeProblems c _ hpr
  · rw [List.append_nil]
    exact p.nodup_edgeProblems c

end Plan

end TimedMachine
