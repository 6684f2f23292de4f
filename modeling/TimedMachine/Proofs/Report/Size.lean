import TimedMachine.Proofs.Run.Bridge
import TimedMachine.Proofs.Machine.OfToken
import TimedMachine.Proofs.Search.Progress
import Mathlib.Data.Set.Card

/-!
# The size of a search

The search of a loaded machine ends, as each of its steps leaves less to do. On its way it pushes
each configuration that a run comes to once, so the report counts the situations that runs come to
exactly, and there are no more of them than there are ways to put a configuration together. If the
start state is final, runs come to no situation, and the search has nothing to push.
-/

namespace TimedMachine

/-- In each state there is a configuration for each set of timers that run and for each two sets of
events, those that are armed and those that have fired. -/
theorem Configuration.length_all (S T E : Nat) :
    (Configuration.all S T E).length = S * 2 ^ (T + 2 * E) := by
  have hmasks : ∀ n, (Mask.all n).length = 2 ^ n := fun n => Mask.length_all
  simp only [Configuration.all, List.length_flatMap, List.length_map, hmasks, List.map_const',
    List.sum_replicate_nat, List.length_finRange]
  rw [two_mul, pow_add, pow_add]

theorem Search.nodup_settled {S T E : Nat} (σ : Search S T E) : σ.settled.toList.Nodup :=
  σ.settled.distinct_toList.imp fun hne heq => hne (Std.compare_eq_iff_eq.mpr heq)

namespace Machine

variable {m : Machine}

/-! ## Counting situations -/

/-- Runs come to the situations that the settled configurations of the search stand for. -/
theorem reachable_eq_settled (h : m.WellFormed) : {c | m.Reachable c} =
    (((Search.complete m.plan).settled.toList.map m.situation).toFinset : Set Situation) := by
  ext c
  simp only [Set.mem_ofPred_eq, List.coe_toFinset, List.mem_map, Std.TreeSet.mem_toList,
    Search.mem_settled_complete, reachable_iff h]

/-- A report counts the situations that runs come to. -/
theorem configurations_eq_ncard (h : m.WellFormed) :
    m.explore.configurations = {c | m.Reachable c}.ncard := by
  have hnodup := (Search.complete m.plan).nodup_settled.map (situation_injective h)
  rw [reachable_eq_settled h, Set.ncard_coe_finset, List.toFinset_card_of_nodup hnodup,
    List.length_map, Std.TreeSet.length_toList]
  rfl

theorem configurations_le (m : Machine) : m.explore.configurations ≤
    m.states.length * 2 ^ (m.timers.length + 2 * m.events.length) := by
  have hsettled : ∀ c ∈ (Search.complete m.plan).settled.toList, c ∈ Configuration.all _ _ _ :=
    fun c _ => Configuration.mem_all c
  have hle := ((Search.complete m.plan).nodup_settled.subperm hsettled).length_le
  rw [Std.TreeSet.length_toList, Configuration.length_all] at hle
  exact hle

/-! ## Runs that end at the start -/

/-- The start state of a machine is final. -/
def StartsFinal (m : Machine) : Prop :=
  ∃ s ∈ m.states, s.name = m.startState ∧ s.isFinal = true

/-- A run that ends at the start does not go on. -/
theorem after_eq_none_of_run (hstart : m.after (.start m.startState) = none)
    {trail : Trail String} (hrun : m.Run trail) : m.after trail = none := by
  induction hrun with
  | start => exact hstart
  | step _ hc _ ih =>
    rw [ih] at hc
    cases hc

/-- Runs come to some situation, unless they end at the start. -/
theorem exists_reachable_iff (h : m.WellFormed) : (∃ c, m.Reachable c) ↔ ¬m.StartsFinal := by
  obtain ⟨i, hi⟩ := exists_position h.start_declared
  have hname : m.stateName i = m.startState := hi
  have hafter : m.after (.start m.startState) =
      m.enter (m.before (m.states.get i)) (m.states.get i) none := by
    rw [after, ← hname, state?_name h, Option.bind_some]
  have hfinal : m.StartsFinal ↔ (m.states.get i).isFinal = true := by
    constructor
    · rintro ⟨s, hs, hsname, hsfinal⟩
      obtain ⟨j, rfl⟩ := List.get_of_mem hs
      obtain rfl := name_inj h.states_nodup (hsname.trans hname.symm)
      exact hsfinal
    · exact fun hi => ⟨_, List.get_mem _ _, hname, hi⟩
  rw [hfinal]
  constructor
  · rintro ⟨c, trail, hrun, hc⟩ hstop
    rw [after_eq_none_of_run (by rw [hafter, enter, if_pos hstop]) hrun] at hc
    cases hc
  · intro hgoes
    rw [enter, if_neg hgoes] at hafter
    exact ⟨_, _, .start, hafter⟩

/-! ## The search -/

theorem maxDepth_le_configurations (m : Machine) :
    m.explore.maxDepth ≤ m.explore.configurations := by
  have hdepth := (Search.Measured.complete m.plan).depth_le
  rw [(Search.Coherent.complete m.plan).2] at hdepth
  exact hdepth

theorem maxDepth_pos (h : m.WellFormed) {c : Situation} (hc : m.Reachable c) :
    0 < m.explore.maxDepth := by
  obtain ⟨c', hc', -⟩ := (reachable_iff h).mp hc
  have hseen := Search.hasSeen_iff.mpr (.inr ((Search.mem_settled_complete m.plan).mpr hc'))
  exact (Search.Measured.complete m.plan).depth_pos c' hseen

/-- The search of a loaded machine ends: every step leaves less to do, and after finitely many the
search is complete and its stack is empty. On its way it pushes each situation that runs come to
once, with all its moves ahead, and pushes no other. The report says how many they are. They are no
more than there can be, and the stack of the search is never larger. Both its largest size and their
number are zero if and only if the start state is final. -/
theorem explore_counts_configurations {tree : Token} (hload : Machine.ofToken tree = .ok m) :
    (∀ σ : m.Searches, σ.stack ≠ [] → (σ.step Search.hasSeen m.plan).unseen m.plan +
      (σ.step Search.hasSeen m.plan).pending < σ.unseen m.plan + σ.pending) ∧
    (∃ n, Search.stage m.plan n = .complete m.plan) ∧ (Search.complete m.plan).stack = [] ∧
    (∀ c, m.Reachable c → ∃! n, ∃ c', m.situation c' = c ∧
      Search.Pushes m.plan (.stage m.plan n) (.stage m.plan (n + 1)) c') ∧
    (∀ n c, Search.Pushes m.plan (.stage m.plan n) (.stage m.plan (n + 1)) c →
      m.Reachable (m.situation c)) ∧
    {c | m.Reachable c}.Finite ∧ m.explore.configurations = {c | m.Reachable c}.ncard ∧
    m.explore.configurations ≤ m.states.length * 2 ^ (m.timers.length + 2 * m.events.length) ∧
    m.explore.maxDepth ≤ m.explore.configurations ∧
    (m.explore.configurations = 0 ↔ m.StartsFinal) ∧
    (m.explore.maxDepth = 0 ↔ m.StartsFinal) := by
  have h := wellFormed_of_ofToken hload
  have hfinite : {c | m.Reachable c}.Finite := by
    rw [reachable_eq_settled h]
    exact Finset.finite_toSet _
  have hnone : m.explore.configurations = 0 ↔ m.StartsFinal := by
    rw [configurations_eq_ncard h, Set.ncard_eq_zero hfinite, Set.eq_empty_iff_forall_notMem,
      ← not_iff_not, ← exists_reachable_iff h, not_forall]
    simp only [Set.mem_ofPred_eq, not_not]
  refine ⟨fun _ => Search.step_lt, Search.exists_stage_eq_complete m.plan,
    (Search.Coherent.complete m.plan).2, ?_, ?_, hfinite, configurations_eq_ncard h,
    configurations_le m, maxDepth_le_configurations m, hnone, ?_⟩
  · intro c hc
    obtain ⟨c', hc', rfl⟩ := (reachable_iff h).mp hc
    obtain ⟨n, hn⟩ := Search.exists_pushes_iff.mpr hc'
    refine ⟨n, ⟨c', rfl, hn⟩, ?_⟩
    rintro k ⟨d, hd, hk⟩
    obtain rfl := situation_injective h hd
    exact Search.pushes_unique hk hn
  · intro n c hn
    exact (reachable_iff h).mpr ⟨c, Search.exists_pushes_iff.mp ⟨n, hn⟩, rfl⟩
  · refine ⟨fun hzero => ?_, fun hstart => ?_⟩
    · by_contra hstart
      obtain ⟨c, hc⟩ := (exists_reachable_iff h).mpr hstart
      exact absurd hzero (Nat.ne_of_gt (maxDepth_pos h hc))
    · have hle := maxDepth_le_configurations m
      rw [hnone.mpr hstart] at hle
      exact Nat.le_zero.mp hle

/-- The runs of the door come to three situations: it stands open at first, then closed, and then
open with its closing to be reported. -/
theorem explore_counts_configurations_door :
    {c | doorMachine.Reachable c}.ncard = 3 ∧ ¬doorMachine.StartsFinal := by
  obtain ⟨-, -, -, -, -, -, hcount, -, -, hstart, -⟩ := explore_counts_configurations ofToken_door
  have hthree : doorMachine.explore.configurations = 3 := by decide +kernel
  refine ⟨hcount.symm.trans hthree, fun hfinal => ?_⟩
  rw [hstart.mpr hfinal] at hthree
  cases hthree

end Machine

end TimedMachine
