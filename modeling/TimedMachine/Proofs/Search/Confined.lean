import TimedMachine.Proofs.Search.Sound

/-!
# Searches look only where runs come

A search consults the rows of a plan only for states that runs enter. So two plans that say the same
about these states have one and the same complete search, whatever they say about the others
(`Search.complete_eq`).

The plans of two machines count their states by numbers of different types, even if there are as
many of them. `Plan.Matches` compares such plans, `Search.Matches` the searches, and both take a
proof that the numbers of states are equal, along which everything else is cast.
-/

namespace TimedMachine

/-! ## Plans of one size -/

section OneSize

variable {S T E : Nat} {p q : Plan S T E} {σ : Search S T E}

namespace Plan

/-- The two plans say the same about events, and about the states that runs of the first enter. -/
structure AgreesWhereEntered (p q : Plan S T E) : Prop where
  start : q.start = p.start
  initiallyArmed : q.initiallyArmed = p.initiallyArmed
  onlyOnce : q.onlyOnce = p.onlyOnce
  row : ∀ s, p.Enters s → q.rows.get s = p.rows.get s

/-- Runs enter the state of a configuration that they come to. -/
theorem Run.enters {trail : Trail (Fin S)} {c : Configuration S T E} (h : p.Run trail (some c)) :
    p.Enters c.state := by
  refine ⟨trail, some c, h, ?_⟩
  generalize hc : some c = c? at h
  cases h with
  | start hs => exact (state_of_enter? hc.symm).symm
  | step _ _ => exact (state_of_enter? hc.symm).symm

namespace AgreesWhereEntered

variable (h : p.AgreesWhereEntered q) {c : Configuration S T E} {s : Fin S}
include h

theorem before_eq : q.before s = p.before s := by
  simp only [before, h.initiallyArmed]

theorem enter?_eq (hs : p.Enters s) (prev : Configuration S T E) (event : Option (Fin E)) :
    q.enter? prev s event = p.enter? prev s event := by
  have hfire : q.fire prev.fired event = p.fire prev.fired event := by
    cases event <;> simp only [fire, h.onlyOnce]
  simp only [enter?, h.row s hs, hfire]

theorem enabled_eq : q.enabled c = p.enabled c := by
  simp only [enabled, h.onlyOnce]

theorem moves_eq (hc : p.Enters c.state) : q.moves c = p.moves c := by
  simp only [moves, h.row _ hc, h.enabled_eq]

theorem problems_eq (hc : p.Enters c.state) : q.problems c = p.problems c := by
  simp only [problems, edgeProblems, h.row _ hc, h.enabled_eq, h.moves_eq hc]

end AgreesWhereEntered

end Plan

namespace Search

variable (h : p.AgreesWhereEntered q)
include h

/-- A push looks at the state of its configuration. -/
theorem push_eq {c : Configuration S T E} (hc : p.Enters c.state) (trail : Trail (Fin S)) :
    σ.push q c trail = σ.push p c trail := by
  simp only [push, h.problems_eq hc, h.moves_eq hc, h.enabled_eq]

/-- A visit looks at the state at the end of its trail. -/
theorem visit_eq {trail : Trail (Fin S)} {prev : Configuration S T E} {event : Option (Fin E)}
    (hrun : p.Run trail (p.enter? prev trail.last event)) :
    σ.visit hasSeen q (q.enter? prev trail.last event) trail =
      σ.visit hasSeen p (p.enter? prev trail.last event) trail := by
  rw [h.enter?_eq ⟨trail, _, hrun, rfl⟩]
  cases hc : p.enter? prev trail.last event with
  | none => rfl
  | some c =>
    rw [hc] at hrun
    simp only [visit, push_eq h hrun.enters]

/-- A step from where runs have come stays the same. -/
theorem step_eq (hσ : Sound p σ) : σ.step hasSeen q = σ.step hasSeen p := by
  match hs : σ.stack with
  | [] => rw [step_nil hs, step_nil hs]
  | ⟨c, trail, []⟩ :: below => rw [step_settle hs, step_settle hs]
  | ⟨c, trail, mv :: ahead⟩ :: below =>
    have hin : ⟨c, trail, mv :: ahead⟩ ∈ σ.stack := hs ▸ List.mem_cons_self
    have hmv : mv ∈ p.moves c := hσ.ahead _ hin mv List.mem_cons_self
    have hrun : p.Run (.step trail mv.label mv.target) (p.enter? c mv.target mv.event) :=
      .step (hσ.trail _ hin) hmv
    rw [step_visit hs, step_visit hs]
    exact visit_eq h hrun

theorem start_eq : start hasSeen q = start hasSeen p := by
  unfold start
  rw [h.start]
  cases hs : p.start with
  | none => rfl
  | some s =>
    have hrun : p.Run (.start s) (p.enter? (p.before s) s none) := .start hs
    dsimp only
    rw [h.before_eq]
    exact visit_eq h hrun

/-- The rest of a search stays the same, step by step. -/
theorem run_eq (hσ : Sound p σ) : σ.run q = σ.run p := by
  induction σ using run.induct p with
  | case1 σ hs => rw [run_nil hs, run_nil hs]
  | case2 σ hs ih => rw [run_step hs, step_eq h hσ, ih (hσ.step hasSeen), ← run_step hs]

/-- What a plan says about states that no run enters does not matter to its search. -/
theorem complete_eq : complete q = complete p := by
  rw [complete, complete, start_eq h]
  exact run_eq h (.initial p hasSeen)

end Search

end OneSize

/-! ## Plans for equal numbers of states -/

section EqualSizes

variable {S S' T E : Nat}

/-- A move between states that are numbered by another type. -/
def Move.cast (h : S = S') (mv : Move S E) : Move S' E := ⟨mv.target.cast h, mv.label, mv.event⟩

/-- An edge between states that are numbered by another type. -/
def Slot.cast (h : S = S') (slot : Slot S E) : Slot S' E :=
  ⟨slot.position, slot.moves.map (Move.cast h)⟩

/-- The ways out of a state to states that are numbered by another type. -/
def Body.cast (h : S = S') : Body S T E → Body S' T E
  | .final => .final
  | .passing moves => .passing (moves.map (Move.cast h))
  | .branching onEvent onTimer =>
    .branching (onEvent.map (Option.map (Slot.cast h))) (onTimer.map (Option.map (Slot.cast h)))

/-- What is said about a state, with states numbered by another type. -/
def Row.cast (h : S = S') (row : Row S T E) : Row S' T E := { row with body := row.body.cast h }

/-- A problem with states numbered by another type. -/
def Problem.cast (h : S = S') : Problem S T E → Problem S' T E
  | .unhandledEvent s e => .unhandledEvent (s.cast h) e
  | .missingTimerEdge s t => .missingTimerEdge (s.cast h) t
  | .ghostTimerEdge s t => .ghostTimerEdge (s.cast h) t
  | .stall s => .stall (s.cast h)

theorem Slot.cast_rfl : Slot.cast (E := E) (rfl : S = S) = id := by
  funext slot
  exact congrArg (Slot.mk slot.position) (List.map_id slot.moves)

theorem Row.cast_rfl (row : Row S T E) : row.cast rfl = row := by
  obtain ⟨starts, stops, arms, body⟩ := row
  refine congrArg (Row.mk starts stops arms) ?_
  cases body with
  | final => rfl
  | passing moves => exact congrArg Body.passing (List.map_id moves)
  | branching onEvent onTimer => simp [Body.cast, Slot.cast_rfl]

theorem Problem.cast_rfl (pr : Problem S T E) : pr.cast rfl = pr := by
  cases pr <;> rfl

theorem Trail.map_id {σ : Type} (trail : Trail σ) : trail.map id = trail := by
  induction trail with
  | start s => rfl
  | step before label s ih => rw [map, ih, id]

/-- The plans say the same about events, and about the states that runs of the first enter. -/
structure Plan.Matches (h : S = S') (p : Plan S T E) (q : Plan S' T E) : Prop where
  start : q.start = p.start.map (Fin.cast h)
  initiallyArmed : q.initiallyArmed = p.initiallyArmed
  onlyOnce : q.onlyOnce = p.onlyOnce
  row : ∀ s, p.Enters s → q.rows.get (s.cast h) = (p.rows.get s).cast h

/-- The searches know the same: they have found the same problems in the same order and by the same
trails, entered the same states, and come to as many configurations. -/
structure Search.Matches (h : S = S') (σ : Search S T E) (τ : Search S' T E) : Prop where
  found : τ.found = σ.found.map fun (pr, trail) => (pr.cast h, trail.map (Fin.cast h))
  entered : ∀ s, s.cast h ∈ τ.entered ↔ s ∈ σ.entered
  enabledIn : ∀ s : Fin S, τ.enabledIn.get (s.cast h) = σ.enabledIn.get s
  runningIn : ∀ s : Fin S, τ.runningIn.get (s.cast h) = σ.runningIn.get s
  size_settled : τ.settled.size = σ.settled.size
  maxDepth : τ.maxDepth = σ.maxDepth

/-- Plans that say the same about the states that are entered have searches that know the same. -/
theorem Search.matches_complete {h : S = S'} {p : Plan S T E} {q : Plan S' T E}
    (hpq : p.Matches h q) : (complete p).Matches h (complete q) := by
  subst h
  have hagree : p.AgreesWhereEntered q :=
    ⟨by simpa using hpq.start, hpq.initiallyArmed, hpq.onlyOnce,
      fun s hs => (hpq.row s hs).trans (Row.cast_rfl _)⟩
  rw [complete_eq hagree]
  refine ⟨?_, fun _ => Iff.rfl, fun _ => rfl, fun _ => rfl, rfl, rfl⟩
  conv_lhs => rw [← List.map_id (complete p).found]
  refine List.map_congr_left fun ⟨pr, trail⟩ _ => ?_
  exact Prod.ext (Problem.cast_rfl pr).symm (Trail.map_id trail).symm

end EqualSizes

end TimedMachine
