import TimedMachine.Explore.Report
import TimedMachine.Proofs.Search.Coherent
import Mathlib.Data.List.Perm.Subperm
import Mathlib.Logic.Function.Iterate

/-!
# Searches without a memory

A plain search passes over a configuration only when it is on the stack. It expands a settled
configuration again on every path that comes to it, so it can take very much longer. But all that
it does beyond the steps of the search with a memory are detours: it leaves for a configuration
that is settled there, finds nothing that is not known, and comes back.

A detour stays among settled configurations because a move out of one leads to a settled one or to
the stack, and it ends because a stack has no configuration twice.
-/

namespace TimedMachine

namespace Search

variable {S T E : Nat} {p : Plan S T E} {σ σ' τ : Search S T E}

/-- Whether a configuration is on the stack. -/
def onPath (σ : Search S T E) (c : Configuration S T E) : Bool := σ.onStack.contains c

theorem onPath_iff {c : Configuration S T E} : σ.onPath c = true ↔ c ∈ σ.onStack := by
  simp [onPath]

theorem onPath_eq_false {c : Configuration S T E} : σ.onPath c = false ↔ c ∉ σ.onStack := by
  rw [← onPath_iff, Bool.not_eq_true]

/-- A plain search comes from one stage to another. -/
def PlainSteps (p : Plan S T E) (σ τ : Search S T E) : Prop := ∃ n, (step onPath p)^[n] σ = τ

/-- How a plain search ends. -/
def PlainEnd (p : Plan S T E) (σ : Search S T E) : Prop :=
  PlainSteps p (start onPath p) σ ∧ σ.stack = []

namespace PlainSteps

theorem refl (p : Plan S T E) (σ : Search S T E) : PlainSteps p σ σ := ⟨0, rfl⟩

theorem trans (h : PlainSteps p σ σ') (h' : PlainSteps p σ' τ) : PlainSteps p σ τ := by
  obtain ⟨n, rfl⟩ := h
  obtain ⟨k, rfl⟩ := h'
  exact ⟨k + n, Function.iterate_add_apply _ k n σ⟩

/-- What comes after a step. -/
theorem of_step (h : PlainSteps p (σ.step onPath p) τ) : PlainSteps p σ τ :=
  trans ⟨1, rfl⟩ h

/-- A plain search stays where it ends. -/
theorem eq_of_stack_nil (h : PlainSteps p σ τ) (hσ : σ.stack = []) : τ = σ := by
  obtain ⟨n, rfl⟩ := h
  exact Function.iterate_fixed (step_nil hσ) n

end PlainSteps

/-- A plain search has one end. -/
theorem PlainEnd.unique (h : PlainEnd p σ) (h' : PlainEnd p τ) : σ = τ := by
  obtain ⟨⟨n, rfl⟩, hσ⟩ := h
  obtain ⟨⟨k, rfl⟩, hτ⟩ := h'
  rcases Nat.le_total n k with hnk | hkn
  · obtain ⟨d, rfl⟩ := Nat.exists_eq_add_of_le' hnk
    exact (PlainSteps.eq_of_stack_nil ⟨d, (Function.iterate_add_apply _ d n _).symm⟩ hσ).symm
  · obtain ⟨d, rfl⟩ := Nat.exists_eq_add_of_le' hkn
    exact PlainSteps.eq_of_stack_nil ⟨d, (Function.iterate_add_apply _ d k _).symm⟩ hτ

/-! ## Agreement -/

/-- Two searches agree on all that a report says about violations. -/
structure Agrees (σ τ : Search S T E) : Prop where
  entered : σ.entered = τ.entered
  enabledIn : σ.enabledIn = τ.enabledIn
  runningIn : σ.runningIn = τ.runningIn
  reported : σ.reported = τ.reported
  found : σ.found = τ.found

namespace Agrees

theorem restack (h : σ.Agrees τ) (stack stack' : List (Frame S T E)) :
    (σ.restack stack).Agrees (τ.restack stack') :=
  ⟨h.entered, h.enabledIn, h.runningIn, h.reported, h.found⟩

theorem settle (h : σ.Agrees τ) (c : Configuration S T E) (below : List (Frame S T E)) :
    (σ.settle c below).Agrees (τ.settle c below) :=
  ⟨h.entered, h.enabledIn, h.runningIn, h.reported, h.found⟩

theorem enter (h : σ.Agrees τ) (s : Fin S) : (σ.enter s).Agrees (τ.enter s) :=
  { h with entered := congrArg (·.insert s) h.entered }

theorem push (h : σ.Agrees τ) (c : Configuration S T E) (trail : Trail (Fin S)) :
    (σ.push p c trail).Agrees (τ.push p c trail) where
  entered := h.entered
  enabledIn := by simp only [Search.push, h.enabledIn]
  runningIn := by simp only [Search.push, h.runningIn]
  reported := by simp only [Search.push, h.reported]
  found := by simp only [Search.push, h.reported, h.found]

/-- Nothing is learned by entering a state that was entered before. -/
theorem enter_left (h : σ.Agrees τ) {s : Fin S} (hs : s ∈ τ.entered) : (σ.enter s).Agrees τ :=
  { h with
    entered := by
      rw [← h.entered] at hs ⊢
      exact Mask.ext fun i => ⟨fun hi => (Mask.mem_insert.mp hi).elim id (· ▸ hs),
        fun hi => Mask.mem_insert.mpr (.inl hi)⟩ }

theorem addAt_eq_self {n k : Nat} (sets : Vector (Mask k) n) (i : Fin n) {more : Mask k}
    (h : ∀ j, j ∈ more → j ∈ sets.get i) : addAt sets i more = sets := by
  have hunion : (sets.get i).union more = sets.get i :=
    Mask.ext fun j => ⟨fun hj => (Mask.mem_union.mp hj).elim id (h j),
      fun hj => Mask.mem_union.mpr (.inl hj)⟩
  rw [addAt, hunion]
  exact Vector.set_getElem_self i.isLt

/-- Nothing is learned by pushing a configuration that has been noted. -/
theorem push_left (h : σ.Agrees τ) {c : Configuration S T E} (hc : Noted p τ c)
    (trail : Trail (Fin S)) : (σ.push p c trail).Agrees τ := by
  have hfresh : (p.problems c).filter (· ∉ σ.reported) = [] := by
    rw [List.filter_eq_nil_iff]
    intro pr hpr
    simpa [h.reported] using hc.reported pr hpr
  refine ⟨h.entered, ?_, ?_, ?_, ?_⟩
  · rw [← h.enabledIn]
    exact addAt_eq_self _ _ fun e he => h.enabledIn ▸ hc.enabled e he
  · rw [← h.runningIn]
    exact addAt_eq_self _ _ fun t ht => h.runningIn ▸ hc.running t ht
  · simp only [Search.push, hfresh, Std.TreeSet.insertMany_nil]
    exact h.reported
  · simp only [Search.push, hfresh, List.map_nil, List.reverse_nil, List.nil_append]
    exact h.found

end Agrees

/-! ## Detours -/

/-- The plain search `σ` stands where the search `τ` does, except for a detour: its stack has some
more frames, of configurations that are settled in `τ`. -/
structure Shadows (p : Plan S T E) (τ σ : Search S T E) (detour : List (Frame S T E)) : Prop where
  stacked : σ.Stacked
  stack : σ.stack = detour ++ τ.stack
  agrees : σ.Agrees τ
  settled : ∀ f ∈ detour, f.config ∈ τ.settled
  ahead : ∀ f ∈ detour, ∀ mv ∈ f.ahead, mv ∈ p.moves f.config

namespace Shadows

variable {detour : List (Frame S T E)}

/-- What is on the stack of the search is on that of its shadow. -/
theorem onStack_mono (h : Shadows p τ σ detour) (hτ : τ.Stacked) {c : Configuration S T E}
    (hc : c ∈ τ.onStack) : c ∈ σ.onStack := by
  rw [h.stacked.mem_onStack, h.stack, List.map_append, List.mem_append]
  exact .inr ((hτ.mem_onStack c).mp hc)

/-- What the search has seen, but is not on the stack of its shadow, is settled. -/
theorem mem_settled (h : Shadows p τ σ detour) (hτ : τ.Stacked) {c : Configuration S T E}
    (hseen : τ.hasSeen c = true) (hc : σ.onPath c = false) : c ∈ τ.settled := by
  have hon : c ∉ τ.onStack := mt (h.onStack_mono hτ) (onPath_eq_false.mp hc)
  exact (hasSeen_iff.mp hseen).resolve_left hon

/-- A detour goes one settled configuration further. -/
theorem extend (h : Shadows p τ σ detour) (hτ : Coherent p τ) {d : Configuration S T E}
    (hd : d ∈ τ.settled) (hon : σ.onPath d = false) (trail : Trail (Fin S)) :
    Shadows p τ (σ.push p d trail) (⟨d, trail, p.moves d⟩ :: detour) where
  stacked := h.stacked.push (onPath_eq_false.mp hon) trail
  stack := by
    rw [List.cons_append, ← h.stack]
    rfl
  agrees := h.agrees.push_left (hτ.noted d (hasSeen_iff.mpr (.inr hd))) trail
  settled f hf := by
    rcases List.mem_cons.mp hf with rfl | hf
    · exact hd
    · exact h.settled f hf
  ahead f hf := by
    rcases List.mem_cons.mp hf with rfl | hf
    · exact fun mv hmv => hmv
    · exact h.ahead f hf

/-- A detour comes back from a configuration without moves ahead. -/
theorem back {f : Frame S T E} (h : Shadows p τ σ (f :: detour)) :
    Shadows p τ (σ.settle f.config (detour ++ τ.stack)) detour where
  stacked := h.stacked.settle h.stack
  stack := rfl
  agrees := ⟨h.agrees.entered, h.agrees.enabledIn, h.agrees.runningIn, h.agrees.reported,
    h.agrees.found⟩
  settled f hf := h.settled f (List.mem_cons_of_mem _ hf)
  ahead f hf := h.ahead f (List.mem_cons_of_mem _ hf)

/-- On a detour, trying a move enters no new state. -/
theorem enter (hτ : Coherent p τ) {c : Configuration S T E} {trail : Trail (Fin S)}
    {mv : Move S E} {ahead : List (Move S E)}
    (h : Shadows p τ σ (⟨c, trail, mv :: ahead⟩ :: detour)) :
    Shadows p τ ((σ.restack (⟨c, trail, ahead⟩ :: (detour ++ τ.stack))).enter mv.target)
      (⟨c, trail, ahead⟩ :: detour) := by
  have hc : c ∈ τ.settled := h.settled ⟨c, trail, mv :: ahead⟩ List.mem_cons_self
  have hahead : ∀ mv' ∈ mv :: ahead, mv' ∈ p.moves c := h.ahead _ List.mem_cons_self
  have htried := hτ.settled c hc mv (hahead mv List.mem_cons_self)
  have hstacked := h.stacked.restack (⟨c, trail, ahead⟩ :: (detour ++ τ.stack))
    (by simp [h.stack])
  refine ⟨⟨hstacked.mem_onStack, hstacked.nodup⟩, rfl, ?_, ?_, ?_⟩
  · exact (h.agrees.restack _ τ.stack).enter_left htried.entered
  · simpa using h.settled
  · intro f hf mv' hmv'
    rcases List.mem_cons.mp hf with rfl | hf
    · exact hahead mv' (List.mem_cons_of_mem _ hmv')
    · exact h.ahead f (List.mem_cons_of_mem _ hf) mv' hmv'

/-- A stack has no configuration twice, so there is a limit to its length. -/
theorem length_le (h : Shadows p τ σ detour) :
    detour.length + τ.stack.length ≤ (Configuration.all S T E).length := by
  have hle := (h.stacked.nodup.subperm fun c _ => Configuration.mem_all c).length_le
  simpa [h.stack] using hle

/-- Every detour comes back. The induction is on the room that is left on the stack, and for a
stack of one length on the moves ahead. -/
theorem unwind (hτ : Coherent p τ) (room : Nat) {f : Frame S T E}
    (hroom : (Configuration.all S T E).length < room + (detour.length + 1 + τ.stack.length))
    (h : Shadows p τ σ (f :: detour)) : ∃ σ', PlainSteps p σ σ' ∧ Shadows p τ σ' detour := by
  induction room generalizing σ f detour with
  | zero =>
    -- the stack would be longer than there are configurations
    have hle := h.length_le
    rw [List.length_cons] at hle
    omega
  | succ room ih =>
    obtain ⟨c, trail, ahead⟩ := f
    induction ahead generalizing σ with
    | nil =>
      refine ⟨_, .of_step (.refl p _), ?_⟩
      rw [step_settle h.stack]
      exact h.back
    | cons mv ahead ihAhead =>
      have henter := h.enter hτ
      rcases step_visit_cases onPath p h.stack with ⟨hv, _⟩ | ⟨d, hd, hon, hv⟩
      · obtain ⟨σ', hsteps, hσ'⟩ := ihAhead henter
        exact ⟨σ', .of_step (hv ▸ hsteps), hσ'⟩
      · -- the detour goes on to `d`, comes back from there, and tries the next move
        have hc : c ∈ τ.settled := h.settled _ List.mem_cons_self
        have hmv : mv ∈ p.moves c := h.ahead _ List.mem_cons_self mv List.mem_cons_self
        have hseen := (hτ.settled c hc mv hmv).seen d hd
        have hdetour := henter.extend hτ (henter.mem_settled hτ.stacked hseen hon) hon
          (.step trail mv.label mv.target)
        obtain ⟨σ', hsteps, hσ'⟩ := ih (by rw [List.length_cons]; omega) hdetour
        obtain ⟨σ'', hsteps', hσ''⟩ := ihAhead hσ'
        exact ⟨σ'', .of_step (hv ▸ hsteps.trans hsteps'), hσ''⟩

/-! ## One search follows the other -/

/-- For one step of the search, its shadow takes some steps to the same place. -/
theorem follow (hτ : Coherent p τ) (h : Shadows p τ σ []) :
    ∃ σ', PlainSteps p σ σ' ∧ Shadows p (τ.step hasSeen p) σ' [] := by
  have hτ' := hτ.step
  match hs : τ.stack with
  | [] =>
    rw [step_nil hs]
    exact ⟨σ, .refl p σ, h⟩
  | ⟨c, trail, []⟩ :: below =>
    have hσs : σ.stack = ⟨c, trail, []⟩ :: below := h.stack.trans hs
    refine ⟨_, .of_step (.refl p _), ?_⟩
    rw [step_settle hs, step_settle hσs]
    exact ⟨h.stacked.settle hσs, rfl, h.agrees.settle c below, by simp, by simp⟩
  | ⟨c, trail, mv :: ahead⟩ :: below =>
    have hσs : σ.stack = ⟨c, trail, mv :: ahead⟩ :: below := h.stack.trans hs
    have hstacked := h.stacked.restack (⟨c, trail, ahead⟩ :: below) (by simp [hσs])
    have henter : Shadows p ((τ.restack (⟨c, trail, ahead⟩ :: below)).enter mv.target)
        ((σ.restack (⟨c, trail, ahead⟩ :: below)).enter mv.target) [] :=
      ⟨⟨hstacked.mem_onStack, hstacked.nodup⟩, rfl, (h.agrees.restack _ _).enter _,
        by simp, by simp⟩
    rcases step_visit_cases hasSeen p hs with ⟨hv, hseen⟩ | ⟨d, hd, hunseen, hv⟩
    · rw [hv] at hτ' ⊢
      rcases step_visit_cases onPath p hσs with ⟨hv', _⟩ | ⟨d, hd, hon, hv'⟩
      · exact ⟨_, .of_step (hv' ▸ .refl p _), henter⟩
      · -- the search has settled `d` and passes over it, the plain search makes a detour
        have hdetour := henter.extend hτ' (henter.mem_settled hτ'.stacked (hseen d hd) hon) hon
          (.step trail mv.label mv.target)
        obtain ⟨σ', hsteps, hσ'⟩ := hdetour.unwind hτ' (Configuration.all S T E).length
          (by omega)
        exact ⟨σ', .of_step (hv' ▸ hsteps), hσ'⟩
    · rw [hv]
      rcases step_visit_cases onPath p hσs with ⟨_, hon⟩ | ⟨d', hd', hon, hv'⟩
      · -- both have the same stack, so what is on the one has been seen by the other
        have hmem := (hstacked.mem_onStack d).mp (onPath_iff.mp (hon d hd))
        have hτstacked := hτ.stacked.restack (⟨c, trail, ahead⟩ :: below) (by simp [hs])
        rw [hasSeen_iff.mpr (.inl ((hτstacked.mem_onStack d).mpr hmem))] at hunseen
        cases hunseen
      · obtain rfl : d = d' := Option.some.inj (hd.symm.trans hd')
        refine ⟨σ.step onPath p, .of_step (.refl p _), ?_⟩
        rw [hv']
        refine ⟨?_, rfl, henter.agrees.push d _, by simp, by simp⟩
        exact henter.stacked.push (onPath_eq_false.mp hon) _

/-- The shadow of a search follows it to its end. -/
theorem run (hτ : Coherent p τ) (h : Shadows p τ σ []) :
    ∃ σ', PlainSteps p σ σ' ∧ Shadows p (τ.run p) σ' [] := by
  induction τ using run.induct p generalizing σ with
  | case1 τ hs =>
    rw [run_nil hs]
    exact ⟨σ, .refl p σ, h⟩
  | case2 τ hs ih =>
    rw [run_step hs]
    obtain ⟨σ', hsteps, hσ'⟩ := h.follow hτ
    obtain ⟨σ'', hsteps', hσ''⟩ := ih hτ.step hσ'
    exact ⟨σ'', hsteps.trans hsteps', hσ''⟩

/-- Both searches start alike. -/
theorem start (p : Plan S T E) :
    Shadows p (Search.start hasSeen p) (Search.start onPath p) [] := by
  have hstart : Search.start onPath p = Search.start hasSeen p := by
    unfold Search.start
    split
    · rfl
    · next s _ =>
      cases p.enter? (p.before s) s none with
      | none => rfl
      | some c => simp [visit, onPath, hasSeen, empty]
  rw [hstart]
  exact ⟨(Coherent.initial p).stacked, rfl, ⟨rfl, rfl, rfl, rfl, rfl⟩, by simp, by simp⟩

end Shadows

/-- The plain search ends, and agrees with the search that has a memory. -/
theorem exists_plainEnd (p : Plan S T E) : ∃ σ, PlainEnd p σ ∧ σ.Agrees (complete p) := by
  obtain ⟨σ, hsteps, hσ⟩ := (Shadows.start p).run (Coherent.initial p)
  have hstack : σ.stack = [] := hσ.stack.trans (Coherent.complete p).2
  exact ⟨σ, ⟨hsteps, hstack⟩, hσ.agrees⟩

end Search

/-! ## Reports -/

namespace Machine

variable {m : Machine}

/-- Searches that agree give the same violations, one by one and path by path. -/
theorem violations_reportOf_congr {σ τ : m.Searches} (h : σ.Agrees τ) :
    (m.reportOf σ).violations = (m.reportOf τ).violations := by
  have hclosing : m.closingViolations σ = m.closingViolations τ := by
    funext s
    simp only [closingViolations, unusableEdges, isUsable, h.entered, h.enabledIn, h.runningIn]
  simp only [reportOf, foundViolations, h.found, hclosing]

/-- The plain search of a machine's runs comes to one end, and there to the same list of violations
as the search that passes over what is settled. -/
theorem plain_violations_eq (m : Machine) :
    ∃ σ, (∀ τ, Search.PlainEnd m.plan τ ↔ τ = σ) ∧
      (m.reportOf σ).violations = m.explore.violations := by
  obtain ⟨σ, hend, hagrees⟩ := Search.exists_plainEnd m.plan
  refine ⟨σ, fun τ => ⟨fun hτ => hτ.unique hend, ?_⟩, violations_reportOf_congr hagrees⟩
  rintro rfl
  exact hend

end Machine

end TimedMachine
