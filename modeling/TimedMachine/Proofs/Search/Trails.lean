import TimedMachine.Proofs.Search.Coherent
import TimedMachine.Proofs.Search.Sound

/-!
# The trails that a search keeps

Each frame on the stack of a search came about by a move of the frame below it. So its trail is that
of a run which comes to stand in the configurations of the stack, one after the other from the
lowest to this one, and as the stack holds each of its configurations once, the run stands in none
of them twice. A problem is reported when its configuration is pushed, with the trail of the frame
that is new then, so whatever happens to the stack later, the trail it was reported with is such a
run's.
-/

namespace TimedMachine

variable {S T E : Nat} {p : Plan S T E}

/-- The trails of runs that have not ended, each with the configurations that the run has come to,
the last one first. -/
inductive Plan.Visits (p : Plan S T E) : Trail (Fin S) → List (Configuration S T E) → Prop
  | start {s : Fin S} {c : Configuration S T E} :
    p.start = some s → p.enter? (p.before s) s none = some c → Visits p (.start s) [c]
  | step {trail : Trail (Fin S)} {c d : Configuration S T E} {cs : List (Configuration S T E)}
    {mv : Move S E} :
    Visits p trail (c :: cs) → mv ∈ p.moves c → p.enter? c mv.target mv.event = some d →
    Visits p (.step trail mv.label mv.target) (d :: c :: cs)

/-- A run that has come to configurations ends in the last of them. -/
theorem Plan.Visits.run {trail : Trail (Fin S)} {c : Configuration S T E}
    {cs : List (Configuration S T E)} (h : p.Visits trail (c :: cs)) : p.Run trail (some c) := by
  generalize hl : c :: cs = l at h
  induction h generalizing c cs with
  | start hs hc =>
    cases hl
    exact hc ▸ .start hs
  | step _ hmv hd ih =>
    cases hl
    exact hd ▸ .step (ih rfl) hmv

namespace Search

variable {σ : Search S T E}

/-- What holds of each member of a list with those after it, holds so of the head and of the tail. -/
theorem forall_suffix_cons {α : Type} {Q : α → List α → Prop} {a : α} {l : List α} :
    (∀ b m, b :: m <:+ a :: l → Q b m) ↔ Q a l ∧ ∀ b m, b :: m <:+ l → Q b m := by
  constructor
  · intro h
    exact ⟨h a l (List.suffix_refl _), fun b m hm => h b m (List.suffix_cons_iff.mpr (.inr hm))⟩
  · rintro ⟨ha, hl⟩ b m hm
    rcases List.suffix_cons_iff.mp hm with heq | hm
    · obtain ⟨rfl, rfl⟩ := List.cons.inj heq
      exact ha
    · exact hl b m hm

/-- Each frame's trail leads through the configurations of the stack up to the frame's own, and each
problem was reported at the end of a run that comes to different configurations. -/
structure Traced (p : Plan S T E) (σ : Search S T E) : Prop where
  stack : ∀ f below, f :: below <:+ σ.stack →
    p.Visits f.trail (f.config :: below.map Frame.config)
  found : ∀ pr trail, (pr, trail) ∈ σ.found →
    ∃ c cs, p.Visits trail (c :: cs) ∧ (c :: cs).Nodup ∧ pr ∈ p.problems c

namespace Traced

/-- A visit at the end of a run through the configurations of the stack. -/
theorem visit (h : Traced p σ) (hstacked : σ.Stacked) {c? : Option (Configuration S T E)}
    {trail : Trail (Fin S)}
    (hvisits : ∀ c, c? = some c → p.Visits trail (c :: σ.stack.map Frame.config)) :
    Traced p (σ.visit hasSeen p c? trail) := by
  rcases visit_cases hasSeen p σ c? trail with ⟨hv, -⟩ | ⟨c, hc, hnew, hv⟩
  · rw [hv]
    exact ⟨h.stack, h.found⟩
  · rw [hv]
    have hvisits := hvisits c hc
    refine ⟨forall_suffix_cons.mpr ⟨hvisits, h.stack⟩, fun pr trail' hpr => ?_⟩
    rcases Sound.mem_found_push.mp hpr with ⟨rfl, hpr, -⟩ | hpr
    · -- what has not been seen is not on the stack
      have hfresh : c ∉ σ.stack.map Frame.config := fun hmem => by
        rw [hasSeen_iff.mpr (.inl ((hstacked.mem_onStack c).mpr hmem))] at hnew
        cases hnew
      exact ⟨c, _, hvisits, List.nodup_cons.mpr ⟨hfresh, hstacked.nodup⟩, hpr⟩
    · exact h.found pr trail' hpr

theorem settle (h : Traced p σ) {f : Frame S T E} {below : List (Frame S T E)}
    (hs : σ.stack = f :: below) : Traced p (σ.settle f.config below) where
  stack := (forall_suffix_cons.mp (hs ▸ h.stack)).2
  found := h.found

/-- What is left to try does not matter to the trails. -/
theorem restack (h : Traced p σ) {c : Configuration S T E} {trail : Trail (Fin S)}
    {ahead ahead' : List (Move S E)} {below : List (Frame S T E)}
    (hs : σ.stack = ⟨c, trail, ahead⟩ :: below) :
    Traced p (σ.restack (⟨c, trail, ahead'⟩ :: below)) where
  stack := forall_suffix_cons.mpr (forall_suffix_cons.mp (hs ▸ h.stack))
  found := h.found

/-- A step keeps the trails right: the next move leads from the innermost configuration to the one
that is pushed. -/
theorem step (h : Traced p σ) (hsound : Sound p σ) (hstacked : σ.Stacked) :
    Traced p (σ.step hasSeen p) := by
  match hs : σ.stack with
  | [] =>
    rw [step_nil hs]
    exact h
  | ⟨c, trail, []⟩ :: below =>
    rw [step_settle hs]
    exact h.settle hs
  | ⟨c, trail, mv :: ahead⟩ :: below =>
    rw [step_visit hs]
    have hmv : mv ∈ p.moves c :=
      hsound.ahead ⟨c, trail, mv :: ahead⟩ (hs ▸ List.mem_cons_self) mv List.mem_cons_self
    have hvisits : p.Visits trail (c :: below.map Frame.config) :=
      h.stack ⟨c, trail, mv :: ahead⟩ below (hs ▸ List.suffix_refl _)
    exact (h.restack hs).visit (hstacked.restack _ (by simp [hs])) fun d hd => .step hvisits hmv hd

theorem empty (p : Plan S T E) : Traced p Search.empty where
  stack := by simp [Search.empty]
  found := by simp [Search.empty]

theorem initial (p : Plan S T E) : Traced p (start hasSeen p) := by
  unfold start
  split
  · exact empty p
  · next s hs => exact (empty p).visit (Coherent.empty p).stacked fun c hc => .start hs hc

/-- The trails of a whole search are right. -/
theorem complete (p : Plan S T E) : Traced p (complete p) := by
  have hstep : ∀ σ : Search S T E, Coherent p σ ∧ Sound p σ ∧ Traced p σ →
      Coherent p (σ.step hasSeen p) ∧ Sound p (σ.step hasSeen p) ∧ Traced p (σ.step hasSeen p) :=
    fun _ h => ⟨h.1.step, h.2.1.step hasSeen, h.2.2.step h.2.1 h.1.stacked⟩
  exact (run_induct hstep ⟨.initial p, .initial p hasSeen, initial p⟩).1.2.2

end Traced

end Search

end TimedMachine
