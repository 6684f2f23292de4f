import TimedMachine.Proofs.Search.Complete

/-!
# Searches push each configuration once

A search pushes what it has not seen, and has seen it from then on, so it pushes no configuration
twice (`Search.pushes_unique`). As what it has seen when it is complete is what the runs come to, it
pushes these configurations and no others (`Search.exists_pushes_iff`). At every stage the stack and
the settled configurations together are at least as many as the stack has ever been deep.
-/

namespace TimedMachine

namespace Search

variable {S T E : Nat} {p : Plan S T E} {σ τ : Search S T E} {c d : Configuration S T E}

/-! ## Stages -/

/-- The stages of a search: before it begins, after it has entered the start state, and from then on
after each step. -/
def stage (p : Plan S T E) : Nat → Search S T E
  | 0 => empty
  | 1 => start hasSeen p
  | n + 2 => (stage p (n + 1)).step hasSeen p

/-- From one stage of a search to another the stack gets one configuration more, on top and with all
its moves ahead. -/
def Pushes (p : Plan S T E) (σ τ : Search S T E) (c : Configuration S T E) : Prop :=
  ∃ trail below, τ.stack = ⟨c, trail, p.moves c⟩ :: below ∧
    below.map Frame.config = σ.stack.map Frame.config

/-- What happens from one stage to the next: a new configuration is pushed and seen, or nothing new
is seen and the stack does not get longer. -/
inductive Advances (p : Plan S T E) (σ τ : Search S T E) : Prop
  | push (c : Configuration S T E) (hnew : σ.hasSeen c = false) (hpush : Pushes p σ τ c)
    (hseen : ∀ d, τ.hasSeen d = true ↔ d = c ∨ σ.hasSeen d = true)
  | stay (hstack : τ.stack.length ≤ σ.stack.length)
    (hseen : ∀ d, τ.hasSeen d = true ↔ σ.hasSeen d = true)

theorem advances_visit (p : Plan S T E) (stack : List (Frame S T E))
    (hs : σ.stack.map Frame.config = stack.map Frame.config) (c? : Option (Configuration S T E))
    (trail : Trail (Fin S)) : Advances p σ ((σ.restack stack).visit hasSeen p c? trail) := by
  rcases visit_cases hasSeen p (σ.restack stack) c? trail with ⟨hv, -⟩ | ⟨c, -, hnew, hv⟩
  · rw [hv]
    have hlength := congrArg List.length hs
    rw [List.length_map, List.length_map] at hlength
    exact .stay (Nat.le_of_eq hlength.symm) fun _ => Iff.rfl
  · rw [hv]
    refine .push c hnew ⟨trail, stack, rfl, hs.symm⟩ fun d => ?_
    rw [hasSeen_push, Bool.or_eq_true, beq_iff_eq]
    rfl

theorem advances_step (h : σ.Stacked) : Advances p σ (σ.step hasSeen p) := by
  match hs : σ.stack with
  | [] =>
    rw [step_nil hs]
    exact .stay (Nat.le_refl _) fun _ => Iff.rfl
  | ⟨c, trail, []⟩ :: below =>
    rw [step_settle hs]
    have hc : c ∈ σ.onStack := (h.mem_onStack c).mpr (by simp [hs])
    refine .stay ?_ fun _ => hasSeen_settle_iff hc below
    rw [hs]
    exact Nat.le_succ _
  | ⟨c, trail, mv :: ahead⟩ :: below =>
    rw [step_visit hs]
    exact advances_visit p _ (by simp [hs]) _ _

/-- What holds before and after the start, and is preserved by each step, holds at each stage. -/
theorem stage_induct {I : Search S T E → Prop} (hempty : I empty) (hstart : I (start hasSeen p))
    (hstep : ∀ σ, I σ → I (σ.step hasSeen p)) : ∀ n, I (stage p n)
  | 0 => hempty
  | 1 => hstart
  | n + 2 => hstep _ (stage_induct hempty hstart hstep (n + 1))

theorem coherent_stage (p : Plan S T E) : ∀ n, Coherent p (stage p n) :=
  stage_induct (.empty p) (.initial p) fun _ h => h.step

theorem advances_stage (p : Plan S T E) : ∀ n, Advances p (stage p n) (stage p (n + 1))
  | 0 => by
    show Advances p empty (start hasSeen p)
    unfold start
    split
    · exact .stay (Nat.le_refl _) fun _ => Iff.rfl
    · exact advances_visit p [] rfl _ _
  | n + 1 => advances_step (coherent_stage p (n + 1)).stacked

/-- A search goes on from stage to stage until it is complete. -/
theorem exists_stage_eq_complete (p : Plan S T E) : ∃ n, stage p n = complete p := by
  have hrun : ∀ σ : Search S T E, ∀ n, stage p (n + 1) = σ → ∃ k, stage p k = σ.run p := by
    intro σ
    induction σ using run.induct p with
    | case1 σ hs =>
      intro n hn
      rw [run_nil hs]
      exact ⟨n + 1, hn⟩
    | case2 σ hs ih =>
      intro n hn
      rw [run_step hs]
      exact ih (n + 1) (congrArg (step hasSeen p) hn)
  exact hrun _ 0 rfl

/-! ## Each configuration is pushed once -/

/-- What is pushed has not been seen before, and has been seen from then on. -/
theorem Advances.of_pushes (h : Advances p σ τ) (hpush : Pushes p σ τ c) :
    σ.hasSeen c = false ∧ τ.hasSeen c = true := by
  obtain ⟨trail, below, hstack, hbelow⟩ := hpush
  cases h with
  | push c' hnew hpush' hseen =>
    obtain ⟨trail', below', hstack', -⟩ := hpush'
    obtain rfl : c = c' := congrArg Frame.config (List.cons.inj (hstack.symm.trans hstack')).1
    exact ⟨hnew, (hseen c).mpr (.inl rfl)⟩
  | stay hle _ =>
    have hlength := congrArg List.length hbelow
    rw [List.length_map, List.length_map] at hlength
    rw [hstack, List.length_cons] at hle
    omega

/-- What has been seen stays seen. -/
theorem hasSeen_stage_mono {k n : Nat} (hkn : k ≤ n) (h : (stage p k).hasSeen c = true) :
    (stage p n).hasSeen c = true := by
  induction hkn with
  | refl => exact h
  | @step n _ ih =>
    cases advances_stage p n with
    | push c' _ _ hseen => exact (hseen c).mpr (.inr ih)
    | stay _ hseen => exact (hseen c).mpr ih

/-- What has been seen at a stage was pushed before it. -/
theorem exists_pushes_of_hasSeen {n : Nat} (h : (stage p n).hasSeen c = true) :
    ∃ k, Pushes p (stage p k) (stage p (k + 1)) c := by
  induction n with
  | zero => simp [stage, hasSeen, empty] at h
  | succ n ih =>
    cases advances_stage p n with
    | push c' _ hpush hseen =>
      rcases (hseen c).mp h with rfl | hold
      · exact ⟨n, hpush⟩
      · exact ih hold
    | stay _ hseen => exact ih ((hseen c).mp h)

theorem sound_stage (p : Plan S T E) : ∀ n, Sound p (stage p n) :=
  stage_induct (.empty p) (.initial p hasSeen) fun _ h => h.step hasSeen

/-- What a search has seen is what runs come to. -/
theorem reachable_of_hasSeen (hsound : Sound p σ) (hstacked : σ.Stacked)
    (h : σ.hasSeen c = true) : p.Reachable c := by
  rcases hasSeen_iff.mp h with hc | hc
  · obtain ⟨f, hf, rfl⟩ := List.mem_map.mp ((hstacked.mem_onStack c).mp hc)
    exact ⟨f.trail, hsound.trail f hf⟩
  · exact hsound.settled c hc

/-- The configurations that runs come to are pushed, and no others. -/
theorem exists_pushes_iff :
    (∃ n, Pushes p (stage p n) (stage p (n + 1)) c) ↔ p.Reachable c := by
  constructor
  · rintro ⟨n, hn⟩
    exact reachable_of_hasSeen (sound_stage p (n + 1)) (coherent_stage p (n + 1)).stacked
      ((advances_stage p n).of_pushes hn).2
  · intro hc
    obtain ⟨n, hn⟩ := exists_stage_eq_complete p
    have hseen : (stage p n).hasSeen c = true := by
      rw [hn]
      exact hasSeen_iff.mpr (.inr ((mem_settled_complete p).mpr hc))
    exact exists_pushes_of_hasSeen hseen

/-- No configuration is pushed twice. -/
theorem pushes_unique {k n : Nat} (hk : Pushes p (stage p k) (stage p (k + 1)) c)
    (hn : Pushes p (stage p n) (stage p (n + 1)) c) : k = n := by
  have hle : ∀ {k n : Nat}, Pushes p (stage p k) (stage p (k + 1)) c →
      Pushes p (stage p n) (stage p (n + 1)) c → n ≤ k := by
    intro k n hk hn
    by_contra hlt
    -- the earlier push is seen at the later one
    have hseen := hasSeen_stage_mono (Nat.lt_of_not_le hlt) ((advances_stage p k).of_pushes hk).2
    rw [((advances_stage p n).of_pushes hn).1] at hseen
    cases hseen
  exact Nat.le_antisymm (hle hn hk) (hle hk hn)

/-! ## Depth -/

/-- The stack has never been deeper than there are configurations on it and settled, and it has not
been empty all the time if any have been seen. -/
structure Measured (σ : Search S T E) : Prop where
  apart : ∀ c ∈ σ.onStack, c ∉ σ.settled
  depth_le : σ.maxDepth ≤ σ.settled.size + σ.stack.length
  depth_pos : ∀ c, σ.hasSeen c = true → 0 < σ.maxDepth

namespace Measured

theorem visit (h : Measured σ) (p : Plan S T E) (stack : List (Frame S T E))
    (hs : σ.stack.map Frame.config = stack.map Frame.config) (c? : Option (Configuration S T E))
    (trail : Trail (Fin S)) : Measured ((σ.restack stack).visit hasSeen p c? trail) := by
  have hlength := congrArg List.length hs
  rw [List.length_map, List.length_map] at hlength
  have hdepth : σ.maxDepth ≤ σ.settled.size + stack.length := hlength ▸ h.depth_le
  rcases visit_cases hasSeen p (σ.restack stack) c? trail with ⟨hv, -⟩ | ⟨c, -, hnew, hv⟩
  · rw [hv]
    exact ⟨h.apart, hdepth, h.depth_pos⟩
  · rw [hv]
    refine ⟨fun d hd hsettled => ?_, ?_, fun d _ => ?_⟩
    · rw [mem_onStack_push] at hd
      rcases hd with rfl | hd
      · have hseen : (σ.restack stack).hasSeen d = true := hasSeen_iff.mpr (.inr hsettled)
        rw [hnew] at hseen
        cases hseen
      · exact h.apart d hd hsettled
    · show max σ.maxDepth (stack.length + 1) ≤ σ.settled.size + (stack.length + 1)
      omega
    · exact Nat.lt_of_lt_of_le (Nat.succ_pos _) (Nat.le_max_right _ _)

theorem settle (h : Measured σ) {f : Frame S T E} {below : List (Frame S T E)}
    (hc : f.config ∈ σ.onStack) (hs : σ.stack = f :: below) :
    Measured (σ.settle f.config below) where
  apart d hd hsettled := by
    obtain ⟨hne, hd⟩ := Std.TreeSet.mem_erase.mp hd
    rcases Std.TreeSet.mem_insert.mp hsettled with heq | hsettled
    · exact hne heq
    · exact h.apart d hd hsettled
  depth_le := by
    have hsize : (σ.settle f.config below).settled.size = σ.settled.size + 1 := by
      show (σ.settled.insert f.config).size = σ.settled.size + 1
      rw [Std.TreeSet.size_insert, if_neg (mt Std.TreeSet.mem_iff_contains.mpr (h.apart _ hc))]
    have hdepth := h.depth_le
    rw [hs, List.length_cons] at hdepth
    rw [hsize]
    show σ.maxDepth ≤ σ.settled.size + 1 + below.length
    omega
  depth_pos d hd := h.depth_pos d ((hasSeen_settle_iff hc below).mp hd)

theorem step (h : Measured σ) (hstacked : σ.Stacked) (p : Plan S T E) :
    Measured (σ.step hasSeen p) := by
  match hs : σ.stack with
  | [] =>
    rw [step_nil hs]
    exact h
  | ⟨c, trail, []⟩ :: below =>
    rw [step_settle hs]
    exact h.settle ((hstacked.mem_onStack c).mpr (by simp [hs])) hs
  | ⟨c, trail, mv :: ahead⟩ :: below =>
    rw [step_visit hs]
    exact h.visit p _ (by simp [hs]) _ _

theorem empty : Measured (Search.empty : Search S T E) where
  apart := by simp [Search.empty]
  depth_le := Nat.zero_le _
  depth_pos := by simp [hasSeen, Search.empty]

theorem initial (p : Plan S T E) : Measured (start hasSeen p) := by
  unfold start
  split
  · exact empty
  · exact empty.visit p [] rfl _ _

end Measured

theorem measured_stage (p : Plan S T E) (n : Nat) : Measured (stage p n) := by
  refine (stage_induct (I := fun σ => Coherent p σ ∧ Measured σ) ?_ ?_ ?_ n).2
  · exact ⟨.empty p, .empty⟩
  · exact ⟨.initial p, .initial p⟩
  · exact fun σ h => ⟨h.1.step, h.2.step h.1.stacked p⟩

theorem Measured.complete (p : Plan S T E) : Measured (complete p) := by
  obtain ⟨n, hn⟩ := exists_stage_eq_complete p
  exact hn ▸ measured_stage p n

end Search

end TimedMachine
