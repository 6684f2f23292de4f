import TimedMachine.Proofs.Search.Step

/-!
# Searches miss nothing

A search passes over what it has seen, and this is safe for one reason: whatever it has seen has
been noted, and each move out of it has been tried already or is still ahead on the stack. So once
the stack is empty, all moves of all settled configurations have been tried, and every run stays
among the settled configurations.
-/

namespace TimedMachine

namespace Search

variable {S T E : Nat} {p : Plan S T E} {σ τ : Search S T E}

/-- Everything seen has been noted, and no move has been lost: each one of a settled configuration
has been tried, each one of a configuration on the stack has been tried or is ahead. -/
structure Coherent (p : Plan S T E) (σ : Search S T E) : Prop where
  stacked : σ.Stacked
  settled : ∀ c ∈ σ.settled, ∀ mv ∈ p.moves c, Tried p σ c mv.target mv.event
  onStack : ∀ f ∈ σ.stack, ∀ mv ∈ p.moves f.config,
    mv ∈ f.ahead ∨ Tried p σ f.config mv.target mv.event
  noted : ∀ c, σ.hasSeen c = true → Noted p σ c

theorem onStack_imp_hasSeen (σ : Search S T E) (c : Configuration S T E) (h : c ∈ σ.onStack) :
    σ.hasSeen c = true :=
  hasSeen_iff.mpr (.inl h)

namespace Coherent

/-- A search that knows more loses nothing if it keeps its promises about what is new. -/
theorem of_extends (h : Coherent p σ) (hx : σ.Extends τ) (hstacked : τ.Stacked)
    (hsettled : ∀ c ∈ τ.settled, c ∈ σ.settled ∨
      ∀ mv ∈ p.moves c, Tried p τ c mv.target mv.event)
    (honStack : ∀ f ∈ τ.stack, ∀ mv ∈ p.moves f.config,
      mv ∈ f.ahead ∨ Tried p τ f.config mv.target mv.event)
    (hseen : ∀ c, τ.hasSeen c = true → σ.hasSeen c = true ∨ Noted p τ c) : Coherent p τ where
  stacked := hstacked
  settled c hc := by
    rcases hsettled c hc with hc | hmoves
    · exact fun mv hmv => (h.settled c hc mv hmv).mono hx
    · exact hmoves
  onStack := honStack
  noted c hc := by
    rcases hseen c hc with hc | hnoted
    · exact (h.noted c hc).mono hx
    · exact hnoted

/-- A visit loses nothing, on a stack whose moves are ahead or have been tried after it. -/
theorem visit (h : Coherent p σ) (stack : List (Frame S T E))
    (hs : σ.stack.map Frame.config = stack.map Frame.config) (c? : Option (Configuration S T E))
    (trail : Trail (Fin S))
    (hold : ∀ f ∈ stack, ∀ mv ∈ p.moves f.config, mv ∈ f.ahead ∨
      Tried p ((σ.restack stack).visit hasSeen p c? trail) f.config mv.target mv.event) :
    Coherent p ((σ.restack stack).visit hasSeen p c? trail) := by
  have hstacked := (h.stacked.restack stack hs).visit onStack_imp_hasSeen p c? trail
  have hx := (restack_extends σ stack).trans (visit_extends hasSeen p _ c? trail)
  rcases visit_cases hasSeen p (σ.restack stack) c? trail with ⟨hv, _⟩ | ⟨c, _, _, hv⟩
  · rw [hv] at hstacked hx hold ⊢
    exact h.of_extends hx hstacked (fun _ hc => .inl hc) hold (fun _ hc => .inl hc)
  · rw [hv] at hstacked hx hold ⊢
    refine h.of_extends hx hstacked (fun _ hc => .inl hc) ?_ ?_
    · intro f hf mv hmv
      -- all moves of the configuration that is pushed are ahead
      rcases List.mem_cons.mp hf with rfl | hf
      · exact .inl hmv
      · exact hold f hf mv hmv
    · intro d hd
      rw [hasSeen_push, Bool.or_eq_true, beq_iff_eq] at hd
      rcases hd with rfl | hd
      · exact .inr (push_noted p _ _ _)
      · exact .inl hd

/-- The next move of the innermost configuration is tried, and so no longer ahead. -/
theorem tryNext (h : Coherent p σ) {c : Configuration S T E} {trail : Trail (Fin S)}
    {mv : Move S E} {ahead : List (Move S E)} {below : List (Frame S T E)}
    (hs : σ.stack = ⟨c, trail, mv :: ahead⟩ :: below) : Coherent p (σ.step hasSeen p) := by
  have hx := step_extends hasSeen p σ
  rw [step_visit hs] at hx ⊢
  refine h.visit _ (by simp [hs]) _ _ ?_
  intro f hf mv' hmv'
  rcases List.mem_cons.mp hf with rfl | hf
  · -- of the innermost configuration only `mv` is not ahead any more
    rcases h.onStack ⟨c, trail, mv :: ahead⟩ (hs ▸ List.mem_cons_self) mv' hmv' with hahead | ht
    · rcases List.mem_cons.mp hahead with rfl | hahead
      · exact .inr (visit_tried _ _ rfl)
      · exact .inl hahead
    · exact .inr (ht.mono hx)
  · exact (h.onStack f (hs ▸ List.mem_cons_of_mem _ hf) mv' hmv').imp_right (·.mono hx)

/-- The innermost configuration is settled when none of its moves is ahead. -/
theorem settle (h : Coherent p σ) {c : Configuration S T E} {trail : Trail (Fin S)}
    {below : List (Frame S T E)} (hs : σ.stack = ⟨c, trail, []⟩ :: below) :
    Coherent p (σ.settle c below) := by
  have hx := settle_extends σ c below
  refine h.of_extends hx (h.stacked.settle hs) ?_ ?_ ?_
  · -- no move of the configuration was ahead, so all have been tried
    intro c' hc'
    rcases Std.TreeSet.mem_insert.mp hc' with heq | hc'
    · obtain rfl := Std.compare_eq_iff_eq.mp heq
      refine .inr fun mv hmv => ?_
      have hmoves := h.onStack ⟨c, trail, []⟩ (hs ▸ List.mem_cons_self) mv hmv
      exact (hmoves.resolve_left List.not_mem_nil).mono hx
    · exact .inl hc'
  · intro f hf mv hmv
    exact (h.onStack f (hs ▸ List.mem_cons_of_mem _ hf) mv hmv).imp_right (·.mono hx)
  · have hc : c ∈ σ.onStack := (h.stacked.mem_onStack c).mpr (by simp [hs])
    exact fun c' hc' => .inl ((hasSeen_settle_iff hc below).mp hc')

/-- A step loses nothing. -/
theorem step (h : Coherent p σ) : Coherent p (σ.step hasSeen p) := by
  match hs : σ.stack with
  | [] =>
    rw [step_nil hs]
    exact h
  | ⟨c, trail, []⟩ :: below =>
    rw [step_settle hs]
    exact h.settle hs
  | ⟨c, trail, mv :: ahead⟩ :: below => exact h.tryNext hs

theorem empty (p : Plan S T E) : Coherent p Search.empty where
  stacked := ⟨by simp [Search.empty], by simp [Search.empty]⟩
  settled := by simp [Search.empty]
  onStack := by simp [Search.empty]
  noted := by simp [hasSeen, Search.empty]

/-- Nothing is lost at the start. -/
theorem initial (p : Plan S T E) : Coherent p (Search.start hasSeen p) := by
  unfold Search.start
  split
  · exact empty p
  · next s _ =>
    exact (empty p).visit [] rfl (p.enter? (p.before s) s none) (.start s) (by simp)

/-- Nothing is lost in a whole search, and nothing is left on its stack. -/
theorem complete (p : Plan S T E) :
    Coherent p (Search.complete p) ∧ (Search.complete p).stack = [] :=
  run_induct (fun _ h => h.step) (initial p)

end Coherent

/-- A search tries the start first, and never forgets it. -/
theorem tried_start {s : Fin S} (h : p.start = some s) :
    Tried p (complete p) (p.before s) s none := by
  have hstart : Tried p (start hasSeen p) (p.before s) s none := by
    rw [start, h]
    exact visit_tried empty (.start s) rfl
  exact (run_induct (I := fun σ => Tried p σ (p.before s) s none)
    (fun σ hσ => hσ.mono (step_extends hasSeen p σ)) hstart).1

end Search

end TimedMachine
