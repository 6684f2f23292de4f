import TimedMachine.Explore.Search
import TimedMachine.Proofs.Run.Plan

/-!
# What a step of a search does

A step settles the innermost configuration or tries one of its moves. What a search knows only
grows by that, and its stack stays a list of different configurations. Both hold whatever the
search passes over, as long as it passes over what is on its stack.
-/

namespace TimedMachine

namespace Search

variable {S T E : Nat} {p : Plan S T E} {σ τ : Search S T E}
  {skip : Search S T E → Configuration S T E → Bool}

theorem hasSeen_iff {c : Configuration S T E} :
    σ.hasSeen c = true ↔ c ∈ σ.onStack ∨ c ∈ σ.settled := by
  simp [hasSeen]

/-! ## Cases -/

/-- A visit enters a state, and pushes the configuration unless there is none or it is passed
over. -/
theorem visit_cases (skip : Search S T E → Configuration S T E → Bool) (p : Plan S T E)
    (σ : Search S T E) (c? : Option (Configuration S T E)) (trail : Trail (Fin S)) :
    (σ.visit skip p c? trail = σ.enter trail.last ∧ ∀ c, c? = some c → skip σ c = true) ∨
    ∃ c, c? = some c ∧ skip σ c = false ∧
      σ.visit skip p c? trail = (σ.enter trail.last).push p c trail := by
  cases c? with
  | none => exact .inl ⟨rfl, by simp⟩
  | some c =>
    cases hskip : skip σ c with
    | true => exact .inl ⟨by simp [visit, hskip], by simpa using hskip⟩
    | false => exact .inr ⟨c, rfl, hskip, by simp [visit, hskip]⟩

theorem step_nil (h : σ.stack = []) : σ.step skip p = σ := by
  simp [step, h]

theorem step_settle {c : Configuration S T E} {trail : Trail (Fin S)} {below : List (Frame S T E)}
    (h : σ.stack = ⟨c, trail, []⟩ :: below) : σ.step skip p = σ.settle c below := by
  simp [step, h]

theorem step_visit {c : Configuration S T E} {trail : Trail (Fin S)} {mv : Move S E}
    {ahead : List (Move S E)} {below : List (Frame S T E)}
    (h : σ.stack = ⟨c, trail, mv :: ahead⟩ :: below) :
    σ.step skip p = (σ.restack (⟨c, trail, ahead⟩ :: below)).visit skip p
      (p.enter? c mv.target mv.event) (.step trail mv.label mv.target) := by
  simp [step, h]

/-- Trying a move enters its target, and pushes the configuration there unless there is none or it
is passed over. -/
theorem step_visit_cases (skip : Search S T E → Configuration S T E → Bool) (p : Plan S T E)
    {c : Configuration S T E} {trail : Trail (Fin S)} {mv : Move S E} {ahead : List (Move S E)}
    {below : List (Frame S T E)} (h : σ.stack = ⟨c, trail, mv :: ahead⟩ :: below) :
    (σ.step skip p = (σ.restack (⟨c, trail, ahead⟩ :: below)).enter mv.target ∧
      ∀ d, p.enter? c mv.target mv.event = some d →
        skip (σ.restack (⟨c, trail, ahead⟩ :: below)) d = true) ∨
    ∃ d, p.enter? c mv.target mv.event = some d ∧
      skip (σ.restack (⟨c, trail, ahead⟩ :: below)) d = false ∧
      σ.step skip p = ((σ.restack (⟨c, trail, ahead⟩ :: below)).enter mv.target).push p d
        (.step trail mv.label mv.target) := by
  rw [step_visit h]
  exact visit_cases skip p _ _ _

theorem run_nil (h : σ.stack = []) : σ.run p = σ := by
  rw [run, dif_pos h]

theorem run_step (h : σ.stack ≠ []) : σ.run p = (σ.step hasSeen p).run p := by
  rw [run, dif_neg h]

/-- What each step preserves holds when the search is complete, and the stack is empty then. -/
theorem run_induct {I : Search S T E → Prop} (hstep : ∀ σ, I σ → I (σ.step hasSeen p))
    (h : I σ) : I (σ.run p) ∧ (σ.run p).stack = [] := by
  induction σ using run.induct p with
  | case1 σ hs =>
    rw [run_nil hs]
    exact ⟨h, hs⟩
  | case2 σ hs ih =>
    rw [run_step hs]
    exact ih (hstep σ h)

/-! ## Knowledge grows -/

/-- `τ` knows all that `σ` knows. -/
structure Extends (σ τ : Search S T E) : Prop where
  entered : ∀ s, s ∈ σ.entered → s ∈ τ.entered
  seen : ∀ c, σ.hasSeen c = true → τ.hasSeen c = true
  enabledIn : ∀ s : Fin S, ∀ e, e ∈ σ.enabledIn.get s → e ∈ τ.enabledIn.get s
  runningIn : ∀ s : Fin S, ∀ t, t ∈ σ.runningIn.get s → t ∈ τ.runningIn.get s
  reported : ∀ pr, pr ∈ σ.reported → pr ∈ τ.reported

/-- A move has been tried: its target was entered, and the configuration there was seen. -/
structure Tried (p : Plan S T E) (σ : Search S T E) (c : Configuration S T E) (s : Fin S)
    (event : Option (Fin E)) : Prop where
  entered : s ∈ σ.entered
  seen : ∀ d, p.enter? c s event = some d → σ.hasSeen d = true

/-- What there is to say about a configuration has been noted. -/
structure Noted (p : Plan S T E) (σ : Search S T E) (c : Configuration S T E) : Prop where
  enabled : ∀ e, e ∈ p.enabled c → e ∈ σ.enabledIn.get c.state
  running : ∀ t, t ∈ c.running → t ∈ σ.runningIn.get c.state
  reported : ∀ pr ∈ p.problems c, pr ∈ σ.reported

theorem Extends.refl (σ : Search S T E) : σ.Extends σ where
  entered _ h := h
  seen _ h := h
  enabledIn _ _ h := h
  runningIn _ _ h := h
  reported _ h := h

theorem Extends.trans {ρ : Search S T E} (h : σ.Extends τ) (h' : τ.Extends ρ) : σ.Extends ρ where
  entered s hs := h'.entered s (h.entered s hs)
  seen c hc := h'.seen c (h.seen c hc)
  enabledIn s e he := h'.enabledIn s e (h.enabledIn s e he)
  runningIn s t ht := h'.runningIn s t (h.runningIn s t ht)
  reported pr hpr := h'.reported pr (h.reported pr hpr)

theorem Tried.mono {c : Configuration S T E} {s : Fin S} {event : Option (Fin E)}
    (h : Tried p σ c s event) (hx : σ.Extends τ) : Tried p τ c s event where
  entered := hx.entered s h.entered
  seen d hd := hx.seen d (h.seen d hd)

theorem Noted.mono {c : Configuration S T E} (h : Noted p σ c) (hx : σ.Extends τ) :
    Noted p τ c where
  enabled e he := hx.enabledIn _ e (h.enabled e he)
  running t ht := hx.runningIn _ t (h.running t ht)
  reported pr hpr := hx.reported pr (h.reported pr hpr)

theorem enter_extends (σ : Search S T E) (s : Fin S) : σ.Extends (σ.enter s) where
  entered _ h := Mask.mem_insert.mpr (.inl h)
  seen _ h := h
  enabledIn _ _ h := h
  runningIn _ _ h := h
  reported _ h := h

/-- What a search knows is not on its stack. -/
theorem restack_extends (σ : Search S T E) (stack : List (Frame S T E)) :
    σ.Extends (σ.restack stack) where
  entered _ h := h
  seen _ h := h
  enabledIn _ _ h := h
  runningIn _ _ h := h
  reported _ h := h

/-- A search that settles a configuration on its stack forgets nothing. -/
theorem settle_extends (σ : Search S T E) (c : Configuration S T E) (below : List (Frame S T E)) :
    σ.Extends (σ.settle c below) where
  entered _ h := h
  seen d h := by
    rw [hasSeen_iff] at h ⊢
    by_cases hcd : c = d
    · exact .inr (by simp [settle, hcd])
    · exact h.imp (by simp [settle, hcd]) (by simp +contextual [settle])
  enabledIn _ _ h := h
  runningIn _ _ h := h
  reported _ h := h

/-- Settling a configuration that is on the stack leaves it seen, and nothing else. -/
theorem hasSeen_settle_iff {c d : Configuration S T E} (hc : c ∈ σ.onStack)
    (below : List (Frame S T E)) :
    (σ.settle c below).hasSeen d = true ↔ σ.hasSeen d = true := by
  constructor
  · intro hd
    rw [hasSeen_iff] at hd ⊢
    rcases hd with hd | hd
    · exact .inl (Std.TreeSet.mem_erase.mp hd).2
    · rcases Std.TreeSet.mem_insert.mp hd with heq | hd
      · obtain rfl := Std.compare_eq_iff_eq.mp heq
        exact .inl hc
      · exact .inr hd
  · exact (settle_extends σ c below).seen d

/-! ## Pushing -/

/-- The set at one position gets more members, the others stay as they are. -/
theorem get_addAt {n k : Nat} {sets : Vector (Mask k) n} {i i' : Fin n} {more : Mask k} :
    (addAt sets i more).get i' = if i = i' then (sets.get i).union more else sets.get i' := by
  rw [addAt, Plan.get_set]

theorem mem_addAt {n k : Nat} {sets : Vector (Mask k) n} {i i' : Fin n} {more : Mask k}
    {j : Fin k} :
    j ∈ (addAt sets i more).get i' ↔ j ∈ sets.get i' ∨ (i = i' ∧ j ∈ more) := by
  rw [get_addAt]
  by_cases h : i = i'
  · subst h
    simp
  · simp [h]

section Push

variable (p) (σ) (c : Configuration S T E) (trail : Trail (Fin S))

theorem mem_onStack_push {d : Configuration S T E} :
    d ∈ (σ.push p c trail).onStack ↔ d = c ∨ d ∈ σ.onStack := by
  simp only [push, Std.TreeSet.mem_insert, Std.compare_eq_iff_eq, @eq_comm _ d c]

theorem mem_reported_push {pr : Problem S T E} :
    pr ∈ (σ.push p c trail).reported ↔ pr ∈ σ.reported ∨ pr ∈ p.problems c := by
  by_cases h : pr ∈ σ.reported <;> simp [push, h]

theorem mem_enabledIn_push {s : Fin S} {e : Fin E} :
    e ∈ (σ.push p c trail).enabledIn.get s ↔
      e ∈ σ.enabledIn.get s ∨ (c.state = s ∧ e ∈ p.enabled c) :=
  mem_addAt

theorem mem_runningIn_push {s : Fin S} {t : Fin T} :
    t ∈ (σ.push p c trail).runningIn.get s ↔
      t ∈ σ.runningIn.get s ∨ (c.state = s ∧ t ∈ c.running) :=
  mem_addAt

theorem push_extends : σ.Extends (σ.push p c trail) where
  entered _ h := h
  seen d h := by simp [hasSeen_push, h]
  enabledIn _ _ h := (mem_enabledIn_push p σ c trail).mpr (.inl h)
  runningIn _ _ h := (mem_runningIn_push p σ c trail).mpr (.inl h)
  reported _ h := (mem_reported_push p σ c trail).mpr (.inl h)

theorem push_noted : Noted p (σ.push p c trail) c where
  enabled _ h := (mem_enabledIn_push p σ c trail).mpr (.inr ⟨rfl, h⟩)
  running _ h := (mem_runningIn_push p σ c trail).mpr (.inr ⟨rfl, h⟩)
  reported _ h := (mem_reported_push p σ c trail).mpr (.inr h)

end Push

/-- A search forgets nothing by a visit. -/
theorem visit_extends (skip : Search S T E → Configuration S T E → Bool) (p : Plan S T E)
    (σ : Search S T E) (c? : Option (Configuration S T E)) (trail : Trail (Fin S)) :
    σ.Extends (σ.visit skip p c? trail) := by
  rcases visit_cases skip p σ c? trail with ⟨hv, _⟩ | ⟨c, _, _, hv⟩
  · rw [hv]
    exact enter_extends σ _
  · rw [hv]
    exact (enter_extends σ _).trans (push_extends p _ c trail)

/-- A search forgets nothing by a step. -/
theorem step_extends (skip : Search S T E → Configuration S T E → Bool) (p : Plan S T E)
    (σ : Search S T E) : σ.Extends (σ.step skip p) := by
  match hs : σ.stack with
  | [] =>
    rw [step_nil hs]
    exact .refl σ
  | ⟨c, trail, []⟩ :: below =>
    rw [step_settle hs]
    exact settle_extends σ c below
  | ⟨c, trail, mv :: ahead⟩ :: below =>
    rw [step_visit hs]
    exact (restack_extends σ _).trans (visit_extends skip p _ _ _)

/-- After a visit, the state was entered and its configuration has been seen. -/
theorem visit_tried (σ : Search S T E) {c : Configuration S T E} {s : Fin S}
    {event : Option (Fin E)} (trail : Trail (Fin S)) (hs : trail.last = s) :
    Tried p (σ.visit hasSeen p (p.enter? c s event) trail) c s event := by
  subst hs
  rcases visit_cases hasSeen p σ (p.enter? c trail.last event) trail with
    ⟨hv, hseen⟩ | ⟨d, hd, _, hv⟩
  · rw [hv]
    exact ⟨Mask.mem_insert.mpr (.inr rfl), hseen⟩
  · rw [hv]
    refine ⟨Mask.mem_insert.mpr (.inr rfl), fun d' hd' => ?_⟩
    obtain rfl : d = d' := Option.some.inj (hd.symm.trans hd')
    simp [hasSeen_push]

/-! ## The stack -/

/-- The stack holds each of its configurations once, and `onStack` is the set of them. -/
structure Stacked (σ : Search S T E) : Prop where
  mem_onStack : ∀ c, c ∈ σ.onStack ↔ c ∈ σ.stack.map Frame.config
  nodup : (σ.stack.map Frame.config).Nodup

namespace Stacked

theorem push (h : σ.Stacked) {c : Configuration S T E} (hc : c ∉ σ.onStack)
    (trail : Trail (Fin S)) : (σ.push p c trail).Stacked where
  mem_onStack d := by
    rw [mem_onStack_push, h.mem_onStack]
    simp [Search.push]
  nodup := List.nodup_cons.mpr ⟨mt (h.mem_onStack c).mpr hc, h.nodup⟩

theorem settle (h : σ.Stacked) {f : Frame S T E} {below : List (Frame S T E)}
    (hs : σ.stack = f :: below) : (σ.settle f.config below).Stacked := by
  have hnodup := h.nodup
  rw [hs, List.map_cons, List.nodup_cons] at hnodup
  refine ⟨fun c => ?_, hnodup.2⟩
  have hmem : c ∈ σ.onStack ↔ c = f.config ∨ c ∈ below.map Frame.config := by
    rw [h.mem_onStack, hs, List.map_cons, List.mem_cons]
  simp only [Search.settle, Std.TreeSet.mem_erase, hmem, ne_eq, Std.compare_eq_iff_eq]
  constructor
  · rintro ⟨hne, rfl | hc⟩
    · exact absurd rfl hne
    · exact hc
  · intro hc
    exact ⟨fun heq => hnodup.1 (heq ▸ hc), .inr hc⟩

/-- The order of the stack is in its configurations only. -/
theorem restack (h : σ.Stacked) (stack : List (Frame S T E))
    (hs : σ.stack.map Frame.config = stack.map Frame.config) : (σ.restack stack).Stacked where
  mem_onStack c := hs ▸ h.mem_onStack c
  nodup := hs ▸ h.nodup

/-- A visit keeps the stack in order if it passes over what is on it. -/
theorem visit (h : σ.Stacked) (hskip : ∀ σ : Search S T E, ∀ c ∈ σ.onStack, skip σ c = true)
    (p : Plan S T E) (c? : Option (Configuration S T E)) (trail : Trail (Fin S)) :
    (σ.visit skip p c? trail).Stacked := by
  have henter : (σ.enter trail.last).Stacked := ⟨h.mem_onStack, h.nodup⟩
  rcases visit_cases skip p σ c? trail with ⟨hv, _⟩ | ⟨c, _, hc, hv⟩
  · rw [hv]
    exact henter
  · rw [hv]
    refine henter.push (fun hmem => ?_) trail
    rw [hskip σ c hmem] at hc
    cases hc

end Stacked

end Search

end TimedMachine
