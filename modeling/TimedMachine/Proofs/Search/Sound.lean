import TimedMachine.Proofs.Search.Step

/-!
# Searches make nothing up

Each configuration that a search comes to is one that a run comes to, by the trail that the search
keeps with it. So are the states, events and timers that it notes, and each problem that it reports
is one at the end of the trail that it reports it with. No problem is reported twice.
-/

namespace TimedMachine

namespace Search

variable {S T E : Nat} {p : Plan S T E} {σ : Search S T E}

/-- All that a search knows, it has from runs. -/
structure Sound (p : Plan S T E) (σ : Search S T E) : Prop where
  trail : ∀ f ∈ σ.stack, p.Run f.trail (some f.config)
  ahead : ∀ f ∈ σ.stack, ∀ mv ∈ f.ahead, mv ∈ p.moves f.config
  settled : ∀ c ∈ σ.settled, p.Reachable c
  entered : ∀ s, s ∈ σ.entered → p.Enters s
  enabledIn : ∀ s : Fin S, ∀ e, e ∈ σ.enabledIn.get s →
    ∃ c, p.Reachable c ∧ c.state = s ∧ e ∈ p.enabled c
  runningIn : ∀ s : Fin S, ∀ t, t ∈ σ.runningIn.get s →
    ∃ c, p.Reachable c ∧ c.state = s ∧ t ∈ c.running
  found : ∀ pr trail, (pr, trail) ∈ σ.found → ∃ c, p.Run trail (some c) ∧ pr ∈ p.problems c
  mem_reported : ∀ pr, pr ∈ σ.reported ↔ pr ∈ σ.found.map Prod.fst
  nodup : (σ.found.map Prod.fst).Nodup

namespace Sound

theorem enter (h : Sound p σ) {s : Fin S} (hs : p.Enters s) : Sound p (σ.enter s) :=
  { h with
    entered := fun s' hs' => by
      rcases Mask.mem_insert.mp hs' with hs' | rfl
      · exact h.entered s' hs'
      · exact hs }

/-- The problems that a push adds are new ones of its configuration. -/
theorem mem_found_push {c : Configuration S T E} {trail trail' : Trail (Fin S)}
    {pr : Problem S T E} : (pr, trail') ∈ (σ.push p c trail).found ↔
      (trail' = trail ∧ pr ∈ p.problems c ∧ pr ∉ σ.reported) ∨ (pr, trail') ∈ σ.found := by
  simp only [Search.push, List.mem_append, List.mem_reverse, List.mem_map, List.mem_filter,
    decide_eq_true_eq, Prod.mk.injEq]
  refine or_congr_left ⟨?_, ?_⟩
  · rintro ⟨pr, hpr, rfl, rfl⟩
    exact ⟨rfl, hpr⟩
  · rintro ⟨rfl, hpr⟩
    exact ⟨pr, hpr, rfl, rfl⟩

theorem nodup_found_push (hmem : ∀ pr, pr ∈ σ.reported ↔ pr ∈ σ.found.map Prod.fst)
    (hnodup : (σ.found.map Prod.fst).Nodup) (c : Configuration S T E) (trail : Trail (Fin S)) :
    ((σ.push p c trail).found.map Prod.fst).Nodup := by
  have hmap : (σ.push p c trail).found.map Prod.fst =
      ((p.problems c).filter (· ∉ σ.reported)).reverse ++ σ.found.map Prod.fst := by
    simp [Search.push, Function.comp_def]
  rw [hmap]
  refine List.nodup_append.mpr ⟨?_, hnodup, ?_⟩
  · exact List.nodup_reverse.mpr ((p.nodup_problems c).filter _)
  · rintro pr hpr _ hpr' rfl
    have hnew := (List.mem_filter.mp (List.mem_reverse.mp hpr)).2
    exact absurd ((hmem pr).mpr hpr') (by simpa using hnew)

theorem push (h : Sound p σ) {c : Configuration S T E} {trail : Trail (Fin S)}
    (hrun : p.Run trail (some c)) : Sound p (σ.push p c trail) where
  trail f hf := by
    rcases List.mem_cons.mp hf with rfl | hf
    · exact hrun
    · exact h.trail f hf
  ahead f hf := by
    rcases List.mem_cons.mp hf with rfl | hf
    · exact fun mv hmv => hmv
    · exact h.ahead f hf
  settled := h.settled
  entered := h.entered
  enabledIn s e he := by
    rcases (mem_enabledIn_push p σ c trail).mp he with he | ⟨hs, he⟩
    · exact h.enabledIn s e he
    · exact ⟨c, ⟨trail, hrun⟩, hs, he⟩
  runningIn s t ht := by
    rcases (mem_runningIn_push p σ c trail).mp ht with ht | ⟨hs, ht⟩
    · exact h.runningIn s t ht
    · exact ⟨c, ⟨trail, hrun⟩, hs, ht⟩
  found pr trail' hpr := by
    rcases mem_found_push.mp hpr with ⟨rfl, hpr, _⟩ | hpr
    · exact ⟨c, hrun, hpr⟩
    · exact h.found pr trail' hpr
  mem_reported pr := by
    rw [mem_reported_push, h.mem_reported]
    constructor
    · intro hpr
      -- a problem that has been reported stays with its trail, a new one gets the trail here
      by_cases hold : pr ∈ σ.found.map Prod.fst
      · obtain ⟨⟨_, trail'⟩, hfound, rfl⟩ := List.mem_map.mp hold
        exact List.mem_map.mpr ⟨_, mem_found_push.mpr (.inr hfound), rfl⟩
      · refine List.mem_map.mpr ⟨(pr, trail), mem_found_push.mpr (.inl ⟨rfl, ?_⟩), rfl⟩
        exact ⟨hpr.resolve_left hold, mt (h.mem_reported pr).mp hold⟩
    · intro hpr
      obtain ⟨⟨_, trail'⟩, hfound, rfl⟩ := List.mem_map.mp hpr
      rcases mem_found_push.mp hfound with ⟨_, hpr, _⟩ | hfound
      · exact .inr hpr
      · exact .inl (List.mem_map.mpr ⟨_, hfound, rfl⟩)
  nodup := nodup_found_push h.mem_reported h.nodup c trail

/-- A visit at the end of a run makes nothing up. -/
theorem visit (h : Sound p σ) {c? : Option (Configuration S T E)} {trail : Trail (Fin S)}
    (hrun : p.Run trail c?) (skip : Search S T E → Configuration S T E → Bool) :
    Sound p (σ.visit skip p c? trail) := by
  have henter := h.enter ⟨trail, c?, hrun, rfl⟩
  rcases visit_cases skip p σ c? trail with ⟨hv, _⟩ | ⟨c, rfl, _, hv⟩
  · rw [hv]
    exact henter
  · rw [hv]
    exact henter.push hrun

/-- A step makes nothing up. -/
theorem step (h : Sound p σ) (skip : Search S T E → Configuration S T E → Bool) :
    Sound p (σ.step skip p) := by
  match hs : σ.stack with
  | [] =>
    rw [step_nil hs]
    exact h
  | ⟨c, trail, []⟩ :: below =>
    rw [step_settle hs]
    refine { h with trail := fun f hf => ?_, ahead := fun f hf => ?_, settled := fun d hd => ?_ }
    · exact h.trail f (hs ▸ List.mem_cons_of_mem _ hf)
    · exact h.ahead f (hs ▸ List.mem_cons_of_mem _ hf)
    · rcases Std.TreeSet.mem_insert.mp hd with heq | hd
      · obtain rfl := Std.compare_eq_iff_eq.mp heq
        exact ⟨trail, h.trail ⟨c, trail, []⟩ (hs ▸ List.mem_cons_self)⟩
      · exact h.settled d hd
  | ⟨c, trail, mv :: ahead⟩ :: below =>
    rw [step_visit hs]
    have hin : ⟨c, trail, mv :: ahead⟩ ∈ σ.stack := hs ▸ List.mem_cons_self
    have hrun : p.Run trail (some c) := h.trail _ hin
    have hmoves : ∀ mv' ∈ mv :: ahead, mv' ∈ p.moves c := h.ahead _ hin
    refine Sound.visit ?_ (.step hrun (hmoves mv List.mem_cons_self)) skip
    refine { h with trail := fun f hf => ?_, ahead := fun f hf => ?_ }
    · rcases List.mem_cons.mp hf with rfl | hf
      · exact hrun
      · exact h.trail f (hs ▸ List.mem_cons_of_mem _ hf)
    · rcases List.mem_cons.mp hf with rfl | hf
      · exact fun mv' hmv' => hmoves mv' (List.mem_cons_of_mem _ hmv')
      · exact h.ahead f (hs ▸ List.mem_cons_of_mem _ hf)

theorem empty (p : Plan S T E) : Sound p Search.empty where
  trail := by simp [Search.empty]
  ahead := by simp [Search.empty]
  settled := by simp [Search.empty]
  entered := by simp [Search.empty]
  enabledIn s e he := by
    have hnone : (Search.empty : Search S T E).enabledIn.get s = .empty := Plan.get_replicate _ s
    rw [hnone] at he
    exact absurd he (Mask.not_mem_empty e)
  runningIn s t ht := by
    have hnone : (Search.empty : Search S T E).runningIn.get s = .empty := Plan.get_replicate _ s
    rw [hnone] at ht
    exact absurd ht (Mask.not_mem_empty t)
  found := by simp [Search.empty]
  mem_reported := by simp [Search.empty]
  nodup := by simp [Search.empty]

theorem initial (p : Plan S T E) (skip : Search S T E → Configuration S T E → Bool) :
    Sound p (Search.start skip p) := by
  unfold Search.start
  split
  · exact empty p
  · next s hs => exact (empty p).visit (.start hs) skip

/-- A whole search makes nothing up. -/
theorem complete (p : Plan S T E) : Sound p (Search.complete p) :=
  (run_induct (fun _ h => h.step hasSeen) (initial p hasSeen)).1

end Sound

end Search

end TimedMachine
