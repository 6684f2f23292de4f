import TimedMachine.Explore.Report
import TimedMachine.Proofs.Search.Progress
import Mathlib.Data.List.Chain

/-!
# What holds at each stage of a search

The cursor of a frame stands between the moves of its configuration that have been tried and those
that are ahead. From stage to stage the innermost cursor goes one move on, and what that move leads
to is entered, and is pushed unless it has been seen. So at each stage the frames lie on one another
in the order of one run: each came about by the move just before the cursor of the one below
(`Search.CameFrom`). A configuration is settled when its cursor is at the end, and what its moves
lead to has been seen by then, so it is settled or still on the stack. This is all put together in
`Search.Orderly`.

What a search has found out is never taken back (`Machine.Keeps`).
-/

namespace TimedMachine

namespace Search

variable {S T E : Nat} {p : Plan S T E} {σ τ : Search S T E} {f : Frame S T E}

/-! ## Cursors -/

/-- The moves before the cursor of a frame have been tried. -/
def Moved (p : Plan S T E) (σ : Search S T E) (f : Frame S T E) : Prop :=
  ∃ tried, p.moves f.config = tried ++ f.ahead ∧
    ∀ mv ∈ tried, Tried p σ f.config mv.target mv.event

/-- The move just before the cursor of the lower frame gives the configuration of the upper one. -/
def CameFrom (p : Plan S T E) (upper lower : Frame S T E) : Prop :=
  ∃ tried mv, p.moves lower.config = tried ++ mv :: lower.ahead ∧
    p.enter? lower.config mv.target mv.event = some upper.config

/-- A frame is pushed with its cursor before all moves. -/
theorem moved_push (p : Plan S T E) (σ : Search S T E) (c : Configuration S T E)
    (trail : Trail (Fin S)) : Moved p σ ⟨c, trail, p.moves c⟩ :=
  ⟨[], rfl, by simp⟩

theorem Moved.mono (h : Moved p σ f) (hx : σ.Extends τ) : Moved p τ f := by
  obtain ⟨tried, hmoves, htried⟩ := h
  exact ⟨tried, hmoves, fun mv hmv => (htried mv hmv).mono hx⟩

/-- When the next move has been tried, the cursor goes behind it. -/
theorem Moved.next {c : Configuration S T E} {trail : Trail (Fin S)} {mv : Move S E}
    {ahead : List (Move S E)} (h : Moved p σ ⟨c, trail, mv :: ahead⟩)
    (hmv : Tried p σ c mv.target mv.event) : Moved p σ ⟨c, trail, ahead⟩ := by
  obtain ⟨tried, hmoves, htried⟩ := h
  refine ⟨tried ++ [mv], by rw [List.append_assoc]; exact hmoves, fun mv' hmv' => ?_⟩
  rcases List.mem_append.mp hmv' with hmv' | hmv'
  · exact htried mv' hmv'
  · obtain rfl := List.mem_singleton.mp hmv'
    exact hmv

/-- The cursors of the stack are right, and each frame came from the one below it. -/
structure Framed (p : Plan S T E) (σ : Search S T E) : Prop where
  moved : ∀ f ∈ σ.stack, Moved p σ f
  chained : σ.stack.IsChain (CameFrom p)

namespace Framed

/-- What is left when a frame is taken off. -/
theorem settle (h : Framed p σ) {below : List (Frame S T E)} (hs : σ.stack = f :: below) :
    Framed p (σ.settle f.config below) where
  moved g hg := (h.moved g (hs ▸ List.mem_cons_of_mem _ hg)).mono (settle_extends σ _ below)
  chained := (hs ▸ h.chained).tail

/-- The innermost cursor goes one move on, and the frame that may be pushed came from there. -/
theorem tryNext (h : Framed p σ) {c : Configuration S T E} {trail : Trail (Fin S)}
    {mv : Move S E} {ahead : List (Move S E)} {below : List (Frame S T E)}
    (hs : σ.stack = ⟨c, trail, mv :: ahead⟩ :: below) : Framed p (σ.step hasSeen p) := by
  have hx := step_extends hasSeen p σ
  have hinner := h.moved ⟨c, trail, mv :: ahead⟩ (hs ▸ List.mem_cons_self)
  have htried : Tried p (σ.step hasSeen p) c mv.target mv.event := by
    rw [step_visit hs]
    exact visit_tried _ _ rfl
  have hmoved : ∀ f ∈ ⟨c, trail, ahead⟩ :: below, Moved p (σ.step hasSeen p) f := by
    intro f hf
    rcases List.mem_cons.mp hf with rfl | hf
    · exact (hinner.mono hx).next htried
    · exact (h.moved f (hs ▸ List.mem_cons_of_mem _ hf)).mono hx
  -- where a frame came from does not depend on its own cursor
  have hchained : (⟨c, trail, ahead⟩ :: below).IsChain (CameFrom p) := by
    have hold := h.chained
    rw [hs, List.isChain_cons] at hold
    exact List.isChain_cons.mpr hold
  rcases step_visit_cases hasSeen p hs with ⟨hv, -⟩ | ⟨d, hd, -, hv⟩
  · rw [hv] at hmoved ⊢
    exact ⟨hmoved, hchained⟩
  · rw [hv] at hmoved ⊢
    obtain ⟨tried, hmoves, -⟩ := hinner
    refine ⟨fun f hf => ?_, .cons_cons ⟨tried, mv, hmoves, hd⟩ hchained⟩
    rcases List.mem_cons.mp hf with rfl | hf
    · exact moved_push p _ d _
    · exact hmoved f hf

theorem step (h : Framed p σ) : Framed p (σ.step hasSeen p) := by
  match hs : σ.stack with
  | [] =>
    rw [step_nil hs]
    exact h
  | ⟨c, trail, []⟩ :: below =>
    rw [step_settle hs]
    exact h.settle hs
  | ⟨c, trail, mv :: ahead⟩ :: below => exact h.tryNext hs

theorem empty (p : Plan S T E) : Framed p Search.empty where
  moved := by simp [Search.empty]
  chained := .nil

theorem initial (p : Plan S T E) : Framed p (start hasSeen p) := by
  unfold start
  split
  · exact empty p
  · next s _ =>
    rcases visit_cases hasSeen p Search.empty (p.enter? (p.before s) s none) (.start s) with
      ⟨hv, -⟩ | ⟨c, -, -, hv⟩
    · rw [hv]
      exact ⟨by simp [Search.enter, Search.empty], .nil⟩
    · rw [hv]
      refine ⟨fun f hf => ?_, .singleton _⟩
      obtain rfl := List.mem_singleton.mp hf
      exact moved_push p _ c _

end Framed

/-! ## Order on the stack and beside it -/

/-- A search is in order: its stack holds different configurations, `onStack` is the set of them and
nothing in it is settled; each configuration that a settled one can be followed by is settled or on
the stack; the move before a cursor has entered its target, which is final or gives a configuration
that is settled or on the stack; and each frame came about by the move just before the cursor of the
one below it. -/
structure Orderly (p : Plan S T E) (σ : Search S T E) : Prop where
  nodup : (σ.stack.map Frame.config).Nodup
  mem_onStack : ∀ c, c ∈ σ.onStack ↔ c ∈ σ.stack.map Frame.config
  apart : ∀ c ∈ σ.settled, c ∉ σ.onStack
  settled : ∀ c ∈ σ.settled, ∀ mv ∈ p.moves c, ∀ d, p.enter? c mv.target mv.event = some d →
    d ∈ σ.settled ∨ d ∈ σ.onStack
  tried : ∀ f ∈ σ.stack, ∃ tried, p.moves f.config = tried ++ f.ahead ∧ ∀ mv ∈ tried,
    mv.target ∈ σ.entered ∧ ((p.rows.get mv.target).body.isFinal = true ∨
      ∃ d, p.enter? f.config mv.target mv.event = some d ∧ (d ∈ σ.settled ∨ d ∈ σ.onStack))
  chained : σ.stack.IsChain (CameFrom p)

theorem mem_settled_or_mem_onStack {c : Configuration S T E} (h : σ.hasSeen c = true) :
    c ∈ σ.settled ∨ c ∈ σ.onStack :=
  (hasSeen_iff.mp h).symm

/-- A move that has been tried has entered a final state or has come to what has been seen. -/
theorem Tried.entry {c : Configuration S T E} {s : Fin S} {event : Option (Fin E)}
    (h : Tried p σ c s event) : (p.rows.get s).body.isFinal = true ∨
      ∃ d, p.enter? c s event = some d ∧ (d ∈ σ.settled ∨ d ∈ σ.onStack) := by
  by_cases hfinal : (p.rows.get s).body.isFinal = true
  · exact .inl hfinal
  · obtain ⟨d, hd⟩ : ∃ d, p.enter? c s event = some d := ⟨_, if_neg hfinal⟩
    exact .inr ⟨d, hd, mem_settled_or_mem_onStack (h.seen d hd)⟩

theorem Orderly.of_framed (hcoherent : Coherent p σ) (hmeasured : Measured σ) (h : Framed p σ) :
    Orderly p σ where
  nodup := hcoherent.stacked.nodup
  mem_onStack := hcoherent.stacked.mem_onStack
  apart c hc hon := hmeasured.apart c hon hc
  settled c hc mv hmv d hd :=
    mem_settled_or_mem_onStack ((hcoherent.settled c hc mv hmv).seen d hd)
  tried f hf := by
    obtain ⟨tried, hmoves, htried⟩ := h.moved f hf
    exact ⟨tried, hmoves, fun mv hmv => ⟨(htried mv hmv).entered, (htried mv hmv).entry⟩⟩
  chained := h.chained

theorem framed_stage (p : Plan S T E) : ∀ n, Framed p (stage p n) :=
  stage_induct (.empty p) (.initial p) fun _ h => h.step

theorem orderly_stage (p : Plan S T E) (n : Nat) : Orderly p (stage p n) :=
  .of_framed (coherent_stage p n) (measured_stage p n) (framed_stage p n)

/-! ## Nothing is taken back -/

/-- `τ` knows all that `σ` knows, and what it has found comes after what `σ` has. -/
structure Grows (σ τ : Search S T E) : Prop extends σ.Extends τ where
  found : σ.found <:+ τ.found

namespace Grows

theorem refl (σ : Search S T E) : Grows σ σ := ⟨.refl σ, List.suffix_refl _⟩

theorem trans {ρ : Search S T E} (h : Grows σ τ) (h' : Grows τ ρ) : Grows σ ρ where
  toExtends := h.toExtends.trans h'.toExtends
  found := h.found.trans h'.found

end Grows

theorem grows_visit (p : Plan S T E) (σ : Search S T E) (c? : Option (Configuration S T E))
    (trail : Trail (Fin S)) : Grows σ (σ.visit hasSeen p c? trail) := by
  refine ⟨visit_extends hasSeen p σ c? trail, ?_⟩
  rcases visit_cases hasSeen p σ c? trail with ⟨hv, -⟩ | ⟨c, -, -, hv⟩
  · rw [hv]
    exact List.suffix_refl _
  · rw [hv]
    exact List.suffix_append _ _

theorem grows_step (p : Plan S T E) (σ : Search S T E) : Grows σ (σ.step hasSeen p) := by
  match hs : σ.stack with
  | [] =>
    rw [step_nil hs]
    exact .refl σ
  | ⟨c, trail, []⟩ :: below =>
    rw [step_settle hs]
    exact ⟨settle_extends σ c below, List.suffix_refl _⟩
  | ⟨c, trail, mv :: ahead⟩ :: below =>
    have hrestack : Grows σ (σ.restack (⟨c, trail, ahead⟩ :: below)) :=
      ⟨restack_extends σ _, List.suffix_refl _⟩
    rw [step_visit hs]
    exact hrestack.trans (grows_visit p _ _ _)

theorem grows_stage_succ (p : Plan S T E) : ∀ n, Grows (stage p n) (stage p (n + 1))
  | 0 => by
    show Grows empty (start hasSeen p)
    unfold start
    split
    · exact .refl empty
    · exact grows_visit p empty _ _
  | n + 1 => grows_step p (stage p (n + 1))

/-- From a stage on, a search only grows. -/
theorem grows_stage (p : Plan S T E) (n k : Nat) : Grows (stage p n) (stage p (n + k)) := by
  induction k with
  | zero => exact .refl _
  | succ k ih => exact ih.trans (grows_stage_succ p (n + k))

end Search

/-! ## The search of a machine -/

namespace Machine

variable {m : Machine} {σ τ : m.Searches}

/-- What the search `σ` has to say about a machine, `τ` says too: which states are entered, which
edges can be taken, which problems have been reported, and the violations one after the other. -/
structure Keeps (m : Machine) (σ τ : m.Searches) : Prop where
  entered : ∀ s, s ∈ σ.entered → s ∈ τ.entered
  usable : ∀ s e, m.isUsable σ s e = true → m.isUsable τ s e = true
  reported : ∀ pr ∈ σ.reported, pr ∈ τ.reported
  violations : m.foundViolations σ <+: m.foundViolations τ

theorem isUsable_mono (h : σ.Extends τ) {s : Fin m.states.length} {e : Edge}
    (he : m.isUsable σ s e = true) : m.isUsable τ s e = true := by
  unfold isUsable at he ⊢
  split at he <;> rw [Option.any_eq_true] at he ⊢ <;> obtain ⟨i, hi, hmem⟩ := he
  · exact ⟨i, hi, decide_eq_true (h.enabledIn s i (of_decide_eq_true hmem))⟩
  · exact ⟨i, hi, decide_eq_true (h.runningIn s i (of_decide_eq_true hmem))⟩

theorem keeps_of_grows (h : Search.Grows σ τ) : m.Keeps σ τ where
  entered := h.entered
  usable _ _ := isUsable_mono h.toExtends
  reported := h.reported
  violations := (List.reverse_prefix.mpr h.found).map _

/-- The search of a machine is in order at each stage on its way, and what it says at one of them it
keeps saying; at some stage it is complete. -/
theorem search_orderly_throughout (m : Machine) :
    (∀ n, (Search.stage m.plan n).Orderly m.plan) ∧
    (∀ n k, m.Keeps (Search.stage m.plan n) (Search.stage m.plan (n + k))) ∧
    ∃ n, Search.stage m.plan n = Search.complete m.plan :=
  ⟨Search.orderly_stage m.plan, fun n k => keeps_of_grows (Search.grows_stage m.plan n k),
    Search.exists_stage_eq_complete m.plan⟩

end Machine

end TimedMachine
