import TimedMachine.Proofs.Report.Paths
import TimedMachine.Proofs.Search.Plain
import TimedMachine.Proofs.Search.Progress

/-!
# Paths rebuilt from the stack

Each frame carries its trail, but the stack alone says how the run came to it: what led on from a
frame to the one above it is the move just before the frame's cursor, which was tried last. So when
a problem is reported, the path to it can be rebuilt frame by frame from the lowest one
(`Search.pathTo`).

This gives the same path as the trail, at every stage for the frames of the stack
(`Machine.trail_rebuilt`) and for each violation when it is found (`Machine.path_rebuilt`). When a
configuration is pushed, its trail goes on by the very move that the cursor below has just passed,
and that cursor stands still for as long as the new frame is above it (`Search.Rebuilt`). It does
not matter what the search passes over.
-/

namespace TimedMachine

variable {S T E : Nat} {p : Plan S T E} {name : Fin S → String}

namespace Frame

/-- How many moves of a frame have been tried. -/
def cursor (p : Plan S T E) (f : Frame S T E) : Nat := (p.moves f.config).length - f.ahead.length

/-- The move just before the cursor of a frame; none if no move has been tried. -/
def lastTried? (p : Plan S T E) (f : Frame S T E) : Option (Move S E) :=
  match f.cursor p with
  | 0 => none
  | n + 1 => (p.moves f.config)[n]?

/-- A frame as a path shows it: its state, and what leads on from there. -/
def hop (p : Plan S T E) (name : Fin S → String) (f : Frame S T E) : String :=
  match f.lastTried? p with
  | none => name f.config.state
  | some mv => name f.config.state ++ " " ++ mv.label.text

variable {f : Frame S T E} {tried : List (Move S E)} {mv : Move S E}

theorem lastTried?_of_moves (h : p.moves f.config = tried ++ mv :: f.ahead) :
    f.lastTried? p = some mv := by
  have hcursor : f.cursor p = tried.length + 1 := by
    rw [cursor, h, List.length_append, List.length_cons]
    omega
  rw [lastTried?, hcursor, h]
  simp

theorem hop_of_moves (h : p.moves f.config = tried ++ mv :: f.ahead) :
    f.hop p name = name f.config.state ++ " " ++ mv.label.text := by
  rw [hop, lastTried?_of_moves h]

end Frame

namespace Search

variable {σ τ : Search S T E} {skip : Search S T E → Configuration S T E → Bool}
  {trail : Trail (Fin S)} {stack below : List (Frame S T E)}

/-- The path that leads through the frames of a stack, from the lowest to the innermost, and on to
a state. -/
def pathTo (p : Plan S T E) (name : Fin S → String) (stack : List (Frame S T E)) (s : Fin S) :
    String :=
  " -> ".intercalate ((stack.map (Frame.hop p name)).reverse ++ [name s])

/-- What a trail goes through before its last state is what a stack shows. -/
def Spells (p : Plan S T E) (name : Fin S → String) (stack : List (Frame S T E))
    (trail : Trail (Fin S)) : Prop :=
  (trail.map name).hops = (stack.map (Frame.hop p name)).reverse

theorem Spells.text_eq (h : Spells p name stack trail) :
    (trail.map name).text = pathTo p name stack trail.last := by
  rw [Trail.text_eq_intercalate, h, Trail.last_map, pathTo]

/-- The move that was tried last takes a trail and the stack on to the same state. -/
theorem Spells.step {f : Frame S T E} {tried : List (Move S E)} {mv : Move S E}
    (h : Spells p name below f.trail) (hlast : f.trail.last = f.config.state)
    (hmoves : p.moves f.config = tried ++ mv :: f.ahead) :
    Spells p name (f :: below) (.step f.trail mv.label mv.target) := by
  have hhop : f.hop p name = (f.trail.map name).last ++ " " ++ mv.label.text := by
    rw [Frame.hop_of_moves hmoves, Trail.last_map, hlast]
  rw [Spells, List.map_cons, List.reverse_cons, hhop, ← h]
  rfl

/-- The cursors of the stack are in their places, and each frame's trail leads to its state as the
frames below it show. -/
structure Rebuilt (p : Plan S T E) (name : Fin S → String) (σ : Search S T E) : Prop where
  ahead : ∀ f ∈ σ.stack, f.ahead <:+ p.moves f.config
  last : ∀ f ∈ σ.stack, f.trail.last = f.config.state
  spells : ∀ f below, f :: below <:+ σ.stack → Spells p name below f.trail

namespace Rebuilt

/-- A frame's trail reads as the path to its state. -/
theorem text_eq (h : Rebuilt p name σ) {f : Frame S T E} (hf : f :: below <:+ σ.stack) :
    (f.trail.map name).text = pathTo p name below f.config.state := by
  rw [(h.spells f below hf).text_eq, h.last f (hf.mem List.mem_cons_self)]

theorem visit (h : Rebuilt p name σ) {c? : Option (Configuration S T E)}
    (hlast : ∀ c, c? = some c → trail.last = c.state) (hspells : Spells p name σ.stack trail) :
    Rebuilt p name (σ.visit skip p c? trail) := by
  rcases visit_cases skip p σ c? trail with ⟨hv, -⟩ | ⟨c, hc, -, hv⟩
  · rw [hv]
    exact ⟨h.ahead, h.last, h.spells⟩
  · rw [hv]
    refine ⟨?_, ?_, ?_⟩
    · exact List.forall_mem_cons.mpr ⟨List.suffix_refl _, h.ahead⟩
    · exact List.forall_mem_cons.mpr ⟨hlast c hc, h.last⟩
    · exact forall_suffix_cons.mpr ⟨hspells, h.spells⟩

theorem settle (h : Rebuilt p name σ) {f : Frame S T E} (hs : σ.stack = f :: below) :
    Rebuilt p name (σ.settle f.config below) where
  ahead := (List.forall_mem_cons.mp (hs ▸ h.ahead)).2
  last := (List.forall_mem_cons.mp (hs ▸ h.last)).2
  spells := (forall_suffix_cons.mp (hs ▸ h.spells)).2

/-- The innermost cursor goes one move on. No path goes through the innermost frame yet. -/
theorem restack (h : Rebuilt p name σ) {c : Configuration S T E} {mv : Move S E}
    {ahead : List (Move S E)} (hs : σ.stack = ⟨c, trail, mv :: ahead⟩ :: below) :
    Rebuilt p name (σ.restack (⟨c, trail, ahead⟩ :: below)) where
  ahead := by
    obtain ⟨htop, hbelow⟩ := List.forall_mem_cons.mp (hs ▸ h.ahead)
    exact List.forall_mem_cons.mpr ⟨(List.suffix_cons mv ahead).trans htop, hbelow⟩
  last := List.forall_mem_cons.mpr (List.forall_mem_cons.mp (hs ▸ h.last))
  spells := forall_suffix_cons.mpr (forall_suffix_cons.mp (hs ▸ h.spells))

/-- A step keeps the trails as the stack gives them: the one that may be new goes on by the move
that the cursor has just passed. -/
theorem step (h : Rebuilt p name σ) : Rebuilt p name (σ.step skip p) := by
  match hs : σ.stack with
  | [] =>
    rw [step_nil hs]
    exact h
  | ⟨c, trail, []⟩ :: below =>
    rw [step_settle hs]
    exact h.settle hs
  | ⟨c, trail, mv :: ahead⟩ :: below =>
    have hmem : ⟨c, trail, mv :: ahead⟩ ∈ σ.stack := hs ▸ List.mem_cons_self
    obtain ⟨tried, hmoves⟩ := h.ahead _ hmem
    have hbelow : Spells p name below trail :=
      h.spells ⟨c, trail, mv :: ahead⟩ below (hs ▸ List.suffix_refl _)
    have hspells : Spells p name (⟨c, trail, ahead⟩ :: below) (.step trail mv.label mv.target) :=
      Spells.step (f := ⟨c, trail, ahead⟩) hbelow (h.last ⟨c, trail, mv :: ahead⟩ hmem)
        hmoves.symm
    rw [step_visit hs]
    exact (h.restack hs).visit (fun d hd => (Plan.state_of_enter? hd).symm) hspells

theorem empty (p : Plan S T E) (name : Fin S → String) : Rebuilt p name Search.empty where
  ahead := by simp [Search.empty]
  last := by simp [Search.empty]
  spells := by simp [Search.empty]

theorem initial (p : Plan S T E) (name : Fin S → String)
    (skip : Search S T E → Configuration S T E → Bool) : Rebuilt p name (start skip p) := by
  unfold start
  split
  · exact empty p name
  · exact (empty p name).visit (fun c hc => (Plan.state_of_enter? hc).symm) rfl

end Rebuilt

/-- However many steps a search takes, its trails are those that the stack gives. -/
theorem rebuilt_iterate (p : Plan S T E) (name : Fin S → String)
    (skip : Search S T E → Configuration S T E → Bool) (n : Nat) :
    Rebuilt p name ((step skip p)^[n] (start skip p)) := by
  induction n with
  | zero => exact .initial p name skip
  | succ n ih =>
    rw [Function.iterate_succ_apply']
    exact ih.step

theorem stage_succ (p : Plan S T E) (n : Nat) :
    stage p (n + 1) = (step hasSeen p)^[n] (start hasSeen p) := by
  induction n with
  | zero => rfl
  | succ n ih =>
    rw [Function.iterate_succ_apply', ← ih]
    rfl

theorem rebuilt_stage (p : Plan S T E) (name : Fin S → String) : ∀ n, Rebuilt p name (stage p n)
  | 0 => .empty p name
  | n + 1 => stage_succ p n ▸ rebuilt_iterate p name hasSeen n

/-! ## Where problems are reported -/

/-- From `σ` to `τ` a problem is reported: a configuration that has the problem is pushed onto
`below`, and its trail is given with the problem. -/
def Reports (p : Plan S T E) (σ τ : Search S T E) (below : List (Frame S T E))
    (pr : Problem S T E) (trail : Trail (Fin S)) : Prop :=
  ∃ c, τ.stack = ⟨c, trail, p.moves c⟩ :: below ∧
    below.map Frame.config = σ.stack.map Frame.config ∧ pr ∈ p.problems c ∧ pr ∉ σ.reported

variable {pr : Problem S T E} {trail' : Trail (Fin S)}

/-- A problem is reported with the path that the frames below show. -/
theorem Reports.text_eq (h : Reports p σ τ below pr trail) (hτ : Rebuilt p name τ) :
    (trail.map name).text = pathTo p name below trail.last := by
  obtain ⟨c, hs, -⟩ := h
  exact (hτ.spells ⟨c, trail, p.moves c⟩ below (hs ▸ List.suffix_refl _)).text_eq

theorem reports_of_mem_found_visit (hs : stack.map Frame.config = σ.stack.map Frame.config)
    {c? : Option (Configuration S T E)}
    (hpr : (pr, trail') ∈ ((σ.restack stack).visit skip p c? trail).found) :
    (pr, trail') ∈ σ.found ∨
      Reports p σ ((σ.restack stack).visit skip p c? trail) stack pr trail' := by
  rcases visit_cases skip p (σ.restack stack) c? trail with ⟨hv, -⟩ | ⟨c, -, -, hv⟩
  · rw [hv] at hpr
    exact .inl hpr
  · rw [hv] at hpr ⊢
    rcases Sound.mem_found_push.mp hpr with ⟨rfl, hpr, hnew⟩ | hpr
    · exact .inr ⟨c, rfl, hs, hpr, hnew⟩
    · exact .inl hpr

/-- What a search has found after a step, it had found before or reports in the step. -/
theorem reports_of_mem_found_step (hpr : (pr, trail) ∈ (σ.step skip p).found) :
    (pr, trail) ∈ σ.found ∨ ∃ below, Reports p σ (σ.step skip p) below pr trail := by
  match hs : σ.stack with
  | [] =>
    rw [step_nil hs] at hpr
    exact .inl hpr
  | ⟨c, trail', []⟩ :: below =>
    rw [step_settle hs] at hpr
    exact .inl hpr
  | ⟨c, trail', mv :: ahead⟩ :: below =>
    rw [step_visit hs] at hpr ⊢
    exact (reports_of_mem_found_visit (by simp [hs]) hpr).imp_right fun h => ⟨_, h⟩

/-- What a search has found when it starts, it reports with nothing below. -/
theorem reports_of_mem_found_start (hpr : (pr, trail) ∈ (start skip p).found) :
    Reports p empty (start skip p) [] pr trail := by
  unfold start at hpr ⊢
  split at hpr
  · simp [empty] at hpr
  · exact (reports_of_mem_found_visit rfl hpr).resolve_left (by simp [empty])

/-- What a search has found after some steps, it reported when it started or in one of them. -/
theorem exists_reports_of_mem_found {n : Nat}
    (hpr : (pr, trail) ∈ ((step skip p)^[n] (start skip p)).found) :
    Reports p empty (start skip p) [] pr trail ∨
      ∃ k < n, ∃ below, Reports p ((step skip p)^[k] (start skip p))
        ((step skip p)^[k + 1] (start skip p)) below pr trail := by
  induction n with
  | zero => exact .inl (reports_of_mem_found_start hpr)
  | succ n ih =>
    have hlast := Function.iterate_succ_apply' (step skip p) n (start skip p)
    rw [hlast] at hpr
    rcases reports_of_mem_found_step hpr with hpr | ⟨below, hreports⟩
    · exact (ih hpr).imp_right fun ⟨k, hk, h⟩ => ⟨k, Nat.lt_succ_of_lt hk, h⟩
    · rw [← hlast] at hreports
      exact .inr ⟨n, Nat.lt_succ_self n, below, hreports⟩

/-- What a search has found at a stage, it reported on the way there. -/
theorem exists_reports_of_mem_found_stage {n : Nat} (hpr : (pr, trail) ∈ (stage p n).found) :
    ∃ k < n, ∃ below, Reports p (stage p k) (stage p (k + 1)) below pr trail := by
  cases n with
  | zero => simp [stage, empty] at hpr
  | succ n =>
    rw [stage_succ] at hpr
    rcases exists_reports_of_mem_found hpr with hreports | ⟨k, hk, below, hreports⟩
    · exact ⟨0, Nat.succ_pos n, [], hreports⟩
    · rw [← stage_succ, ← stage_succ] at hreports
      exact ⟨k + 1, Nat.succ_lt_succ hk, below, hreports⟩

/-- In a plain search too, what is found was reported with the path that its stack showed. -/
theorem exists_text_eq_of_plainSteps (name : Fin S → String)
    (h : PlainSteps p (start onPath p) σ) (hpr : (pr, trail) ∈ σ.found) :
    ∃ ρ τ below, PlainSteps p (start onPath p) τ ∧ Reports p ρ τ below pr trail ∧
      (trail.map name).text = pathTo p name below trail.last := by
  obtain ⟨n, rfl⟩ := h
  rcases exists_reports_of_mem_found hpr with hreports | ⟨k, -, below, hreports⟩
  · exact ⟨_, _, [], .refl p _, hreports, hreports.text_eq (.initial p name onPath)⟩
  · exact ⟨_, _, below, ⟨k + 1, rfl⟩, hreports,
      hreports.text_eq (rebuilt_iterate p name onPath (k + 1))⟩

end Search

namespace Machine

variable {m : Machine}

/-- At each stage of the search of a machine, the trail that a frame carries reads as the path
rebuilt from the frames below it. -/
theorem trail_rebuilt (m : Machine) (n : Nat)
    {f : Frame m.states.length m.timers.length m.events.length}
    {below : List (Frame m.states.length m.timers.length m.events.length)}
    (hf : f :: below <:+ (Search.stage m.plan n).stack) :
    (f.trail.map m.stateName).text = Search.pathTo m.plan m.stateName below f.config.state :=
  (Search.rebuilt_stage m.plan m.stateName n).text_eq hf

/-- The path of a violation reads as the one rebuilt from the stack at the stage at which the
violation was found. -/
theorem path_rebuilt {v : Violation} (hv : v ∈ m.explore.violations) {path : Trail String}
    (hpath : v.path? = some path) :
    ∃ n below pr trail, m.violation trail pr = v ∧
      Search.Reports m.plan (Search.stage m.plan n) (Search.stage m.plan (n + 1)) below pr trail ∧
      path.text = Search.pathTo m.plan m.stateName below trail.last := by
  obtain ⟨f, hf⟩ : ∃ f, v.fault? = some f := by
    cases v <;> simp [Violation.path?, Violation.fault?] at hpath ⊢
  obtain ⟨pr, trail, hfound, rfl, -⟩ := exists_found_of_fault? hv hf
  obtain ⟨n, hn⟩ := Search.exists_stage_eq_complete m.plan
  rw [← hn] at hfound
  obtain ⟨k, -, below, hreports⟩ := Search.exists_reports_of_mem_found_stage hfound
  obtain rfl := Option.some.inj ((path?_violation trail pr).symm.trans hpath)
  exact ⟨k, below, pr, trail, rfl, hreports,
    hreports.text_eq (Search.rebuilt_stage m.plan m.stateName (k + 1))⟩

end Machine

end TimedMachine
