import TimedMachine.Checker
import TimedMachine.Proofs.Report.Verdicts

/-!
# Passes and their violations

All violations of a machine are listed pass by pass, and each pass finds violations of its own kinds
only. So a run of the enabled passes finds what a run of all passes finds, less the violations that
belong to passes that are not enabled (`Machine.runPasses_eq_filter`). A check of a token tree ends
accordingly (`Settings.checkToken_filters_validate`).
-/

namespace TimedMachine

namespace CallbackUse

theorem pass_of_conflict? {first second : CallbackUse} {v : Violation}
    (h : first.conflict? second = some v) : v.pass = .callbackNames := by
  unfold conflict? at h
  dsimp only at h
  split at h
  · cases h
    rfl
  · cases h
    rfl
  · split at h
    · cases h
    · cases h
      rfl
  · cases h

theorem pass_of_mem_conflicts {firsts us : List CallbackUse} {reported : List String}
    {v : Violation} (hv : v ∈ conflicts firsts reported us) : v.pass = .callbackNames := by
  induction us generalizing firsts reported with
  | nil => cases hv
  | cons u us ih =>
    rw [conflicts] at hv
    split at hv
    · exact ih hv
    · split at hv
      · exact ih hv
      · split at hv
        · exact ih hv
        · next conflict hconflict =>
          rcases List.mem_cons.mp hv with heq | hrest
          · rw [heq]
            exact pass_of_conflict? hconflict
          · exact ih hrest

end CallbackUse

namespace Machine

variable {m : Machine}

/-- What is reported about runs, and what a report closes with, is about paths. -/
theorem pass_of_mem_explore {v : Violation} (hv : v ∈ m.explore.violations) : v.pass = .paths := by
  rcases mem_violations_reportOf.mp hv with hfound | ⟨s, hclosing⟩
  · obtain ⟨⟨problem, trail⟩, _, rfl⟩ := List.mem_map.mp hfound
    cases problem <;> rfl
  · rcases mem_closingViolations.mp hclosing with ⟨_, rfl⟩ | ⟨e, _, _, rfl⟩ <;> rfl

/-- Each pass finds violations of its own only. -/
theorem pass_of_mem_violationsOf {p : Pass} {v : Violation} (hv : v ∈ m.violationsOf p) :
    v.pass = p := by
  cases p with
  | paths => exact pass_of_mem_explore hv
  | unusedTimers =>
    obtain ⟨t, _, rfl⟩ := List.mem_map.mp hv
    rfl
  | callbackNames => exact CallbackUse.pass_of_mem_conflicts hv

/-- The violations of a machine are those of all passes, in the order of the passes. -/
theorem validate_eq_flatMap (m : Machine) : m.validate = Pass.all.flatMap m.violationsOf := by
  simp [validate, Pass.all, violationsOf]

/-- A filter by passes keeps all that a pass finds, or nothing. -/
theorem filter_violationsOf (enabled : Pass → Bool) (p : Pass) :
    (m.violationsOf p).filter (fun v => enabled v.pass) =
      if enabled p then m.violationsOf p else [] := by
  have hpass : ∀ v ∈ m.violationsOf p, enabled v.pass = enabled p := by
    intro v hv
    rw [pass_of_mem_violationsOf hv]
  rw [List.filter_congr hpass]
  cases enabled p with
  | true => exact List.filter_true _
  | false => exact List.filter_false _

/-- The enabled passes find what all passes find, less what belongs to the others. -/
theorem runPasses_eq_filter (m : Machine) (checks : Checks) :
    m.runPasses checks = m.validate.filter fun v => checks.enables v.pass := by
  rw [validate_eq_flatMap, List.filter_flatMap]
  unfold runPasses
  congr 1
  funext p
  exact (filter_violationsOf checks.enables p).symm

end Machine

namespace Settings

variable {s : Settings} {t : Token} {m : Machine}

/-- A check ends with the machine if the tree loads and no enabled pass finds anything. -/
theorem checkToken_eq_ok_iff :
    s.checkToken t = .ok m ↔ Machine.ofToken t = .ok m ∧ m.runPasses s.checks = [] := by
  unfold checkToken
  cases Machine.ofToken t with
  | error e => simp
  | ok m' =>
    dsimp only
    split
    · next hnil =>
      constructor
      · intro h
        cases h
        exact ⟨rfl, hnil⟩
      · intro h
        cases h.1
        rfl
    · next hne =>
      constructor
      · intro h
        cases h
      · intro h
        cases h.1
        exact absurd h.2 hne

/-- A check ends with violations if the tree loads and the enabled passes find just these. -/
theorem checkToken_eq_invalid_iff {vs : List Violation} :
    s.checkToken t = .error (.invalid vs) ↔
      ∃ m, Machine.ofToken t = .ok m ∧ m.runPasses s.checks = vs ∧ vs ≠ [] := by
  unfold checkToken
  cases Machine.ofToken t with
  | error e => simp
  | ok m' =>
    dsimp only
    split
    · next hnil =>
      constructor
      · intro h
        cases h
      · intro h
        obtain ⟨m, hm, rfl, hne⟩ := h
        cases hm
        exact absurd hnil hne
    · next hne =>
      constructor
      · intro h
        cases h
        exact ⟨m', rfl, rfl, hne⟩
      · intro h
        obtain ⟨m, hm, rfl, _⟩ := h
        cases hm
        rfl

/-- The passes that are enabled fail a machine exactly if it has a violation that belongs to one of
them, and they then list all such violations, in the order in which all passes together list them.
A check of a tree ends with the machine that the tree loads as if the machine has no such violation.
It ends with violations only if there are some, and these are the ones that belong to enabled
passes; and it ends with a fault of the specification if loading does. -/
theorem checkToken_filters_validate (s : Settings) :
    (∀ m : Machine,
      (m.runPasses s.checks ≠ [] ↔ ∃ v ∈ m.validate, s.checks.enables v.pass) ∧
      m.runPasses s.checks = m.validate.filter fun v => s.checks.enables v.pass) ∧
    ∀ t : Token,
      (∀ m, s.checkToken t = .ok m ↔
        Machine.ofToken t = .ok m ∧ ∀ v ∈ m.validate, ¬s.checks.enables v.pass) ∧
      (∀ vs, s.checkToken t = .error (.invalid vs) ↔
        ∃ m, Machine.ofToken t = .ok m ∧
          vs = (m.validate.filter fun v => s.checks.enables v.pass) ∧ vs ≠ []) ∧
      ∀ e, s.checkToken t = .error (.load e) ↔ Machine.ofToken t = .error e := by
  refine ⟨fun m => ⟨?_, m.runPasses_eq_filter s.checks⟩, fun t => ⟨fun m => ?_, fun vs => ?_, ?_⟩⟩
  · rw [m.runPasses_eq_filter, Ne, List.filter_eq_nil_iff]
    simp
  · rw [checkToken_eq_ok_iff, m.runPasses_eq_filter, List.filter_eq_nil_iff]
  · simp only [checkToken_eq_invalid_iff, Machine.runPasses_eq_filter, eq_comm (a := vs)]
  · intro e
    unfold checkToken
    cases Machine.ofToken t with
    | error e' => simp
    | ok m =>
      dsimp only
      split <;> simp

end Settings

end TimedMachine
