import TimedMachine.Checker
import TimedMachine.Proofs.Machine.Spans
import TimedMachine.Proofs.Read.Document

/-!
# Texts and JSON values check alike

A specification may be given as a text or as a JSON value. The two ways build the same tree but for
places in the text, and a check does not depend on these.
-/

namespace TimedMachine

open Grammar Loaded

/-- Two checks end alike: with the same machine, the same violations, or the same fault at the same
path. -/
inductive SameOutcome : Except CheckError Machine → Except CheckError Machine → Prop
  | machine (m : Machine) : SameOutcome (.ok m) (.ok m)
  | invalid (violations : List Violation) :
      SameOutcome (.error (.invalid violations)) (.error (.invalid violations))
  | load {e e' : LoadError} (hfault : e.fault = e'.fault) (hpath : e.site.path = e'.site.path) :
      SameOutcome (.error (.load e)) (.error (.load e'))

namespace Settings

/-- A check ends alike on a tree and on the same tree without its places. -/
theorem sameOutcome_checkToken (s : Settings) (t : Token) :
    SameOutcome (s.checkToken t) (s.checkToken t.withoutSpans) := by
  have hload := Machine.alike_ofToken t
  unfold checkToken
  generalize Machine.ofToken t = x at hload
  generalize Machine.ofToken t.withoutSpans = y at hload
  cases hload with
  | error h =>
    subst h
    exact .load rfl rfl
  | @ok m _ h =>
    subst h
    dsimp only
    cases m.runPasses s.checks with
    | nil => exact .machine m
    | cons violation violations => exact .invalid (violation :: violations)

/-- A text that denotes a JSON value is read as the tree of that value, but for places, and checking
the text and checking the value end alike. -/
theorem checkText_checkJson_agree {s : Settings} {text : String} {v : Json}
    (h : IsDocument s.reader.allowComments s.reader.maxDepth text.toList v) :
    (∃ t, Token.read s.reader text = .ok t ∧ t.withoutSpans = Token.ofJson v) ∧
    SameOutcome (s.checkText text) (s.checkJson v) := by
  obtain ⟨t, ht, hv⟩ := Token.exists_read_of_isDocument h
  refine ⟨⟨t, ht, hv⟩, ?_⟩
  rw [checkText, ht, checkJson, ← hv]
  exact sameOutcome_checkToken s t

/-- A text with a comment, and the value that it denotes: the check of either stops at the member
that is no object. -/
theorem checkText_checkJson_agree_member :
    (∃ t, Token.read {} "\x7b\"events\": true\x7d//" = .ok t ∧
      t.withoutSpans = Token.ofJson (.object [("events", .bool true)])) ∧
    SameOutcome (({} : Settings).checkText "\x7b\"events\": true\x7d//")
      (({} : Settings).checkJson (.object [("events", .bool true)])) := by
  have hkey : IsString ('"' :: ['e', 'v', 'e', 'n', 't', 's'] ++ ['"']) "events" := by
    refine ⟨_, rfl, ?_, by decide +kernel⟩
    repeat refine .plain (by decide) (by decide) ?_
    exact .nil
  have hblank : IsTrivia true false [' '] := .blank (by decide) .nil
  have hdocument : IsDocument true 128 "\x7b\"events\": true\x7d//".toList
      (.object [("events", .bool true)]) :=
    .mk .nil (.object (.last (.mk .nil hkey .nil hblank (.scalar .true) .nil)) (by simp))
      (.lastLine rfl rfl nofun)
  exact checkText_checkJson_agree (s := {}) hdocument

end Settings

end TimedMachine
