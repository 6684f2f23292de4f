import TimedMachine.Proofs.Read.Places

/-!
# Where faults are reported

A text that is no document is refused at one of its characters or at its end, and the kind of the
fault tells what stands there (`Token.read_error_located`). Some faults are seen at the character
that they are reported at; of these the rest of the text has no part in it.

Both are first shown of one lexeme, then of a text from any point on, by going through its lexemes.
-/

namespace TimedMachine

namespace ReadError

/-- Whether a fault is seen as soon as the character is that it is reported at. -/
def Immediate : ReadError → Prop
  | .unexpectedChar .. | .trailingCharacters .. | .depthLimitExceeded .. => True
  | .unexpectedEof .. | .invalidLiteral .. | .invalidString .. | .invalidNumber ..
  | .duplicateKey .. => False

/-- Trees cannot be compared, but whether there is a certain fault instead can be decided. -/
instance decidableEqError (r : Except ReadError Token) (e : ReadError) :
    Decidable (r = .error e) :=
  match r with
  | .ok _ => .isFalse nofun
  | .error e' => decidable_of_iff (e' = e) ⟨congrArg _, Except.error.inj⟩

end ReadError

namespace Grammar

variable {comments : Bool} {s s' : Span} {c : Char} {cs x : List Char} {e : ReadError}

/-- A fault of a text that begins at `s` is reported at the end of a piece of the text. -/
def ReportedIn (s : Span) (cs : List Char) (e : ReadError) : Prop :=
  ∃ before rest, cs = before ++ rest ∧ e.span = s.after before ∧ FaultAt e rest

/-- A fault that is reported at the start of a text. -/
theorem reportedIn_start (hspan : e.span = s) (hfault : FaultAt e cs) : ReportedIn s cs e :=
  ⟨[], cs, rfl, hspan, hfault⟩

/-- A string literal with a fault is reported at its quote. -/
theorem eq_of_stringForm {body : List Char} (h : Lexeme.stringForm s body = .string (.error e)) :
    ∃ fault, e = .invalidString s body fault := by
  unfold Lexeme.stringForm at h
  split at h
  · cases h
  · next fault _ =>
    cases h
    exact ⟨fault, rfl⟩

/-- A number with a fault is reported where it begins. -/
theorem eq_of_numberForm {ds : List Char} (h : Lexeme.numberForm s ds = .scalar (.error e)) :
    e = .invalidNumber s (String.ofList ds) := by
  unfold Lexeme.numberForm at h
  split at h
  · cases h
  · cases h
    rfl

/-- A word that is none of the three is reported where it begins. -/
theorem eq_of_wordForm {ds : List Char} (h : Lexeme.wordForm s ds = .scalar (.error e)) :
    e = .invalidLiteral s := by
  unfold Lexeme.wordForm at h
  split at h
  · cases h
  · split at h
    · cases h
    · split at h
      · cases h
      · cases h
        rfl

/-- The fault of a string literal is reported at its quote, or at the end of the text if the literal
does not end. -/
theorem reportedIn_of_string (h : (Lexeme.cut s c cs).form = .string (.error e)) :
    ReportedIn s (c :: cs) e ∧ ¬e.Immediate := by
  have hform := formOf_cut s c cs
  rw [h] at hform
  cases hform with
  | mark hmark => exact absurd hmark.symm ((markForm_ne_literal c).1 _)
  | string _ hc =>
    subst hc
    rw [Lexeme.cut, if_pos rfl] at h
    split at h
    · obtain ⟨fault, rfl⟩ := eq_of_stringForm h
      exact ⟨reportedIn_start rfl rfl, id⟩
    · cases h
      exact ⟨⟨'"' :: cs, [], by simp, rfl, rfl⟩, id⟩

/-- The fault of a number or a word is reported where the literal begins. -/
theorem reportedIn_of_scalar (h : (Lexeme.cut s c cs).form = .scalar (.error e)) :
    ReportedIn s (c :: cs) e ∧ ¬e.Immediate := by
  have hform := formOf_cut s c cs
  rw [h] at hform
  cases hform with
  | mark hmark => exact absurd hmark.symm ((markForm_ne_literal c).2 _)
  | scalar _ hquote hc =>
    rw [Lexeme.cut, if_neg hquote] at h
    by_cases hnumber : c = '-' ∨ c.isDigit
    · rw [if_pos hnumber] at h
      obtain rfl := eq_of_numberForm h
      refine ⟨reportedIn_start rfl ?_, id⟩
      have hprefix : c :: cs.takeWhile Lexeme.isNumberChar <+: c :: cs :=
        List.cons_prefix_cons.2 ⟨rfl, List.takeWhile_prefix _⟩
      simpa [FaultAt] using hprefix
    · have hword := hc.resolve_left hnumber
      rw [if_neg hnumber, if_pos hword] at h
      obtain rfl := eq_of_wordForm h
      exact ⟨reportedIn_start rfl (by simpa [FaultAt] using hword), id⟩

end Grammar

/-! ## One lexeme -/

namespace Reading

open Grammar

variable {comments : Bool} {limits : Limits} {s s' : Span} {c : Char} {cs x : List Char}
  {e : ReadError} {up : List OpenContainer} {r : Reading}

/-- Two lexemes of one kind: the same mark, or two literals that differ at most in what they are
the literals of. -/
inductive SameKind : Lexeme.Form → Lexeme.Form → Prop
  | string (v w : Except ReadError String) : SameKind (.string v) (.string w)
  | scalar (v w : Except ReadError Scalar) : SameKind (.scalar v) (.scalar w)
  | refl (f : Lexeme.Form) : SameKind f f

/-- The first character of a lexeme tells its kind. -/
theorem sameKind_of_formOf {f g : Lexeme.Form} (hf : FormOf c f) (hg : FormOf c g) :
    SameKind f g := by
  cases hf with
  | string v hc =>
    cases hg with
    | string w => exact .string v w
    | scalar _ hquote | mark _ hquote => exact absurd hc hquote
  | scalar v hquote hc =>
    cases hg with
    | string _ hc => exact absurd hc hquote
    | scalar w => exact .scalar v w
    | mark _ _ hscalar => exact absurd hc hscalar
  | mark hf hquote hscalar =>
    cases hg with
    | string _ hc => exact absurd hc hquote
    | scalar _ _ hc => exact absurd hc hscalar
    | mark hg =>
      rw [hf, hg]
      exact .refl _

/-- A lexeme is refused for a fault of its own, or for one that is reported where it begins; if that
one is immediate, any other lexeme of its kind is refused for it too. -/
inductive Refused (limits : Limits) (s : Span) (c : Char) (cs : List Char) (r : Reading)
    (f : Lexeme.Form) (e : ReadError) : Prop
  | string (h : f = .string (.error e))
  | scalar (h : f = .scalar (.error e))
  | here (hspan : e.span = s) (hfault : FaultAt e (c :: cs))
      (hkind : e.Immediate → ∀ g, SameKind f g → step limits ⟨s, c, g⟩ r = .error e)

/-- A value is refused for a fault of the literal, for its nesting, or because it is none. -/
theorem refused_of_beginValue {f : Lexeme.Form}
    (h : beginValue limits ⟨s, c, f⟩ up = .error e)
    (hopen : f = .openObject → c = '\x7b') (hopenArray : f = .openArray → c = '[')
    (hr : ∀ g, SameKind f g → step limits ⟨s, c, g⟩ r = beginValue limits ⟨s, c, g⟩ up) :
    Refused limits s c cs r f e := by
  have henter {r' : Reading} (hc : c = '\x7b' ∨ c = '[')
      (h : enter limits ⟨s, c, f⟩ up r' = .error e) (hf : ∀ g, SameKind f g → g = f)
      (hb : beginValue limits ⟨s, c, f⟩ up = .error e) : Refused limits s c cs r f e := by
    unfold enter at h
    split at h
    · cases h
      refine .here rfl (by simpa [FaultAt] using hc) fun _ g hg => ?_
      rw [hr g hg, hf g hg, hb]
    · cases h
  cases f with
  | openObject =>
    refine henter (.inl (hopen rfl)) h (fun g hg => ?_) h
    cases hg
    rfl
  | openArray =>
    refine henter (.inr (hopenArray rfl)) h (fun g hg => ?_) h
    cases hg
    rfl
  | string v =>
    cases v with
    | ok => cases h
    | error => cases h; exact .string rfl
  | scalar v =>
    cases v with
    | ok => cases h
    | error => cases h; exact .scalar rfl
  | closeObject | closeArray | colon | comma | junk =>
    cases h
    refine .here rfl rfl fun _ g hg => ?_
    rw [hr g hg]
    cases hg
    rfl

/-- A key is refused for a fault of the literal, because there is one like it, or because it is
none. -/
theorem refused_of_beginMember {f : Lexeme.Form} {span : Span} {members : Members}
    (h : beginMember limits ⟨s, c, f⟩ span members up = .error e)
    (hquote : ∀ v, f = .string v → c = '"')
    (hr : ∀ g, SameKind f g →
      step limits ⟨s, c, g⟩ r = beginMember limits ⟨s, c, g⟩ span members up) :
    Refused limits s c cs r f e := by
  cases f with
  | string v =>
    cases v with
    | error => cases h; exact .string rfl
    | ok key =>
      obtain rfl := hquote _ rfl
      simp only [beginMember, bind, Except.bind] at h
      split at h
      · cases h
        exact .here rfl rfl fun h => h.elim
      · cases h
  | scalar v =>
    cases h
    refine .here rfl rfl fun _ g hg => ?_
    rw [hr g hg]
    cases hg <;> rfl
  | openObject | closeObject | openArray | closeArray | colon | comma | junk =>
    cases h
    refine .here rfl rfl fun _ g hg => ?_
    rw [hr g hg]
    cases hg
    rfl

/-- Why a reading refuses a lexeme. -/
theorem refused_of_step (h : step limits ⟨s, c, (Lexeme.cut s c cs).form⟩ r = .error e) :
    Refused limits s c cs r (Lexeme.cut s c cs).form e := by
  have hcut := cuts_cut s c cs
  have hopen : (Lexeme.cut s c cs).form = .openObject → c = '\x7b' :=
    fun hf => (hcut.eq_mark (d := '\x7b') hf (by decide)).1
  have hopenArray : (Lexeme.cut s c cs).form = .openArray → c = '[' :=
    fun hf => (hcut.eq_mark (d := '[') hf (by decide)).1
  have hquote : ∀ v, (Lexeme.cut s c cs).form = .string v → c = '"' := by
    intro v hf
    have hform := formOf_cut s c cs
    rw [hf] at hform
    cases hform with
    | string _ hc => exact hc
    | mark hmark => exact absurd hmark.symm ((markForm_ne_literal c).1 v)
  generalize (Lexeme.cut s c cs).form = f at h hopen hopenArray hquote
  cases r with
  | value up => exact refused_of_beginValue h hopen hopenArray fun _ _ => rfl
  | firstItem span up =>
    -- what closes the array is not refused, so the lexeme and all of its kind begin an item
    have hf : f ≠ .closeArray := by
      rintro rfl
      cases h
    rw [step_firstItem hf] at h
    refine refused_of_beginValue h hopen hopenArray fun g hg => step_firstItem ?_ span up
    rintro rfl
    cases hg
    exact hf rfl
  | firstKey span up =>
    have hf : f ≠ .closeObject := by
      rintro rfl
      cases h
    rw [step_firstKey hf] at h
    refine refused_of_beginMember h hquote fun g hg => step_firstKey ?_ span up
    rintro rfl
    cases hg
    exact hf rfl
  | nextKey span members up => exact refused_of_beginMember h hquote fun _ _ => rfl
  | afterItem | afterKey | afterMember =>
    -- only marks may stand here
    cases f <;> cases h <;>
      exact .here rfl rfl fun _ g hg => by cases hg <;> rfl
  | done t =>
    cases h
    exact .here rfl (by simp [FaultAt]) fun _ g _ => rfl

/-! ## A whole text -/

/-- A text that is read on from `r` at `s` is refused at the end of a piece of it, where what the
fault says stands. Where the fault is immediate, the rest of the text does not matter but for its
first character. -/
def FailsAt (limits : Limits) (comments : Bool) (s : Span) (cs : List Char) (r : Reading)
    (e : ReadError) : Prop :=
  ∃ before rest, cs = before ++ rest ∧ e.span = s.after before ∧ FaultAt e rest ∧
    (e.Immediate → ∀ c x, rest = c :: x → ∀ y,
      resume limits comments s (before ++ c :: y) r = .error e)

section FirstLexeme

variable {trivia : List Char} {r' : Reading}

/-- A text whose first lexeme is refused. -/
theorem failsAt_of_step_error
    (hskip : ∀ y, Lexeme.skipTrivia comments .between s (trivia ++ c :: y) =
      .ok (s.after trivia, c :: y))
    (hstep : step limits ⟨s.after trivia, c, (Lexeme.cut (s.after trivia) c x).form⟩ r =
      .error e) :
    FailsAt limits comments s (trivia ++ c :: x) r e := by
  have hown (hreported : ReportedIn (s.after trivia) (c :: x) e ∧ ¬e.Immediate) :
      FailsAt limits comments s (trivia ++ c :: x) r e := by
    obtain ⟨⟨before, rest, hcs, hspan, hfault⟩, himmediate⟩ := hreported
    exact ⟨trivia ++ before, rest, by rw [List.append_assoc, hcs],
      by rw [hspan, Span.after_append], hfault, fun hi => absurd hi himmediate⟩
  cases refused_of_step hstep with
  | string hf => exact hown (reportedIn_of_string hf)
  | scalar hf => exact hown (reportedIn_of_scalar hf)
  | here hspan hfault hkind =>
    refine ⟨trivia, c :: x, rfl, hspan, hfault, ?_⟩
    rintro hi _ _ ⟨⟩ y
    -- what follows `c` may make another lexeme of it, but one of the same kind
    have hsame := sameKind_of_formOf (formOf_cut (s.after trivia) c x)
      (formOf_cut (s.after trivia) c y)
    rw [resume_of_cons (hskip y), hkind hi _ hsame]
    rfl

/-- A text that is refused after its first lexeme. -/
theorem FailsAt.cons
    (hskip : ∀ y, Lexeme.skipTrivia comments .between s (trivia ++ c :: y) =
      .ok (s.after trivia, c :: y))
    (hstep : step limits ⟨s.after trivia, c, (Lexeme.cut (s.after trivia) c x).form⟩ r = .ok r')
    (h : FailsAt limits comments ((s.after trivia).after
      (c :: (Lexeme.cut (s.after trivia) c x).taken)) (Lexeme.cut (s.after trivia) c x).rest r' e) :
    FailsAt limits comments s (trivia ++ c :: x) r e := by
  have htaken := Lexeme.taken_append_rest (s.after trivia) c x
  obtain ⟨before, rest, hcs, hspan, hfault, himmediate⟩ := h
  refine ⟨trivia ++ c :: (Lexeme.cut (s.after trivia) c x).taken ++ before, rest, ?_, ?_, hfault,
    ?_⟩
  · rw [List.append_assoc, ← hcs, List.append_assoc, List.cons_append, htaken]
  · rw [hspan, Span.after_append, Span.after_append]
  · rintro hi d z rfl y
    -- the lexeme ends before `d` at the latest, so it is the same one
    have hcut := cut_of_rest_eq (y := y) hcs
    have htext : trivia ++ c :: (Lexeme.cut (s.after trivia) c x).taken ++ before ++ d :: y =
        trivia ++ c :: ((Lexeme.cut (s.after trivia) c x).taken ++ (before ++ d :: y)) := by
      simp
    rw [htext, resume_of_cons (hskip _), hcut, hstep]
    exact himmediate hi d z rfl y

end FirstLexeme

/-- A text that is refused is refused at the end of a piece of it, where what the fault says
stands. -/
theorem failsAt_of_resume (h : resume limits comments s cs r = .error e) :
    FailsAt limits comments s cs r e := by
  -- by induction on the length of the text, since a lexeme is cut off at a time
  induction hn : cs.length using Nat.strong_induction_on generalizing cs s r with
  | _ n ih =>
    obtain ⟨trivia, x, rfl, hskipped, hlocal⟩ := exists_skipped comments .between s cs
    match hskip : Lexeme.skipTrivia comments .between s (trivia ++ x) with
    | .error e' =>
      rw [resume_of_error hskip] at h
      cases h
      rw [hskip] at hskipped hlocal
      cases hskipped with
      | error hspan hfault =>
        exact ⟨trivia, x, rfl, hspan, hfault, fun _ c x' hx y =>
          resume_of_error (hlocal c x' hx y)⟩
    | .ok (s', []) =>
      rw [resume_of_end hskip] at h
      rw [hskip] at hskipped
      cases hskipped
      refine ⟨trivia, [], rfl, ?_, ?_, nofun⟩ <;> cases r <;> cases h <;> rfl
    | .ok (s', c :: x') =>
      rw [resume_of_cons hskip] at h
      rw [hskip] at hskipped hlocal
      cases hskipped
      -- the text up to `c` is scanned alike, whatever comes after it
      have hskip' (y : List Char) :
          Lexeme.skipTrivia comments .between s (trivia ++ c :: y) =
            .ok (s.after trivia, c :: y) := hlocal c x' rfl y
      cases hstep : step limits ⟨s.after trivia, c, (Lexeme.cut (s.after trivia) c x').form⟩ r with
      | error e' =>
        rw [hstep] at h
        cases h
        exact failsAt_of_step_error hskip' hstep
      | ok r' =>
        rw [hstep] at h
        have hlt : (Lexeme.cut (s.after trivia) c x').rest.length < n := by
          have hle := Lexeme.length_rest_le (s.after trivia) c x'
          rw [← hn, List.length_append, List.length_cons]
          omega
        exact (ih _ hlt h rfl).cons hskip' hstep

end Reading

/-! ## Reading a text -/

namespace Token

open Grammar

variable {o : ReadOptions} {text : String} {e : ReadError}

/-- Reading a text fails as going through its characters does. -/
theorem read_eq_error_iff : Token.read o text = .error e ↔
    Reading.resume (Reading.strict o.maxDepth) o.allowComments .start text.toList (.value []) =
      .error e := by
  have hread : Token.read o text =
      (Reading.resume (Reading.strict o.maxDepth) o.allowComments .start text.toList
        (.value [])).map (·.placed "") := rfl
  rw [hread]
  cases Reading.resume (Reading.strict o.maxDepth) o.allowComments .start text.toList
    (.value []) <;> simp [Except.map]

end Token

/-- What a fault says of the text at the index that it is reported at. -/
def ReadError.FitsAt (cs : List Char) (i : Nat) : ReadError → Prop
  | .unexpectedEof _ => i = cs.length
  | .unexpectedChar _ found _ => cs[i]? = some found
  | .depthLimitExceeded _ _ => cs[i]? = some '\x7b' ∨ cs[i]? = some '['
  | .duplicateKey _ _ | .invalidString _ _ _ => cs[i]? = some '"'
  | .invalidNumber _ literal => literal.toList <+: cs.drop i
  | .invalidLiteral _ => cs[i]? = some 't' ∨ cs[i]? = some 'f' ∨ cs[i]? = some 'n'
  | .trailingCharacters _ => i < cs.length

/-- What stands at the end of a piece of a text stands there at an index. -/
theorem Grammar.FaultAt.fitsAt {e : ReadError} {before rest : List Char} (h : FaultAt e rest) :
    e.FitsAt (before ++ rest) before.length := by
  have hhead : (before ++ rest)[before.length]? = rest.head? := by
    rw [List.getElem?_append_right (Nat.le_refl _), Nat.sub_self, List.head?_eq_getElem?]
  cases e with
  | unexpectedEof => simp [ReadError.FitsAt, show rest = [] from h]
  | trailingCharacters => simpa [ReadError.FitsAt, List.length_pos_iff] using show rest ≠ [] from h
  | invalidNumber s literal => simpa [ReadError.FitsAt] using show literal.toList <+: rest from h
  | _ =>
    simp only [ReadError.FitsAt, hhead]
    exact h

/-- Where an immediate fault is reported, a character stands. -/
theorem Grammar.FaultAt.exists_cons {e : ReadError} {rest : List Char} (h : FaultAt e rest)
    (hi : e.Immediate) : ∃ c x, rest = c :: x := by
  cases rest with
  | cons c x => exact ⟨c, x, rfl⟩
  | nil =>
    cases e with
    | trailingCharacters => exact absurd rfl h
    | unexpectedChar => cases h
    | depthLimitExceeded => cases h <;> contradiction
    | _ => exact hi.elim

namespace Token

open Grammar

/-- A text that cannot be read is refused at an index of it: the fault is reported at the place of
that index, and what the fault says stands there does. A fault that is seen as soon as the character
at its place is, is the fault of every text that begins alike up to that character. -/
theorem read_error_located {o : ReadOptions} {text : String} {e : ReadError}
    (h : Token.read o text = .error e) :
    ∃ i ≤ text.length, e.span = locate text.toList i ∧ e.FitsAt text.toList i ∧
      (e.Immediate → ∀ text' : String, text'.toList.take (i + 1) = text.toList.take (i + 1) →
        Token.read o text' = .error e) := by
  obtain ⟨before, rest, hcs, hspan, hfault, himmediate⟩ :=
    Reading.failsAt_of_resume (read_eq_error_iff.1 h)
  refine ⟨before.length, ?_, ?_, ?_, fun hi text' htext' => ?_⟩
  · rw [← String.length_toList, hcs, List.length_append]
    exact Nat.le_add_right _ _
  · rw [hcs, locate_length_append, hspan]
  · rw [hcs]
    exact hfault.fitsAt
  · obtain ⟨c, x, rfl⟩ := hfault.exists_cons hi
    have hbegin : text.toList.take (before.length + 1) = before ++ [c] := by
      simp [hcs, List.take_append]
    have htext : text'.toList = before ++ c :: text'.toList.drop (before.length + 1) := by
      calc text'.toList
          = text'.toList.take (before.length + 1) ++ text'.toList.drop (before.length + 1) :=
            (List.take_append_drop ..).symm
        _ = before ++ [c] ++ text'.toList.drop (before.length + 1) := by rw [htext', hbegin]
        _ = before ++ c :: text'.toList.drop (before.length + 1) := by simp
    rw [read_eq_error_iff, htext]
    exact himmediate hi c x rfl _

/-- An array that is closed after a comma is refused at its second line, with whatever follows. -/
theorem read_error_located_item :
    Token.read {} "[true,\n]" = .error (.unexpectedChar ⟨2, 1⟩ ']' .value) ∧
    ∃ i ≤ "[true,\n]".length, ⟨2, 1⟩ = locate "[true,\n]".toList i ∧
      "[true,\n]".toList[i]? = some ']' ∧
      ∀ text' : String, text'.toList.take (i + 1) = "[true,\n]".toList.take (i + 1) →
        Token.read {} text' = .error (.unexpectedChar ⟨2, 1⟩ ']' .value) := by
  have h : Token.read {} "[true,\n]" = .error (.unexpectedChar ⟨2, 1⟩ ']' .value) := by
    decide +kernel
  obtain ⟨i, hi, hspan, hfits, himmediate⟩ := read_error_located h
  exact ⟨h, i, hi, hspan, hfits, himmediate trivial⟩

end Token

end TimedMachine
