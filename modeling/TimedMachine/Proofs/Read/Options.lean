import TimedMachine.Proofs.Read.Faults

/-!
# What the options of a reading change

A text is read under options that say how deep it may nest and whether it may have comments. An
option can stop a reading, and does nothing else: two readings under different options go through
the text in step, up to the place where the stricter one stops, and if it does not stop they end
alike (`Token.read_options_gate`).

The two readings are compared piece by piece. `Stops` says that one outcome is the other or a fault
of a certain kind, and it is kept by doing one thing after another.
-/

namespace TimedMachine

namespace Reading

open Grammar

/-! ## One reading that may stop earlier -/

section Stops

variable {α β : Type} {P Q : ReadError → Prop} {x y : Except ReadError α}

/-- The outcome `x` is a fault that satisfies `P`, or it is the outcome `y`. -/
def Stops (P : ReadError → Prop) (x y : Except ReadError α) : Prop :=
  (∃ e, x = .error e ∧ P e) ∨ x = y

theorem Stops.bind {f g : α → Except ReadError β} (h : Stops P x y)
    (hfg : ∀ a, x = .ok a → Stops P (f a) (g a)) : Stops P (x.bind f) (y.bind g) := by
  obtain ⟨e, rfl, he⟩ | rfl := h
  · exact .inl ⟨e, rfl, he⟩
  · cases x with
    | error e => exact .inr rfl
    | ok a => exact hfg a rfl

theorem Stops.map {f : α → β} (h : Stops P x y) : Stops P (x.map f) (y.map f) := by
  obtain ⟨e, rfl, he⟩ | rfl := h
  · exact .inl ⟨e, rfl, he⟩
  · exact .inr rfl

theorem Stops.imp (h : Stops P x y) (hPQ : ∀ e, P e → Q e) : Stops Q x y := by
  obtain ⟨e, hx, he⟩ | hx := h
  · exact .inl ⟨e, hx, hPQ e he⟩
  · exact .inr hx

end Stops

/-! ## Depth -/

section Depth

variable {d d' : Nat} {distinctKeys : Bool} {l : Lexeme} {up : List OpenContainer}

/-- A fault for nesting deeper than `d`. -/
def ExceedsDepth (d : Nat) (e : ReadError) : Prop := ∃ s, e = .depthLimitExceeded s d

theorem stops_enter (hd : d ≤ d') (r : Reading) :
    Stops (ExceedsDepth d) (enter ⟨d, distinctKeys⟩ l up r) (enter ⟨d', distinctKeys⟩ l up r) := by
  unfold enter
  by_cases hup : d ≤ up.length
  · rw [if_pos hup]
    exact .inl ⟨_, rfl, l.span, rfl⟩
  · have hup' : ¬d' ≤ up.length := by omega
    rw [if_neg hup, if_neg hup']
    exact .inr rfl

theorem stops_beginValue (hd : d ≤ d') :
    Stops (ExceedsDepth d) (beginValue ⟨d, distinctKeys⟩ l up)
      (beginValue ⟨d', distinctKeys⟩ l up) := by
  unfold beginValue
  split
  · exact stops_enter hd _
  · exact stops_enter hd _
  all_goals exact .inr rfl

/-- A limit on the depth matters only where a container opens. -/
theorem stops_step (hd : d ≤ d') (r : Reading) :
    Stops (ExceedsDepth d) (step ⟨d, distinctKeys⟩ l r) (step ⟨d', distinctKeys⟩ l r) := by
  cases r with
  | value up => exact stops_beginValue hd
  | firstItem span up =>
    obtain ⟨s, c, form⟩ := l
    by_cases hclose : form = .closeArray
    · subst hclose
      exact .inr rfl
    · rw [step_firstItem hclose, step_firstItem hclose]
      exact stops_beginValue hd
  | afterItem | firstKey | nextKey | afterKey | afterMember | done => exact .inr rfl

theorem stops_run (hd : d ≤ d') (ls : List Lexeme) (r : Reading) :
    Stops (ExceedsDepth d) (run ⟨d, distinctKeys⟩ ls r) (run ⟨d', distinctKeys⟩ ls r) := by
  induction ls generalizing r with
  | nil => exact .inr rfl
  | cons l ls ih =>
    apply (stops_step hd r).bind
    intro r' _
    exact ih r'

end Depth

/-! ## Comments -/

section Comments

variable {limits : Limits} {s s' : Span} {cs x : List Char} {r : Reading}

/-- A fault for a slash that stands at `s` where no comment may. -/
inductive RefusesSlash (s : Span) : ReadError → Prop
  | unexpectedChar (expected : Expected) : RefusesSlash s (.unexpectedChar s '/' expected)
  | trailingCharacters : RefusesSlash s (.trailingCharacters s)

/-- A fault for a slash somewhere in a text that begins at `s`. -/
def RefusesSlashIn (s : Span) (cs : List Char) (e : ReadError) : Prop :=
  ∃ before rest, cs = before ++ '/' :: rest ∧ RefusesSlash (s.after before) e

/-- No reading takes in a slash. -/
theorem exists_step_slash (s : Span) (x : List Char) (r : Reading) :
    ∃ e, step limits ⟨s, '/', (Lexeme.cut s '/' x).form⟩ r = .error e ∧ RefusesSlash s e := by
  have hjunk : (Lexeme.cut s '/' x).form = .junk := rfl
  rw [hjunk]
  cases r with
  | done => exact ⟨_, rfl, .trailingCharacters⟩
  | value | firstItem | afterItem | firstKey | nextKey | afterKey | afterMember =>
    exact ⟨_, rfl, .unexpectedChar _⟩

/-- Where comments are not allowed, trivia are skipped as where they are, unless a slash comes. -/
theorem skipTrivia_without_comments (s : Span) (cs : List Char) :
    (∃ before rest, cs = before ++ '/' :: rest ∧
      Lexeme.skipTrivia false .between s cs = .ok (s.after before, '/' :: rest)) ∨
    Lexeme.skipTrivia false .between s cs = Lexeme.skipTrivia true .between s cs := by
  induction cs generalizing s with
  | nil => exact .inr rfl
  | cons c cs ih =>
    by_cases hblank : Lexeme.isJsonBlank c
    · have hskip (comments : Bool) : Lexeme.skipTrivia comments .between s (c :: cs) =
          Lexeme.skipTrivia comments .between (s.next c) cs := by
        rw [Lexeme.skipTrivia, if_pos hblank]
      rw [hskip, hskip]
      obtain ⟨before, rest, rfl, h⟩ | h := ih (s.next c)
      · exact .inl ⟨c :: before, rest, rfl, h⟩
      · exact .inr h
    · by_cases hslash : c = '/'
      · subst hslash
        exact .inl ⟨[], cs, rfl, rfl⟩
      · right
        rw [Lexeme.skipTrivia, if_neg hblank, if_neg (by simp), Lexeme.skipTrivia, if_neg hblank,
          if_neg (by simp [hslash])]

/-- A slash after the first lexeme is one of the text. -/
theorem RefusesSlashIn.after_lexeme {c : Char} {e : ReadError} {trivia : List Char}
    (h : RefusesSlashIn ((s.after trivia).after (c :: (Lexeme.cut (s.after trivia) c x).taken))
      (Lexeme.cut (s.after trivia) c x).rest e) :
    RefusesSlashIn s (trivia ++ c :: x) e := by
  obtain ⟨before, rest, hrest, he⟩ := h
  have htaken := Lexeme.taken_append_rest (s.after trivia) c x
  refine ⟨trivia ++ c :: (Lexeme.cut (s.after trivia) c x).taken ++ before, rest, ?_, ?_⟩
  · rw [List.append_assoc, ← hrest, List.append_assoc, List.cons_append, htaken]
  · rwa [Span.after_append, Span.after_append]

/-- Reading on without comments ends as with comments, or at a slash. -/
theorem stops_resume (limits : Limits) (s : Span) (cs : List Char) (r : Reading) :
    Stops (RefusesSlashIn s cs) (resume limits false s cs r) (resume limits true s cs r) := by
  -- by induction on the length of the text, since a lexeme is cut off at a time
  induction hn : cs.length using Nat.strong_induction_on generalizing cs s r with
  | _ n ih =>
    obtain ⟨before, rest, rfl, hskip⟩ | hskip := skipTrivia_without_comments s cs
    · obtain ⟨e, hstep, he⟩ := @exists_step_slash limits (s.after before) rest r
      refine .inl ⟨e, ?_, before, rest, rfl, he⟩
      rw [resume_of_cons hskip, hstep]
      rfl
    · obtain ⟨trivia, x, rfl, hskipped, _⟩ := exists_skipped false .between s cs
      match h : Lexeme.skipTrivia false .between s (trivia ++ x) with
      | .error e =>
        rw [resume_of_error h, resume_of_error (hskip.symm.trans h)]
        exact .inr rfl
      | .ok (s', []) =>
        rw [resume_of_end h, resume_of_end (hskip.symm.trans h)]
        exact .inr rfl
      | .ok (s', c :: x') =>
        rw [resume_of_cons h, resume_of_cons (hskip.symm.trans h)]
        rw [h] at hskipped
        cases hskipped
        have hlt : (Lexeme.cut (s.after trivia) c x').rest.length < n := by
          have hle := Lexeme.length_rest_le (s.after trivia) c x'
          rw [← hn, List.length_append, List.length_cons]
          omega
        apply Stops.bind (.inr rfl)
        intro r' _
        exact (ih _ hlt _ _ r' rfl).imp fun e he => he.after_lexeme

end Comments

end Reading

/-! ## Reading a text -/

namespace Token

open Reading

theorem stops_read_depth {d d' : Nat} (hd : d ≤ d') (comments : Bool) (text : String) :
    Stops (ExceedsDepth d) (Token.read ⟨comments, d⟩ text) (Token.read ⟨comments, d'⟩ text) := by
  apply Stops.map
  apply (stops_run hd _ _).bind
  intro r _
  exact .inr rfl

theorem stops_read_comments (d : Nat) (text : String) :
    Stops (RefusesSlashIn .start text.toList) (Token.read ⟨false, d⟩ text)
      (Token.read ⟨true, d⟩ text) :=
  (stops_resume _ _ _ _).map

/-- The options of a reading stop it or leave it alone. Under a smaller limit on the depth a text is
refused for exceeding that limit, or it is read as under the greater limit: as the same tree, or
with the same fault. Without comments a text is read as with comments, or it is refused at one of
its slashes, which is unexpected there or comes after the document. -/
theorem read_options_gate (text : String) :
    (∀ (comments : Bool) (d d' : Nat), d ≤ d' →
      (∃ s, Token.read ⟨comments, d⟩ text = .error (.depthLimitExceeded s d)) ∨
        Token.read ⟨comments, d⟩ text = Token.read ⟨comments, d'⟩ text) ∧
    ∀ d : Nat,
      Token.read ⟨false, d⟩ text = Token.read ⟨true, d⟩ text ∨
      ∃ i, text.toList[i]? = some '/' ∧
        ((∃ expected, Token.read ⟨false, d⟩ text =
            .error (.unexpectedChar (locate text.toList i) '/' expected)) ∨
          Token.read ⟨false, d⟩ text = .error (.trailingCharacters (locate text.toList i))) := by
  constructor
  · intro comments d d' hd
    obtain ⟨e, hread, s, rfl⟩ | hsame := stops_read_depth hd comments text
    · exact .inl ⟨s, hread⟩
    · exact .inr hsame
  · intro d
    obtain ⟨e, hread, before, rest, hcs, he⟩ | hsame := stops_read_comments d text
    · right
      have hplace : Span.start.after before = locate text.toList before.length := by
        rw [hcs, locate_length_append]
      rw [hplace] at he
      refine ⟨before.length, by simp [hcs], ?_⟩
      cases he with
      | unexpectedChar expected => exact .inl ⟨expected, hread⟩
      | trailingCharacters => exact .inr hread
    · exact .inl hsame

/-- The text nests two deep and ends in a comment. Neither option may be stricter than that, and the
stricter ones stop at the inner bracket and at the comment. -/
theorem read_options_gate_nested :
    (∃ s, Token.read ⟨true, 1⟩ "[[]]//" = .error (.depthLimitExceeded s 1)) ∧
    ∃ i, "[[]]//".toList[i]? = some '/' ∧
      Token.read ⟨false, 2⟩ "[[]]//" = .error (.trailingCharacters (locate "[[]]//".toList i)) := by
  have hdeep : (Token.read ⟨true, 1⟩ "[[]]//").toOption.isSome = false := by decide +kernel
  have hlong : (Token.read ⟨false, 2⟩ "[[]]//").toOption.isSome = false := by decide +kernel
  have hread : (Token.read ⟨true, 2⟩ "[[]]//").toOption.isSome = true := by decide +kernel
  obtain ⟨hdepth, hcomments⟩ := read_options_gate "[[]]//"
  constructor
  · obtain h | hsame := hdepth true 1 2 (by decide)
    · exact h
    · rw [← hsame, hdeep] at hread
      cases hread
  · obtain hsame | ⟨i, hi, ⟨expected, h⟩ | h⟩ := hcomments 2
    · rw [← hsame, hlong] at hread
      cases hread
    · have hfault : Token.read ⟨false, 2⟩ "[[]]//" = .error (.trailingCharacters ⟨1, 5⟩) := by
        decide +kernel
      rw [h] at hfault
      cases hfault
    · exact ⟨i, hi, h⟩

end Token

end TimedMachine
