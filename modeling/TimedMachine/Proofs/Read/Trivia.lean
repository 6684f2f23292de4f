import TimedMachine.Proofs.Read.Grammar

/-!
# Skipping trivia

`Lexeme.skipTrivia` takes off a text exactly the trivia that the grammar lets stand before what
comes next, and stops at the first text that no trivia come first in (`Solid`).
-/

namespace TimedMachine.Grammar

variable {comments atEnd : Bool} {body before cs l x : List Char} {s s' : Span}

/-- Whether nothing of a text is trivia: it is at its end, or a character of a lexeme comes. -/
def Solid (comments : Bool) (x : List Char) : Prop :=
  ∀ c ∈ x.head?, Lexeme.isJsonBlank c = false ∧ ¬(c = '/' ∧ comments = true)

/-! ## Comments -/

/-- A line comment ends with its line. -/
theorem skipTrivia_line (hbody : '\n' ∉ body) :
    Lexeme.skipTrivia comments .line s (body ++ '\n' :: cs) =
      Lexeme.skipTrivia comments .between (s.after (body ++ ['\n'])) cs := by
  induction body generalizing s with
  | nil => simp [Lexeme.skipTrivia]
  | cons c body ih =>
    obtain ⟨hc, hbody⟩ := List.ne_and_not_mem_of_not_mem_cons hbody
    simp [Lexeme.skipTrivia, Ne.symm hc, ih hbody]

/-- A line comment may end with the text. -/
theorem skipTrivia_lastLine (hbody : '\n' ∉ body) :
    Lexeme.skipTrivia comments .line s body = .ok (s.after body, []) := by
  induction body generalizing s with
  | nil => rfl
  | cons c body ih =>
    obtain ⟨hc, hbody⟩ := List.ne_and_not_mem_of_not_mem_cons hbody
    simp [Lexeme.skipTrivia, Ne.symm hc, ih hbody]

/-- A text that is nowhere in `c :: cs` is nowhere in `cs`. -/
theorem not_infix_of_not_infix_cons {c : Char} (h : ¬l <:+: c :: cs) : ¬l <:+: cs :=
  fun hl => h (List.infix_cons hl)

/-- A block comment ends with the first mark of its end, whether or not a star comes before the
rest of its body. -/
theorem skipTrivia_block_and_star (cs : List Char) :
    (¬['*', '/'] <:+: body → Lexeme.skipTrivia comments .block s (body ++ '*' :: '/' :: cs) =
      Lexeme.skipTrivia comments .between (s.after (body ++ ['*', '/'])) cs) ∧
    (¬['*', '/'] <:+: '*' :: body → Lexeme.skipTrivia comments .star s (body ++ '*' :: '/' :: cs) =
      Lexeme.skipTrivia comments .between (s.after (body ++ ['*', '/'])) cs) := by
  induction body generalizing s with
  | nil => simp [Lexeme.skipTrivia]
  | cons c body ih =>
    constructor
    · intro hbody
      by_cases hc : c = '*'
      · subst hc
        simpa [Lexeme.skipTrivia] using ih.2 hbody
      · simpa [Lexeme.skipTrivia, hc] using ih.1 (not_infix_of_not_infix_cons hbody)
    · intro hbody
      have hrest := not_infix_of_not_infix_cons hbody
      have hslash : c ≠ '/' := by
        rintro rfl
        exact hbody ⟨[], body, rfl⟩
      by_cases hc : c = '*'
      · subst hc
        simpa [Lexeme.skipTrivia] using ih.2 hrest
      · simpa [Lexeme.skipTrivia, hc, hslash] using ih.1 (not_infix_of_not_infix_cons hrest)

/-! ## Trivia before a solid rest -/

/-- Of a solid text nothing is skipped. -/
theorem skipTrivia_of_solid (hx : Solid comments x) :
    Lexeme.skipTrivia comments .between s x = .ok (s, x) := by
  cases x with
  | nil => rfl
  | cons c x =>
    obtain ⟨hblank, hslash⟩ := hx c rfl
    rw [Lexeme.skipTrivia, if_neg (by simp [hblank]), if_neg hslash]

/-- Trivia are skipped up to the solid rest. -/
theorem exists_skipTrivia_append (hl : IsTrivia comments x.isEmpty l) (hx : Solid comments x)
    (s : Span) : ∃ s', Lexeme.skipTrivia comments .between s (l ++ x) = .ok (s', x) := by
  induction hl generalizing s with
  | nil => exact ⟨s, skipTrivia_of_solid hx⟩
  | @blank c cs hc _ ih =>
    obtain ⟨s', h⟩ := ih (s.next c)
    have hblank : Lexeme.isJsonBlank c := by simpa [Lexeme.isJsonBlank, or_assoc] using hc
    exact ⟨s', by rw [List.cons_append, Lexeme.skipTrivia, if_pos hblank, h]⟩
  | @line body cs hcomments hbody _ ih =>
    obtain ⟨s', h⟩ := ih (((s.next '/').next '/').after (body ++ ['\n']))
    refine ⟨s', ?_⟩
    rw [← h, ← skipTrivia_line hbody]
    simp [Lexeme.skipTrivia, Lexeme.isJsonBlank, hcomments]
  | @lastLine body hcomments hend hbody =>
    obtain rfl : x = [] := List.isEmpty_iff.1 hend
    refine ⟨((s.next '/').next '/').after body, ?_⟩
    simp [Lexeme.skipTrivia, Lexeme.isJsonBlank, hcomments, skipTrivia_lastLine hbody]
  | @block body cs hcomments hbody _ ih =>
    obtain ⟨s', h⟩ := ih (((s.next '/').next '*').after (body ++ ['*', '/']))
    refine ⟨s', ?_⟩
    rw [← h, ← (skipTrivia_block_and_star _).1 hbody]
    simp [Lexeme.skipTrivia, Lexeme.isJsonBlank, hcomments]

/-! ## What was skipped -/

/-- What a scan that stands in `m` still skips: the rest of the comment that it is in, and trivia
after it. -/
def Skips (comments atEnd : Bool) : Lexeme.Trivia → List Char → Prop
  | .between, l => IsTrivia comments atEnd l
  | .slash, l => IsTrivia comments atEnd ('/' :: l)
  | .line, l => (atEnd ∧ '\n' ∉ l) ∨
      ∃ body cs, l = body ++ '\n' :: cs ∧ '\n' ∉ body ∧ IsTrivia comments atEnd cs
  | .block, l =>
      ∃ body cs, l = body ++ '*' :: '/' :: cs ∧ ¬['*', '/'] <:+: body ∧
        IsTrivia comments atEnd cs
  | .star, l =>
      ∃ body cs, '*' :: l = body ++ '*' :: '/' :: cs ∧ ¬['*', '/'] <:+: body ∧
        IsTrivia comments atEnd cs

/-- A character that is no line feed goes on with a line comment. -/
theorem Skips.cons_line {c : Char} (hc : c ≠ '\n') (h : Skips comments atEnd .line l) :
    Skips comments atEnd .line (c :: l) := by
  obtain ⟨hend, hl⟩ | ⟨body, cs, rfl, hbody, hcs⟩ := h
  · exact .inl ⟨hend, by simp [Ne.symm hc, hl]⟩
  · exact .inr ⟨c :: body, cs, rfl, by simp [Ne.symm hc, hbody], hcs⟩

/-- A character that is no star goes on with a block comment. -/
theorem Skips.cons_block {c : Char} (hc : c ≠ '*') (h : Skips comments atEnd .block l) :
    Skips comments atEnd .block (c :: l) := by
  obtain ⟨body, cs, rfl, hbody, hcs⟩ := h
  refine ⟨c :: body, cs, rfl, ?_, hcs⟩
  rw [List.infix_cons_iff, List.cons_prefix_cons]
  exact not_or.2 ⟨fun h => hc h.1.symm, hbody⟩

/-- After a star, a character that is no slash goes on with a block comment: either it is a star
again or the comment is as it was before. -/
theorem Skips.cons_star {c : Char} (hc : c ≠ '/')
    (h : Skips comments atEnd (if c = '*' then .star else .block) l) :
    Skips comments atEnd .star (c :: l) := by
  have hblock : Skips comments atEnd .block (c :: l) := by
    by_cases hstar : c = '*'
    · simpa [hstar, Skips] using h
    · rw [if_neg hstar] at h
      exact h.cons_block hstar
  obtain ⟨body, cs, heq, hbody, hcs⟩ := hblock
  refine ⟨'*' :: body, cs, by rw [heq]; rfl, ?_, hcs⟩
  rw [List.infix_cons_iff, List.cons_prefix_cons, not_or]
  refine ⟨fun ⟨_, h⟩ => ?_, hbody⟩
  cases body with
  | nil => simp at h
  | cons d body =>
    obtain rfl : c = d := (List.cons.inj heq).1
    rw [List.cons_prefix_cons] at h
    exact hc h.1.symm

/-- What is skipped from any point of a scan on, and that the rest is solid. Only where comments
are allowed does a scan come to stand in one. -/
theorem exists_skips_of_skipTrivia {m : Lexeme.Trivia}
    (h : Lexeme.skipTrivia comments m s cs = .ok (s', x)) (hm : m ≠ .between → comments = true) :
    Solid comments x ∧ ∃ l, cs = l ++ x ∧ Skips comments x.isEmpty m l := by
  -- on the text, for any kind of trivia that the scan may stand in: each character changes the kind
  induction cs generalizing m s with
  | nil =>
    cases m <;> cases h
    · exact ⟨by simp [Solid], [], rfl, .nil⟩
    · exact ⟨by simp [Solid], [], rfl, .inl ⟨rfl, by simp⟩⟩
  | cons c cs ih =>
    cases m with
    | between =>
      rw [Lexeme.skipTrivia] at h
      split at h
      case isTrue hblank =>
        obtain ⟨hx, l, rfl, hl⟩ := ih h fun hm => absurd rfl hm
        exact ⟨hx, c :: l, rfl, .blank (by simpa [Lexeme.isJsonBlank, or_assoc] using hblank) hl⟩
      case isFalse hblank =>
        split at h
        case isTrue hslash =>
          obtain ⟨rfl, hcomments⟩ := hslash
          obtain ⟨hx, l, rfl, hl⟩ := ih h fun _ => hcomments
          exact ⟨hx, '/' :: l, rfl, hl⟩
        case isFalse hslash =>
          cases h
          refine ⟨?_, [], rfl, .nil⟩
          rintro _ ⟨⟩
          exact ⟨Bool.eq_false_iff.2 hblank, hslash⟩
    | slash =>
      have hcomments := hm (by simp)
      rw [Lexeme.skipTrivia] at h
      split at h
      case isTrue hslash =>
        obtain ⟨hx, l, rfl, ⟨hend, hl⟩ | ⟨body, rest, rfl, hbody, hrest⟩⟩ :=
          ih h fun _ => hcomments
        · exact ⟨hx, c :: l, rfl, hslash ▸ .lastLine hcomments hend hl⟩
        · exact ⟨hx, c :: _, rfl, hslash ▸ .line hcomments hbody hrest⟩
      case isFalse =>
        split at h
        case isTrue hstar =>
          obtain ⟨hx, _, rfl, body, rest, rfl, hbody, hrest⟩ := ih h fun _ => hcomments
          exact ⟨hx, c :: _, rfl, hstar ▸ .block hcomments hbody hrest⟩
        case isFalse => cases h
    | line =>
      obtain ⟨hx, l, rfl, hl⟩ := ih (by rwa [Lexeme.skipTrivia] at h) fun _ => hm (by simp)
      refine ⟨hx, c :: l, rfl, ?_⟩
      by_cases hc : c = '\n'
      · rw [if_pos hc] at hl
        exact .inr ⟨[], l, by rw [hc]; rfl, by simp, hl⟩
      · rw [if_neg hc] at hl
        exact hl.cons_line hc
    | block =>
      obtain ⟨hx, l, rfl, hl⟩ := ih (by rwa [Lexeme.skipTrivia] at h) fun _ => hm (by simp)
      refine ⟨hx, c :: l, rfl, ?_⟩
      by_cases hc : c = '*'
      · simpa [hc, Skips] using hl
      · rw [if_neg hc] at hl
        exact hl.cons_block hc
    | star =>
      obtain ⟨hx, l, rfl, hl⟩ := ih (by rwa [Lexeme.skipTrivia] at h) fun _ => hm (by simp)
      refine ⟨hx, c :: l, rfl, ?_⟩
      by_cases hc : c = '/'
      · rw [if_pos hc] at hl
        exact ⟨[], l, by rw [hc]; rfl, by simp, hl⟩
      · rw [if_neg hc] at hl
        exact hl.cons_star hc

/-- What a scan skips is trivia, and the rest is solid. -/
theorem exists_isTrivia_of_skipTrivia
    (h : Lexeme.skipTrivia comments .between s cs = .ok (s', x)) :
    Solid comments x ∧ ∃ l, cs = l ++ x ∧ IsTrivia comments x.isEmpty l :=
  exists_skips_of_skipTrivia h fun hm => absurd rfl hm

end TimedMachine.Grammar
