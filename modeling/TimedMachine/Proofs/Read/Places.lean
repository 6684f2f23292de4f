import TimedMachine.Proofs.Read.Document
import Mathlib.Data.List.Induction

/-!
# Places and what a scan looks at

`locate` says where a character of a text stands, without going through the text as a scan does:
its line is one more than the number of line feeds before it, and its column one more than the
number of characters since the last of them.

A scan keeps account of its place as it goes. Skipping trivia and cutting off a lexeme both take a
piece off the beginning of the text, at whose end the scan then stands, and what they do depends on
that piece and the one character after it only.
-/

namespace TimedMachine

/-! ## Places -/

/-- The place of the character at index `i` of a text. -/
def locate (cs : List Char) (i : Nat) : Span where
  line := 1 + (cs.take i).count '\n'
  column := 1 + ((cs.take i).reverse.takeWhile (· ≠ '\n')).length

/-- The place after a run of characters at the start of a text. -/
theorem Span.after_start (cs : List Char) :
    Span.start.after cs = ⟨1 + cs.count '\n', 1 + (cs.reverse.takeWhile (· ≠ '\n')).length⟩ := by
  induction cs using List.reverseRecOn with
  | nil => rfl
  | append_singleton cs c ih =>
    rw [Span.after_append, ih, Span.after_cons, Span.after_nil, Span.next]
    by_cases hc : c = '\n'
    · simp [hc, Nat.add_assoc]
    · simp [hc, Nat.add_comm]

theorem locate_length_append (before rest : List Char) :
    locate (before ++ rest) before.length = Span.start.after before := by
  rw [Span.after_start, locate, List.take_left]

namespace Grammar

variable {comments : Bool} {s s' : Span} {c : Char} {cs x : List Char}

/-! ## Trivia -/

/-- What a text that a scan has come to may be, for a fault to be reported there. -/
def FaultAt : ReadError → List Char → Prop
  | .unexpectedEof _, x => x = []
  | .unexpectedChar _ found _, x => x.head? = some found
  | .depthLimitExceeded _ _, x => x.head? = some '\x7b' ∨ x.head? = some '['
  | .duplicateKey _ _, x | .invalidString _ _ _, x => x.head? = some '"'
  | .invalidNumber _ literal, x => literal.toList <+: x
  | .invalidLiteral _, x => x.head? = some 't' ∨ x.head? = some 'f' ∨ x.head? = some 'n'
  | .trailingCharacters _, x => x ≠ []

/-- The outcome of skipping trivia off a text, at the end of which the scan has come to `rest`. -/
inductive Skipped (s : Span) (rest : List Char) : Except ReadError (Span × List Char) → Prop
  | ok : Skipped s rest (.ok (s, rest))
  | error {e : ReadError} (hspan : e.span = s) (hfault : FaultAt e rest) :
      Skipped s rest (.error e)

/-- The same outcome for a text that goes on with `y`. -/
def goOnWith (y : List Char) (r : Except ReadError (Span × List Char)) :
    Except ReadError (Span × List Char) := r.map fun p => (p.1, y)

/-- Skipping trivia takes a piece off a text and ends at the place after the piece. Nothing after
the next character has a part in it. -/
theorem exists_skipped (comments : Bool) (m : Lexeme.Trivia) (s : Span) (cs : List Char) :
    ∃ before rest, cs = before ++ rest ∧
      Skipped (s.after before) rest (Lexeme.skipTrivia comments m s cs) ∧
      ∀ c x, rest = c :: x → ∀ y, Lexeme.skipTrivia comments m s (before ++ c :: y) =
        goOnWith (c :: y) (Lexeme.skipTrivia comments m s cs) := by
  induction cs generalizing m s with
  | nil =>
    refine ⟨[], [], rfl, ?_, nofun⟩
    cases m with
    | between | line => exact .ok
    | slash | block | star => exact .error rfl rfl
  | cons c cs ih =>
    -- the scan either goes on after the character, standing in other trivia, or it ends at it
    have goesOn (m' : Lexeme.Trivia)
        (h : ∀ ds, Lexeme.skipTrivia comments m s (c :: ds) =
          Lexeme.skipTrivia comments m' (s.next c) ds) :
        ∃ before rest, c :: cs = before ++ rest ∧
          Skipped (s.after before) rest (Lexeme.skipTrivia comments m s (c :: cs)) ∧
          ∀ d x, rest = d :: x → ∀ y, Lexeme.skipTrivia comments m s (before ++ d :: y) =
            goOnWith (d :: y) (Lexeme.skipTrivia comments m s (c :: cs)) := by
      obtain ⟨before, rest, rfl, hskipped, hlocal⟩ := ih m' (s.next c)
      refine ⟨c :: before, rest, rfl, by rwa [h], fun d x hx y => ?_⟩
      rw [List.cons_append, h, h, hlocal d x hx]
    cases m with
    | between =>
      by_cases hblank : Lexeme.isJsonBlank c
      · exact goesOn .between fun ds => by rw [Lexeme.skipTrivia, if_pos hblank]
      · by_cases hslash : c = '/' ∧ comments
        · exact goesOn .slash fun ds => by rw [Lexeme.skipTrivia, if_neg hblank, if_pos hslash]
        · have hends : ∀ ds, Lexeme.skipTrivia comments .between s (c :: ds) = .ok (s, c :: ds) :=
            fun ds => by rw [Lexeme.skipTrivia, if_neg hblank, if_neg hslash]
          refine ⟨[], c :: cs, rfl, by rw [hends]; exact .ok, ?_⟩
          rintro _ _ ⟨⟩ y
          rw [List.nil_append, hends, hends]
          rfl
    | slash =>
      by_cases hslash : c = '/'
      · exact goesOn .line fun ds => by rw [Lexeme.skipTrivia, if_pos hslash]
      · by_cases hstar : c = '*'
        · exact goesOn .block fun ds => by rw [Lexeme.skipTrivia, if_neg hslash, if_pos hstar]
        · have hends : ∀ ds, Lexeme.skipTrivia comments .slash s (c :: ds) =
              .error (.unexpectedChar s c .commentMark) :=
            fun ds => by rw [Lexeme.skipTrivia, if_neg hslash, if_neg hstar]
          refine ⟨[], c :: cs, rfl, by rw [hends]; exact .error rfl rfl, ?_⟩
          rintro _ _ ⟨⟩ y
          rw [List.nil_append, hends, hends]
          rfl
    | line => exact goesOn _ fun ds => by rw [Lexeme.skipTrivia]
    | block => exact goesOn _ fun ds => by rw [Lexeme.skipTrivia]
    | star => exact goesOn _ fun ds => by rw [Lexeme.skipTrivia]

/-! ## Lexemes -/

/-- Whether a character begins a number or a word. -/
def BeginsScalar (c : Char) : Prop := (c = '-' ∨ c.isDigit) ∨ (c = 't' ∨ c = 'f' ∨ c = 'n')

/-- What a lexeme is, as far as its first character tells. -/
inductive FormOf (c : Char) : Lexeme.Form → Prop
  | string (v : Except ReadError String) (hc : c = '"') : FormOf c (.string v)
  | scalar (v : Except ReadError Scalar) (hquote : c ≠ '"') (hc : BeginsScalar c) :
      FormOf c (.scalar v)
  | mark {f : Lexeme.Form} (hf : f = Lexeme.markForm c) (hquote : c ≠ '"')
      (hscalar : ¬BeginsScalar c) : FormOf c f

/-- A mark is no literal. -/
theorem markForm_ne_literal (c : Char) :
    (∀ v, Lexeme.markForm c ≠ .string v) ∧ ∀ v, Lexeme.markForm c ≠ .scalar v := by
  unfold Lexeme.markForm
  split <;> exact ⟨nofun, nofun⟩

theorem formOf_numberForm (hquote : c ≠ '"') (hc : BeginsScalar c) (ds : List Char) :
    FormOf c (Lexeme.numberForm s ds) := by
  unfold Lexeme.numberForm
  split <;> exact .scalar _ hquote hc

theorem formOf_wordForm (hquote : c ≠ '"') (hc : BeginsScalar c) (ds : List Char) :
    FormOf c (Lexeme.wordForm s ds) := by
  unfold Lexeme.wordForm
  split
  · exact .scalar _ hquote hc
  · split
    · exact .scalar _ hquote hc
    · split <;> exact .scalar _ hquote hc

theorem formOf_cut (s : Span) (c : Char) (cs : List Char) : FormOf c (Lexeme.cut s c cs).form := by
  unfold Lexeme.cut
  by_cases hquote : c = '"'
  · rw [if_pos hquote]
    split
    · unfold Lexeme.stringForm
      split <;> exact .string _ hquote
    · exact .string _ hquote
  · rw [if_neg hquote]
    by_cases hnumber : c = '-' ∨ c.isDigit
    · rw [if_pos hnumber]
      exact formOf_numberForm hquote (.inl hnumber) _
    · rw [if_neg hnumber]
      by_cases hword : c = 't' ∨ c = 'f' ∨ c = 'n'
      · rw [if_pos hword]
        exact formOf_wordForm hquote (.inr hword) _
      · rw [if_neg hword]
        exact .mark rfl hquote fun h => h.elim hnumber hword

/-- A run of characters of a kind ends at the first character of another kind, whatever comes
after it. -/
theorem takeWhile_dropWhile_of_eq_cons {p : Char → Bool} {y : List Char}
    (h : cs.dropWhile p = c :: x) :
    (cs.takeWhile p ++ c :: y).takeWhile p = cs.takeWhile p ∧
      (cs.takeWhile p ++ c :: y).dropWhile p = c :: y := by
  have hstop : Stops p (c :: y) := by
    rintro _ ⟨⟩
    have hne : cs.dropWhile p ≠ [] := by simp [h]
    have hhead := List.head_dropWhile_not p hne
    simpa [h] using hhead
  have hall : ∀ d ∈ cs.takeWhile p, p d := fun _ hd => List.mem_takeWhile_imp hd
  exact ⟨takeWhile_append_of_stops hall hstop, dropWhile_append_of_stops hall hstop⟩

/-- Cutting off a lexeme looks at most at the character after it. -/
theorem cut_of_rest_eq {before y : List Char} {d : Char}
    (h : (Lexeme.cut s c cs).rest = before ++ d :: x) :
    Lexeme.cut s c ((Lexeme.cut s c cs).taken ++ (before ++ d :: y)) =
      ⟨(Lexeme.cut s c cs).form, (Lexeme.cut s c cs).taken, before ++ d :: y⟩ := by
  -- the rest begins with the same character in both texts
  obtain ⟨a, w, z, hx, hy⟩ : ∃ a w z, before ++ d :: x = a :: w ∧ before ++ d :: y = a :: z := by
    cases before with
    | nil => exact ⟨d, x, y, rfl, rfl⟩
    | cons b before => exact ⟨b, _, _, rfl, rfl⟩
  rw [hx] at h
  rw [hy]
  unfold Lexeme.cut at h ⊢
  by_cases hquote : c = '"'
  · rw [if_pos hquote] at h ⊢
    rw [if_pos hquote]
    cases hsplit : Json.Quoted.splitQuoted cs with
    | none => simp [hsplit] at h
    | some p =>
      obtain ⟨body, rest⟩ := p
      have hbody := splitQuoted_append (x := a :: z) (isStringBody_of_splitQuoted hsplit)
      simp [hbody]
  · rw [if_neg hquote] at h ⊢
    rw [if_neg hquote]
    by_cases hnumber : c = '-' ∨ c.isDigit
    · rw [if_pos hnumber] at h ⊢
      rw [if_pos hnumber]
      obtain ⟨htake, hdrop⟩ := takeWhile_dropWhile_of_eq_cons (y := z) h
      rw [htake, hdrop]
    · rw [if_neg hnumber] at h ⊢
      rw [if_neg hnumber]
      by_cases hword : c = 't' ∨ c = 'f' ∨ c = 'n'
      · rw [if_pos hword] at h ⊢
        rw [if_pos hword]
        obtain ⟨htake, hdrop⟩ := takeWhile_dropWhile_of_eq_cons (y := z) h
        rw [htake, hdrop]
      · rw [if_neg hword] at h ⊢
        rw [if_neg hword]
        rfl

end Grammar

/-! ## A whole text -/

namespace Reading

open Grammar

variable {limits : Limits} {comments : Bool} {s s' : Span} {c : Char} {cs x : List Char}
  {r : Reading}

/-- After the mark that opens an array, what does not close it begins an item. -/
theorem step_firstItem {f : Lexeme.Form} (hf : f ≠ .closeArray) (span : Span)
    (up : List OpenContainer) : step limits ⟨s, c, f⟩ (.firstItem span up) =
      beginValue limits ⟨s, c, f⟩ (.array span [] :: up) := by
  cases f <;> first | rfl | exact absurd rfl hf

/-- After the mark that opens an object, what does not close it begins a member. -/
theorem step_firstKey {f : Lexeme.Form} (hf : f ≠ .closeObject) (span : Span)
    (up : List OpenContainer) : step limits ⟨s, c, f⟩ (.firstKey span up) =
      beginMember limits ⟨s, c, f⟩ span [] up := by
  cases f <;> first | rfl | exact absurd rfl hf

/-- The first lexeme is taken in, and then the rest is read, unless it is refused. -/
theorem resume_of_cons (h : Lexeme.skipTrivia comments .between s cs = .ok (s', c :: x)) :
    resume limits comments s cs r =
      (step limits ⟨s', c, (Lexeme.cut s' c x).form⟩ r).bind
        (resume limits comments (s'.after (c :: (Lexeme.cut s' c x).taken))
          (Lexeme.cut s' c x).rest) := by
  unfold resume
  rw [Lexeme.scan]
  split
  · next h' => cases h.symm.trans h'
  · next h' => cases h.symm.trans h'
  · next h' =>
    cases h.symm.trans h'
    simp only [run]
    cases step limits ⟨s', c, (Lexeme.cut s' c x).form⟩ r <;> rfl

end Reading

end TimedMachine
