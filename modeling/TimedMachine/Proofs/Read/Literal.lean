import TimedMachine.Proofs.Read.Trivia
import Mathlib.Data.List.TakeDrop
import Mathlib.Data.List.TakeWhile

/-!
# Cutting off lexemes

`Lexeme.cut` takes a lexeme off the beginning of a text. Where the lexeme is a literal without a
fault, what it took is the literal of the grammar with the same value; and it takes a literal of
the grammar whole where nothing follows that could go on with it (`Ended`). A mark is taken alone.
-/

namespace TimedMachine.Grammar

open Number

variable {cs ds x body : List Char} {l : Literal} {s : Span} {c : Char}

/-! ## Runs of characters of a kind -/

/-- Whether no character of a kind comes first in a text. -/
def Stops (p : Char → Bool) (x : List Char) : Prop := ∀ c ∈ x.head?, p c = false

section Runs

variable {p : Char → Bool}

/-- A run of characters of a kind ends where the kind does. -/
theorem takeWhile_append_of_stops (hds : ∀ c ∈ ds, p c) (hx : Stops p x) :
    (ds ++ x).takeWhile p = ds := by
  rw [List.takeWhile_append_of_pos hds]
  cases x with
  | nil => simp
  | cons c x => simp [hx c rfl]

/-- What follows a run of characters of a kind. -/
theorem dropWhile_append_of_stops (hds : ∀ c ∈ ds, p c) (hx : Stops p x) :
    (ds ++ x).dropWhile p = x := by
  rw [List.dropWhile_append_of_pos hds]
  cases x with
  | nil => rfl
  | cons c x => simp [hx c rfl]

/-- A text is cut after its run of characters of a kind. -/
theorem span_append_of_stops (hds : ∀ c ∈ ds, p c) (hx : Stops p x) :
    (ds ++ x).span p = (ds, x) := by
  rw [List.span_eq_takeWhile_dropWhile, takeWhile_append_of_stops hds hx,
    dropWhile_append_of_stops hds hx]

/-- Two runs of characters of a kind that begin the same text are the same, if both are complete. -/
theorem append_inj_of_stops {ds' y : List Char} (hds : ∀ c ∈ ds, p c) (hds' : ∀ c ∈ ds', p c)
    (hx : Stops p x) (hy : Stops p y) (h : ds ++ x = ds' ++ y) : ds = ds' ∧ x = y := by
  have hspan : (ds, x) = (ds', y) := by
    rw [← span_append_of_stops hds hx, ← span_append_of_stops hds' hy, h]
  exact Prod.mk.inj hspan

/-- The two parts that a text is cut into. -/
theorem append_of_span (h : cs.span p = (ds, x)) : cs = ds ++ x ∧ ∀ c ∈ ds, p c := by
  rw [List.span_eq_takeWhile_dropWhile] at h
  cases h
  exact ⟨List.takeWhile_append_dropWhile.symm, fun _ hc => List.mem_takeWhile_imp hc⟩

end Runs

/-! ## Numbers -/

/-- What is read as an exponent is one. -/
theorem isExponent_of_ofChars? {c : Char} {e : Bool × List Char} (hc : c = 'e' ∨ c = 'E')
    (h : exponentOfChars? cs = some e) : IsExponent (c :: cs) (some e) := by
  unfold exponentOfChars? at h
  split at h
  next negative digits hsign =>
  split at h
  case isFalse => cases h
  case isTrue hdigits =>
    cases h
    have hdigits : IsDigits digits := ⟨hdigits.1, List.all_eq_true.1 hdigits.2⟩
    split at hsign <;> cases hsign
    · exact .minus hc hdigits
    · exact .plus hc hdigits
    · exact .unsigned hc hdigits

/-- What is read as a number literal is one, and has the parts that were read. -/
theorem isNumber_of_ofChars? (h : Literal.ofChars? cs = some l) : IsNumber cs l := by
  unfold Literal.ofChars? at h
  split at h
  next negative unsigned hsign =>
  obtain ⟨sign, hcs, hnegative⟩ : ∃ sign, cs = sign ++ unsigned ∧ IsSign sign negative := by
    split at hsign <;> cases hsign
    · exact ⟨['-'], rfl, .minus⟩
    · exact ⟨[], rfl, .none⟩
  split at h
  next whole afterWhole hspan =>
  obtain ⟨rfl, hdigits⟩ := append_of_span hspan
  split at h
  case isTrue => cases h
  case isFalse hwhole =>
  obtain ⟨hne, hzero⟩ := not_or.1 hwhole
  have hwhole : IsWhole whole := by
    refine ⟨⟨hne, hdigits⟩, fun h => ?_⟩
    have hlength : whole.length = 1 := Decidable.not_not.1 fun hl => hzero ⟨h, hl⟩
    obtain ⟨c, rfl⟩ := List.length_eq_one_iff.1 hlength
    simpa using h
  split at h
  next fraction afterFraction hfraction =>
  split at h
  case isTrue => cases h
  case isFalse hsome =>
  obtain ⟨f, hf, hdecimals⟩ : ∃ f, afterWhole = f ++ afterFraction ∧ IsFraction f fraction := by
    split at hfraction
    · next tail =>
      obtain ⟨ds, r, htail⟩ : ∃ ds r, tail.span Char.isDigit = (ds, r) := ⟨_, _, rfl⟩
      rw [htail] at hfraction
      cases hfraction
      obtain ⟨rfl, hds⟩ := append_of_span htail
      exact ⟨'.' :: ds, rfl, .some ⟨fun h => hsome (by rw [h]), hds⟩⟩
    · cases hfraction
      exact ⟨[], rfl, .none⟩
  subst hcs hf
  split at h
  · cases h
    exact ⟨⟨sign, f, [], by simp, hnegative, hdecimals, .none⟩, hwhole⟩
  · next c r =>
    split at h
    case isFalse => cases h
    case isTrue hc =>
      obtain ⟨e, he, rfl⟩ := Option.map_eq_some_iff.1 h
      exact ⟨⟨sign, f, c :: r, by simp, hnegative, hdecimals, isExponent_of_ofChars? hc he⟩, hwhole⟩

/-- Digits begin with a digit. -/
theorem IsDigits.exists_cons (h : IsDigits ds) : ∃ d ds', ds = d :: ds' ∧ d.isDigit := by
  obtain ⟨d, ds', rfl⟩ := List.exists_cons_of_ne_nil h.1
  exact ⟨d, ds', rfl, h.2 d (by simp)⟩

/-- A sign is read as what it is, before digits. -/
theorem signSplit_of_isSign {sign : List Char} {negative : Bool} {r : Bool × List Char}
    (h : IsSign sign negative) (hds : IsDigits ds)
    (hr : (match sign ++ (ds ++ x) with | '-' :: r => (true, r) | r => (false, r)) = r) :
    r = (negative, ds ++ x) := by
  obtain ⟨d, ds, rfl, hd⟩ := hds.exists_cons
  cases h with
  | minus => exact hr.symm
  | none =>
    split at hr
    · next heq => cases heq; cases hd
    · exact hr.symm

/-- An exponent is read as what it is. -/
theorem ofChars?_of_isExponent {c : Char} {e : Bool × List Char}
    (h : IsExponent (c :: cs) (some e)) : (c = 'e' ∨ c = 'E') ∧ exponentOfChars? cs = some e := by
  cases h with
  | unsigned he hds =>
    refine ⟨he, ?_⟩
    obtain ⟨d, ds, rfl, hd⟩ := hds.exists_cons
    unfold exponentOfChars?
    split
    next negative digits heq =>
    split at heq
    · next h => cases h; cases hd
    · next h => cases h; cases hd
    · cases heq
      rw [if_pos ⟨hds.1, List.all_eq_true.2 hds.2⟩]
  | plus he hds => exact ⟨he, if_pos ⟨hds.1, List.all_eq_true.2 hds.2⟩⟩
  | minus he hds => exact ⟨he, if_pos ⟨hds.1, List.all_eq_true.2 hds.2⟩⟩

/-- An exponent is missing, or it is read as what it is. -/
theorem missing_or_read_of_isExponent {e : Option (Bool × List Char)} (h : IsExponent x e) :
    (x = [] ∧ e = none) ∨ ∃ c cs exponent, x = c :: cs ∧ e = some exponent ∧
      (c = 'e' ∨ c = 'E') ∧ exponentOfChars? cs = some exponent := by
  cases x with
  | nil =>
    cases h
    exact .inl ⟨rfl, rfl⟩
  | cons c cs =>
    obtain ⟨exponent, rfl⟩ : ∃ exponent, e = some exponent := by cases h <;> exact ⟨_, rfl⟩
    exact .inr ⟨c, cs, exponent, rfl, rfl, ofChars?_of_isExponent h⟩

/-- A number literal is read as its parts. -/
theorem ofChars?_of_isNumber (h : IsNumber cs l) : Literal.ofChars? cs = some l := by
  obtain ⟨negative, whole, fraction, exponent⟩ := l
  obtain ⟨⟨sign, f, e, rfl, hnegative, hdecimals, he⟩, hwhole⟩ := h
  dsimp only at hnegative hdecimals he hwhole ⊢
  have hdigit : Stops Char.isDigit e := by
    obtain ⟨rfl, -⟩ | ⟨c, cs, _, rfl, -, rfl | rfl, -⟩ := missing_or_read_of_isExponent he
    · exact nofun
    all_goals
      rintro _ ⟨⟩
      rfl
  have hf : Stops Char.isDigit (f ++ e) := by
    cases hdecimals with
    | none => exact hdigit
    | some _ =>
      rintro _ ⟨⟩
      rfl
  rw [List.append_assoc, List.append_assoc]
  unfold Literal.ofChars?
  split
  next hsign =>
  cases signSplit_of_isSign hnegative hwhole.1 hsign
  rw [span_append_of_stops hwhole.1.2 hf]
  dsimp only
  rw [if_neg fun h => h.elim hwhole.1.1 fun h => h.2 (by rw [hwhole.2 h.1]; rfl)]
  -- The fraction and the exponent may each be missing.
  cases hdecimals with
  | none =>
    obtain ⟨rfl, rfl⟩ | ⟨c, cs, _, rfl, rfl, hc, hread⟩ := missing_or_read_of_isExponent he
    · rfl
    · obtain rfl | rfl := hc <;> simp [hread]
  | some hds =>
    rw [List.cons_append]
    simp only
    rw [span_append_of_stops hds.2 hdigit]
    rw [if_neg fun h => hds.1 (Option.some.inj h)]
    obtain ⟨rfl, rfl⟩ | ⟨c, cs, _, rfl, rfl, hc, hread⟩ := missing_or_read_of_isExponent he
    · rfl
    · simp [hc, hread]

/-! ## Strings -/

/-- The body of a string literal ends at the first quote that no backslash escapes. -/
theorem splitQuoted_append (h : IsStringBody body) :
    Json.Quoted.splitQuoted (body ++ '"' :: x) = some (body, x) := by
  induction h with
  | nil => rfl
  | @plain c cs hquote hbackslash _ ih =>
    rw [List.cons_append, Json.Quoted.splitQuoted, ih]
    · rfl
    · exact hquote
    · exact fun h _ => hbackslash h
    · exact fun _ _ h _ => hbackslash h
  | @escaped c cs _ ih =>
    rw [List.cons_append, List.cons_append, Json.Quoted.splitQuoted, ih]
    rfl

/-- What is cut off before a closing quote is the body of a string literal. -/
theorem isStringBody_of_splitQuoted (h : Json.Quoted.splitQuoted cs = some (body, x)) :
    IsStringBody body := by
  fun_induction Json.Quoted.splitQuoted cs generalizing body x with
  | case1 => cases h
  | case2 =>
    cases h
    exact .nil
  | case3 => cases h
  | case4 c cs ih =>
    obtain ⟨⟨b, r⟩, hb, h⟩ := Option.map_eq_some_iff.1 h
    cases h
    exact .escaped (ih hb)
  | case5 c cs hquote hlast hescape ih =>
    obtain ⟨⟨b, r⟩, hb, h⟩ := Option.map_eq_some_iff.1 h
    cases h
    refine .plain hquote (fun hc => ?_) (ih hb)
    cases cs with
    | nil => exact hlast hc rfl
    | cons d cs => exact hescape d cs hc rfl

/-! ## Literals are cut off whole -/

/-- A string literal is cut off whole and means what its body decodes to. -/
theorem cut_of_isString {k : String} (h : IsString (c :: ds) k) :
    Lexeme.cut s c (ds ++ x) = ⟨.string (.ok k), ds, x⟩ := by
  obtain ⟨body, heq, hbody, hdecode⟩ := h
  obtain ⟨rfl, rfl⟩ : c = '"' ∧ ds = body ++ ['"'] := List.cons.inj heq
  have hsplit : Json.Quoted.splitQuoted (body ++ ['"'] ++ x) = some (body, x) := by
    rw [List.append_assoc]
    exact splitQuoted_append hbody
  rw [Lexeme.cut, if_pos rfl, hsplit]
  simp [Lexeme.stringForm, hdecode]

/-- Whether nothing comes first in a text that a number or a word could go on with. -/
def Ended (x : List Char) : Prop := Stops Lexeme.isNumberChar x ∧ Stops isNameChar x

/-- A sign or a digit comes first in a number literal. -/
theorem IsNumber.head (h : IsNumber (c :: cs) l) : c = '-' ∨ c.isDigit := by
  obtain ⟨⟨sign, f, e, heq, hsign, -, -⟩, hwhole⟩ := h
  obtain ⟨d, ds, hds, hd⟩ := hwhole.1.exists_cons
  rw [hds] at heq
  generalize l.negative = negative at hsign
  cases hsign <;> cases heq
  · exact .inr hd
  · exact .inl rfl

/-- Digits are characters of numbers. -/
theorem IsDigits.isNumberChar (h : IsDigits ds) : ∀ d ∈ ds, Lexeme.isNumberChar d :=
  fun d hd => by simp [Lexeme.isNumberChar, h.2 d hd]

/-- All characters of a number literal are characters of numbers. -/
theorem IsNumber.isNumberChar (h : IsNumber cs l) : ∀ d ∈ cs, Lexeme.isNumberChar d := by
  obtain ⟨negative, whole, fraction, exponent⟩ := l
  obtain ⟨⟨sign, f, e, rfl, hsign, hf, he⟩, hwhole⟩ := h
  have hsign : ∀ d ∈ sign, Lexeme.isNumberChar d := by
    cases hsign <;> simp [Lexeme.isNumberChar]
  have hf : ∀ d ∈ f, Lexeme.isNumberChar d := by
    cases hf with
    | none => simp
    | some hds => exact List.forall_mem_cons.2 ⟨rfl, hds.isNumberChar⟩
  have he : ∀ d ∈ e, Lexeme.isNumberChar d := by
    cases he with
    | none => simp
    | unsigned he hds =>
      exact List.forall_mem_cons.2 ⟨by obtain rfl | rfl := he <;> rfl, hds.isNumberChar⟩
    | plus he hds | minus he hds =>
      exact List.forall_mem_cons.2 ⟨by obtain rfl | rfl := he <;> rfl,
        List.forall_mem_cons.2 ⟨rfl, hds.isNumberChar⟩⟩
  have hwhole := hwhole.1.isNumberChar
  simp only [List.mem_append]
  rintro d (((hd | hd) | hd) | hd)
  exacts [hsign d hd, hwhole d hd, hf d hd, he d hd]

/-- A number that ends with its literal is cut off whole. -/
theorem cut_of_isNumber {y : Float} (h : IsNumber (c :: ds) l) (hy : l.toFloat? = some y)
    (hx : Ended x) : Lexeme.cut s c (ds ++ x) = ⟨.scalar (.ok (.number y)), ds, x⟩ := by
  have hhead := h.head
  have hquote : c ≠ '"' := by
    rintro rfl
    exact hhead.elim nofun nofun
  have hchars : ∀ d ∈ ds, Lexeme.isNumberChar d :=
    fun d hd => h.isNumberChar d (List.mem_cons_of_mem _ hd)
  rw [Lexeme.cut, if_neg hquote, if_pos hhead, takeWhile_append_of_stops hchars hx.1,
    dropWhile_append_of_stops hchars hx.1]
  simp [Lexeme.numberForm, ofChars?_of_isNumber h, hy]

/-- A literal other than a string is cut off whole where it ends. -/
theorem cut_of_isScalar {v : Scalar} (h : IsScalar (c :: ds) v) (hx : Ended x) :
    Lexeme.cut s c (ds ++ x) = ⟨.scalar (.ok v), ds, x⟩ := by
  cases h with
  | number hl hy => exact cut_of_isNumber hl hy hx
  | null | true | false =>
    rw [Lexeme.cut, if_neg (by decide), if_neg (by decide), if_pos (by decide),
      takeWhile_append_of_stops (List.all_eq_true.1 rfl) hx.2,
      dropWhile_append_of_stops (List.all_eq_true.1 rfl) hx.2]
    rfl

/-- A mark is cut off alone. -/
theorem cut_of_mark (h : c ∈ ['\x7b', '\x7d', '[', ']', ':', ',']) :
    Lexeme.cut s c cs = ⟨Lexeme.markForm c, [], cs⟩ := by
  simp only [List.mem_cons, List.not_mem_nil, or_false] at h
  obtain rfl | rfl | rfl | rfl | rfl | rfl := h <;> rfl

/-! ## What is cut off -/

/-- What a lexeme that begins with `c` can be: a literal of the grammar, a literal with a fault, or
what `c` is alone. -/
inductive Cuts : Char → List Char → Lexeme.Cut → Prop
  | string {c : Char} {ds x : List Char} {k : String} (h : IsString (c :: ds) k) :
      Cuts c (ds ++ x) ⟨.string (.ok k), ds, x⟩
  | scalar {c : Char} {ds x : List Char} {v : Scalar} (h : IsScalar (c :: ds) v) :
      Cuts c (ds ++ x) ⟨.scalar (.ok v), ds, x⟩
  | badString {c : Char} {ds x : List Char} (e : ReadError) :
      Cuts c (ds ++ x) ⟨.string (.error e), ds, x⟩
  | badScalar {c : Char} {ds x : List Char} (e : ReadError) :
      Cuts c (ds ++ x) ⟨.scalar (.error e), ds, x⟩
  | mark {c : Char} {cs : List Char} : Cuts c cs ⟨Lexeme.markForm c, [], cs⟩

/-- A quoted text is a string literal or has a fault. -/
theorem cuts_stringForm (h : Json.Quoted.splitQuoted cs = some (body, x)) :
    Cuts '"' cs ⟨Lexeme.stringForm s body, body ++ ['"'], x⟩ := by
  obtain rfl : cs = body ++ ['"'] ++ x := by simp [Lexeme.append_of_splitQuoted h]
  unfold Lexeme.stringForm
  split
  · next ds hdecode =>
    exact .string ⟨body, rfl, isStringBody_of_splitQuoted h, by simp [hdecode]⟩
  · exact .badString _

/-- What is taken for a number is a number literal or has a fault. -/
theorem cuts_numberForm (h : ds ++ x = cs) :
    Cuts c cs ⟨Lexeme.numberForm s (c :: ds), ds, x⟩ := by
  subst h
  unfold Lexeme.numberForm
  split
  · next y hy =>
    obtain ⟨l, hl, hy⟩ := Option.bind_eq_some_iff.1 hy
    exact .scalar (.number (isNumber_of_ofChars? hl) hy)
  · exact .badScalar _

/-- What is taken for a word is one of the three or has a fault. -/
theorem cuts_wordForm (h : ds ++ x = cs) :
    Cuts c cs ⟨Lexeme.wordForm s (c :: ds), ds, x⟩ := by
  subst h
  unfold Lexeme.wordForm
  split
  · next h => exact .scalar (h ▸ .true)
  · split
    · next h => exact .scalar (h ▸ .false)
    · split
      · next h => exact .scalar (h ▸ .null)
      · exact .badScalar _

/-- What is cut off a text. -/
theorem cuts_cut (s : Span) (c : Char) (cs : List Char) : Cuts c cs (Lexeme.cut s c cs) := by
  unfold Lexeme.cut
  split
  case isTrue hc =>
    subst hc
    split
    · next h => exact cuts_stringForm h
    · have hbad := @Cuts.badString '"' cs [] (.unexpectedEof (s.after ('"' :: cs)))
      rwa [List.append_nil] at hbad
  case isFalse =>
    split
    · exact cuts_numberForm List.takeWhile_append_dropWhile
    · split
      · exact cuts_wordForm List.takeWhile_append_dropWhile
      · exact .mark

/-- A lexeme that is what a mark is alone is that mark. -/
theorem Cuts.eq_mark {k : Lexeme.Cut} {d : Char} (hcut : Cuts c cs k)
    (h : k.form = Lexeme.markForm d) (hd : d ∈ ['\x7b', '\x7d', '[', ']', ':', ',']) :
    c = d ∧ k.rest = cs := by
  simp only [List.mem_cons, List.not_mem_nil, or_false] at hd
  cases hcut with
  | mark =>
    refine ⟨?_, rfl⟩
    dsimp only at h
    unfold Lexeme.markForm at h
    obtain rfl | rfl | rfl | rfl | rfl | rfl := hd <;> split at h <;> first | rfl | cases h
  | _ => obtain rfl | rfl | rfl | rfl | rfl | rfl := hd <;> cases h

/-! ## What comes first in a literal -/

/-- A text that begins with a lexeme: neither a blank nor a slash comes first. -/
def Begins (x : List Char) : Prop :=
  ∃ c cs, x = c :: cs ∧ Lexeme.isJsonBlank c = false ∧ c ≠ '/'

/-- No trivia come first in a text that begins with a lexeme. -/
theorem Begins.solid {comments : Bool} (h : Begins x) : Solid comments x := by
  obtain ⟨c, cs, rfl, hblank, hslash⟩ := h
  rintro _ ⟨⟩
  exact ⟨hblank, fun h => hslash h.1⟩

/-- Trivia are skipped up to the lexeme that a text begins with. -/
theorem Begins.exists_skipTrivia {comments : Bool} {before : List Char} (hx : Begins x)
    (hbefore : IsTrivia comments false before) (s : Span) :
    ∃ s', Lexeme.skipTrivia comments .between s (before ++ x) = .ok (s', x) := by
  have hsolid : Solid comments x := hx.solid
  obtain ⟨c, cs, rfl, -⟩ := hx
  exact exists_skipTrivia_append hbefore hsolid s

/-- A string literal begins with its quote. -/
theorem IsString.begins {k : String} (h : IsString cs k) : Begins (cs ++ x) := by
  obtain ⟨body, rfl, -⟩ := h
  exact ⟨'"', _, rfl, rfl, by decide⟩

/-- A number literal begins with a sign or a digit. -/
theorem IsNumber.begins (h : IsNumber cs l) : Begins (cs ++ x) := by
  cases cs with
  | nil =>
    obtain ⟨⟨_, _, _, heq, -⟩, hwhole⟩ := h
    have hnil : l.whole = [] := by simp_all
    exact absurd hnil hwhole.1.1
  | cons c cs =>
    refine ⟨c, _, rfl, ?_⟩
    obtain rfl | hc := h.head
    · decide
    · refine ⟨Bool.eq_false_iff.2 fun hblank => ?_, ?_⟩
      · simp only [Lexeme.isJsonBlank, Bool.or_eq_true, beq_iff_eq] at hblank
        obtain ((rfl | rfl) | rfl) | rfl := hblank <;> cases hc
      · rintro rfl
        cases hc

/-- A literal other than a string begins with a sign, a digit or a letter. -/
theorem IsScalar.begins {v : Scalar} (h : IsScalar cs v) : Begins (cs ++ x) := by
  cases h with
  | number hl => exact hl.begins
  | null | true | false => exact ⟨_, _, rfl, rfl, by decide⟩

/-- A string literal is not empty. -/
theorem IsString.exists_cons {k : String} (h : IsString cs k) : ∃ c ds, cs = c :: ds := by
  obtain ⟨c, ds, hcs, -⟩ := h.begins (x := [])
  exact ⟨c, ds, by simpa using hcs⟩

/-- A literal other than a string is not empty. -/
theorem IsScalar.exists_cons {v : Scalar} (h : IsScalar cs v) : ∃ c ds, cs = c :: ds := by
  obtain ⟨c, ds, hcs, -⟩ := h.begins (x := [])
  exact ⟨c, ds, by simpa using hcs⟩

end TimedMachine.Grammar
