import Mathlib.Data.List.Basic
import TimedMachine.Yaml.Token

/-!
# Lines of block style

A text that is made up of sections, each a title and under it the lines of its fields, has the
tokens of a mapping of mappings. Titles, names and values are words, whose characters stand for
themselves wherever they are (`IsWord`).

The scanner is followed from line to line. `Scan.Reaches` says that it comes from one place to
another, and `Scan.inBlocks` is what it knows where a line begins or a value is due. A plain scalar
goes over the line break after it and up to the next word, but the place at the beginning of the
line does as well, as blanks are skipped anyway (`Scan.run?_congr`).
-/

namespace TimedMachine.Yaml

/-! ## Words -/

/-- A character that means nothing but itself wherever it stands. -/
def isLetter (c : Char) : Bool := c.isAlphanum || c == '_'

/-- Words are made up of letters. -/
structure IsWord (w : List Char) : Prop where
  ne_nil : w ≠ []
  letters : ∀ c ∈ w, isLetter c

theorem isWord_iff {w : List Char} : IsWord w ↔ w ≠ [] ∧ w.all isLetter :=
  ⟨fun h => ⟨h.1, List.all_eq_true.mpr h.2⟩, fun h => ⟨h.1, List.all_eq_true.mp h.2⟩⟩

instance (w : List Char) : Decidable (IsWord w) := decidable_of_iff _ isWord_iff.symm

/-- The text does not go on with anything but a letter. -/
def BeginsWord (cs : List Char) : Prop := ∀ c ∈ cs.head?, isLetter c

section Letters

variable {c : Char} {cs w rest : List Char}

theorem ne_of_isLetter {d : Char} (h : isLetter c) (hd : isLetter d = false) : c ≠ d := by
  rintro rfl
  exact Bool.false_ne_true (hd.symm.trans h)

theorem isBreak_of_isLetter (h : isLetter c) : isBreak c = false := by
  simp (disch := decide) [isBreak, ne_of_isLetter h]

theorem isWhite_of_isLetter (h : isLetter c) : isWhite c = false := by
  simp (disch := decide) [isWhite, ne_of_isLetter h]

theorem isPermitted_of_isLetter (h : isLetter c) : isPermitted c := by
  have hupper (h : c.isUpper) : 65 ≤ c.toNat ∧ c.toNat ≤ 90 := by
    have hbounds : c.val ≥ 'A'.val ∧ c.val ≤ 'Z'.val := of_decide_eq_true h
    exact ⟨UInt32.le_iff_toNat_le.mp hbounds.1, UInt32.le_iff_toNat_le.mp hbounds.2⟩
  have hlower (h : c.isLower) : 97 ≤ c.toNat ∧ c.toNat ≤ 122 := by
    obtain ⟨hlow, hhigh⟩ := (Bool.and_eq_true _ _).mp h
    exact ⟨UInt32.le_iff_toNat_le.mp (of_decide_eq_true hlow),
      UInt32.le_iff_toNat_le.mp (of_decide_eq_true hhigh)⟩
  have hdigit (h : c.isDigit) : 48 ≤ c.toNat ∧ c.toNat ≤ 57 := Char.isDigit_iff_toNat.mp h
  rcases Bool.or_eq_true_iff.mp h with halphanum | hunderscore
  · have hprintable : 0x20 ≤ c.toNat ∧ c.toNat ≤ 0x7e := by
      rcases Bool.or_eq_true_iff.mp halphanum with halpha | h
      · rcases Bool.or_eq_true_iff.mp halpha with h | h
        · have := hupper h
          omega
        · have := hlower h
          omega
      · have := hdigit h
        omega
    simp [isPermitted, hprintable]
  · rw [beq_iff_eq.mp hunderscore]
    rfl

theorem IsWord.length_pos (hw : IsWord w) : 0 < w.length := List.length_pos_iff.mpr hw.ne_nil

theorem IsWord.beginsWord (hw : IsWord w) : BeginsWord (w ++ rest) := by
  cases w with
  | nil => exact absurd rfl hw.ne_nil
  | cons c w =>
    rintro _ ⟨⟩
    exact hw.letters c List.mem_cons_self

theorem beginsWithMark_of_ne {d : Char} (h : c ≠ d) : beginsWithMark d (c :: cs) = false := by
  unfold beginsWithMark
  split
  · next heq =>
    obtain ⟨rfl, -⟩ := List.cons.inj heq
    simp [h]
  · rfl

theorem beginsWithDocumentMark_of_ne (hdash : c ≠ '-') (hdot : c ≠ '.') :
    beginsWithDocumentMark (c :: cs) = false := by
  simp only [beginsWithDocumentMark, beginsWithMark_of_ne hdash, beginsWithMark_of_ne hdot,
    Bool.or_false]

end Letters

/-! ## Plain scalars -/

section Plain

variable {w rest : List Char} {margin : Nat} {p : Place}

/-- The place after some characters of the line. -/
def Place.along (p : Place) (n : Nat) : Place := ⟨p.line, p.column + n⟩

/-- A word belongs to the plain scalar that goes on after it. -/
theorem plainScalar?_word (hw : ∀ c ∈ w, isLetter c) :
    plainScalar? false margin .empty (w ++ rest) p =
      (plainScalar? false margin .empty rest (p.along w.length)).map fun s =>
        { s with text := w ++ s.text } := by
  induction w generalizing p with
  | nil => simp [Place.along]
  | cons c w ih =>
    have hc : isLetter c := hw c List.mem_cons_self
    have hmark : beginsWithDocumentMark (c :: (w ++ rest)) = false :=
      beginsWithDocumentMark_of_ne (ne_of_isLetter hc rfl) (ne_of_isLetter hc rfl)
    have hstop : stopsAfterGap false margin .empty (c :: (w ++ rest)) p = false := by
      simp [stopsAfterGap, hmark, Gap.hasBreak, Gap.empty]
    have hcolon : stopsPlain false (c :: (w ++ rest)) = false := by
      simp (disch := decide) [stopsPlain, ne_of_isLetter hc]
    have hnext : (p.next c).along w.length = p.along (c :: w).length := by
      simp [Place.next, isBreak_of_isLetter hc, Place.along, Nat.add_assoc, Nat.add_comm 1]
    rw [List.cons_append, plainScalar?, isWhite_of_isLetter hc, isBreak_of_isLetter hc, hstop,
      hcolon, ih fun d hd => hw d (List.mem_cons_of_mem c hd), hnext]
    simp [Gap.folded, Gap.empty, Function.comp_def]

/-- A plain scalar ends before a colon that a blank or a line break follows. -/
theorem plainScalar?_colon {c : Char} (hc : isWhite c || isBreak c) :
    plainScalar? false margin .empty (':' :: c :: rest) p =
      some ⟨[], false, ⟨':' :: c :: rest, p⟩⟩ := by
  have hstop : stopsAfterGap false margin .empty (':' :: c :: rest) p = false := by
    simp (disch := decide) [stopsAfterGap, beginsWithDocumentMark_of_ne, Gap.hasBreak, Gap.empty]
  have hcolon : stopsPlain false (':' :: c :: rest) = true := by simp [stopsPlain, endsWord, hc]
  rw [plainScalar?, hstop, hcolon]
  rfl

/-- Blanks after a line break lead to the end of a plain scalar. -/
theorem plainScalar?_indent {gap : Gap} {line column k : Nat} (hgap : gap.hasBreak)
    (hrest : BeginsWord rest) (hk : column + k < margin) :
    plainScalar? false margin gap (List.replicate k ' ' ++ rest) ⟨line, column⟩ =
      some ⟨[], true, ⟨rest, ⟨line, column + k⟩⟩⟩ := by
  induction k generalizing gap column with
  | zero =>
    rw [List.replicate_zero, List.nil_append, Nat.add_zero]
    cases rest with
    | nil => simp [plainScalar?, hgap]
    | cons c rest =>
      have hc : isLetter c := hrest c rfl
      have hstop : stopsAfterGap false margin gap (c :: rest) ⟨line, column⟩ = true := by
        simp [stopsAfterGap, hgap, show column < margin from hk]
      simp [plainScalar?, isWhite_of_isLetter hc, isBreak_of_isLetter hc, hstop, hgap]
  | succ k ih =>
    have hpush : (gap.push ' ').hasBreak := by
      cases gap with
      | blanks _ => cases hgap
      | lines first more => rfl
    have hnext : Place.next ⟨line, column⟩ ' ' = ⟨line, column + 1⟩ := rfl
    have hwhite : (isWhite ' ' || isBreak ' ') = true := rfl
    rw [List.replicate_succ, List.cons_append, plainScalar?, if_pos hwhite, hnext,
      ih hpush (by omega)]
    simp [Nat.add_assoc, Nat.add_comm 1]

/-- A plain scalar ends at the end of its line if the next one is indented by less than `margin`. -/
theorem plainScalar?_break {k : Nat} (hrest : BeginsWord rest) (hk : k < margin) :
    plainScalar? false margin .empty ('\n' :: (List.replicate k ' ' ++ rest)) p =
      some ⟨[], true, ⟨rest, ⟨p.line + 1, k⟩⟩⟩ := by
  have hbreak : (isWhite '\n' || isBreak '\n') = true := rfl
  have hnext : p.next '\n' = ⟨p.line + 1, 0⟩ := rfl
  have hgap : (Gap.empty.push '\n').hasBreak := rfl
  rw [plainScalar?, if_pos hbreak, hnext, plainScalar?_indent hgap hrest (by omega)]
  simp

end Plain

namespace Scan

/-! ## From place to place -/

section Reach

variable {s t u : Scan}

theorem run?_congr (h : s.toToken = t.toToken) (fuel : Nat) : run? fuel s = run? fuel t := by
  cases fuel with
  | zero => rfl
  | succ fuel => simp only [run?, h]

/-- From `s` the scanner comes to `t`, with a character at least for each token. -/
def Reaches (s t : Scan) : Prop :=
  ∃ n, n + t.cursor.rest.length ≤ s.cursor.rest.length ∧
    ∀ fuel, run? (fuel + n) s = run? fuel t

theorem Reaches.trans (hst : Reaches s t) (htu : Reaches t u) : Reaches s u := by
  obtain ⟨n, hn, hs⟩ := hst
  obtain ⟨k, hk, ht⟩ := htu
  refine ⟨k + n, by omega, fun fuel => ?_⟩
  rw [← Nat.add_assoc, hs, ht]

/-- One token is read. Blanks before the next one make no difference. -/
theorem Reaches.of_read?_of_toToken {u' : Scan} (ht : s.toToken = t) (hne : t.cursor.rest ≠ [])
    (hread : t.read? = some u) (hu : u.toToken = u'.toToken)
    (hlen : u'.cursor.rest.length < s.cursor.rest.length) : Reaches s u' := by
  refine ⟨1, by omega, fun fuel => ?_⟩
  rw [run?, ht, if_neg (by simpa using hne), hread, ← run?_congr hu]
  rfl

/-- One token is read. -/
theorem Reaches.of_read? (ht : s.toToken = t) (hne : t.cursor.rest ≠ []) (hread : t.read? = some u)
    (hlen : u.cursor.rest.length < s.cursor.rest.length) : Reaches s u :=
  .of_read?_of_toToken ht hne hread rfl hlen

/-- Blanks before a token make no difference. -/
theorem Reaches.of_toToken (h : s.toToken = t.toToken)
    (hlen : t.cursor.rest.length ≤ s.cursor.rest.length) : Reaches s t :=
  ⟨0, by omega, fun fuel => run?_congr h fuel⟩

/-- At the end of the text the row is there. -/
theorem Reaches.run?_eq (h : Reaches s t) {ts : List Token}
    (ht : ∀ fuel, run? (fuel + 1) t = some ts) {fuel : Nat}
    (hfuel : s.cursor.rest.length < fuel) : run? fuel s = some ts := by
  obtain ⟨n, hn, hs⟩ := h
  obtain ⟨rest, rfl⟩ : ∃ rest, fuel = rest + 1 + n := ⟨fuel - 1 - n, by omega⟩
  rw [hs, ht]

end Reach

/-- The scan at a place where no collection of flow style is open and no node may turn out to be a
key. -/
def inBlocks (keyAllowed : Bool) (cs : List Char) (p : Place) (ts : List Token)
    (indents : List Nat) : Scan :=
  { cursor := ⟨cs, p⟩, tokens := ts, count := ts.length, indents, keyAllowed }

theorem closeBlocks_of_head {s : Scan} {p : Nat → Bool} (h : ∀ i ∈ s.indents.head?, p i = false) :
    s.closeBlocks p = s := by
  have hnone : s.indents.takeWhile p = [] := by
    cases hi : s.indents with
    | nil => rfl
    | cons i outer =>
      rw [hi] at h
      rw [List.takeWhile_cons, h i rfl]
      rfl
  unfold closeBlocks
  split
  · rfl
  · simp [hnone]

section Blanks

variable {keyAllowed : Bool} {rest : List Char} {ts : List Token} {indents : List Nat}
  {line column : Nat} {p : Place}

theorem skipBlanks_indent (hrest : BeginsWord rest) (k : Nat) :
    skipBlanks false false keyAllowed (List.replicate k ' ' ++ rest) ⟨line, column⟩ =
      (keyAllowed, ⟨rest, ⟨line, column + k⟩⟩) := by
  induction k generalizing column with
  | zero =>
    cases rest with
    | nil => rfl
    | cons c rest =>
      have hc : isLetter c := hrest c rfl
      simp (disch := decide) [skipBlanks, isBreak_of_isLetter hc, ne_of_isLetter hc]
  | succ k ih =>
    have hnext : Place.next ⟨line, column⟩ ' ' = ⟨line, column + 1⟩ := rfl
    rw [List.replicate_succ, List.cons_append, skipBlanks]
    simp [isBreak, hnext, ih, Nat.add_assoc, Nat.add_comm 1]

/-- The next token of a line. The blocks end that are indented further. -/
theorem toToken_inBlocks (hrest : BeginsWord rest) (k : Nat) :
    (inBlocks keyAllowed (List.replicate k ' ' ++ rest) ⟨line, column⟩ ts indents).toToken =
      (inBlocks keyAllowed rest ⟨line, column + k⟩ ts indents).closeBlocks (column + k < ·) := by
  simp only [toToken, inBlocks, inFlow, List.isEmpty_nil, Bool.not_true, skipBlanks_indent hrest]

/-- A line break can be left out. After it a key may begin. -/
theorem toToken_break (rest : List Char) :
    (inBlocks keyAllowed ('\n' :: rest) p ts indents).toToken =
      (inBlocks true rest ⟨p.line + 1, 0⟩ ts indents).toToken := by
  simp [toToken, inBlocks, inFlow, skipBlanks, isBreak, Place.next]

/-- Where a line is less indented a block ends. -/
theorem toToken_dedent (hrest : BeginsWord rest) {i : Nat} (hi : column < i) :
    (inBlocks keyAllowed rest ⟨line, column⟩ ts (i :: indents)).toToken =
      (inBlocks keyAllowed rest ⟨line, column⟩ (.blockEnd :: ts) indents).toToken := by
  refine (toToken_inBlocks hrest 0).trans (Eq.trans ?_ (toToken_inBlocks hrest 0).symm)
  have hends : ∀ n, Token.blockEnd :: (List.replicate n .blockEnd ++ ts) =
      List.replicate n .blockEnd ++ .blockEnd :: ts := by
    intro n
    rw [List.append_cons, ← List.replicate_succ', List.replicate_succ, List.cons_append]
  simp [closeBlocks, inBlocks, inFlow, hi, hends]
  omega

/-- Blanks before a word can be left out. -/
theorem toToken_indent (hrest : BeginsWord rest) (k : Nat) :
    (inBlocks keyAllowed (List.replicate k ' ' ++ rest) ⟨line, column⟩ ts indents).toToken =
      (inBlocks keyAllowed rest ⟨line, column + k⟩ ts indents).toToken :=
  (toToken_inBlocks hrest k).trans (toToken_inBlocks hrest 0).symm

/-- A word is a token where it stands. -/
theorem toToken_word (hrest : BeginsWord rest) (hhead : ∀ i ∈ indents.head?, i ≤ p.column) :
    (inBlocks keyAllowed rest p ts indents).toToken = inBlocks keyAllowed rest p ts indents := by
  have htoken : (inBlocks keyAllowed rest p ts indents).toToken =
      (inBlocks keyAllowed rest p ts indents).closeBlocks (p.column < ·) :=
    toToken_inBlocks hrest 0
  rw [htoken, closeBlocks_of_head fun i hi => decide_eq_false (Nat.not_lt.mpr (hhead i hi))]

end Blanks

/-! ## Keys and values -/

/-- A word begins a plain scalar. -/
theorem read?_eq_readPlain? {s : Scan} {w rest : List Char} (hw : IsWord w)
    (hcs : s.cursor.rest = w ++ rest) : s.read? = s.readPlain? := by
  obtain ⟨c, w, rfl⟩ := List.exists_cons_of_ne_nil hw.ne_nil
  have hc : isLetter c := hw.letters c List.mem_cons_self
  unfold read?
  rw [hcs, List.cons_append]
  simp only [beginsWithMark_of_ne (ne_of_isLetter hc (rfl : isLetter '-' = false)),
    beginsWithMark_of_ne (ne_of_isLetter hc (rfl : isLetter '.' = false)), Bool.false_eq_true,
    and_false, if_false]
  rw [if_neg fun h => ne_of_isLetter hc rfl h.2]
  -- no character that begins another token is a letter
  split <;> first | rfl | exact absurd hc (by decide)

/-- A colon after which a word ends is the mark of a value. -/
theorem read?_eq_readValue? {s : Scan} {cs : List Char} (hcs : s.cursor.rest = ':' :: cs)
    (hend : endsWord cs) : s.read? = s.readValue? := by
  unfold read?
  rw [hcs]
  simp (disch := decide) [beginsWithMark_of_ne, hend]

section Lines

variable {w v rest : List Char} {c : Char} {ts : List Token} {indents outer : List Nat}
  {line column i : Nat}

/-- The tokens that open a mapping at a column unless one is open there. -/
def opening (column : Nat) (indents : List Nat) : List Token :=
  if indents.head? = some column then [] else [.blockMappingStart]

/-- The blocks that are open after that. -/
def opened (column : Nat) (indents : List Nat) : List Nat :=
  if indents.head? = some column then indents else column :: indents

/-- The scan at the colon after a word of the line. -/
def atColon (w rest : List Char) (line column : Nat) (ts : List Token) (indents : List Nat) :
    Scan :=
  { inBlocks false (':' :: rest) ⟨line, column + w.length⟩
      (.scalar .plain (String.ofList w) :: ts) indents with
    key := some ⟨ts.length, ⟨line, column⟩, indents.head? == some column⟩ }

theorem readPlain?_eq_some {s t : Scan} {p : PlainScalar} (hbegin : s.beginNode? = some t)
    (hplain : plainScalar? t.inFlow t.margin .empty t.cursor.rest t.cursor.place = some p) :
    s.readPlain? = some { t.pushUpTo (.scalar .plain (String.ofList p.text)) p.rest with
      keyAllowed := p.beforeBreak } := by
  simp [readPlain?, hbegin, hplain]

/-- A word before a colon is read, and kept in mind. -/
theorem reaches_atColon (hw : IsWord w) (hc : isWhite c || isBreak c)
    (hhead : ∀ i ∈ indents.head?, i ≤ column) :
    Reaches (inBlocks true (w ++ ':' :: c :: rest) ⟨line, column⟩ ts indents)
      (atColon w (c :: rest) line column ts indents) := by
  have hbegin : (inBlocks true (w ++ ':' :: c :: rest) ⟨line, column⟩ ts indents).beginNode? =
      some { inBlocks false (w ++ ':' :: c :: rest) ⟨line, column⟩ ts indents with
        key := some ⟨ts.length, ⟨line, column⟩, indents.head? == some column⟩ } := rfl
  have hplain : ∀ margin,
      plainScalar? false margin .empty (w ++ ':' :: c :: rest) ⟨line, column⟩ =
        some ⟨w, false, ⟨':' :: c :: rest, ⟨line, column + w.length⟩⟩⟩ := by
    intro margin
    rw [plainScalar?_word hw.letters, plainScalar?_colon hc]
    simp [Place.along]
  have hlen := hw.length_pos
  refine .of_read? (toToken_word hw.beginsWord hhead) (by simp [inBlocks]) ?_
    (by simp [inBlocks, atColon]; omega)
  rw [read?_eq_readPlain? hw rfl]
  exact readPlain?_eq_some hbegin (hplain _)

theorem toToken_atColon (hhead : ∀ i ∈ indents.head?, i ≤ column) :
    (atColon w rest line column ts indents).toToken = atColon w rest line column ts indents := by
  have hskip : (atColon w rest line column ts indents).toToken =
      (atColon w rest line column ts indents).closeBlocks (column + w.length < ·) := by
    simp [toToken, atColon, inBlocks, inFlow, skipBlanks, isBreak]
  rw [hskip, closeBlocks_of_head fun i hi => ?_]
  exact decide_eq_false (Nat.not_lt.mpr (Nat.le_add_right_of_le (hhead i hi)))

theorem readValue?_eq_some {s : Scan} {k : KeyStart} (hkey : s.key = some k)
    (hk : k.reaches s.cursor.place) : s.readValue? = some (s.readValueOf k) := by
  simp [readValue?, hkey, hk]

/-- The colon makes the word a key, which opens a mapping unless there is one at its column. -/
theorem readValueOf_atColon (hhead : ∀ i ∈ indents.head?, i ≤ column) :
    (atColon w rest line column ts indents).readValueOf
        ⟨ts.length, ⟨line, column⟩, indents.head? == some column⟩ =
      inBlocks false rest ⟨line, column + w.length + 1⟩
        (.value :: .scalar .plain (String.ofList w) :: .key :: (opening column indents ++ ts))
        (opened column indents) := by
  have hopens : (atColon w rest line column ts indents).margin ≤ column ↔
      indents.head? ≠ some column := by
    show (indents.head?.map (· + 1)).getD 0 ≤ column ↔ _
    cases hi : indents.head? with
    | none => simp
    | some i =>
      have hle : i ≤ column := hhead i hi
      simp only [Option.map_some, Option.getD_some, ne_eq, Option.some.injEq]
      omega
  have hflow : (atColon w rest line column ts indents).inFlow = false := rfl
  unfold readValueOf opening opened
  -- the word is the latest token, so the mark of the key goes in right before it
  by_cases hopen : indents.head? = some column
  · simp only [hflow, hopens, hopen, ne_eq, not_true_eq_false, decide_false, Bool.and_false]
    simp [insert, indicator, push, atColon, inBlocks, Cursor.drop]
  · simp only [hflow, hopens, hopen, ne_eq, not_false_eq_true, decide_true, Bool.and_true]
    simp [insert, indicator, push, atColon, inBlocks, Cursor.drop]

/-- A key and its colon are read. -/
theorem reaches_key (hw : IsWord w) (hlen : w.length ≤ 1024) (hc : isWhite c || isBreak c)
    (hhead : ∀ i ∈ indents.head?, i ≤ column) :
    Reaches (inBlocks true (w ++ ':' :: c :: rest) ⟨line, column⟩ ts indents)
      (inBlocks false (c :: rest) ⟨line, column + w.length + 1⟩
        (.value :: .scalar .plain (String.ofList w) :: .key :: (opening column indents ++ ts))
        (opened column indents)) := by
  refine (reaches_atColon hw hc hhead).trans ?_
  refine .of_read? (toToken_atColon hhead) (by simp [atColon, inBlocks]) ?_
    (by simp [inBlocks, atColon])
  have hreach : KeyStart.reaches ⟨ts.length, ⟨line, column⟩, indents.head? == some column⟩
      ⟨line, column + w.length⟩ = true := by
    simp [KeyStart.reaches, hlen]
  rw [read?_eq_readValue? rfl (by simpa [endsWord] using hc), readValue?_eq_some rfl hreach,
    readValueOf_atColon hhead]

/-- The value on the line of its key is read. -/
theorem reaches_value {k : Nat} (hv : IsWord v) (hrest : BeginsWord rest) (hcolumn : i ≤ column)
    (hk : k ≤ i) :
    Reaches (inBlocks false (' ' :: (v ++ '\n' :: (List.replicate k ' ' ++ rest)))
        ⟨line, column⟩ ts (i :: outer))
      (inBlocks true (List.replicate k ' ' ++ rest) ⟨line + 1, 0⟩
        (.scalar .plain (String.ofList v) :: ts) (i :: outer)) := by
  set lines := List.replicate k ' ' ++ rest with hlines
  have htoken : (inBlocks false (' ' :: (v ++ '\n' :: lines)) ⟨line, column⟩ ts
      (i :: outer)).toToken =
        inBlocks false (v ++ '\n' :: lines) ⟨line, column + 1⟩ ts (i :: outer) := by
    refine (toToken_inBlocks hv.beginsWord 1).trans (closeBlocks_of_head ?_)
    rintro _ ⟨⟩
    exact decide_eq_false (by omega)
  have hbegin : (inBlocks false (v ++ '\n' :: lines) ⟨line, column + 1⟩ ts
      (i :: outer)).beginNode? =
        some (inBlocks false (v ++ '\n' :: lines) ⟨line, column + 1⟩ ts (i :: outer)) := rfl
  -- the scalar ends at the next word, beyond the break and the blanks: it might have gone on there
  have hplain : plainScalar? false (i + 1) .empty (v ++ '\n' :: lines) ⟨line, column + 1⟩ =
      some ⟨v, true, ⟨rest, ⟨line + 1, k⟩⟩⟩ := by
    rw [plainScalar?_word hv.letters, hlines, plainScalar?_break hrest (by omega)]
    simp [Place.along]
  have hread : (inBlocks false (v ++ '\n' :: lines) ⟨line, column + 1⟩ ts (i :: outer)).read? =
      some (inBlocks true rest ⟨line + 1, k⟩ (.scalar .plain (String.ofList v) :: ts)
        (i :: outer)) := by
    rw [read?_eq_readPlain? hv rfl]
    exact readPlain?_eq_some hbegin hplain
  refine .of_read?_of_toToken htoken (by simp [inBlocks]) hread ?_ (by simp [inBlocks]; omega)
  rw [hlines, toToken_indent hrest, Nat.zero_add]

end Lines

/-! ## Sections -/

end Scan

/-- The line of a field. -/
def fieldText (f : String × String) : List Char :=
  List.replicate 2 ' ' ++ (f.1.toList ++ ':' :: ' ' :: (f.2.toList ++ ['\n']))

/-- The lines of a section. -/
def sectionText (s : String × List (String × String)) : List Char :=
  s.1.toList ++ ':' :: '\n' :: s.2.flatMap fieldText

/-- The tokens of a field. -/
def fieldTokens (f : String × String) : List Token :=
  [.key, .scalar .plain f.1, .value, .scalar .plain f.2]

/-- The tokens of a section. -/
def sectionTokens (s : String × List (String × String)) : List Token :=
  [.key, .scalar .plain s.1, .value, .blockMappingStart] ++ s.2.flatMap fieldTokens ++ [.blockEnd]

/-- A word that is short enough to be a key. -/
def IsKey (w : String) : Prop := IsWord w.toList ∧ w.toList.length ≤ 1024

instance (w : String) : Decidable (IsKey w) := inferInstanceAs (Decidable (_ ∧ _))

/-- A field of words. -/
structure IsField (f : String × String) : Prop where
  name : IsKey f.1
  value : IsWord f.2.toList

/-- A section with fields. -/
structure IsSection (s : String × List (String × String)) : Prop where
  title : IsKey s.1
  ne_nil : s.2 ≠ []
  fields : ∀ f ∈ s.2, IsField f

namespace Scan

section Sections

variable {after : List Char} {ts : List Token} {line : Nat}

/-- The text goes on with a line that is indented by `k` blanks. -/
def BeginsLine (cs : List Char) (k : Nat) : Prop :=
  ∃ rest, BeginsWord rest ∧ cs = List.replicate k ' ' ++ rest

theorem reaches_field {f : String × String} {indents outer : List Nat} {k : Nat} (hf : IsField f)
    (hhead : ∀ i ∈ indents.head?, i ≤ 2) (hopened : opened 2 indents = 2 :: outer)
    (hafter : BeginsLine after k) (hk : k ≤ 2) :
    Reaches (inBlocks true (fieldText f ++ after) ⟨line, 0⟩ ts indents)
      (inBlocks true after ⟨line + 1, 0⟩
        ((fieldTokens f).reverse ++ (opening 2 indents ++ ts)) (2 :: outer)) := by
  obtain ⟨rest, hrest, rfl⟩ := hafter
  set after := List.replicate k ' ' ++ rest with hafter
  have htext : fieldText f ++ after = List.replicate 2 ' ' ++
      (f.1.toList ++ ':' :: ' ' :: (f.2.toList ++ '\n' :: after)) := by
    simp [fieldText]
  have hindent : (inBlocks true (fieldText f ++ after) ⟨line, 0⟩ ts indents).toToken =
      (inBlocks true (f.1.toList ++ ':' :: ' ' :: (f.2.toList ++ '\n' :: after)) ⟨line, 2⟩ ts
        indents).toToken := by
    rw [htext]
    exact toToken_indent hf.name.1.beginsWord 2
  have hlen : (f.1.toList ++ ':' :: ' ' :: (f.2.toList ++ '\n' :: after)).length ≤
      (fieldText f ++ after).length := by
    simp [htext]
    omega
  refine (Reaches.of_toToken hindent hlen).trans ?_
  refine (reaches_key hf.name.1 hf.name.2 rfl hhead).trans ?_
  rw [hopened, hafter]
  simpa [fieldTokens] using reaches_value hf.value hrest (by omega) hk

theorem beginsLine_fields {fs : List (String × String)} {k : Nat} (hfs : ∀ f ∈ fs, IsField f)
    (hafter : BeginsLine after k) (hk : k ≤ 2) :
    ∃ j ≤ 2, BeginsLine (fs.flatMap fieldText ++ after) j := by
  cases fs with
  | nil => exact ⟨k, hk, hafter⟩
  | cons f fs =>
    have hf : IsField f := hfs f List.mem_cons_self
    set more := fs.flatMap fieldText ++ after with hmore
    have htext : (f :: fs).flatMap fieldText ++ after =
        List.replicate 2 ' ' ++ (f.1.toList ++ (':' :: ' ' :: (f.2.toList ++ ['\n']) ++ more)) := by
      simp only [List.flatMap_cons, fieldText, List.append_assoc, hmore]
    exact ⟨2, Nat.le_refl 2, _, hf.name.1.beginsWord, htext⟩

/-- The lines of fields are read where a mapping is open at their column. -/
theorem reaches_fields {fs : List (String × String)} {outer : List Nat} {k : Nat}
    (hfs : ∀ f ∈ fs, IsField f) (hafter : BeginsLine after k) (hk : k ≤ 2) :
    Reaches (inBlocks true (fs.flatMap fieldText ++ after) ⟨line, 0⟩ ts (2 :: outer))
      (inBlocks true after ⟨line + fs.length, 0⟩ ((fs.flatMap fieldTokens).reverse ++ ts)
        (2 :: outer)) := by
  induction fs generalizing line ts with
  | nil => exact .of_toToken rfl (Nat.le_refl _)
  | cons f fs ih =>
    obtain ⟨hf, hfs⟩ := List.forall_mem_cons.mp hfs
    obtain ⟨j, hj, hlines⟩ := beginsLine_fields hfs hafter hk
    have hfirst : Reaches
        (inBlocks true (fieldText f ++ (fs.flatMap fieldText ++ after)) ⟨line, 0⟩ ts (2 :: outer))
        (inBlocks true (fs.flatMap fieldText ++ after) ⟨line + 1, 0⟩
          ((fieldTokens f).reverse ++ ts) (2 :: outer)) :=
      reaches_field hf (by simp) (if_pos rfl) hlines hj
    rw [List.flatMap_cons, List.append_assoc]
    simpa [Nat.add_assoc, Nat.add_comm 1] using hfirst.trans (ih hfs)

/-- A section is read, and its lines end with the text or at the next title. -/
theorem reaches_section {s : String × List (String × String)} {indents : List Nat}
    (hs : IsSection s) (hindents : indents = [] ∨ indents = [0]) (hafter : BeginsWord after) :
    Reaches (inBlocks true (sectionText s ++ after) ⟨line, 0⟩ ts indents)
      (inBlocks true after ⟨line + (s.2.length + 1), 0⟩
        ((sectionTokens s).reverse ++ (opening 0 indents ++ ts)) [0]) := by
  obtain ⟨title, fields⟩ := s
  obtain ⟨f, fs, rfl⟩ := List.exists_cons_of_ne_nil hs.ne_nil
  obtain ⟨hf, hfs⟩ := List.forall_mem_cons.mp hs.fields
  have hline : BeginsLine after 0 := ⟨after, hafter, rfl⟩
  obtain ⟨j, hj, hlines⟩ := beginsLine_fields hfs hline (Nat.zero_le 2)
  have hhead : ∀ i ∈ indents.head?, i ≤ 0 := by
    rcases hindents with rfl | rfl <;> simp
  have hopened : opened 0 indents = [0] := by
    rcases hindents with rfl | rfl <;> rfl
  have htext : sectionText (title, f :: fs) ++ after =
      title.toList ++ ':' :: '\n' :: (fieldText f ++ (fs.flatMap fieldText ++ after)) := by
    simp [sectionText]
  set toTitle : List Token := .value :: .scalar .plain title :: .key :: (opening 0 indents ++ ts)
    with htoTitle
  have htitle : Reaches
      (inBlocks true (sectionText (title, f :: fs) ++ after) ⟨line, 0⟩ ts indents)
      (inBlocks true (fieldText f ++ (fs.flatMap fieldText ++ after)) ⟨line + 1, 0⟩ toTitle
        [0]) := by
    rw [htext]
    refine (reaches_key hs.title.1 hs.title.2 rfl hhead).trans ?_
    rw [hopened, String.ofList_toList]
    exact .of_toToken (toToken_break _) (by simp [inBlocks])
  have hfirst : Reaches
      (inBlocks true (fieldText f ++ (fs.flatMap fieldText ++ after)) ⟨line + 1, 0⟩ toTitle [0])
      (inBlocks true (fs.flatMap fieldText ++ after) ⟨line + 1 + 1, 0⟩
        ((fieldTokens f).reverse ++ .blockMappingStart :: toTitle) [2, 0]) :=
    reaches_field hf (by simp) rfl hlines hj
  have hrest := hfirst.trans (reaches_fields hfs hline (Nat.zero_le 2))
  refine htitle.trans (hrest.trans ?_)
  -- what is left is at column 0, so the mapping of the fields ends
  have htokens : .blockEnd :: ((fs.flatMap fieldTokens).reverse ++
      ((fieldTokens f).reverse ++ .blockMappingStart :: toTitle)) =
        (sectionTokens (title, f :: fs)).reverse ++ (opening 0 indents ++ ts) := by
    simp [sectionTokens, htoTitle]
  have hcount : line + 1 + 1 + fs.length = line + ((f :: fs).length + 1) := by
    rw [List.length_cons]
    omega
  rw [← htokens, ← hcount]
  exact .of_toToken (toToken_dedent hafter Nat.zero_lt_two) (Nat.le_refl _)

theorem beginsWord_sections {ss : List (String × List (String × String))}
    (hss : ∀ s ∈ ss, IsSection s) : BeginsWord (ss.flatMap sectionText) := by
  cases ss with
  | nil => simp [BeginsWord]
  | cons s ss =>
    rw [List.flatMap_cons, sectionText, List.append_assoc]
    exact (hss s List.mem_cons_self).title.1.beginsWord

/-- Sections are read up to the end of the text where a mapping is open at their column. -/
theorem reaches_sections {ss : List (String × List (String × String))}
    (hss : ∀ s ∈ ss, IsSection s) :
    ∃ last, Reaches (inBlocks true (ss.flatMap sectionText) ⟨line, 0⟩ ts [0])
      (inBlocks true [] ⟨last, 0⟩ ((ss.flatMap sectionTokens).reverse ++ ts) [0]) := by
  induction ss generalizing line ts with
  | nil => exact ⟨line, .of_toToken rfl (Nat.le_refl _)⟩
  | cons s ss ih =>
    obtain ⟨hs, hss⟩ := List.forall_mem_cons.mp hss
    have hfirst : Reaches (inBlocks true (sectionText s ++ ss.flatMap sectionText) ⟨line, 0⟩ ts [0])
        (inBlocks true (ss.flatMap sectionText) ⟨line + (s.2.length + 1), 0⟩
          ((sectionTokens s).reverse ++ ts) [0]) :=
      reaches_section hs (.inr rfl) (beginsWord_sections hss)
    obtain ⟨last, hrest⟩ := ih hss
    refine ⟨last, ?_⟩
    simpa using hfirst.trans hrest

/-- At the end of the text the outermost block ends, too. -/
theorem run?_end (fuel : Nat) :
    run? (fuel + 1) (inBlocks true [] ⟨line, 0⟩ ts [0]) = some (ts.reverse ++ [.blockEnd]) := by
  have htoken : (inBlocks true [] ⟨line, 0⟩ ts [0]).toToken = inBlocks true [] ⟨line, 0⟩ ts [0] :=
    toToken_word (by simp [BeginsWord]) (by simp)
  rw [run?, htoken]
  simp [inBlocks, finish?, leaveDocument?, dropKey?, closeBlocks, inFlow]

end Sections

end Scan

/-! ## The row -/

/-- A character of the lines of sections. -/
def isLineChar (c : Char) : Bool := isLetter c || c ∈ [' ', ':', '\n']

theorem unifyBreaks_eq_self {cs : List Char} (h : ∀ c ∈ cs, isLineChar c) :
    unifyBreaks cs = cs := by
  induction cs using unifyBreaks.induct with
  | case1 => rfl
  | case2 cs ih => exact absurd (h '\r' List.mem_cons_self) (by decide)
  | case3 cs hcs ih => exact absurd (h '\r' List.mem_cons_self) (by decide)
  | case4 cs ih => exact absurd (h '\u0085' List.mem_cons_self) (by decide)
  | case5 c cs hcrlf hcr hnel ih =>
    rw [unifyBreaks.eq_5 _ _ hcrlf hcr hnel, ih fun d hd => h d (List.mem_cons_of_mem c hd)]

theorem characters?_eq_some {text : String} (h : ∀ c ∈ text.toList, isLineChar c) :
    characters? text = some text.toList := by
  have hpermitted : text.toList.all isPermitted := by
    refine List.all_eq_true.mpr fun c hc => ?_
    rcases Bool.or_eq_true_iff.mp (h c hc) with hletter | hother
    · exact isPermitted_of_isLetter hletter
    · have hmem : c ∈ [' ', ':', '\n'] := by simpa using hother
      rcases List.mem_cons.mp hmem with rfl | hmem
      · rfl
      · rcases List.mem_pair.mp hmem with rfl | rfl <;> rfl
  rw [characters?, if_pos hpermitted, unifyBreaks_eq_self h]

theorem IsWord.isLineChar {w : List Char} (hw : IsWord w) : ∀ c ∈ w, isLineChar c :=
  fun c hc => Bool.or_eq_true_iff.mpr (.inl (hw.letters c hc))

theorem isLineChar_of_mem_sections {ss : List (String × List (String × String))}
    (hss : ∀ s ∈ ss, IsSection s) : ∀ c ∈ ss.flatMap sectionText, isLineChar c := by
  have hfield : ∀ f, IsField f → ∀ c ∈ fieldText f, isLineChar c := by
    intro f hf
    simp only [fieldText, List.forall_mem_append, List.forall_mem_cons]
    have hblanks : ∀ c ∈ List.replicate 2 ' ', isLineChar c := by
      intro c hc
      rw [List.eq_of_mem_replicate hc]
      rfl
    exact ⟨hblanks, hf.name.1.isLineChar, rfl, rfl, hf.value.isLineChar, by simp [isLineChar]⟩
  intro c hc
  obtain ⟨s, hs, hc⟩ := List.mem_flatMap.mp hc
  have hsection : ∀ d ∈ sectionText s, isLineChar d := by
    simp only [sectionText, List.forall_mem_append, List.forall_mem_cons]
    refine ⟨(hss s hs).title.1.isLineChar, rfl, rfl, fun d hd => ?_⟩
    obtain ⟨f, hf, hd⟩ := List.mem_flatMap.mp hd
    exact hfield f ((hss s hs).fields f hf) d hd
  exact hsection c hc

/-- The tokens of a text of sections are those of a mapping of mappings. -/
theorem ofText?_sections {ss : List (String × List (String × String))} (hne : ss ≠ [])
    (hss : ∀ s ∈ ss, IsSection s) {text : String} (htext : text.toList = ss.flatMap sectionText) :
    Token.ofText? text =
      some (.blockMappingStart :: (ss.flatMap sectionTokens ++ [.blockEnd])) := by
  have hchars : characters? text = some (ss.flatMap sectionText) := by
    rw [characters?_eq_some (htext ▸ isLineChar_of_mem_sections hss), htext]
  obtain ⟨s, ss, rfl⟩ := List.exists_cons_of_ne_nil hne
  obtain ⟨hs, hss⟩ := List.forall_mem_cons.mp hss
  -- only the first section opens the mapping of all
  have hfirst : Scan.Reaches
      (Scan.inBlocks true (sectionText s ++ ss.flatMap sectionText) ⟨0, 0⟩ [] [])
      (Scan.inBlocks true (ss.flatMap sectionText) ⟨0 + (s.2.length + 1), 0⟩
        ((sectionTokens s).reverse ++ [.blockMappingStart]) [0]) :=
    Scan.reaches_section hs (.inl rfl) (Scan.beginsWord_sections hss)
  obtain ⟨last, hrest⟩ := Scan.reaches_sections hss
  have hrun := (hfirst.trans hrest).run?_eq Scan.run?_end (Nat.lt_succ_self _)
  rw [Token.ofText?, hchars]
  simpa [Scan.inBlocks] using hrun

end TimedMachine.Yaml
