import TimedMachine.Proofs.Number.Numeral

/-!
# A text is the text of one value

The text of a value whose numbers are finite tells the value (`Json.text_inj`). What begins a value
tells what kind of value it is (`Json.Opens`), and the text of a value ends by itself or, if it is a
number, where no further character of a number comes. So two values that begin the same text are the
same, and the text goes on alike after them (`Json.chars_append_inj`).
-/

namespace TimedMachine.Json

open Grammar

/-! ## Strings -/

namespace Quoted

/-- The written form of a character: a letter after a backslash, the number of the character, or the
character itself. -/
inductive Encodes : Char → List Char → Prop
  | letter {c d : Char} (h : letterEscape? d = some c) (hu : d ≠ 'u') : Encodes c ['\\', d]
  | number {c : Char} (h : c.toNat < 0x20) :
      Encodes c ['\\', 'u', '0', '0', hexDigit (c.toNat / 16), hexDigit (c.toNat % 16)]
  | plain {c : Char} (hquote : c ≠ '"') (hbackslash : c ≠ '\\') : Encodes c [c]

theorem encodes_encodeChar (c : Char) : Encodes c (encodeChar c) := by
  unfold encodeChar
  split
  case h_8 hquote hbackslash _ _ _ _ _ =>
    split
    · exact .number ‹_›
    · exact .plain hquote hbackslash
  all_goals exact .letter rfl (by decide)

/-- Different digits are written differently. -/
theorem hexDigit_inj : ∀ a < 16, ∀ b < 16, hexDigit a = hexDigit b → a = b := by
  decide

variable {c d : Char} {cs ds x y : List Char}

/-- Two characters whose written forms begin the same text are the same. -/
theorem Encodes.append_inj (hc : Encodes c cs) (hd : Encodes d ds) (h : cs ++ x = ds ++ y) :
    c = d ∧ x = y := by
  cases hc with
  | letter hletter hu =>
    cases hd with
    | letter hletter' =>
      cases h
      exact ⟨Option.some.inj (hletter.symm.trans hletter'), rfl⟩
    | number => cases h; exact absurd rfl hu
    | plain _ hbackslash => cases h; exact absurd rfl hbackslash
  | number hlt =>
    cases hd with
    | letter _ hu => cases h; exact absurd rfl hu
    | number hlt' =>
      simp only [List.cons_append, List.nil_append, List.cons.injEq, true_and] at h
      obtain ⟨hdiv, hmod, rfl⟩ := h
      have hdiv := hexDigit_inj _ (by omega) _ (by omega) hdiv
      have hmod := hexDigit_inj _ (by omega) _ (by omega) hmod
      exact ⟨Char.toNat_inj.1 (by omega), rfl⟩
    | plain _ hbackslash => cases h; exact absurd rfl hbackslash
  | plain _ hbackslash =>
    cases hd with
    | letter => cases h; exact absurd rfl hbackslash
    | number => cases h; exact absurd rfl hbackslash
    | plain => cases h; exact ⟨rfl, rfl⟩

/-- The written form of a character does not begin like the end of a literal. -/
theorem Encodes.append_ne_quote (hc : Encodes c cs) : cs ++ x ≠ '"' :: y := by
  cases hc with
  | letter | number => simp
  | plain hquote => simp [hquote]

theorem encode_append (cs x : List Char) :
    encode cs ++ x = '"' :: (cs.flatMap encodeChar ++ '"' :: x) := by
  simp [encode]

/-- Two strings whose literals begin the same text are the same. -/
theorem encode_append_inj (h : encode cs ++ x = encode ds ++ y) : cs = ds ∧ x = y := by
  rw [encode_append, encode_append] at h
  replace h := (List.cons.inj h).2
  induction cs generalizing ds with
  | nil =>
    cases ds with
    | nil => exact ⟨rfl, (List.cons.inj h).2⟩
    | cons d ds =>
      rw [List.flatMap_cons, List.append_assoc] at h
      exact absurd h.symm (encodes_encodeChar d).append_ne_quote
  | cons c cs ih =>
    rw [List.flatMap_cons, List.append_assoc] at h
    cases ds with
    | nil => exact absurd h (encodes_encodeChar c).append_ne_quote
    | cons d ds =>
      rw [List.flatMap_cons, List.append_assoc] at h
      obtain ⟨rfl, hrest⟩ := (encodes_encodeChar c).append_inj (encodes_encodeChar d) h
      obtain ⟨rfl, hend⟩ := ih hrest
      exact ⟨rfl, hend⟩

end Quoted

variable {v w : Json} {c : Char} {x y : List Char}

/-- Two strings whose literals begin the same text are the same. -/
theorem quote_append_inj {s t : String} (h : quote s ++ x = quote t ++ y) : s = t ∧ x = y := by
  obtain ⟨hchars, hrest⟩ := Quoted.encode_append_inj h
  exact ⟨String.toList_inj.1 hchars, hrest⟩

/-! ## Numbers -/

/-- The numeral of a finite number is a number literal. -/
theorem exists_isNumber_numeral {z : Float} (hz : z.isFinite) : ∃ l, IsNumber (numeral z) l := by
  obtain ⟨_, _, _, _, -, -, ⟨l, hl, -⟩, -⟩ := Number.exists_writes_chars .document hz
  exact ⟨l, by rwa [numeral, if_pos hz]⟩

/-- Two finite numbers whose numerals begin the same text, and end there, are the same. -/
theorem numeral_append_inj {z z' : Float} (hz : z.isFinite) (hz' : z'.isFinite)
    (hx : Stops Lexeme.isNumberChar x) (hy : Stops Lexeme.isNumberChar y)
    (h : numeral z ++ x = numeral z' ++ y) : z = z' ∧ x = y := by
  obtain ⟨l, hl⟩ := exists_isNumber_numeral hz
  obtain ⟨l', hl'⟩ := exists_isNumber_numeral hz'
  obtain ⟨hnumeral, hrest⟩ := append_inj_of_stops hl.isNumberChar hl'.isNumberChar hx hy h
  rw [numeral, numeral, if_pos hz, if_pos hz'] at hnumeral
  exact ⟨Number.chars_inj _ hz hz' hnumeral, hrest⟩

/-! ## Parts with commas between them -/

section Commas

variable {α : Type} {f : α → List Char} {as bs : List α}

/-- Parts, written by `f`, with commas between them. -/
def commas (f : α → List Char) : List α → List Char
  | [] => []
  | [a] => f a
  | a :: b :: rest => f a ++ ',' :: commas f (b :: rest)

/-- What follows the first of several parts: the end, or a comma and the others. -/
def afterFirst (f : α → List Char) (close : Char) (x : List Char) : List α → List Char
  | [] => close :: x
  | a :: rest => ',' :: (commas f (a :: rest) ++ close :: x)

theorem commas_cons_append (a : α) (rest : List α) (x : List Char) :
    commas f (a :: rest) ++ c :: x = f a ++ afterFirst f c x rest := by
  cases rest <;> simp [commas, afterFirst]

theorem itemChars_eq_commas : ∀ vs : List Json, itemChars vs = commas chars vs
  | [] => rfl
  | [v] => rfl
  | v :: w :: rest => by rw [itemChars, commas, itemChars_eq_commas (w :: rest)]

/-- A member of an object with its key. -/
def memberText (m : String × Json) : List Char := quote m.1 ++ ':' :: m.2.chars

/-- Two members that begin the same text are the same, if their values are told apart. -/
theorem memberText_append_inj {m n : String × Json}
    (hvalue : m.2.chars ++ x = n.2.chars ++ y → m.2 = n.2 ∧ x = y)
    (h : memberText m ++ x = memberText n ++ y) : m = n ∧ x = y := by
  rw [memberText, memberText, List.append_assoc, List.append_assoc] at h
  obtain ⟨hkey, hcolon⟩ := quote_append_inj h
  obtain ⟨heq, hrest⟩ := hvalue (List.cons.inj hcolon).2
  exact ⟨Prod.ext hkey heq, hrest⟩

theorem memberChars_eq_commas : ∀ ms : List (String × Json), memberChars ms = commas memberText ms
  | [] => rfl
  | [m] => rfl
  | m :: m' :: rest => by
    rw [memberChars, commas, memberChars_eq_commas (m' :: rest), memberText]

/-- Two rows of parts that are closed and begin the same text are the same, if each part is told by
the text that begins with it. -/
theorem commas_append_inj (hclose : c = ']' ∨ c = '\x7d')
    (hparts : ∀ a ∈ as, ∀ b ∈ bs, ∀ x y, Stops Lexeme.isNumberChar x →
      Stops Lexeme.isNumberChar y → f a ++ x = f b ++ y → a = b ∧ x = y)
    (hopens : ∀ a, a ∈ as ∨ a ∈ bs → ∀ x y, f a ++ x ≠ c :: y)
    (h : commas f as ++ c :: x = commas f bs ++ c :: y) : as = bs ∧ x = y := by
  have hafter (x : List Char) (l : List α) : Stops Lexeme.isNumberChar (afterFirst f c x l) := by
    cases l with
    | nil =>
      rintro _ ⟨⟩
      obtain rfl | rfl := hclose <;> rfl
    | cons =>
      rintro _ ⟨⟩
      rfl
  -- what comes after the first part, a comma or the closing mark, tells whether there are others
  induction as generalizing bs with
  | nil =>
    cases bs with
    | nil => simpa [commas] using h
    | cons b bs =>
      rw [commas_cons_append] at h
      exact absurd h.symm (hopens b (.inr List.mem_cons_self) _ _)
  | cons a as ih =>
    cases bs with
    | nil =>
      rw [commas_cons_append] at h
      exact absurd h (hopens a (.inl List.mem_cons_self) _ _)
    | cons b bs =>
      rw [commas_cons_append, commas_cons_append] at h
      obtain ⟨rfl, hrest⟩ := hparts a List.mem_cons_self b List.mem_cons_self _ _ (hafter x as)
        (hafter y bs) h
      cases as with
      | nil =>
        cases bs with
        | nil => exact ⟨rfl, (List.cons.inj hrest).2⟩
        | cons => obtain rfl | rfl := hclose <;> cases hrest
      | cons a' as =>
        cases bs with
        | nil => obtain rfl | rfl := hclose <;> cases hrest
        | cons b' bs =>
          obtain ⟨heq, hend⟩ := ih
            (fun a ha b hb => hparts a (List.mem_cons_of_mem _ ha) b (List.mem_cons_of_mem _ hb))
            (fun a ha => hopens a (ha.imp (List.mem_cons_of_mem _) (List.mem_cons_of_mem _)))
            (List.cons.inj hrest).2
          exact ⟨by rw [heq], hend⟩

end Commas

/-! ## Values -/

/-- Whether all numbers of a value are finite. -/
inductive IsFinite : Json → Prop
  | null : IsFinite .null
  | bool {b : Bool} : IsFinite (.bool b)
  | number {z : Float} (hz : z.isFinite) : IsFinite (.number z)
  | string {s : String} : IsFinite (.string s)
  | array {vs : List Json} (h : ∀ v ∈ vs, IsFinite v) : IsFinite (.array vs)
  | object {ms : List (String × Json)} (h : ∀ m ∈ ms, IsFinite m.2) : IsFinite (.object ms)

@[simp] theorem isFinite_number {z : Float} : (number z).IsFinite ↔ z.isFinite :=
  ⟨fun h => by cases h; assumption, .number⟩

@[simp] theorem isFinite_array {vs : List Json} : (array vs).IsFinite ↔ ∀ v ∈ vs, v.IsFinite :=
  ⟨fun h => by cases h; assumption, .array⟩

@[simp] theorem isFinite_object {ms : List (String × Json)} :
    (object ms).IsFinite ↔ ∀ v ∈ ms.map (·.2), v.IsFinite := by
  rw [List.forall_mem_map]
  exact ⟨fun h => by cases h; assumption, .object⟩

/-- What a value may begin with. -/
inductive Opens : Json → Char → Prop
  | null : Opens .null 'n'
  | true : Opens (.bool true) 't'
  | false : Opens (.bool false) 'f'
  | number {z : Float} {c : Char} (hc : c = '-' ∨ c.isDigit) : Opens (.number z) c
  | string {s : String} : Opens (.string s) '"'
  | array {vs : List Json} : Opens (.array vs) '['
  | object {ms : List (String × Json)} : Opens (.object ms) '\x7b'

/-- A value begins with what its kind begins with. -/
theorem exists_chars_eq_cons (hv : v.IsFinite) : ∃ c cs, v.chars = c :: cs ∧ v.Opens c := by
  cases hv with
  | number hz =>
    obtain ⟨l, hl⟩ := exists_isNumber_numeral hz
    obtain ⟨c, cs, hcs, -⟩ := hl.begins (x := [])
    rw [List.append_nil] at hcs
    exact ⟨c, cs, hcs, .number (hcs ▸ hl).head⟩
  | @bool b =>
    cases b with
    | true => exact ⟨_, _, rfl, .true⟩
    | false => exact ⟨_, _, rfl, .false⟩
  | null => exact ⟨_, _, rfl, .null⟩
  | string => exact ⟨_, _, rfl, .string⟩
  | array => exact ⟨_, _, rfl, .array⟩
  | object => exact ⟨_, _, rfl, .object⟩

/-- Two values of one kind; a word is a kind of its own. -/
inductive SameKind : Json → Json → Prop
  | word (v : Json) : SameKind v v
  | number (z z' : Float) : SameKind (.number z) (.number z')
  | string (s s' : String) : SameKind (.string s) (.string s')
  | array (vs vs' : List Json) : SameKind (.array vs) (.array vs')
  | object (ms ms' : List (String × Json)) : SameKind (.object ms) (.object ms')

/-- What a value begins with tells its kind. -/
theorem sameKind_of_opens (hv : v.Opens c) (hw : w.Opens c) : SameKind v w := by
  cases hv with
  | number hc =>
    cases hw with
    | number => exact .number _ _
    | _ => exact absurd hc (by decide)
  | null | true | false =>
    cases hw with
    | number hc => exact absurd hc (by decide)
    | _ => exact .word _
  | string =>
    cases hw with
    | number hc => exact absurd hc (by decide)
    | string => exact .string _ _
  | array =>
    cases hw with
    | number hc => exact absurd hc (by decide)
    | array => exact .array _ _
  | object =>
    cases hw with
    | number hc => exact absurd hc (by decide)
    | object => exact .object _ _

/-- Values that begin the same text are of one kind. -/
theorem sameKind_of_chars_append (hv : v.IsFinite) (hw : w.IsFinite)
    (h : v.chars ++ x = w.chars ++ y) : SameKind v w := by
  obtain ⟨c, cs, hcs, hopens⟩ := exists_chars_eq_cons hv
  obtain ⟨d, ds, hds, hopens'⟩ := exists_chars_eq_cons hw
  rw [hcs, hds] at h
  exact sameKind_of_opens hopens ((List.cons.inj h).1 ▸ hopens')

/-- No value begins like the end of an array. -/
theorem chars_append_ne_close (hv : v.IsFinite) : v.chars ++ x ≠ ']' :: y := by
  intro h
  obtain ⟨c, cs, hcs, hopens⟩ := exists_chars_eq_cons hv
  rw [hcs] at h
  rw [(List.cons.inj h).1] at hopens
  cases hopens with
  | number hc => exact absurd hc (by decide)

/-- Two values that begin the same text, in which no number goes on after them, are the same. -/
theorem chars_append_inj (hv : v.IsFinite) (hw : w.IsFinite) (hx : Stops Lexeme.isNumberChar x)
    (hy : Stops Lexeme.isNumberChar y) (h : v.chars ++ x = w.chars ++ y) : v = w ∧ x = y := by
  -- the first character tells the kind, and the parts of a container are told apart by induction
  induction hv generalizing w x y with
  | null | bool =>
    cases sameKind_of_chars_append (by constructor) hw h
    exact ⟨rfl, List.append_cancel_left h⟩
  | number hz =>
    cases sameKind_of_chars_append (.number hz) hw h with
    | word => exact ⟨rfl, List.append_cancel_left h⟩
    | number z z' =>
      cases hw with
      | number hz' =>
        obtain ⟨rfl, hrest⟩ := numeral_append_inj hz hz' hx hy h
        exact ⟨rfl, hrest⟩
  | string =>
    cases sameKind_of_chars_append .string hw h with
    | word => exact ⟨rfl, List.append_cancel_left h⟩
    | string s s' =>
      obtain ⟨rfl, hrest⟩ := quote_append_inj h
      exact ⟨rfl, hrest⟩
  | @array vs hvs ih =>
    cases sameKind_of_chars_append (.array hvs) hw h with
    | word => exact ⟨rfl, List.append_cancel_left h⟩
    | array vs ws =>
      cases hw with
      | array hws =>
        have hitems : commas chars vs ++ ']' :: x = commas chars ws ++ ']' :: y := by
          rw [← itemChars_eq_commas, ← itemChars_eq_commas]
          simpa [chars] using h
        obtain ⟨rfl, hrest⟩ := commas_append_inj (.inl rfl)
          (fun v hv w hw x y hx hy h => ih v hv (hws w hw) hx hy h)
          (fun v hv x y => chars_append_ne_close (hv.elim (hvs v) (hws v))) hitems
        exact ⟨rfl, hrest⟩
  | @object ms hms ih =>
    cases sameKind_of_chars_append (.object hms) hw h with
    | word => exact ⟨rfl, List.append_cancel_left h⟩
    | object ms ns =>
      cases hw with
      | object hns =>
        have hmembers : commas memberText ms ++ '\x7d' :: x =
            commas memberText ns ++ '\x7d' :: y := by
          rw [← memberChars_eq_commas, ← memberChars_eq_commas]
          simpa [chars] using h
        obtain ⟨rfl, hrest⟩ := commas_append_inj (.inr rfl)
          (fun m hm n hn x y hx hy => memberText_append_inj (ih m hm (hns n hn) hx hy))
          (fun m _ x y h => by cases h) hmembers
        exact ⟨rfl, hrest⟩

/-- A text is the text of one value. -/
theorem text_inj (hv : v.IsFinite) (hw : w.IsFinite) (h : v.text = w.text) : v = w := by
  have hchars : v.chars ++ [] = w.chars ++ [] := congrArg (· ++ []) (String.ofList_inj.1 h)
  have hstops : Stops Lexeme.isNumberChar [] := by simp [Stops]
  exact (chars_append_inj hv hw hstops hstops hchars).1

end TimedMachine.Json
