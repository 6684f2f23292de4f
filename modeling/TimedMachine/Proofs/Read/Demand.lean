import TimedMachine.Token.Read
import TimedMachine.Proofs.Read.Literal
import TimedMachine.Proofs.Token.Spans

/-!
# What a reading still wants

What the rest of a text must be for a reading to end with a given tree: the containers that are
open must be closed in turn, with the parts that the grammar lets come in between (`Closes`,
`Completes`). The grammar says what the parts of one container are as a whole and the reader takes
them one by one; `padded_valueStarts_iff` and `padded_keyStarts_iff` pass from the one to the
other.

Places in the text are left out of account: the trees here are without spans.
-/

namespace TimedMachine.Reading

open Grammar Token

/-! ## What is still wanted of a text -/

/-- Trivia and then a text as `P` wants it. -/
def Padded (comments : Bool) (P : List Char → Prop) (cs : List Char) : Prop :=
  ∃ before x, cs = before ++ x ∧ IsTrivia comments false before ∧ P x

/-- A container after one of its parts: the mark that closes it, or a comma and more parts. -/
inductive GoesOn {α : Type} (close : Char) (Parts : List Char → List α → Prop) :
    List Char → List α → List Char → Prop
  | closed {tail : List Char} : GoesOn close Parts (close :: tail) [] tail
  | more {cs tail : List Char} {ps : List α} (h : Parts cs ps) :
      GoesOn close Parts (',' :: cs ++ close :: tail) ps tail

/-- Whether new keys differ from one another and from the old ones. -/
def Fresh (old new : List String) : Prop := new.Nodup ∧ ∀ k ∈ new, k ∉ old

section Demands

variable (comments : Bool) (maxDepth : Nat)

/-- What a text must be after the value `u` for the document to be `t`. -/
def Closes : List OpenContainer → List Char → Token → Token → Prop
  | [], cs, u, t => IsTrivia comments true cs ∧ u = t
  | .array _ items :: up, cs, u, t =>
    Padded comments (fun x => ∃ vs tail,
      GoesOn ']' (IsItems comments (maxDepth - (up.length + 1))) x vs tail ∧
      Closes up tail (.array {} ((u :: itemsWithoutSpans items).reverse ++ bareItems vs)) t) cs
  | .object _ members key :: up, cs, u, t =>
    Padded comments (fun x => ∃ ms tail,
      GoesOn '\x7d' (IsMembers comments (maxDepth - (up.length + 1))) x ms tail ∧
      Fresh (key.name :: members.map (·.1.name)) (ms.map (·.1)) ∧
      Closes up tail (.object {} (((key.withoutSpan, u) :: membersWithoutSpans members).reverse ++
        bareMembers ms)) t) cs

/-- A text that begins with a value inside of `up`. -/
def ValueStarts (up : List OpenContainer) (t : Token) (x : List Char) : Prop :=
  ∃ cs rest v, x = cs ++ rest ∧ IsValue comments (maxDepth - up.length) cs v ∧
    Closes comments maxDepth up rest (bareOfJson v) t

/-- A text that begins with the colon of a member. -/
def ColonStarts (span : Span) (members : Members) (key : Key) (up : List OpenContainer) (t : Token)
    (x : List Char) : Prop :=
  ∃ rest, x = ':' :: rest ∧
    Padded comments (ValueStarts comments maxDepth (.object span members key :: up) t) rest

/-- A text that begins with a key of an object that has `members`. -/
def KeyStarts (span : Span) (members : Members) (up : List OpenContainer) (t : Token)
    (x : List Char) : Prop :=
  ∃ key rest k, x = key ++ rest ∧ IsString key k ∧ k ∉ members.map (·.1.name) ∧
    Padded comments (ColonStarts comments maxDepth span members { name := k } up t) rest

/-- What a reading wants of a text that no trivia come first in. -/
def Starts : Reading → Token → List Char → Prop
  | .value up, t, x => ValueStarts comments maxDepth up t x
  | .firstItem span up, t, x =>
    (∃ tail, x = ']' :: tail ∧ Closes comments maxDepth up tail (.array {} []) t) ∨
      ValueStarts comments maxDepth (.array span [] :: up) t x
  | .afterItem _ items up, t, x => ∃ vs tail,
      GoesOn ']' (IsItems comments (maxDepth - (up.length + 1))) x vs tail ∧
      Closes comments maxDepth up tail
        (.array {} ((itemsWithoutSpans items).reverse ++ bareItems vs)) t
  | .firstKey span up, t, x =>
    (∃ tail, x = '\x7d' :: tail ∧ Closes comments maxDepth up tail (.object {} []) t) ∨
      KeyStarts comments maxDepth span [] up t x
  | .nextKey span members up, t, x => KeyStarts comments maxDepth span members up t x
  | .afterKey span members key up, t, x => ColonStarts comments maxDepth span members key up t x
  | .afterMember _ members up, t, x => ∃ ms tail,
      GoesOn '\x7d' (IsMembers comments (maxDepth - (up.length + 1))) x ms tail ∧
      Fresh (members.map (·.1.name)) (ms.map (·.1)) ∧
      Closes comments maxDepth up tail
        (.object {} ((membersWithoutSpans members).reverse ++ bareMembers ms)) t
  | .done _, _, _ => False

/-- What a text must be for a reading to end with a tree that is `t` without its places. -/
def Completes : Reading → List Char → Token → Prop
  | .done u, cs, t => IsTrivia comments true cs ∧ u.withoutSpans = t
  | r, cs, t => Padded comments (Starts comments maxDepth r t) cs

end Demands

variable {comments : Bool} {maxDepth : Nat} {cs x : List Char} {c : Char} {s : Span} {t u : Token}
  {up : List OpenContainer} {r r' : Reading}

/-- A reading that has just taken in a value wants the open containers closed. -/
theorem completes_receive :
    Completes comments maxDepth (receive u up) cs t ↔
      Closes comments maxDepth up cs u.withoutSpans t := by
  cases up with
  | nil => exact Iff.rfl
  | cons k up => cases k <;> exact Iff.rfl

/-- An array that has just been closed is a value. -/
theorem completes_closeArray {span : Span} {items : List Token} :
    Completes comments maxDepth (closeArray span items up) cs t ↔
      Closes comments maxDepth up cs (.array {} (itemsWithoutSpans items).reverse) t := by
  rw [closeArray, completes_receive, withoutSpans, itemsWithoutSpans_eq_map,
    itemsWithoutSpans_eq_map, List.map_reverse]
  rfl

/-- An object that has just been closed is a value. -/
theorem completes_closeObject {span : Span} {members : Members} :
    Completes comments maxDepth (closeObject span members up) cs t ↔
      Closes comments maxDepth up cs (.object {} (membersWithoutSpans members).reverse) t := by
  rw [closeObject, completes_receive, withoutSpans, membersWithoutSpans_eq_map,
    membersWithoutSpans_eq_map, List.map_reverse]
  rfl

/-! ## Parts of containers -/

/-- The new keys `k :: ks` are fresh when `k` is and `ks` are fresh after it. -/
theorem fresh_cons {old ks : List String} {k : String} :
    Fresh old (k :: ks) ↔ k ∉ old ∧ Fresh (k :: old) ks := by
  simp only [Fresh, List.nodup_cons, List.mem_cons, not_or]
  grind

section Parts

variable {span : Span} {after tail : List Char}

/-- After an item of an array come trivia and then the rest of the array. -/
theorem closes_array {items : List Token} {v : Json} {vs : List Json}
    (hafter : IsTrivia comments false after)
    (hgo : GoesOn ']' (IsItems comments (maxDepth - (up.length + 1))) x vs tail)
    (hcloses : Closes comments maxDepth up tail
      (.array {} ((itemsWithoutSpans items).reverse ++ bareItems (v :: vs))) t) :
    Closes comments maxDepth (.array span items :: up) (after ++ x) (bareOfJson v) t :=
  ⟨after, x, rfl, hafter, vs, tail, hgo, by simpa using hcloses⟩

/-- After a member of an object come trivia and then the rest of the object. -/
theorem closes_object {members : Members} {k : String} {v : Json} {ms : List (String × Json)}
    (hafter : IsTrivia comments false after)
    (hgo : GoesOn '\x7d' (IsMembers comments (maxDepth - (up.length + 1))) x ms tail)
    (hfresh : Fresh (k :: members.map (·.1.name)) (ms.map (·.1)))
    (hcloses : Closes comments maxDepth up tail
      (.object {} ((membersWithoutSpans members).reverse ++ bareMembers ((k, v) :: ms))) t) :
    Closes comments maxDepth (.object span members { name := k } :: up) (after ++ x)
      (bareOfJson v) t :=
  ⟨after, x, rfl, hafter, ms, tail, hgo, hfresh, by simpa [Key.withoutSpan] using hcloses⟩

/-- A text that goes on with a value inside of an array holds the other items of the array. -/
theorem padded_valueStarts_iff {items : List Token} :
    Padded comments (ValueStarts comments maxDepth (.array span items :: up) t) cs ↔
      ∃ inner vs tail, cs = inner ++ ']' :: tail ∧
        IsItems comments (maxDepth - (up.length + 1)) inner vs ∧
        Closes comments maxDepth up tail
          (.array {} ((itemsWithoutSpans items).reverse ++ bareItems vs)) t := by
  constructor
  · rintro ⟨before, _, rfl, hbefore, value, _, v, rfl, hv, after, _, rfl, hafter, vs, tail, hgo,
      hcloses⟩
    have hcloses : Closes comments maxDepth up tail
        (.array {} ((itemsWithoutSpans items).reverse ++ bareItems (v :: vs))) t := by
      simpa using hcloses
    cases hgo with
    | closed => exact ⟨_, [v], tail, by simp, .last hbefore hv hafter, hcloses⟩
    | more hinner => exact ⟨_, v :: vs, tail, by simp, .more hbefore hv hafter hinner, hcloses⟩
  · rintro ⟨inner, vs, tail, rfl, hinner, hcloses⟩
    cases hinner with
    | @last _ before value after v hbefore hv hafter =>
      exact ⟨before, value ++ (after ++ ']' :: tail), by simp, hbefore, value, _, v, rfl, hv,
        closes_array hafter .closed hcloses⟩
    | @more _ before value after rest v vs hbefore hv hafter hrest =>
      exact ⟨before, value ++ (after ++ (',' :: rest ++ ']' :: tail)), by simp, hbefore, value, _,
        v, rfl, hv, closes_array hafter (.more hrest) hcloses⟩

/-- A member of an object with a new key, where the rest of the object follows. -/
theorem padded_keyStarts_of_isMember {members : Members} {m : String × Json}
    {ms : List (String × Json)} (hm : IsMember comments (maxDepth - (up.length + 1)) cs m)
    (hgo : GoesOn '\x7d' (IsMembers comments (maxDepth - (up.length + 1))) x ms tail)
    (hfresh : Fresh (members.map (·.1.name)) ((m :: ms).map (·.1)))
    (hcloses : Closes comments maxDepth up tail
      (.object {} ((membersWithoutSpans members).reverse ++ bareMembers (m :: ms))) t) :
    Padded comments (KeyStarts comments maxDepth span members up t) (cs ++ x) := by
  obtain @⟨_, before, key, between, afterColon, value, after, k, v, hbefore, hkey, hbetween,
    hafterColon, hv, hafter⟩ := hm
  obtain ⟨hk, hfresh⟩ := fresh_cons.1 hfresh
  have hvalue : ValueStarts comments maxDepth (.object span members { name := k } :: up) t
      (value ++ (after ++ x)) :=
    ⟨value, _, v, rfl, hv, closes_object hafter hgo hfresh hcloses⟩
  have hcolon : ColonStarts comments maxDepth span members { name := k } up t
      (':' :: (afterColon ++ (value ++ (after ++ x)))) :=
    ⟨_, rfl, afterColon, _, rfl, hafterColon, hvalue⟩
  exact ⟨before, key ++ (between ++ _), by simp, hbefore, key, _, k, rfl, hkey, hk, between, _, rfl,
    hbetween, hcolon⟩

/-- A text that goes on with a key holds the other members of the object. -/
theorem padded_keyStarts_iff {members : Members} :
    Padded comments (KeyStarts comments maxDepth span members up t) cs ↔
      ∃ inner ms tail, cs = inner ++ '\x7d' :: tail ∧
        IsMembers comments (maxDepth - (up.length + 1)) inner ms ∧
        Fresh (members.map (·.1.name)) (ms.map (·.1)) ∧
        Closes comments maxDepth up tail
          (.object {} ((membersWithoutSpans members).reverse ++ bareMembers ms)) t := by
  constructor
  · rintro ⟨before, _, rfl, hbefore, key, _, k, rfl, hkey, hk, between, _, rfl, hbetween, _, rfl,
      afterColon, _, rfl, hafterColon, value, _, v, rfl, hv, after, _, rfl, hafter, ms, tail, hgo,
      hfresh, hcloses⟩
    have hmember := IsMember.mk hbefore hkey hbetween hafterColon hv hafter
    have hfresh : Fresh (members.map (·.1.name)) (((k, v) :: ms).map (·.1)) :=
      fresh_cons.2 ⟨hk, hfresh⟩
    have hcloses : Closes comments maxDepth up tail
        (.object {} ((membersWithoutSpans members).reverse ++ bareMembers ((k, v) :: ms))) t := by
      simpa [Key.withoutSpan] using hcloses
    cases hgo with
    | closed => exact ⟨_, [(k, v)], tail, by simp, .last hmember, hfresh, hcloses⟩
    | more hinner => exact ⟨_, (k, v) :: ms, tail, by simp, .more hmember hinner, hfresh, hcloses⟩
  · rintro ⟨inner, ms, tail, rfl, hinner, hfresh, hcloses⟩
    cases hinner with
    | last hm => exact padded_keyStarts_of_isMember hm .closed hfresh hcloses
    | more hm hrest =>
      rw [List.append_assoc]
      exact padded_keyStarts_of_isMember hm (.more hrest) hfresh hcloses

end Parts

/-! ## What comes first -/

/-- Trivia do not go on with a number or a word. -/
theorem ended_of_isTrivia {atEnd : Bool} {l : List Char} (hl : IsTrivia comments atEnd l)
    (hx : Ended x) : Ended (l ++ x) := by
  have blank : ∀ c ∈ [' ', '\t', '\n', '\r', '/'],
      Lexeme.isNumberChar c = false ∧ isNameChar c = false := by
    simp [Lexeme.isNumberChar, isNameChar, isAlphanumeric]
  cases hl with
  | nil => exact hx
  | blank hc =>
    have hc := blank _ (List.mem_append_left ['/'] hc)
    constructor <;> rintro _ ⟨⟩
    exacts [hc.1, hc.2]
  | line | lastLine | block =>
    constructor <;> rintro _ ⟨⟩ <;> rfl

/-- What goes on with a container does not go on with a number or a word. -/
theorem GoesOn.ended {α : Type} {close : Char} {Parts : List Char → List α → Prop} {ps : List α}
    {tail : List Char} (h : GoesOn close Parts x ps tail) (hclose : close = ']' ∨ close = '\x7d') :
    Ended x := by
  cases h with
  | closed => obtain rfl | rfl := hclose <;> constructor <;> rintro _ ⟨⟩ <;> rfl
  | more => constructor <;> rintro _ ⟨⟩ <;> rfl

/-- What follows a value does not go on with it. -/
theorem Closes.ended (h : Closes comments maxDepth up cs u t) : Ended cs := by
  cases up with
  | nil =>
    have hcs := ended_of_isTrivia h.1 (x := []) ⟨nofun, nofun⟩
    rwa [List.append_nil] at hcs
  | cons k up =>
    cases k with
    | array =>
      obtain ⟨after, x, rfl, hafter, _, _, hgo, -⟩ := h
      exact ended_of_isTrivia hafter (hgo.ended (.inl rfl))
    | object =>
      obtain ⟨after, x, rfl, hafter, _, _, hgo, -⟩ := h
      exact ended_of_isTrivia hafter (hgo.ended (.inr rfl))

/-- A value begins with a lexeme. -/
theorem begins_of_isValue {n : Nat} {v : Json} (h : IsValue comments n cs v) :
    Begins (cs ++ x) := by
  cases h with
  | scalar h => exact h.begins
  | string h => exact h.begins
  | emptyArray | array | emptyObject | object => exact ⟨_, _, rfl, rfl, by decide⟩

/-- A text that begins with a value begins with a lexeme. -/
theorem ValueStarts.begins (h : ValueStarts comments maxDepth up t x) : Begins x := by
  obtain ⟨cs, rest, v, rfl, hv, -⟩ := h
  exact begins_of_isValue hv

/-- A text that begins with a key begins with a lexeme. -/
theorem KeyStarts.begins {span : Span} {members : Members}
    (h : KeyStarts comments maxDepth span members up t x) : Begins x := by
  obtain ⟨key, rest, k, rfl, hkey, -⟩ := h
  exact hkey.begins

/-- What goes on with a container begins with a mark. -/
theorem GoesOn.begins {α : Type} {close : Char} {Parts : List Char → List α → Prop} {ps : List α}
    {tail : List Char} (h : GoesOn close Parts x ps tail) (hclose : close = ']' ∨ close = '\x7d') :
    Begins x := by
  cases h with
  | closed => exact ⟨_, _, rfl, by obtain rfl | rfl := hclose <;> decide⟩
  | more => exact ⟨_, _, rfl, by decide⟩

/-- Where a reading wants its next lexeme, the text begins with one. -/
theorem Starts.begins (h : Starts comments maxDepth r t x) : Begins x := by
  cases r with
  | value => exact ValueStarts.begins h
  | firstItem =>
    obtain ⟨_, rfl, -⟩ | h := h
    · exact ⟨_, _, rfl, by decide⟩
    · exact h.begins
  | afterItem =>
    obtain ⟨_, _, hgo, -⟩ := h
    exact hgo.begins (.inl rfl)
  | firstKey =>
    obtain ⟨_, rfl, -⟩ | h := h
    · exact ⟨_, _, rfl, by decide⟩
    · exact h.begins
  | nextKey => exact KeyStarts.begins h
  | afterKey =>
    obtain ⟨_, rfl, -⟩ := h
    exact ⟨_, _, rfl, by decide⟩
  | afterMember =>
    obtain ⟨_, _, hgo, -⟩ := h
    exact hgo.begins (.inr rfl)
  | done => exact h.elim

end TimedMachine.Reading
