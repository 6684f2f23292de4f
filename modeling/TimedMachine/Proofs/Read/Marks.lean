import TimedMachine.Proofs.Read.Places
import Mathlib.Data.List.Forall2

/-!
# Where the parts of a tree stand

A token that is read from a text knows the place of its first character, and so does the key of a
member. `Token.read_marks` says that these places are right: the text has a value with the token's
content there, which reads to the same tree when it is cut out and read alone, and a string literal
that decodes to the key; and the parts of the tree stand in the text in the order of the tree.

A text of the grammar is gone through piece by piece, and each piece takes one reading to another
(`Reading.ReadsOn`). What the pieces add to the tree is in order within them, so it is in order in
the whole (`Grammar.InOrder`).
-/

namespace TimedMachine

/-- A part of a tree that has a place of its own: a token, or the key of a member. -/
inductive Mark where
  | token (t : Token)
  | key (k : Key)

namespace Token

mutual

/-- The parts of a tree that have a place, in the order of the document: a container before its
contents, a key before its value. -/
def marks : Token → List Mark
  | .null s => [.token (.null s)]
  | .bool s b => [.token (.bool s b)]
  | .number s x => [.token (.number s x)]
  | .string s v => [.token (.string s v)]
  | .array s items => .token (.array s items) :: itemMarks items
  | .object s members => .token (.object s members) :: memberMarks members

/-- The parts of items, one item after another. -/
def itemMarks : List Token → List Mark
  | [] => []
  | t :: ts => t.marks ++ itemMarks ts

/-- The parts of members, one member after another. -/
def memberMarks : Members → List Mark
  | [] => []
  | (k, t) :: ms => .key k :: t.marks ++ memberMarks ms

end

end Token

namespace Grammar

/-! ## Less depth -/

section Depth

variable {comments : Bool}

mutual

/-- A value may nest deeper than it does. -/
theorem isValue_mono {n m : Nat} {cs : List Char} {v : Json} (hnm : n ≤ m)
    (h : IsValue comments n cs v) : IsValue comments m cs v := by
  have hdeeper {n : Nat} (hnm : n + 1 ≤ m) : ∃ m', m = m' + 1 ∧ n ≤ m' :=
    ⟨m - 1, by omega, by omega⟩
  cases h with
  | scalar h => exact .scalar h
  | string h => exact .string h
  | emptyArray h =>
    obtain ⟨m, rfl, -⟩ := hdeeper hnm
    exact .emptyArray h
  | array h =>
    obtain ⟨m, rfl, hle⟩ := hdeeper hnm
    exact .array (isItems_mono hle h)
  | emptyObject h =>
    obtain ⟨m, rfl, -⟩ := hdeeper hnm
    exact .emptyObject h
  | object h hkeys =>
    obtain ⟨m, rfl, hle⟩ := hdeeper hnm
    exact .object (isMembers_mono hle h) hkeys

/-- Items may nest deeper than they do. -/
theorem isItems_mono {n m : Nat} {cs : List Char} {vs : List Json} (hnm : n ≤ m)
    (h : IsItems comments n cs vs) : IsItems comments m cs vs := by
  cases h with
  | last hbefore hv hafter => exact .last hbefore (isValue_mono hnm hv) hafter
  | more hbefore hv hafter hrest =>
    exact .more hbefore (isValue_mono hnm hv) hafter (isItems_mono hnm hrest)

/-- Members may nest deeper than they do. -/
theorem isMembers_mono {n m : Nat} {cs : List Char} {ms : List (String × Json)} (hnm : n ≤ m)
    (h : IsMembers comments n cs ms) : IsMembers comments m cs ms := by
  cases h with
  | last hm => exact .last (isMember_mono hnm hm)
  | more hm hrest => exact .more (isMember_mono hnm hm) (isMembers_mono hnm hrest)

/-- A member may nest deeper than it does. -/
theorem isMember_mono {n m : Nat} {cs : List Char} {p : String × Json} (hnm : n ≤ m)
    (h : IsMember comments n cs p) : IsMember comments m cs p := by
  cases h with
  | mk hbefore hkey hbetween hafterColon hv hafter =>
    exact .mk hbefore hkey hbetween hafterColon (isValue_mono hnm hv) hafter

end

end Depth

/-! ## Marks in a text -/

section Marks

variable (comments : Bool) (maxDepth : Nat)

/-- Whether a part of a tree stands at `s`, where the text goes on with `x`. -/
def Stands (s : Span) (x : List Char) : Mark → Prop
  | .token t => t.span = some s ∧ ∃ cs v, cs <+: x ∧ IsValue comments maxDepth cs v ∧
      t.withoutSpans = Token.bareOfJson v
  | .key k => k.span = some s ∧ ∃ cs, cs <+: x ∧ IsString cs k.name

/-- Parts of a tree that stand one after another in a text that begins at `s`. -/
inductive InOrder : Span → List Char → List Mark → Prop
  | nil {s : Span} {cs : List Char} : InOrder s cs []
  | skip {s : Span} {c : Char} {cs : List Char} {ms : List Mark} (h : InOrder (s.next c) cs ms) :
      InOrder s (c :: cs) ms
  | here {s : Span} {c : Char} {cs : List Char} {m : Mark} {ms : List Mark}
      (hm : Stands comments maxDepth s (c :: cs) m) (h : InOrder (s.next c) cs ms) :
      InOrder s (c :: cs) (m :: ms)

variable {comments maxDepth} {s : Span} {cs ds before after : List Char} {m : Mark}
  {ms ns : List Mark}

/-- What stands at a place stands there however the text goes on. -/
theorem Stands.append (h : Stands comments maxDepth s cs m) :
    Stands comments maxDepth s (cs ++ ds) m := by
  cases m with
  | token t =>
    obtain ⟨hspan, value, v, hvalue, hv⟩ := h
    exact ⟨hspan, value, v, hvalue.trans (List.prefix_append _ _), hv⟩
  | key k =>
    obtain ⟨hspan, literal, hliteral, hk⟩ := h
    exact ⟨hspan, literal, hliteral.trans (List.prefix_append _ _), hk⟩

/-- The parts in one text and then those in the text after it. -/
theorem InOrder.append (h : InOrder comments maxDepth s cs ms)
    (h' : InOrder comments maxDepth (s.after cs) ds ns) :
    InOrder comments maxDepth s (cs ++ ds) (ms ++ ns) := by
  induction h with
  | @nil s cs =>
    induction cs generalizing s with
    | nil => exact h'
    | cons c cs ih => exact .skip (ih h')
  | skip _ ih => exact .skip (ih h')
  | here hm _ ih => exact .here hm.append (ih h')

/-- Nothing needs to stand after the parts. -/
theorem InOrder.append_right (h : InOrder comments maxDepth s cs ms) (after : List Char) :
    InOrder comments maxDepth s (cs ++ after) ms := by
  have hnil : InOrder comments maxDepth (s.after cs) after [] := .nil
  have happend := h.append hnil
  rwa [List.append_nil] at happend

/-- Nothing needs to stand before and after the parts. -/
theorem InOrder.padded (h : InOrder comments maxDepth (s.after before) cs ms) :
    InOrder comments maxDepth s (before ++ cs ++ after) ms := by
  have hbefore : InOrder comments maxDepth s (before ++ cs) ms := InOrder.nil.append h
  exact hbefore.append_right after

/-- A container before its parts. -/
theorem InOrder.container {c d : Char}
    (hm : Stands comments maxDepth s (c :: cs ++ [d]) m)
    (h : InOrder comments maxDepth (s.next c) cs ms) :
    InOrder comments maxDepth s (c :: cs ++ [d]) (m :: ms) :=
  .here hm (h.append_right [d])

end Marks

end Grammar

/-! ## Pieces of a text -/

namespace Reading

open Grammar Token

section Pieces

variable (comments : Bool) (maxDepth : Nat)

/-- Whether reading on from `r` at `s` goes through `cs` and is then at `r'`, where the text goes on
with `x`. -/
def ReadsOn (s : Span) (cs x : List Char) (r r' : Reading) : Prop :=
  resume (strict maxDepth) comments s (cs ++ x) r =
    resume (strict maxDepth) comments (s.after cs) x r'

variable {comments maxDepth} {s : Span} {c : Char} {cs ds x l before after : List Char}
  {f : Lexeme.Form} {r r' r'' : Reading} {up : List OpenContainer}

/-- One piece of a text and then the next. -/
theorem ReadsOn.trans (h : ReadsOn comments maxDepth s cs (ds ++ x) r r')
    (h' : ReadsOn comments maxDepth (s.after cs) ds x r' r'') :
    ReadsOn comments maxDepth s (cs ++ ds) x r r'' := by
  unfold ReadsOn at h h' ⊢
  rw [List.append_assoc, h, h', Span.after_append]

/-- Trivia are skipped up to where they end. -/
theorem skipTrivia_append (hl : IsTrivia comments x.isEmpty l) (hx : Solid comments x) :
    Lexeme.skipTrivia comments .between s (l ++ x) = .ok (s.after l, x) := by
  obtain ⟨s', hskip⟩ := exists_skipTrivia_append hl hx s
  obtain ⟨before, rest, hcs, hskipped, -⟩ := exists_skipped comments .between s (l ++ x)
  rw [hskip] at hskipped ⊢
  cases hskipped
  rw [List.append_cancel_right hcs]

/-- Trivia leave a reading as it is. -/
theorem readsOn_trivia (hl : IsTrivia comments false l) (hx : Begins x) :
    ReadsOn comments maxDepth s l x r r := by
  have hsolid : Solid comments x := hx.solid
  obtain ⟨c, cs, rfl, -⟩ := hx
  unfold ReadsOn
  rw [resume_of_cons (skipTrivia_append hl hsolid), resume_of_cons (skipTrivia_of_solid hsolid)]

/-- A lexeme takes a reading to the next. -/
theorem readsOn_lexeme (hbegins : Begins (c :: (ds ++ x)))
    (hcut : Lexeme.cut s c (ds ++ x) = ⟨f, ds, x⟩)
    (hstep : step (strict maxDepth) ⟨s, c, f⟩ r = .ok r') :
    ReadsOn comments maxDepth s (c :: ds) x r r' := by
  unfold ReadsOn
  rw [List.cons_append, resume_of_cons (skipTrivia_of_solid hbegins.solid), hcut, hstep]
  rfl

/-- A mark is a lexeme. -/
theorem begins_of_mark (hc : c ∈ ['\x7b', '\x7d', '[', ']', ':', ',']) : Begins (c :: x) := by
  refine ⟨c, x, rfl, ?_⟩
  simp only [List.mem_cons, List.not_mem_nil, or_false] at hc
  obtain rfl | rfl | rfl | rfl | rfl | rfl := hc <;> decide

/-- No mark goes on with a number or a word. -/
theorem ended_of_mark (hc : c ∈ ['\x7b', '\x7d', '[', ']', ':', ',']) : Ended (c :: x) := by
  simp only [List.mem_cons, List.not_mem_nil, or_false] at hc
  obtain rfl | rfl | rfl | rfl | rfl | rfl := hc <;> constructor <;> rintro _ ⟨⟩ <;> rfl

/-- A mark takes a reading to the next. -/
theorem readsOn_mark (hc : c ∈ ['\x7b', '\x7d', '[', ']', ':', ','])
    (hstep : step (strict maxDepth) ⟨s, c, Lexeme.markForm c⟩ r = .ok r') :
    ReadsOn comments maxDepth s [c] x r r' :=
  readsOn_lexeme (begins_of_mark hc) (cut_of_mark hc) hstep

/-- A piece of a text with trivia before and after it. -/
theorem ReadsOn.padded (h : ReadsOn comments maxDepth (s.after before) cs (after ++ x) r r')
    (hbefore : IsTrivia comments false before) (hafter : IsTrivia comments false after)
    (hcs : Begins (cs ++ (after ++ x))) (hx : Begins x) :
    ReadsOn comments maxDepth s (before ++ cs ++ after) x r r' :=
  ((readsOn_trivia hbefore hcs).trans h).trans (readsOn_trivia hafter hx)

/-- A container is opened, gone through and closed. -/
theorem ReadsOn.enclosed {d : Char} {inside full : Reading}
    (h : ReadsOn comments maxDepth (s.next c) cs (d :: x) inside full)
    (hopen : ∀ x, ReadsOn comments maxDepth s [c] x r inside)
    (hclose : ∀ s, ReadsOn comments maxDepth s [d] x full r') :
    ReadsOn comments maxDepth s (c :: cs ++ [d]) x r r' :=
  ((hopen _).trans h).trans (hclose _)

end Pieces

/-! ## Values and their parts -/

/-- Whether a reading takes in what begins a value as a value inside of `up`. -/
def TakesValue (maxDepth : Nat) (up : List OpenContainer) (r : Reading) : Prop :=
  ∀ s c f, f ≠ .closeArray →
    step (strict maxDepth) ⟨s, c, f⟩ r = beginValue (strict maxDepth) ⟨s, c, f⟩ up

/-- Whether a reading takes in a key as one of an object that has `members`. -/
def TakesMember (maxDepth : Nat) (span : Span) (members : Members) (up : List OpenContainer)
    (r : Reading) : Prop :=
  ∀ s c f, f ≠ .closeObject →
    step (strict maxDepth) ⟨s, c, f⟩ r = beginMember (strict maxDepth) ⟨s, c, f⟩ span members up

theorem takesValue_firstItem (maxDepth : Nat) (span : Span) (up : List OpenContainer) :
    TakesValue maxDepth (.array span [] :: up) (.firstItem span up) :=
  fun _ _ _ hf => step_firstItem hf span up

theorem takesMember_firstKey (maxDepth : Nat) (span : Span) (up : List OpenContainer) :
    TakesMember maxDepth span [] up (.firstKey span up) :=
  fun _ _ _ hf => step_firstKey hf span up

section Values

variable {comments : Bool} {maxDepth : Nat}

/-- A mark opens an array where a value is wanted and may nest. -/
theorem readsOn_openArray {s : Span} {up : List OpenContainer} {r : Reading}
    (hr : TakesValue maxDepth up r) (hdepth : up.length < maxDepth) (x : List Char) :
    ReadsOn comments maxDepth s ['['] x r (.firstItem s up) := by
  refine readsOn_mark (by decide) ?_
  rw [Lexeme.markForm, hr _ _ _ (by simp)]
  exact enter_eq_ok.2 ⟨hdepth, rfl⟩

/-- A mark opens an object where a value is wanted and may nest. -/
theorem readsOn_openObject {s : Span} {up : List OpenContainer} {r : Reading}
    (hr : TakesValue maxDepth up r) (hdepth : up.length < maxDepth) (x : List Char) :
    ReadsOn comments maxDepth s ['\x7b'] x r (.firstKey s up) := by
  refine readsOn_mark (by decide) ?_
  rw [Lexeme.markForm, hr _ _ _ (by simp)]
  exact enter_eq_ok.2 ⟨hdepth, rfl⟩

mutual

/-- A value is read as a token, and the token and its parts stand in order in the text. -/
theorem exists_readsOn_value {n : Nat} {cs : List Char} {v : Json} (h : IsValue comments n cs v)
    (s : Span) {x : List Char} {up : List OpenContainer} {r : Reading}
    (hr : TakesValue maxDepth up r) (hdepth : maxDepth - up.length = n) (hx : Ended x) :
    ∃ u : Token, u.withoutSpans = bareOfJson v ∧ InOrder comments maxDepth s cs u.marks ∧
      ReadsOn comments maxDepth s cs x r (receive u up) := by
  -- inside of other containers a value may nest less deep than it may when it is read alone
  have hstands := isValue_mono (Nat.le_trans (Nat.le_of_eq hdepth.symm) (Nat.sub_le _ _)) h
  cases h with
  | @scalar _ _ v hv =>
    obtain ⟨c, ds, rfl⟩ := hv.exists_cons
    have hbare : (scalarToken s v).withoutSpans = bareOfJson (ofScalar v) := by cases v <;> rfl
    have hmarks : (scalarToken s v).marks = [.token (scalarToken s v)] := by cases v <;> rfl
    have hspan : (scalarToken s v).span = some s := by cases v <;> rfl
    refine ⟨scalarToken s v, hbare, ?_, readsOn_lexeme hv.begins (cut_of_isScalar hv hx) ?_⟩
    · rw [hmarks]
      exact .here ⟨hspan, _, _, List.prefix_refl _, hstands, hbare⟩ .nil
    · rw [hr _ _ _ (by simp)]
      rfl
  | @string _ _ k hk =>
    obtain ⟨c, ds, rfl⟩ := hk.exists_cons
    refine ⟨.string (siteAt s) k, rfl, .here ⟨rfl, _, _, List.prefix_refl _, hstands, rfl⟩ .nil,
      readsOn_lexeme hk.begins (cut_of_isString hk) ?_⟩
    rw [hr _ _ _ (by simp)]
    rfl
  | @emptyArray n cs htrivia =>
    refine ⟨.array (siteAt s) [], rfl,
      .container ⟨rfl, _, _, List.prefix_refl _, hstands, rfl⟩ .nil, ?_⟩
    have hinside : ReadsOn comments maxDepth (s.next '[') cs (']' :: x) (.firstItem s up)
        (.firstItem s up) := readsOn_trivia htrivia (begins_of_mark (by decide))
    exact hinside.enclosed (readsOn_openArray hr (Nat.lt_of_sub_eq_succ hdepth))
      fun _ => readsOn_mark (by decide) rfl
  | @array n cs vs hitems =>
    obtain ⟨us, hus, horder, hread⟩ := exists_readsOn_items hitems (s.next '[') x
      (takesValue_firstItem maxDepth s up) (by omega)
    have hbare : (Token.array (siteAt s) us).withoutSpans = bareOfJson (.array vs) := by
      rw [withoutSpans, hus]
      rfl
    refine ⟨.array (siteAt s) us, hbare,
      .container ⟨rfl, _, _, List.prefix_refl _, hstands, hbare⟩ horder, ?_⟩
    refine hread.enclosed (readsOn_openArray hr (Nat.lt_of_sub_eq_succ hdepth))
      fun _ => readsOn_mark (by decide) ?_
    -- items are kept in reverse until the array is closed
    show Except.ok (closeArray s (us.reverse ++ []) up) = _
    rw [List.append_nil, closeArray, List.reverse_reverse]
  | @emptyObject n cs htrivia =>
    refine ⟨.object (siteAt s) [], rfl,
      .container ⟨rfl, _, _, List.prefix_refl _, hstands, rfl⟩ .nil, ?_⟩
    have hinside : ReadsOn comments maxDepth (s.next '\x7b') cs ('\x7d' :: x) (.firstKey s up)
        (.firstKey s up) := readsOn_trivia htrivia (begins_of_mark (by decide))
    exact hinside.enclosed (readsOn_openObject hr (Nat.lt_of_sub_eq_succ hdepth))
      fun _ => readsOn_mark (by decide) rfl
  | @object n cs ms hmembers hkeys =>
    obtain ⟨us, hus, horder, hread⟩ := exists_readsOn_members hmembers (s.next '\x7b') x
      (takesMember_firstKey maxDepth s up) (by omega) ⟨hkeys, by simp⟩
    have hbare : (Token.object (siteAt s) us).withoutSpans = bareOfJson (.object ms) := by
      rw [withoutSpans, hus]
      rfl
    refine ⟨.object (siteAt s) us, hbare,
      .container ⟨rfl, _, _, List.prefix_refl _, hstands, hbare⟩ horder, ?_⟩
    refine hread.enclosed (readsOn_openObject hr (Nat.lt_of_sub_eq_succ hdepth))
      fun _ => readsOn_mark (by decide) ?_
    show Except.ok (closeObject s (us.reverse ++ []) up) = _
    rw [List.append_nil, closeObject, List.reverse_reverse]

/-- The items of an array are read as tokens, which stand in order in the text. -/
theorem exists_readsOn_items {n : Nat} {cs : List Char} {vs : List Json}
    (h : IsItems comments n cs vs) (s : Span) (tail : List Char) {span : Span}
    {done : List Token} {up : List OpenContainer} {r : Reading}
    (hr : TakesValue maxDepth (.array span done :: up) r)
    (hdepth : maxDepth - (up.length + 1) = n) :
    ∃ us, itemsWithoutSpans us = bareItems vs ∧ InOrder comments maxDepth s cs (itemMarks us) ∧
      ReadsOn comments maxDepth s cs (']' :: tail) r (.afterItem span (us.reverse ++ done) up) := by
  cases h with
  | @last _ before cs after v hbefore hv hafter =>
    have hend : Ended (after ++ ']' :: tail) := ended_of_isTrivia hafter (ended_of_mark (by decide))
    obtain ⟨u, hu, horder, hread⟩ := exists_readsOn_value hv (s.after before) hr hdepth hend
    refine ⟨[u], by rw [itemsWithoutSpans, hu]; rfl, ?_, ?_⟩
    · rw [itemMarks, itemMarks, List.append_nil]
      exact horder.padded
    · exact hread.padded hbefore hafter (begins_of_isValue hv) (begins_of_mark (by decide))
  | @more _ before cs after rest v vs hbefore hv hafter hrest =>
    have hend : Ended (after ++ (',' :: rest ++ ']' :: tail)) :=
      ended_of_isTrivia hafter (ended_of_mark (by decide))
    obtain ⟨u, hu, horder, hread⟩ := exists_readsOn_value hv (s.after before) hr hdepth hend
    obtain ⟨us, hus, horders, hreads⟩ := exists_readsOn_items hrest
      ((s.after (before ++ cs ++ after)).next ',') tail
      (show TakesValue maxDepth (.array span (u :: done) :: up) (.value _) from fun _ _ _ _ => rfl)
      hdepth
    have hcomma : ReadsOn comments maxDepth (s.after (before ++ cs ++ after)) [',']
        (rest ++ ']' :: tail) (.afterItem span (u :: done) up)
        (.value (.array span (u :: done) :: up)) := readsOn_mark (by decide) rfl
    refine ⟨u :: us, by rw [itemsWithoutSpans, hu, hus]; rfl, horder.padded.append (.skip horders),
      ?_⟩
    rw [List.reverse_cons, List.append_assoc us.reverse]
    have hitem := hread.padded hbefore hafter (begins_of_isValue hv) (begins_of_mark (by decide))
    exact hitem.trans (hcomma.trans hreads)

/-- The members of an object are read as keys and tokens, which stand in order in the text. -/
theorem exists_readsOn_members {n : Nat} {cs : List Char} {ms : List (String × Json)}
    (h : IsMembers comments n cs ms) (s : Span) (tail : List Char) {span : Span} {done : Members}
    {up : List OpenContainer} {r : Reading} (hr : TakesMember maxDepth span done up r)
    (hdepth : maxDepth - (up.length + 1) = n)
    (hfresh : Fresh (done.map (·.1.name)) (ms.map (·.1))) :
    ∃ us, membersWithoutSpans us = bareMembers ms ∧
      InOrder comments maxDepth s cs (memberMarks us) ∧
      ReadsOn comments maxDepth s cs ('\x7d' :: tail) r
        (.afterMember span (us.reverse ++ done) up) := by
  cases h with
  | @last _ _ m hm =>
    obtain ⟨k, u, hk, hu, horder, hread⟩ := exists_readsOn_member hm s hr hdepth
      (x := '\x7d' :: tail) (ended_of_mark (by decide)) (begins_of_mark (by decide))
      (fresh_cons.1 hfresh).1
    refine ⟨[(k, u)], ?_, ?_, hread⟩
    · simp [hu, ← hk, Key.withoutSpan]
    · simpa [memberMarks] using horder
  | @more _ cs rest m ms hm hrest =>
    obtain ⟨hnew, hfresh⟩ := fresh_cons.1 hfresh
    obtain ⟨k, u, hk, hu, horder, hread⟩ := exists_readsOn_member hm s hr hdepth
      (x := ',' :: rest ++ '\x7d' :: tail) (ended_of_mark (by decide)) (begins_of_mark (by decide))
      hnew
    obtain ⟨us, hus, horders, hreads⟩ := exists_readsOn_members hrest ((s.after cs).next ',') tail
      (show TakesMember maxDepth span ((k, u) :: done) up (.nextKey _ _ _) from fun _ _ _ _ => rfl)
      hdepth (by rwa [List.map_cons, hk])
    have hcomma : ReadsOn comments maxDepth (s.after cs) [','] (rest ++ '\x7d' :: tail)
        (.afterMember span ((k, u) :: done) up) (.nextKey span ((k, u) :: done) up) :=
      readsOn_mark (by decide) rfl
    refine ⟨(k, u) :: us, ?_, horder.append (.skip horders), ?_⟩
    · rw [membersWithoutSpans, hu, hus, Key.withoutSpan, hk]
      rfl
    · rw [List.reverse_cons, List.append_assoc]
      exact hread.trans (hcomma.trans hreads)

/-- A member of an object is read as its key and a token, which stand in order in the text. -/
theorem exists_readsOn_member {n : Nat} {cs : List Char} {p : String × Json}
    (h : IsMember comments n cs p) (s : Span) {x : List Char} {span : Span} {done : Members}
    {up : List OpenContainer} {r : Reading} (hr : TakesMember maxDepth span done up r)
    (hdepth : maxDepth - (up.length + 1) = n)
    (hx : Ended x) (hbegins : Begins x) (hnew : p.1 ∉ done.map (·.1.name)) :
    ∃ (k : Key) (u : Token), k.name = p.1 ∧ u.withoutSpans = bareOfJson p.2 ∧
      InOrder comments maxDepth s cs (.key k :: u.marks) ∧
      ReadsOn comments maxDepth s cs x r (.afterMember span ((k, u) :: done) up) := by
  cases h with
  | @mk _ before key between afterColon cs after k v hbefore hkey hbetween hafterColon hv hafter =>
    have hend : Ended (after ++ x) := ended_of_isTrivia hafter hx
    obtain ⟨u, hu, horder, hread⟩ := exists_readsOn_value hv
      (s.after (before ++ key ++ between ++ ':' :: afterColon))
      (show TakesValue maxDepth (.object span done ⟨k, some (s.after before)⟩ :: up) (.value _) from
        fun _ _ _ _ => rfl) hdepth hend
    obtain ⟨c, ds, rfl⟩ := hkey.exists_cons
    have hkeyRead : ReadsOn comments maxDepth (s.after before) (c :: ds)
        (between ++ (':' :: afterColon ++ (cs ++ (after ++ x)))) r
        (.afterKey span done ⟨k, some (s.after before)⟩ up) := by
      refine readsOn_lexeme hkey.begins (cut_of_isString hkey) ?_
      rw [hr _ _ _ (by simp), beginMember_string, if_neg hnew]
    have hcolon : ReadsOn comments maxDepth (s.after (before ++ c :: ds ++ between)) [':']
        (afterColon ++ (cs ++ (after ++ x))) (.afterKey span done ⟨k, some (s.after before)⟩ up)
        (.value (.object span done ⟨k, some (s.after before)⟩ :: up)) :=
      readsOn_mark (by decide) rfl
    have hkeyOrder : InOrder comments maxDepth s
        (before ++ c :: ds ++ (between ++ ':' :: afterColon)) [.key ⟨k, some (s.after before)⟩] :=
      .padded (.here ⟨rfl, c :: ds, List.prefix_refl _, hkey⟩ .nil)
    rw [← List.append_assoc] at hkeyOrder
    refine ⟨⟨k, some (s.after before)⟩, u, rfl, hu, ?_, ?_⟩
    · exact (hkeyOrder.append horder).append_right after
    · have hkeyPadded :=
        hkeyRead.padded hbefore hbetween hkey.begins (begins_of_mark (by decide))
      have hcolonPadded := hcolon.trans (readsOn_trivia hafterColon (begins_of_isValue hv))
      exact ((hkeyPadded.trans hcolonPadded).trans hread).trans (readsOn_trivia hafter hbegins)

end

end Values

/-- A document that is read has its parts in order in the text. -/
theorem inOrder_of_document {comments : Bool} {maxDepth : Nat} {text : String} {u : Token}
    (h : document (strict maxDepth) comments text = .ok u) :
    InOrder comments maxDepth .start text.toList u.marks := by
  obtain ⟨v, hdocument, -⟩ := exists_document_iff.1 ⟨u, h, rfl⟩
  have hresume : resume (strict maxDepth) comments .start text.toList (.value []) = .ok u := h
  generalize text.toList = cs at hdocument hresume
  cases hdocument with
  | @mk before value after v hbefore hv hafter =>
    have hend : Ended after := by
      simpa using ended_of_isTrivia hafter (x := []) ⟨nofun, nofun⟩
    obtain ⟨u', -, horder, hread⟩ := exists_readsOn_value hv (Span.start.after before)
      (show TakesValue maxDepth [] (.value []) from fun _ _ _ _ => rfl) rfl hend
    have hskip : Lexeme.skipTrivia comments .between (Span.start.after (before ++ value)) after =
        .ok (Span.start.after (before ++ value ++ after), []) := by
      simpa using skipTrivia_append (x := []) hafter nofun
    have hvalue : ReadsOn comments maxDepth .start (before ++ value) after (.value []) (.done u') :=
      (readsOn_trivia hbefore (begins_of_isValue hv)).trans hread
    obtain rfl : u' = u := by
      have hdone := hvalue.symm.trans hresume
      rw [resume_of_end hskip] at hdone
      exact Except.ok.inj hdone
    exact horder.padded

end Reading

/-! ## Trees at the root -/

namespace Token

mutual

/-- A tree that is placed anew is placed as if it had never been. -/
theorem placed_placed (p q : String) : ∀ t : Token, (t.placed p).placed q = t.placed q
  | .null _ | .bool _ _ | .number _ _ | .string _ _ => rfl
  | .array _ items => by
    simp only [placed, placedItems_placed p q 0 items]
  | .object _ members => by
    simp only [placed, placedMembers_placed p q members]

/-- Items that are placed anew. -/
theorem placedItems_placed (p q : String) : ∀ (i : Nat) (ts : List Token),
    placedItems q i (placedItems p i ts) = placedItems q i ts
  | _, [] => rfl
  | i, t :: ts => by
    simp only [placedItems, placed_placed _ _ t, placedItems_placed p q (i + 1) ts]

/-- Members that are placed anew. -/
theorem placedMembers_placed (p q : String) : ∀ ms : Members,
    placedMembers q (placedMembers p ms) = placedMembers q ms
  | [] => rfl
  | (k, t) :: ms => by
    simp only [placedMembers, placed_placed _ _ t, placedMembers_placed p q ms]

end

@[simp] theorem span_placed (p : String) (t : Token) : (t.placed p).span = t.span := by
  cases t <;> rfl

/-- Whether two trees are the same but for their paths and places. -/
def Alike (t u : Token) : Prop := (t.placed "").withoutSpans = (u.placed "").withoutSpans

end Token

/-- A part of a tree as if the tree that it is the root of were a document. -/
def Mark.atRoot : Mark → Mark
  | .token t => .token (t.placed "")
  | .key k => .key k

namespace Token

mutual

/-- Where a tree is placed does not matter to its parts, taken alone. -/
theorem marks_placed (p : String) :
    ∀ t : Token, (t.placed p).marks.map Mark.atRoot = t.marks.map Mark.atRoot
  | .null _ | .bool _ _ | .number _ _ | .string _ _ => rfl
  | .array s items => by
    simp [placed, marks, Mark.atRoot, placedItems_placed, itemMarks_placed p 0 items]
  | .object s members => by
    simp [placed, marks, Mark.atRoot, placedMembers_placed, memberMarks_placed p members]

/-- Where items are placed does not matter to their parts. -/
theorem itemMarks_placed (p : String) : ∀ (i : Nat) (ts : List Token),
    (itemMarks (placedItems p i ts)).map Mark.atRoot = (itemMarks ts).map Mark.atRoot
  | _, [] => rfl
  | i, t :: ts => by
    simp [placedItems, itemMarks, marks_placed _ t, itemMarks_placed p (i + 1) ts]

/-- Where members are placed does not matter to their parts. -/
theorem memberMarks_placed (p : String) : ∀ ms : Members,
    (memberMarks (placedMembers p ms)).map Mark.atRoot = (memberMarks ms).map Mark.atRoot
  | [] => rfl
  | (k, t) :: ms => by
    simp [placedMembers, memberMarks, marks_placed _ t, memberMarks_placed p ms]

end

end Token

/-! ## Reading a text -/

open Grammar

/-- What a text has at an index where a part of a tree is said to stand: a piece of it that reads
alone as the token does, or a literal of the key. -/
def Mark.FitsAt (o : ReadOptions) (cs : List Char) (i : Nat) : Mark → Prop
  | .token t => t.span = some (locate cs i) ∧ ∃ piece, piece <+: cs.drop i ∧
      ∃ u, Token.read o (String.ofList piece) = .ok u ∧ t.Alike u
  | .key k => k.span = some (locate cs i) ∧ ∃ literal, literal <+: cs.drop i ∧
      IsString literal k.name

variable {o : ReadOptions} {cs before : List Char} {m : Mark} {ms : List Mark} {i : Nat}

/-- Parts of trees fit alike wherever their trees are placed. -/
theorem Mark.fitsAt_atRoot : m.atRoot.FitsAt o cs i ↔ m.FitsAt o cs i := by
  cases m with
  | key k => exact Iff.rfl
  | token t => simp only [atRoot, FitsAt, Token.Alike, Token.span_placed, Token.placed_placed]

/-- What stands at the end of a piece of a text fits there. -/
theorem Grammar.Stands.fitsAt {x : List Char}
    (h : Stands o.allowComments o.maxDepth (Span.start.after before) x m) :
    m.FitsAt o (before ++ x) before.length := by
  cases m with
  | key k =>
    obtain ⟨hspan, literal, hliteral, hk⟩ := h
    exact ⟨by rw [locate_length_append, hspan], literal, by rwa [List.drop_left], hk⟩
  | token t =>
    obtain ⟨hspan, piece, v, hpiece, hv, hbare⟩ := h
    have hdocument : IsDocument o.allowComments o.maxDepth (String.ofList piece).toList v := by
      simpa using IsDocument.mk .nil hv .nil
    obtain ⟨u, hu, hv⟩ := Token.exists_read_of_isDocument hdocument
    refine ⟨by rw [locate_length_append, hspan], piece, by rwa [List.drop_left], u, hu, ?_⟩
    rw [Token.Alike, Token.withoutSpans_placed, Token.withoutSpans_placed, hbare, hv, Token.ofJson,
      Token.placed_placed]

/-- Parts that stand one after another fit at indices that go up. -/
theorem Grammar.InOrder.exists_offsets {s : Span} {x : List Char}
    (h : InOrder o.allowComments o.maxDepth s x ms) (before : List Char)
    (hs : s = Span.start.after before) :
    ∃ offsets : List Nat, (∀ i ∈ offsets, before.length ≤ i) ∧ offsets.Pairwise (· < ·) ∧
      List.Forall₂ (Mark.FitsAt o (before ++ x)) offsets ms := by
  -- the index of a place is the number of the characters before it, which grows along the text
  induction h generalizing before with
  | nil => exact ⟨[], by simp, .nil, .nil⟩
  | @skip s c x ms _ ih =>
    obtain ⟨offsets, hleast, hpairwise, hfits⟩ :=
      ih (before ++ [c]) (by rw [hs, Span.after_append]; rfl)
    rw [List.append_assoc] at hfits
    rw [List.length_append] at hleast
    exact ⟨offsets, fun i hi => Nat.le_of_succ_le (hleast i hi), hpairwise, hfits⟩
  | @here s c x m ms hm _ ih =>
    obtain ⟨offsets, hleast, hpairwise, hfits⟩ :=
      ih (before ++ [c]) (by rw [hs, Span.after_append]; rfl)
    rw [List.append_assoc] at hfits
    rw [List.length_append] at hleast
    subst hs
    exact ⟨before.length :: offsets,
      List.forall_mem_cons.2 ⟨Nat.le_refl _, fun i hi => Nat.le_of_succ_le (hleast i hi)⟩,
      .cons hleast hpairwise, .cons hm.fitsAt hfits⟩

/-- Every part of a tree that was read has the place of an index of the text at which the text has
that part: for a token, a value that reads alone as the token does; for a key, a literal of it.
The indices go up in the order of the document. -/
theorem Token.read_marks {text : String} {t : Token} (h : Token.read o text = .ok t) :
    ∃ offsets : List Nat, offsets.Pairwise (· < ·) ∧
      List.Forall₂ (Mark.FitsAt o text.toList) offsets t.marks := by
  obtain ⟨u, hu, rfl⟩ := exists_document_of_read h
  obtain ⟨offsets, -, hpairwise, hfits⟩ :=
    (Reading.inOrder_of_document hu).exists_offsets [] rfl
  have hroot (ms : List Mark) : List.Forall₂ (Mark.FitsAt o text.toList) offsets ms ↔
      List.Forall₂ (Mark.FitsAt o text.toList) offsets (ms.map Mark.atRoot) := by
    rw [List.forall₂_map_right_iff]
    simp only [Mark.fitsAt_atRoot]
  exact ⟨offsets, hpairwise, by rwa [hroot, marks_placed, ← hroot]⟩

-- so that what a scan gives can be evaluated
deriving instance DecidableEq for Lexeme.Form, Lexeme, TextEnd

/-- An object whose key is on the first line of a text and whose array is on the second. -/
def onTwoLines : Token :=
  .object ⟨"", some ⟨1, 1⟩⟩
    [(⟨"k", some ⟨1, 2⟩⟩, .array ⟨"k", some ⟨2, 1⟩⟩ [.bool ⟨"k[0]", some ⟨2, 3⟩⟩ true])]

/-- The object, its key, its array and the item of the array stand in the text that it is read
from. -/
theorem Token.read_marks_onTwoLines :
    Token.read {} "\x7b\"k\":\n[ true]\x7d" = .ok onTwoLines ∧
    ∃ offsets : List Nat, offsets.Pairwise (· < ·) ∧
      List.Forall₂ (Mark.FitsAt {} "\x7b\"k\":\n[ true]\x7d".toList) offsets onTwoLines.marks := by
  have h : Token.read {} "\x7b\"k\":\n[ true]\x7d" = .ok onTwoLines := by
    have hscan : Lexeme.scan true .start "\x7b\"k\":\n[ true]\x7d".toList =
        ([⟨⟨1, 1⟩, '\x7b', .openObject⟩, ⟨⟨1, 2⟩, '"', .string (.ok "k")⟩, ⟨⟨1, 5⟩, ':', .colon⟩,
          ⟨⟨2, 1⟩, '[', .openArray⟩, ⟨⟨2, 3⟩, 't', .scalar (.ok (.bool true))⟩,
          ⟨⟨2, 7⟩, ']', .closeArray⟩, ⟨⟨2, 8⟩, '\x7d', .closeObject⟩], .eof ⟨2, 9⟩) := by
      decide +kernel
    rw [Token.read, Reading.document, hscan]
    rfl
  exact ⟨h, Token.read_marks h⟩

end TimedMachine
