import TimedMachine.Proofs.Read.Demand

/-!
# Documents are what the grammar says

One lexeme takes a reading that a text completes to one that the rest of the text completes
(`Reading.exists_step_iff`), so a whole text is read as the tree of the value that it denotes, and
is refused if it denotes none (`Token.read_eq_ok_iff_isDocument`).
-/

namespace TimedMachine.Reading

open Grammar Token

variable {comments : Bool} {maxDepth : Nat} {cs x : List Char} {c : Char} {s : Span} {t u : Token}
  {up : List OpenContainer} {r r' : Reading}

/-! ## One lexeme -/

/-- The document's reader refuses repeated keys. -/
abbrev strict (maxDepth : Nat) : Limits := { maxDepth, distinctKeys := true }

/-- Where the nesting may go one deeper. -/
theorem enter_eq_ok {limits : Limits} {l : Lexeme} :
    enter limits l up r = .ok r' ↔ up.length < limits.maxDepth ∧ r = r' := by
  unfold enter
  split <;> simp <;> omega

/-- The depth that is left outside a container is one more than the one inside of it. -/
theorem sub_length_eq (h : up.length < maxDepth) :
    maxDepth - up.length = maxDepth - (up.length + 1) + 1 := by
  omega

/-- Where a value is begun and the rest of the text completes the reading, the text is one that
begins with a value. -/
theorem valueStarts_of_beginValue {k : Lexeme.Cut} (hcut : Cuts c cs k)
    (h : beginValue (strict maxDepth) ⟨s, c, k.form⟩ up = .ok r)
    (hr : Completes comments maxDepth r k.rest t) :
    ValueStarts comments maxDepth up t (c :: cs) := by
  cases hcut with
  | @string ds x key hkey =>
    cases h
    exact ⟨c :: ds, x, .string key, rfl, .string hkey, completes_receive.1 hr⟩
  | @scalar ds x v hv =>
    cases h
    refine ⟨c :: ds, x, ofScalar v, rfl, .scalar hv, ?_⟩
    have hcloses := completes_receive.1 hr
    cases v <;> exact hcloses
  | badString e => cases h
  | badScalar e => cases h
  | mark =>
    unfold Lexeme.markForm at h
    split at h
    case h_1 =>
      obtain ⟨hdepth, rfl⟩ := enter_eq_ok.1 h
      obtain ⟨before, x, hcs, hbefore, ⟨tail, rfl, hcloses⟩ | hkey⟩ := hr
      · refine ⟨'\x7b' :: before ++ ['\x7d'], tail, .object [], by simp [← hcs], ?_, hcloses⟩
        rw [sub_length_eq hdepth]
        exact .emptyObject hbefore
      · obtain ⟨inner, ms, tail, rfl, hinner, hfresh, hcloses⟩ :=
          padded_keyStarts_iff.1 ⟨before, x, hcs, hbefore, hkey⟩
        refine ⟨'\x7b' :: inner ++ ['\x7d'], tail, .object ms, by simp, ?_, hcloses⟩
        rw [sub_length_eq hdepth]
        exact .object hinner hfresh.1
    case h_3 =>
      obtain ⟨hdepth, rfl⟩ := enter_eq_ok.1 h
      obtain ⟨before, x, hcs, hbefore, ⟨tail, rfl, hcloses⟩ | hitem⟩ := hr
      · refine ⟨'[' :: before ++ [']'], tail, .array [], by simp [← hcs], ?_, hcloses⟩
        rw [sub_length_eq hdepth]
        exact .emptyArray hbefore
      · obtain ⟨inner, vs, tail, rfl, hinner, hcloses⟩ :=
          padded_valueStarts_iff.1 ⟨before, x, hcs, hbefore, hitem⟩
        refine ⟨'[' :: inner ++ [']'], tail, .array vs, by simp, ?_, hcloses⟩
        rw [sub_length_eq hdepth]
        exact .array hinner
    all_goals cases h

/-- A text that begins with a value begins it and completes the reading after its first lexeme. -/
theorem exists_beginValue (s : Span) (h : ValueStarts comments maxDepth up t (c :: cs)) :
    ∃ r, beginValue (strict maxDepth) ⟨s, c, (Lexeme.cut s c cs).form⟩ up = .ok r ∧
      Completes comments maxDepth r (Lexeme.cut s c cs).rest t := by
  obtain ⟨value, rest, v, heq, hv, hcloses⟩ := h
  generalize hdepth : maxDepth - up.length = n at hv
  cases hv with
  | @scalar _ _ v hv =>
    obtain ⟨d, ds, rfl⟩ := hv.exists_cons
    obtain ⟨rfl, rfl⟩ : c = d ∧ cs = ds ++ rest := List.cons.inj heq
    rw [cut_of_isScalar hv hcloses.ended]
    refine ⟨_, rfl, completes_receive.2 ?_⟩
    cases v <;> exact hcloses
  | string hk =>
    obtain ⟨d, ds, rfl⟩ := hk.exists_cons
    obtain ⟨rfl, rfl⟩ : c = d ∧ cs = ds ++ rest := List.cons.inj heq
    rw [cut_of_isString hk]
    exact ⟨_, rfl, completes_receive.2 hcloses⟩
  | @emptyArray n before hbefore =>
    obtain ⟨rfl, rfl⟩ : c = '[' ∧ cs = before ++ [']'] ++ rest := List.cons.inj heq
    rw [cut_of_mark (by decide)]
    exact ⟨_, enter_eq_ok.2 ⟨Nat.lt_of_sub_eq_succ hdepth, rfl⟩, before, _, List.append_assoc ..,
      hbefore, .inl ⟨rest, rfl, hcloses⟩⟩
  | @array n inner vs hinner =>
    obtain ⟨rfl, rfl⟩ : c = '[' ∧ cs = inner ++ [']'] ++ rest := List.cons.inj heq
    obtain rfl : n = maxDepth - (up.length + 1) := by omega
    have hitems : Padded comments (ValueStarts comments maxDepth (.array s [] :: up) t)
        (inner ++ ']' :: rest) :=
      padded_valueStarts_iff.2 ⟨inner, vs, rest, rfl, hinner, hcloses⟩
    obtain ⟨before, x, hcs, hbefore, hx⟩ := hitems
    rw [cut_of_mark (by decide)]
    exact ⟨_, enter_eq_ok.2 ⟨Nat.lt_of_sub_eq_succ hdepth, rfl⟩, before, x,
      (List.append_assoc ..).trans hcs, hbefore, .inr hx⟩
  | @emptyObject n before hbefore =>
    obtain ⟨rfl, rfl⟩ : c = '\x7b' ∧ cs = before ++ ['\x7d'] ++ rest := List.cons.inj heq
    rw [cut_of_mark (by decide)]
    exact ⟨_, enter_eq_ok.2 ⟨Nat.lt_of_sub_eq_succ hdepth, rfl⟩, before, _, List.append_assoc ..,
      hbefore, .inl ⟨rest, rfl, hcloses⟩⟩
  | @object n inner ms hinner hkeys =>
    obtain ⟨rfl, rfl⟩ : c = '\x7b' ∧ cs = inner ++ ['\x7d'] ++ rest := List.cons.inj heq
    obtain rfl : n = maxDepth - (up.length + 1) := by omega
    have hmembers : Padded comments (KeyStarts comments maxDepth s [] up t)
        (inner ++ '\x7d' :: rest) :=
      padded_keyStarts_iff.2 ⟨inner, ms, rest, rfl, hinner, ⟨hkeys, by simp⟩, hcloses⟩
    obtain ⟨before, x, hcs, hbefore, hx⟩ := hmembers
    rw [cut_of_mark (by decide)]
    exact ⟨_, enter_eq_ok.2 ⟨Nat.lt_of_sub_eq_succ hdepth, rfl⟩, before, x,
      (List.append_assoc ..).trans hcs, hbefore, .inr hx⟩

/-- A key is taken in where no member has it yet. -/
theorem beginMember_string {span : Span} {members : Members} {key : String} :
    beginMember (strict maxDepth) ⟨s, c, .string (.ok key)⟩ span members up =
      if key ∈ members.map (·.1.name) then .error (.duplicateKey s key)
      else .ok (.afterKey span members ⟨key, some s⟩ up) := by
  have hany : members.any (·.1.name == key) ↔ key ∈ members.map (·.1.name) := by simp
  by_cases hkey : key ∈ members.map (·.1.name)
  · rw [if_pos hkey]
    exact if_pos ⟨rfl, hany.2 hkey⟩
  · rw [if_neg hkey]
    exact if_neg fun h => hkey (hany.1 h.2)

/-- Where a member is begun and the rest of the text completes the reading, the text begins with a
new key. -/
theorem keyStarts_of_beginMember {k : Lexeme.Cut} {span : Span} {members : Members}
    (hcut : Cuts c cs k)
    (h : beginMember (strict maxDepth) ⟨s, c, k.form⟩ span members up = .ok r)
    (hr : Completes comments maxDepth r k.rest t) :
    KeyStarts comments maxDepth span members up t (c :: cs) := by
  cases hcut with
  | @string ds x key hkey =>
    rw [beginMember_string] at h
    split at h
    case isTrue => cases h
    case isFalse hnew =>
      cases h
      exact ⟨c :: ds, x, key, rfl, hkey, hnew, hr⟩
  | scalar => cases h
  | badString e => cases h
  | badScalar e => cases h
  | mark =>
    unfold Lexeme.markForm at h
    split at h <;> cases h

/-- A text that begins with a new key begins a member and completes the reading after the key. -/
theorem exists_beginMember (s : Span) {span : Span} {members : Members}
    (h : KeyStarts comments maxDepth span members up t (c :: cs)) :
    ∃ r, beginMember (strict maxDepth) ⟨s, c, (Lexeme.cut s c cs).form⟩ span members up = .ok r ∧
      Completes comments maxDepth r (Lexeme.cut s c cs).rest t := by
  obtain ⟨key, rest, k, heq, hkey, hnew, hrest⟩ := h
  obtain ⟨d, ds, rfl⟩ := hkey.exists_cons
  obtain ⟨rfl, rfl⟩ : c = d ∧ cs = ds ++ rest := List.cons.inj heq
  rw [cut_of_isString hkey, beginMember_string, if_neg hnew]
  exact ⟨_, rfl, hrest⟩

/-- If what a text is after one lexeme completes the reading that has taken it in, the text is what
the reading wanted before. -/
theorem starts_of_step {k : Lexeme.Cut} (hcut : Cuts c cs k)
    (h : step (strict maxDepth) ⟨s, c, k.form⟩ r = .ok r')
    (hr : Completes comments maxDepth r' k.rest t) : Starts comments maxDepth r t (c :: cs) := by
  cases r with
  | value up => exact valueStarts_of_beginValue hcut h hr
  | firstItem span up =>
    rw [step] at h
    split at h
    · next hform =>
      cases h
      obtain ⟨rfl, hrest⟩ := hcut.eq_mark (d := ']') hform (by decide)
      rw [hrest] at hr
      exact .inl ⟨cs, rfl, completes_closeArray.1 hr⟩
    · exact .inr (valueStarts_of_beginValue hcut h hr)
  | afterItem span items up =>
    rw [step] at h
    split at h
    · next hform =>
      cases h
      obtain ⟨rfl, hrest⟩ := hcut.eq_mark (d := ',') hform (by decide)
      rw [hrest] at hr
      obtain ⟨inner, vs, tail, rfl, hinner, hcloses⟩ := padded_valueStarts_iff.1 hr
      exact ⟨vs, tail, .more hinner, hcloses⟩
    · next hform =>
      cases h
      obtain ⟨rfl, hrest⟩ := hcut.eq_mark (d := ']') hform (by decide)
      rw [hrest] at hr
      exact ⟨[], cs, .closed, by simpa using completes_closeArray.1 hr⟩
    · cases h
  | firstKey span up =>
    rw [step] at h
    split at h
    · next hform =>
      cases h
      obtain ⟨rfl, hrest⟩ := hcut.eq_mark (d := '\x7d') hform (by decide)
      rw [hrest] at hr
      exact .inl ⟨cs, rfl, completes_closeObject.1 hr⟩
    · exact .inr (keyStarts_of_beginMember hcut h hr)
  | nextKey span members up => exact keyStarts_of_beginMember hcut h hr
  | afterKey span members key up =>
    rw [step] at h
    split at h
    · next hform =>
      cases h
      obtain ⟨rfl, hrest⟩ := hcut.eq_mark (d := ':') hform (by decide)
      rw [hrest] at hr
      exact ⟨cs, rfl, hr⟩
    · cases h
  | afterMember span members up =>
    rw [step] at h
    split at h
    · next hform =>
      cases h
      obtain ⟨rfl, hrest⟩ := hcut.eq_mark (d := ',') hform (by decide)
      rw [hrest] at hr
      obtain ⟨inner, ms, tail, rfl, hinner, hfresh, hcloses⟩ := padded_keyStarts_iff.1 hr
      exact ⟨ms, tail, .more hinner, hfresh, hcloses⟩
    · next hform =>
      cases h
      obtain ⟨rfl, hrest⟩ := hcut.eq_mark (d := '\x7d') hform (by decide)
      rw [hrest] at hr
      exact ⟨[], cs, .closed, ⟨.nil, by simp⟩, by simpa using completes_closeObject.1 hr⟩
    · cases h
  | done u => cases h

/-- What a reading wants of a text lets it take in the first lexeme, and the rest completes it. -/
theorem exists_step (s : Span) (h : Starts comments maxDepth r t (c :: cs)) :
    ∃ r', step (strict maxDepth) ⟨s, c, (Lexeme.cut s c cs).form⟩ r = .ok r' ∧
      Completes comments maxDepth r' (Lexeme.cut s c cs).rest t := by
  cases r with
  | value up => exact exists_beginValue s h
  | firstItem span up =>
    obtain ⟨tail, heq, hcloses⟩ | h := h
    · cases heq
      rw [cut_of_mark (by decide)]
      exact ⟨_, rfl, completes_closeArray.2 hcloses⟩
    · obtain ⟨r', hr', hcompletes⟩ := exists_beginValue s h
      refine ⟨r', ?_, hcompletes⟩
      rw [step]
      split
      · next hform =>
        rw [show (Lexeme.cut s c cs).form = _ from hform] at hr'
        cases hr'
      · exact hr'
  | afterItem span items up =>
    obtain ⟨vs, tail, hgo, hcloses⟩ := h
    generalize hx : c :: cs = x at hgo
    cases hgo with
    | closed =>
      cases hx
      rw [cut_of_mark (by decide)]
      exact ⟨_, rfl, completes_closeArray.2 (by simpa using hcloses)⟩
    | more hinner =>
      cases hx
      rw [cut_of_mark (by decide)]
      exact ⟨_, rfl, padded_valueStarts_iff.2 ⟨_, vs, tail, rfl, hinner, hcloses⟩⟩
  | firstKey span up =>
    obtain ⟨tail, heq, hcloses⟩ | h := h
    · cases heq
      rw [cut_of_mark (by decide)]
      exact ⟨_, rfl, completes_closeObject.2 hcloses⟩
    · obtain ⟨r', hr', hcompletes⟩ := exists_beginMember s h
      refine ⟨r', ?_, hcompletes⟩
      rw [step]
      split
      · next hform =>
        rw [show (Lexeme.cut s c cs).form = _ from hform] at hr'
        cases hr'
      · exact hr'
  | nextKey span members up => exact exists_beginMember s h
  | afterKey span members key up =>
    obtain ⟨rest, heq, hrest⟩ := h
    cases heq
    rw [cut_of_mark (by decide)]
    exact ⟨_, rfl, hrest⟩
  | afterMember span members up =>
    obtain ⟨ms, tail, hgo, hfresh, hcloses⟩ := h
    generalize hx : c :: cs = x at hgo
    cases hgo with
    | closed =>
      cases hx
      rw [cut_of_mark (by decide)]
      exact ⟨_, rfl, completes_closeObject.2 (by simpa using hcloses)⟩
    | more hinner =>
      cases hx
      rw [cut_of_mark (by decide)]
      exact ⟨_, rfl, padded_keyStarts_iff.2 ⟨_, ms, tail, rfl, hinner, hfresh, hcloses⟩⟩
  | done u => exact h.elim

/-- One lexeme: a reading wants a text exactly if it takes in the first lexeme of the text and the
rest completes it then. -/
theorem exists_step_iff :
    (∃ r', step (strict maxDepth) ⟨s, c, (Lexeme.cut s c cs).form⟩ r = .ok r' ∧
      Completes comments maxDepth r' (Lexeme.cut s c cs).rest t) ↔
    Starts comments maxDepth r t (c :: cs) :=
  ⟨fun ⟨_, h, hr⟩ => starts_of_step (cuts_cut s c cs) h hr, exists_step s⟩

/-! ## A whole text -/

/-- Reads the text `cs`, which begins at `s`, on from `r`. -/
def resume (limits : Limits) (comments : Bool) (s : Span) (cs : List Char) (r : Reading) :
    Except ReadError Token :=
  (run limits (Lexeme.scan comments s cs).1 r).bind (finish (Lexeme.scan comments s cs).2)

variable {limits : Limits} {s' : Span}

/-- A comment that is none ends in a fault. -/
theorem resume_of_error {e : ReadError}
    (h : Lexeme.skipTrivia comments .between s cs = .error e) :
    resume limits comments s cs r = .error e := by
  unfold resume
  rw [Lexeme.scan]
  split
  · next h' =>
    cases h.symm.trans h'
    rfl
  · next h' => cases h.symm.trans h'
  · next h' => cases h.symm.trans h'

/-- At the end of the text the reading must be done. -/
theorem resume_of_end (h : Lexeme.skipTrivia comments .between s cs = .ok (s', [])) :
    resume limits comments s cs r = finish (.eof s') r := by
  unfold resume
  rw [Lexeme.scan]
  split
  · next h' => cases h.symm.trans h'
  · next h' =>
    cases h.symm.trans h'
    rfl
  · next h' => cases h.symm.trans h'

/-- The first lexeme is taken in, and then the rest is read. -/
theorem resume_eq_ok_of_cons (h : Lexeme.skipTrivia comments .between s cs = .ok (s', c :: x)) :
    resume limits comments s cs r = .ok u ↔
      ∃ r', step limits ⟨s', c, (Lexeme.cut s' c x).form⟩ r = .ok r' ∧
        resume limits comments (s'.after (c :: (Lexeme.cut s' c x).taken))
          (Lexeme.cut s' c x).rest r' = .ok u := by
  unfold resume
  rw [Lexeme.scan]
  split
  · next h' => cases h.symm.trans h'
  · next h' => cases h.symm.trans h'
  · next h' =>
    cases h.symm.trans h'
    simp only [run]
    cases step limits ⟨s', c, (Lexeme.cut s' c x).form⟩ r with
    | error e =>
      constructor
      · intro h
        cases h
      · rintro ⟨_, ⟨⟩, -⟩
    | ok r' =>
      constructor
      · exact fun h => ⟨r', rfl, h⟩
      · rintro ⟨_, ⟨⟩, h⟩
        exact h

/-- Of a text that a reading wants, only trivia are skipped; then it is at its end and the reading
is done, or it is what the reading wants next. -/
theorem exists_skipTrivia_of_completes (s : Span) (h : Completes comments maxDepth r cs t) :
    ∃ s' x, Lexeme.skipTrivia comments .between s cs = .ok (s', x) ∧
      ((x = [] ∧ ∃ u, r = .done u ∧ u.withoutSpans = t) ∨ Starts comments maxDepth r t x) := by
  cases r
  case done u =>
    obtain ⟨htrivia, rfl⟩ := h
    obtain ⟨s', hskip⟩ := exists_skipTrivia_append (x := []) htrivia nofun s
    rw [List.append_nil] at hskip
    exact ⟨s', [], hskip, .inl ⟨rfl, u, rfl, rfl⟩⟩
  all_goals
    obtain ⟨before, x, rfl, hbefore, hx⟩ := h
    obtain ⟨s', hskip⟩ := (Starts.begins hx).exists_skipTrivia hbefore s
    exact ⟨s', x, hskip, .inr hx⟩

/-- What a text must be for a reading, where the trivia that come first have been skipped. -/
theorem completes_iff_of_skipTrivia
    (h : Lexeme.skipTrivia comments .between s cs = .ok (s', x)) :
    Completes comments maxDepth r cs t ↔
      (x = [] ∧ ∃ u, r = .done u ∧ u.withoutSpans = t) ∨ Starts comments maxDepth r t x := by
  constructor
  · intro hr
    obtain ⟨s'', y, hskip, hy⟩ := exists_skipTrivia_of_completes s hr
    cases h.symm.trans hskip
    exact hy
  · obtain ⟨-, l, rfl, hl⟩ := exists_isTrivia_of_skipTrivia h
    rintro (⟨rfl, u, rfl, rfl⟩ | hx)
    · exact ⟨by simpa using hl, rfl⟩
    · obtain ⟨d, ds, rfl, -⟩ := hx.begins
      cases r
      case done => exact hx.elim
      all_goals exact ⟨l, d :: ds, rfl, hl, hx⟩

/-- A text is read on to a tree, places aside, exactly if the reading wants it for that tree. -/
theorem exists_resume_iff :
    (∃ u, resume (strict maxDepth) comments s cs r = .ok u ∧ u.withoutSpans = t) ↔
      Completes comments maxDepth r cs t := by
  induction hn : cs.length using Nat.strong_induction_on generalizing cs s r with
  | _ n ih =>
    match h : Lexeme.skipTrivia comments .between s cs with
    | .error e =>
      rw [resume_of_error h]
      refine ⟨nofun, fun hr => ?_⟩
      obtain ⟨s', x, hskip, -⟩ := exists_skipTrivia_of_completes s hr
      cases h.symm.trans hskip
    | .ok (s', []) =>
      have hnil : ¬Starts comments maxDepth r t [] := fun hx => by
        obtain ⟨_, _, heq, -⟩ := hx.begins
        cases heq
      rw [resume_of_end h, completes_iff_of_skipTrivia h, or_iff_left hnil]
      cases r <;> simp [finish]
    | .ok (s', c :: x) =>
      have hlt : (Lexeme.cut s' c x).rest.length < n := by
        have hcut := Lexeme.length_rest_le s' c x
        have hskip := Lexeme.length_skipTrivia_le h
        rw [List.length_cons] at hskip
        omega
      rw [completes_iff_of_skipTrivia h, or_iff_right (by simp), ← exists_step_iff]
      constructor
      · rintro ⟨u, hu, rfl⟩
        obtain ⟨r', hr', hu⟩ := (resume_eq_ok_of_cons h).1 hu
        exact ⟨r', hr', (ih _ hlt rfl).1 ⟨u, hu, rfl⟩⟩
      · rintro ⟨r', hr', hrest⟩
        obtain ⟨u, hu, rfl⟩ := (ih _ hlt rfl).2 hrest
        exact ⟨u, (resume_eq_ok_of_cons h).2 ⟨r', hr', hu⟩, rfl⟩

/-- A text is read as a tree, places and paths aside, exactly if it denotes the tree's value. -/
theorem exists_document_iff {text : String} :
    (∃ u, document (strict maxDepth) comments text = .ok u ∧ u.withoutSpans = t) ↔
      ∃ v, IsDocument comments maxDepth text.toList v ∧ t = bareOfJson v := by
  refine exists_resume_iff.trans ⟨?_, ?_⟩
  · rintro ⟨before, _, heq, hbefore, value, after, v, rfl, hv, hafter, rfl⟩
    rw [heq, ← List.append_assoc]
    exact ⟨v, .mk hbefore hv hafter, rfl⟩
  · rintro ⟨v, hdocument, rfl⟩
    generalize text.toList = cs at hdocument
    cases hdocument with
    | @mk before value after _ hbefore hv hafter =>
      exact ⟨before, value ++ after, List.append_assoc .., hbefore, value, after, v, rfl, hv,
        hafter, rfl⟩

end TimedMachine.Reading

namespace TimedMachine.Token

open Grammar

variable {o : ReadOptions} {text : String} {t : Token} {v : Json}

/-- A tree that is read is one without paths, placed at the root. -/
theorem exists_document_of_read (h : Token.read o text = .ok t) :
    ∃ u, Reading.document (Reading.strict o.maxDepth) o.allowComments text = .ok u ∧
      t = u.placed "" := by
  unfold Token.read at h
  cases hu : Reading.document ⟨o.maxDepth, true⟩ o.allowComments text with
  | error e =>
    rw [hu] at h
    cases h
  | ok u =>
    rw [hu] at h
    exact ⟨u, rfl, (Except.ok.inj h).symm⟩

/-- A text that denotes a value is read as the tree of that value. -/
theorem exists_read_of_isDocument
    (h : IsDocument o.allowComments o.maxDepth text.toList v) :
    ∃ t, Token.read o text = .ok t ∧ t.withoutSpans = ofJson v := by
  obtain ⟨u, hu, hv⟩ := Reading.exists_document_iff.2 ⟨v, h, rfl⟩
  refine ⟨u.placed "", ?_, ?_⟩
  · rw [Token.read, hu]
    rfl
  · rw [withoutSpans_placed, hv]
    rfl

/-- A text that is read as a tree denotes the value of that tree. -/
theorem exists_isDocument_of_read (h : Token.read o text = .ok t) :
    ∃ v, IsDocument o.allowComments o.maxDepth text.toList v ∧ t.withoutSpans = ofJson v := by
  obtain ⟨u, hu, rfl⟩ := exists_document_of_read h
  obtain ⟨v, hdocument, hv⟩ := Reading.exists_document_iff.1 ⟨u, hu, rfl⟩
  exact ⟨v, hdocument, by rw [withoutSpans_placed, hv]; rfl⟩

/-- The reader accepts exactly the documents of the grammar. The tree that it builds is, but for
its places in the text, the tree of whatever value the text denotes, and the path of each token in
it names the way to it. -/
theorem read_eq_ok_iff_isDocument (o : ReadOptions) (text : String) :
    ((∃ t, Token.read o text = .ok t) ↔
      ∃ v, IsDocument o.allowComments o.maxDepth text.toList v) ∧
    ∀ t v, Token.read o text = .ok t → IsDocument o.allowComments o.maxDepth text.toList v →
      t.withoutSpans = ofJson v ∧
      ∀ route u, t.follow? route = some u → u.path = Path.along "" route := by
  refine ⟨⟨?_, ?_⟩, fun t v ht hv => ⟨?_, fun route u hu => ?_⟩⟩
  · rintro ⟨t, ht⟩
    obtain ⟨v, hv, -⟩ := exists_isDocument_of_read ht
    exact ⟨v, hv⟩
  · rintro ⟨v, hv⟩
    obtain ⟨t, ht, -⟩ := exists_read_of_isDocument hv
    exact ⟨t, ht⟩
  · obtain ⟨t', ht', hv⟩ := exists_read_of_isDocument hv
    cases ht.symm.trans ht'
    exact hv
  · obtain ⟨t, -, rfl⟩ := exists_document_of_read ht
    exact path_of_follow?_placed hu

/-- The text `[ true ]//` is read as an array of one Boolean: a text may end in a comment. -/
theorem read_eq_ok_iff_isDocument_array :
    ∃ t, Token.read {} "[ true ]//" = .ok t ∧
      t.withoutSpans = ofJson (.array [.bool true]) := by
  have hitem : IsItems true 127 ([' '] ++ ['t', 'r', 'u', 'e'] ++ [' ']) [.bool true] :=
    .last (.blank (by decide) .nil) (.scalar .true) (.blank (by decide) .nil)
  have hdocument : IsDocument true 128 "[ true ]//".toList (.array [.bool true]) :=
    .mk .nil (.array hitem) (.lastLine rfl rfl nofun)
  obtain ⟨t, ht⟩ := (read_eq_ok_iff_isDocument {} "[ true ]//").1.2 ⟨_, hdocument⟩
  exact ⟨t, ht, ((read_eq_ok_iff_isDocument {} "[ true ]//").2 t _ ht hdocument).1⟩

end TimedMachine.Token
