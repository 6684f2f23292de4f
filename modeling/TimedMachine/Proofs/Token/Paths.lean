import TimedMachine.Proofs.Read.Document

/-!
# A path names one route

A path is written step by step, and a quote in a key gets a backslash in front of it, but a
backslash does not. So a key that ends in a backslash seems to go on behind its closing quote, and
two routes may well agree up to the end of one of them: the steps `a\` and `]` begin like the step
`a'][`. Nevertheless no two routes have the same path (`Path.along_injective`). A quote that opens a
key follows a bracket, and a quote within a key follows a backslash. If one route had ended a key
where the other goes on with it, the next quote of the one would have to end the key of the other,
which again leaves one of them within a key, and so on; but paths end outside of keys.
-/

namespace TimedMachine.Path

open Grammar

variable {a b x y : List Char} {c : Char}

/-! ## Keys between quotes -/

/-- The characters of a key, with a backslash in front of each quote. -/
def escaped (cs : List Char) : List Char :=
  cs.flatMap fun c => if c = '\'' then ['\\', '\''] else [c]

theorem escaped_cons (h : c ≠ '\'') (cs : List Char) : escaped (c :: cs) = c :: escaped cs := by
  simp [escaped, h]

theorem toList_quoteKey (key : String) : (quoteKey key).toList = escaped key.toList := by
  simp [quoteKey, escaped]

/-- A key does not begin with a quote, so a quote in its place ends it. -/
theorem escaped_eq_quote (h : escaped a ++ '\'' :: x = '\'' :: y) : a = [] ∧ x = y := by
  cases a with
  | nil => exact ⟨rfl, (List.cons.inj h).2⟩
  | cons c a =>
    by_cases hc : c = '\''
    · subst hc
      cases (List.cons.inj h).1
    · rw [escaped_cons hc] at h
      exact absurd (List.cons.inj h).1 hc

/-- Any other character but a backslash stands for itself. -/
theorem escaped_eq_cons (hc : c ≠ '\'') (hc' : c ≠ '\\') (h : escaped a ++ '\'' :: x = c :: y) :
    ∃ a', a = c :: a' ∧ escaped a' ++ '\'' :: x = y := by
  cases a with
  | nil => exact absurd (List.cons.inj h).1.symm hc
  | cons d a =>
    by_cases hd : d = '\''
    · subst hd
      exact absurd (List.cons.inj h).1.symm hc'
    · rw [escaped_cons hd, List.cons_append] at h
      obtain ⟨rfl, h'⟩ := List.cons.inj h
      exact ⟨a, rfl, h'⟩

/-- So do several of them. -/
theorem escaped_eq_append {cs : List Char} (hcs : ∀ c ∈ cs, c ≠ '\'' ∧ c ≠ '\\')
    (h : escaped a ++ '\'' :: x = cs ++ y) : ∃ a', escaped a' ++ '\'' :: x = y := by
  induction cs generalizing a with
  | nil => exact ⟨a, h⟩
  | cons c cs ih =>
    obtain ⟨hc, hc'⟩ := hcs c List.mem_cons_self
    obtain ⟨a', -, h'⟩ := escaped_eq_cons hc hc' h
    exact ih (fun d hd => hcs d (List.mem_cons_of_mem c hd)) h'

/-- A text continues a key and what follows it from within the key. -/
def Within (x y : List Char) : Prop := ∃ a, x = escaped a ++ '\'' :: ']' :: y

/-- Where one key has ended and another goes on with a quote, the first has ended before its
quote. -/
theorem within_of_escaped_eq (h : escaped a ++ '\'' :: ']' :: x =
    '\'' :: (escaped b ++ '\'' :: ']' :: y)) : Within x y := by
  obtain ⟨-, h⟩ := escaped_eq_quote h
  obtain ⟨b', -, h⟩ := escaped_eq_cons (by decide) (by decide) h.symm
  exact ⟨b', h.symm⟩

/-- Two keys that begin the same text are the same, or else one ends within the other. -/
theorem escaped_append_eq (h : escaped a ++ '\'' :: ']' :: x = escaped b ++ '\'' :: ']' :: y) :
    (a = b ∧ x = y) ∨ Within x y ∨ Within y x := by
  induction a generalizing b with
  | nil =>
    obtain ⟨rfl, hxy⟩ := escaped_eq_quote h.symm
    exact .inl ⟨rfl, (List.cons.inj hxy.symm).2⟩
  | cons c a ih =>
    cases b with
    | nil =>
      obtain ⟨hnil, -⟩ := escaped_eq_quote h
      cases hnil
    | cons d b =>
      by_cases hc : c = '\''
      · subst hc
        by_cases hd : d = '\''
        · subst hd
          have h : escaped a ++ '\'' :: ']' :: x = escaped b ++ '\'' :: ']' :: y :=
            (List.cons.inj (List.cons.inj h).2).2
          exact (ih h).imp_left fun ⟨hab, hxy⟩ => ⟨congrArg _ hab, hxy⟩
        · -- the backslash is a character of the second key, which ends at the quote of the first
          rw [escaped_cons hd] at h
          exact .inr (.inr (within_of_escaped_eq (List.cons.inj h).2.symm))
      · rw [escaped_cons hc] at h
        by_cases hd : d = '\''
        · subst hd
          exact .inr (.inl (within_of_escaped_eq (List.cons.inj h).2))
        · rw [escaped_cons hd, List.cons_append, List.cons_append] at h
          obtain ⟨rfl, h'⟩ := List.cons.inj h
          exact (ih h').imp_left fun ⟨hab, hxy⟩ => ⟨congrArg _ hab, hxy⟩

/-! ## What steps add to a path -/

/-- The characters that a step adds to a path that is not empty. -/
def segment : Step → List Char
  | .key name =>
    if isPlain name then '.' :: name.toList
    else '[' :: '\'' :: (escaped name.toList ++ ['\'', ']'])
  | .index i => '[' :: (Nat.toDigits 10 i ++ [']'])

/-- The characters that a route adds to a path that is not empty. -/
def segments (route : List Step) : List Char := route.flatMap segment

@[simp] theorem segments_nil : segments [] = [] := rfl

@[simp] theorem segments_cons (s : Step) (route : List Step) :
    segments (s :: route) = segment s ++ segments route := rfl

theorem isPlain_iff {key : String} :
    isPlain key = true ↔ key.toList ≠ [] ∧ ∀ c ∈ key.toList, isNameChar c = true := by
  simp [isPlain]

theorem segment_ne_nil (s : Step) : segment s ≠ [] := by
  cases s with
  | key name =>
    rw [segment]
    split <;> simp
  | index i => simp [segment]

/-- After a plain key and after an index comes no character that could belong to it. -/
theorem stops_segments (route : List Step) : Stops isNameChar (segments route) := by
  cases route with
  | nil => exact nofun
  | cons s route =>
    intro c hc
    cases s with
    | key name =>
      rw [segments_cons, segment] at hc
      split at hc
      · cases hc
        decide
      · cases hc
        decide
    | index i =>
      cases hc
      decide

/-- An index is written in digits. -/
theorem isDigit_of_mem_toDigits {i : Nat} : ∀ c ∈ Nat.toDigits 10 i, c.isDigit = true :=
  fun _ hc => Nat.isDigit_of_mem_toDigits (by decide) (by decide) hc

/-- A character of a kind that quotes and backslashes are not of. -/
theorem ne_quote_and_ne_backslash {p : Char → Bool} (hquote : p '\'' = false)
    (hbackslash : p '\\' = false) (hc : p c = true) : c ≠ '\'' ∧ c ≠ '\\' := by
  refine ⟨fun heq => ?_, fun heq => ?_⟩
  · rw [heq, hquote] at hc
    cases hc
  · rw [heq, hbackslash] at hc
    cases hc

/-- A step is written without quotes and backslashes, or it is a key between quotes. -/
theorem segment_cases (s : Step) :
    (∀ c ∈ segment s, c ≠ '\'' ∧ c ≠ '\\') ∨
      ∃ key, segment s = '[' :: '\'' :: (escaped key ++ ['\'', ']']) := by
  cases s with
  | key name =>
    rw [segment]
    split
    · next hplain =>
      refine .inl fun c hc => ?_
      rcases List.mem_cons.1 hc with rfl | hc
      · decide
      · have hname : isNameChar c = true := (isPlain_iff.1 hplain).2 c hc
        exact ne_quote_and_ne_backslash (by decide) (by decide) hname
    · exact .inr ⟨_, rfl⟩
  | index i =>
    refine .inl fun c hc => ?_
    rw [segment] at hc
    rcases List.mem_cons.1 hc with rfl | hc
    · decide
    · rcases List.mem_append.1 hc with hc | hc
      · exact ne_quote_and_ne_backslash rfl rfl (isDigit_of_mem_toDigits c hc)
      · obtain rfl := List.mem_singleton.1 hc
        decide

/-- What is outside of keys is not within one. The measure is the number of steps that the two
routes have left: a step without quotes is one of the key, and a key between quotes opens where the
other ends, so that the two change their places. -/
theorem not_within : ∀ route route' : List Step, ¬Within (segments route) (segments route')
  | [], route' => by
    rintro ⟨a, h⟩
    have hlength := congrArg List.length h
    simp at hlength
  | s :: route, route' => by
    rintro ⟨a, h⟩
    rw [segments_cons] at h
    rcases segment_cases s with hs | ⟨key, hkey⟩
    · obtain ⟨a', h'⟩ := escaped_eq_append hs h.symm
      exact not_within route route' ⟨a', h'.symm⟩
    · rw [hkey, List.cons_append] at h
      obtain ⟨a', -, h'⟩ := escaped_eq_cons (by decide) (by decide) h.symm
      rw [List.cons_append, List.append_assoc] at h'
      exact not_within route' route (within_of_escaped_eq h')
termination_by route route' => route.length + route'.length

/-- An index does not begin like a key between quotes. -/
theorem toDigits_append_ne_quote (i : Nat) : Nat.toDigits 10 i ++ x ≠ '\'' :: y := by
  intro h
  cases hds : Nat.toDigits 10 i with
  | nil => exact Nat.toDigits_ne_nil hds
  | cons d ds =>
    rw [hds] at h
    have hd := isDigit_of_mem_toDigits d (hds ▸ List.mem_cons_self)
    rw [(List.cons.inj h).1] at hd
    exact absurd hd (by decide)

/-- A key that is not plain stands between quotes and in brackets. -/
theorem segment_key_of_not_plain {name : String} (h : ¬isPlain name = true) (x : List Char) :
    segment (.key name) ++ x = '[' :: '\'' :: (escaped name.toList ++ '\'' :: ']' :: x) := by
  rw [segment, if_neg h, List.cons_append, List.cons_append, List.append_assoc]
  rfl

theorem segment_key_of_plain {name : String} (h : isPlain name = true) :
    segment (.key name) = '.' :: name.toList := by
  rw [segment, if_pos h]

theorem segment_index_append (i : Nat) (x : List Char) :
    segment (.index i) ++ x = '[' :: (Nat.toDigits 10 i ++ ']' :: x) := by
  rw [segment, List.cons_append, List.append_assoc]
  rfl

/-- Two keys that begin the same text are the same, if routes follow both. -/
theorem segment_key_append_inj {name name' : String} {route route' : List Step}
    (h : segment (.key name) ++ segments route = segment (.key name') ++ segments route') :
    name = name' ∧ segments route = segments route' := by
  by_cases hplain : isPlain name = true
  · rw [segment_key_of_plain hplain] at h
    by_cases hplain' : isPlain name' = true
    · rw [segment_key_of_plain hplain'] at h
      obtain ⟨hname, hrest⟩ := append_inj_of_stops (isPlain_iff.1 hplain).2
        (isPlain_iff.1 hplain').2 (stops_segments route) (stops_segments route')
        (List.cons.inj h).2
      exact ⟨String.toList_inj.1 hname, hrest⟩
    · rw [segment_key_of_not_plain hplain'] at h
      cases (List.cons.inj h).1
  · rw [segment_key_of_not_plain hplain] at h
    by_cases hplain' : isPlain name' = true
    · rw [segment_key_of_plain hplain'] at h
      cases (List.cons.inj h).1
    · rw [segment_key_of_not_plain hplain'] at h
      rcases escaped_append_eq (List.cons.inj (List.cons.inj h).2).2 with
        ⟨hname, hrest⟩ | hwithin | hwithin
      · exact ⟨String.toList_inj.1 hname, hrest⟩
      · exact absurd hwithin (not_within route route')
      · exact absurd hwithin (not_within route' route)

/-- A key and an index do not begin the same text. -/
theorem segment_key_append_ne_index (name : String) (i : Nat) :
    segment (.key name) ++ x ≠ segment (.index i) ++ y := by
  intro h
  rw [segment_index_append] at h
  by_cases hplain : isPlain name = true
  · rw [segment_key_of_plain hplain] at h
    cases (List.cons.inj h).1
  · rw [segment_key_of_not_plain hplain] at h
    exact toDigits_append_ne_quote i (List.cons.inj h).2.symm

/-- Two indices that begin the same text are the same. -/
theorem segment_index_append_inj {i i' : Nat}
    (h : segment (.index i) ++ x = segment (.index i') ++ y) : i = i' ∧ x = y := by
  have hstops : ∀ z, Stops Char.isDigit (']' :: z) := by
    intro z c hc
    cases hc
    decide
  rw [segment_index_append, segment_index_append] at h
  obtain ⟨hi, hrest⟩ := append_inj_of_stops isDigit_of_mem_toDigits isDigit_of_mem_toDigits
    (hstops x) (hstops y) (List.cons.inj h).2
  have hnumber : i = i' := by
    simpa only [Nat.ofDigitChars_ten_toDigits] using congrArg (Nat.ofDigitChars 10 · 0) hi
  exact ⟨hnumber, (List.cons.inj hrest).2⟩

/-- Two steps that begin the same text are the same, if routes follow both. -/
theorem segment_append_inj {s s' : Step} {route route' : List Step}
    (h : segment s ++ segments route = segment s' ++ segments route') :
    s = s' ∧ segments route = segments route' := by
  cases s with
  | key name =>
    cases s' with
    | key name' => exact (segment_key_append_inj h).imp_left (congrArg Step.key)
    | index i => exact absurd h (segment_key_append_ne_index name i)
  | index i =>
    cases s' with
    | key name => exact absurd h.symm (segment_key_append_ne_index name i)
    | index i' => exact (segment_index_append_inj h).imp_left (congrArg Step.index)

theorem segments_injective : Function.Injective segments := by
  intro route route' h
  induction route generalizing route' with
  | nil =>
    cases route' with
    | nil => rfl
    | cons s' route' => exact absurd (List.append_eq_nil_iff.1 h.symm).1 (segment_ne_nil s')
  | cons s route ih =>
    cases route' with
    | nil => exact absurd (List.append_eq_nil_iff.1 h).1 (segment_ne_nil s)
    | cons s' route' =>
      obtain ⟨rfl, hrest⟩ := segment_append_inj h
      rw [ih hrest]

/-! ## Paths -/

theorem toList_step {parent : String} (h : parent ≠ "") (s : Step) :
    (step parent s).toList = parent.toList ++ segment s := by
  cases s with
  | key name =>
    rw [step, child, segment]
    split
    · simp [h]
    · simp [toList_quoteKey]
  | index i => simp [step, index, segment, Nat.toList_repr]

theorem step_ne_empty (parent : String) (s : Step) : step parent s ≠ "" := by
  intro hempty
  by_cases h : parent = ""
  · subst h
    cases s with
    | key name =>
      rw [step, child] at hempty
      split at hempty
      · next hplain =>
        have hname : name = "" := hempty
        subst hname
        exact (isPlain_iff.1 hplain).1 rfl
      · have hlist := congrArg String.toList hempty
        simp at hlist
    | index i =>
      have hlist := congrArg String.toList hempty
      simp [step, index] at hlist
  · have hlist := congrArg String.toList hempty
    rw [toList_step h] at hlist
    exact segment_ne_nil s (List.append_eq_nil_iff.1 hlist).2

theorem toList_along {start : String} (h : start ≠ "") (route : List Step) :
    (along start route).toList = start.toList ++ segments route := by
  induction route generalizing start with
  | nil => simp [along]
  | cons s route ih =>
    have hrest := ih (step_ne_empty start s)
    rw [toList_step h, List.append_assoc] at hrest
    exact hrest

/-- A path from the root is what its route adds to a path, but for the dot of a plain key at its
front. -/
theorem segments_eq_toList_along (route : List Step) :
    segments route = (along "" route).toList ∨
      ¬Stops isNameChar (along "" route).toList ∧
        segments route = '.' :: (along "" route).toList := by
  cases route with
  | nil => exact .inl rfl
  | cons s route =>
    have halong : (along "" (s :: route)).toList = (step "" s).toList ++ segments route :=
      toList_along (step_ne_empty "" s) route
    cases s with
    | index i =>
      refine .inl ?_
      rw [halong, segments_cons]
      simp [step, index, segment, Nat.toList_repr]
    | key name =>
      by_cases hplain : isPlain name = true
      · have hstep : step "" (.key name) = name := by
          rw [step, child, if_pos hplain]
          rfl
        rw [hstep] at halong
        refine .inr ⟨?_, ?_⟩
        · obtain ⟨hne, hchars⟩ := isPlain_iff.1 hplain
          obtain ⟨c, cs, hcs⟩ := List.exists_cons_of_ne_nil hne
          intro hstops
          rw [halong, hcs] at hstops
          have hc : isNameChar c = true := hchars c (hcs ▸ List.mem_cons_self)
          exact absurd hc (Bool.eq_false_iff.1 (hstops c rfl))
        · rw [halong, segments_cons, segment_key_of_plain hplain]
          rfl
      · refine .inl ?_
        rw [halong, segments_cons, segment_key_of_not_plain hplain]
        simp [step, child, hplain, toList_quoteKey]

/-- No two routes have the same path. -/
theorem along_injective {route route' : List Step} (h : along "" route = along "" route') :
    route = route' := by
  apply segments_injective
  rcases segments_eq_toList_along route with hr | ⟨hplain, hr⟩
  · rcases segments_eq_toList_along route' with hr' | ⟨hplain', -⟩
    · rw [hr, hr', h]
    · rw [← h, ← hr] at hplain'
      exact absurd (stops_segments route) hplain'
  · rcases segments_eq_toList_along route' with hr' | ⟨-, hr'⟩
    · rw [h, ← hr'] at hplain
      exact absurd (stops_segments route') hplain
    · rw [hr, hr', h]

/-- The path of `]` in `a\` and the path of `a'][` agree up to the end of the latter. -/
example : along "" [.key "a\\", .key "]"] = "['a\\'][']']" ∧
    along "" [.key "a']["] = "['a\\'][']" := by decide

end TimedMachine.Path

namespace TimedMachine.Token

/-- The trees of documents: those read from a text and those made of a value. -/
inductive IsBuilt : Token → Prop
  | read {o : ReadOptions} {text : String} {t : Token} (h : Token.read o text = .ok t) : IsBuilt t
  | ofJson (v : Json) : IsBuilt (ofJson v)

/-- Either way the tree is placed at the root. -/
theorem IsBuilt.exists_placed {t : Token} (h : t.IsBuilt) : ∃ u : Token, t = u.placed "" := by
  cases h with
  | read h =>
    obtain ⟨u, -, rfl⟩ := exists_document_of_read h
    exact ⟨u, rfl⟩
  | ofJson v => exact ⟨bareOfJson v, rfl⟩

/-- In the tree of a document, the path of a token is that of any route to it from the root, and
tokens at the ends of different routes have different paths. -/
theorem path_names_one_route {t : Token} (h : t.IsBuilt) :
    (∀ route u, t.Reaches route u → u.path = Path.along "" route) ∧
    ∀ route route' u u', t.Reaches route u → t.Reaches route' u' → route ≠ route' →
      u.path ≠ u'.path := by
  obtain ⟨t, rfl⟩ := h.exists_placed
  refine ⟨fun route u hu => path_of_reaches_placed hu, ?_⟩
  intro route route' u u' hu hu' hne hpath
  rw [path_of_reaches_placed hu, path_of_reaches_placed hu'] at hpath
  exact hne (Path.along_injective hpath)

/-- An object with the keys `a\` and `a'][`, the first of which leads to the key `]`. -/
def backslashed : Json := .object [("a\\", .object [("]", .null)]), ("a'][", .null)]

/-- The paths of `]` in `a\` and of `a'][` differ. -/
theorem path_names_one_route_backslashed :
    ∃ u u', (ofJson backslashed).Reaches [.key "a\\", .key "]"] u ∧
      (ofJson backslashed).Reaches [.key "a']["] u' ∧
      u.path = Path.along "" [.key "a\\", .key "]"] ∧ u.path ≠ u'.path := by
  have hu : (ofJson backslashed).Reaches [.key "a\\", .key "]"] _ :=
    .member (.head _) (.member (.head _) .here)
  have hu' : (ofJson backslashed).Reaches [.key "a']["] _ := .member (.tail _ (.head _)) .here
  obtain ⟨hpath, hne⟩ := path_names_one_route (.ofJson backslashed)
  exact ⟨_, _, hu, hu', hpath _ _ hu, hne _ _ _ _ hu hu' (by decide)⟩

end TimedMachine.Token
