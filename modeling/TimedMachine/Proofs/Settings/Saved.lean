import TimedMachine.Proofs.Number.Numeral
import TimedMachine.Proofs.Yaml.Sections
import TimedMachine.Settings.OfYaml

/-!
# Settings survive being saved

Settings come about by changes, one after the other: texts that are read, and values of the
environment. Whatever the changes are, a document can be read with the settings after them, and the
text that the settings are saved as reads back as the same settings
(`Settings.after_reads_back`).

YAML and the environment keep zero out in different ways, the one with an error and the other
without a word, and both keep to numbers below `depthBound`; `Settings.Sound` is what each change
preserves.
-/

namespace TimedMachine

/-! ## Changes -/

namespace Settings

/-- What settings can be changed by. -/
inductive Change where
  /-- A text takes the place of the settings, unless it does not hold any. -/
  | yaml (text : String)
  /-- The environment has its say. -/
  | override (env : Environment)
  /-- The environment alone gives the settings. -/
  | environment (env : Environment)

/-- The settings after a change. -/
def Change.apply (s : Settings) : Change → Settings
  | yaml text =>
    match ofYaml text with
    | .ok s' => s'
    | .error _ => s
  | override env => s.override env
  | environment env => ofEnvironment env

/-- The settings after some changes of the default. -/
def after (changes : List Change) : Settings := changes.foldl Change.apply {}

/-- The depth is a number of the machine, and not zero. -/
structure Sound (s : Settings) : Prop where
  depth_pos : 1 ≤ s.reader.maxDepth
  depth_lt : s.reader.maxDepth < depthBound

end Settings

/-! ## Depths are below the bound -/

theorem lt_of_depthOfDigits? {ds : List Char} {n : Nat} (h : depthOfDigits? ds = some n) :
    n < depthBound := by
  unfold depthOfDigits? at h
  split at h
  · dsimp only at h
    split at h
    · next hlt => exact Option.some.inj h ▸ hlt
    · cases h
  · cases h

/-- A depth that the environment gives is not zero. -/
theorem depthOfString?_bounds {text : String} {n : Nat} (h : depthOfString? text = some n) :
    1 ≤ n ∧ n < depthBound := by
  obtain ⟨hdigits, hpos⟩ := Option.filter_eq_some_iff.mp h
  exact ⟨of_decide_eq_true hpos, lt_of_depthOfDigits? hdigits⟩

namespace Yaml

theorem lt_of_depthInRadix? {radix n : Nat} {digits : List Char}
    (h : depthInRadix? radix digits = some n) : n < depthBound := by
  obtain ⟨values, -, h⟩ := Option.bind_eq_some_iff.mp h
  dsimp only at h
  split at h
  · next hvalues => exact Option.some.inj h ▸ hvalues.2.2
  · cases h

theorem lt_of_depthOfText? {text : String} {n : Nat} (h : depthOfText? text = some n) :
    n < depthBound := by
  unfold depthOfText? at h
  split at h
  · exact lt_of_depthInRadix? h
  · exact lt_of_depthInRadix? h
  · exact lt_of_depthInRadix? h
  · cases h
  · exact lt_of_depthOfDigits? h

theorem lt_of_depth? {anchors : List (Nat × Yaml)} {y : Yaml} {n : Nat}
    (h : depth? anchors y = some n) : n < depthBound := by
  obtain ⟨_, -, h⟩ := Option.bind_eq_some_iff.mp h
  obtain ⟨_, -, h⟩ := Option.bind_eq_some_iff.mp h
  exact lt_of_depthOfText? h

/-- What is read of a field is its default or comes from a node. -/
theorem eq_default_or_of_field? {α : Type} {fields : List (String × Yaml)} {name : String}
    {read : Yaml → Option α} {default a : α} (h : field? fields name read default = some a) :
    a = default ∨ ∃ y, read y = some a := by
  unfold field? at h
  split at h
  · exact .inl (Option.some.inj h).symm
  · exact .inr ⟨_, h⟩
  · cases h

/-- A mapping of words to nodes has the words as its fields. -/
theorem fields?_words {α : Type} (anchors : List (Nat × Yaml)) (key : α → String)
    (node : α → Yaml) (l : List α) :
    fields? anchors (.mapping {} (l.map fun a => (wordNode (key a), node a))) =
      some (l.map fun a => (key a, node a)) := by
  show List.mapM _ (l.map fun a => (wordNode (key a), node a)) = _
  induction l with
  | nil => rfl
  | cons a l ih =>
    rw [List.map_cons, List.mapM_cons, ih]
    rfl

end Yaml

namespace Settings

variable {s : Settings}

/-! ## Every change leaves sound settings -/

theorem sound_default : Sound {} where
  depth_pos := by decide
  depth_lt := by decide

theorem depth_lt_of_readerOfYaml? {anchors : List (Nat × Yaml)} {y : Yaml} {r : ReadOptions}
    (h : readerOfYaml? anchors y = some r) : r.maxDepth < depthBound := by
  obtain ⟨fields, -, h⟩ := Option.bind_eq_some_iff.mp h
  obtain ⟨allowComments, -, h⟩ := Option.bind_eq_some_iff.mp h
  obtain ⟨maxDepth, hdepth, h⟩ := Option.bind_eq_some_iff.mp h
  obtain rfl := Option.some.inj h
  rcases Yaml.eq_default_or_of_field? hdepth with rfl | ⟨y, hy⟩
  · exact sound_default.depth_lt
  · exact Yaml.lt_of_depth? hy

theorem depth_lt_of_parse? {y? : Option Yaml} (h : y?.bind ofYamlNode? = some s) :
    s.reader.maxDepth < depthBound := by
  obtain ⟨y, -, h⟩ := Option.bind_eq_some_iff.mp h
  obtain ⟨fields, -, h⟩ := Option.bind_eq_some_iff.mp h
  obtain ⟨reader, hreader, h⟩ := Option.bind_eq_some_iff.mp h
  obtain ⟨checks, -, h⟩ := Option.bind_eq_some_iff.mp h
  obtain rfl := Option.some.inj h
  rcases Yaml.eq_default_or_of_field? hreader with rfl | ⟨y, hy⟩
  · exact sound_default.depth_lt
  · exact depth_lt_of_readerOfYaml? hy

/-- Settings that are read from a text are sound. -/
theorem sound_of_ofYaml {text : String} (h : ofYaml text = .ok s) : s.Sound := by
  unfold ofYaml at h
  split at h
  · cases h
  · next s' hs' =>
    split at h
    · cases h
    · next hzero =>
      obtain rfl : s' = s := Except.ok.inj h
      exact ⟨Nat.one_le_iff_ne_zero.mpr hzero, depth_lt_of_parse? hs'⟩

/-- The environment keeps settings sound. -/
theorem Sound.override (hs : s.Sound) (env : Environment) : (s.override env).Sound := by
  have hdepth : (s.override env).reader.maxDepth =
      ((env Variable.maxDepth.name).bind depthOfString?).getD s.reader.maxDepth := rfl
  cases hn : (env Variable.maxDepth.name).bind depthOfString? with
  | none =>
    rw [hn] at hdepth
    exact ⟨hdepth ▸ hs.depth_pos, hdepth ▸ hs.depth_lt⟩
  | some n =>
    obtain ⟨text, -, htext⟩ := Option.bind_eq_some_iff.mp hn
    obtain ⟨hpos, hlt⟩ := depthOfString?_bounds htext
    rw [hn] at hdepth
    exact ⟨hdepth ▸ hpos, hdepth ▸ hlt⟩

/-- A change leaves sound settings. -/
theorem Sound.apply (hs : s.Sound) (c : Change) : (c.apply s).Sound := by
  cases c with
  | yaml text =>
    simp only [Change.apply]
    split
    · next h => exact sound_of_ofYaml h
    · exact hs
  | override env => exact hs.override env
  | environment env => exact sound_default.override env

/-- So do any number of changes. -/
theorem sound_after (changes : List Change) : (after changes).Sound := by
  have hrun : ∀ (s : Settings), s.Sound → (changes.foldl Change.apply s).Sound := by
    induction changes with
    | nil => exact fun s hs => hs
    | cons c changes ih => exact fun s hs => ih _ (hs.apply c)
  exact hrun {} sound_default

/-! ## The text -/

theorem isWord_switchText (b : Bool) : Yaml.IsWord (switchText b).toList := by
  cases b <;> decide +kernel

theorem toList_toString (n : Nat) : (toString n).toList = Number.digitText n := Nat.toList_repr

theorem isWord_toString (n : Nat) : Yaml.IsWord (toString n).toList := by
  obtain ⟨hne, hdigits⟩ := Number.isDigits_digitText n
  rw [toList_toString]
  refine ⟨hne, fun c hc => ?_⟩
  simp [Yaml.isLetter, Char.isAlphanum, hdigits c hc]

theorem isSection_of_mem_sections : ∀ t ∈ s.sections, Yaml.IsSection t := by
  have hkey : ∀ w ∈ ["reader", "allow_comments", "max_depth", "checks", "paths", "unused_timers",
      "callback_names"], Yaml.IsKey w := by
    decide +kernel
  simp only [List.forall_mem_cons] at hkey
  obtain ⟨hreader, hcomments, hdepth, hchecks, hpaths, htimers, hnames, -⟩ := hkey
  have hswitch := isWord_switchText
  simp only [sections, List.forall_mem_cons]
  refine ⟨⟨hreader, List.cons_ne_nil _ _, ?_⟩, ⟨hchecks, List.cons_ne_nil _ _, ?_⟩, by simp⟩
  · simp only [List.forall_mem_cons]
    exact ⟨⟨hcomments, hswitch _⟩, ⟨hdepth, isWord_toString _⟩, by simp⟩
  · simp only [List.forall_mem_cons]
    exact ⟨⟨hpaths, hswitch _⟩, ⟨htimers, hswitch _⟩, ⟨hnames, hswitch _⟩, by simp⟩

theorem toList_yamlText (s : Settings) :
    s.yamlText.toList = s.sections.flatMap Yaml.sectionText := by
  simp only [yamlText, String.toList_join, List.flatMap_map, String.toList_append]
  refine List.flatMap_congr fun t _ => ?_
  obtain ⟨title, fields⟩ := t
  simp only [Yaml.sectionText, List.append_assoc]
  rfl

/-- The depth reads back. -/
theorem depthOfText?_toString {n : Nat} (hn : n < depthBound) :
    Yaml.depthOfText? (toString n) = some n := by
  have hdigits := Number.isDigits_digitText n
  have hne : ∀ {c : Char}, c ∈ Number.digitText n → ∀ {d : Char}, d.isDigit = false → c ≠ d := by
    rintro c hc d hd rfl
    exact Bool.false_ne_true (hd.symm.trans (hdigits.2 c hc))
  have hplus : dropPlus (Number.digitText n) = Number.digitText n := by
    unfold dropPlus
    split
    · next cs heq => exact absurd rfl (hne (d := '+') (heq ▸ List.mem_cons_self) rfl)
    · rfl
  have hread : depthOfDigits? (Number.digitText n) = some n := by
    have hall : Number.digitText n ≠ [] ∧ (Number.digitText n).all Char.isDigit :=
      ⟨hdigits.1, List.all_eq_true.mpr hdigits.2⟩
    simp only [depthOfDigits?, if_pos hall, Number.numberOfDigits_digitText, if_pos hn]
  unfold Yaml.depthOfText?
  rw [toList_toString, hplus]
  -- a sign, a radix and a zero in front would be read otherwise, and none of them is there
  split
  · next digits heq => exact absurd rfl (hne (d := 'x') (heq ▸ by simp) rfl)
  · next digits heq => exact absurd rfl (hne (d := 'o') (heq ▸ by simp) rfl)
  · next digits heq => exact absurd rfl (hne (d := 'b') (heq ▸ by simp) rfl)
  · next c cs _ _ _ heq =>
    have hzero : n = 0 := Number.eq_zero_of_head_digitText (by rw [heq, List.head?_cons])
    subst hzero
    cases heq
  · exact hread

/-- The sections read back, whatever the anchors of the document are. -/
theorem ofYamlNode?_sections (hs : s.reader.maxDepth < depthBound) :
    ofYamlNode? (Yaml.sectionsNode s.sections) = some s := by
  have hswitch : ∀ b anchors, Yaml.switch? anchors (Yaml.wordNode (switchText b)) = some b := by
    rintro (_ | _) _ <;> rfl
  have hdepth : ∀ anchors,
      Yaml.depth? anchors (Yaml.wordNode (toString s.reader.maxDepth)) = some s.reader.maxDepth :=
    fun _ => depthOfText?_toString hs
  have hreader : ∀ anchors, readerOfYaml? anchors (Yaml.fieldsNode
      [("allow_comments", switchText s.reader.allowComments),
        ("max_depth", toString s.reader.maxDepth)]) = some s.reader := by
    intro anchors
    rw [readerOfYaml?, Yaml.fieldsNode, Yaml.fields?_words]
    simp only [List.map_cons, List.map_nil, Option.bind_eq_bind, Option.bind_some]
    simp only [Yaml.field?, List.filter, String.reduceBEq, hswitch, hdepth, Option.bind_some]
    rfl
  have hchecks : ∀ anchors, checksOfYaml? anchors (Yaml.fieldsNode
      [("paths", switchText s.checks.paths), ("unused_timers", switchText s.checks.unusedTimers),
        ("callback_names", switchText s.checks.callbackNames)]) = some s.checks := by
    intro anchors
    rw [checksOfYaml?, Yaml.fieldsNode, Yaml.fields?_words]
    simp only [List.map_cons, List.map_nil, Option.bind_eq_bind, Option.bind_some]
    simp only [Yaml.field?, List.filter, String.reduceBEq, hswitch, Option.bind_some]
    rfl
  rw [ofYamlNode?, Yaml.sectionsNode, Yaml.fields?_words]
  simp only [sections, List.map_cons, List.map_nil, Option.bind_eq_bind, Option.bind_some]
  simp only [Yaml.field?, List.filter, String.reduceBEq, hreader, hchecks, Option.bind_some]
  rfl

/-- Sound settings read back from the text that they are saved as. -/
theorem Sound.ofYaml_yamlText (hs : s.Sound) : ofYaml s.yamlText = .ok s := by
  have hparse : Yaml.parse? s.yamlText = some (Yaml.sectionsNode s.sections) :=
    Yaml.parse?_sections (by simp [sections]) isSection_of_mem_sections s.toList_yamlText
  have hzero : s.reader.maxDepth ≠ 0 := Nat.one_le_iff_ne_zero.mp hs.depth_pos
  simp [ofYaml, hparse, ofYamlNode?_sections hs.depth_lt, hzero]

/-- Whatever the settings are changed by, their depth is at least one afterwards, and the text that
they are saved as reads back as the same settings. There are changes that lead to any settings with
a depth from 1 to 2^64 - 1, and to no others. -/
theorem after_reads_back :
    (∀ changes, 1 ≤ (after changes).reader.maxDepth ∧
      ofYaml (after changes).yamlText = .ok (after changes)) ∧
    ∀ s, (∃ changes, after changes = s) ↔ 1 ≤ s.reader.maxDepth ∧ s.reader.maxDepth < 2 ^ 64 := by
  refine ⟨fun changes => ?_, fun s => ⟨?_, fun ⟨hpos, hlt⟩ => ⟨[.yaml s.yamlText], ?_⟩⟩⟩
  · have hs := sound_after changes
    exact ⟨hs.depth_pos, hs.ofYaml_yamlText⟩
  · rintro ⟨changes, rfl⟩
    have hs := sound_after changes
    exact ⟨hs.depth_pos, hs.depth_lt⟩
  · have hs : s.Sound := ⟨hpos, hlt⟩
    simp [after, Change.apply, hs.ofYaml_yamlText]

end Settings

end TimedMachine
