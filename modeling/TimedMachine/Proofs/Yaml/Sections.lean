import TimedMachine.Proofs.Yaml.Lines
import TimedMachine.Yaml.Document

/-!
# Sections read back

A text of sections and fields is the document that has them as mappings, in the order in which they
are written (`parse?_sections`).
-/

namespace TimedMachine.Yaml

/-! ## Nodes -/

section Nodes

variable {handles : Handles} {ts : List Token} {y : Yaml}

/-- The tokens are those of a node in block style, whatever comes after it. -/
structure Reads (handles : Handles) (ts : List Token) (y : Yaml) : Prop where
  begins : ∀ rest, beginsWith (ts ++ rest) [.key, .value, .blockEnd] = false
  node : ∀ site fuel rest, site ≠ .flow → 4 * ts.length ≤ fuel →
    node? handles fuel site (ts ++ rest) = some (y, rest)

theorem reads_scalar (style : Style) (text : String) :
    Reads handles [.scalar style text] (.scalar {} style text) where
  begins rest := by simp [beginsWith]
  node site fuel rest _ hfuel := by
    obtain ⟨fuel, rfl⟩ : ∃ n, fuel = n + 2 := ⟨fuel - 2, by simp at hfuel; omega⟩
    rfl

/-- Where a block of entries opens there is a mapping, except in flow style. -/
theorem node?_blockMappingStart (fuel : Nat) {site : Site} (hsite : site ≠ .flow) :
    node? handles (fuel + 2) site (.blockMappingStart :: ts) =
      (blockEntries? handles fuel ts).map fun (entries, ts) => (.mapping {} entries, ts) := by
  have hcontent : node? handles (fuel + 2) site (.blockMappingStart :: ts) =
      content? handles (fuel + 1) site {} (.blockMappingStart :: ts) := rfl
  rw [hcontent, content?, if_neg (by simp [beginsWith]), if_neg (by simp [beginsWith]),
    if_pos ⟨hsite, by simp [beginsWith]⟩]
  · rfl
  · simp
  · simp
  · simp

/-- A node that is there is read where it may be missing. -/
theorem Reads.nodeBefore? (h : Reads handles ts y) {fuel : Nat} (hfuel : 4 * ts.length < fuel)
    (rest : List Token) :
    nodeBefore? handles fuel .entry [.key, .value, .blockEnd] (ts ++ rest) = some (y, rest) := by
  obtain ⟨fuel, rfl⟩ : ∃ n, fuel = n + 1 := ⟨fuel - 1, by omega⟩
  rw [Yaml.nodeBefore?, h.begins, h.node .entry fuel rest (by simp) (by omega)]
  rfl

section Entries

variable {α : Type} {key : α → String} {value : α → List Token} {node : α → Yaml} {l : List α}

/-- The tokens of an entry of a mapping. -/
def entryTokens (key : α → String) (value : α → List Token) (a : α) : List Token :=
  [.key, .scalar .plain (key a), .value] ++ value a

theorem blockEntries?_eq (h : ∀ a ∈ l, Reads handles (value a) (node a)) {fuel : Nat}
    (hfuel : 4 * (l.flatMap (entryTokens key value)).length < fuel) (rest : List Token) :
    blockEntries? handles fuel (l.flatMap (entryTokens key value) ++ .blockEnd :: rest) =
      some (l.map fun a => (.scalar {} .plain (key a), node a), rest) := by
  induction l generalizing fuel with
  | nil =>
    obtain ⟨fuel, rfl⟩ : ∃ n, fuel = n + 1 := ⟨fuel - 1, by omega⟩
    rfl
  | cons a l ih =>
    obtain ⟨ha, hl⟩ := List.forall_mem_cons.mp h
    rw [List.flatMap_cons, List.length_append, entryTokens, List.length_append] at hfuel
    simp only [List.length_cons, List.length_nil] at hfuel
    obtain ⟨fuel, rfl⟩ : ∃ n, fuel = n + 2 := ⟨fuel - 2, by omega⟩
    set after := l.flatMap (entryTokens key value) ++ .blockEnd :: rest with hafter
    have hkey : Yaml.nodeBefore? handles (fuel + 1) .entry [.key, .value, .blockEnd]
        (.scalar .plain (key a) :: .value :: (value a ++ after)) =
          some (.scalar {} .plain (key a), .value :: (value a ++ after)) :=
      (reads_scalar .plain (key a)).nodeBefore? (by simp; omega) _
    have hvalue : valueBefore? handles (fuel + 1) .entry [.key, .value, .blockEnd]
        (.value :: (value a ++ after)) = some (node a, after) :=
      ha.nodeBefore? (by omega) after
    have hrest : blockEntries? handles (fuel + 1) after =
        some (l.map fun a => (.scalar {} .plain (key a), node a), rest) :=
      ih hl (by omega)
    have htext : (a :: l).flatMap (entryTokens key value) ++ .blockEnd :: rest =
        .key :: .scalar .plain (key a) :: .value :: (value a ++ after) := by
      simp [entryTokens, hafter]
    rw [htext, blockEntries?, hkey]
    simp only [Option.bind_eq_bind, Option.bind_some, hvalue, hrest]
    rfl

/-- The tokens of the entries and of the block around them are those of a mapping. -/
theorem reads_mapping (h : ∀ a ∈ l, Reads handles (value a) (node a)) :
    Reads handles (.blockMappingStart :: (l.flatMap (entryTokens key value) ++ [.blockEnd]))
      (.mapping {} (l.map fun a => (.scalar {} .plain (key a), node a))) where
  begins rest := by simp [beginsWith]
  node site fuel rest hsite hfuel := by
    obtain ⟨fuel, rfl⟩ : ∃ n, fuel = n + 2 := ⟨fuel - 2, by simp at hfuel; omega⟩
    have hlen : 4 * (l.flatMap (entryTokens key value)).length < fuel := by
      rw [List.length_cons, List.length_append] at hfuel
      omega
    rw [List.cons_append, List.append_assoc, node?_blockMappingStart fuel hsite]
    exact congrArg _ (blockEntries?_eq h hlen rest)

end Entries

end Nodes

/-! ## Documents -/

/-- A plain scalar with nothing said about it. -/
def wordNode (w : String) : Yaml := .scalar {} .plain w

/-- The mapping of the fields of a section. -/
def fieldsNode (fs : List (String × String)) : Yaml :=
  .mapping {} (fs.map fun f => (wordNode f.1, wordNode f.2))

/-- The mapping of sections. -/
def sectionsNode (ss : List (String × List (String × String))) : Yaml :=
  .mapping {} (ss.map fun s => (wordNode s.1, fieldsNode s.2))

/-- The tokens of sections are those of their mapping. -/
theorem reads_sections (ss : List (String × List (String × String))) (handles : Handles) :
    Reads handles (.blockMappingStart :: (ss.flatMap sectionTokens ++ [.blockEnd]))
      (sectionsNode ss) := by
  have hfields : ∀ s ∈ ss, Reads handles
      (.blockMappingStart :: (s.2.flatMap fieldTokens ++ [.blockEnd])) (fieldsNode s.2) :=
    fun s _ => reads_mapping fun f _ => reads_scalar .plain f.2
  have htokens : sectionTokens = entryTokens Prod.fst fun s : String × List (String × String) =>
      .blockMappingStart :: (s.2.flatMap fieldTokens ++ [.blockEnd]) := by
    funext s
    simp [sectionTokens, entryTokens]
  rw [htokens]
  exact reads_mapping hfields

/-- A text of sections is a document that has them as mappings. -/
theorem parse?_sections {ss : List (String × List (String × String))} (hne : ss ≠ [])
    (hss : ∀ s ∈ ss, IsSection s) {text : String} (htext : text.toList = ss.flatMap sectionText) :
    parse? text = some (sectionsNode ss) := by
  have htokens := ofText?_sections hne hss htext
  have hnode := (reads_sections ss defaultHandles).node .block
  generalize hts : Token.blockMappingStart :: (ss.flatMap sectionTokens ++ [.blockEnd]) = ts
    at htokens hnode
  have hroot : root? (4 * ts.length + 4) ts = some (sectionsNode ss, []) := by
    have h := hnode (4 * ts.length + 4) [] (by simp) (by omega)
    rw [List.append_nil] at h
    subst hts
    exact h
  have hne : ts ≠ [] := hts ▸ List.cons_ne_nil _ _
  simp [parse?, htokens, ofTokens?, hne, hroot]

end TimedMachine.Yaml
