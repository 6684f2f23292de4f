import TimedMachine.Explore.Configuration
import Mathlib.Data.Finset.Filter
import Mathlib.Data.Finset.Range
import Mathlib.Data.Finset.SDiff

/-!
# Bitmaps are finite sets

What is built for the numbers below `n` stands for a set of such numbers: putting a number in adds
it and no other, and adding and taking away members are union and difference of sets. There always
is a word for the number, and never a word too many. As no bit is without a number, a bitmap is
determined by its set (`Bitmap.eq_iff_members_eq`), and hence so is a configuration by its state and
its three sets.
-/

namespace TimedMachine

/-- The numbers below `n` for which a bitmap says that they are members. -/
def Bitmap.members (n : Nat) (a : Bitmap) : Finset Nat :=
  (Finset.range n).filter fun i => a.contains? i = some true

/-- The set that a mask stands for. -/
def Mask.members {n : Nat} (m : Mask n) : Finset Nat := m.bitmap.members n

namespace Bitmap

variable {n i : Nat} {a a' b : Bitmap}

theorem mem_members : i ∈ a.members n ↔ i < n ∧ i ∈ a := by
  rw [members, Finset.mem_filter, Finset.mem_range]
  rfl

theorem members_empty (n : Nat) : (empty n).members n = ∅ := by
  ext i
  simp [mem_members, not_mem_empty]

theorem members_insert? (hi : i < n) (ha' : a.insert? i = some a') :
    a'.members n = insert i (a.members n) := by
  ext j
  rw [mem_members, Finset.mem_insert, mem_members, mem_insert? ha']
  constructor
  · rintro ⟨hj, hmem | rfl⟩
    · exact .inr ⟨hj, hmem⟩
    · exact .inl rfl
  · rintro (rfl | ⟨hj, hmem⟩)
    · exact ⟨hi, .inr rfl⟩
    · exact ⟨hj, .inl hmem⟩

theorem members_union (h : a.words.length = b.words.length) :
    (a.union b).members n = a.members n ∪ b.members n := by
  ext i
  rw [mem_members, mem_union h, Finset.mem_union, mem_members, mem_members, and_or_left]

theorem members_diff (h : a.words.length = b.words.length) :
    (a.diff b).members n = a.members n \ b.members n := by
  ext i
  rw [mem_members, mem_diff h, Finset.mem_sdiff, mem_members, mem_members]
  constructor
  · rintro ⟨hi, ha, hb⟩
    exact ⟨⟨hi, ha⟩, fun hmem => hb hmem.2⟩
  · rintro ⟨⟨hi, ha⟩, hb⟩
    exact ⟨hi, ha, fun hmem => hb ⟨hi, hmem⟩⟩

namespace Built

/-- A bitmap has an answer for each number that it is built for, and it is the right one. -/
theorem contains?_eq (h : a.Built n) (hi : i < n) :
    a.contains? i = some (decide (i ∈ a.members n)) := by
  have hmem : i ∈ a.members n ↔ a.contains? i = some true := by
    rw [mem_members, and_iff_right hi]
    rfl
  simp [hmem, contains?_of_lt (h.div_lt hi)]

/-- A number that a bitmap is built for can be put in. -/
theorem exists_insert? (h : a.Built n) (hi : i < n) :
    ∃ a', a.insert? i = some a' ∧ a'.Built n ∧ a'.members n = Insert.insert i (a.members n) := by
  obtain ⟨a', ha'⟩ := Option.isSome_iff_exists.mp (isSome_insert? (h.div_lt hi))
  exact ⟨a', ha', h.insert hi ha', members_insert? hi ha'⟩

/-- The set tells which words there are: they are as many as `n` needs, and each bit that is set
stands for a member. -/
theorem eq_iff_members_eq (ha : a.Built n) (hb : b.Built n) :
    a = b ↔ a.members n = b.members n := by
  constructor
  · rintro rfl
    rfl
  · intro h
    refine ha.ext hb fun i hi => ?_
    have hmem := Finset.ext_iff.mp h i
    rwa [mem_members, mem_members, and_iff_right hi, and_iff_right hi] at hmem

end Built

end Bitmap

theorem Mask.members_inj {n : Nat} {a b : Mask n} (h : a.members = b.members) : a = b :=
  eq_of_words_eq (congrArg Bitmap.words ((a.built.eq_iff_members_eq b.built).mpr h))

namespace Configuration

variable {S T E : Nat} {c d : Configuration S T E}

/-- Two configurations are in one state, and each of their sets has the same members. -/
structure SameSets (c d : Configuration S T E) : Prop where
  state : c.state = d.state
  running : c.running.members = d.running.members
  armed : c.armed.members = d.armed.members
  fired : c.fired.members = d.fired.members

theorem eq_iff_sameSets : c = d ↔ SameSets c d := by
  constructor
  · rintro rfl
    exact ⟨rfl, rfl, rfl, rfl⟩
  · rintro ⟨hstate, hrunning, harmed, hfired⟩
    cases c
    cases d
    cases hstate
    cases Mask.members_inj hrunning
    cases Mask.members_inj harmed
    cases Mask.members_inj hfired
    rfl

/-- What is put into a set of configurations is found again by its state and its sets alone. -/
theorem mem_insert_iff (seen : Std.TreeSet (Configuration S T E)) :
    d ∈ seen.insert c ↔ SameSets c d ∨ d ∈ seen := by
  rw [Std.TreeSet.mem_insert, Std.compare_eq_iff_eq, eq_iff_sameSets]

end Configuration

/-! ## The set that is meant -/

/-- Bitmaps that are built for the numbers below `n` are the sets of such numbers. There is a word
wherever one is looked for, so each operation has a result, and to the set it does what its name
says. Bitmaps of the same set are equal, and so a search tree of configurations takes them for the
same iff they are in the same state with the same sets. -/
theorem bitmaps_are_finite_sets {n : Nat} {a b : Bitmap} (ha : a.Built n) (hb : b.Built n) :
    (Bitmap.empty n).members n = ∅ ∧
    (∀ i, i < n → i / 64 < a.words.length ∧ a.contains? i = some (decide (i ∈ a.members n)) ∧
      ∃ a', a.insert? i = some a' ∧ a'.Built n ∧ a'.members n = insert i (a.members n)) ∧
    a.words.length = b.words.length ∧
    (a.union b).members n = a.members n ∪ b.members n ∧
    (a.diff b).members n = a.members n \ b.members n ∧
    (a = b ↔ a.members n = b.members n) ∧
    ∀ {S T E : Nat} (c d : Configuration S T E) (seen : Std.TreeSet (Configuration S T E)),
      (c = d ↔ c.SameSets d) ∧ (d ∈ seen.insert c ↔ c.SameSets d ∨ d ∈ seen) := by
  have hlength := ha.length_eq hb
  refine ⟨Bitmap.members_empty n, fun i hi => ?_, hlength, Bitmap.members_union hlength,
    Bitmap.members_diff hlength, ha.eq_iff_members_eq hb, fun c d seen => ⟨?_, ?_⟩⟩
  · exact ⟨ha.div_lt hi, ha.contains?_eq hi, ha.exists_insert? hi⟩
  · exact Configuration.eq_iff_sameSets
  · exact Configuration.mem_insert_iff seen

/-- Members on both sides of the ends of words: for the numbers below 130 there are three words, of
which the last one has two bits in use. -/
theorem bitmaps_are_finite_sets_threeWords :
    Bitmap.Built 130 ⟨[1, 1, 2]⟩ ∧ Bitmap.Built 130 ⟨[4, 1, 0]⟩ ∧
    (Bitmap.union ⟨[1, 1, 2]⟩ ⟨[4, 1, 0]⟩).members 130 = {0, 2, 64, 129} ∧
    (Bitmap.diff ⟨[1, 1, 2]⟩ ⟨[4, 1, 0]⟩).members 130 = {0, 129} ∧
    ∃ a', Bitmap.insert? ⟨[1, 1, 2]⟩ 63 = some a' ∧ a'.members 130 = {0, 63, 64, 129} := by
  have hleft : Bitmap.Built 130 ⟨[1, 1, 2]⟩ :=
    .insert (a := ⟨[1, 1, 0]⟩) (b := 129) (.insert (a := ⟨[1, 0, 0]⟩) (b := 64)
      (.insert (b := 0) .empty (by decide) (by decide)) (by decide) (by decide))
      (by decide) (by decide)
  have hright : Bitmap.Built 130 ⟨[4, 1, 0]⟩ :=
    .insert (a := ⟨[4, 0, 0]⟩) (b := 64) (.insert (b := 2) .empty (by decide) (by decide))
      (by decide) (by decide)
  have hmembers : Bitmap.members 130 ⟨[1, 1, 2]⟩ = {0, 64, 129} := by decide +kernel
  have hmembers' : Bitmap.members 130 ⟨[4, 1, 0]⟩ = {2, 64} := by decide +kernel
  obtain ⟨-, hnumbers, -, hunion, hdiff, -⟩ := bitmaps_are_finite_sets hleft hright
  obtain ⟨-, -, a', ha', -, hinsert⟩ := hnumbers 63 (by decide)
  refine ⟨hleft, hright, ?_, ?_, a', ha', ?_⟩
  · rw [hunion, hmembers, hmembers']
    decide
  · rw [hdiff, hmembers, hmembers']
    decide
  · rw [hinsert, hmembers]
    decide

end TimedMachine
