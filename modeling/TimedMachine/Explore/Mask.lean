import TimedMachine.Explore.Bitmap

/-!
# Finite sets of positions

A `Mask n` is a set of numbers below `n`, kept as a bitmap that is built for them. So each number
has its bit and no bit is without a number: two masks are equal iff they have the same members, and
each operation is described by what it does to membership.
-/

namespace TimedMachine

/-- A set of numbers below `n`. -/
structure Mask (n : Nat) where
  bitmap : Bitmap
  built : bitmap.Built n
deriving DecidableEq

namespace Mask

variable {n : Nat}

instance : Membership (Fin n) (Mask n) := ⟨fun m i => i.val ∈ m.bitmap⟩

instance (m : Mask n) (i : Fin n) : Decidable (i ∈ m) :=
  inferInstanceAs (Decidable (i.val ∈ m.bitmap))

/-- The set without members. -/
def empty : Mask n := ⟨.empty n, .empty⟩

instance : Inhabited (Mask n) := ⟨empty⟩

theorem isSome_insert? (m : Mask n) (i : Fin n) : (m.bitmap.insert? i).isSome = true :=
  Bitmap.isSome_insert? (m.built.div_lt i.isLt)

/-- The set with one more member, for which there is a word. -/
def insert (m : Mask n) (i : Fin n) : Mask n :=
  ⟨(m.bitmap.insert? i).get (m.isSome_insert? i),
    m.built.insert i.isLt (Option.some_get (m.isSome_insert? i)).symm⟩

/-- The members of either set. -/
def union (a b : Mask n) : Mask n := ⟨a.bitmap.union b.bitmap, a.built.union b.built⟩

/-- The members of `a` that are not in `b`. -/
def diff (a b : Mask n) : Mask n := ⟨a.bitmap.diff b.bitmap, a.built.diff b.built⟩

/-- The members of both sets. -/
def inter (a b : Mask n) : Mask n := a.diff (a.diff b)

/-- The numbers that satisfy `p`. -/
def ofPred (p : Fin n → Bool) : Mask n :=
  (List.finRange n).foldl (fun m i => if p i then m.insert i else m) empty

/-- The members in ascending order. -/
def toList (m : Mask n) : List (Fin n) := (List.finRange n).filter (· ∈ m)

theorem eq_of_words_eq {a b : Mask n} (h : a.bitmap.words = b.bitmap.words) : a = b := by
  obtain ⟨⟨_⟩, _⟩ := a
  obtain ⟨⟨_⟩, _⟩ := b
  cases h
  rfl

theorem ext {a b : Mask n} (h : ∀ i, i ∈ a ↔ i ∈ b) : a = b :=
  eq_of_words_eq (congrArg Bitmap.words (a.built.ext b.built fun i hi => h ⟨i, hi⟩))

@[simp] theorem not_mem_empty (i : Fin n) : i ∉ (empty : Mask n) := Bitmap.not_mem_empty n i

@[simp] theorem mem_insert {m : Mask n} {i j : Fin n} : i ∈ m.insert j ↔ i ∈ m ∨ i = j := by
  rw [Fin.ext_iff]
  exact Bitmap.mem_insert? (Option.some_get (m.isSome_insert? j)).symm

@[simp] theorem mem_union {a b : Mask n} {i : Fin n} : i ∈ a.union b ↔ i ∈ a ∨ i ∈ b :=
  Bitmap.mem_union (a.built.length_eq b.built)

@[simp] theorem mem_diff {a b : Mask n} {i : Fin n} : i ∈ a.diff b ↔ i ∈ a ∧ i ∉ b :=
  Bitmap.mem_diff (a.built.length_eq b.built)

@[simp] theorem mem_inter {a b : Mask n} {i : Fin n} : i ∈ a.inter b ↔ i ∈ a ∧ i ∈ b := by
  rw [inter, mem_diff, mem_diff, Decidable.not_and_iff_not_or_not, Decidable.not_not]
  constructor
  · rintro ⟨ha, hna | hb⟩
    · exact absurd ha hna
    · exact ⟨ha, hb⟩
  · rintro ⟨ha, hb⟩
    exact ⟨ha, .inr hb⟩

theorem mem_foldl_insert {p : Fin n → Bool} {m : Mask n} {is : List (Fin n)} {i : Fin n} :
    i ∈ is.foldl (fun m i => if p i then m.insert i else m) m ↔ i ∈ m ∨ (i ∈ is ∧ p i) := by
  induction is generalizing m with
  | nil => simp
  | cons j js ih =>
    rw [List.foldl_cons, ih]
    by_cases hp : p j
    · rw [if_pos hp, mem_insert, List.mem_cons]
      constructor
      · rintro ((h | rfl) | ⟨h, hi⟩)
        · exact .inl h
        · exact .inr ⟨.inl rfl, hp⟩
        · exact .inr ⟨.inr h, hi⟩
      · rintro (h | ⟨rfl | h, hi⟩)
        · exact .inl (.inl h)
        · exact .inl (.inr rfl)
        · exact .inr ⟨h, hi⟩
    · rw [if_neg hp, List.mem_cons]
      constructor
      · rintro (h | ⟨h, hi⟩)
        · exact .inl h
        · exact .inr ⟨.inr h, hi⟩
      · rintro (h | ⟨rfl | h, hi⟩)
        · exact .inl h
        · exact absurd hi hp
        · exact .inr ⟨h, hi⟩

@[simp] theorem mem_ofPred {p : Fin n → Bool} {i : Fin n} : i ∈ ofPred p ↔ p i = true := by
  simp [ofPred, mem_foldl_insert]

@[simp] theorem mem_toList {m : Mask n} {i : Fin n} : i ∈ m.toList ↔ i ∈ m := by
  simp [toList]

/-- All sets of numbers from a list: each one is a member or not. -/
def allOf : List (Fin n) → List (Mask n)
  | [] => [empty]
  | i :: is => allOf is ++ (allOf is).map (·.insert i)

/-- All sets of numbers below `n`. -/
def all (n : Nat) : List (Mask n) := allOf (List.finRange n)

theorem mem_allOf {is : List (Fin n)} {m : Mask n} (h : ∀ i, i ∈ m → i ∈ is) : m ∈ allOf is := by
  induction is generalizing m with
  | nil =>
    obtain rfl : m = empty := ext fun i => by
      have hi : i ∉ m := fun hi => List.not_mem_nil (h i hi)
      simp [hi]
    exact List.mem_singleton_self _
  | cons j js ih =>
    -- without `j`, the members are in the rest of the list
    have hrest : m.diff (empty.insert j) ∈ allOf js := ih fun i hi => by
      obtain ⟨hi, hij⟩ := mem_diff.mp hi
      exact (List.mem_cons.mp (h i hi)).resolve_left fun heq => hij (by simp [heq])
    refine List.mem_append.mpr ?_
    by_cases hj : j ∈ m
    · refine .inr (List.mem_map.mpr ⟨_, hrest, ext fun i => ?_⟩)
      by_cases hij : i = j
      · simp [hij, hj]
      · simp [hij]
    · have heq : m.diff (empty.insert j) = m := ext fun i => by
        have hne : i ∈ m → i ≠ j := fun hi heq => hj (heq ▸ hi)
        simpa using hne
      exact .inl (heq ▸ hrest)

@[simp] theorem mem_all (m : Mask n) : m ∈ all n := mem_allOf fun i _ => List.mem_finRange i

theorem length_allOf (is : List (Fin n)) : (allOf is).length = Nat.pow 2 is.length := by
  induction is with
  | nil => rfl
  | cons i is ih =>
    rw [allOf, List.length_append, List.length_map, ih, ← Nat.mul_two]
    rfl

theorem length_all : (all n).length = Nat.pow 2 n := by
  rw [all, length_allOf, List.length_finRange]

end Mask

end TimedMachine
