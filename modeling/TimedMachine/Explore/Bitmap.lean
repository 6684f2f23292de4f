/-!
# Rows of words

A `Bitmap` keeps numbers as bits in words of 64: the number `b` is bit `b % 64` of word `b / 64`. A
number without a word has no place in it, and can be neither put in nor looked up.

A bitmap does not know which numbers it is for. Those that are built for the numbers below `n`
(`Bitmap.Built n`) have a word for each of them, all have equally many words, and in the last word
no bit stands for a number from `n` on. Hence two of them are equal iff they have the same members
(`Bitmap.Built.ext`).
-/

namespace TimedMachine

/-- Words whose bits stand for numbers. -/
structure Bitmap where
  words : List UInt64
deriving DecidableEq

namespace Bitmap

/-- A bitmap without members that has words for the numbers below `n`. -/
def empty (n : Nat) : Bitmap := ⟨.replicate ((n + 63) / 64) 0⟩

/-- The word in which only the bit of a number is set. -/
def bitOf (b : Nat) : UInt64 := 1 <<< UInt64.ofNat (b % 64)

/-- Whether a number is a member, if there is a word for it. -/
def contains? (a : Bitmap) (b : Nat) : Option Bool :=
  a.words[b / 64]?.map fun w => w &&& bitOf b != 0

/-- The bitmap with one more member, if there is a word for it. -/
def insert? (a : Bitmap) (b : Nat) : Option Bitmap :=
  a.words[b / 64]?.map fun w => ⟨a.words.set (b / 64) (w ||| bitOf b)⟩

/-- Changes each word by the one at the same place in another list, and leaves the words as they are
for which that list is too short. -/
def changeBy (f : UInt64 → UInt64 → UInt64) : List UInt64 → List UInt64 → List UInt64
  | v :: vs, w :: ws => f v w :: changeBy f vs ws
  | vs, _ => vs

/-- Adds the members of `b`, as far as there are words for them. -/
def union (a b : Bitmap) : Bitmap := ⟨changeBy (fun v w => v ||| w) a.words b.words⟩

/-- Takes the members of `b` away. -/
def diff (a b : Bitmap) : Bitmap := ⟨changeBy (fun v w => v &&& ~~~w) a.words b.words⟩

instance : Membership Nat Bitmap := ⟨fun a b => a.contains? b = some true⟩

instance (a : Bitmap) (b : Nat) : Decidable (b ∈ a) :=
  inferInstanceAs (Decidable (a.contains? b = some true))

/-! ## Words and bits -/

/-- The bits of the word at a place, none set if there is no word. -/
def bits (a : Bitmap) (k : Nat) : BitVec 64 := (a.words[k]?.getD 0).toBitVec

theorem toBitVec_bitOf (b : Nat) : (bitOf b).toBitVec = BitVec.twoPow 64 (b % 64) := by
  rw [bitOf, UInt64.toBitVec_shiftLeft, BitVec.twoPow_eq]
  simp

theorem and_bitOf_ne_zero (w : UInt64) (b : Nat) :
    (w &&& bitOf b != 0) = w.toBitVec.getLsbD (b % 64) := by
  have hlt : b % 64 < 64 := Nat.mod_lt b (by decide)
  have hne : BitVec.twoPow 64 (b % 64) ≠ 0#64 := fun h => by
    have hbit := congrArg (fun v => v.getLsbD (b % 64)) h
    simp [hlt] at hbit
  have hzero : w &&& bitOf b = 0 ↔ w.toBitVec.getLsbD (b % 64) = false := by
    rw [← UInt64.toBitVec_inj, UInt64.toBitVec_and, toBitVec_bitOf, BitVec.and_twoPow]
    cases w.toBitVec.getLsbD (b % 64) <;> simp [hne]
  rw [Bool.eq_iff_iff, bne_iff_ne, ne_eq, hzero, Bool.not_eq_false]

theorem contains?_of_lt {a : Bitmap} {b : Nat} (h : b / 64 < a.words.length) :
    a.contains? b = some ((a.bits (b / 64)).getLsbD (b % 64)) := by
  simp [contains?, bits, h, and_bitOf_ne_zero]

theorem mem_iff {a : Bitmap} {b : Nat} : b ∈ a ↔ (a.bits (b / 64)).getLsbD (b % 64) = true := by
  show a.contains? b = some true ↔ _
  by_cases h : b / 64 < a.words.length
  · rw [contains?_of_lt h, Option.some.injEq]
  · have hnone : a.words[b / 64]? = none := List.getElem?_eq_none (Nat.le_of_not_lt h)
    simp [contains?, bits, hnone]

/-- Bitmaps of one length are equal if they have the same members: each bit stands for a number. -/
theorem eq_of_mem_iff {a b : Bitmap} (hlength : a.words.length = b.words.length)
    (h : ∀ i, i ∈ a ↔ i ∈ b) : a = b := by
  have hbits : ∀ k, a.bits k = b.bits k := by
    refine fun k => BitVec.eq_of_getLsbD_eq fun i hi => ?_
    have hmem := h (64 * k + i)
    rw [mem_iff, mem_iff, Nat.mul_add_div (by decide), Nat.mul_add_mod, Nat.div_eq_of_lt hi,
      Nat.mod_eq_of_lt hi, Nat.add_zero] at hmem
    exact Bool.eq_iff_iff.mpr hmem
  have hwords : a.words = b.words := List.ext_getElem hlength fun k hk hk' => by
    have heq := UInt64.toBitVec_inj.mp (hbits k)
    rwa [List.getElem?_eq_getElem hk, List.getElem?_eq_getElem hk'] at heq
  cases a
  cases b
  exact congrArg Bitmap.mk hwords

/-! ## Operations -/

theorem bits_empty (n k : Nat) : (empty n).bits k = 0#64 := by
  rw [bits, empty, List.getElem?_replicate]
  split <;> rfl

theorem not_mem_empty (n b : Nat) : b ∉ empty n := by
  rw [mem_iff, bits_empty]
  simp

theorem isSome_insert? {a : Bitmap} {b : Nat} (h : b / 64 < a.words.length) :
    (a.insert? b).isSome = true := by
  simp [insert?, h]

theorem length_insert? {a a' : Bitmap} {b : Nat} (h : a.insert? b = some a') :
    a'.words.length = a.words.length := by
  obtain ⟨w, -, rfl⟩ := Option.map_eq_some_iff.mp h
  exact List.length_set

theorem bits_insert? {a a' : Bitmap} {b : Nat} (h : a.insert? b = some a') (k : Nat) :
    a'.bits k = if b / 64 = k then a.bits k ||| BitVec.twoPow 64 (b % 64) else a.bits k := by
  obtain ⟨w, hw, rfl⟩ := Option.map_eq_some_iff.mp h
  have hlt : b / 64 < a.words.length := (List.getElem?_eq_some_iff.mp hw).1
  by_cases hk : b / 64 = k
  · subst hk
    have hset := List.getElem?_set_self (a := w ||| bitOf b) hlt
    simp only [bits, hset, hw, Option.getD_some, if_pos, UInt64.toBitVec_or, toBitVec_bitOf]
  · simp [bits, hk]

/-- A new member sets its own bit, and no other of its word. -/
theorem mem_insert? {a a' : Bitmap} {b i : Nat} (h : a.insert? b = some a') :
    i ∈ a' ↔ i ∈ a ∨ i = b := by
  rw [mem_iff, mem_iff, bits_insert? h]
  by_cases hword : b / 64 = i / 64
  · have hbit : (b % 64 < 64 ∧ b % 64 = i % 64) ↔ i = b := by omega
    rw [if_pos hword, BitVec.getLsbD_or, BitVec.getLsbD_twoPow, Bool.or_eq_true, Bool.and_eq_true,
      decide_eq_true_eq, decide_eq_true_eq, hbit]
  · have hne : i ≠ b := fun heq => hword (heq ▸ rfl)
    rw [if_neg hword, or_iff_left hne]

theorem length_changeBy (f : UInt64 → UInt64 → UInt64) (vs ws : List UInt64) :
    (changeBy f vs ws).length = vs.length := by
  induction vs, ws using changeBy.induct with
  | case1 v vs w ws ih => simp [changeBy, ih]
  | case2 vs ws h => cases vs <;> cases ws <;> simp_all [changeBy]

/-- Between lists of one length no word is left out. -/
theorem getElem?_changeBy {f : UInt64 → UInt64 → UInt64} (hf : f 0 0 = 0) {vs ws : List UInt64}
    (h : vs.length = ws.length) (k : Nat) :
    (changeBy f vs ws)[k]?.getD 0 = f (vs[k]?.getD 0) (ws[k]?.getD 0) := by
  induction vs generalizing ws k with
  | nil =>
    obtain rfl : ws = [] := List.length_eq_zero_iff.mp h.symm
    simp [changeBy, hf]
  | cons v vs ih =>
    obtain ⟨w, ws, rfl⟩ := List.exists_cons_of_length_eq_add_one h.symm
    cases k with
    | zero => rfl
    | succ k => exact ih (Nat.succ.inj h) k

theorem mem_union {a b : Bitmap} (h : a.words.length = b.words.length) {i : Nat} :
    i ∈ a.union b ↔ i ∈ a ∨ i ∈ b := by
  have hbits : (a.union b).bits (i / 64) = a.bits (i / 64) ||| b.bits (i / 64) :=
    congrArg UInt64.toBitVec (getElem?_changeBy (by decide) h _)
  rw [mem_iff, mem_iff, mem_iff, hbits, BitVec.getLsbD_or, Bool.or_eq_true]

theorem mem_diff {a b : Bitmap} (h : a.words.length = b.words.length) {i : Nat} :
    i ∈ a.diff b ↔ i ∈ a ∧ i ∉ b := by
  have hbits : (a.diff b).bits (i / 64) = a.bits (i / 64) &&& ~~~b.bits (i / 64) :=
    congrArg UInt64.toBitVec (getElem?_changeBy (f := fun v w => v &&& ~~~w) (by decide) h _)
  have hlt : i % 64 < 64 := Nat.mod_lt i (by decide)
  rw [mem_iff, mem_iff, mem_iff, hbits, BitVec.getLsbD_and, BitVec.getLsbD_not]
  simp [hlt]

/-! ## What is built from the empty bitmap -/

/-- A bitmap is built from an empty one for the numbers below `n`, by putting such numbers in and by
adding or taking away the members of others that are built for them. -/
inductive Built (n : Nat) : Bitmap → Prop
  | empty : Built n (Bitmap.empty n)
  | insert {a a' : Bitmap} {b : Nat} : Built n a → b < n → a.insert? b = some a' → Built n a'
  | union {a b : Bitmap} : Built n a → Built n b → Built n (a.union b)
  | diff {a b : Bitmap} : Built n a → Built n b → Built n (a.diff b)

namespace Built

variable {n : Nat} {a b : Bitmap}

/-- Nothing that is built changes how many words there are. -/
theorem length_words (h : a.Built n) : a.words.length = (n + 63) / 64 := by
  induction h with
  | empty => exact List.length_replicate
  | insert _ _ ha' ih => exact (length_insert? ha').trans ih
  | union _ _ ih _ => exact (length_changeBy _ _ _).trans ih
  | diff _ _ ih _ => exact (length_changeBy _ _ _).trans ih

theorem length_eq (ha : a.Built n) (hb : b.Built n) : a.words.length = b.words.length :=
  ha.length_words.trans hb.length_words.symm

/-- There is a word for each number below `n`. -/
theorem div_lt (h : a.Built n) {i : Nat} (hi : i < n) : i / 64 < a.words.length := by
  rw [h.length_words]
  omega

/-- No number from `n` on is a member, although the last word may have bits for some. -/
theorem lt_of_mem (h : a.Built n) {i : Nat} (hi : i ∈ a) : i < n := by
  induction h with
  | empty => exact absurd hi (not_mem_empty n i)
  | insert _ hb ha' ih =>
    rcases (mem_insert? ha').mp hi with hi | rfl
    · exact ih hi
    · exact hb
  | union ha hb iha ihb => exact ((mem_union (ha.length_eq hb)).mp hi).elim iha ihb
  | diff ha hb iha _ => exact iha ((mem_diff (ha.length_eq hb)).mp hi).1

/-- What is built for the same numbers is equal if the same of them are members. -/
theorem ext (ha : a.Built n) (hb : b.Built n) (h : ∀ i, i < n → (i ∈ a ↔ i ∈ b)) : a = b :=
  eq_of_mem_iff (ha.length_eq hb) fun i =>
    ⟨fun hi => (h i (ha.lt_of_mem hi)).mp hi, fun hi => (h i (hb.lt_of_mem hi)).mpr hi⟩

end Built

end Bitmap

end TimedMachine
