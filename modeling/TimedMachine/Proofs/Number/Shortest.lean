import TimedMachine.Number.Shortest
import Mathlib.Algebra.Order.Field.Power
import Mathlib.Tactic.FieldSimp
import Mathlib.Tactic.Linarith
import Mathlib.Tactic.NormNum
import Mathlib.Tactic.Positivity
import Mathlib.Tactic.Ring

/-!
# The shortest digits tell doubles apart

A finite double is told by its sign, its mantissa and its exponent (`eq_of_ofFloat_eq`). The numbers
that are read back as a double lie in an interval around it (`Rounds`); `shortest` gives one of them
(`rounds_shortest`), and no number lies in the intervals of two doubles (`eq_of_rounds`).
-/

namespace TimedMachine.Number

/-! ## Doubles -/

/-- Whether a double has this mantissa and exponent: the mantissa is as large as it can be, unless
the exponent is the least. -/
structure IsDouble (m : Nat) (e : Int) : Prop where
  lt : m < 2 ^ 53
  least_le : leastExponent ≤ e
  normal : 2 ^ 52 ≤ m ∨ e = leastExponent

section Bits

variable {x y : Float}

/-- The datum of a double whose exponent bits are not all set. -/
theorem ofFloat_eq (h : x.toBits.toNat / 2 ^ 52 % 2 ^ 11 ≠ 2 ^ 11 - 1) :
    Datum.ofFloat x =
      if x.toBits.toNat / 2 ^ 52 % 2 ^ 11 = 0 then
        .finite (2 ^ 63 ≤ x.toBits.toNat) (x.toBits.toNat % 2 ^ 52) leastExponent
      else .finite (2 ^ 63 ≤ x.toBits.toNat) (2 ^ 52 + x.toBits.toNat % 2 ^ 52)
        (leastExponent - 1 + (x.toBits.toNat / 2 ^ 52 % 2 ^ 11 : Nat)) :=
  if_neg h

open Float.Model in
/-- The exponent bits of a finite double are not all set. -/
theorem exponentBits_ne_of_isFinite (h : x.isFinite) :
    x.toBits.toNat / 2 ^ 52 % 2 ^ 11 ≠ 2 ^ 11 - 1 := by
  intro hbits
  have hexponent : @UnpackedFloat.unpackExponent Format.binary64
      x.toModel.toBits.toBitVec = -1#_ := by
    apply BitVec.eq_of_toNat_eq
    rw [UnpackedFloat.unpackExponent]
    have hbits : x.toModel.toBits.toNat / 2 ^ 52 % 2 ^ 11 = 2 ^ 11 - 1 := hbits
    simpa [BitVec.extractLsb, BitVec.extractLsb', Nat.shiftRight_eq_div_pow] using hbits
  have hunpack : x.toModel.unpack.isFinite = false := by
    unfold Float.Model.unpack UnpackedFloat.unpack
    rw [if_pos hexponent]
    split <;> rfl
  cases h.symm.trans hunpack

/-- A finite double is a mantissa times a power of two. -/
theorem exists_ofFloat_of_isFinite (h : x.isFinite) :
    ∃ negative m e, Datum.ofFloat x = .finite negative m e ∧ IsDouble m e := by
  rw [ofFloat_eq (exponentBits_ne_of_isFinite h)]
  split
  · exact ⟨_, _, _, rfl, by omega, Int.le_refl _, .inr rfl⟩
  · exact ⟨_, _, _, rfl, by omega, by omega, .inl (Nat.le_add_right _ _)⟩

/-- A finite double is told by its sign, its mantissa and its exponent. -/
theorem eq_of_ofFloat_eq (hx : x.isFinite) (hy : y.isFinite)
    (h : Datum.ofFloat x = Datum.ofFloat y) : x = y := by
  have hbits : x.toBits.toNat = y.toBits.toNat := by
    have hlt := x.toBits.toNat_lt
    have hlt' := y.toBits.toNat_lt
    rw [ofFloat_eq (exponentBits_ne_of_isFinite hx),
      ofFloat_eq (exponentBits_ne_of_isFinite hy)] at h
    split at h <;> split at h <;>
      · simp only [Datum.finite.injEq, decide_eq_decide] at h
        omega
  obtain ⟨⟨bits, _⟩⟩ := x
  obtain ⟨⟨bits', _⟩⟩ := y
  cases UInt64.toNat_inj.1 hbits
  rfl

end Bits

/-! ## What rounds to a double -/

/-- How many quarters of a step of the doubles the interval of a double reaches down. -/
def below (m : Nat) (e : Int) : Nat := if m = 2 ^ 52 ∧ leastExponent < e then 1 else 2

/-- Whether a reader that rounds to the nearest double, and between two to the even mantissa, reads
the number `q` as `m · 2 ^ e`. -/
structure Rounds (m : Nat) (e : Int) (q : ℚ) : Prop where
  low : (4 * m - below m e) * (2 : ℚ) ^ (e - 2) ≤ q
  high : q ≤ (4 * m + 2) * (2 : ℚ) ^ (e - 2)
  inside : m % 2 = 1 → q ≠ (4 * m - below m e) * (2 : ℚ) ^ (e - 2) ∧
    q ≠ (4 * m + 2) * (2 : ℚ) ^ (e - 2)

theorem below_le (m : Nat) (e : Int) : below m e ≤ 2 := by
  unfold below
  split <;> decide

section Rounds

variable {m m' : Nat} {e e' : Int} {q : ℚ}

/-- Only positive numbers are read as a double above zero. -/
theorem Rounds.pos (h : Rounds m e q) (hm : 0 < m) : 0 < q := by
  have hbelow : (below m e : ℚ) ≤ 2 := mod_cast below_le m e
  have hmantissa : (1 : ℚ) ≤ m := mod_cast hm
  have hlow : 0 < (4 * m - below m e) * (2 : ℚ) ^ (e - 2) := mul_pos (by linarith) (by positivity)
  exact hlow.trans_le h.low

/-- The interval of a double ends where that of the next mantissa begins, or before that of a
greater one; and of two neighbours one is odd. -/
theorem Rounds.not_of_mantissa_lt (h : Rounds m e q) (hlt : m < m') : ¬Rounds m' e q := by
  intro h'
  have hunit : (0 : ℚ) < 2 ^ (e - 2) := by positivity
  have hbelow : (below m' e : ℚ) ≤ 2 := mod_cast below_le m' e
  have hmantissa : (m : ℚ) + 1 ≤ m' := mod_cast hlt
  have hends : (4 * m + 2) * (2 : ℚ) ^ (e - 2) ≤ (4 * m' - below m' e) * 2 ^ (e - 2) :=
    mul_le_mul_of_nonneg_right (by linarith) hunit.le
  -- so `q` is at both ends, and they are the same
  have hq : q = (4 * m + 2) * 2 ^ (e - 2) := le_antisymm h.high (hends.trans h'.low)
  have hq' : q = (4 * m' - below m' e) * 2 ^ (e - 2) := le_antisymm (h.high.trans hends) h'.low
  have heq := mul_right_cancel₀ hunit.ne' (hq.symm.trans hq')
  have hnext : m' = m + 1 := by
    have hnat : 4 * m + 2 + below m' e = 4 * m' := by
      have hsum : (4 * m + 2 + below m' e : ℚ) = 4 * m' := by linarith
      exact_mod_cast hsum
    have := below_le m' e
    omega
  obtain hodd | hodd : m % 2 = 1 ∨ m' % 2 = 1 := by omega
  · exact (h.inside hodd).2 hq
  · exact (h'.inside hodd).1 hq'

/-- The interval of a double ends where that of one with a greater exponent begins, or before it.
They meet at a power of two only, and the mantissa below one is odd. -/
theorem Rounds.not_of_exponent_lt (h : Rounds m e q) (hdouble : IsDouble m e)
    (hdouble' : IsDouble m' e') (hlt : e < e') : ¬Rounds m' e' q := by
  intro h'
  have hunit : (0 : ℚ) < 2 ^ (e - 2) := by positivity
  have hunits : 2 * (2 : ℚ) ^ (e - 2) ≤ 2 ^ (e' - 2) := by
    rw [mul_comm, ← zpow_add_one₀ (by norm_num)]
    exact zpow_le_zpow_right₀ (by norm_num) (by omega)
  have hbegin : (2 ^ 54 - 1 : ℚ) ≤ 4 * m' - below m' e' := by
    have hnat : 2 ^ 54 + below m' e' ≤ 4 * m' + 1 := by
      have hnormal := hdouble'.normal
      have hleast := hdouble.least_le
      unfold below
      split <;> omega
    have hcast : (2 ^ 54 + below m' e' : ℚ) ≤ 4 * m' + 1 := mod_cast hnat
    linarith
  have hlow : (2 ^ 55 - 2) * (2 : ℚ) ^ (e - 2) ≤ q := calc
    (2 ^ 55 - 2) * (2 : ℚ) ^ (e - 2) = (2 ^ 54 - 1) * (2 * 2 ^ (e - 2)) := by ring
    _ ≤ (2 ^ 54 - 1) * 2 ^ (e' - 2) := mul_le_mul_of_nonneg_left hunits (by norm_num)
    _ ≤ (4 * m' - below m' e') * 2 ^ (e' - 2) :=
      mul_le_mul_of_nonneg_right hbegin (by positivity)
    _ ≤ q := h'.low
  have hmantissa : (m : ℚ) ≤ 2 ^ 53 - 1 := by
    have hcast : (m + 1 : ℚ) ≤ 2 ^ 53 := mod_cast hdouble.lt
    linarith
  have hends : (4 * m + 2) * (2 : ℚ) ^ (e - 2) ≤ (2 ^ 55 - 2) * 2 ^ (e - 2) :=
    mul_le_mul_of_nonneg_right (by linarith) hunit.le
  have hq : q = (4 * m + 2) * 2 ^ (e - 2) := le_antisymm h.high (hends.trans hlow)
  have hlast : m = 2 ^ 53 - 1 := by
    have hge : (2 ^ 55 - 2 : ℚ) ≤ 4 * m + 2 :=
      le_of_mul_le_mul_right (hlow.trans h.high) hunit
    have hnat : 2 ^ 53 ≤ m + 1 := by
      have hcast : (2 ^ 53 : ℚ) ≤ m + 1 := by linarith
      exact_mod_cast hcast
    have := hdouble.lt
    omega
  exact (h.inside (by omega)).2 hq

/-- No number is read as two doubles. -/
theorem eq_of_rounds (hdouble : IsDouble m e) (hdouble' : IsDouble m' e') (h : Rounds m e q)
    (h' : Rounds m' e' q) : m = m' ∧ e = e' := by
  obtain hlt | rfl | hlt := Int.lt_trichotomy e e'
  · exact absurd h' (h.not_of_exponent_lt hdouble hdouble' hlt)
  · obtain hlt | rfl | hlt := Nat.lt_trichotomy m m'
    · exact absurd h' (h.not_of_mantissa_lt hlt)
    · exact ⟨rfl, rfl⟩
    · exact absurd h (h'.not_of_mantissa_lt hlt)
  · exact absurd h (h'.not_of_exponent_lt hdouble' hdouble hlt)

end Rounds

/-! ## The shortest decimal number -/

/-- The value of a decimal number. -/
def Decimal.value (d : Decimal) : ℚ := d.digits * 10 ^ d.exponent

section Shortest

variable {m : Nat} {e : Int}

/-- Taking zeros off the digits leaves the value as it is. -/
theorem value_strip (fuel : Nat) (d : Decimal) : (d.strip fuel).value = d.value := by
  induction fuel generalizing d with
  | zero => rfl
  | succ fuel ih =>
    rw [Decimal.strip]
    split
    · next h =>
      have hdigits : (d.digits : ℚ) = 10 * (d.digits / 10 : Nat) := by
        have hnat : d.digits = 10 * (d.digits / 10) := by omega
        exact_mod_cast hnat
      rw [ih, Decimal.value, Decimal.value, hdigits, zpow_add_one₀ (by norm_num)]
      ring
    · rfl

/-- A power as a fraction of two powers of which one is the first. -/
theorem zpow_eq_div (x : ℚ) (k : Int) : x ^ k = x ^ k.toNat / x ^ (-k).toNat := by
  obtain h | h := Int.le_total 0 k
  · rw [Int.toNat_of_nonpos (Int.neg_nonpos_of_nonneg h), pow_zero, div_one, ← zpow_natCast,
      Int.toNat_of_nonneg h]
  · rw [Int.toNat_of_nonpos h, pow_zero, one_div, ← zpow_natCast,
      Int.toNat_of_nonneg (Int.neg_nonneg_of_nonpos h), zpow_neg, inv_inv]

/-- The points of a grid compare with the quarters of a double's step as whole numbers do, when both
are brought to one unit. -/
theorem grid_le_iff (b k : Int) (n d : Nat) :
    (n * (2 ^ b.toNat * 10 ^ (-k).toNat) ≤ d * (2 ^ (-b).toNat * 10 ^ k.toNat) ↔
      (n : ℚ) * 2 ^ b ≤ d * 10 ^ k) ∧
    (d * (2 ^ (-b).toNat * 10 ^ k.toNat) ≤ n * (2 ^ b.toNat * 10 ^ (-k).toNat) ↔
      (d : ℚ) * 10 ^ k ≤ n * 2 ^ b) := by
  have hscale : n * (2 ^ b.toNat * 10 ^ (-k).toNat) = n * 2 ^ b.toNat * 10 ^ (-k).toNat := by ring
  have hunit : d * (2 ^ (-b).toNat * 10 ^ k.toNat) = d * 10 ^ k.toNat * 2 ^ (-b).toNat := by ring
  rw [zpow_eq_div 2, zpow_eq_div 10, ← mul_div_assoc, ← mul_div_assoc,
    div_le_div_iff₀ (by positivity) (by positivity),
    div_le_div_iff₀ (by positivity) (by positivity), hscale, hunit]
  exact ⟨by exact_mod_cast Iff.rfl, by exact_mod_cast Iff.rfl⟩

/-- A grid point in the interval of a double is read as the double. -/
theorem rounds_of_holds {k : Int} {d : Nat} (hm : 0 < m) (h : (Grid.make m e k).holds d) :
    Rounds m e (d * 10 ^ k) := by
  have hbelow : below m e ≤ 4 * m := (below_le m e).trans (by omega)
  have hlow := grid_le_iff (e - 2) k (4 * m - below m e) d
  have hhigh := grid_le_iff (e - 2) k (4 * m + 2) d
  push_cast [hbelow] at hlow hhigh
  have hholds : (if decide (m % 2 = 0) then _ else _) = true := h
  by_cases heven : m % 2 = 0
  · rw [if_pos (decide_eq_true heven)] at hholds
    obtain ⟨h₁, h₂⟩ := Bool.and_eq_true_iff.1 hholds
    refine ⟨hlow.1.1 (of_decide_eq_true h₁), hhigh.2.1 (of_decide_eq_true h₂), fun hodd => ?_⟩
    omega
  · rw [if_neg (by simpa using heven)] at hholds
    obtain ⟨h₁, h₂⟩ := Bool.and_eq_true_iff.1 hholds
    have hlow : _ < _ := lt_of_not_ge fun h => (of_decide_eq_true h₁).not_ge (hlow.2.2 h)
    have hhigh : _ < _ := lt_of_not_ge fun h => (of_decide_eq_true h₂).not_ge (hhigh.1.2 h)
    exact ⟨hlow.le, hhigh.le, fun _ => ⟨hlow.ne', hhigh.ne⟩⟩

/-- What the search on a grid finds lies in the interval. -/
theorem holds_of_nearest? {g : Grid} {tie : Tie} {d : Nat} (h : g.nearest? tie = some d) :
    g.holds d := by
  unfold Grid.nearest? at h
  dsimp only at h
  split at h
  · cases h
  · cases h
    assumption
  · cases h
    assumption
  · next h₁ h₂ =>
    split at h
    · cases h
      assumption
    · cases h
      assumption
    · split at h <;> cases h <;> assumption

/-- The double itself, written out in full. -/
theorem value_exactDecimal (m : Nat) (e : Int) : (exactDecimal m e).value = m * 2 ^ e := by
  have hvalue : (exactDecimal m e).value =
      (m * 2 ^ e.toNat * 5 ^ (-e).toNat : Nat) * 10 ^ min e 0 := rfl
  rw [hvalue]
  push_cast
  obtain h | h := Int.le_total 0 e
  · rw [min_eq_right h, Int.toNat_of_nonpos (Int.neg_nonpos_of_nonneg h), pow_zero, zpow_zero,
      mul_one, mul_one, ← zpow_natCast, Int.toNat_of_nonneg h]
  · obtain ⟨n, hn⟩ := Int.eq_ofNat_of_zero_le (Int.neg_nonneg_of_nonpos h)
    obtain rfl : e = -n := by omega
    have hten : (10 : ℚ) ^ n = 2 ^ n * 5 ^ n := by rw [← mul_pow]; norm_num
    rw [min_eq_left h, Int.toNat_of_nonpos h, neg_neg, Int.toNat_natCast, zpow_neg, zpow_neg,
      zpow_natCast, zpow_natCast, hten]
    field_simp

/-- A double is read as itself. -/
theorem rounds_self (m : Nat) (e : Int) : Rounds m e (m * 2 ^ e) := by
  have hunit : (0 : ℚ) < 2 ^ (e - 2) := by positivity
  have hvalue : (m : ℚ) * 2 ^ e = 4 * m * 2 ^ (e - 2) := by
    rw [zpow_sub₀ (by norm_num)]
    ring
  have hbelow : (0 : ℚ) < below m e := by
    unfold below
    split <;> norm_num
  have hlow : (4 * m - below m e) * (2 : ℚ) ^ (e - 2) < m * 2 ^ e := by
    rw [hvalue]
    exact mul_lt_mul_of_pos_right (by linarith) hunit
  have hhigh : (m : ℚ) * 2 ^ e < (4 * m + 2) * 2 ^ (e - 2) := by
    rw [hvalue]
    exact mul_lt_mul_of_pos_right (by linarith) hunit
  exact ⟨hlow.le, hhigh.le, fun _ => ⟨hlow.ne', hhigh.ne⟩⟩

/-- The shortest digits of a double are read as the double. -/
theorem rounds_shortest (tie : Tie) (hm : 0 < m) : Rounds m e (shortest tie m e).value := by
  rw [shortest, value_strip]
  cases hfound : (List.range 24).findSome? fun (i : Nat) =>
    Grid.make m e (powerAbove m e - i) |>.nearest? tie |>.map fun d =>
      Decimal.mk d (powerAbove m e - i) with
  | none =>
    rw [Option.getD_none, value_exactDecimal]
    exact rounds_self m e
  | some d =>
    obtain ⟨i, -, hi⟩ := List.exists_of_findSome?_eq_some hfound
    obtain ⟨digits, hdigits, rfl⟩ := Option.map_eq_some_iff.1 hi
    exact rounds_of_holds hm (holds_of_nearest? hdigits)

end Shortest

end TimedMachine.Number
