import Mathlib.Order.Compare
import TimedMachine.Proofs.Number.Shortest

/-!
# The exact value of a double

A finite double is a rational number, `exactValue`. Doubles compare by their signs, their exponents
and their mantissas, and that is how the numbers compare (`float_lt_iff_exactValue`,
`float_le_iff_exactValue`).
-/

namespace TimedMachine.Number

open Float.Model

/-! ## Values -/

/-- The number that a double is; where it is none, zero. -/
def Datum.value : Datum → ℚ
  | .finite negative m e => if negative then -(m * 2 ^ e) else m * 2 ^ e
  | .infinite _ | .nan => 0

/-- The number that a finite double is, exactly. -/
def exactValue (x : Float) : ℚ := (Datum.ofFloat x).value

/-! ## The parts that are compared -/

/-- The sign of a number. -/
def signOf (negative : Bool) : UnpackedFloat.Sign := if negative then .negative else .positive

/-- A number as it is compared with others. -/
def unpacked (negative : Bool) (m : Nat) (e : Int) : UnpackedFloat :=
  if hm : 0 < m then .finite (signOf negative) m e hm else .zero (signOf negative)

theorem unpacked_pos {negative : Bool} {m n : Nat} {e k : Int} (hm : 0 < m) (hn : 0 < n)
    (hmn : n = m) (hek : k = e) :
    UnpackedFloat.finite (signOf negative) n k hn = unpacked negative m e := by
  subst hmn hek
  exact (dif_pos hm).symm

section Fields

variable {b : BitVec 64}

theorem toNat_unpackExponent :
    (@UnpackedFloat.unpackExponent Format.binary64 b).toNat = b.toNat / 2 ^ 52 % 2 ^ 11 := by
  simp [UnpackedFloat.unpackExponent, BitVec.extractLsb, BitVec.extractLsb',
    Nat.shiftRight_eq_div_pow]

theorem toNat_unpackMantissa :
    (@UnpackedFloat.unpackMantissa Format.binary64 b).toNat = b.toNat % 2 ^ 52 := by
  simp [UnpackedFloat.unpackMantissa, BitVec.extractLsb, BitVec.extractLsb']

theorem ofBitVec_unpackSign :
    UnpackedFloat.Sign.ofBitVec (@UnpackedFloat.unpackSign Format.binary64 b) =
      signOf (2 ^ 63 ≤ b.toNat) := by
  have hsign : (@UnpackedFloat.unpackSign Format.binary64 b).toNat = b.toNat / 2 ^ 63 % 2 := by
    change (BitVec.extractLsb 63 63 b).toNat = _
    simp [BitVec.extractLsb, BitVec.extractLsb', Nat.shiftRight_eq_div_pow]
  have hlt : b.toNat < 2 ^ 64 := b.isLt
  unfold UnpackedFloat.Sign.ofBitVec signOf
  have hzero : @UnpackedFloat.unpackSign Format.binary64 b = 0#1 ↔ ¬2 ^ 63 ≤ b.toNat := by
    rw [← BitVec.toNat_inj, hsign]
    simp
    omega
  simp only [hzero, decide_eq_true_eq]
  split <;> simp_all

/-- The leading bit of a mantissa, which is not written down, stands before all others. -/
theorem toNat_one_append (v : BitVec 52) : (1#1 ++ v).toNat = 2 ^ 52 + v.toNat := by
  change 2 ^ 52 ||| v.toNat = _
  rw [Nat.or_comm, Nat.or_two_pow_eq_add_of_lt v.isLt, Nat.add_comm]

end Fields

/-- A double is compared by its sign, its mantissa and its exponent. -/
theorem unpack_eq {x : Float} {negative : Bool} {m : Nat} {e : Int} (hx : x.isFinite)
    (h : Datum.ofFloat x = .finite negative m e) :
    x.toModel.unpack = unpacked negative m e := by
  have hbits := exponentBits_ne_of_isFinite hx
  rw [ofFloat_eq hbits] at h
  have hbias : (Format.binary64.exponentBias : Int) = 1023 := rfl
  set b : BitVec 64 := x.toModel.toBits.toBitVec
  have hexponent : (@UnpackedFloat.unpackExponent Format.binary64 b).toNat =
      x.toBits.toNat / 2 ^ 52 % 2 ^ 11 := toNat_unpackExponent
  have hmantissa : (@UnpackedFloat.unpackMantissa Format.binary64 b).toNat =
      x.toBits.toNat % 2 ^ 52 := toNat_unpackMantissa
  have hones : @UnpackedFloat.unpackExponent Format.binary64 b ≠ -1#_ := by
    intro hones
    rw [hones] at hexponent
    exact hbits hexponent.symm
  have hzero : @UnpackedFloat.unpackExponent Format.binary64 b = 0#_ ↔
      x.toBits.toNat / 2 ^ 52 % 2 ^ 11 = 0 := by
    rw [← hexponent, ← BitVec.toNat_inj]
    rfl
  have hnone : @UnpackedFloat.unpackMantissa Format.binary64 b = 0#_ ↔
      x.toBits.toNat % 2 ^ 52 = 0 := by
    rw [← hmantissa, ← BitVec.toNat_inj]
    rfl
  unfold Float.Model.unpack UnpackedFloat.unpack
  dsimp only
  rw [if_neg hones, ofBitVec_unpackSign]
  split at h
  · -- next to zero the leading bit is not there, and the mantissa may be zero
    next hsubnormal =>
    obtain ⟨rfl, rfl, rfl⟩ := Datum.finite.inj h
    rw [if_pos (hzero.mpr hsubnormal)]
    by_cases hm : @UnpackedFloat.unpackMantissa Format.binary64 b = 0#_
    · have hm' : ¬0 < x.toBits.toNat % 2 ^ 52 := Nat.not_lt.mpr (Nat.le_of_eq (hnone.mp hm))
      rw [dif_pos hm, unpacked, dif_neg hm']
      rfl
    · have hm' : 0 < x.toBits.toNat % 2 ^ 52 := Nat.pos_of_ne_zero fun h => hm (hnone.mpr h)
      rw [dif_neg hm]
      refine unpacked_pos hm' _ hmantissa ?_
      rw [hexponent, hsubnormal]
      rfl
  · next hnormal =>
    obtain ⟨rfl, rfl, rfl⟩ := Datum.finite.inj h
    have hm : 0 < 2 ^ 52 + x.toBits.toNat % 2 ^ 52 := by omega
    rw [if_neg fun h => hnormal (hzero.mp h)]
    refine unpacked_pos hm _ ?_ ?_
    · rw [← hmantissa]
      exact toNat_one_append _
    · rw [hexponent, hbias, leastExponent]
      omega

/-! ## Order -/

section Order

variable {negative negative' : Bool} {m m' : Nat} {e e' : Int}

/-- A double with a greater exponent has a greater magnitude. -/
theorem magnitude_lt_of_exponent_lt (h : IsDouble m e) (h' : IsDouble m' e') (hlt : e < e') :
    (m : ℚ) * 2 ^ e < m' * 2 ^ e' := by
  have hmantissa : (m : ℚ) < 2 ^ 53 := mod_cast h.lt
  have hnormal : (2 ^ 52 : ℚ) ≤ m' := by
    have hleast := h.least_le
    have hnat : 2 ^ 52 ≤ m' := h'.normal.resolve_right (by omega)
    exact_mod_cast hnat
  have hunits : 2 * (2 : ℚ) ^ e ≤ 2 ^ e' := by
    rw [mul_comm, ← zpow_add_one₀ (by norm_num)]
    exact zpow_le_zpow_right₀ (by norm_num) hlt
  calc (m : ℚ) * 2 ^ e < 2 ^ 53 * 2 ^ e := mul_lt_mul_of_pos_right hmantissa (by positivity)
    _ = 2 ^ 52 * (2 * 2 ^ e) := by ring
    _ ≤ 2 ^ 52 * 2 ^ e' := mul_le_mul_of_nonneg_left hunits (by positivity)
    _ ≤ m' * 2 ^ e' := mul_le_mul_of_nonneg_right hnormal (by positivity)

/-- Magnitudes compare by their exponents, and if these are the same by their mantissas. -/
theorem compares_magnitude (h : IsDouble m e) (h' : IsDouble m' e') :
    ((compare e e').then (compare m m')).Compares ((m : ℚ) * 2 ^ e) (m' * 2 ^ e') := by
  obtain hlt | rfl | hlt := Int.lt_trichotomy e e'
  · rw [Int.compare_eq_lt.mpr hlt]
    exact magnitude_lt_of_exponent_lt h h' hlt
  · have hunit : (0 : ℚ) < 2 ^ e := by positivity
    rw [Int.compare_eq_eq.mpr rfl]
    obtain hlt | rfl | hlt := Nat.lt_trichotomy m m'
    · rw [Nat.compare_eq_lt.mpr hlt]
      exact mul_lt_mul_of_pos_right (mod_cast hlt) hunit
    · rw [Nat.compare_eq_eq.mpr rfl]
      rfl
    · rw [Nat.compare_eq_gt.mpr hlt]
      exact mul_lt_mul_of_pos_right (mod_cast hlt) hunit
  · rw [Int.compare_eq_gt.mpr hlt]
    exact magnitude_lt_of_exponent_lt h' h hlt

theorem compares_neg {a b : ℚ} {o : Ordering} (h : o.Compares a b) : o.swap.Compares (-a) (-b) := by
  cases o with
  | lt => exact neg_lt_neg h
  | eq => exact congrArg Neg.neg h
  | gt => exact neg_lt_neg h

/-- What is compared and the values are in the same order. -/
theorem compares_unpacked (h : IsDouble m e) (h' : IsDouble m' e') :
    ∃ o, (unpacked negative m e).compare (unpacked negative' m' e') = some o ∧
      o.Compares (Datum.finite negative m e).value (Datum.finite negative' m' e').value := by
  have hpos : 0 < m → (0 : ℚ) < m * 2 ^ e := fun hm => mul_pos (mod_cast hm) (by positivity)
  have hpos' : 0 < m' → (0 : ℚ) < m' * 2 ^ e' := fun hm => mul_pos (mod_cast hm) (by positivity)
  -- zeros are equal, whatever their signs, and otherwise the signs decide, if they differ
  obtain rfl | hm := Nat.eq_zero_or_pos m
  · obtain rfl | hm' := Nat.eq_zero_or_pos m'
    · exact ⟨.eq, rfl, by simp [Datum.value, Ordering.Compares]⟩
    · have hv' := hpos' hm'
      rw [unpacked, unpacked, dif_neg (Nat.lt_irrefl 0), dif_pos hm']
      cases negative'
      · exact ⟨.lt, rfl, by simpa [Datum.value, Ordering.Compares] using hv'⟩
      · exact ⟨.gt, rfl, by simpa [Datum.value, Ordering.Compares] using hv'⟩
  · have hv := hpos hm
    obtain rfl | hm' := Nat.eq_zero_or_pos m'
    · rw [unpacked, unpacked, dif_neg (Nat.lt_irrefl 0), dif_pos hm]
      cases negative
      · exact ⟨.gt, rfl, by simpa [Datum.value, Ordering.Compares] using hv⟩
      · exact ⟨.lt, rfl, by simpa [Datum.value, Ordering.Compares] using hv⟩
    · have hv' := hpos' hm'
      have hmagnitude := compares_magnitude h h'
      rw [unpacked, unpacked, dif_pos hm, dif_pos hm']
      cases negative <;> cases negative'
      · exact ⟨_, rfl, hmagnitude⟩
      · exact ⟨.gt, rfl, (neg_neg_of_pos hv').trans hv⟩
      · exact ⟨.lt, rfl, (neg_neg_of_pos hv).trans hv'⟩
      · exact ⟨_, rfl, compares_neg hmagnitude⟩

end Order

/-! ## Doubles -/

variable {x y : Float}

theorem compares_exactValue (hx : x.isFinite) (hy : y.isFinite) :
    ∃ o, x.toModel.unpack.compare y.toModel.unpack = some o ∧
      o.Compares (exactValue x) (exactValue y) := by
  obtain ⟨negative, m, e, hxe, h⟩ := exists_ofFloat_of_isFinite hx
  obtain ⟨negative', m', e', hye, h'⟩ := exists_ofFloat_of_isFinite hy
  rw [unpack_eq hx hxe, unpack_eq hy hye, exactValue, exactValue, hxe, hye]
  exact compares_unpacked h h'

theorem float_lt_iff : x < y ↔ x.toModel.unpack.compare y.toModel.unpack = some .lt := by
  show decide _ = true ↔ _
  rw [decide_eq_true_iff]
  exact beq_iff_eq

theorem float_le_iff :
    x ≤ y ↔ (x.toModel.unpack.compare y.toModel.unpack).any Ordering.isLE = true := by
  show decide _ = true ↔ _
  rw [decide_eq_true_iff]
  exact Iff.rfl

/-- A finite double is less than another if and only if its value is. -/
theorem float_lt_iff_exactValue (hx : x.isFinite) (hy : y.isFinite) :
    x < y ↔ exactValue x < exactValue y := by
  obtain ⟨o, ho, hcompares⟩ := compares_exactValue hx hy
  rw [float_lt_iff, ho, Option.some.injEq, hcompares.eq_lt]

/-- A finite double is at most another if and only if its value is. -/
theorem float_le_iff_exactValue (hx : x.isFinite) (hy : y.isFinite) :
    x ≤ y ↔ exactValue x ≤ exactValue y := by
  obtain ⟨o, ho, hcompares⟩ := compares_exactValue hx hy
  rw [float_le_iff, ho, ← hcompares.ne_gt]
  cases o <;> simp

@[simp] theorem exactValue_zero : exactValue 0 = 0 := by
  have hdatum : Datum.ofFloat 0 = .finite false 0 leastExponent := rfl
  rw [exactValue, hdatum]
  exact zero_mul _

theorem exactValue_pos (hx : x.isFinite) (h : 0 < x) : 0 < exactValue x := by
  rw [← exactValue_zero]
  exact (float_lt_iff_exactValue rfl hx).mp h

/-- Finite doubles are in order one way or the other. -/
theorem float_not_lt (hx : x.isFinite) (hy : y.isFinite) : ¬y < x ↔ x ≤ y := by
  rw [float_lt_iff_exactValue hy hx, float_le_iff_exactValue hx hy, not_lt]

end TimedMachine.Number
