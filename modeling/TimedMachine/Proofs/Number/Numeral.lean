import TimedMachine.Proofs.Number.Shortest
import TimedMachine.Proofs.Read.Literal

/-!
# Numerals tell doubles apart

A finite double is written as a number literal that a reader which rounds to the nearest double
reads back as that double (`exists_writes_chars`), so no two finite doubles are written alike
(`chars_inj`).
-/

namespace TimedMachine.Number

open Grammar

/-! ## Digits -/

/-- The number that two rows of digits write one after the other. -/
theorem numberOfDigits_append (ds ds' : List Char) :
    numberOfDigits (ds ++ ds') = 10 ^ ds'.length * numberOfDigits ds + numberOfDigits ds' := by
  show Nat.ofDigitChars 10 (ds ++ ds') 0 = _
  rw [Nat.ofDigitChars_append, Nat.ofDigitChars_eq_ofDigitChars_zero]
  rfl

@[simp] theorem numberOfDigits_replicate_zero (n : Nat) :
    numberOfDigits (List.replicate n '0') = 0 := by
  show Nat.ofDigitChars 10 _ 0 = 0
  rw [Nat.ofDigitChars_replicate_zero, Nat.mul_zero]

@[simp] theorem numberOfDigits_digitText (n : Nat) : numberOfDigits (digitText n) = n :=
  Nat.ofDigitChars_ten_toDigits

@[simp] theorem numberOfDigits_zero : numberOfDigits ['0'] = 0 := rfl

/-- The text of a number is digits. -/
theorem isDigits_digitText (n : Nat) : IsDigits (digitText n) :=
  ⟨Nat.toDigits_ne_nil, fun _ hc => Nat.isDigit_of_mem_toDigits (by decide) (by decide) hc⟩

/-- Zeros are digits. -/
theorem isDigit_of_mem_replicate {n : Nat} : ∀ c ∈ List.replicate n '0', c.isDigit := by
  intro c hc
  rw [List.eq_of_mem_replicate hc]
  rfl

/-- Only zero is written with a zero first. -/
theorem eq_zero_of_head_digitText {n : Nat} (h : (digitText n).head? = some '0') : n = 0 := by
  induction n using Nat.strong_induction_on with
  | _ n ih =>
    rw [digitText, Nat.toDigits_eq_if (by decide)] at h
    split at h
    · simpa using h
    · next hn =>
      have hdiv : n / 10 = 0 := by
        refine ih (n / 10) (by omega) ?_
        rwa [List.head?_append_of_ne_nil _ Nat.toDigits_ne_nil] at h
      omega

/-! ## The value of a literal -/

/-- The exponent that a literal gives. -/
def Literal.scale (l : Literal) : Int :=
  match l.exponent with
  | none => 0
  | some (negative, ds) => if negative then -numberOfDigits ds else numberOfDigits ds

/-- The number that a literal writes, without its sign. -/
def Literal.value (l : Literal) : ℚ :=
  numberOfDigits (l.whole ++ l.fraction.getD []) *
    10 ^ (l.scale - (l.fraction.getD []).length)

/-- Whether a text is a literal of a sign and a number. -/
def Writes (cs : List Char) (negative : Bool) (q : ℚ) : Prop :=
  ∃ l, IsNumber cs l ∧ l.negative = negative ∧ l.value = q

section Written

variable {ds sign : List Char} {negative : Bool}

/-- The parts of a literal make up a text that writes its value. -/
theorem writes_of_parts {cs whole f e : List Char} {fraction : Option (List Char)}
    {exponent : Option (Bool × List Char)} {q : ℚ} (hsign : IsSign sign negative)
    (hwhole : IsWhole whole) (hf : IsFraction f fraction) (he : IsExponent e exponent)
    (hcs : cs = sign ++ whole ++ f ++ e)
    (hq : (Literal.mk negative whole fraction exponent).value = q) : Writes cs negative q :=
  ⟨⟨negative, whole, fraction, exponent⟩, ⟨⟨sign, f, e, hcs, hsign, hf, he⟩, hwhole⟩, rfl, hq⟩

/-- A whole number with zeros at its end, and perhaps a fraction of one zero. -/
theorem writes_zeros (st : Style) (hsign : IsSign sign negative) (hds : IsDigits ds) (n : Nat)
    (hzero : ds.head? = some '0' → ds = ['0'] ∧ n = 0) :
    Writes (sign ++ (ds ++ List.replicate n '0' ++ if st.wholeFraction then ['.', '0'] else []))
      negative (numberOfDigits ds * 10 ^ n) := by
  have hwhole : IsWhole (ds ++ List.replicate n '0') := by
    refine ⟨⟨List.append_ne_nil_of_left_ne_nil hds.1 _, fun c hc => ?_⟩, fun h => ?_⟩
    · exact (List.mem_append.1 hc).elim (hds.2 c) (isDigit_of_mem_replicate c)
    · rw [List.head?_append_of_ne_nil _ hds.1] at h
      obtain ⟨rfl, rfl⟩ := hzero h
      rfl
  have hnumber : numberOfDigits (ds ++ List.replicate n '0') = numberOfDigits ds * 10 ^ n := by
    simp [numberOfDigits_append, mul_comm]
  cases st.wholeFraction with
  | true =>
    have hfraction : IsFraction ['.', '0'] (some ['0']) := .some ⟨by simp, by simp⟩
    refine writes_of_parts hsign hwhole hfraction .none (by simp) ?_
    rw [Literal.value, Option.getD_some, numberOfDigits_append, hnumber, numberOfDigits_zero,
      Literal.scale]
    dsimp only [List.length_singleton]
    push_cast
    rw [zpow_neg_one]
    ring
  | false =>
    refine writes_of_parts hsign hwhole .none .none (by simp) ?_
    simp [Literal.value, Literal.scale, hnumber]

/-- A number with a point among its digits. -/
theorem writes_point (hsign : IsSign sign negative) (hds : IsDigits ds)
    (hzero : ds.head? ≠ some '0') {n : Nat} (hn : 0 < n) (hlt : n < ds.length) :
    Writes (sign ++ (ds.take n ++ '.' :: ds.drop n)) negative
      (numberOfDigits ds * 10 ^ ((n : Int) - ds.length)) := by
  have hne : ds.take n ≠ [] := by
    simpa [List.take_eq_nil_iff, hds.1] using hn.ne'
  have hwhole : IsWhole (ds.take n) := by
    refine ⟨⟨hne, fun c hc => hds.2 c (List.mem_of_mem_take hc)⟩, fun h => absurd ?_ hzero⟩
    rwa [← List.take_append_drop n ds, List.head?_append_of_ne_nil _ hne]
  have hfraction : IsFraction ('.' :: ds.drop n) (some (ds.drop n)) :=
    .some ⟨by simp [hlt], fun c hc => hds.2 c (List.mem_of_mem_drop hc)⟩
  refine writes_of_parts hsign hwhole hfraction .none (by simp) ?_
  rw [Literal.value, Option.getD_some, List.take_append_drop, Literal.scale, List.length_drop]
  dsimp only
  congr 2
  omega

/-- A number below one. -/
theorem writes_zeros_first (hsign : IsSign sign negative) (hds : IsDigits ds) (n : Nat) :
    Writes (sign ++ ('0' :: '.' :: List.replicate n '0' ++ ds)) negative
      (numberOfDigits ds * 10 ^ (-(n + ds.length : Int))) := by
  have hfraction : IsFraction ('.' :: (List.replicate n '0' ++ ds))
      (some (List.replicate n '0' ++ ds)) := by
    refine .some ⟨List.append_ne_nil_of_right_ne_nil _ hds.1, fun c hc => ?_⟩
    exact (List.mem_append.1 hc).elim (isDigit_of_mem_replicate c) (hds.2 c)
  have hwhole : IsWhole ['0'] := ⟨⟨by simp, by simp⟩, fun _ => rfl⟩
  have hnumber : numberOfDigits (['0'] ++ (List.replicate n '0' ++ ds)) = numberOfDigits ds := by
    simp only [numberOfDigits_append, numberOfDigits_replicate_zero, numberOfDigits_zero,
      Nat.mul_zero, Nat.zero_add]
  refine writes_of_parts hsign hwhole hfraction .none (by simp) ?_
  rw [Literal.value, Option.getD_some, hnumber, Literal.scale, List.length_append,
    List.length_replicate]
  dsimp only
  rw [zero_sub, Nat.cast_add]

/-- Digits whose point is moved are a literal of the number. -/
theorem writes_writeOut (st : Style) (exponent : Int) (hsign : IsSign sign negative)
    (hds : IsDigits ds) (hzero : ds.head? = some '0' → ds = ['0'] ∧ exponent = 0) :
    Writes (sign ++ st.writeOut ds exponent) negative (numberOfDigits ds * 10 ^ exponent) := by
  unfold Style.writeOut
  dsimp only
  split
  · next hexponent =>
    have h := writes_zeros st hsign hds exponent.toNat
      fun h => ⟨(hzero h).1, by rw [(hzero h).2]; rfl⟩
    rwa [← zpow_natCast, Int.toNat_of_nonneg hexponent] at h
  · next hexponent =>
    split
    · next hpoint =>
      have hhead : ds.head? ≠ some '0' := fun h => hexponent (hzero h).2.ge
      have h := writes_point (n := (ds.length + exponent).toNat) hsign hds hhead (by omega)
        (by omega)
      rwa [Int.toNat_of_nonneg hpoint.le, add_sub_cancel_left] at h
    · next hpoint =>
      have h := writes_zeros_first hsign hds (-(ds.length + exponent)).toNat
      rwa [Int.toNat_of_nonneg (by omega), show -(-(ds.length + exponent) + (ds.length : Int)) =
        exponent by omega] at h

/-- A signed exponent after its letter. -/
theorem isExponent_scientific (leading : Int) :
    IsExponent ('e' :: (if 0 ≤ leading then '+' else '-') :: digitText leading.natAbs)
      (some (decide (leading < 0), digitText leading.natAbs)) := by
  by_cases h : 0 ≤ leading
  · rw [if_pos h, decide_eq_false (by omega)]
    exact .plus (.inl rfl) (isDigits_digitText _)
  · rw [if_neg h, decide_eq_true (by omega)]
    exact .minus (.inl rfl) (isDigits_digitText _)

/-- A digit alone is the whole part of a number. -/
theorem isWhole_singleton {c : Char} (hc : c.isDigit) : IsWhole [c] :=
  ⟨⟨by simp, by simpa using hc⟩, fun h => by simpa using h⟩

/-- Digits with an exponent are a literal of the number. -/
theorem writes_writeScientific (hsign : IsSign sign negative) (hds : IsDigits ds) (leading : Int) :
    Writes (sign ++ writeScientific ds leading) negative
      (numberOfDigits ds * 10 ^ (leading + 1 - ds.length)) := by
  have hscale (whole : List Char) (fraction : Option (List Char)) :
      (Literal.mk negative whole fraction
        (some (decide (leading < 0), digitText leading.natAbs))).scale = leading := by
    simp only [Literal.scale, numberOfDigits_digitText, decide_eq_true_eq]
    split <;> omega
  obtain ⟨d, ds, rfl, hd⟩ := hds.exists_cons
  cases ds with
  | nil =>
    refine writes_of_parts hsign (isWhole_singleton hd) .none (isExponent_scientific leading)
      (by simp [writeScientific]) ?_
    rw [Literal.value, hscale]
    simp
  | cons d' ds =>
    have hfraction : IsFraction ('.' :: d' :: ds) (some (d' :: ds)) :=
      .some ⟨by simp, fun c hc => hds.2 c (List.mem_cons_of_mem _ hc)⟩
    refine writes_of_parts hsign (isWhole_singleton hd) hfraction (isExponent_scientific leading)
      (by simp [writeScientific]) ?_
    rw [Literal.value, hscale]
    simp

/-- A decimal number other than zero is written as a literal of its value. -/
theorem writes_decimal (st : Style) (hsign : IsSign sign negative) {d : Decimal}
    (hd : d.digits ≠ 0) : Writes (sign ++ st.decimal d) negative d.value := by
  have hds := isDigits_digitText d.digits
  have hout : Writes (sign ++ st.writeOut (digitText d.digits) d.exponent) negative d.value := by
    have hzero : (digitText d.digits).head? = some '0' →
        digitText d.digits = ['0'] ∧ d.exponent = 0 :=
      fun h => absurd (eq_zero_of_head_digitText h) hd
    have h := writes_writeOut st d.exponent hsign hds hzero
    rwa [numberOfDigits_digitText] at h
  unfold Style.decimal
  dsimp only
  split
  · exact hout
  · split
    · exact hout
    · have h := writes_writeScientific hsign hds ((digitText d.digits).length + d.exponent - 1)
      rwa [numberOfDigits_digitText, sub_add_cancel, add_sub_cancel_left] at h

end Written

/-! ## The numeral of a double -/

section Numerals

variable {x y : Float}

/-- A finite double is written as a number literal with its sign. Its size is zero as the double's
is, or it is read back as the double. -/
theorem exists_writes_chars (st : Style) (hx : x.isFinite) :
    ∃ negative m e q, Datum.ofFloat x = .finite negative m e ∧ IsDouble m e ∧
      Writes (st.chars x) negative q ∧ ((m = 0 ∧ q = 0) ∨ (0 < m ∧ Rounds m e q)) := by
  obtain ⟨negative, m, e, hdatum, hdouble⟩ := exists_ofFloat_of_isFinite hx
  have hsign : IsSign (if negative then ['-'] else []) negative := by
    cases negative
    · exact .none
    · exact .minus
  rw [Style.chars, hdatum]
  dsimp only
  by_cases hm : m = 0
  · refine ⟨negative, m, e, 0, rfl, hdouble, ?_, .inl ⟨hm, rfl⟩⟩
    have hzero : IsDigits ['0'] := ⟨by simp, by simp⟩
    have h := writes_writeOut st 0 hsign hzero fun _ => ⟨rfl, rfl⟩
    have hvalue : (numberOfDigits ['0'] : ℚ) * 10 ^ (0 : Int) = 0 := by simp
    rwa [if_pos hm, ← hvalue]
  · have hpos : 0 < m := Nat.pos_of_ne_zero hm
    have hrounds : Rounds m e (shortest st.tie m e).value := rounds_shortest st.tie hpos
    have hdigits : (shortest st.tie m e).digits ≠ 0 := fun h => by
      have hvalue := hrounds.pos hpos
      simp [Decimal.value, h] at hvalue
    refine ⟨negative, m, e, _, rfl, hdouble, ?_, .inr ⟨hpos, hrounds⟩⟩
    rw [if_neg hm]
    exact writes_decimal st hsign hdigits

/-- What a text writes is told by the text. -/
theorem Writes.unique {cs : List Char} {negative negative' : Bool} {q q' : ℚ}
    (h : Writes cs negative q) (h' : Writes cs negative' q') : negative = negative' ∧ q = q' := by
  obtain ⟨l, hl, rfl, rfl⟩ := h
  obtain ⟨l', hl', rfl, rfl⟩ := h'
  cases (ofChars?_of_isNumber hl).symm.trans (ofChars?_of_isNumber hl')
  exact ⟨rfl, rfl⟩

/-- No two finite doubles are written alike. -/
theorem chars_inj (st : Style) (hx : x.isFinite) (hy : y.isFinite) (h : st.chars x = st.chars y) :
    x = y := by
  obtain ⟨negative, m, e, q, hdatum, hdouble, hwrites, hsize⟩ := exists_writes_chars st hx
  obtain ⟨negative', m', e', q', hdatum', hdouble', hwrites', hsize'⟩ := exists_writes_chars st hy
  rw [h] at hwrites
  obtain ⟨rfl, rfl⟩ := hwrites.unique hwrites'
  have hme : m = m' ∧ e = e' := by
    obtain ⟨rfl, rfl⟩ | ⟨hpos, hrounds⟩ := hsize <;>
      obtain ⟨rfl, hq⟩ | ⟨hpos', hrounds'⟩ := hsize'
    · -- zero has the least exponent
      exact ⟨rfl, (hdouble.normal.resolve_left (by decide)).trans
        (hdouble'.normal.resolve_left (by decide)).symm⟩
    · exact absurd (hrounds'.pos hpos') (lt_irrefl 0)
    · exact absurd (hq ▸ hrounds.pos hpos) (lt_irrefl 0)
    · exact eq_of_rounds hdouble hdouble' hrounds hrounds'
  obtain ⟨rfl, rfl⟩ := hme
  exact eq_of_ofFloat_eq hx hy (hdatum.trans hdatum'.symm)

end Numerals

end TimedMachine.Number
