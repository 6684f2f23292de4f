import TimedMachine.Number.Shortest

/-!
# How numbers are written

A `Style` is the set of choices that turns the shortest digits of a double into text. There are
two: `Style.document` for numbers in documents and answers, which has an exponent for very large
and very small numbers, and `Style.message` for numbers inside error messages, which has none.
-/

namespace TimedMachine.Number

/-- The choices of a way to write numbers. -/
structure Style where
  /-- The exponents of the first digit for which the number is written without an exponent;
  `none` means all of them. -/
  positional : Option (Int × Int)
  /-- Whether a whole number gets the fraction `.0`. -/
  wholeFraction : Bool
  /-- Which digits a number in the middle of two candidates gets. -/
  tie : Tie
deriving DecidableEq, Repr

/-- Numbers from 0.00001 up to below 10^16 are written out, others with a signed exponent; a whole
number ends in `.0`. -/
def Style.document : Style := ⟨some (-5, 15), true, .even⟩

/-- Every number is written out, a whole number without a point. -/
def Style.message : Style := ⟨none, false, .up⟩

/-- The text of a whole number of digits. -/
def digitText (n : Nat) : List Char := Nat.toDigits 10 n

/-- The digits `ds`, their point moved by `exponent` places to the right. -/
def Style.writeOut (st : Style) (ds : List Char) (exponent : Int) : List Char :=
  let point := ds.length + exponent
  if 0 ≤ exponent then
    ds ++ List.replicate exponent.toNat '0' ++ if st.wholeFraction then ['.', '0'] else []
  else if 0 < point then ds.take point.toNat ++ '.' :: ds.drop point.toNat
  else '0' :: '.' :: List.replicate (-point).toNat '0' ++ ds

/-- The digits `ds` with a point after the first and an exponent that is always signed. -/
def writeScientific (ds : List Char) (leading : Int) : List Char :=
  let mantissa := match ds with
    | d :: e :: es => d :: '.' :: e :: es
    | _ => ds
  mantissa ++ 'e' :: (if 0 ≤ leading then '+' else '-') :: digitText leading.natAbs

/-- The text of a decimal number. -/
def Style.decimal (st : Style) (d : Decimal) : List Char :=
  let ds := digitText d.digits
  let leading := ds.length + d.exponent - 1
  match st.positional with
  | none => st.writeOut ds d.exponent
  | some (least, greatest) =>
    if least ≤ leading ∧ leading ≤ greatest then st.writeOut ds d.exponent
    else writeScientific ds leading

/-- The text of a double. Zero keeps its sign; what is not a number has none. -/
def Style.chars (st : Style) (x : Float) : List Char :=
  match Datum.ofFloat x with
  | .nan => ['N', 'a', 'N']
  | .infinite negative => (if negative then ['-'] else []) ++ ['i', 'n', 'f']
  | .finite negative mantissa exponent =>
    (if negative then ['-'] else []) ++
      if mantissa = 0 then st.writeOut ['0'] 0 else st.decimal (shortest st.tie mantissa exponent)

/-- The text of a double. -/
def Style.text (st : Style) (x : Float) : String := String.ofList (st.chars x)

end TimedMachine.Number
