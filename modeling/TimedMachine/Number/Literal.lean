/-!
# Number literals

A literal is `-`, digits without a needless leading zero, a fraction and an exponent, of which the
sign, the fraction and the exponent may be missing. `Literal.ofChars?` accepts exactly these.

There are two conversions. `Literal.toFloat?` is the one of documents: it keeps as many digits as
fit an unsigned 64-bit word and scales once by a power of ten, so its result is not always the
nearest double, and it refuses literals that are too large. `Literal.nearest` rounds the exact
value of the literal.
-/

namespace TimedMachine.Number

/-- The parts of a literal; fraction and exponent hold at least one digit where they are given. -/
structure Literal where
  negative : Bool
  whole : List Char
  fraction : Option (List Char)
  /-- Whether the exponent is below zero, and its digits. -/
  exponent : Option (Bool × List Char)
deriving DecidableEq, Repr

/-- The digits of an exponent, after its letter. -/
def exponentOfChars? (cs : List Char) : Option (Bool × List Char) :=
  let (negative, digits) := match cs with
    | '-' :: r => (true, r)
    | '+' :: r => (false, r)
    | r => (false, r)
  if digits ≠ [] ∧ digits.all Char.isDigit then some (negative, digits) else none

/-- Reads a whole list of characters as a literal. -/
def Literal.ofChars? (cs : List Char) : Option Literal :=
  let (negative, cs) := match cs with
    | '-' :: r => (true, r)
    | r => (false, r)
  let (whole, cs) := cs.span Char.isDigit
  if whole = [] ∨ (whole.head? = some '0' ∧ whole.length ≠ 1) then none
  else
    let (fraction, cs) := match cs with
      | '.' :: r => let (ds, r) := r.span Char.isDigit; (some ds, r)
      | r => (none, r)
    if fraction = some [] then none
    else match cs with
      | [] => some ⟨negative, whole, fraction, none⟩
      | c :: r =>
        if c = 'e' ∨ c = 'E' then
          (exponentOfChars? r).map fun e => ⟨negative, whole, fraction, some e⟩
        else none

/-- The value of a decimal digit. -/
def digitValue (c : Char) : Nat := c.toNat - '0'.toNat

/-- The number that a row of digits writes. -/
def numberOfDigits (ds : List Char) : Nat := ds.foldl (fun n c => 10 * n + digitValue c) 0

/-- A significand below `2 ^ 64` and the power of ten that it is to be scaled by. -/
structure Significand where
  value : Nat
  scale : Int
deriving DecidableEq, Repr

/-- Appends one digit, if the result still fits the word. -/
def Significand.append? (s : Significand) (c : Char) (scale : Int) : Option Significand :=
  let value := 10 * s.value + digitValue c
  if value < UInt64.size then some ⟨value, s.scale + scale⟩ else none

/-- Takes up the whole part. The first digit that does not fit and all later ones are dropped, and
each of them counts as a factor of ten. -/
def Significand.takeWhole (s : Significand) : List Char → Significand
  | [] => s
  | c :: cs =>
    match s.append? c 0 with
    | some t => t.takeWhole cs
    | none => ⟨s.value, s.scale + (c :: cs).length⟩

/-- Takes up the fraction. The first digit that does not fit and all later ones are ignored. -/
def Significand.takeFraction (s : Significand) : List Char → Significand
  | [] => s
  | c :: cs =>
    match s.append? c (-1) with
    | some t => t.takeFraction cs
    | none => s

/-- The largest signed 32-bit number. -/
def maxInt32 : Int := 2147483647

/-- Brings a sum of exponents into the range of signed 32-bit numbers. -/
def clampInt32 (e : Int) : Int := max (-maxInt32 - 1) (min maxInt32 e)

/-- The double nearest to `10 ^ k`. -/
def powerOfTen (k : Nat) : Float := Float.ofScientific 1 false k

/-- Divides by `10 ^ k`, in steps of at most `10 ^ 308`, until nothing is left. -/
def divideByPower (x : Float) (k : Nat) : Float :=
  if k ≤ 308 then x / powerOfTen k
  else if x == 0 then x
  else divideByPower (x / powerOfTen 308) (k - 308)
termination_by k

/-- Scales by `10 ^ e`; fails where that is infinite. -/
def scaleByPower? (x : Float) (e : Int) : Option Float :=
  if e < 0 then some (divideByPower x e.natAbs)
  else if e ≤ 308 then
    let y := x * powerOfTen e.toNat
    if y.isInf then none else some y
  else if x == 0 then some x
  else none

/-- The size of a literal's number, without its sign. -/
def Literal.magnitude? (l : Literal) : Option Float :=
  let whole := (Significand.mk 0 0).takeWhole l.whole
  let s := whole.takeFraction (l.fraction.getD [])
  let x := (UInt64.ofNat s.value).toFloat
  match l.exponent with
  | none =>
    if l.fraction = none ∧ s.scale = 0 then some x else scaleByPower? x s.scale
  | some (negative, digits) =>
    let e : Int := numberOfDigits digits
    if maxInt32 < e then
      if s.value ≠ 0 ∧ ¬negative then none else some 0
    else scaleByPower? x (clampInt32 (s.scale + if negative then -e else e))

/-- The number that a literal in a document stands for; `none` if it is too large. -/
def Literal.toFloat? (l : Literal) : Option Float :=
  l.magnitude?.map fun x => if l.negative then -x else x

/-- The double nearest to what a literal writes. -/
def Literal.nearest (l : Literal) : Float :=
  let fraction := l.fraction.getD []
  let digits := numberOfDigits (l.whole ++ fraction)
  let e : Int := match l.exponent with
    | none => 0
    | some (negative, ds) => if negative then -(numberOfDigits ds : Int) else numberOfDigits ds
  let e := e - fraction.length
  let x := Float.ofScientific digits (e < 0) e.natAbs
  if l.negative then -x else x

/-- Reads a double as `Style.text` writes it: a literal, an infinity, or `NaN`. -/
def floatOfString? (s : String) : Option Float :=
  if s = "NaN" then some (0 / 0)
  else if s = "inf" then some (1 / 0)
  else if s = "-inf" then some (-1 / 0)
  else (Literal.ofChars? s.toList).map Literal.nearest

end TimedMachine.Number
