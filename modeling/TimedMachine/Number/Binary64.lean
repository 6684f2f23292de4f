/-!
# The exact value of a double

A finite double is `± mantissa · 2 ^ exponent` with a mantissa below `2 ^ 53`. `Datum.ofFloat`
takes the value apart by its bit fields, so that all later work on it is exact arithmetic on
natural numbers.
-/

namespace TimedMachine.Number

/-- What a double stands for. -/
inductive Datum where
  | nan
  | infinite (negative : Bool)
  /-- The value is `mantissa · 2 ^ exponent`, below zero if `negative`. -/
  | finite (negative : Bool) (mantissa : Nat) (exponent : Int)
deriving DecidableEq, Repr

/-- The exponent of the smallest positive double. -/
def leastExponent : Int := -1074

/-- Reads the bit fields of a double: one bit of sign, eleven of exponent, the rest mantissa. -/
def Datum.ofFloat (x : Float) : Datum :=
  let bits := x.toBits.toNat
  let negative : Bool := Nat.pow 2 63 ≤ bits
  let exponent : Nat := bits / Nat.pow 2 52 % Nat.pow 2 11
  let fraction : Nat := bits % Nat.pow 2 52
  if exponent = Nat.pow 2 11 - 1 then
    if fraction = 0 then .infinite negative else .nan
  else if exponent = 0 then .finite negative fraction leastExponent
  else .finite negative (Nat.pow 2 52 + fraction) (leastExponent - 1 + exponent)

end TimedMachine.Number
