import TimedMachine.Number.Binary64

/-!
# The fewest digits that read back

A reader that rounds to the nearest double maps an interval of reals to each double; the ends
belong to it iff the mantissa is even. `shortest` looks for a decimal number in that interval on
coarser and then finer grids `digit · 10 ^ k`, so it finds one with the fewest digits, and on one
grid it takes the number nearest to the double. All arithmetic is exact.
-/

namespace TimedMachine.Number

/-- The number `digits · 10 ^ exponent`. -/
structure Decimal where
  digits : Nat
  exponent : Int
deriving DecidableEq, Repr

/-- Takes trailing zeros off the digits, `fuel` of them at most. -/
def Decimal.strip : Nat → Decimal → Decimal
  | 0, d => d
  | fuel + 1, d =>
    if d.digits ≠ 0 ∧ d.digits % 10 = 0 then strip fuel ⟨d.digits / 10, d.exponent + 1⟩ else d

/-- The double `mantissa · 2 ^ exponent` and a grid of decimal numbers, brought to one unit:
`unit` is the grid's step, `value` the double, `low` and `high` the ends of its interval. -/
structure Grid where
  unit : Nat
  value : Nat
  low : Nat
  high : Nat
  closed : Bool

/-- The grid with step `10 ^ k`. The interval reaches half a step of the doubles to each side, and
a quarter below a power of two, where the doubles get denser. -/
def Grid.make (mantissa : Nat) (exponent k : Int) : Grid :=
  let binary := exponent - 2
  let scale := Nat.pow 2 binary.toNat * Nat.pow 10 (-k).toNat
  let below := if mantissa = Nat.pow 2 52 ∧ leastExponent < exponent then 1 else 2
  { unit := Nat.pow 2 (-binary).toNat * Nat.pow 10 k.toNat
    value := 4 * mantissa * scale
    low := (4 * mantissa - below) * scale
    high := (4 * mantissa + 2) * scale
    closed := mantissa % 2 = 0 }

/-- Whether `d` grid steps lie in the interval. -/
def Grid.holds (g : Grid) (d : Nat) : Bool :=
  if g.closed then g.low ≤ d * g.unit && d * g.unit ≤ g.high
  else g.low < d * g.unit && d * g.unit < g.high

/-- Which of its two neighbours on a grid a number in the middle goes to. -/
inductive Tie where
  | even
  | up
deriving DecidableEq, Repr

/-- Of the two grid points around the double, the one in the interval; of two, the nearer, and in
the middle the one that `tie` prefers. -/
def Grid.nearest? (tie : Tie) (g : Grid) : Option Nat :=
  let d := g.value / g.unit
  match g.holds d, g.holds (d + 1) with
  | false, false => none
  | true, false => some d
  | false, true => some (d + 1)
  | true, true =>
    match compare (2 * g.value) ((2 * d + 1) * g.unit) with
    | .lt => some d
    | .gt => some (d + 1)
    | .eq => some (if tie = .even ∧ d % 2 = 0 then d else d + 1)

/-- The double itself, written out in full. -/
def exactDecimal (mantissa : Nat) (exponent : Int) : Decimal :=
  ⟨mantissa * Nat.pow 2 exponent.toNat * Nat.pow 5 (-exponent).toNat, min exponent 0⟩

/-- A power of ten that is above `mantissa · 2 ^ exponent`; `30103 / 100000` is just above the
decimal logarithm of two. -/
def powerAbove (mantissa : Nat) (exponent : Int) : Int :=
  (mantissa.log2 + 1 + exponent) * 30103 / 100000 + 1

/-- The decimal number with the fewest digits that reads back as the double
`mantissa · 2 ^ exponent`, and of those the nearest to it. -/
def shortest (tie : Tie) (mantissa : Nat) (exponent : Int) : Decimal :=
  let k := powerAbove mantissa exponent
  let found := (List.range 24).findSome? fun (i : Nat) =>
    Grid.make mantissa exponent (k - i) |>.nearest? tie |>.map fun d => Decimal.mk d (k - i)
  (found.getD (exactDecimal mantissa exponent)).strip 24

end TimedMachine.Number
