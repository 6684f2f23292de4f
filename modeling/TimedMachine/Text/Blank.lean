/-!
# Blanks

`isBlank` is the Unicode property White_Space, and `trim` takes blanks off both ends of a text.
`lowerAscii` maps the ASCII capitals and leaves every other character alone.
-/

namespace TimedMachine

/-- The characters with the property White_Space. -/
def isBlank (c : Char) : Bool :=
  let n := c.toNat
  (0x9 ≤ n && n ≤ 0xd) || n == 0x20 || n == 0x85 || n == 0xa0 || n == 0x1680 ||
  (0x2000 ≤ n && n ≤ 0x200a) || n == 0x2028 || n == 0x2029 || n == 0x202f || n == 0x205f ||
  n == 0x3000

/-- A text without the blanks at its two ends. -/
def trim (cs : List Char) : List Char :=
  ((cs.dropWhile isBlank).reverse.dropWhile isBlank).reverse

/-- A text with its ASCII capitals made small. -/
def lowerAscii (cs : List Char) : List Char := cs.map Char.toLower

end TimedMachine
