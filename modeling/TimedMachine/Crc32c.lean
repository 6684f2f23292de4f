/-!
# CRC-32C

The cyclic redundancy check with the Castagnoli polynomial, bits taken from the lowest up, start
value and final inversion all ones. `checksum` gives it as eight hexadecimal digits.
-/

namespace TimedMachine.Crc32c

/-- The Castagnoli polynomial with its bits reversed. -/
def polynomial : UInt32 := 0x82F63B78

/-- Divides one bit out of the register. -/
def shiftBit (r : UInt32) : UInt32 :=
  if r &&& 1 = 1 then (r >>> 1) ^^^ polynomial else r >>> 1

/-- Takes one byte into the register. -/
def takeByte (r : UInt32) (b : UInt8) : UInt32 :=
  Nat.repeat shiftBit 8 (r ^^^ b.toUInt32)

/-- The check value of a row of bytes. -/
def crc (bytes : ByteArray) : UInt32 := ~~~ bytes.foldl takeByte 0xFFFFFFFF

/-- A word as eight hexadecimal digits, small letters. -/
def hex (w : UInt32) : String :=
  let digits := Nat.toDigits 16 w.toNat
  String.ofList (List.replicate (8 - digits.length) '0' ++ digits)

/-- The check value of a text in UTF-8, as eight hexadecimal digits. -/
def checksum (s : String) : String := hex (crc s.toUTF8)

end TimedMachine.Crc32c
