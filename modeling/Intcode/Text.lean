/-!
# Byte texts

Programs, file contents, file names and messages are sequences of bytes. This
file fixes that type, names the bytes with a role of their own, and writes
integers in decimal.
-/

namespace Intcode

/-- A sequence of bytes. -/
abbrev Text := List UInt8

namespace Text

/-- The bytes of a string of ASCII characters. -/
def ofAscii (s : String) : Text := s.toList.map fun c => UInt8.ofNat c.toNat

/-- The byte of an ASCII character. -/
def byte (c : Char) : UInt8 := UInt8.ofNat c.toNat

/-- The byte that ends a line. -/
def lineFeed : UInt8 := 10

/-- The byte that reads as a line feed. -/
def carriageReturn : UInt8 := 13

/-- The byte of a space. -/
def space : UInt8 := 32

/-- A carriage return reads as a line feed, any other byte as itself. -/
def foldReturn (c : UInt8) : UInt8 := if c = carriageReturn then lineFeed else c

/-- Whether a byte is a decimal digit. -/
def isDigit (c : UInt8) : Bool := 48 ≤ c && c ≤ 57

/-- The byte of the digit with value `d`, with capital letters from ten on. -/
def digit (d : Nat) : UInt8 := if d < 10 then UInt8.ofNat (48 + d) else UInt8.ofNat (55 + d)

/-- A natural number in decimal, without leading zeros. -/
def ofNat (n : Nat) : Text := (Nat.toDigits 10 n).map byte

/-- An integer in decimal: a minus sign if it is negative, then its absolute value. -/
def ofInt : Int → Text
  | .ofNat n => ofNat n
  | .negSucc n => byte '-' :: ofNat (n + 1)

end Text

end Intcode
