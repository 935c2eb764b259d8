import Intcode.Text.CodePoint
import Intcode.Text.Printable

/-!
# Quoted texts

Messages show what a user typed between quotes, with escapes for the quote, the
backslash and everything that is not printable. They are searched word by word.
-/

namespace Intcode.Text

/-- A number in hexadecimal with small letters and the given number of digits. -/
def smallHex : Nat → Nat → Text
  | 0, _ => []
  | k + 1, n =>
    let d := n % 16
    smallHex k (n / 16) ++ [UInt8.ofNat (if d < 10 then 48 + d else 87 + d)]

/-- The letter of a control character that has an escape of its own. -/
def controlLetter? : Nat → Option Char
  | 7 => some 'a'
  | 8 => some 'b'
  | 9 => some 't'
  | 10 => some 'n'
  | 11 => some 'v'
  | 12 => some 'f'
  | 13 => some 'r'
  | _ => none

/-- A code point inside quotes. -/
def escaped (quote : UInt8) (r : Nat) : Text :=
  let backslash := byte '\\'
  if r = quote.toNat || r = backslash.toNat then backslash :: ofCodePoint r
  else if isPrintable r then ofCodePoint r
  else
    match controlLetter? r with
    | some c => [backslash, byte c]
    | none =>
      if r < 0x80 then backslash :: byte 'x' :: smallHex 2 r
      else if r < 0x10000 then backslash :: byte 'u' :: smallHex 4 r
      else backslash :: byte 'U' :: smallHex 8 r

/-- Code points between quotes. -/
def quotedWith (quote : UInt8) (rs : List Nat) : Text :=
  [quote] ++ rs.flatMap (escaped quote) ++ [quote]

/-- A text between double quotes. -/
def quoted (t : Text) : Text := quotedWith (byte '"') t.codePoints

/-- A byte between single quotes, as the character with that number. -/
def quotedByte (c : UInt8) : Text := quotedWith (byte '\'') [c.toNat]

/-- Whether a code point separates words. -/
def isWordBreak (r : Nat) : Bool :=
  (9 ≤ r && r ≤ 13) || r = 0x20 || r = 0x85 || r = 0xA0 || r = 0x1680 ||
    (0x2000 ≤ r && r ≤ 0x200A) || r = 0x2028 || r = 0x2029 || r = 0x202F || r = 0x205F ||
    r = 0x3000

/-- The words of code points, given those of the current word, the latest first. -/
def wordsFrom (word : List Nat) : List Nat → List (List Nat)
  | [] => if word.isEmpty then [] else [word.reverse]
  | r :: rs =>
    if isWordBreak r then
      if word.isEmpty then wordsFrom [] rs else word.reverse :: wordsFrom [] rs
    else
      wordsFrom (r :: word) rs

/-- The words of a text. -/
def words (t : Text) : List Text := (wordsFrom [] t.codePoints).map ofCodePoints

/-- Whether a byte is a quote. -/
def isQuote (c : UInt8) : Bool := c = byte '"' || c = byte '\''

/-- A text without the quotes around it. -/
def unquoted (t : Text) : Text :=
  ((t.dropWhile isQuote).reverse.dropWhile isQuote).reverse

end Intcode.Text
