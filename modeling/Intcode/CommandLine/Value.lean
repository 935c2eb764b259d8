import Intcode.Text

/-!
# Values of options

How the values of options and of environment variables are read.
-/

namespace Intcode.CommandLine

/-- Reads a truth value. -/
def parseBool (t : Text) : Option Bool :=
  if ["1", "t", "T", "TRUE", "true", "True"].any fun s => Text.ofAscii s = t then some true
  else if ["0", "f", "F", "FALSE", "false", "False"].any fun s => Text.ofAscii s = t then some false
  else none

/-- The value of a digit, a letter counting from ten on in either case. -/
def digitValue? (c : UInt8) : Option Nat :=
  if Text.isDigit c then some (c.toNat - 48)
  else if 97 ≤ c && c ≤ 122 then some (c.toNat - 87)
  else if 65 ≤ c && c ≤ 90 then some (c.toNat - 55)
  else none

/-- The value of digits in a base after a number. Underscores are passed over. -/
def digitsValue? (base : Nat) : Nat → Text → Option Nat
  | n, [] => some n
  | n, c :: t =>
    if c = Text.byte '_' then digitsValue? base n t
    else
      match digitValue? c with
      | none => none
      | some d => if d < base then digitsValue? base (n * base + d) t else none

/-- The base that a number is written in, and its digits: a prefix gives the base, and a
leading zero alone stands for octal. -/
def baseOf (t : Text) : Nat × Text :=
  match t with
  | [] => (10, t)
  | c :: rest =>
    if c ≠ Text.byte '0' then (10, t)
    else
      match rest with
      | x :: y :: ds =>
        if x = Text.byte 'b' || x = Text.byte 'B' then (2, y :: ds)
        else if x = Text.byte 'o' || x = Text.byte 'O' then (8, y :: ds)
        else if x = Text.byte 'x' || x = Text.byte 'X' then (16, y :: ds)
        else (8, rest)
      | _ => (8, rest)

/-- Whether every underscore stands between digits. The flag tells whether a digit, or the
prefix of a base, comes right before the text. -/
def underscoresSeparate : Bool → Text → Bool
  | afterDigit, [] => afterDigit
  | afterDigit, c :: t =>
    if c = Text.byte '_' then afterDigit && underscoresSeparate false t
    else underscoresSeparate true t

/-- The sign of a number, and what follows it. -/
def signOf (t : Text) : Bool × Text :=
  match t with
  | c :: rest =>
    if c = Text.byte '-' then (true, rest)
    else if c = Text.byte '+' then (false, rest)
    else (false, t)
  | [] => (false, [])

/-- The integer with a sign and an absolute value, if sixty-four bits hold it. -/
def withSign? (negative : Bool) (n : Nat) : Option Int :=
  if negative then
    if n ≤ 0x8000000000000000 then some (-n) else none
  else
    if n < 0x8000000000000000 then some n else none

/-- Reads an integer: an optional sign, an optional prefix for the base, and digits that
underscores may separate. -/
def parseInteger (t : Text) : Option Int :=
  let (negative, t) := signOf t
  let (base, digits) := baseOf t
  if t.isEmpty then none
  else if digits.contains (Text.byte '_') && !underscoresSeparate (base ≠ 10) digits then none
  else (digitsValue? base 0 digits).bind (withSign? negative)

/-- Reads a decimal integer with an optional sign. -/
def parseDecimal (t : Text) : Option Int :=
  let (negative, t) := signOf t
  if t.isEmpty || t.any (fun c => !Text.isDigit c) then none
  else (digitsValue? 10 0 t).bind (withSign? negative)

end Intcode.CommandLine
