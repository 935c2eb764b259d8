import Intcode.Peripherals

/-!
# Reading numbers

A number is read from the selected input stream: blanks are skipped, then come an
optional sign and digits. The character after the digits is read too.
-/

namespace Intcode.Peripherals

/-- Whether a character may stand before a number. -/
def isBlank (c : Cell) : Bool := c = 32 || c = 9 || c = 10

/-- Whether a character is a digit. -/
def isDigit (c : Cell) : Bool := 48 ≤ c.toInt && c.toInt ≤ 57

/-- A bound on the characters that the selected input stream still gives. What the default
output holds back counts too, for it may go into the file that is being read. -/
def supply (p : Peripherals) : Nat :=
  let pending :=
    match p.streams.get? defaultOutput with
    | some { channel := .output { sink := .file _ offset, backlog, .. }, .. } =>
      offset + backlog.newest.length
    | _ => 0
  match p.streams.get? p.input with
  | some { channel := .input i, .. } =>
    i.unread.length + (i.source.drain p.host).1.length + pending
  | _ => 0

/-- A bound on the characters of a class that come next from the selected input stream. If
the class ends among the unread bytes, nothing else is looked at. -/
def spanLimit (isMember : Cell → Bool) (p : Peripherals) : Nat :=
  match p.streams.get? p.input with
  | some { channel := .input i, .. } =>
    if i.unread.any fun c => !isMember (.ofByte (Text.foldReturn c)) then i.unread.length
    else p.supply
  | _ => 0

/-- Reads up to the first character that is not blank. -/
def skipBlanks : Nat → Action Peripherals Cell
  | 0 => throw .endless
  | n + 1 => do
    let c ← readCharacter
    if isBlank c then skipBlanks n else return c

/-- Reads digits, of which `c` may be the first, and returns their value after `sum`,
modulo the size of a cell, and the character after them. -/
def readDigits : Nat → Cell → Cell → Action Peripherals (Cell × Cell)
  | 0, sum, c => if isDigit c then throw .endless else return (sum, c)
  | n + 1, sum, c => do
    if isDigit c then
      let next ← readCharacter
      readDigits n (sum * 10 + c - 48) next
    else
      return (sum, c)

/-- Reads a number and the character that ends it. -/
def readNumber : Action Peripherals (Cell × Cell) := do
  let c ← skipBlanks ((← get).spanLimit isBlank + 1)
  let negative := c = Cell.ofByte (Text.byte '-')
  let signed := negative || c = Cell.ofByte (Text.byte '+')
  let c ← if signed then readCharacter else pure c
  let (sum, c) ← readDigits ((← get).spanLimit isDigit + 1) 0 c
  return (if negative then -sum else sum, c)

end Intcode.Peripherals
