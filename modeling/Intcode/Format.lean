import Intcode.Cell
import Intcode.Text.Padded

/-!
# Formats

A format is a text in which a percent sign starts a directive. Three directives
take a width, which is the byte after them. This file takes formats apart and
writes numbers in a given base.
-/

namespace Intcode

namespace Text

/-- The given number of low order digits of a number in a base, in front of a text. -/
def lowDigitsBefore (base : Nat) : Nat → Nat → Text → Text
  | 0, _, t => t
  | k + 1, n, t => lowDigitsBefore base k (n / base) (digit (n % base) :: t)

/-- The low order digits of a number in a base, the highest first. There is always one. -/
def lowDigits (base : Nat) (width : Int) (n : Nat) : Text :=
  lowDigitsBefore base (max width 1).toNat n []

/-- Digits beyond those of a number are zeros. -/
theorem lowDigitsBefore_zero (base k : Nat) (t : Text) :
    lowDigitsBefore base k 0 t = List.replicate k (digit 0) ++ t := by
  induction k generalizing t with
  | zero => rfl
  | succ k ih => simp [lowDigitsBefore, ih, List.replicate_succ']

/-- The digits of a number are its low order ones after those of its quotient. -/
theorem lowDigitsBefore_add (base j k n : Nat) (t : Text) :
    lowDigitsBefore base (j + k) n t =
      lowDigitsBefore base j (n / Nat.pow base k) (lowDigitsBefore base k n t) := by
  induction k generalizing n t with
  | zero => simp [lowDigitsBefore]
  | succ k ih =>
    have hpow : Nat.pow base (k + 1) = base * Nat.pow base k := Nat.pow_succ'
    rw [← Nat.add_assoc, lowDigitsBefore, ih, lowDigitsBefore, Nat.div_div_eq_div_mul, hpow]

end Text

namespace Padded

/-- The low order digits of a number of at most the given number of digits, with the zeros in
front of these digits as the filling. -/
def lowDigits (base most : Nat) (width : Int) (n : Nat) : Padded :=
  let w := (max width 1).toNat
  ⟨Text.digit 0, w - most, Text.lowDigitsBefore base (min w most) n []⟩

/-- The padded digits are the low order digits. -/
theorem toText_lowDigits {base most n : Nat} (width : Int) (hn : n < Nat.pow base most) :
    (lowDigits base most width n).toText = Text.lowDigits base width n := by
  simp only [lowDigits, toText, Text.lowDigits]
  generalize (max width 1).toNat = w
  rcases Nat.le_total w most with h | h
  · rw [Nat.min_eq_left h, Nat.sub_eq_zero_of_le h]
    rfl
  · rw [Nat.min_eq_right h, ← Text.lowDigitsBefore_zero, ← Nat.div_eq_of_lt hn,
      ← Text.lowDigitsBefore_add, Nat.sub_add_cancel h]

end Padded

/-- How a directive with a width writes a number. -/
inductive Conversion where
  | octal
  | hex
  | decimal
deriving DecidableEq, Repr

/-- Writes a number. Octal and hexadecimal show its low order digits, decimal is right
justified. -/
def Conversion.render : Conversion → Int → Cell → Padded
  | octal, width, n => .lowDigits 8 6 width n.toNat
  | hex, width, n => .lowDigits 16 4 width n.toNat
  | decimal, width, n => .rightJustified width n.decimal

/-- A piece of a format. -/
inductive FormatPiece where
  /-- A byte that stands for itself. -/
  | literal (c : UInt8)
  /-- The packed string at the next argument. -/
  | string
  /-- The low byte of the next argument. -/
  | character
  /-- The next argument as a number in a width. -/
  | number (conversion : Conversion) (width : Nat)
deriving DecidableEq, Repr

/-- What a reader of formats has just passed. -/
inductive FormatScan where
  /-- A byte that stands for itself, or a whole directive. -/
  | plain
  /-- The percent sign of a directive. -/
  | percent
  /-- A directive whose width is to follow. -/
  | width (conversion : Conversion)
deriving DecidableEq, Repr

namespace FormatPiece

/-- The width that a byte stands for: a digit, or a capital letter for ten and more. -/
def widthOf (c : UInt8) : Nat :=
  if 48 ≤ c && c ≤ 57 then c.toNat - 48
  else if 65 ≤ c && c ≤ 90 then c.toNat - 55
  else 0

/-- The conversion of a directive that takes a width. -/
def conversion? (c : UInt8) : Option Conversion :=
  if c = Text.byte 'o' then some .octal
  else if c = Text.byte 'x' then some .hex
  else if c = Text.byte 'i' then some .decimal
  else none

/-- The piece of a directive that takes no width. A byte that names no directive stands for
itself. -/
def ofByte (c : UInt8) : FormatPiece :=
  if c = Text.byte 's' then .string
  else if c = Text.byte 'c' then .character
  else if c = Text.byte 'n' then .number .decimal 0
  else .literal c

/-- Takes the rest of a format apart. A width that is missing is zero, and a percent sign at
the end stands for nothing. -/
def scan : FormatScan → Text → List FormatPiece
  | .plain, [] => []
  | .percent, [] => []
  | .width k, [] => [.number k 0]
  | .plain, c :: t =>
    if c = Text.byte '%' then scan .percent t else .literal c :: scan .plain t
  | .percent, c :: t =>
    match conversion? c with
    | some k => scan (.width k) t
    | none => ofByte c :: scan .plain t
  | .width k, c :: t => .number k (widthOf c) :: scan .plain t

/-- The pieces of a format. -/
def ofText (t : Text) : List FormatPiece := scan .plain t

end FormatPiece

end Intcode
