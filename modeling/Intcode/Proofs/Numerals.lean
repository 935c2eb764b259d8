import Intcode.Proofs.Assembly.Reading

/-!
# Numerals

A numeral has any number of decimal digits and stands for an integer of any size.
Whoever reads it keeps only a cell of the sum at each digit and applies a minus sign
at the end. What comes out is the integer modulo the size of a cell.
-/

namespace Intcode

namespace Text

/-- The number that decimal digits stand for when they follow others with the given value. -/
def decimalFrom (n : Nat) (t : Text) : Nat := t.foldl (fun n c => 10 * n + (c.toNat - 48)) n

/-- The number that decimal digits stand for, zero if there are none. -/
def decimalValue (t : Text) : Nat := decimalFrom 0 t

/-- One more digit, modulo the size of a cell. -/
theorem ofNat_decimal_step (n d : Nat) :
    Cell.ofNat n * 10 + Cell.ofNat d = Cell.ofNat (10 * n + d) := by
  have hten : (10 : Cell) = BitVec.ofNat 16 10 := rfl
  simp only [Cell.ofNat]
  rw [hten, BitVec.mul_comm, BitVec.ofNat_add, BitVec.ofNat_mul]

/-- Cutting the sum to a cell at each digit cuts the number to a cell. -/
theorem digitsValue_eq (t : Text) : digitsValue t = Cell.ofNat (decimalValue t) := by
  have hfrom (n : Nat) :
      t.foldl (fun sum c => sum * 10 + Cell.ofNat (c.toNat - 48)) (Cell.ofNat n) =
        Cell.ofNat (decimalFrom n t) := by
    unfold decimalFrom
    induction t generalizing n with
    | nil => rfl
    | cons c t ih => rw [List.foldl_cons, List.foldl_cons, ofNat_decimal_step, ih]
  exact hfrom 0

end Text

/-- A number as it is written: decimal digits, of which there may be none, and a minus sign before
them or not. -/
structure Numeral where
  negative : Bool
  digits : Text
  isDigit : ∀ c ∈ digits, Text.isDigit c = true

namespace Numeral

/-- The bytes of a numeral. -/
def text (n : Numeral) : Text := (if n.negative then [Text.byte '-'] else []) ++ n.digits

/-- The integer that a numeral stands for. -/
def value (n : Numeral) : Int :=
  if n.negative then -(Text.decimalValue n.digits : Int) else Text.decimalValue n.digits

/-- The cell that a numeral stands for: its integer modulo the size of a cell. -/
def cell (n : Numeral) : Cell := Cell.ofInt n.value

/-- A minus sign can be applied before the number is cut to a cell or after. -/
theorem cell_eq (n : Numeral) :
    n.cell = if n.negative then -Text.digitsValue n.digits else Text.digitsValue n.digits := by
  have hcut : Cell.ofInt (Text.decimalValue n.digits : Nat) = Text.digitsValue n.digits := by
    rw [Text.digitsValue_eq]
    exact BitVec.ofInt_natCast 16 _
  unfold cell value
  split
  · rw [← hcut]
    exact BitVec.ofInt_neg
  · exact hcut

/-- A numeral spells its cell. -/
theorem isNumeral (n : Numeral) : Text.IsNumeral n.cell n.text := by
  rw [cell_eq]
  unfold text
  split
  · exact .negated n.isDigit
  · exact .digits n.isDigit

end Numeral

end Intcode
