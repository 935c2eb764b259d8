import Intcode.Text

/-!
# Cells

The machine computes on words of sixteen bits. A cell is read as a signed
number by arithmetic and comparisons, and as an unsigned number when it is an
address. It holds two bytes, the low one first. The host has integers of its own,
with sixty-four bits.
-/

namespace Intcode

/-- The value that an integer has in the sixty-four bits of the host. -/
def wrap (x : Int) : Int := Int.bmod x (0x10000000000000000)

/-- A word of the machine. -/
abbrev Cell := BitVec 16

namespace Cell

/-- The cell that an integer becomes: its value modulo the size of a cell. -/
abbrev ofInt (x : Int) : Cell := (Int16.ofInt x).toBitVec

/-- The cell that a natural number becomes. -/
abbrev ofNat (n : Nat) : Cell := BitVec.ofNat 16 n

/-- The signed value of a cell. -/
def signed (c : Cell) : Int := (Int16.ofBitVec c).toInt

/-- Computes with two cells as words of the host. -/
@[inline] def compute (f : UInt16 → UInt16 → UInt16) (a b : Cell) : Cell :=
  (f (.ofBitVec a) (.ofBitVec b)).toBitVec

/-- The sum of two cells. -/
@[inline] def plus (a b : Cell) : Cell := compute (· + ·) a b

/-- The difference of two cells. -/
@[inline] def minus (a b : Cell) : Cell := compute (· - ·) a b

/-- The product of two cells. -/
@[inline] def times (a b : Cell) : Cell := compute (· * ·) a b

/-- Sums are those of bit vectors. -/
theorem plus_eq (a b : Cell) : a.plus b = a + b := rfl

/-- The memory address that a cell denotes: its unsigned value. -/
def address (c : Cell) : Int := c.toNat

/-- The cell of a truth value: all bits set for true, none for false. -/
def truth (b : Bool) : Cell := if b then -1 else 0

/-- The byte in the low half. -/
def low (c : Cell) : UInt8 := UInt8.ofNat c.toNat

/-- The byte in the high half. -/
def high (c : Cell) : UInt8 := UInt8.ofNat (c.toNat / 256)

/-- The cell with the given halves. -/
def ofBytes (low high : UInt8) : Cell := Cell.ofNat (low.toNat + 256 * high.toNat)

/-- The cell whose value is that of a byte. -/
def ofByte (c : UInt8) : Cell := ofBytes c 0

/-- The signed value of a cell in decimal. -/
def decimal (c : Cell) : Text := Text.ofInt c.toInt

/-- The low half of the cell with given halves. -/
@[simp] theorem low_ofBytes (low high : UInt8) : (ofBytes low high).low = low := by
  apply UInt8.toNat_inj.mp
  have hlow := low.toNat_lt
  have hhigh := high.toNat_lt
  simp only [Cell.low, ofBytes, ofNat, BitVec.toNat_ofNat, UInt8.toNat_ofNat']
  omega

/-- The high half of the cell with given halves. -/
@[simp] theorem high_ofBytes (low high : UInt8) : (ofBytes low high).high = high := by
  apply UInt8.toNat_inj.mp
  have hlow := low.toNat_lt
  have hhigh := high.toNat_lt
  simp only [Cell.high, ofBytes, ofNat, BitVec.toNat_ofNat, UInt8.toNat_ofNat']
  omega

/-- A cell is made of its halves. -/
@[simp] theorem ofBytes_low_high (c : Cell) : ofBytes c.low c.high = c := by
  apply BitVec.eq_of_toNat_eq
  have hc := c.isLt
  simp only [Cell.low, Cell.high, ofBytes, ofNat, BitVec.toNat_ofNat, UInt8.toNat_ofNat']
  omega

end Cell

end Intcode
