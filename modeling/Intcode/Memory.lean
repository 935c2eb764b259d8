import Intcode.Action

/-!
# Memory

The memory is an array of cells that can be read and written as words or as
bytes: cell `i` holds byte `2 * i` in its low half and byte `2 * i + 1` in its
high half. Addresses are integers of the host, sixty-four bits wide; a word
address is doubled to a byte address before it is checked, and that product
wraps around.
-/

namespace Intcode

/-- The machine's memory. No host has room for more cells than the bound. -/
structure Memory where
  cells : Array Cell
  fits : cells.size ≤ 0x800000000000

namespace Memory

/-- A memory of zeros, cut to what a host has room for. -/
def blank (size : Nat) : Memory where
  cells := Array.replicate (min size (0x800000000000)) 0
  fits := by rw [Array.size_replicate]; exact Nat.min_le_right _ _

/-- A memory with the given cells, cut to what a host has room for. -/
def ofFn (size : Nat) (f : Nat → Cell) : Memory where
  cells := ((List.range (min size (0x800000000000))).map f).toArray
  fits := by
    rw [List.size_toArray, List.length_map, List.length_range]
    exact Nat.min_le_right _ _

instance : Inhabited Memory := ⟨⟨#[], by simp⟩⟩

/-- The number of cells. -/
def size (m : Memory) : Nat := m.cells.size

/-- The cell with the given number, zero beyond the end. -/
@[inline] def cellAt (m : Memory) (i : Nat) : Cell := m.cells.getD i 0

/-- The byte with the given number, zero beyond the end. -/
def byteAt (m : Memory) (i : Nat) : UInt8 :=
  if i % 2 = 0 then (m.cellAt (i / 2)).low else (m.cellAt (i / 2)).high

/-- Replaces the cell with the given number. -/
@[inline] def setCell (m : Memory) (i : Nat) (v : Cell) : Memory where
  cells := m.cells.setIfInBounds i v
  fits := by rw [Array.size_setIfInBounds]; exact m.fits

/-- Replacing a cell keeps the number of cells. -/
@[simp] theorem size_setCell (m : Memory) (i : Nat) (v : Cell) : (m.setCell i v).size = m.size := by
  simp only [size, setCell, Array.size_setIfInBounds]

/-- A replaced cell has its new value, and all others keep theirs. -/
theorem cellAt_setCell (m : Memory) (i j : Nat) (v : Cell) :
    (m.setCell i v).cellAt j = if i = j ∧ j < m.size then v else m.cellAt j := by
  simp only [cellAt, setCell, size, Array.getD_eq_getD_getElem?, Array.getElem?_setIfInBounds]
  by_cases hij : i = j
  · subst hij
    by_cases hlt : i < m.cells.size <;> simp [hlt]
  · simp [hij]

/-- A memory of zeros holds zeros. -/
@[simp] theorem cellAt_blank (size i : Nat) : (blank size).cellAt i = 0 := by
  simp only [cellAt, blank, Array.getD_eq_getD_getElem?, Array.getElem?_replicate]
  split <;> rfl

/-- The number of the cell at a word address. Beside the addresses inside the memory there
are those whose double wraps around to a byte of it; one double passes the check only
because its end wraps around. -/
@[inline] def slot (m : Memory) (a : Int) : Except Failure Nat :=
  if 0 ≤ a ∧ a < m.size then .ok a.toNat
  else
    let b := wrap (2 * a)
    if 0 ≤ b ∧ b < 2 * m.size then .ok (b.toNat / 2)
    else if b = 0x7ffffffffffffffe then .error (.overrun b (2 * m.size))
    else .error (.address (b.tdiv 2))

/-- An address inside the memory is the number of its cell. -/
theorem slot_of_lt (m : Memory) {a : Int} (hnonneg : 0 ≤ a) (hlt : a < m.size) :
    m.slot a = .ok a.toNat := by
  unfold slot
  rw [if_pos ⟨hnonneg, hlt⟩]

/-- The word at an address. -/
@[inline] def word (m : Memory) (a : Int) : Except Failure Cell :=
  match m.slot a with
  | .ok i => .ok (m.cellAt i)
  | .error e => .error e

/-- The number of the byte at a byte address. -/
def byteSlot (m : Memory) (b : Int) : Except Failure Nat :=
  if 0 ≤ b ∧ b < 2 * m.size then .ok b.toNat
  else if b = 0x7fffffffffffffff then .error (.overrun b (2 * m.size))
  else .error (.address (b.tdiv 2))

/-- The byte at a byte address. -/
def byte (m : Memory) (b : Int) : Except Failure UInt8 :=
  match m.byteSlot b with
  | .ok i => .ok (m.byteAt i)
  | .error e => .error e

/-- The words at successive addresses. -/
def words (m : Memory) (a : Int) : Nat → Except Failure (List Cell)
  | 0 => .ok []
  | n + 1 => do
    let w ← m.word a
    let ws ← m.words (a + 1) n
    return w :: ws

/-- Stores a word at an address. -/
@[inline] def setWord (a : Int) (v : Cell) : Action Memory Unit := fun m =>
  match m.slot a with
  | .ok i => .ok () (m.setCell i v)
  | .error e => .error e m

/-- Stores a byte at a byte address. -/
def setByte (b : Int) (v : UInt8) : Action Memory Unit := fun m =>
  match m.byteSlot b with
  | .ok i =>
    let c := m.cellAt (i / 2)
    .ok () (m.setCell (i / 2) (if i % 2 = 0 then .ofBytes v c.high else .ofBytes c.low v))
  | .error e => .error e m

/-- Stores words at successive addresses. -/
def setWords (a : Int) : List Cell → Action Memory Unit
  | [] => pure ()
  | w :: ws => do
    setWord a w
    setWords (a + 1) ws

/-- Stores bytes at successive byte addresses. -/
def setBytes (b : Int) : Text → Action Memory Unit
  | [] => pure ()
  | c :: t => do
    setByte b c
    setBytes (b + 1) t

end Memory

end Intcode
