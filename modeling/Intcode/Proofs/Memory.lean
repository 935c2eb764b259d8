import Intcode.Memory
import Intcode.Proofs.Action

/-!
# Accesses inside the memory

An access whose address lies inside the memory always succeeds, and then it is a
plain look-up or replacement of a cell. A memory is known by its size and its
cells, and a cell by the integer that it stands for.
-/

namespace Intcode

/-- A number that sixty-four bits can hold is not changed by them. -/
theorem wrap_of_lt {x : Int} (hlow : -0x8000000000000000 ≤ x) (hhigh : x < 0x8000000000000000) :
    wrap x = x := by
  unfold wrap
  rw [Int.bmod_def]
  omega

namespace Cell

/-- A cell has the signed value of an integer that fits. -/
theorem toInt_ofInt {x : Int} (hlow : -32768 ≤ x) (hhigh : x < 32768) : (ofInt x).toInt = x := by
  change (BitVec.ofInt 16 x).toInt = x
  rw [BitVec.toInt_ofInt, Int.bmod_def]
  omega

/-- The negated cell has the negated value. -/
theorem toInt_neg_ofInt {x : Int} (hlow : -32768 < x) (hhigh : x < 32768) :
    (-ofInt x).toInt = -x := by
  rw [BitVec.toInt_neg, toInt_ofInt (by omega) hhigh, Int.bmod_def]
  omega

/-- A cell denotes the address that an integer is. -/
theorem toNat_ofInt {x : Int} (hnonneg : 0 ≤ x) (hlt : x < 65536) :
    (ofInt x).toNat = x.toNat := by
  change (BitVec.ofInt 16 x).toNat = x.toNat
  rw [BitVec.toNat_ofInt]
  omega

end Cell

namespace Memory

/-- A memory of zeros has the size asked for, if a host has room for that. -/
theorem size_blank {n : Nat} (h : n ≤ 0x800000000000) : (blank n).size = n := by
  rw [size, blank, Array.size_replicate, Nat.min_eq_left h]

/-- Beyond the end of the memory all cells count as zero. -/
theorem cellAt_of_size_le {m : Memory} {i : Nat} (h : m.size ≤ i) : m.cellAt i = 0 := by
  unfold cellAt
  rw [Array.getD_eq_getD_getElem?, Array.getElem?_eq_none h, Option.getD_none]

/-- Memories of one size with the same cells are equal. -/
theorem ext_cellAt {m m' : Memory} (hsize : m.size = m'.size)
    (hcells : ∀ i, m.cellAt i = m'.cellAt i) : m = m' := by
  obtain ⟨cells, fits⟩ := m
  obtain ⟨cells', fits'⟩ := m'
  congr 1
  apply Array.ext hsize
  intro i hi hi'
  have h := hcells i
  simpa [cellAt, Array.getD_eq_getD_getElem?, hi, hi'] using h

/-- The later of two replacements of a cell counts. -/
@[simp] theorem setCell_setCell (m : Memory) (i : Nat) (v w : Cell) :
    (m.setCell i v).setCell i w = m.setCell i w := by
  simp only [setCell, Array.setIfInBounds_setIfInBounds]

/-- A replaced cell inside the memory has its new value. -/
theorem cellAt_setCell_self {m : Memory} {i : Nat} (h : i < m.size) (v : Cell) :
    (m.setCell i v).cellAt i = v := by
  rw [cellAt_setCell, if_pos ⟨rfl, h⟩]

/-- All cells but the replaced one keep their values. -/
theorem cellAt_setCell_of_ne {i j : Nat} (h : i ≠ j) (m : Memory) (v : Cell) :
    (m.setCell i v).cellAt j = m.cellAt j := by
  rw [cellAt_setCell, if_neg fun hij => h hij.1]

/-- Replacing a cell by its own value changes nothing. -/
theorem setCell_eq_self {m : Memory} {i : Nat} {v : Cell} (h : m.cellAt i = v) :
    m.setCell i v = m := by
  apply ext_cellAt (size_setCell ..)
  intro j
  rw [cellAt_setCell]
  by_cases hij : i = j ∧ j < m.size
  · rw [if_pos hij, ← hij.1, h]
  · rw [if_neg hij]

/-- An address whose double sixty-four bits can hold is inside the memory or outside. -/
theorem slot_of_near (m : Memory) {a : Int} (hlow : -0x4000000000000000 ≤ a)
    (hhigh : a < 0x3fffffffffffffff) :
    m.slot a = if 0 ≤ a ∧ a < m.size then .ok a.toNat else .error (.address a) := by
  unfold slot
  by_cases hinside : 0 ≤ a ∧ a < m.size
  · rw [if_pos hinside, if_pos hinside]
  · rw [if_neg hinside, if_neg hinside, wrap_of_lt (by omega) (by omega)]
    dsimp only
    rw [if_neg (by omega), if_neg (by omega), Int.mul_tdiv_cancel_left a (by decide)]

/-- The word at an address inside the memory. -/
theorem word_of_lt {m : Memory} {a : Int} (hnonneg : 0 ≤ a) (hlt : a < m.size) :
    m.word a = .ok (m.cellAt a.toNat) := by
  rw [word, slot_of_lt m hnonneg hlt]

/-- The word at an address whose double sixty-four bits can hold. -/
theorem word_of_near (m : Memory) {a : Int} (hlow : -0x4000000000000000 ≤ a)
    (hhigh : a < 0x3fffffffffffffff) :
    m.word a = if 0 ≤ a ∧ a < m.size then .ok (m.cellAt a.toNat) else .error (.address a) := by
  rw [word, slot_of_near m hlow hhigh]
  by_cases hinside : 0 ≤ a ∧ a < m.size
  · rw [if_pos hinside, if_pos hinside]
  · rw [if_neg hinside, if_neg hinside]

/-- The word that a cell points to, if it points into the memory. -/
theorem word_address (m : Memory) (c : Cell) :
    m.word c.address =
      if c.toNat < m.size then .ok (m.cellAt c.toNat) else .error (.address c.toNat) := by
  have hlt := c.isLt
  have haddress : c.address = c.toNat := rfl
  rw [haddress, word_of_near m (by omega) (by omega)]
  by_cases hinside : c.toNat < m.size
  · rw [if_pos hinside, if_pos ⟨by omega, by omega⟩, Int.toNat_natCast]
  · rw [if_neg hinside, if_neg (by omega)]

/-- A word stored at an address inside the memory. -/
theorem setWord_of_lt {m : Memory} {a : Int} (hnonneg : 0 ≤ a) (hlt : a < m.size) (v : Cell) :
    setWord a v m = .ok () (m.setCell a.toNat v) := by
  rw [setWord, slot_of_lt m hnonneg hlt]

/-- A byte stored at a byte address inside the memory. -/
theorem setByte_of_lt {m : Memory} {b : Int} (hnonneg : 0 ≤ b) (hlt : b < 2 * m.size) (v : UInt8) :
    setByte b v m = .ok () (m.setCell (b.toNat / 2)
      (if b.toNat % 2 = 0 then .ofBytes v (m.cellAt (b.toNat / 2)).high
        else .ofBytes (m.cellAt (b.toNat / 2)).low v)) := by
  simp only [setByte, byteSlot, if_pos (And.intro hnonneg hlt)]

/-- Memories with the same number of cells. -/
def SameSize (m m' : Memory) : Prop := m'.size = m.size

instance : Std.Refl SameSize := ⟨fun _ => rfl⟩

instance : Trans SameSize SameSize SameSize := ⟨fun h h' => Eq.trans h' h⟩

/-- A stored word leaves the number of cells alone. -/
theorem sameSize_setWord (a : Int) (v : Cell) : Action.Stays SameSize (setWord a v) := by
  intro m
  rw [Action.final, setWord]
  cases m.slot a with
  | ok i => exact size_setCell ..
  | error e => exact Std.Refl.refl m

/-- A stored byte leaves the number of cells alone. -/
theorem sameSize_setByte (b : Int) (v : UInt8) : Action.Stays SameSize (setByte b v) := by
  intro m
  rw [Action.final, setByte]
  cases m.byteSlot b with
  | ok i => exact size_setCell ..
  | error e => exact Std.Refl.refl m

/-- The memory with the given words stored from an address on. -/
def storeWords (m : Memory) (a : Nat) : List Cell → Memory
  | [] => m
  | w :: ws => (m.setCell a w).storeWords (a + 1) ws

/-- Storing words keeps the size of the memory. -/
@[simp] theorem size_storeWords (m : Memory) (a : Nat) (ws : List Cell) :
    (m.storeWords a ws).size = m.size := by
  induction ws generalizing m a with
  | nil => rfl
  | cons w ws ih => exact (ih _ _).trans (size_setCell ..)

/-- Words that are stored inside the memory stand where they were stored, and the rest of the memory
is unchanged. -/
theorem cellAt_storeWords {m : Memory} {a : Nat} {ws : List Cell} (h : a + ws.length ≤ m.size)
    (i : Nat) : (m.storeWords a ws).cellAt i =
      if a ≤ i ∧ i < a + ws.length then ws.getD (i - a) 0 else m.cellAt i := by
  induction ws generalizing m a with
  | nil =>
    rw [if_neg (by simp only [List.length_nil]; omega)]
    rfl
  | cons w ws ih =>
    simp only [List.length_cons] at h ⊢
    rw [storeWords, ih (by rw [size_setCell]; omega)]
    by_cases hhere : i = a
    · subst hhere
      rw [if_neg (by omega), if_pos (by omega), cellAt_setCell_self (by omega), Nat.sub_self]
      rfl
    · rw [cellAt_setCell_of_ne (fun h => hhere h.symm)]
      by_cases hthere : a + 1 ≤ i ∧ i < a + 1 + ws.length
      · have hnext : i - a = (i - (a + 1)) + 1 := by omega
        rw [if_pos hthere, if_pos (by omega), hnext, List.getD_cons_succ]
      · rw [if_neg hthere, if_neg (by omega)]

/-- Words stored in two parts. -/
theorem storeWords_append (m : Memory) (a : Nat) (ws ws' : List Cell) :
    m.storeWords a (ws ++ ws') = (m.storeWords a ws).storeWords (a + ws.length) ws' := by
  induction ws generalizing m a with
  | nil => rfl
  | cons w ws ih =>
    rw [List.cons_append, storeWords, storeWords, ih, List.length_cons, Nat.add_right_comm,
      Nat.add_assoc]

/-- One more of the words to be stored. -/
theorem storeWords_take_succ (m : Memory) (a : Nat) {ws : List Cell} {i : Nat}
    (hi : i < ws.length) :
    m.storeWords a (ws.take (i + 1)) =
      (m.storeWords a (ws.take i)).setCell (a + i) (ws.getD i 0) := by
  rw [List.take_add_one, storeWords_append, List.length_take_of_le (Nat.le_of_lt hi),
    List.getD_eq_getElem?_getD, List.getElem?_eq_getElem hi]
  rfl

end Memory

end Intcode
