import Intcode.Proofs.Memory

/-!
# Bytes of the memory

Every cell is two bytes, so a memory is known by its bytes as well as by its
cells. A stored byte changes that byte alone, and bytes stored one after the
other stand where they were stored.
-/

namespace Intcode.Memory

/-- The low half of a cell is its first byte. -/
theorem byteAt_two_mul (m : Memory) (i : Nat) : m.byteAt (2 * i) = (m.cellAt i).low := by
  have heven : 2 * i % 2 = 0 := by omega
  have hhalf : 2 * i / 2 = i := by omega
  rw [byteAt, if_pos heven, hhalf]

/-- The high half of a cell is its second byte. -/
theorem byteAt_two_mul_add_one (m : Memory) (i : Nat) :
    m.byteAt (2 * i + 1) = (m.cellAt i).high := by
  have hodd : ¬ (2 * i + 1) % 2 = 0 := by omega
  have hhalf : (2 * i + 1) / 2 = i := by omega
  rw [byteAt, if_neg hodd, hhalf]

/-- Memories of one size with the same bytes are equal. -/
theorem ext_byteAt {m m' : Memory} (hsize : m.size = m'.size)
    (hbytes : ∀ j, m.byteAt j = m'.byteAt j) : m = m' := by
  apply ext_cellAt hsize
  intro i
  rw [← Cell.ofBytes_low_high (m.cellAt i), ← Cell.ofBytes_low_high (m'.cellAt i),
    ← byteAt_two_mul, ← byteAt_two_mul, ← byteAt_two_mul_add_one, ← byteAt_two_mul_add_one,
    hbytes, hbytes]

/-- A replaced cell gives its two bytes new values. -/
theorem byteAt_setCell (m : Memory) (i j : Nat) (w : Cell) :
    (m.setCell i w).byteAt j =
      if i = j / 2 ∧ j / 2 < m.size then (if j % 2 = 0 then w.low else w.high)
      else m.byteAt j := by
  rw [byteAt, byteAt, cellAt_setCell]
  by_cases hhere : i = j / 2 ∧ j / 2 < m.size
  · rw [if_pos hhere, if_pos hhere]
  · rw [if_neg hhere, if_neg hhere]

/-- The byte at a byte address inside the memory. -/
theorem byte_of_lt {m : Memory} {j : Nat} (hlt : j < 2 * m.size) : m.byte j = .ok (m.byteAt j) := by
  have hinside : (0 : Int) ≤ j ∧ (j : Int) < 2 * m.size := by omega
  simp only [byte, byteSlot, if_pos hinside, Int.toNat_natCast]

/-- Replaces the byte with the given number. -/
def setByteAt (m : Memory) (j : Nat) (v : UInt8) : Memory :=
  m.setCell (j / 2) (if j % 2 = 0 then .ofBytes v (m.cellAt (j / 2)).high
    else .ofBytes (m.cellAt (j / 2)).low v)

/-- Replacing a byte keeps the size of the memory. -/
@[simp] theorem size_setByteAt (m : Memory) (j : Nat) (v : UInt8) :
    (m.setByteAt j v).size = m.size :=
  size_setCell ..

/-- A replaced byte has its new value, and all others keep theirs. -/
theorem byteAt_setByteAt (m : Memory) (i j : Nat) (v : UInt8) :
    (m.setByteAt i v).byteAt j = if i = j ∧ j < 2 * m.size then v else m.byteAt j := by
  rw [setByteAt, byteAt_setCell]
  by_cases hcell : i / 2 = j / 2 ∧ j / 2 < m.size
  · rw [if_pos hcell, byteAt, hcell.1]
    -- The two bytes of one cell are told apart by their parity.
    by_cases hsame : i % 2 = j % 2
    · have hthis : i = j ∧ j < 2 * m.size := by omega
      by_cases heven : j % 2 = 0
      · simp only [hsame, if_pos heven, if_pos hthis, Cell.low_ofBytes]
      · simp only [hsame, if_neg heven, if_pos hthis, Cell.high_ofBytes]
    · have hother : ¬ (i = j ∧ j < 2 * m.size) := by omega
      by_cases heven : j % 2 = 0
      · have hodd : ¬ i % 2 = 0 := by omega
        simp only [if_pos heven, if_neg hodd, if_neg hother, Cell.low_ofBytes]
      · have heven' : i % 2 = 0 := by omega
        simp only [if_neg heven, if_pos heven', if_neg hother, Cell.high_ofBytes]
  · rw [if_neg hcell, if_neg (by omega)]

/-- A byte stored at a byte address inside the memory. -/
theorem setByte_eq {m : Memory} {j : Nat} (hlt : j < 2 * m.size) (v : UInt8) :
    setByte j v m = .ok () (m.setByteAt j v) := by
  rw [setByte_of_lt (Int.natCast_nonneg j) (by omega), Int.toNat_natCast]
  rfl

/-- The memory with the given bytes stored from a byte address on. -/
def storeBytes (m : Memory) (j : Nat) : Text → Memory
  | [] => m
  | c :: t => (m.setByteAt j c).storeBytes (j + 1) t

/-- Storing bytes keeps the size of the memory. -/
@[simp] theorem size_storeBytes (m : Memory) (j : Nat) (t : Text) :
    (m.storeBytes j t).size = m.size := by
  induction t generalizing m j with
  | nil => rfl
  | cons c t ih => exact (ih _ _).trans (size_setByteAt ..)

/-- Bytes stored in two parts. -/
theorem storeBytes_append (m : Memory) (j : Nat) (t u : Text) :
    m.storeBytes j (t ++ u) = (m.storeBytes j t).storeBytes (j + t.length) u := by
  induction t generalizing m j with
  | nil => rfl
  | cons c t ih =>
    rw [List.cons_append, storeBytes, storeBytes, ih, List.length_cons, Nat.add_right_comm,
      Nat.add_assoc]

/-- One more of the bytes to be stored. -/
theorem storeBytes_take_succ (m : Memory) (j : Nat) {t : Text} {i : Nat} (hi : i < t.length) :
    m.storeBytes j (t.take (i + 1)) =
      (m.storeBytes j (t.take i)).setByteAt (j + i) (t.getD i 0) := by
  rw [List.take_add_one, storeBytes_append, List.length_take_of_le (Nat.le_of_lt hi),
    List.getD_eq_getElem?_getD, List.getElem?_eq_getElem hi]
  rfl

/-- Bytes that are stored inside the memory stand where they were stored, and the rest of the memory
is unchanged. -/
theorem byteAt_storeBytes {m : Memory} {j : Nat} {t : Text} (h : j + t.length ≤ 2 * m.size)
    (i : Nat) : (m.storeBytes j t).byteAt i =
      if j ≤ i ∧ i < j + t.length then t.getD (i - j) 0 else m.byteAt i := by
  induction t generalizing m j with
  | nil =>
    rw [if_neg (by simp only [List.length_nil]; omega)]
    rfl
  | cons c t ih =>
    simp only [List.length_cons] at h ⊢
    rw [storeBytes, ih (by rw [size_setByteAt]; omega), byteAt_setByteAt]
    by_cases hthere : j + 1 ≤ i ∧ i < j + 1 + t.length
    · have hnext : i - j = (i - (j + 1)) + 1 := by omega
      rw [if_pos hthere, if_pos (by omega), hnext, List.getD_cons_succ]
    · rw [if_neg hthere]
      by_cases hhere : j = i ∧ i < 2 * m.size
      · rw [if_pos hhere, if_pos (by omega), hhere.1, Nat.sub_self, List.getD_cons_zero]
      · rw [if_neg hhere, if_neg (by omega)]

/-- Bytes are stored one after the other if there is memory for all of them. -/
theorem setBytes_eq {m : Memory} {j : Nat} {t : Text} (h : j + t.length ≤ 2 * m.size) :
    setBytes j t m = .ok () (m.storeBytes j t) := by
  induction t generalizing m j with
  | nil => rfl
  | cons c t ih =>
    rw [List.length_cons] at h
    have hrest := @ih (m.setByteAt j c) (j + 1) (by rw [size_setByteAt]; omega)
    rw [Int.natCast_add] at hrest
    rw [setBytes, Action.bind_apply, setByte_eq (by omega)]
    exact hrest

end Intcode.Memory
