import Intcode.Proofs.Bytes

/-!
# Checked accesses and the history of stores

The addresses of the host have sixty-four bits. A byte address is checked as it is,
a word address once it has been doubled. Doubling wraps around, so beside the words
of the memory there are as many addresses at the lowest end of the host's integers
that pass the check and reach the same words. Everywhere else an access fails and
changes nothing.

Main statement: exactly these accesses succeed; after any calls that store, every
byte holds the value that a call gave it last, and every word is made of its bytes.
-/

namespace Intcode

/-- A call that stores into the memory. -/
inductive Store where
  | word (a : Int64) (v : Cell)
  | byte (b : Int64) (v : UInt8)
deriving DecidableEq, Repr

namespace Store

/-- What a call does. -/
def perform : Store → Action Memory Unit
  | word a v => Memory.setWord a.toInt v
  | byte b v => Memory.setByte b.toInt v

/-- The value that a call gives to a byte of the memory, if it stores there. The low half of a word
goes to the byte at the double of its address, and the high half to the byte after it. -/
def value? (j : Nat) : Store → Option UInt8
  | word a v =>
    if wrap (2 * a.toInt) = j then some v.low
    else if wrap (2 * a.toInt) + 1 = j then some v.high
    else none
  | byte b v => if b.toInt = j then some v else none

/-- The value that calls gave to a byte last. -/
def last? (j : Nat) : List Store → Option UInt8
  | [] => none
  | c :: cs => (last? j cs).or (c.value? j)

/-- The memory after calls, of which some may have failed. -/
def performAll : List Store → Memory → Memory
  | [], m => m
  | c :: cs, m => performAll cs (c.perform.final m)

end Store

namespace Memory

section Addresses

variable (m : Memory)

/-- A word address lies inside the memory. -/
def Inside (a : Int) : Prop := 0 ≤ a ∧ a < m.size

/-- A word address lies as far above the lowest integer of the host as a word of the memory lies
above zero. Its double is the same as that of this word. -/
def Aliased (a : Int) : Prop :=
  -0x8000000000000000 ≤ a ∧ a + 0x8000000000000000 < m.size

/-- A byte address lies inside the memory. -/
def InsideBytes (b : Int) : Prop := 0 ≤ b ∧ b < 2 * m.size

/-- The double of an integer of the host, which wraps around at half of its range. -/
theorem wrap_double (a : Int64) :
    wrap (2 * a.toInt) =
      if 0x4000000000000000 ≤ a.toInt then 2 * a.toInt - 0x10000000000000000
      else if a.toInt < -0x4000000000000000 then 2 * a.toInt + 0x10000000000000000
      else 2 * a.toInt := by
  have hlow := a.le_toInt
  have hhigh := a.toInt_lt
  unfold wrap
  rw [Int.bmod_def]
  omega

/-- An address reaches the cell whose first byte its double is. -/
theorem slot_eq_ok_iff (a : Int64) (i : Nat) :
    m.slot a.toInt = .ok i ↔ wrap (2 * a.toInt) = 2 * i ∧ i < m.size := by
  have hsize : m.size ≤ 0x800000000000 := m.fits
  have hlow := a.le_toInt
  have hhigh := a.toInt_lt
  have hdouble := wrap_double a
  unfold slot
  dsimp only
  split
  · rw [Except.ok.injEq]
    omega
  · split
    · rw [Except.ok.injEq]
      omega
    · split <;> simp only [reduceCtorEq, false_iff] <;> omega

/-- The addresses that reach a cell are those inside the memory and their aliases. -/
theorem inside_or_aliased_iff (a : Int64) :
    m.Inside a.toInt ∨ m.Aliased a.toInt ↔ ∃ i, m.slot a.toInt = .ok i := by
  have hsize : m.size ≤ 0x800000000000 := m.fits
  have hlow := a.le_toInt
  have hhigh := a.toInt_lt
  have hdouble := wrap_double a
  simp only [slot_eq_ok_iff, Inside, Aliased]
  constructor
  · intro h
    exact ⟨(wrap (2 * a.toInt)).toNat / 2, by omega, by omega⟩
  · rintro ⟨i, hi, hlt⟩
    omega

/-- The other addresses are wrong, and two of them are not found to be so by the check. -/
theorem slot_eq_error {a : Int64} (h : ¬ (m.Inside a.toInt ∨ m.Aliased a.toInt)) :
    ∃ e, m.slot a.toInt = .error e ∧
      (a.toInt ≠ 0x3fffffffffffffff → a.toInt ≠ -0x4000000000000001 →
        ∃ n, ¬ m.Inside n ∧ e = .address n) := by
  have hlow := a.le_toInt
  have hhigh := a.toInt_lt
  have hdouble := wrap_double a
  unfold Inside Aliased at h
  have hreach : ¬ (0 ≤ wrap (2 * a.toInt) ∧ wrap (2 * a.toInt) < 2 * m.size) := by omega
  unfold slot
  dsimp only
  rw [if_neg (by omega : ¬ (0 ≤ a.toInt ∧ _)), if_neg hreach]
  by_cases hend : wrap (2 * a.toInt) = 0x7ffffffffffffffe
  · rw [if_pos hend]
    exact ⟨_, rfl, fun hupper hlower => by omega⟩
  · obtain ⟨n, hn⟩ : ∃ n, wrap (2 * a.toInt) = 2 * n := ⟨wrap (2 * a.toInt) / 2, by omega⟩
    rw [if_neg hend, hn, Int.mul_tdiv_cancel_left n (by decide)]
    refine ⟨_, rfl, fun _ _ => ⟨n, fun hinside => hreach ?_, rfl⟩⟩
    unfold Inside at hinside
    omega

/-- The addresses from the lowest integer of the host on reach what those from zero on reach. -/
theorem slot_sub_lowest {a : Int} (hlow : 0 ≤ a) (hhigh : a < 0x4000000000000000) :
    m.slot (a - 0x8000000000000000) = m.slot a := by
  have hdouble : wrap (2 * (a - 0x8000000000000000)) = 2 * a := by
    unfold wrap
    rw [Int.bmod_def]
    omega
  have hsame : wrap (2 * a) = 2 * a := by
    unfold wrap
    rw [Int.bmod_def]
    omega
  unfold slot
  dsimp only
  rw [hdouble, hsame, if_neg (by omega : ¬ (0 ≤ a - 0x8000000000000000 ∧ _))]
  by_cases hinside : a < m.size
  · rw [if_pos (by omega), if_pos (by omega)]
    congr 1
    omega
  · rw [if_neg (by omega : ¬ (0 ≤ a ∧ a < m.size))]

/-- The words at the addresses from the lowest integer of the host on are those from zero on. -/
theorem word_sub_lowest {a : Int} (hlow : 0 ≤ a) (hhigh : a < 0x4000000000000000) :
    m.word (a - 0x8000000000000000) = m.word a := by
  rw [word, word, m.slot_sub_lowest hlow hhigh]

/-- A byte address reaches the byte whose number it is. -/
theorem byteSlot_eq_ok_iff (b : Int) (i : Nat) :
    m.byteSlot b = .ok i ↔ b = i ∧ i < 2 * m.size := by
  unfold byteSlot
  split
  · rw [Except.ok.injEq]
    omega
  · split <;> simp only [reduceCtorEq, false_iff] <;> omega

/-- The byte addresses that reach a byte are those inside the memory. -/
theorem insideBytes_iff (b : Int) : m.InsideBytes b ↔ ∃ i, m.byteSlot b = .ok i := by
  simp only [byteSlot_eq_ok_iff, InsideBytes]
  constructor
  · intro h
    exact ⟨b.toNat, by omega, by omega⟩
  · rintro ⟨i, hi, hlt⟩
    omega

/-- The other byte addresses are wrong, and the greatest integer of the host is not found to be so
by the check. -/
theorem byteSlot_eq_error {b : Int} (h : ¬ m.InsideBytes b) :
    ∃ e, m.byteSlot b = .error e ∧ (b ≠ 0x7fffffffffffffff → ∃ n, e = .address n) := by
  unfold InsideBytes at h
  unfold byteSlot
  rw [if_neg h]
  by_cases hgreatest : b = 0x7fffffffffffffff
  · rw [if_pos hgreatest]
    exact ⟨_, rfl, fun hne => absurd hgreatest hne⟩
  · rw [if_neg hgreatest]
    exact ⟨_, rfl, fun _ => ⟨_, rfl⟩⟩

end Addresses

section Accesses

variable {m : Memory} {a b : Int}

/-- A word is read where its address reaches a cell. -/
theorem exists_word_iff : (∃ w, m.word a = .ok w) ↔ ∃ i, m.slot a = .ok i := by
  unfold word
  cases m.slot a <;> simp

/-- A word is stored where its address reaches a cell. -/
theorem exists_setWord_iff (v : Cell) :
    (∃ m', setWord a v m = .ok () m') ↔ ∃ i, m.slot a = .ok i := by
  unfold setWord
  cases m.slot a <;> simp

/-- A byte is read where its address reaches one. -/
theorem exists_byte_iff : (∃ c, m.byte b = .ok c) ↔ ∃ i, m.byteSlot b = .ok i := by
  unfold byte
  cases m.byteSlot b <;> simp

/-- A byte is stored where its address reaches one. -/
theorem exists_setByte_iff (c : UInt8) :
    (∃ m', setByte b c m = .ok () m') ↔ ∃ i, m.byteSlot b = .ok i := by
  unfold setByte
  cases m.byteSlot b <;> simp

/-- A word at a wrong address is neither read nor stored. -/
theorem word_of_slot_error {e : Failure} (h : m.slot a = .error e) :
    m.word a = .error e ∧ ∀ v, setWord a v m = .error e m :=
  ⟨by rw [word, h], fun v => by rw [setWord, h]⟩

/-- A byte at a wrong address is neither read nor stored. -/
theorem byte_of_byteSlot_error {e : Failure} (h : m.byteSlot b = .error e) :
    m.byte b = .error e ∧ ∀ c, setByte b c m = .error e m :=
  ⟨by rw [byte, h], fun c => by rw [setByte, h]⟩

/-- A word is made of the two bytes from the double of its address on. -/
theorem word_eq_bytes (m : Memory) (a : Int64) {w : Cell} (h : m.word a.toInt = .ok w) :
    ∃ low high, m.byte (wrap (2 * a.toInt)) = .ok low ∧
      m.byte (wrap (2 * a.toInt) + 1) = .ok high ∧
      w.toInt = Int.bmod (low.toNat + 256 * high.toNat) 65536 := by
  obtain ⟨i, hslot⟩ := exists_word_iff.mp ⟨w, h⟩
  obtain ⟨hdouble, hlt⟩ := (m.slot_eq_ok_iff a i).mp hslot
  rw [word, hslot, Except.ok.injEq] at h
  have hlow : m.byte (2 * i : Nat) = .ok w.low := by
    rw [byte_of_lt (by omega), byteAt_two_mul, h]
  have hhigh : m.byte (2 * i + 1 : Nat) = .ok w.high := by
    rw [byte_of_lt (by omega), byteAt_two_mul_add_one, h]
  refine ⟨w.low, w.high, ?_, ?_, ?_⟩
  · rw [hdouble]
    exact hlow
  · rw [hdouble]
    exact hhigh
  · have hvalue : w.toNat = w.low.toNat + 256 * w.high.toNat := by
      have hw := w.isLt
      simp only [Cell.low, Cell.high, UInt8.toNat_ofNat']
      omega
    rw [BitVec.toInt_eq_toNat_bmod, hvalue, Int.natCast_add, Int.natCast_mul]
    rfl

end Accesses

end Memory

namespace Store

variable {m : Memory}

/-- A call keeps the size of the memory. -/
theorem size_perform (c : Store) (m : Memory) : (c.perform.final m).size = m.size := by
  cases c with
  | word a v => exact Memory.sameSize_setWord a.toInt v m
  | byte b v => exact Memory.sameSize_setByte b.toInt v m

/-- After a call a byte holds the value that the call gives it, if it does, and else its old value.
-/
theorem byteAt_perform (c : Store) {j : Nat} (hj : j < 2 * m.size) :
    (c.perform.final m).byteAt j = (c.value? j).getD (m.byteAt j) := by
  cases c with
  | word a v =>
    have hdouble := Memory.wrap_double a
    simp only [perform, Action.final, Memory.setWord, value?]
    cases hslot : m.slot a.toInt with
    | ok i =>
      obtain ⟨hfirst, hlt⟩ := (m.slot_eq_ok_iff a i).mp hslot
      simp only [Action.stateOf_ok, Memory.byteAt_setCell]
      rw [hfirst]
      by_cases hlow : j = 2 * i
      · rw [if_pos (by omega), if_pos (by omega), if_pos (by omega), Option.getD_some]
      · rw [if_neg (show ¬ (2 * (i : Int)) = j by omega)]
        by_cases hhigh : j = 2 * i + 1
        · rw [if_pos (by omega), if_neg (by omega), if_pos (by omega), Option.getD_some]
        · rw [if_neg (by omega), if_neg (by omega), Option.getD_none]
    | error e =>
      -- A call that stores into a byte of the memory reaches its cell.
      have hnowhere (i : Nat) (hi : i < m.size) : wrap (2 * a.toInt) ≠ 2 * i := by
        intro hreach
        rw [(m.slot_eq_ok_iff a i).mpr ⟨hreach, hi⟩] at hslot
        cases hslot
      have hhere := hnowhere (j / 2) (by omega)
      rw [if_neg (by omega), if_neg (by omega), Option.getD_none]
      rfl
  | byte b v =>
    simp only [perform, Action.final, Memory.setByte, value?]
    cases hslot : m.byteSlot b.toInt with
    | ok i =>
      obtain ⟨hb, hlt⟩ := (m.byteSlot_eq_ok_iff _ i).mp hslot
      have hreplace := m.byteAt_setByteAt i j v
      rw [Memory.setByteAt] at hreplace
      simp only [Action.stateOf_ok, hreplace, hb]
      by_cases hij : i = j
      · rw [if_pos ⟨hij, hj⟩, if_pos (by omega), Option.getD_some]
      · rw [if_neg (by omega), if_neg (by omega), Option.getD_none]
    | error e =>
      have hother : b.toInt ≠ j := by
        intro hb
        rw [(m.byteSlot_eq_ok_iff _ j).mpr ⟨hb, hj⟩] at hslot
        cases hslot
      rw [if_neg hother, Option.getD_none]
      rfl

/-- Calls keep the size of the memory. -/
theorem size_performAll (cs : List Store) (m : Memory) : (performAll cs m).size = m.size := by
  induction cs generalizing m with
  | nil => rfl
  | cons c cs ih => exact (ih _).trans (c.size_perform m)

/-- After calls a byte holds the value that a call gave it last, and else its old value. -/
theorem byteAt_performAll (cs : List Store) {j : Nat} (hj : j < 2 * m.size) :
    (performAll cs m).byteAt j = (last? j cs).getD (m.byteAt j) := by
  induction cs generalizing m with
  | nil => rfl
  | cons c cs ih =>
    rw [performAll, ih (by rwa [size_perform]), byteAt_perform c hj, last?]
    cases last? j cs <;> rfl

end Store

namespace Memory

/-- Accesses to the memory, at any address of the host. A word is read and stored exactly at the
addresses inside the memory and their aliases, a byte exactly inside the memory. Every other access
fails and leaves the memory as it is; the failure is a wrong address but at two word addresses and
one byte address, where the end of the access wraps around. After any calls that store, every byte
holds the value that it was given last, and every word is the signed value of its two bytes. -/
theorem accesses_exact (m : Memory) :
    (∀ a : Int64,
      ((∃ w, m.word a.toInt = .ok w) ↔ m.Inside a.toInt ∨ m.Aliased a.toInt) ∧
      (∀ v, (∃ m', setWord a.toInt v m = .ok () m') ↔ m.Inside a.toInt ∨ m.Aliased a.toInt) ∧
      (¬ (m.Inside a.toInt ∨ m.Aliased a.toInt) → ∃ e,
        (m.word a.toInt = .error e ∧ ∀ v, setWord a.toInt v m = .error e m) ∧
          (a.toInt ≠ 0x3fffffffffffffff → a.toInt ≠ -0x4000000000000001 → ∃ n, e = .address n))) ∧
    (∀ b : Int64,
      ((∃ c, m.byte b.toInt = .ok c) ↔ m.InsideBytes b.toInt) ∧
      (∀ c, (∃ m', setByte b.toInt c m = .ok () m') ↔ m.InsideBytes b.toInt) ∧
      (¬ m.InsideBytes b.toInt → ∃ e,
        (m.byte b.toInt = .error e ∧ ∀ c, setByte b.toInt c m = .error e m) ∧
          (b.toInt ≠ 0x7fffffffffffffff → ∃ n, e = .address n))) ∧
    ∀ stores,
      (Store.performAll stores m).size = m.size ∧
      (∀ j < 2 * m.size,
        (Store.performAll stores m).byte j = .ok ((Store.last? j stores).getD (m.byteAt j))) ∧
      ∀ (a : Int64) w, (Store.performAll stores m).word a.toInt = .ok w → ∃ low high,
        (Store.performAll stores m).byte (wrap (2 * a.toInt)) = .ok low ∧
        (Store.performAll stores m).byte (wrap (2 * a.toInt) + 1) = .ok high ∧
        w.toInt = Int.bmod (low.toNat + 256 * high.toNat) 65536 := by
  refine ⟨fun a => ⟨?_, fun v => ?_, fun houtside => ?_⟩,
    fun b => ⟨?_, fun c => ?_, fun houtside => ?_⟩,
    fun stores => ⟨Store.size_performAll stores m, fun j hj => ?_, fun a w => word_eq_bytes _ a⟩⟩
  · rw [exists_word_iff, inside_or_aliased_iff]
  · rw [exists_setWord_iff, inside_or_aliased_iff]
  · obtain ⟨e, hslot, haddress⟩ := m.slot_eq_error houtside
    refine ⟨e, word_of_slot_error hslot, fun hupper hlower => ?_⟩
    obtain ⟨n, -, rfl⟩ := haddress hupper hlower
    exact ⟨n, rfl⟩
  · rw [exists_byte_iff, insideBytes_iff]
  · rw [exists_setByte_iff, insideBytes_iff]
  · obtain ⟨e, hslot, haddress⟩ := m.byteSlot_eq_error houtside
    exact ⟨e, byte_of_byteSlot_error hslot, haddress⟩
  · rw [byte_of_lt (by rwa [Store.size_performAll]), Store.byteAt_performAll stores hj]

/-- In a memory of ten words the word after the last one has no address, and a byte stored over half
of a word is found there, after a call that fails. -/
theorem accesses_exact_ten :
    (∃ n, (blank 10).word 10 = .error (.address n)) ∧
      (Store.performAll [.word 4 0x4142, .byte 9 0x43, .byte 20 0x44] (blank 10)).byte 8 =
        .ok 0x42 ∧
      (Store.performAll [.word 4 0x4142, .byte 9 0x43, .byte 20 0x44] (blank 10)).byte 9 =
        .ok 0x43 := by
  have hsize : (blank 10).size = 10 := size_blank (by decide)
  obtain ⟨hwords, -, hstores⟩ := accesses_exact (blank 10)
  obtain ⟨-, hbytes, -⟩ := hstores [.word 4 0x4142, .byte 9 0x43, .byte 20 0x44]
  have hten : (10 : Int64).toInt = 10 := by decide
  obtain ⟨e, ⟨hword, -⟩, haddress⟩ :=
    (hwords 10).2.2 (by rw [hten, Inside, Aliased, hsize]; decide)
  rw [hten] at hword haddress
  obtain ⟨n, rfl⟩ := haddress (by decide) (by decide)
  exact ⟨⟨n, hword⟩, hbytes 8 (by rw [hsize]; decide), hbytes 9 (by rw [hsize]; decide)⟩

/-- A word stored at the lowest integer of the host, which is no address of the memory, replaces the
first word. -/
theorem lowest_address_reaches_first_word :
    ¬ (blank 10).Inside (-0x8000000000000000) ∧
      setWord (-0x8000000000000000) 7 (blank 10) = .ok () ((blank 10).setCell 0 7) :=
  ⟨fun h => absurd h.1 (by decide), rfl⟩

end Memory

end Intcode
