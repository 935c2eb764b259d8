import Intcode.Memory.PackedString
import Intcode.Proofs.Assembly.Composition
import Intcode.Proofs.Bytes
import Intcode.Proofs.Machine.Steps

/-!
# Packed strings

A packed string is stored in three ways: byte by byte from a text, byte by byte
from an unpacked string, and by assembling its bytes. All three leave the same
words, which depend on the string alone, and touch no other word. Reading and
unpacking give the string back.
-/

namespace Intcode

namespace Text

/-- The words that hold bytes two by two, the first of them in the low half. The half that no
byte is left for is zero. -/
def inWords : Text → List Cell
  | [] => []
  | [c] => [.ofBytes c 0]
  | c :: d :: t => .ofBytes c d :: inWords t

/-- The bytes of a packed string: its length and then its characters. -/
def counted (s : Text) : Text := UInt8.ofNat s.length :: s

/-- The words of a packed string. -/
def packed (s : Text) : List Cell := s.counted.inWords

/-- Every two bytes take a word. -/
theorem length_inWords (t : Text) : t.inWords.length = (t.length + 1) / 2 := by
  fun_induction inWords t with
  | case1 => rfl
  | case2 c => simp only [List.length_cons, List.length_nil]
  | case3 c d t ih =>
    simp only [List.length_cons, ih]
    omega

/-- A word holds the two bytes that stand at its place. -/
theorem getD_inWords (t : Text) (k : Nat) :
    t.inWords.getD k 0 = .ofBytes (t.getD (2 * k) 0) (t.getD (2 * k + 1) 0) := by
  fun_induction inWords t generalizing k with
  | case1 => rfl
  | case2 c => cases k <;> rfl
  | case3 c d t ih =>
    cases k with
    | zero => rfl
    | succ k =>
      have htwice : 2 * (k + 1) = 2 * k + 1 + 1 := by omega
      rw [List.getD_cons_succ, ih, htwice]
      simp only [List.getD_cons_succ]

/-- Bytes that are put one to a word keep their places. -/
theorem getD_map_ofByte (t : Text) (k : Nat) :
    (t.map Cell.ofByte).getD k 0 = .ofByte (t.getD k 0) := by
  rw [List.getD_eq_getElem?_getD, List.getD_eq_getElem?_getD, List.getElem?_map]
  cases t[k]? <;> rfl

/-- A packed string takes a word more than half as many as it has characters. -/
@[simp] theorem length_packed (s : Text) : s.packed.length = s.length / 2 + 1 := by
  rw [packed, length_inWords, counted, List.length_cons]
  omega

/-- The first byte of a packed string is the number of the others. -/
theorem toNat_length {s : Text} (hs : s.length ≤ 255) :
    (UInt8.ofNat s.length).toNat = s.length := by
  rw [UInt8.toNat_ofNat']
  omega

end Text

namespace Memory

variable {m : Memory} {p : Nat} {s : Text}

/-- Sixty-four bits hold the address of every word inside the memory. -/
theorem wrap_word {a k : Nat} (h : a + k < m.size) : wrap ((a : Int) + k) = (a + k : Nat) := by
  have hsize : m.size ≤ 0x800000000000 := m.fits
  rw [← Int.natCast_add, wrap_of_lt (by omega) (by omega)]

/-- Sixty-four bits hold the address of every byte inside the memory. -/
theorem wrap_byte {a k : Nat} (h : 2 * a + k < 2 * m.size) :
    wrap (2 * (a : Int) + k) = (2 * a + k : Nat) := by
  have hsize : m.size ≤ 0x800000000000 := m.fits
  have hcast : 2 * (a : Int) + k = (2 * a + k : Nat) := by omega
  rw [hcast, wrap_of_lt (by omega) (by omega)]

/-- Sixty-four bits hold the address of the first byte of every word inside the memory. -/
theorem wrap_two_mul {a : Nat} (h : a < m.size) : wrap (2 * (a : Int)) = (2 * a : Nat) :=
  wrap_byte (k := 0) (m := m) (by omega)

/-- Words that hold bytes are these bytes in their places, with a zero for the half that no byte is
left for. -/
theorem byteAt_storeWords {t : Text} (h : p + (t.length + 1) / 2 ≤ m.size) (j : Nat) :
    (m.storeWords p t.inWords).byteAt j =
      if 2 * p ≤ j ∧ j < 2 * (p + (t.length + 1) / 2) then t.getD (j - 2 * p) 0
      else m.byteAt j := by
  have hfits : p + t.inWords.length ≤ m.size := by rwa [t.length_inWords]
  have hcell := cellAt_storeWords hfits (j / 2)
  rw [t.length_inWords] at hcell
  rw [byteAt, hcell]
  by_cases hthere : 2 * p ≤ j ∧ j < 2 * (p + (t.length + 1) / 2)
  · have hword : p ≤ j / 2 ∧ j / 2 < p + (t.length + 1) / 2 := by omega
    rw [if_pos hthere, if_pos hword, Text.getD_inWords, Cell.low_ofBytes, Cell.high_ofBytes]
    by_cases heven : j % 2 = 0
    · have hplace : 2 * (j / 2 - p) = j - 2 * p := by omega
      rw [if_pos heven, hplace]
    · have hplace : 2 * (j / 2 - p) + 1 = j - 2 * p := by omega
      rw [if_neg heven, hplace]
  · have hword : ¬ (p ≤ j / 2 ∧ j / 2 < p + (t.length + 1) / 2) := by omega
    rw [if_neg hthere, if_neg hword, byteAt]

/-- Clearing the last word and then storing the bytes of a packed string stores its words. -/
theorem storeBytes_counted (h : p + s.length / 2 < m.size) :
    (m.setCell (p + s.length / 2) 0).storeBytes (2 * p) s.counted = m.storeWords p s.packed := by
  have hlength : s.counted.length = s.length + 1 := rfl
  apply ext_byteAt
  · rw [size_storeBytes, size_setCell, size_storeWords]
  · intro j
    rw [Text.packed, byteAt_storeWords (by omega),
      byteAt_storeBytes (by rw [size_setCell]; omega), byteAt_setCell, hlength]
    by_cases hbyte : 2 * p ≤ j ∧ j < 2 * p + (s.length + 1)
    · rw [if_pos hbyte, if_pos (by omega)]
    · rw [if_neg hbyte]
      -- Only the spare half of the last word is left.
      by_cases hspare : p + s.length / 2 = j / 2 ∧ j / 2 < m.size
      · have hbeyond : s.counted[j - 2 * p]? = none := List.getElem?_eq_none (by omega)
        have hlast : 2 * p ≤ j ∧ j < 2 * (p + (s.length + 1 + 1) / 2) := by omega
        rw [if_pos hspare, if_pos hlast, List.getD_eq_getElem?_getD, hbeyond]
        split <;> rfl
      · rw [if_neg hspare, if_neg (by omega)]

/-- A text of at most 255 bytes is stored as the words of a packed string. -/
theorem setString_eq (hs : s.length ≤ 255) (h : p + s.length / 2 < m.size) :
    setString p s m = .ok () (m.storeWords p s.packed) := by
  have hsecond : ((2 * p : Nat) : Int) + 1 = (2 * p + 1 : Nat) := by omega
  rw [setString, List.take_of_length_le hs]
  dsimp only
  rw [wrap_word h, wrap_two_mul (m := m) (by omega), hsecond, Action.bind_apply,
    setWord_of_lt (Int.natCast_nonneg _) (by omega), Int.toNat_natCast]
  dsimp only
  rw [Action.bind_apply, setByte_eq (by rw [size_setCell]; omega)]
  dsimp only
  rw [setBytes_eq (by rw [size_setByteAt, size_setCell]; omega)]
  exact congrArg _ (storeBytes_counted h)

/-- A packed string whose characters are all inside the memory. -/
theorem string_eq {n : Nat} (hcount : (m.byteAt (2 * p)).toNat = n)
    (hfits : 2 * p + 1 + n ≤ 2 * m.size) :
    m.string p = .ok ((List.range n).map fun k => m.byteAt (2 * p + 1 + k)) := by
  have hinside : ((2 * p : Nat) : Int) + 1 + n ≤ 2 * m.size := by omega
  have hbyte : m.byte (2 * p : Nat) = .ok (m.byteAt (2 * p)) := byte_of_lt (by omega)
  unfold string
  rw [wrap_two_mul (m := m) (by omega)]
  dsimp only
  rw [hbyte]
  generalize m.byteAt (2 * p) = c at hcount ⊢
  subst hcount
  change (if _ then _ else _) = _
  rw [if_pos hinside]
  rfl

/-- A packed string is in the memory: the byte with its length and its characters follow each other
from a word address on. -/
def HoldsPacked (m : Memory) (p : Nat) (s : Text) : Prop :=
  ∀ k ≤ s.length, m.byteAt (2 * p + k) = s.counted.getD k 0

/-- An unpacked string is in the memory: the low halves of the words from an address on are its
length and its characters. -/
def HoldsUnpacked (m : Memory) (v : Nat) (s : Text) : Prop :=
  ∀ k ≤ s.length, (m.cellAt (v + k)).low = s.counted.getD k 0

/-- The words of a packed string hold it. -/
theorem holdsPacked_storeWords (h : p + s.length / 2 < m.size) :
    (m.storeWords p s.packed).HoldsPacked p s := by
  intro k hk
  have hlength : s.counted.length = s.length + 1 := rfl
  have hthere : 2 * p ≤ 2 * p + k ∧ 2 * p + k < 2 * (p + (s.counted.length + 1) / 2) := by omega
  rw [Text.packed, byteAt_storeWords (by omega), if_pos hthere, Nat.add_sub_cancel_left]

/-- The length of a packed string is in its first byte. -/
theorem HoldsPacked.toNat_byteAt (hm : m.HoldsPacked p s) (hs : s.length ≤ 255) :
    (m.byteAt (2 * p)).toNat = s.length := by
  have hfirst := hm 0 (Nat.zero_le _)
  rw [Nat.add_zero] at hfirst
  rw [hfirst, Text.counted, List.getD_cons_zero, Text.toNat_length hs]

/-- A packed string reads as its characters. -/
theorem HoldsPacked.string_eq_ok (hm : m.HoldsPacked p s) (hs : s.length ≤ 255)
    (h : p + s.length / 2 < m.size) : m.string p = .ok s := by
  rw [string_eq (hm.toNat_byteAt hs) (by omega)]
  congr 1
  apply List.ext_getElem
  · rw [List.length_map, List.length_range]
  · intro k hk hk'
    rw [List.getElem_map, List.getElem_range, Nat.add_assoc, Nat.add_comm 1, hm _ (by omega),
      Text.counted, List.getD_cons_succ, List.getD_eq_getElem?_getD, List.getElem?_eq_getElem hk',
      Option.getD_some]

/-- The length of an unpacked string is in its first word. -/
theorem HoldsUnpacked.toNat_low {v : Nat} (hm : m.HoldsUnpacked v s) (hs : s.length ≤ 255) :
    (m.cellAt v).low.toNat = s.length := by
  have hfirst := hm 0 (Nat.zero_le _)
  rw [Nat.add_zero] at hfirst
  rw [hfirst, Text.counted, List.getD_cons_zero, Text.toNat_length hs]

/-- The memory in which the last word of a packed string is cleared and some of its bytes are
stored. -/
def packedUpTo (m : Memory) (p : Nat) (s : Text) (i : Nat) : Memory :=
  (m.setCell (p + s.length / 2) 0).storeBytes (2 * p) (s.counted.take i)

/-- A round of packing stores one more byte. It finds the unpacked string as it was, because the
bytes stored before are all outside it. -/
theorem pack_round {v i : Nat} (hm : m.HoldsUnpacked v s) (h : p + s.length / 2 < m.size)
    (hv : v + s.length < m.size) (hapart : v + s.length < p ∨ p + s.length / 2 < v)
    (hi : i < s.length + 1) :
    (do let c ← Action.read (·.word (wrap ((v : Int) + i)))
        setByte (wrap (2 * (p : Int) + i)) c.low : Action Memory Unit) (m.packedUpTo p s i) =
      .ok () (m.packedUpTo p s (i + 1)) := by
  have hlength : s.counted.length = s.length + 1 := rfl
  have htake : (s.counted.take i).length = i := List.length_take_of_le (by omega)
  have hsize : (m.packedUpTo p s i).size = m.size := by
    rw [packedUpTo, size_storeBytes, size_setCell]
  have hlow : ((m.packedUpTo p s i).cellAt (v + i)).low = s.counted.getD i 0 := by
    rw [← hm i (by omega), ← byteAt_two_mul, ← byteAt_two_mul, packedUpTo,
      byteAt_storeBytes (by rw [size_setCell, htake]; omega), htake, byteAt_setCell,
      if_neg (by omega), if_neg (by omega)]
  have hread : (m.packedUpTo p s i).word (v + i : Nat) =
      .ok ((m.packedUpTo p s i).cellAt (v + i)) := by
    rw [word_of_lt (Int.natCast_nonneg _) (by omega), Int.toNat_natCast]
  rw [wrap_word (m := m) (by omega), wrap_byte (m := m) (by omega),
    Action.read_bind_apply (f := fun m : Memory => m.word (v + i : Nat)) hread, hlow,
    setByte_eq (by omega), packedUpTo, packedUpTo, storeBytes_take_succ _ _ (by omega)]

/-- Packing an unpacked string stores the words of the packed one, wherever the unpacked one is
outside these words. -/
theorem pack_eq {v : Nat} (hm : m.HoldsUnpacked v s) (hs : s.length ≤ 255)
    (h : p + s.length / 2 < m.size) (hv : v + s.length < m.size)
    (hapart : v + s.length < p ∨ p + s.length / 2 < v) :
    pack v p m = .ok (Cell.ofNat (s.length / 2)) (m.storeWords p s.packed) := by
  have hall : m.packedUpTo p s (s.length + 1) = m.storeWords p s.packed := by
    have htake : s.counted.take (s.length + 1) = s.counted := s.counted.take_length
    rw [packedUpTo, htake, storeBytes_counted h]
  have hloop := Action.forM_range (m.packedUpTo p s)
    fun i hi => pack_round hm h hv hapart hi
  rw [hall] at hloop
  have hread : m.word v = .ok (m.cellAt v) := by
    rw [word_of_lt (Int.natCast_nonneg _) (by omega), Int.toNat_natCast]
  have hclear : setWord ((p + s.length / 2 : Nat) : Int) 0 m = .ok () (m.packedUpTo p s 0) := by
    rw [setWord_of_lt (Int.natCast_nonneg _) (by omega), Int.toNat_natCast]
    rfl
  rw [pack, Action.read_bind_apply (f := fun m : Memory => m.word v) hread, hm.toNat_low hs,
    wrap_word h, Action.bind_apply, hclear]
  dsimp only
  rw [Action.bind_apply, hloop]
  rfl

/-- Bytes outside the words that are stored keep their values. -/
theorem byteAt_storeWords_of_outside {a j : Nat} {ws : List Cell} (hfits : a + ws.length ≤ m.size)
    (h : j / 2 < a ∨ a + ws.length ≤ j / 2) : (m.storeWords a ws).byteAt j = m.byteAt j := by
  have houtside : ¬ (a ≤ j / 2 ∧ j / 2 < a + ws.length) := by omega
  rw [byteAt, byteAt, cellAt_storeWords hfits, if_neg houtside]

/-- A round of unpacking stores one more word. It finds the packed string as it was, because the
words stored before are all outside it. -/
theorem unpack_round {u i : Nat} (hm : m.HoldsPacked p s) (h : p + s.length / 2 < m.size)
    (hu : u + s.length < m.size) (hapart : u + s.length < p ∨ p + s.length / 2 < u)
    (hi : i < s.length + 1) :
    (do let c ← Action.read (·.byte (wrap (2 * (p : Int) + i)))
        setWord (wrap ((u : Int) + i)) (.ofByte c) : Action Memory Unit)
        (m.storeWords u ((s.counted.map Cell.ofByte).take i)) =
      .ok () (m.storeWords u ((s.counted.map Cell.ofByte).take (i + 1))) := by
  have hlength : (s.counted.map Cell.ofByte).length = s.length + 1 := List.length_map ..
  have htake : ((s.counted.map Cell.ofByte).take i).length = i :=
    List.length_take_of_le (by omega)
  have hbyte : (m.storeWords u ((s.counted.map Cell.ofByte).take i)).byte (2 * p + i : Nat) =
      .ok (s.counted.getD i 0) := by
    rw [byte_of_lt (by rw [size_storeWords]; omega),
      byteAt_storeWords_of_outside (by rw [htake]; omega) (by rw [htake]; omega), hm i (by omega)]
  rw [wrap_word (m := m) (by omega), wrap_byte (m := m) (by omega),
    Action.read_bind_apply (f := fun m : Memory => m.byte (2 * p + i : Nat)) hbyte,
    setWord_of_lt (Int.natCast_nonneg _) (by rw [size_storeWords]; omega), Int.toNat_natCast,
    storeWords_take_succ _ _ (by omega), Text.getD_map_ofByte]

/-- Unpacking a packed string stores its length and its characters one to a word, wherever these
words are outside the packed string. -/
theorem unpack_eq {u : Nat} (hm : m.HoldsPacked p s) (hs : s.length ≤ 255)
    (h : p + s.length / 2 < m.size) (hu : u + s.length < m.size)
    (hapart : u + s.length < p ∨ p + s.length / 2 < u) :
    unpack p u m = .ok () (m.storeWords u (s.counted.map Cell.ofByte)) := by
  have hlength : (s.counted.map Cell.ofByte).length = s.length + 1 := List.length_map ..
  have hloop := Action.forM_range
    (fun i => m.storeWords u ((s.counted.map Cell.ofByte).take i))
    fun i hi => unpack_round hm h hu hapart hi
  rw [List.take_of_length_le (Nat.le_of_eq hlength)] at hloop
  have hbyte : m.byte (2 * p : Nat) = .ok (m.byteAt (2 * p)) := byte_of_lt (by omega)
  rw [unpack, wrap_two_mul (m := m) (by omega),
    Action.read_bind_apply (f := fun m : Memory => m.byte (2 * p : Nat)) hbyte, hm.toNat_byteAt hs]
  exact hloop

/-- The half of the last word that an even number of characters leaves over is zero. -/
theorem high_storeWords (h : p + s.length / 2 < m.size) (heven : s.length % 2 = 0) :
    ((m.storeWords p s.packed).cellAt (p + s.length / 2)).high = 0 := by
  have hlength : s.counted.length = s.length + 1 := rfl
  have hthere : 2 * p ≤ 2 * (p + s.length / 2) + 1 ∧
      2 * (p + s.length / 2) + 1 < 2 * (p + (s.counted.length + 1) / 2) := by omega
  have hbeyond : s.counted[2 * (p + s.length / 2) + 1 - 2 * p]? = none :=
    List.getElem?_eq_none (by omega)
  rw [← byteAt_two_mul_add_one, Text.packed, byteAt_storeWords (by omega), if_pos hthere,
    List.getD_eq_getElem?_getD, hbeyond]
  rfl

/-- Only the words of a packed string change when it is stored. -/
theorem cellAt_storeWords_packed (h : p + s.length / 2 < m.size) {i : Nat}
    (hi : i < p ∨ p + s.length / 2 < i) : (m.storeWords p s.packed).cellAt i = m.cellAt i := by
  rw [cellAt_storeWords (by rw [Text.length_packed]; omega), Text.length_packed, if_neg (by omega)]

/-- A word is not stored at an address beyond the end of the memory. -/
theorem setWord_of_beyond {a : Nat} (hbeyond : m.size ≤ a) (hlt : a < 0x3fffffffffffffff)
    (v : Cell) :
    setWord a v m = .error (.address a) m := by
  have houtside : ¬ ((0 : Int) ≤ a ∧ (a : Int) < m.size) := by omega
  rw [setWord, slot_of_near m (by omega) (by omega), if_neg houtside]

/-- Characters beyond the 255th are dropped. -/
theorem setString_take (a : Int) (t : Text) : setString a (t.take 255) = setString a t := by
  rw [setString, setString, List.take_take, Nat.min_self]

/-- A text for which there is no memory is not stored at all, because the last word comes first. -/
theorem setString_of_beyond {t : Text} (hp : p < 0x10000)
    (hbeyond : m.size ≤ p + (t.take 255).length / 2) :
    setString p t m = .error (.address (p + (t.take 255).length / 2 : Nat)) m := by
  have hlength : (t.take 255).length ≤ 255 := List.length_take_le 255 t
  have hlast : wrap ((p : Int) + ((t.take 255).length / 2 : Nat)) =
      (p + (t.take 255).length / 2 : Nat) := by
    rw [← Int.natCast_add, wrap_of_lt (by omega) (by omega)]
  rw [setString]
  dsimp only
  rw [hlast, Action.bind_apply, setWord_of_beyond hbeyond (by omega)]

end Memory

/-- A string is stored completely or not at all. If its last word, the one with its 255th character
if it is longer, is outside the memory, then the address error of that word is raised and the
machine is as before. Otherwise the string is stored: it reads as its first 255 characters, a half
of the last word that none of them takes is zero, and no other word is changed. -/
theorem Machine.setString_all_or_nothing (m : Machine) (c : Cell) (t : Text) :
    let last := c.toNat + min t.length 255 / 2
    if last < m.memory.size then
      ∃ memory, onMemory (Memory.setString c.address t) m = .ok () { m with memory } ∧
        memory.string c.address = .ok (t.take 255) ∧
        (min t.length 255 % 2 = 0 → (memory.cellAt last).high = 0) ∧
        memory.size = m.memory.size ∧
        ∀ i, i < c.toNat ∨ last < i → memory.cellAt i = m.memory.cellAt i
    else onMemory (Memory.setString c.address t) m = .error (.address last) m := by
  have haddress : c.address = (c.toNat : Nat) := rfl
  have hlength : (t.take 255).length = min t.length 255 := by
    rw [List.length_take, Nat.min_comm]
  have hshort : (t.take 255).length ≤ 255 := List.length_take_le 255 t
  rw [← hlength, haddress]
  intro last
  by_cases hlast : last < m.memory.size
  · rw [if_pos hlast]
    refine ⟨m.memory.storeWords c.toNat (Text.packed (t.take 255)), ?_, ?_, ?_, ?_, ?_⟩
    · rw [← Memory.setString_take, onMemory_apply, Memory.setString_eq hshort hlast]
    · exact (Memory.holdsPacked_storeWords hlast).string_eq_ok hshort
        (by rw [Memory.size_storeWords]; exact hlast)
    · exact Memory.high_storeWords hlast
    · exact Memory.size_storeWords ..
    · exact fun i hi => Memory.cellAt_storeWords_packed hlast hi
  · rw [if_neg hlast, onMemory_apply,
      Memory.setString_of_beyond c.isLt (Nat.le_of_not_lt hlast)]

namespace Text

/-- The directives that assemble to a packed string. -/
def byteDirectives (s : Text) : List Directive := s.counted.map fun c => .byte (.ofByte c)

/-- The assembly text of a packed string: a number for its length and one for each character, with
spaces between them. -/
def byteCode (s : Text) : Text := [space].intercalate (s.byteDirectives.map Directive.render)

/-- The assembly text of a packed string is read as its directives. -/
theorem parseAll_byteCode (s : Text) :
    Directive.parseAll s.byteCode.significant = s.byteDirectives := by
  have hwritten : ∀ d ∈ s.byteDirectives, Directive.Written d d.render := by
    intro d hd
    obtain ⟨c, -, rfl⟩ := List.mem_map.mp hd
    exact .byte (Cell.isNumeral_decimal _)
  exact Directive.parseAll_joined hwritten

end Text

namespace Assembler

/-- The first of two bytes starts a new word. -/
theorem emit_firstByte {a : Assembler} (hnonneg : 0 ≤ a.lomem) (hpacking : a.packing = false)
    (hroom : a.HasRoom) (c : UInt8) :
    emit (.byte (.ofByte c)) a = .ok () { a.push (.ofByte c) with packing := true } := by
  have hplaced : a.Placed := ⟨hnonneg, by simp [hpacking]⟩
  have hstep := Step.firstByte (v := .ofByte c) hpacking hroom
  rw [Cell.ofByte, Cell.low_ofBytes, ← Cell.ofByte] at hstep
  exact (emit_eq_ok_iff hplaced).mpr hstep

/-- The second of two bytes completes the word. -/
theorem emit_secondByte {a : Assembler} (hnonneg : 0 ≤ a.lomem) (hroom : a.HasRoom) (c d : UInt8) :
    emit (.byte (.ofByte d)) { a.push (.ofByte c) with packing := true } =
      .ok () (a.push (.ofBytes c d)) := by
  have hlt := hroom.lt_size
  have hlast : a.lomem + 1 - 1 = a.lomem := by omega
  have hplaced : Placed { a.push (.ofByte c) with packing := true } := by
    refine ⟨push_lomem_nonneg hnonneg (.ofByte c), fun _ => ?_⟩
    simp only [push, Memory.size_setCell]
    omega
  have hstep := Step.secondByte (s := { a.push (.ofByte c) with packing := true })
    (v := .ofByte d) rfl
  have hsame : packHigh { a.push (.ofByte c) with packing := true } (Cell.ofByte d).low =
      a.push (.ofBytes c d) := by
    have hinside : a.lomem.toNat < a.memory.size := by omega
    simp only [packHigh, push, hlast, Memory.cellAt_setCell_self hinside, Cell.ofByte,
      Cell.low_ofBytes, Memory.setCell_setCell]
  rw [hsame] at hstep
  exact (emit_eq_ok_iff hplaced).mpr hstep

/-- Bytes are packed two by two into new words. -/
theorem emitAll_bytes {a : Assembler} {t : Text} (hnonneg : 0 ≤ a.lomem)
    (hpacking : a.packing = false)
    (hroom : a.lomem + ((t.length + 1) / 2 : Nat) + labelCount ≤ a.memory.size) :
    ∃ a', emitAll (t.map fun c => .byte (.ofByte c)) a = .ok () a' ∧
      a'.memory = a.memory.storeWords a.lomem.toNat t.inWords ∧
      a'.lomem = a.lomem + ((t.length + 1) / 2 : Nat) := by
  fun_induction Text.inWords t generalizing a with
  | case1 => exact ⟨a, rfl, rfl, (Int.add_zero _).symm⟩
  | case2 c =>
    have hfirst : a.HasRoom := by
      simp only [List.length_singleton] at hroom
      unfold HasRoom
      omega
    have hwords : ([c].length + 1) / 2 = 1 := by simp only [List.length_singleton]
    refine ⟨{ a.push (.ofByte c) with packing := true }, ?_, rfl, by rw [hwords]; rfl⟩
    simp only [List.map_cons, List.map_nil, emitAll, Action.bind_apply,
      emit_firstByte hnonneg hpacking hfirst]
    rfl
  | case3 c d t ih =>
    simp only [List.length_cons] at hroom
    have hfirst : a.HasRoom := by
      unfold HasRoom
      omega
    have hnext : (a.push (.ofBytes c d)).lomem = a.lomem + 1 := rfl
    obtain ⟨a', hrun, hmemory, hlomem⟩ := @ih (a.push (.ofBytes c d))
      (push_lomem_nonneg hnonneg _) rfl (by rw [hnext, push, Memory.size_setCell]; omega)
    refine ⟨a', ?_, ?_, ?_⟩
    · simp only [List.map_cons, emitAll, Action.bind_apply,
        emit_firstByte hnonneg hpacking hfirst, emit_secondByte hnonneg hfirst]
      exact hrun
    · have hplace : (a.lomem + 1).toNat = a.lomem.toNat + 1 := by omega
      rw [hmemory, hnext, hplace]
      rfl
    · rw [hlomem, hnext]
      simp only [List.length_cons]
      omega

/-- A text that reads as the directives of a packed string assembles to its words. -/
theorem assemble_byteDirectives {a : Assembler} {p : Nat} {s t : Text} (hlomem : a.lomem = p)
    (hroom : p + s.length / 2 + labelCount < a.memory.size)
    (ht : Directive.parseAll t.significant = s.byteDirectives) :
    ∃ a', assemble t none a = .ok () a' ∧ a'.memory = a.memory.storeWords p s.packed ∧
      a'.lomem = (p + s.length / 2 + 1 : Nat) := by
  have hlength : s.counted.length = s.length + 1 := rfl
  have hstart : a.fresh.lomem = p := hlomem
  have hsize : a.fresh.memory.size = a.memory.size := rfl
  obtain ⟨a', hrun, hmemory, hend⟩ := emitAll_bytes (a := a.fresh) (t := s.counted) (by omega) rfl
    (by omega)
  refine ⟨a', ?_, ?_, ?_⟩
  · apply (assemble_eq_ok_iff ..).mpr
    rw [ht]
    exact ⟨rfl, hrun⟩
  · rw [hmemory, hstart, Int.toNat_natCast]
    rfl
  · rw [hend]
    omega

end Assembler

/-- All ways to store and to read a packed string agree. Storing a text of at most 255 bytes,
packing an unpacked string with these characters from anywhere outside, and assembling their numbers
leave the same words, which the text alone determines, in the same places and change nothing else.
Then the packed string reads as the text, and unpacking it to anywhere outside stores its length and
its characters one to a word. -/
theorem Memory.packed_strings_agree {m : Memory} {p : Nat} {s : Text} (hs : s.length ≤ 255)
    (hp : p + s.length / 2 < m.size) :
    let packed := m.storeWords p s.packed
    setString p s m = .ok () packed ∧
      (∀ v, v + s.length < m.size → v + s.length < p ∨ p + s.length / 2 < v →
        m.HoldsUnpacked v s → pack v p m = .ok (Cell.ofNat (s.length / 2)) packed) ∧
      (∀ (a : Assembler) (t : Text), a.memory = m → a.lomem = p →
        p + s.length / 2 + labelCount < m.size →
        t = s.byteCode ∨ Directive.parseAll t.significant = s.byteDirectives →
        ∃ a', Assembler.assemble t none a = .ok () a' ∧ a'.memory = packed ∧
          a'.lomem = (p + s.length / 2 + 1 : Nat)) ∧
      packed.size = m.size ∧
      (∀ i, i < p ∨ p + s.length / 2 < i → packed.cellAt i = m.cellAt i) ∧
      packed.string p = .ok s ∧
      ∀ u, u + s.length < m.size → u + s.length < p ∨ p + s.length / 2 < u →
        ∃ unpacked, unpack p u packed = .ok () unpacked ∧ unpacked.size = m.size ∧
          (∀ k ≤ s.length, unpacked.cellAt (u + k) = .ofByte (s.counted.getD k 0)) ∧
          ∀ i, i < u ∨ u + s.length < i → unpacked.cellAt i = packed.cellAt i := by
  intro packed
  have hholds : packed.HoldsPacked p s := holdsPacked_storeWords hp
  have hsize : packed.size = m.size := size_storeWords ..
  refine ⟨setString_eq hs hp, ?_, ?_, hsize, ?_, ?_, ?_⟩
  · intro v hv hapart hunpacked
    exact pack_eq hunpacked hs hp hv hapart
  · rintro a t rfl hlomem hroom (rfl | ht)
    · exact Assembler.assemble_byteDirectives hlomem hroom s.parseAll_byteCode
    · exact Assembler.assemble_byteDirectives hlomem hroom ht
  · exact fun i hi => cellAt_storeWords_packed hp hi
  · exact hholds.string_eq_ok hs (hsize.symm ▸ hp)
  · intro u hu hapart
    have hlength : (s.counted.map Cell.ofByte).length = s.length + 1 := List.length_map ..
    have hfits : u + (s.counted.map Cell.ofByte).length ≤ packed.size := by omega
    have hcell := cellAt_storeWords hfits
    refine ⟨_, unpack_eq hholds hs (by omega) (by omega) hapart, ?_, ?_, ?_⟩
    · rw [size_storeWords, hsize]
    · intro k hk
      rw [hcell, if_pos (by omega), Nat.add_sub_cancel_left, Text.getD_map_ofByte]
    · intro i hi
      rw [hcell, if_neg (by omega)]

/-- An unpacked string of two characters, in words whose high halves are taken. -/
def Memory.pairUnpacked : Memory := (Memory.blank 1000).storeWords 600 [0x0702, 0x0141, 0xff42]

/-- The two characters take a word and a half. -/
theorem Memory.packed_strings_agree_pair :
    let s := Text.ofAscii "AB"
    let start : Assembler := { memory := pairUnpacked, lomem := (402 : Nat) }
    s.length ≤ 255 ∧ 402 + s.length / 2 < pairUnpacked.size ∧ pairUnpacked.HoldsUnpacked 600 s ∧
      ∃ packed, setString (402 : Nat) s pairUnpacked = .ok () packed ∧
        pack (600 : Nat) (402 : Nat) pairUnpacked = .ok (Cell.ofNat 1) packed ∧
        (∃ a', Assembler.assemble (Text.ofAscii "C2 C65 C66") none start = .ok () a' ∧
          a'.memory = packed ∧ a'.lomem = (404 : Nat)) ∧
        packed.string (402 : Nat) = .ok s ∧
        ∃ unpacked, unpack (402 : Nat) (398 : Nat) packed = .ok () unpacked ∧
          unpacked.cellAt 398 = .ofByte 2 ∧ unpacked.cellAt 400 = .ofByte 66 := by
  intro s start
  have hlength : s.length = 2 := by decide
  have hsize : pairUnpacked.size = 1000 := by
    rw [pairUnpacked, size_storeWords, size_blank (by decide)]
  have hshort : s.length ≤ 255 := by omega
  have hroom : 402 + s.length / 2 < pairUnpacked.size := by omega
  have hholds : pairUnpacked.HoldsUnpacked 600 s := by
    intro k hk
    have hcases : k = 0 ∨ k = 1 ∨ k = 2 := by omega
    rcases hcases with rfl | rfl | rfl <;> decide +kernel
  have hcode : Text.ofAscii "C2 C65 C66" = s.byteCode := by decide +kernel
  have hlabels : 402 + s.length / 2 + labelCount < pairUnpacked.size := by
    rw [hlength, hsize]
    decide
  obtain ⟨hset, hpack, hassemble, -, -, hstring, hunpack⟩ := packed_strings_agree hshort hroom
  have hpacked := hpack 600 (by omega) (by omega) hholds
  have hassembled := hassemble start _ rfl rfl hlabels (.inl hcode)
  rw [hlength] at hpacked hassembled
  obtain ⟨unpacked, hrun, -, hwords, -⟩ := hunpack 398 (by omega) (by omega)
  exact ⟨hshort, hroom, hholds, _, hset, hpacked, hassembled, hstring, unpacked, hrun,
    hwords 0 (by omega), hwords 2 (by omega)⟩

end Intcode
