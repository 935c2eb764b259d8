import Intcode.Proofs.Machine.Accesses
import Intcode.Proofs.Machine.Formatter
import Intcode.Proofs.Machine.Steps
import Intcode.Proofs.Numerals
import Intcode.Proofs.Streams.Remaining

/-!
# One number from the input

Each text has one number at its front: blanks, a sign or none, digits, and what follows
them. Reading a number takes these parts and one more character, wherever the
input ends.

Main statement: reading gives the value of the digits modulo the size of a cell, and it
undoes writing in decimal, whatever the width.
-/

namespace Intcode

/-- A byte as a cell keeps its value. -/
@[simp] theorem Cell.toNat_ofByte (c : UInt8) : (ofByte c).toNat = c.toNat := by
  have hlt := c.toNat_lt
  have hzero : (0 : UInt8).toNat = 0 := rfl
  rw [ofByte, ofBytes, Cell.ofNat, BitVec.toNat_ofNat, hzero]
  omega

/-- Bytes are different as cells, too. -/
theorem Cell.ofByte_inj {c d : UInt8} : ofByte c = ofByte d ↔ c = d := by
  constructor
  · intro h
    apply UInt8.toNat_inj.mp
    rw [← toNat_ofByte c, ← toNat_ofByte d, h]
  · exact congrArg ofByte

namespace Text

/-- The bytes that may stand before a number: space, tab, line feed and carriage return. -/
def blanks : Text := [32, 9, 10, 13]

/-- The parts of a text with a number at its front. Each part goes as far as it can. -/
structure NumberAt (t blank sign digits rest : Text) : Prop where
  parts : t = blank ++ sign ++ digits ++ rest
  isBlank : ∀ c ∈ blank, c ∈ blanks
  isSign : sign = [] ∨ sign = [byte '+'] ∨ sign = [byte '-']
  isDigit : ∀ c ∈ digits, Text.isDigit c = true
  blank_ends : ∀ c ∈ (sign ++ digits ++ rest).head?, c ∉ blanks
  sign_ends : sign = [] → ∀ c ∈ (digits ++ rest).head?, c ≠ byte '+' ∧ c ≠ byte '-'
  digits_end : ∀ c ∈ rest.head?, Text.isDigit c = false

/-- What is left of a text after bytes of a class does not start with one. -/
theorem head?_dropWhile {isMember : UInt8 → Bool} {t : Text} :
    ∀ c ∈ (t.dropWhile isMember).head?, isMember c = false := by
  intro c hc
  have hnot := List.head?_dropWhile_not isMember t
  rw [Option.mem_def.mp hc] at hnot
  exact hnot

/-- Every text has a number at its front. -/
theorem exists_numberAt (t : Text) :
    ∃ blank sign digits rest, NumberAt t blank sign digits rest := by
  have hblank (c : UInt8) (hc : c ∈ t.takeWhile (blanks.contains ·)) : c ∈ blanks :=
    List.contains_iff_mem.mp (List.all_eq_true.mp List.all_takeWhile c hc)
  have hends : ∀ c ∈ (t.dropWhile (blanks.contains ·)).head?, c ∉ blanks := by
    intro c hc hmember
    have hnot := head?_dropWhile c hc
    rw [List.contains_iff_mem.mpr hmember] at hnot
    cases hnot
  have hparts : t.takeWhile (blanks.contains ·) ++ t.dropWhile (blanks.contains ·) = t :=
    List.takeWhile_append_dropWhile
  generalize t.takeWhile (blanks.contains ·) = blank at hblank hparts
  generalize t.dropWhile (blanks.contains ·) = u at hends hparts
  have hdigit (v : Text) (c : UInt8) (hc : c ∈ v.takeWhile Text.isDigit) : Text.isDigit c = true :=
    List.all_eq_true.mp List.all_takeWhile c hc
  by_cases hsign : ∃ c v, u = c :: v ∧ (c = byte '+' ∨ c = byte '-')
  · obtain ⟨c, v, rfl, hc⟩ := hsign
    have hnumber : [c] ++ v.takeWhile Text.isDigit ++ v.dropWhile Text.isDigit = c :: v := by
      rw [List.append_assoc, List.takeWhile_append_dropWhile]
      rfl
    refine ⟨blank, [c], v.takeWhile Text.isDigit, v.dropWhile Text.isDigit, ?_, hblank, ?_,
      hdigit v, ?_, ?_, head?_dropWhile⟩
    · rw [List.append_assoc, List.append_assoc, ← List.append_assoc [c], hnumber, hparts]
    · rcases hc with rfl | rfl
      · exact .inr (.inl rfl)
      · exact .inr (.inr rfl)
    · rw [hnumber]
      exact hends
    · intro hnil
      cases hnil
  · have hnumber : [] ++ u.takeWhile Text.isDigit ++ u.dropWhile Text.isDigit = u :=
      List.takeWhile_append_dropWhile
    refine ⟨blank, [], u.takeWhile Text.isDigit, u.dropWhile Text.isDigit, ?_, hblank, .inl rfl,
      hdigit u, ?_, ?_, head?_dropWhile⟩
    · rw [List.append_assoc, List.append_assoc, ← List.append_assoc [], hnumber, hparts]
    · rw [hnumber]
      exact hends
    · intro _ c hc
      rw [List.takeWhile_append_dropWhile] at hc
      cases u with
      | nil => cases hc
      | cons d v =>
        obtain rfl := Option.some.inj hc
        exact not_or.mp fun h => hsign ⟨d, v, rfl, h⟩

/-- The numeral at the front of a text. A plus sign does not belong to it. -/
def NumberAt.numeral {t blank sign digits rest : Text} (h : NumberAt t blank sign digits rest) :
    Numeral :=
  ⟨sign = [byte '-'], digits, h.isDigit⟩

end Text

namespace Peripherals

section Characters

/-- The blank characters are those of the blank bytes. -/
theorem isBlank_ofByte (c : UInt8) :
    isBlank (.ofByte (Text.foldReturn c)) = true ↔ c ∈ Text.blanks := by
  have hspace : (32 : Cell) = Cell.ofByte 32 := rfl
  have htab : (9 : Cell) = Cell.ofByte 9 := rfl
  have hline : (10 : Cell) = Cell.ofByte 10 := rfl
  simp only [isBlank, hspace, htab, hline, Cell.ofByte_inj, Bool.or_eq_true, decide_eq_true_eq,
    Text.foldReturn, Text.blanks, List.mem_cons, List.not_mem_nil, or_false]
  by_cases hreturn : c = Text.carriageReturn
  · subst hreturn
    decide
  · have hne : c ≠ 13 := hreturn
    rw [if_neg hreturn]
    simp only [hne, or_false, or_assoc]

/-- The digits are those of the bytes. -/
theorem isDigit_ofByte (c : UInt8) :
    isDigit (.ofByte (Text.foldReturn c)) = Text.isDigit c := by
  by_cases hreturn : c = Text.carriageReturn
  · subst hreturn
    decide
  · have hlt := c.toNat_lt
    have hvalue : (Cell.ofByte c).toInt = c.toNat := by
      rw [BitVec.toInt_eq_toNat_of_lt (by rw [Cell.toNat_ofByte]; omega), Cell.toNat_ofByte]
    have hlow : (48 : UInt8).toNat = 48 := rfl
    have hhigh : (57 : UInt8).toNat = 57 := rfl
    rw [Text.foldReturn, if_neg hreturn, isDigit, hvalue, Text.isDigit, Bool.eq_iff_iff]
    simp only [Bool.and_eq_true, decide_eq_true_eq, UInt8.le_iff_toNat_le, hlow, hhigh]
    omega

/-- The signs are those of the bytes. -/
theorem isSign_ofByte (c : UInt8) :
    isSign (.ofByte (Text.foldReturn c)) = true ↔ c = Text.byte '+' ∨ c = Text.byte '-' := by
  simp only [isSign, Cell.ofByte_inj, Bool.or_eq_true, decide_eq_true_eq, Text.foldReturn]
  by_cases hreturn : c = Text.carriageReturn
  · subst hreturn
    decide
  · rw [if_neg hreturn, or_comm]

variable {t : Text}

/-- The character of a text that does not start with a blank. -/
theorem isBlank_firstCharacter (h : ∀ c ∈ t.head?, c ∉ Text.blanks) :
    ¬ isBlank t.firstCharacter = true := by
  cases t with
  | nil => decide
  | cons c t => exact fun hblank => h c rfl ((isBlank_ofByte c).mp hblank)

/-- The character of a text that does not start with a digit. -/
theorem isDigit_firstCharacter (h : ∀ c ∈ t.head?, Text.isDigit c = false) :
    ¬ isDigit t.firstCharacter = true := by
  cases t with
  | nil => decide
  | cons c t =>
    rw [Text.firstCharacter, isDigit_ofByte, h c rfl]
    exact Bool.false_ne_true

/-- The character of a text that does not start with a sign. -/
theorem isSign_firstCharacter (h : ∀ c ∈ t.head?, c ≠ Text.byte '+' ∧ c ≠ Text.byte '-') :
    ¬ isSign t.firstCharacter = true := by
  cases t with
  | nil => decide
  | cons c t =>
    intro hsign
    rcases (isSign_ofByte c).mp hsign with hc | hc
    · exact (h c rfl).1 hc
    · exact (h c rfl).2 hc

end Characters

section Parts

variable {p : Peripherals} {n : Nat} {blank digits rest : Text}

/-- Nothing is read if nothing may be read. -/
theorem exists_succ_of_skipBlanks (hok : ∃ c q, skipBlanks n p = .ok c q) : ∃ k, n = k + 1 := by
  cases n with
  | zero =>
    obtain ⟨c, q, hzero⟩ := hok
    cases hzero
  | succ k => exact ⟨k, rfl⟩

/-- Blanks are read, and one more character. -/
theorem skipBlanks_of_remaining (hok : ∃ c q, skipBlanks n p = .ok c q)
    (hremaining : p.remaining = blank ++ rest) (hblank : ∀ c ∈ blank, c ∈ Text.blanks)
    (hrest : ¬ isBlank rest.firstCharacter = true) :
    skipBlanks n p = .ok rest.firstCharacter (p.afterReads (blank.length + 1)) := by
  induction blank generalizing n p with
  | nil =>
    obtain ⟨k, rfl⟩ := exists_succ_of_skipBlanks hok
    rw [skipBlanks_succ p.readCharacter_eq, hremaining]
    exact if_neg hrest
  | cons b blank ih =>
    obtain ⟨k, rfl⟩ := exists_succ_of_skipBlanks hok
    have hfirst : isBlank p.remaining.firstCharacter = true := by
      rw [hremaining]
      exact (isBlank_ofByte b).mpr (hblank b List.mem_cons_self)
    rw [skipBlanks_succ p.readCharacter_eq, if_pos hfirst] at hok ⊢
    have htail : (p.afterReads 1).remaining = blank ++ rest := by
      rw [remaining_afterReads, hremaining]
      rfl
    rw [ih hok htail fun c hc => hblank c (List.mem_cons_of_mem b hc), ← afterReads_add,
      List.length_cons, Nat.add_comm 1]

/-- One more digit, modulo the size of a cell. -/
theorem ofNat_readDigit {d : UInt8} (hd : Text.isDigit d = true) (k : Nat) :
    Cell.ofNat k * 10 + Cell.ofByte (Text.foldReturn d) - 48 =
      Cell.ofNat (10 * k + (d.toNat - 48)) := by
  have hfold : Text.foldReturn d = d := by
    apply if_neg
    rintro rfl
    exact absurd hd (by decide)
  have hlow : 48 ≤ d.toNat := by
    simp only [Text.isDigit, Bool.and_eq_true, decide_eq_true_eq, UInt8.le_iff_toNat_le] at hd
    exact hd.1
  have hbyte : Cell.ofByte d = Cell.ofNat (d.toNat - 48) + 48 := by
    apply BitVec.eq_of_toNat_eq
    have hlt := d.toNat_lt
    have hnumber : (48 : Cell).toNat = 48 := rfl
    rw [Cell.toNat_ofByte, BitVec.toNat_add, Cell.ofNat, BitVec.toNat_ofNat, hnumber]
    omega
  rw [hfold, hbyte, ← BitVec.add_assoc, BitVec.add_sub_cancel, Text.ofNat_decimal_step]

/-- Digits are read, and one more character. The first of these characters has been read before. -/
theorem readDigits_of_remaining {k : Nat}
    (hok : ∃ r q, readDigits n (Cell.ofNat k) (Text.firstCharacter (digits ++ rest)) p = .ok r q)
    (hremaining : p.remaining = (digits ++ rest).tail)
    (hdigit : ∀ c ∈ digits, Text.isDigit c = true)
    (hrest : ¬ isDigit rest.firstCharacter = true) :
    readDigits n (Cell.ofNat k) (Text.firstCharacter (digits ++ rest)) p =
      .ok (Cell.ofNat (Text.decimalFrom k digits), rest.firstCharacter)
        (p.afterReads digits.length) := by
  induction digits generalizing n p k with
  | nil => exact readDigits_of_not_isDigit hrest ..
  | cons d digits ih =>
    have hd : Text.isDigit d = true := hdigit d List.mem_cons_self
    rw [List.cons_append, Text.firstCharacter] at hok ⊢
    rw [List.cons_append, List.tail_cons] at hremaining
    have hfirst : isDigit (Cell.ofByte (Text.foldReturn d)) = true := by rw [isDigit_ofByte, hd]
    cases n with
    | zero =>
      obtain ⟨r, q, hzero⟩ := hok
      rw [readDigits, if_pos hfirst] at hzero
      cases hzero
    | succ n =>
      have htail : (p.afterReads 1).remaining = (digits ++ rest).tail := by
        rw [remaining_afterReads, hremaining, List.drop_one]
      rw [readDigits_succ p.readCharacter_eq hfirst, ofNat_readDigit hd, hremaining] at hok ⊢
      rw [ih hok htail fun c hc => hdigit c (List.mem_cons_of_mem d hc), ← afterReads_add,
        List.length_cons, Nat.add_comm 1, Text.decimalFrom, Text.decimalFrom, List.foldl_cons]

/-- The digits of a number, with the sign that came before them. -/
theorem readMagnitude_of_remaining (negative : Bool)
    (hremaining : p.remaining = (digits ++ rest).tail)
    (hdigit : ∀ c ∈ digits, Text.isDigit c = true)
    (hrest : ¬ isDigit rest.firstCharacter = true) :
    readMagnitude negative (Text.firstCharacter (digits ++ rest)) p =
      .ok (Numeral.cell ⟨negative, digits, hdigit⟩, rest.firstCharacter)
        (p.afterReads digits.length) := by
  have hok := readDigits_ok (enough_spanLimit isDigit p) (Cell.ofNat 0)
    (Text.firstCharacter (digits ++ rest))
  have hzero : (0 : Cell) = Cell.ofNat 0 := rfl
  rw [readMagnitude, hzero, readDigits_of_remaining hok hremaining hdigit hrest, Numeral.cell_eq,
    Text.digitsValue_eq]
  rfl

/-- Reading a number takes its parts and one more character. -/
theorem readNumber_of_numberAt {sign : Text} (h : p.remaining.NumberAt blank sign digits rest) :
    readNumber p =
      .ok (h.numeral.cell, rest.firstCharacter)
        (p.afterReads (blank.length + sign.length + digits.length + 1)) := by
  have hparts : p.remaining = blank ++ (sign ++ digits ++ rest) := by
    rw [h.parts]
    simp only [List.append_assoc]
  have hskip := skipBlanks_of_remaining (skipBlanks_ok (enough_spanLimit isBlank p)) hparts
    h.isBlank (isBlank_firstCharacter h.blank_ends)
  have hrest := isDigit_firstCharacter h.digits_end
  have hafter : (p.afterReads (blank.length + 1)).remaining = (sign ++ digits ++ rest).tail := by
    rw [remaining_afterReads, hparts, List.drop_length_add_append, List.drop_one]
  rw [readNumber_apply, hskip]
  rcases h.isSign with rfl | hsign
  · have hunsigned := isSign_firstCharacter (h.sign_ends rfl)
    rw [List.nil_append] at hafter ⊢
    simp only [if_neg hunsigned]
    rw [readMagnitude_of_remaining false hafter h.isDigit hrest, ← afterReads_add, List.length_nil,
      Nat.add_right_comm]
    rfl
  · obtain ⟨b, rfl, hb⟩ : ∃ b, sign = [b] ∧ (b = Text.byte '+' ∨ b = Text.byte '-') := by
      rcases hsign with rfl | rfl
      · exact ⟨_, rfl, .inl rfl⟩
      · exact ⟨_, rfl, .inr rfl⟩
    have hsigned : isSign (Text.firstCharacter ([b] ++ digits ++ rest)) = true :=
      (isSign_ofByte b).mpr hb
    have hnegative : decide (Text.firstCharacter ([b] ++ digits ++ rest) =
        Cell.ofByte (Text.byte '-')) = decide ([b] = [Text.byte '-']) := by
      rcases hb with rfl | rfl <;> rfl
    have hsecond : ((p.afterReads (blank.length + 1)).afterReads 1).remaining =
        (digits ++ rest).tail := by
      rw [remaining_afterReads, hafter, List.drop_one]
      rfl
    have hcharacter : Text.firstCharacter (p.afterReads (blank.length + 1)).remaining =
        Text.firstCharacter (digits ++ rest) := by
      rw [hafter]
      rfl
    simp only [if_pos hsigned, readCharacter_eq, hcharacter, hnegative]
    have hcount : blank.length + 1 + (1 + digits.length) =
        blank.length + [b].length + digits.length + 1 := by
      rw [List.length_singleton]
      omega
    rw [readMagnitude_of_remaining _ hsecond h.isDigit hrest, ← afterReads_add, ← afterReads_add,
      hcount]
    rfl

/-- What remains after a number and the character that ended it. -/
theorem remaining_afterNumber {sign : Text} (h : p.remaining.NumberAt blank sign digits rest) :
    (p.afterReads (blank.length + sign.length + digits.length + 1)).remaining = rest.tail := by
  have hcount : blank.length + sign.length + digits.length = (blank ++ sign ++ digits).length := by
    rw [List.length_append, List.length_append]
  rw [remaining_afterReads, h.parts, hcount, List.drop_length_add_append, List.drop_one]

end Parts

end Peripherals

namespace Text

variable {c : UInt8}

/-- A digit is neither blank nor a sign. -/
theorem ne_of_isDigit (hc : isDigit c = true) : c ∉ blanks ∧ c ≠ byte '+' ∧ c ≠ byte '-' := by
  refine ⟨fun hmember => ?_, ?_, ?_⟩
  · have hall : (blanks.all fun c => !isDigit c) = true := by decide
    have hnone := List.all_eq_true.mp hall c hmember
    simp only [hc, Bool.not_true, Bool.false_eq_true] at hnone
  · rintro rfl
    exact absurd hc (by decide)
  · rintro rfl
    exact absurd hc (by decide)

/-- A cell in decimal has a digit. -/
theorem decimal_ne_nil (n : Cell) : n.decimal ≠ [] := by
  unfold Cell.decimal ofInt
  split
  · exact (digitsValue_ofNat _).2.1
  · exact List.cons_ne_nil _ _

/-- A cell in decimal, after spaces and before a byte that is no digit, is the number at the
front. -/
theorem numberAt_decimal (n : Cell) (count : Nat) (rest : Text) (hc : isDigit c = false) :
    ∃ sign digits, n.decimal = sign ++ digits ∧
      ∃ h : NumberAt (List.replicate count space ++ n.decimal ++ c :: rest)
        (List.replicate count space) sign digits (c :: rest), h.numeral.cell = n := by
  have hne := decimal_ne_nil n
  have hnumeral := n.isNumeral_decimal
  have hblank : ∀ b ∈ List.replicate count space, b ∈ blanks := by
    intro b hb
    rw [(List.mem_replicate.mp hb).2]
    decide
  have hend : ∀ b ∈ (c :: rest).head?, isDigit b = false := by
    intro b hb
    obtain rfl := Option.some.inj hb
    exact hc
  generalize n.decimal = t at hne hnumeral
  cases hnumeral with
  | digits ht =>
    obtain ⟨d, u, rfl⟩ := List.exists_cons_of_ne_nil hne
    obtain ⟨hnotBlank, hnotSign⟩ := ne_of_isDigit (ht d List.mem_cons_self)
    refine ⟨[], d :: u, rfl, ⟨by simp only [List.append_assoc, List.nil_append], hblank, .inl rfl,
      ht, ?_, ?_, hend⟩, Numeral.cell_eq _⟩
    · intro b hb
      obtain rfl := Option.some.inj hb
      exact hnotBlank
    · intro _ b hb
      obtain rfl := Option.some.inj hb
      exact hnotSign
  | @negated u hu =>
    refine ⟨[byte '-'], u, rfl,
      ⟨by simp only [List.append_assoc, List.cons_append, List.nil_append], hblank,
        .inr (.inr rfl), hu, ?_, ?_, hend⟩, Numeral.cell_eq _⟩
    · intro b hb
      obtain rfl := Option.some.inj hb
      decide
    · intro hnil
      cases hnil

end Text

namespace Machine

/-- Reading a number stores the character that ended it. -/
theorem readNumber_apply {m : Machine} {n terminator : Cell} {p : Peripherals}
    (hread : Peripherals.readNumber m.peripherals = .ok (n, terminator) p) :
    readNumber m =
      if 71 < m.memory.size then
        .ok n { m with memory := m.memory.setCell 71 terminator, peripherals := p }
      else .error (.address 71) { m with peripherals := p } := by
  have hstore : Memory.setWord terminatorGlobal terminator m.memory =
      if 71 < m.memory.size then .ok () (m.memory.setCell 71 terminator)
      else .error (.address 71) m.memory := by
    rw [Memory.setWord, terminatorGlobal, Memory.slot_of_near _ (by omega) (by omega)]
    by_cases hsize : 71 < m.memory.size
    · rw [if_pos hsize, if_pos ⟨by omega, by omega⟩]
      rfl
    · rw [if_neg hsize, if_neg (by omega)]
  rw [readNumber, Action.bind_apply, onPeripherals_apply, hread]
  simp only [Action.bind_apply, onMemory_apply, hstore]
  by_cases hsize : 71 < m.memory.size
  · rw [if_pos hsize, if_pos hsize]
    rfl
  · rw [if_neg hsize, if_neg hsize]

/-- The bytes of a cell in decimal, right justified in a field. -/
def fieldBytes (n : Cell) (width : Int) : Text :=
  List.replicate (width - n.decimal.length).toNat Text.space ++ n.decimal

/-- Reading a number takes the blanks, the sign and the digits at the front of the remaining input,
and one character more, which is minus one if the input ends there. It gives the value of the number
modulo the size of a cell and stores that character in word 71, or fails if there is no such word;
it changes no other word. So it gives back any cell that was written in decimal in a field of any
width, if a byte that is no digit follows. -/
theorem readNumber_reads_one (m : Machine) :
    (∃ blank sign digits rest, m.peripherals.remaining.NumberAt blank sign digits rest) ∧
    (∀ blank sign digits rest,
      (h : m.peripherals.remaining.NumberAt blank sign digits rest) →
      let p := m.peripherals.afterReads (blank.length + sign.length + digits.length + 1)
      p.remaining = rest.tail ∧
      readNumber m =
        if 71 < m.memory.size then
          .ok (Cell.ofInt h.numeral.value)
            { m with memory := m.memory.setCell 71 rest.firstCharacter, peripherals := p }
        else .error (.address 71) { m with peripherals := p }) ∧
    ∀ (n : Cell) (width : Int),
      writeNumber .decimal n width =
        onPeripherals ((fieldBytes n width).forM Peripherals.writeCharacter) ∧
      ∀ c rest, Text.isDigit c = false → 71 < m.memory.size →
        m.peripherals.remaining = fieldBytes n width ++ c :: rest →
        let p := m.peripherals.afterReads ((fieldBytes n width).length + 1)
        p.remaining = rest ∧
        readNumber m =
          .ok n { m with
            memory := m.memory.setCell 71 (.ofByte (Text.foldReturn c)), peripherals := p } := by
  refine ⟨Text.exists_numberAt _, fun blank sign digits rest h => ⟨?_, ?_⟩,
    fun n width => ⟨?_, fun c rest hc hsize hremaining => ⟨?_, ?_⟩⟩⟩
  · exact Peripherals.remaining_afterNumber h
  · exact readNumber_apply (Peripherals.readNumber_of_numberAt h)
  · rw [writeNumber_eq, writeText_eq_forM]
    rfl
  · rw [Peripherals.remaining_afterReads, hremaining, List.drop_length_add_append]
    rfl
  · obtain ⟨sign, digits, hdecimal, hnumber⟩ :=
      Text.numberAt_decimal n (width - n.decimal.length).toNat rest hc
    have hcount : (List.replicate (width - n.decimal.length).toNat Text.space).length +
        sign.length + digits.length = (fieldBytes n width).length := by
      rw [fieldBytes, List.length_append, hdecimal, List.length_append, Nat.add_assoc]
    rw [fieldBytes] at hremaining
    rw [← hremaining] at hnumber
    obtain ⟨h, hcell⟩ := hnumber
    rw [readNumber_apply (Peripherals.readNumber_of_numberAt h), if_pos hsize, hcell, hcount]
    rfl

/-- A machine with a text as its input. -/
def typed (t : Text) : Machine where
  memory := .blank 72
  lomem := 0
  peripherals := .ofDefaults (.script [t] none) (.device {}) default false

/-- A number too large for a cell is cut to one, and the least number in a field of eight places
comes back. -/
theorem typed_reads_one :
    (∃ m, readNumber (typed (Text.ofAscii " \r\t-65541x7")) = .ok (-5) m ∧
      m.memory.cellAt 71 = 120 ∧ m.peripherals.remaining = Text.ofAscii "7") ∧
    fieldBytes (-32768) 8 = Text.ofAscii "  -32768" ∧
    ∃ m, readNumber (typed (Text.ofAscii "  -32768\r9")) = .ok (-32768) m ∧
      m.memory.cellAt 71 = 10 ∧ m.peripherals.remaining = Text.ofAscii "9" := by
  have hfield : fieldBytes (-32768) 8 = Text.ofAscii "  -32768" := by decide
  have hsize (t : Text) : 71 < (typed t).memory.size := by
    change 71 < (Array.replicate 72 (0 : Cell)).size
    decide
  have hfirst : (typed (Text.ofAscii " \r\t-65541x7")).peripherals.remaining.NumberAt
      (Text.ofAscii " \r\t") (Text.ofAscii "-") (Text.ofAscii "65541") (Text.ofAscii "x7") := by
    have hall : (Text.ofAscii " \r\t").all (Text.blanks.contains ·) = true := by decide
    refine ⟨by decide +kernel, fun c hc => List.contains_iff_mem.mp (List.all_eq_true.mp hall c hc),
      .inr (.inr rfl), List.all_eq_true.mp (by decide), ?_, ?_, ?_⟩
    · intro c hc
      obtain rfl := Option.some.inj hc
      decide
    · intro hnil
      cases hnil
    · intro c hc
      obtain rfl := Option.some.inj hc
      decide
  have hsecond : (typed (Text.ofAscii "  -32768\r9")).peripherals.remaining =
      fieldBytes (-32768) 8 ++ 13 :: Text.ofAscii "9" := by
    rw [hfield]
    decide +kernel
  obtain ⟨-, hread, -⟩ := readNumber_reads_one (typed (Text.ofAscii " \r\t-65541x7"))
  obtain ⟨hrest, hnumber⟩ := hread _ _ _ _ hfirst
  obtain ⟨-, -, hwritten⟩ := readNumber_reads_one (typed (Text.ofAscii "  -32768\r9"))
  obtain ⟨hlater, hback⟩ := (hwritten (-32768) 8).2 _ _ (by decide) (hsize _) hsecond
  rw [if_pos (hsize _)] at hnumber
  refine ⟨⟨_, hnumber, ?_, hrest⟩, hfield, _, hback, ?_, hlater⟩
  · rw [Memory.cellAt_setCell, if_pos ⟨rfl, hsize _⟩]
    rfl
  · rw [Memory.cellAt_setCell, if_pos ⟨rfl, hsize _⟩]
    rfl

end Machine

end Intcode
