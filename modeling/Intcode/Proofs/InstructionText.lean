import Intcode.Proofs.Listing

/-!
# What the text of an instruction keeps

A word can be an instruction in more ways than the assembler writes it: with bits
that no part of the machine looks at, with a high byte beside an operand of its own
word, or with a small operand in such a word. The text of an instruction shows its
opcode and its raw operand and nothing else.

Main statement: the text of any instruction assembles to one with the same opcode and
the same raw operand, so both are decoded to the same function and the same operand.
-/

namespace Intcode

namespace Opcode

/-- A raw operand, with the frame base added to it if the opcode asks for that. An indirect
operand is the word at this address. -/
def located (o : Opcode) (d sp : Cell) : Cell := if o.framed then d.plus sp else d

/-- The effective operand that an opcode makes of a raw one. -/
def effective (m : Memory) (o : Opcode) (d sp : Cell) : Except Failure Cell :=
  if o.indirect then m.word (o.located d sp).address else .ok (o.located d sp)

/-- Memories in which an indirect operand is the same word have the same effective operand. -/
theorem effective_congr {m m' : Memory} {o : Opcode} {d sp : Cell}
    (h : o.indirect = true → m'.word (o.located d sp).address = m.word (o.located d sp).address) :
    o.effective m' d sp = o.effective m d sp := by
  unfold effective
  cases hindirect : o.indirect with
  | true => exact h hindirect
  | false => rfl

end Opcode

namespace Instruction

variable {m : Memory} {pc next : Int} {w d : Cell}

/-- Memories with the same word behind an instruction word have the same raw operand. -/
theorem rawOperand_congr {m' : Memory} (h : w.isLong = true → m'.word (pc + 1) = m.word (pc + 1)) :
    rawOperand m' pc w = rawOperand m pc w := by
  unfold rawOperand
  cases hlong : w.isLong with
  | true => rw [h hlong]
  | false => rfl

/-- An instruction is decoded by reading its word, then its raw operand, and then the operand that
this stands for. -/
theorem decode_eq (hword : m.word pc = .ok w) (hraw : rawOperand m pc w = .ok (d, next))
    (sp : Cell) :
    decode m pc sp = ((Opcode.ofWord w).effective m d sp).map fun v => ⟨.ofWord w, w, v, next⟩ := by
  have hindirect : (Opcode.ofWord w).indirect = w.isIndirect := rfl
  have hlocated : (Opcode.ofWord w).located d sp = if w.isFramed then d.plus sp else d := rfl
  unfold decode Opcode.effective
  rw [hindirect, hlocated, hword]
  change (rawOperand m pc w >>= _) = _
  rw [hraw]
  change (if w.isIndirect then m.word (if w.isFramed then d.plus sp else d).address >>= _
    else pure (if w.isFramed then d.plus sp else d) >>= _) = _
  split
  · cases m.word (if w.isFramed then d.plus sp else d).address <;> rfl
  · rfl

/-- A decoded instruction is that of the word at its address, and its operand is what the word makes
of the raw one. -/
theorem of_decode {sp : Cell} {i : Instruction}
    (hdecode : decode m pc sp = .ok i) :
    ∃ w d, m.word pc = .ok w ∧ rawOperand m pc w = .ok (d, i.next) ∧ i.opcode = .ofWord w ∧
      (Opcode.ofWord w).effective m d sp = .ok i.operand := by
  cases hword : m.word pc with
  | error e =>
    unfold decode at hdecode
    rw [hword] at hdecode
    cases hdecode
  | ok w =>
    rcases hraw : rawOperand m pc w with e | ⟨d, next⟩
    · unfold decode at hdecode
      rw [hword] at hdecode
      change (rawOperand m pc w >>= _) = _ at hdecode
      rw [hraw] at hdecode
      cases hdecode
    · rw [decode_eq hword hraw] at hdecode
      cases hoperand : (Opcode.ofWord w).effective m d sp with
      | error e =>
        rw [hoperand] at hdecode
        cases hdecode
      | ok v =>
        rw [hoperand] at hdecode
        cases hdecode
        exact ⟨w, d, rfl, hraw, rfl, hoperand⟩

/-- A decoded instruction is followed by what comes after its raw operand. -/
theorem next_of_decode (hword : m.word pc = .ok w) (hraw : rawOperand m pc w = .ok (d, next))
    {sp : Cell} {i : Instruction} (hdecode : decode m pc sp = .ok i) : i.next = next := by
  rw [decode_eq hword hraw] at hdecode
  cases hoperand : (Opcode.ofWord w).effective m d sp with
  | error e =>
    rw [hoperand] at hdecode
    cases hdecode
  | ok v =>
    rw [hoperand] at hdecode
    cases hdecode
    rfl

/-- The function and the operand of a decoded instruction. -/
theorem map_decode_eq (hword : m.word pc = .ok w) (hraw : rawOperand m pc w = .ok (d, next))
    (sp : Cell) :
    (decode m pc sp).map (fun i => (i.opcode, i.operand)) =
      ((Opcode.ofWord w).effective m d sp).map fun v => (Opcode.ofWord w, v) := by
  rw [decode_eq hword hraw]
  cases (Opcode.ofWord w).effective m d sp <;> rfl

end Instruction

namespace Memory

/-- The number of words of the instruction at an address. -/
def instructionLength (m : Memory) (pc : Nat) : Nat := if (m.cellAt pc).isLong then 2 else 1

/-- The raw operand of the instruction at an address: the next word or the high byte. -/
def rawOperandAt (m : Memory) (pc : Nat) : Cell :=
  if (m.cellAt pc).isLong then m.cellAt (pc + 1) else m.cellAt pc >>> 8

variable {m : Memory} {pc : Nat}

/-- The word of an instruction that lies in the memory. -/
theorem word_of_inside (h : pc + m.instructionLength pc ≤ m.size) :
    m.word pc = .ok (m.cellAt pc) := by
  have hpos : 0 < m.instructionLength pc := by
    unfold instructionLength
    split <;> decide
  rw [word_of_lt (Int.natCast_nonneg pc) (by omega), Int.toNat_natCast]

/-- The raw operand of an instruction that lies in the memory. -/
theorem rawOperand_of_inside (h : pc + m.instructionLength pc ≤ m.size) :
    Instruction.rawOperand m pc (m.cellAt pc) =
      .ok (m.rawOperandAt pc, ((pc + m.instructionLength pc : Nat) : Int)) := by
  unfold instructionLength at h
  unfold Instruction.rawOperand rawOperandAt instructionLength
  by_cases hlong : (m.cellAt pc).isLong = true
  · rw [if_pos hlong] at h
    have hnext : m.word ((pc : Int) + 1) = .ok (m.cellAt (pc + 1)) := by
      rw [word_of_lt (by omega) (by omega)]
      rfl
    rw [if_pos hlong, if_pos hlong, if_pos hlong, hnext]
    rfl
  · rw [if_neg hlong, if_neg hlong, if_neg hlong]
    rfl

/-- The operand of the instruction at an address before it is dereferenced. -/
def pointerAt (m : Memory) (pc : Nat) (sp : Cell) : Cell :=
  (Opcode.ofWord (m.cellAt pc)).located (m.rawOperandAt pc) sp

/-- The instruction at an address as it is written. -/
def lineAt (m : Memory) (pc : Nat) : CodeLine := ⟨Opcode.ofWord (m.cellAt pc), m.rawOperandAt pc⟩

end Memory

namespace CodeLine

variable {m : Memory} {a : Nat} {i : CodeLine}

/-- The words of an instruction are an instruction with its opcode and its raw operand. -/
theorem parts_of_holds (h : m.Holds a i.words) :
    m.instructionLength a = i.words.length ∧ m.lineAt a = i := by
  obtain ⟨o, v⟩ := i
  obtain ⟨-, hcells⟩ := h
  unfold words at hcells
  unfold Memory.instructionLength Memory.lineAt Memory.rawOperandAt words
  by_cases hshort : v.toNat < 256
  · simp only [if_pos hshort] at hcells
    have hfirst : m.cellAt a = o.shortWord v := hcells 0 Nat.one_pos
    obtain ⟨hopcode, hlong⟩ := o.ofWord_shortWord v
    rw [hfirst, hlong, hopcode, if_pos hshort]
    exact ⟨rfl, congrArg _ (o.shortWord_ushiftRight hshort)⟩
  · simp only [if_neg hshort] at hcells
    have hfirst : m.cellAt a = o.longWord := hcells 0 Nat.two_pos
    have hsecond : m.cellAt (a + 1) = v := hcells 1 Nat.one_lt_two
    obtain ⟨hopcode, hlong⟩ := o.ofWord_longWord
    rw [hfirst, hlong, hopcode, hsecond, if_neg hshort]
    exact ⟨rfl, rfl⟩

/-- A text that is read as an instruction is assembled to its words. -/
theorem assemble_of_parse (i : CodeLine) {marked : Bool} {t : Text} {s : Assembler}
    (hparse : Directive.parseAll t.significant =
      [.instruction i.opcode marked (.number i.operand)])
    (hstart : s.lomem = a) (hroom : a + i.words.length + labelCount ≤ s.memory.size) :
    Assembler.assemble t none s = .ok () (s.fresh.pushAll i.words) := by
  have hlomem : s.fresh.lomem = a := hstart
  have hsize : s.fresh.memory.size = s.memory.size := rfl
  have hplaced : s.fresh.Placed := Assembler.placed_fresh (by omega)
  have hstep := Assembler.step_codeLine (s := s.fresh) i marked (by omega)
  rw [Assembler.assemble_eq_ok_iff, hparse, Assembler.emitAll_cons_eq_ok_iff hplaced]
  exact ⟨rfl, _, hstep, rfl⟩

/-- The text of an instruction is assembled to its words. -/
theorem assemble_text (i : CodeLine) {s : Assembler} (hstart : s.lomem = a)
    (hroom : a + i.words.length + labelCount ≤ s.memory.size) :
    ∃ s', Assembler.assemble (i.text ++ [Text.lineFeed]) none s = .ok () s' ∧
      s'.lomem = ((a + i.words.length : Nat) : Int) ∧ s'.memory.Holds a i.words := by
  have htext : i.text ++ [Text.lineFeed] = plainLines [i] := by simp [plainLines]
  have hlomem : s.fresh.lomem = a := hstart
  have hsize : s.fresh.memory.size = s.memory.size := rfl
  refine ⟨s.fresh.pushAll i.words, ?_, ?_, ?_⟩
  · rw [htext]
    exact i.assemble_of_parse (parseAll_plainLines [i]) hstart hroom
  · rw [Assembler.lomem_pushAll, hlomem]
    rfl
  · exact Assembler.holds_pushAll hlomem (by omega)

end CodeLine

namespace Listing

open Memory

variable {m : Memory} {pc : Nat}

/-- An instruction that lies in the memory is listed as it is written. -/
theorem instructionText_of_inside (h : pc + m.instructionLength pc ≤ m.size) :
    instructionText m pc =
      .ok ((m.lineAt pc).text, ((pc + m.instructionLength pc : Nat) : Int)) := by
  have hshown : ((m.cellAt pc).isLong && decide ((m.size : Int) ≤ pc + 1)) = false := by
    unfold instructionLength at h
    rw [Bool.and_eq_false_imp]
    intro hlong
    rw [if_pos hlong] at h
    rw [decide_eq_false_iff_not]
    omega
  unfold instructionText
  rw [word_of_inside h]
  change (if (m.cellAt pc).isLong && decide ((m.size : Int) ≤ pc + 1) then _ else _) = _
  rw [hshown, if_neg Bool.false_ne_true, rawOperand_of_inside h]
  rfl

/-- Wherever an instruction lies in the memory, its listing ends where decoding it ends. The
listed text followed by a line feed assembles, at any address with room for it, to an instruction
with the same function, the same marks and the same raw operand. Hence it is decoded to the same
function and operand with every frame base, in every memory that holds it and that has the same
word where the operand is dereferenced. -/
theorem instructionText_assembles_alike (hinside : pc + m.instructionLength pc ≤ m.size) :
    ∃ t, (∀ p : Printer,
        printInstruction m pc p = .ok ((pc + m.instructionLength pc : Nat) : Int) (p.print t)) ∧
      (∀ sp i, Instruction.decode m pc sp = .ok i →
        i.next = ((pc + m.instructionLength pc : Nat) : Int)) ∧
      ∀ s : Assembler, 0 ≤ s.lomem →
        s.lomem + (m.lineAt pc).words.length + labelCount ≤ s.memory.size →
        ∃ s' w, Assembler.assemble (t ++ [Text.lineFeed]) none s = .ok () s' ∧
          s'.memory.word s.lomem = .ok w ∧ Opcode.ofWord w = Opcode.ofWord (m.cellAt pc) ∧
          Instruction.rawOperand s'.memory s.lomem w = .ok (m.rawOperandAt pc, s'.lomem) ∧
          ∀ (m' : Memory) (sp : Cell),
            (∀ a, s.lomem ≤ a → a < s'.lomem → m'.word a = s'.memory.word a) →
            ((m.cellAt pc).isIndirect = true →
              m'.word (m.pointerAt pc sp).address = m.word (m.pointerAt pc sp).address) →
            (Instruction.decode m' s.lomem sp).map (fun i => (i.opcode, i.operand)) =
              (Instruction.decode m pc sp).map fun i => (i.opcode, i.operand) := by
  have hword := word_of_inside hinside
  have hraw := rawOperand_of_inside hinside
  refine ⟨(m.lineAt pc).text, fun p => ?_, fun sp i => Instruction.next_of_decode hword hraw, ?_⟩
  · simp only [printInstruction, Action.bind_apply, Action.read_apply,
      instructionText_of_inside hinside, Action.modify_apply, Action.pure_apply]
  · intro s hnonneg hroom
    obtain ⟨a, ha⟩ := Int.eq_ofNat_of_zero_le hnonneg
    rw [ha] at hroom ⊢
    obtain ⟨s', hassemble, hlomem, hholds⟩ := (m.lineAt pc).assemble_text ha (by omega)
    obtain ⟨hcount, hline⟩ := CodeLine.parts_of_holds hholds
    have hinside' : a + s'.memory.instructionLength a ≤ s'.memory.size := hcount ▸ hholds.1
    have hopcode : Opcode.ofWord (s'.memory.cellAt a) = Opcode.ofWord (m.cellAt pc) :=
      congrArg CodeLine.opcode hline
    have hoperand : s'.memory.rawOperandAt a = m.rawOperandAt pc := congrArg CodeLine.operand hline
    have hword' := word_of_inside hinside'
    have hraw' := rawOperand_of_inside hinside'
    rw [hoperand, hcount, ← hlomem] at hraw'
    refine ⟨s', _, hassemble, hword', hopcode, hraw', fun m' sp hsame hderef => ?_⟩
    have hpos := (m.lineAt pc).length_words_pos
    have hheld : m'.word a = .ok (s'.memory.cellAt a) := by
      rw [hsame a (Int.le_refl _) (by omega), hword']
    have hrawHeld : Instruction.rawOperand m' a (s'.memory.cellAt a) =
        .ok (m.rawOperandAt pc, s'.lomem) := by
      rw [← hraw']
      refine Instruction.rawOperand_congr fun hlong => hsame (a + 1) (by omega) ?_
      rw [instructionLength, if_pos hlong] at hcount
      omega
    rw [Instruction.map_decode_eq hheld hrawHeld, Instruction.map_decode_eq hword hraw, hopcode,
      Opcode.effective_congr hderef]

/-- A memory that ends with an instruction which the assembler would not write: two unused bits
are set, the high byte is not zero, and the small operand has a word of its own. -/
def oddMemory : Memory := ⟨#[0, 0, 0x9ce7, 8], by decide⟩

/-- The instruction is listed with its operation, and assembles to one that is decoded alike. -/
theorem instructionText_assembles_alike_odd :
    2 + oddMemory.instructionLength 2 ≤ oddMemory.size ∧
      (∃ p, printInstruction oddMemory 2 {} = .ok 4 p ∧
        p.device.contents = Text.ofAscii "X8 / plus") ∧
      ∃ s' w, Assembler.assemble (Text.ofAscii "X8 / plus\n") none
          { memory := .blank 1000, lomem := 401 } = .ok () s' ∧
        s'.memory.word 401 = .ok w ∧ Opcode.ofWord w = ⟨.operate, false, false⟩ ∧
        Instruction.rawOperand s'.memory 401 w = .ok (8, s'.lomem) ∧
        ∀ sp, (Instruction.decode s'.memory 401 sp).map (fun i => (i.opcode, i.operand)) =
          .ok (⟨.operate, false, false⟩, 8) := by
  have hinside : 2 + oddMemory.instructionLength 2 ≤ oddMemory.size := by decide
  have hroom : (401 : Int) + (oddMemory.lineAt 2).words.length + labelCount ≤
      (Memory.blank 1000).size := by
    rw [Memory.size_blank (by decide)]
    decide
  obtain ⟨t, hprint, -, hassemble⟩ := instructionText_assembles_alike hinside
  obtain ⟨s', w, hrun, hword, hopcode, hraw, hdecode⟩ :=
    hassemble { memory := .blank 1000, lomem := 401 } (by decide) hroom
  have hcontents : (({} : Printer).print t).device.contents = t :=
    (Printer.Unlimited.print (p := {}) ⟨rfl, rfl⟩ t).2
  have hshown : (printInstruction oddMemory (2 : Nat)).after? (·.device.contents) {} =
      some (Text.ofAscii "X8 / plus") := by decide +kernel
  rw [Action.after?, hprint] at hshown
  obtain rfl : t = Text.ofAscii "X8 / plus" := hcontents.symm.trans (Option.some.inj hshown)
  refine ⟨hinside, ⟨_, hprint {}, hcontents⟩, s', w, hrun, hword, hopcode, hraw, fun sp => ?_⟩
  exact hdecode s'.memory sp (fun _ _ _ => rfl) (fun hindirect => by cases hindirect)

end Listing

end Intcode
