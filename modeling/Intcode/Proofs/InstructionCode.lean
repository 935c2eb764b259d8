import Intcode.Proofs.InstructionText
import Intcode.Proofs.Numerals

/-!
# Decoding undoes encoding

An instruction is written as the letter of its function, the letters of its marks and
a numeral. The assembler makes one word of it or two, and the machine gets the function,
the marks and the number back from them.

Main statement: the instruction decoded where it was assembled has the letter's function,
ends where the assembler goes on, and has the operand that the numeral, the frame base
and the memory make up.
-/

namespace Intcode

namespace CodeLine

/-- However the operand of an instruction is spelled, the text is read as the instruction. -/
theorem parseAll_spelled (i : CodeLine) (marked : Bool) {t : Text}
    (ht : Text.IsNumeral i.operand t) {c : UInt8}
    (hc : Text.isSeparator (Text.foldReturn c) = true) :
    Directive.parseAll (Text.significant
        (i.opcode.letters ++ (if marked then [Text.byte 'G'] else []) ++ t ++ [c])) =
      [.instruction i.opcode marked (.number i.operand)] := by
  have hwritten : Directive.Written (.instruction i.opcode marked (.number i.operand))
      (i.opcode.letters ++ (if marked then [Text.byte 'G'] else []) ++ t) :=
    .instruction (.number ht)
  have hall : Directive.WrittenAll [.instruction i.opcode marked (.number i.operand)]
      (i.opcode.letters ++ (if marked then [Text.byte 'G'] else []) ++ t ++ [c] ++ []) := by
    apply Directive.WrittenAll.cons hwritten (List.cons_ne_nil _ _) _ .nil
    intro d hd
    rwa [List.mem_singleton.mp hd]
  rw [List.append_nil] at hall
  exact hall.parseAll

/-- The words of an instruction are decoded to its opcode and to the operand that this makes of the
number. -/
theorem decode_of_holds {m : Memory} {a : Nat} {i : CodeLine} (h : m.Holds a i.words) (sp : Cell) :
    ∃ w, m.word a = .ok w ∧ Opcode.ofWord w = i.opcode ∧
      Instruction.decode m a sp = (i.opcode.effective m i.operand sp).map fun d =>
        ⟨i.opcode, w, d, ((a + i.words.length : Nat) : Int)⟩ := by
  obtain ⟨hlength, hline⟩ := parts_of_holds h
  have hinside : a + m.instructionLength a ≤ m.size := hlength ▸ h.1
  have hopcode : Opcode.ofWord (m.cellAt a) = i.opcode := congrArg CodeLine.opcode hline
  have hoperand : m.rawOperandAt a = i.operand := congrArg CodeLine.operand hline
  have hword := Memory.word_of_inside hinside
  have hraw := Memory.rawOperand_of_inside hinside
  rw [hoperand, hlength] at hraw
  refine ⟨m.cellAt a, hword, hopcode, ?_⟩
  rw [Instruction.decode_eq hword hraw, hopcode]

end CodeLine

namespace Instruction

/-- The text of an instruction with any numeral as its operand and a separator behind it is accepted
wherever there is room for its words. It becomes one word if the number, cut to a cell, is from 0 to
255, and else two, and no other word changes. Decoding at that address gives the function of the
letter and the end of the code. The operand is the number, the frame base is added to it if the
text has the letter for that, and if the text has the letter for an indirect operand, it is replaced
by the word which it points to; if that is outside the memory, the address is wrong. -/
theorem decode_assembled (o : Opcode) (marked : Bool) (n : Numeral) {c : UInt8}
    (hc : Text.isSeparator (Text.foldReturn c) = true) {s : Assembler} (hstart : 0 ≤ s.lomem)
    (hroom : s.lomem + (if 0 ≤ n.cell.toInt ∧ n.cell.toInt ≤ 255 then 1 else 2) + labelCount ≤
      s.memory.size) (sp : Cell) :
    ∃ s' w,
      Assembler.assemble
          (o.letters ++ (if marked then [Text.byte 'G'] else []) ++ n.text ++ [c]) none s =
        .ok () s' ∧
      s'.lomem = s.lomem + (if 0 ≤ n.cell.toInt ∧ n.cell.toInt ≤ 255 then 1 else 2) ∧
      s'.memory.size = s.memory.size ∧
      (∀ j : Nat, j < s.lomem ∨ s'.lomem ≤ j → s'.memory.cellAt j = s.memory.cellAt j) ∧
      s'.memory.word s.lomem = .ok w ∧ w &&& 7 = o.function.code ∧
      let d := if o.framed then n.cell + sp else n.cell
      decode s'.memory s.lomem sp =
        if o.indirect then
          if d.toNat < s'.memory.size then .ok ⟨o, w, s'.memory.cellAt d.toNat, s'.lomem⟩
          else .error (.address d.toNat)
        else .ok ⟨o, w, d, s'.lomem⟩ := by
  obtain ⟨a, ha⟩ := Int.eq_ofNat_of_zero_le hstart
  let i : CodeLine := ⟨o, n.cell⟩
  have hlength : (i.words.length : Int) =
      if 0 ≤ n.cell.toInt ∧ n.cell.toInt ≤ 255 then 1 else 2 := by
    have hlt := n.cell.isLt
    have hsigned := BitVec.toInt_eq_toNat_cond n.cell
    unfold CodeLine.words
    by_cases hshort : n.cell.toNat < 256
    · rw [if_pos hshort, if_pos (by split at hsigned <;> omega)]
      rfl
    · rw [if_neg hshort, if_neg (by split at hsigned <;> omega)]
      rfl
  rw [← hlength] at hroom ⊢
  have hassemble := i.assemble_of_parse (i.parseAll_spelled marked n.isNumeral hc) ha (by omega)
  have hfresh : s.fresh.lomem = a := ha
  have hsize : s.fresh.memory.size = s.memory.size := rfl
  have hend : (s.fresh.pushAll i.words).lomem = s.lomem + i.words.length :=
    Assembler.lomem_pushAll ..
  have hholds : (s.fresh.pushAll i.words).memory.Holds a i.words :=
    Assembler.holds_pushAll hfresh (by omega)
  obtain ⟨w, hword, hopcode, hdecode⟩ := CodeLine.decode_of_holds hholds sp
  refine ⟨s.fresh.pushAll i.words, w, hassemble, hend, ?_, ?_, ha ▸ hword, ?_, ?_⟩
  · exact Assembler.size_pushAll ..
  · intro j hj
    rw [hend] at hj
    exact Assembler.cellAt_pushAll_of_outside hfresh (by omega)
  · have hfunction : Function.ofWord w = o.function := congrArg Opcode.function hopcode
    rw [← Function.code_ofWord, hfunction]
  · intro d
    have hnext : ((a + i.words.length : Nat) : Int) = (s.fresh.pushAll i.words).lomem := by omega
    have hoperand : i.opcode.effective (s.fresh.pushAll i.words).memory i.operand sp =
        if o.indirect then (s.fresh.pushAll i.words).memory.word d.address else .ok d := rfl
    rw [ha, hdecode, hnext, hoperand, Memory.word_address]
    by_cases hindirect : o.indirect = true
    · rw [if_pos hindirect, if_pos hindirect]
      split <;> rfl
    · rw [if_neg hindirect, if_neg hindirect]
      rfl

/-- A numeral below the range of a cell, which is cut to ten. -/
def wrappedNumeral : Numeral where
  negative := true
  digits := Text.ofAscii "65526"
  isDigit := List.all_eq_true.mp (by decide)

/-- The instruction points to its own word, with all letters in front of the numeral. -/
theorem decode_assembled_wrapped :
    (401 : Int) + 1 + labelCount ≤ (Memory.blank 1000).size ∧
      ∃ s' w, Assembler.assemble (Text.ofAscii "LIPG-65526\r") none
          { memory := .blank 1000, lomem := 401 } = .ok () s' ∧
        s'.lomem = 402 ∧ s'.memory.word 401 = .ok w ∧
        decode s'.memory 401 391 = .ok ⟨⟨.load, true, true⟩, w, w, 402⟩ := by
  have hsize : (Memory.blank 1000).size = 1000 := Memory.size_blank (by decide)
  have hcell : wrappedNumeral.cell = 10 := by decide
  have hroom : (401 : Int) +
      (if 0 ≤ wrappedNumeral.cell.toInt ∧ wrappedNumeral.cell.toInt ≤ 255 then 1 else 2) +
        labelCount ≤ (Memory.blank 1000).size := by
    rw [hcell, hsize]
    decide
  obtain ⟨s', w, hassemble, hend, hsame, -, hword, -, hdecode⟩ :=
    decode_assembled ⟨.load, true, true⟩ true wrappedNumeral (c := Text.carriageReturn) (by decide)
      (s := { memory := .blank 1000, lomem := 401 }) (by decide) hroom 391
  have hown : s'.memory.cellAt 401 = w := by
    rw [Memory.word_of_lt (by decide) (by rw [hsame, hsize]; decide)] at hword
    exact Except.ok.inj hword
  rw [hcell] at hend hdecode
  have hpointer : ((10 : Cell) + 391).toNat = 401 := by decide
  have hinside : 401 < s'.memory.size := by
    rw [hsame, hsize]
    decide
  refine ⟨by rw [hsize]; decide, s', w, hassemble, hend, hword, ?_⟩
  rw [hdecode, hend]
  dsimp only
  rw [if_pos rfl, if_pos rfl, hpointer, if_pos hinside, hown]
  rfl

end Instruction

end Intcode
