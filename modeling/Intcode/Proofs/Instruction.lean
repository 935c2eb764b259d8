import Intcode.Instruction

/-!
# The layout of instruction words

An instruction word keeps its opcode in its low bits and a short operand in its
high byte. Both can be read back from the word that holds them.
-/

namespace Intcode

/-- A bit of a word is set exactly when masking the word leaves something of it. -/
theorem Cell.and_twoPow_ne_zero (w : Cell) (i : Nat) (hi : i < 16) :
    (w &&& BitVec.twoPow 16 i != 0) = w.getLsbD i := by
  have hone : BitVec.twoPow 16 i ≠ 0#16 := by
    intro hzero
    have hbit := congrArg (·.getLsbD i) hzero
    simp [hi] at hbit
  rw [BitVec.and_twoPow]
  by_cases hbit : w.getLsbD i = true
  · simp [hbit, hone]
  · simp [hbit]

/-- The bit of an indirect operand. -/
theorem Cell.isIndirect_eq (w : Cell) : w.isIndirect = w.getLsbD 3 :=
  w.and_twoPow_ne_zero 3 (by decide)

/-- The bit of an operand relative to the frame. -/
theorem Cell.isFramed_eq (w : Cell) : w.isFramed = w.getLsbD 4 :=
  w.and_twoPow_ne_zero 4 (by decide)

/-- The bit of an operand in the next word. -/
theorem Cell.isLong_eq (w : Cell) : w.isLong = w.getLsbD 5 :=
  w.and_twoPow_ne_zero 5 (by decide)

/-- The code of the function of a word is its low three bits. -/
theorem Function.code_ofWord (w : Cell) : (Function.ofWord w).code = w &&& 7 := by
  have hlow : (w &&& 7).toNat = w.toNat % 8 := by
    rw [BitVec.toNat_and]
    exact Nat.and_two_pow_sub_one_eq_mod w.toNat 3
  have hlt : w.toNat % 8 < 8 := Nat.mod_lt _ (by decide)
  apply BitVec.eq_of_toNat_eq
  rw [hlow]
  unfold Function.ofWord
  generalize w.toNat % 8 = k at hlt
  revert k
  decide

namespace Opcode

/-- The bits of an opcode lie in the low half of a word. -/
theorem bits_toNat_lt (o : Opcode) : o.bits.toNat < 32 := by
  obtain ⟨f, indirect, framed⟩ := o
  cases f <;> cases indirect <;> cases framed <;> decide

/-- The bits of an opcode are those of its function and its two marks. -/
theorem ofWord_bits (o : Opcode) : ofWord o.bits = o ∧ o.bits.isLong = false := by
  obtain ⟨f, indirect, framed⟩ := o
  cases f <;> cases indirect <;> cases framed <;> decide

/-- The opcode of an instruction with a long operand. -/
theorem ofWord_longWord (o : Opcode) : ofWord o.longWord = o ∧ o.longWord.isLong = true := by
  obtain ⟨f, indirect, framed⟩ := o
  cases f <;> cases indirect <;> cases framed <;> decide

/-- A short operand does not touch the low half of the word. -/
theorem getLsbD_shortWord (o : Opcode) (v : Cell) {i : Nat} (hi : i < 8) :
    (o.shortWord v).getLsbD i = o.bits.getLsbD i := by
  simp [shortWord, hi]

/-- The function of an instruction with a short operand. -/
theorem function_shortWord (o : Opcode) (v : Cell) :
    Function.ofWord (o.shortWord v) = Function.ofWord o.bits := by
  have hlow : (o.shortWord v).toNat % 8 = o.bits.toNat % 8 := by
    have hshift : (v <<< 8).toNat % 8 = 0 := by
      rw [BitVec.toNat_shiftLeft, Nat.shiftLeft_eq]
      omega
    have hor : (o.bits.toNat ||| (v <<< 8).toNat) % 8 =
        o.bits.toNat % 8 ||| (v <<< 8).toNat % 8 := Nat.or_mod_two_pow (n := 3)
    rw [shortWord, BitVec.toNat_or, hor, hshift, Nat.or_zero]
  simp only [Function.ofWord, hlow]

/-- The opcode of an instruction with a short operand. -/
theorem ofWord_shortWord (o : Opcode) (v : Cell) :
    ofWord (o.shortWord v) = o ∧ (o.shortWord v).isLong = false := by
  obtain ⟨hopcode, hlong⟩ := o.ofWord_bits
  constructor
  · rw [ofWord, function_shortWord, Cell.isIndirect_eq, Cell.isFramed_eq,
      getLsbD_shortWord o v (by decide), getLsbD_shortWord o v (by decide), ← Cell.isIndirect_eq,
      ← Cell.isFramed_eq]
    exact hopcode
  · rw [Cell.isLong_eq, getLsbD_shortWord o v (by decide), ← Cell.isLong_eq, hlong]

/-- The operand of an instruction with a short operand. -/
theorem shortWord_ushiftRight (o : Opcode) {v : Cell} (hv : v.toNat < 256) :
    o.shortWord v >>> 8 = v := by
  have hbits : o.bits >>> 8 = 0#16 := by
    apply BitVec.eq_of_toNat_eq
    have hlt := o.bits_toNat_lt
    rw [BitVec.toNat_ushiftRight, Nat.shiftRight_eq_div_pow]
    simp only [BitVec.toNat_ofNat]
    omega
  have hoperand : v <<< 8 >>> 8 = v := by
    apply BitVec.eq_of_toNat_eq
    rw [BitVec.toNat_ushiftRight, BitVec.toNat_shiftLeft, Nat.shiftRight_eq_div_pow,
      Nat.shiftLeft_eq]
    omega
  rw [shortWord, BitVec.ushiftRight_or_distrib, hbits, hoperand, BitVec.zero_or]

end Opcode

end Intcode
