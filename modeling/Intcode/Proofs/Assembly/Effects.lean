import Intcode.Assembly.Assembler
import Intcode.Proofs.Memory
import Intcode.Proofs.Assembly.LabelTable

/-!
# What a directive does

A directive that succeeds has one of ten effects on the assembler. The relation
`Step` lists them with the conditions under which they occur, and a directive is
carried out exactly as the relation says. A directive that fails either reports
an error or walks along the chain of a label that it defines.
-/

namespace Intcode.Assembler

/-- Running an action on the memory leaves the rest of the assembler alone. -/
theorem onMemory_apply {α : Type} (x : Action Memory α) (s : Assembler) :
    onMemory x s = match x s.memory with
      | .ok a memory => .ok a { s with memory }
      | .error e memory => .error e { s with memory } := by
  simp only [onMemory, Action.on]
  cases x s.memory <;> rfl

/-- Whether another word can be appended. -/
def HasRoom (s : Assembler) : Prop := s.lomem < s.memory.size - (labelCount : Int)

instance (s : Assembler) : Decidable s.HasRoom := inferInstanceAs (Decidable (_ < _))

/-- The state after a word has been appended. -/
def push (s : Assembler) (w : Cell) : Assembler :=
  { s with memory := s.memory.setCell s.lomem.toNat w, lomem := s.lomem + 1, packing := false }

/-- The state after the word `a` has been made to refer to label `n` with entry `k`. -/
def refer (s : Assembler) (n : Int) (k : Cell) (a : Nat) : Assembler :=
  { s with
    memory := s.memory.setCell a (Labels.pointer k)
    labels := s.labels.note n k a }

/-- The state after a byte has been packed into the high half of the last word. -/
def packHigh (s : Assembler) (c : UInt8) : Assembler :=
  { s with
    memory := s.memory.setCell (s.lomem - 1).toNat
      (.ofBytes (s.memory.cellAt (s.lomem - 1).toNat).low c)
    packing := false }

/-- The state after label `n` has been defined here and the memory patched. -/
def defineHere (s : Assembler) (n : Int) (memory : Memory) : Assembler :=
  { s with
    memory
    packing := false
    labels := s.labels.setEntry n (-Cell.ofInt s.lomem) }

/-- The state at the start of a segment. -/
def fresh (s : Assembler) : Assembler := { s with labels := .blank, packing := false }

/-- The state of an assembler at work: the code starts inside the address space, and a byte
waits for its neighbour only in a word of the memory. -/
structure Placed (s : Assembler) : Prop where
  nonneg : 0 ≤ s.lomem
  packed : s.packing = true → 0 < s.lomem ∧ s.lomem ≤ s.memory.size

/-- The code still starts inside the address space after a word has been appended. -/
theorem push_lomem_nonneg {s : Assembler} (h : 0 ≤ s.lomem) (w : Cell) : 0 ≤ (s.push w).lomem :=
  Int.add_nonneg h Int.one_nonneg

/-- The effect of a directive that succeeds. -/
inductive Step (s : Assembler) : Directive → Assembler → Prop
  | define {n k memory} (hentry : s.labels.lookup? n.toInt = some k) (hnonneg : 0 ≤ k.toInt)
      (hpatch : Labels.patchChain (Cell.ofInt s.lomem) Labels.chainLimit k s.memory =
        .ok () memory) :
      Step s (.label n) (s.defineHere n.toInt memory)
  | short {opcode marked v} (hshort : v.toNat < 256) (hroom : s.HasRoom) :
      Step s (.instruction opcode marked (.number v)) (s.push (opcode.shortWord v))
  | long {opcode marked v} (hlong : ¬ v.toNat < 256) (hroom : s.HasRoom)
      (hroom' : (s.push opcode.longWord).HasRoom) :
      Step s (.instruction opcode marked (.number v)) ((s.push opcode.longWord).push v)
  | labelOperand {opcode marked n k} (hroom : s.HasRoom) (hroom' : (s.push opcode.longWord).HasRoom)
      (hentry : s.labels.lookup? n.toInt = some k) :
      Step s (.instruction opcode marked (.label n))
        (((s.push opcode.longWord).push 0).refer n.toInt k (s.lomem + 1).toNat)
  | firstByte {v} (hpacking : s.packing = false) (hroom : s.HasRoom) :
      Step s (.byte v) { s.push (.ofByte v.low) with packing := true }
  | secondByte {v} (hpacking : s.packing = true) : Step s (.byte v) (s.packHigh v.low)
  | word {v} (hroom : s.HasRoom) : Step s (.word (.number v)) (s.push v)
  | labelWord {n k} (hroom : s.HasRoom) (hentry : s.labels.lookup? n.toInt = some k) :
      Step s (.word (.label n)) ((s.push 0).refer n.toInt k s.lomem.toNat)
  | global {n l k} (hlt : n.toNat < s.memory.size) (hentry : s.labels.lookup? l.toInt = some k) :
      Step s (.global n l) (s.refer l.toInt k n.toNat)
  | segmentEnd (hpending : s.labels.pending? = none) : Step s .segmentEnd s.fresh

section Equations

variable {s : Assembler}

/-- There is memory wherever there is room. -/
theorem HasRoom.lt_size (h : s.HasRoom) : s.lomem < s.memory.size := by
  have : (0 : Int) ≤ labelCount := Int.natCast_nonneg _
  unfold HasRoom at h
  omega

/-- A word is appended where there is room. -/
theorem append_eq (h : 0 ≤ s.lomem) (w : Cell) :
    append w s = if s.HasRoom then .ok () (s.push w)
      else .error (.report (.fatal .badCode s.lomem)) s := by
  simp only [append, Action.bind_apply, Action.get_apply]
  by_cases hroom : s.HasRoom
  · have hfull : ¬ (s.memory.size : Int) - labelCount ≤ s.lomem := by
      unfold HasRoom at hroom
      omega
    simp only [if_pos hroom, if_neg hfull, Action.bind_apply, onMemory_apply,
      Memory.setWord_of_lt h hroom.lt_size]
    rfl
  · have hfull : (s.memory.size : Int) - labelCount ≤ s.lomem := by
      unfold HasRoom at hroom
      omega
    simp only [if_neg hroom, if_pos hfull]
    rfl

/-- What follows the appending of a word runs where there is room. -/
theorem append_bind {α : Type} (h : 0 ≤ s.lomem) (w : Cell) (f : Unit → Action Assembler α) :
    (append w >>= f) s = if s.HasRoom then f () (s.push w)
      else .error (.report (.fatal .badCode s.lomem)) s := by
  rw [Action.bind_apply, append_eq h]
  by_cases hroom : s.HasRoom
  · simp only [if_pos hroom]
  · simp only [if_neg hroom]

/-- A word of zeros in the memory is made to refer to a label. -/
theorem reference_eq {a : Nat} (hlt : a < s.memory.size) (hzero : s.memory.cellAt a = 0) (n : Int) :
    reference n a s = match s.labels.lookup? n with
      | none => .error (.report (.fatal .badCode a)) s
      | some k => .ok () (s.refer n k a) := by
  have hword : s.memory.word a = .ok 0 := by
    rw [Memory.word_of_lt (Int.natCast_nonneg a) (by omega), Int.toNat_natCast, hzero]
  have hset (v : Cell) : Memory.setWord a (0 + v) s.memory = .ok () (s.memory.setCell a v) := by
    have hsum : 0 + v = v := BitVec.zero_add v
    rw [hsum, Memory.setWord_of_lt (Int.natCast_nonneg a) (by omega), Int.toNat_natCast]
  simp only [reference, Action.bind_apply, Action.get_apply]
  cases hentry : s.labels.lookup? n with
  | none => rfl
  | some k =>
    by_cases hneg : k.toInt < 0
    · have hnot : ¬ 0 ≤ k.toInt := by omega
      simp only [if_neg hnot, Action.bind_apply, onMemory_apply, Action.read, hword, hset,
        if_pos hneg, refer, Labels.pointer, Labels.note]
    · have hnonneg : 0 ≤ k.toInt := by omega
      simp only [if_pos hnonneg, Action.bind_apply, Action.modify_apply, onMemory_apply,
        Action.read, hword, hset, if_neg hneg, refer, Labels.pointer, Labels.note]

/-- A word that refers to a label is appended where there is room. -/
theorem appendReference_eq (h : 0 ≤ s.lomem) (n : Cell) :
    appendReference n s =
      if s.HasRoom then
        match s.labels.lookup? n.toInt with
        | none => .error (.report (.fatal .badCode s.lomem)) (s.push 0)
        | some k => .ok () ((s.push 0).refer n.toInt k s.lomem.toNat)
      else .error (.report (.fatal .badCode s.lomem)) s := by
  simp only [appendReference, append_bind h]
  by_cases hroom : s.HasRoom
  · have hlt : s.lomem.toNat < s.memory.size := by have := hroom.lt_size; omega
    have hnat : (s.lomem.toNat : Int) = s.lomem := by omega
    have hlast : (s.push 0).lomem - 1 = s.lomem := by
      simp only [push]
      omega
    have hzero : (s.push 0).memory.cellAt s.lomem.toNat = 0 := Memory.cellAt_setCell_self hlt 0
    have href := reference_eq (s := s.push 0) (by simpa [push] using hlt) hzero n.toInt
    rw [hnat] at href
    simp only [if_pos hroom, Action.bind_apply, Action.get_apply, hlast, href]
    rfl
  · simp only [if_neg hroom]

/-- A label is defined by patching the words that wait for it. -/
theorem define_eq (n addr : Int) :
    define n addr s = match s.labels.lookup? n with
      | none => .error (.report (.fatal .badCode addr)) s
      | some k =>
        if k.toInt < 0 then .error (.report (.fatal .duplicateLabel n)) s
        else
          match Labels.patchChain (Cell.ofInt addr) Labels.chainLimit k s.memory with
          | .ok _ memory =>
            .ok () { s with memory, labels := s.labels.setEntry n (-Cell.ofInt addr) }
          | .error e memory => .error e { s with memory } := by
  simp only [define, Action.bind_apply, Action.get_apply]
  cases s.labels.lookup? n with
  | none => rfl
  | some k =>
    by_cases hneg : k.toInt < 0
    · simp only [if_pos hneg]
      rfl
    · simp only [if_neg hneg, Action.bind_apply, onMemory_apply]
      cases Labels.patchChain (Cell.ofInt addr) Labels.chainLimit k s.memory <;> rfl

/-- A byte is packed into the last word if that waits for it, and else starts a new word. -/
theorem appendByte_eq (h : s.Placed) (c : UInt8) :
    appendByte c s =
      if s.packing then .ok () (s.packHigh c)
      else if s.HasRoom then .ok () { s.push (.ofByte c) with packing := true }
      else .error (.report (.fatal .badCode s.lomem)) s := by
  have hfits := s.memory.fits
  have hsize : (s.memory.size : Int) ≤ 0x800000000000 := by
    unfold Memory.size
    omega
  have hnonneg := h.nonneg
  simp only [appendByte, Action.bind_apply, Action.get_apply]
  by_cases hpacking : s.packing = true
  · obtain ⟨hpos, hle⟩ := h.packed hpacking
    have hwrap : wrap (2 * (s.lomem - 1) + 1) = 2 * (s.lomem - 1) + 1 :=
      wrap_of_lt (by omega) (by omega)
    have hhalf : (2 * (s.lomem - 1) + 1).toNat / 2 = (s.lomem - 1).toNat := by omega
    have hodd : ¬ (2 * (s.lomem - 1) + 1).toNat % 2 = 0 := by omega
    simp only [hpacking, Bool.not_true, Bool.false_eq_true, if_false, if_true, Action.bind_apply,
      Action.get_apply, onMemory_apply, hwrap,
      Memory.setByte_of_lt (m := s.memory) (b := 2 * (s.lomem - 1) + 1) (by omega) (by omega),
      hhalf,
      if_neg hodd, Action.modify_apply, packHigh]
  · have hnot : s.packing = false := by simpa using hpacking
    simp only [hnot, Bool.not_false, Bool.false_eq_true, if_false, if_true, Action.bind_apply,
      append_eq hnonneg]
    by_cases hroom : s.HasRoom
    · have hlt := hroom.lt_size
      have hlast : (s.push 0).lomem - 1 = s.lomem := by
        simp only [push]
        omega
      have hwrap : wrap (2 * s.lomem + 0) = 2 * s.lomem := by
        rw [Int.add_zero]
        exact wrap_of_lt (by omega) (by omega)
      have hsame : (s.push 0).memory.size = s.memory.size := Memory.size_setCell ..
      have hhalf : (2 * s.lomem).toNat / 2 = s.lomem.toNat := by omega
      have heven : (2 * s.lomem).toNat % 2 = 0 := by omega
      have hzero : (s.push 0).memory.cellAt s.lomem.toNat = 0 :=
        Memory.cellAt_setCell_self (by omega) 0
      simp only [if_pos hroom, Action.get_apply, hlast, onMemory_apply, hwrap,
        Memory.setByte_of_lt (m := (s.push 0).memory) (b := 2 * s.lomem) (by omega) (by omega),
        hhalf,
        if_pos heven, hzero, Action.modify_apply]
      simp only [push, Memory.setCell_setCell]
      rfl
    · simp only [if_neg hroom]

/-- The effect of an instruction whose operand is a number. -/
theorem emit_number_eq (h : 0 ≤ s.lomem) (opcode : Opcode) (marked : Bool) (v : Cell) :
    emit (.instruction opcode marked (.number v)) s =
      if v.toNat < 256 then append (opcode.shortWord v) s
      else if s.HasRoom then append v (s.push opcode.longWord)
      else .error (.report (.fatal .badCode s.lomem)) s := by
  simp only [emit]
  split
  · rfl
  · exact append_bind h _ _

/-- The effect of an instruction whose operand is a label. -/
theorem emit_labelOperand_eq (h : 0 ≤ s.lomem) (opcode : Opcode) (marked : Bool) (n : Cell) :
    emit (.instruction opcode marked (.label n)) s =
      if s.HasRoom then appendReference n (s.push opcode.longWord)
      else .error (.report (.fatal .badCode s.lomem)) s := append_bind h _ _

/-- The effect of a global directive. -/
theorem emit_global_eq (n l : Cell) :
    emit (.global n l) s =
      if n.toNat < s.memory.size then
        match s.labels.lookup? l.toInt with
        | none => .error (.report (.fatal .badCode n.toNat))
            { s with memory := s.memory.setCell n.toNat 0 }
        | some k => .ok () (s.refer l.toInt k n.toNat)
      else .error (.report (.fatal .badCode s.lomem)) s := by
  have haddress : n.address = n.toNat := rfl
  simp only [emit, Action.bind_apply, Action.get_apply]
  by_cases hlt : n.toNat < s.memory.size
  · have hfit : ¬ (s.memory.size : Int) ≤ n.address := by omega
    have hset : Memory.setWord n.address 0 s.memory = .ok () (s.memory.setCell n.toNat 0) := by
      rw [Memory.setWord_of_lt (by omega) (by omega), haddress, Int.toNat_natCast]
    have href := reference_eq (s := { s with memory := s.memory.setCell n.toNat 0 })
      (by simpa using hlt) (Memory.cellAt_setCell_self hlt 0) l.toInt
    rw [← haddress] at href
    simp only [if_neg hfit, if_pos hlt, Action.bind_apply, onMemory_apply, hset, href]
    cases s.labels.lookup? l.toInt with
    | none => rfl
    | some k => simp only [refer, Memory.setCell_setCell]
  · have hbeyond : (s.memory.size : Int) ≤ n.address := by omega
    simp only [if_pos hbeyond, if_neg hlt]
    rfl

/-- The effect of the end of a segment. -/
theorem emit_segmentEnd_eq :
    emit .segmentEnd s = match s.labels.pending? with
      | some n => .error (.report (.fatal .unsetLabel n)) s
      | none => .ok () s.fresh := by
  simp only [emit, checkResolved, Action.bind_apply, Action.get_apply]
  cases s.labels.pending? <;> rfl

/-- The effect of a label definition. -/
theorem emit_label_eq (n : Cell) :
    emit (.label n) s = match s.labels.lookup? n.toInt with
      | none => .error (.report (.fatal .badCode s.lomem)) s
      | some k =>
        if k.toInt < 0 then .error (.report (.fatal .duplicateLabel n.toInt)) s
        else
          match Labels.patchChain (Cell.ofInt s.lomem) Labels.chainLimit k s.memory with
          | .ok _ memory => .ok () (s.defineHere n.toInt memory)
          | .error e memory => .error e { s with memory } := by
  simp only [emit, Action.bind_apply, Action.get_apply, define_eq]
  cases s.labels.lookup? n.toInt with
  | none => rfl
  | some k =>
    by_cases hneg : k.toInt < 0
    · simp only [if_pos hneg]
    · simp only [if_neg hneg]
      cases Labels.patchChain (Cell.ofInt s.lomem) Labels.chainLimit k s.memory <;> rfl

/-- A word is appended exactly where there is room. -/
theorem append_eq_ok_iff (h : 0 ≤ s.lomem) {w : Cell} {s' : Assembler} :
    append w s = .ok () s' ↔ s.HasRoom ∧ s' = s.push w := by
  rw [append_eq h]
  split
  · constructor
    · rintro ⟨⟩
      exact ⟨‹_›, rfl⟩
    · rintro ⟨-, rfl⟩
      rfl
  · constructor
    · rintro ⟨⟩
    · exact fun hroom => absurd hroom.1 ‹_›

/-- A word that refers to a label is appended exactly where there is room and the label has a
number. -/
theorem appendReference_eq_ok_iff (h : 0 ≤ s.lomem) {n : Cell} {s' : Assembler} :
    appendReference n s = .ok () s' ↔ s.HasRoom ∧ ∃ k, s.labels.lookup? n.toInt = some k ∧
      s' = (s.push 0).refer n.toInt k s.lomem.toNat := by
  rw [appendReference_eq h]
  split
  · cases s.labels.lookup? n.toInt with
    | none => simp only [reduceCtorEq, false_and, exists_false, and_false]
    | some k =>
      constructor
      · rintro ⟨⟩
        exact ⟨‹_›, k, rfl, rfl⟩
      · rintro ⟨-, k', ⟨⟩, rfl⟩
        rfl
  · constructor
    · rintro ⟨⟩
    · exact fun hroom => absurd hroom.1 ‹_›

end Equations

/-- A directive that is carried out has one of the effects. -/
theorem Step.of_emit {s s' : Assembler} (h : s.Placed) {d : Directive}
    (hemit : emit d s = .ok () s') : Step s d s' := by
  have hnonneg := h.nonneg
  cases d with
  | label n =>
    rw [emit_label_eq] at hemit
    cases hentry : s.labels.lookup? n.toInt with
    | none => simp only [hentry, reduceCtorEq] at hemit
    | some k =>
      by_cases hneg : k.toInt < 0
      · simp only [hentry, if_pos hneg, reduceCtorEq] at hemit
      · cases hpatch : Labels.patchChain (Cell.ofInt s.lomem) Labels.chainLimit k s.memory with
        | ok u memory =>
          simp only [hentry, if_neg hneg, hpatch, EStateM.Result.ok.injEq, true_and] at hemit
          exact hemit ▸ .define hentry (by omega) hpatch
        | error e memory => simp only [hentry, if_neg hneg, hpatch, reduceCtorEq] at hemit
  | instruction opcode marked operand =>
    have hnonneg' := push_lomem_nonneg hnonneg opcode.longWord
    cases operand with
    | number v =>
      rw [emit_number_eq hnonneg] at hemit
      split at hemit
      · obtain ⟨hroom, rfl⟩ := (append_eq_ok_iff hnonneg).mp hemit
        exact .short ‹_› hroom
      · split at hemit
        · obtain ⟨hroom', rfl⟩ := (append_eq_ok_iff hnonneg').mp hemit
          exact .long ‹_› ‹_› hroom'
        · cases hemit
    | label n =>
      rw [emit_labelOperand_eq hnonneg] at hemit
      split at hemit
      · obtain ⟨hroom', k, hentry, rfl⟩ := (appendReference_eq_ok_iff hnonneg').mp hemit
        exact .labelOperand ‹_› hroom' hentry
      · cases hemit
  | byte v =>
    change appendByte v.low s = _ at hemit
    rw [appendByte_eq h] at hemit
    split at hemit
    · cases hemit
      exact .secondByte ‹_›
    · split at hemit
      · cases hemit
        exact .firstByte (by simpa using ‹¬ s.packing = true›) ‹_›
      · cases hemit
  | word operand =>
    cases operand with
    | number v =>
      obtain ⟨hroom, rfl⟩ := (append_eq_ok_iff hnonneg).mp hemit
      exact .word hroom
    | label n =>
      obtain ⟨hroom, k, hentry, rfl⟩ := (appendReference_eq_ok_iff hnonneg).mp hemit
      exact .labelWord hroom hentry
  | global n l =>
    rw [emit_global_eq] at hemit
    split at hemit
    · cases hentry : s.labels.lookup? l.toInt with
      | none => simp only [hentry, reduceCtorEq] at hemit
      | some k =>
        simp only [hentry, EStateM.Result.ok.injEq, true_and] at hemit
        exact hemit ▸ .global ‹_› hentry
    · cases hemit
  | openGlobal n => cases hemit
  | segmentEnd =>
    rw [emit_segmentEnd_eq] at hemit
    cases hpending : s.labels.pending? with
    | none =>
      simp only [hpending, EStateM.Result.ok.injEq, true_and] at hemit
      exact hemit ▸ .segmentEnd hpending
    | some n => simp only [hpending, reduceCtorEq] at hemit
  | unknown c => cases hemit

/-- Where the conditions of an effect hold, the directive is carried out with that effect. -/
theorem Step.emit_eq {s s' : Assembler} (h : s.Placed) {d : Directive} (hstep : Step s d s') :
    emit d s = .ok () s' := by
  have hnonneg := h.nonneg
  cases hstep with
  | define hentry hk hpatch =>
    rw [emit_label_eq]
    simp only [hentry, if_neg (Int.not_lt.mpr hk), hpatch]
  | short hshort hroom =>
    rw [emit_number_eq hnonneg, if_pos hshort, append_eq hnonneg, if_pos hroom]
  | long hlong hroom hroom' =>
    rw [emit_number_eq hnonneg, if_neg hlong, if_pos hroom,
      append_eq (push_lomem_nonneg hnonneg _), if_pos hroom']
  | labelOperand hroom hroom' hentry =>
    rw [emit_labelOperand_eq hnonneg, if_pos hroom]
    exact (appendReference_eq_ok_iff (push_lomem_nonneg hnonneg _)).mpr ⟨hroom', _, hentry, rfl⟩
  | firstByte hpacking hroom =>
    change appendByte _ s = _
    rw [appendByte_eq h, if_neg (by simp [hpacking]), if_pos hroom]
  | secondByte hpacking =>
    change appendByte _ s = _
    rw [appendByte_eq h, if_pos hpacking]
  | word hroom => exact (append_eq_ok_iff hnonneg).mpr ⟨hroom, rfl⟩
  | labelWord hroom hentry =>
    exact (appendReference_eq_ok_iff hnonneg).mpr ⟨hroom, _, hentry, rfl⟩
  | global hlt hentry =>
    rw [emit_global_eq, if_pos hlt]
    simp only [hentry]
  | segmentEnd hpending =>
    rw [emit_segmentEnd_eq]
    simp only [hpending]

/-- A directive is carried out exactly as the relation of effects says. -/
theorem emit_eq_ok_iff {s s' : Assembler} (h : s.Placed) {d : Directive} :
    emit d s = .ok () s' ↔ Step s d s' :=
  ⟨Step.of_emit h, Step.emit_eq h⟩

end Intcode.Assembler
