import Intcode.Proofs.Machine.Steps
import Intcode.Proofs.Memory

/-!
# Frames

A frame starts with two link words: the frame base of the caller and the address
to go back to. Entering a routine stores them, and a return goes where they say.
These lemmas give the effect of both on machines in which the frame fits.
-/

namespace Intcode

namespace Machine

/-- What follows the storing of a word inside the memory. -/
theorem setWord_bind {m : Machine} {a : Nat} (h : a < m.memory.size) (v : Cell)
    (f : Unit → Action Machine Unit) :
    (onMemory (Memory.setWord a v) >>= f) m =
      f () { m with memory := m.memory.setCell a v } := by
  rw [Action.bind_apply, onMemory_apply, Memory.setWord_of_lt (Int.natCast_nonneg a) (by omega),
    Int.toNat_natCast]

/-- What follows the reading of a word inside the memory. -/
theorem word_bind {m : Machine} {a : Nat} (h : a < m.memory.size) (f : Cell → Action Machine Unit) :
    (word a >>= f) m = f (m.memory.cellAt a) m := by
  have hword : m.memory.word a = .ok (m.memory.cellAt a) :=
    Memory.word_of_lt (Int.natCast_nonneg a) (by omega)
  exact Action.read_bind_apply (f := fun m : Machine => m.memory.word a) hword f

/-- A routine is entered when its frame fits into the memory. -/
theorem enter_eq {m : Machine} {frame : Cell} (hfits : frame.toNat + 1 < m.memory.size)
    (base : Cell) (back target : Int) :
    enter frame base back target m = .ok () { m with
      memory := m.memory.storeWords frame.toNat [base, Cell.ofInt back]
      sp := frame
      pc := target } := by
  have hfirst : frame.address = (frame.toNat : Nat) := rfl
  have hsecond : frame.address + 1 = (frame.toNat + 1 : Nat) := rfl
  rw [enter, hsecond, hfirst, setWord_bind (by omega),
    setWord_bind (by simp only [Memory.size_setCell]; omega)]
  rfl

/-- The frame of a routine that has been entered fits into the memory. -/
theorem fits_of_enter {m m' : Machine} {frame base : Cell} {back target : Int}
    (h : enter frame base back target m = .ok () m') : frame.toNat + 1 < m.memory.size := by
  have hlt := frame.isLt
  have haddress : frame.address = (frame.toNat : Nat) := rfl
  obtain ⟨_, m₁, hfirst, hrest⟩ := Action.bind_eq_ok_iff.mp h
  obtain ⟨_, m₂, hsecond, -⟩ := Action.bind_eq_ok_iff.mp hrest
  have hsize : m₁.memory.size = m.memory.size := by
    rw [onMemory_apply, Memory.setWord] at hfirst
    cases hslot : m.memory.slot frame.address with
    | error e => simp only [hslot, reduceCtorEq] at hfirst
    | ok k =>
      simp only [hslot, EStateM.Result.ok.injEq, true_and] at hfirst
      rw [← hfirst]
      exact Memory.size_setCell ..
  rw [onMemory_apply, Memory.setWord, Memory.slot_of_near _ (by omega) (by omega)] at hsecond
  by_cases hinside : 0 ≤ frame.address + 1 ∧ frame.address + 1 < m₁.memory.size
  · omega
  · simp only [if_neg hinside, reduceCtorEq] at hsecond

/-- A return goes where the link words say. -/
theorem leave_eq {m : Machine} {base : Cell} {back : Int}
    (hfits : m.sp.toNat + 1 < m.memory.size) (hlt : m.sp.toNat + 1 < 65536)
    (hbase : m.memory.cellAt m.sp.toNat = base)
    (hback : m.memory.cellAt (m.sp.toNat + 1) = Cell.ofInt back)
    (hbounds : 0 ≤ back ∧ back ≤ 65535) : leave m = .ok () { m with sp := base, pc := back } := by
  have hfirst : m.sp.address = (m.sp.toNat : Nat) := rfl
  have hsecond : (m.sp.plus 1).address = (m.sp.toNat + 1 : Nat) := by
    have hone : (1 : Cell).toNat = 1 := rfl
    rw [Cell.plus_eq, Cell.address, BitVec.toNat_add, hone, Nat.mod_eq_of_lt hlt]
  have haddress : (Cell.ofInt back).address = back := by
    rw [Cell.address, Cell.toNat_ofInt hbounds.1 (by omega)]
    omega
  unfold leave
  rw [Action.bind_apply, Action.get_apply]
  dsimp only
  rw [hsecond, word_bind hfits, hback, hfirst, word_bind (by omega), hbase, haddress]
  rfl

/-- The extended operation that returns. -/
theorem operate_of_leave {x : Cell} (hx : Operation.ofCell? x = some .leave) :
    operate x = leave := by
  unfold operate
  rw [hx]

end Machine

end Intcode
