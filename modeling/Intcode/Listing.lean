import Intcode.Instruction.Operation
import Intcode.Instruction
import Intcode.Printer
import Intcode.Action

/-!
# Listings

A listing shows the instructions in a range of memory, one to a line after its
address, in the notation of the assembler.
-/

namespace Intcode.Listing

/-- The remark after an instruction: the name of the extended operation it asks for. -/
def remark (opcode : Opcode) (operand : Cell) : Text :=
  if opcode = ⟨.operate, false, false⟩ && Operation.nameOf operand ≠ [] then
    Text.ofAscii " / " ++ Operation.nameOf operand
  else []

/-- The text of the instruction at an address, and the address after it. An instruction
whose operand would lie beyond the memory is shown without it. -/
def instructionText (m : Memory) (pc : Int) : Except Failure (Text × Int) := do
  let w ← m.word pc
  let opcode := Opcode.ofWord w
  if w.isLong && decide (m.size ≤ pc + 1) then
    return (opcode.letters ++ Text.ofAscii "???", pc + 1)
  else
    let (d, next) ← Instruction.rawOperand m pc w
    return (opcode.letters ++ d.decimal ++ remark opcode d, next)

/-- Prints the instruction at an address and returns the address after it. -/
def printInstruction (m : Memory) (pc : Int) : Action Printer Int := do
  let (t, next) ← Action.read fun _ => instructionText m pc
  modify (·.print t)
  return next

/-- Prints at most the given number of lines, up to the address `stop`. A failed printer
ends the listing with its line. -/
def printLines (m : Memory) (stop : Int) : Nat → Int → Action Printer Unit
  | 0, _ => pure ()
  | n + 1, pc => do
    if stop ≤ pc then pure ()
    else
      Printer.printInt pc 10
      modify (·.print [9])
      let next ← printInstruction m pc
      modify (·.print [Text.lineFeed])
      if (← get).failed.isSome then pure () else printLines m stop n next

/-- Prints the instructions from the address `start` up to the address `stop`. Each has at
least one word, so there are no more lines than words. -/
def printRange (m : Memory) (start stop : Int) : Action Printer Unit :=
  printLines m stop (stop - start).toNat start

end Intcode.Listing
