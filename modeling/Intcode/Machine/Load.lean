import Intcode.Assembly.Assembler
import Intcode.Machine
import Intcode.Printer

/-!
# Loading programs and looking at machines

Programs are assembled right after the code that is already loaded. A dump shows
the registers, the globals and the code.
-/

namespace Intcode.Machine

/-- Puts an error into the context of a name. -/
def restateWithin (name : Text) : Failure → Failure
  | .report r => .report (r.within name)
  | e => e

/-- Assembles a text after the loaded code, under a name for its errors. Code that was
assembled before an error counts as loaded. -/
def load (name t : Text) (readError : Option HostError) : Action Machine Unit := fun m =>
  let memory := m.memory
  let m := { m with memory := default }
  match Assembler.assemble t readError { memory, lomem := m.lomem } with
  | .ok _ s => .ok () { m with memory := s.memory, lomem := s.lomem }
  | .error e s => .error (restateWithin name e) { m with memory := s.memory, lomem := s.lomem }

/-- Assembles a file of the host. -/
def loadFile (name : Text) : Action Machine Unit := do
  match (← get).peripherals.host.openFile name with
  | .error _ => Action.fail ⟨[name], .fatal .noCodeFile 0⟩
  | .ok (source, closer, host) =>
    modify fun m => { m with peripherals := { m.peripherals with host := (host.close closer).2 } }
    let (t, readError) := source.drain host
    load name t readError

/-- Prints the given number of words from an address on, each after a separator. -/
def printWordsFrom (m : Memory) (separator : Text) (a : Int) : Nat → Action Printer Unit
  | 0 => pure ()
  | n + 1 => do
    modify (·.print separator)
    let w ← Action.read fun _ => m.word a
    modify (·.print w.decimal)
    printWordsFrom m [Text.space] (a + 1) n

/-- Prints the words in a range on a line that starts with a title. -/
def printWords (title : String) (m : Memory) (start : Int) (n : Nat) : Action Printer Unit := do
  modify (·.print (Text.ofAscii title))
  printWordsFrom m [] start n
  modify (·.print [Text.lineFeed])

/-- Prints a register with its title. -/
def printRegister (title : String) (v : Int) : Action Printer Unit := do
  modify (·.print (Text.ofAscii title))
  modify (·.print (Text.ofInt v))

/-- Prints the registers, the globals and the code, a line each. -/
def dump (m : Machine) : Action Printer Unit := do
  printRegister "pc=" m.pc
  printRegister " sp=" m.sp.toInt
  printRegister " a=" m.a.toInt
  printRegister " b=" m.b.toInt
  printRegister " lomem=" m.lomem
  modify (·.print [Text.lineFeed])
  printWords "globals: " m.memory 0 codeStart.toNat
  printWords "code: " m.memory codeStart (m.lomem - codeStart).toNat

end Intcode.Machine
