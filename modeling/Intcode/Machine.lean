import Intcode.Memory.PackedString
import Intcode.Peripherals.ReadNumber
import Intcode.Format

/-!
# The machine

The machine has a memory, a program counter, a frame base, two accumulators and
its peripherals. The words below the code are the globals; each holds its own
number at first, so that a global nobody sets calls the system call of that
number.
-/

namespace Intcode

/-- The state of the machine. -/
structure Machine where
  memory : Memory
  /-- The program counter. -/
  pc : Int := 0
  /-- The frame base. -/
  sp : Cell := 0
  /-- The accumulator. -/
  a : Cell := 0
  /-- The value that the accumulator had before the last load. -/
  b : Cell := 0
  /-- The first free word after the code. -/
  lomem : Int
  /-- The number of instructions completed by the last run. -/
  instructions : Nat := 0
  /-- Whether the program has asked to stop. -/
  stopped : Bool := false
  /-- The result with which the program last asked to stop. -/
  result : Cell := 0
  peripherals : Peripherals

namespace Machine

instance : Inhabited Machine := ⟨{ memory := default, lomem := 0, peripherals := default }⟩

/-- The number of words of a machine of the usual size. -/
def defaultWords : Int := 19900

/-- The global that holds the start of the program. -/
def startGlobal : Cell := 1

/-- The global that receives the character after a number that was read. -/
def terminatorGlobal : Int := 71

/-- The code that calls the routine in the start global and finishes. -/
def entryCode : List Cell :=
  [Opcode.shortWord ⟨.load, true, false⟩ startGlobal, Opcode.shortWord ⟨.call, false, false⟩ 2,
    Opcode.shortWord ⟨.operate, false, false⟩ 22]

/-- The first value of a cell. -/
def initialCell (i : Nat) : Cell :=
  if (i : Int) < codeStart then Cell.ofNat i else entryCode.getD (i - codeStart.toNat) 0

/-- Whether a machine can have the given number of words. -/
def isMemorySize (words : Int) : Bool := codeStart + 3 < words && words ≤ 0x8000

/-- A machine with the given number of words. -/
def create (words : Int) (peripherals : Peripherals) : Except Report Machine :=
  if isMemorySize words then
    .ok { memory := .ofFn words.toNat initialCell, lomem := codeStart + 3, peripherals }
  else
    .error ⟨[], .memorySize words⟩

/-- Runs an action on the memory. -/
@[inline] def onMemory {α : Type} (x : Action Memory α) : Action Machine α :=
  Action.on (·.memory) (fun m memory => { m with memory }) x

/-- Runs an action on the peripherals. -/
@[inline] def onPeripherals {α : Type} (x : Action Peripherals α) : Action Machine α :=
  Action.on (·.peripherals) (fun m peripherals => { m with peripherals }) x

/-- The word at an address. -/
def word (a : Int) : Action Machine Cell := Action.read (·.memory.word a)

/-- Asks for the run to stop after the current instruction. -/
def stop (result : Cell) : Action Machine Unit :=
  modify fun m => { m with stopped := true, result }

/-- The result with which the program has asked to stop, if it has. -/
@[inline] def verdict (m : Machine) : Option Cell := if m.stopped then some m.result else none

/-- Counting instructions leaves the verdict alone. -/
@[simp] theorem verdict_counted (m : Machine) (n : Nat) :
    ({ m with instructions := n } : Machine).verdict = m.verdict := rfl

/-- Sets the accumulator. -/
def setA (v : Cell) : Action Machine Unit := modify fun m => { m with a := v }

/-- Writes the packed string at a word address. -/
def writeString (a : Int) : Action Machine Unit := do
  let t ← Action.read (·.memory.string a)
  onPeripherals (Peripherals.writeText t)

/-- Writes a number. -/
def writeNumber (conversion : Conversion) (n : Cell) (width : Int) : Action Machine Unit :=
  onPeripherals (Peripherals.writePadded (conversion.render width n))

/-- Writes the pieces of a format, with arguments from an address on. -/
def writePieces : List FormatPiece → Int → Action Machine Unit
  | [], _ => pure ()
  | .literal c :: ps, v => do
    onPeripherals (Peripherals.writeCharacter c)
    writePieces ps v
  | .string :: ps, v => do
    writeString (← word v).address
    writePieces ps (v + 1)
  | .character :: ps, v => do
    let c := (← word v).low
    onPeripherals (Peripherals.writeCharacter c)
    writePieces ps (v + 1)
  | .number conversion width :: ps, v => do
    writeNumber conversion (← word v) width
    writePieces ps (v + 1)

/-- Writes a format: the word at `args` holds the address of its packed string, and the
words after it are its arguments. -/
def writeFormat (args : Int) : Action Machine Unit := do
  let f := (← word args).address
  let t ← Action.read (·.memory.string f)
  writePieces (FormatPiece.ofText t) (args + 1)

/-- Reads a number and stores the character that ended it. -/
def readNumber : Action Machine Cell := do
  let (n, terminator) ← onPeripherals Peripherals.readNumber
  onMemory (Memory.setWord terminatorGlobal terminator)
  return n

end Machine

end Intcode
