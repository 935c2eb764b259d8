import Intcode.Machine.Handler

/-!
# Built-in system calls

The system calls that the machine serves itself. Named calls without a handler
here are unknown unless the host binds one.
-/

namespace Intcode.Machine

/-- Runs an action with the first argument of a call. -/
@[inline] def withFirst (f : Cell → Action Machine Unit) : Handler := fun args => do
  f (← word args)

/-- Runs an action with the first two arguments of a call. -/
@[inline] def withTwo (f : Cell → Cell → Action Machine Unit) : Handler := fun args => do
  let v ← word args
  let w ← word (args + 1)
  f v w

/-- Continues in the frame of the first argument at the address of the second. -/
def longJump (frame label : Cell) : Action Machine Unit :=
  modify fun m => { m with sp := frame, pc := label.address }

/-- Calls the routine in the first argument with a vector whose upper bound is the second.
The vector lies right above the caller's frame and the routine's frame right above the
vector; the routine gets the vector and its bound as arguments. -/
def applyToVector : Handler := fun args => do
  let d := Cell.ofInt (args - 2)
  let n ← word (args + 1)
  let frame := d + n + 1
  let m ← get
  let (sp, pc) := (m.sp, m.pc)
  onMemory (Memory.setWord frame.address sp)
  onMemory (Memory.setWord (frame.address + 1) (Cell.ofInt pc))
  onMemory (Memory.setWord (frame.address + 2) d)
  onMemory (Memory.setWord (frame.address + 3) n)
  let routine ← word args
  modify fun m => { m with sp := frame, pc := routine.address }

/-- The byte address of the byte with a signed number in the vector at a cell's address. -/
def vectorByte (vector number : Cell) : Int := vector.address * 2 + number.toInt

/-- Loads a byte of a vector. -/
def getByte (vector number : Cell) : Action Machine Unit := do
  setA (.ofByte (← Action.read (·.memory.byte (vectorByte vector number))))

/-- Stores a byte of a vector. -/
def putByte : Handler := fun args => do
  let vector ← word args
  let number ← word (args + 1)
  let c ← word (args + 2)
  onMemory (Memory.setByte (vectorByte vector number) c.low)

/-- Opens or creates the file whose name is the packed string at a cell's address. -/
def findBy (find : Text → Action Peripherals Cell) (name : Cell) : Action Machine Unit := do
  let t ← Action.read (·.memory.string name.address)
  setA (← onPeripherals (find t))

/-- The handler of a system call, if the machine has one. -/
def builtIn? : SystemCall → Option Handler
  | .start | .abort | .backtrace => some Handler.nothing
  | .selectInput => some (withFirst fun h => onPeripherals (Peripherals.selectInput h))
  | .selectOutput => some (withFirst fun h => onPeripherals (Peripherals.selectOutput h))
  | .readCharacter => some fun _ => do setA (← onPeripherals Peripherals.readCharacter)
  | .writeCharacter =>
    some (withFirst fun c => onPeripherals (Peripherals.writeCharacter c.low))
  | .input => some fun _ => modify fun m => { m with a := m.peripherals.input }
  | .output => some fun _ => modify fun m => { m with a := m.peripherals.output }
  | .stop => some Handler.stop
  | .level => some fun _ => modify fun m => { m with a := m.sp }
  | .longJump => some (withTwo longJump)
  | .applyToVector => some applyToVector
  | .findOutput => some (withFirst (findBy Peripherals.findOutput))
  | .findInput => some (withFirst (findBy Peripherals.findInput))
  | .endRead => some fun _ => onPeripherals Peripherals.endRead
  | .endWrite => some fun _ => onPeripherals Peripherals.endWrite
  | .writeString => some (withFirst fun s => writeString s.address)
  | .writeNumber => some (withFirst fun n => writeNumber .decimal n 0)
  | .newline => some fun _ => onPeripherals Peripherals.newline
  | .newpage => some fun _ => onPeripherals (Peripherals.writeCharacter 12)
  | .packString => some (withTwo fun v s => do setA (← onMemory (Memory.pack v.address s.address)))
  | .unpackString => some (withTwo fun s v => onMemory (Memory.unpack s.address v.address))
  | .writeDecimal => some (withTwo fun n width => writeNumber .decimal n width.toInt)
  | .readNumber => some fun _ => do setA (← readNumber)
  | .writeHex => some (withTwo fun n width => writeNumber .hex n width.toInt)
  | .writeFormat => some writeFormat
  | .writeOctal => some (withTwo fun n width => writeNumber .octal n width.toInt)
  | .getByte => some (withTwo getByte)
  | .putByte => some putByte
  | _ => none

/-- Serves the system call with the given code. -/
def systemCall (bindings : Bindings) (code : Cell) (args : Int) : Action Machine Unit :=
  match bindings.get? code <|> (SystemCall.ofCell? code).bind builtIn? with
  | some handler => handler args
  | none => Action.fail (.fatal .unknownCall code.toInt)

end Intcode.Machine
