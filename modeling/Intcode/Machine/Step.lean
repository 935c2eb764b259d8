import Intcode.Machine.BuiltIn
import Intcode.Instruction.Switch

/-!
# Executing instructions

One step decodes the instruction at the program counter, notes it in the journal
if one is kept, and executes it. An instruction that fails leaves the program
counter at its own address.
-/

namespace Intcode

/-- The value that an arithmetic, logical or comparing operation computes from the two
accumulators. Division by zero leaves the accumulator alone. -/
def Operation.value? (a b : Cell) : Operation → Option Cell
  | negate => some (Cell.minus 0 a)
  | complement => some (~~~a)
  | multiply => some (b.times a)
  | divide => some (if a = 0 then a else b.sdiv a)
  | remainder => some (if a = 0 then a else b.srem a)
  | plus => some (b.plus a)
  | minus => some (b.minus a)
  | equal => some (.truth (b = a))
  | notEqual => some (.truth (b ≠ a))
  | less => some (.truth (b.signed < a.signed))
  | greaterEqual => some (.truth (b.signed ≥ a.signed))
  | greater => some (.truth (b.signed > a.signed))
  | lessEqual => some (.truth (b.signed ≤ a.signed))
  | shiftLeft => some (b <<< a.toNat)
  | shiftRight => some (b >>> a.toNat)
  | bitAnd => some (b &&& a)
  | bitOr => some (b ||| a)
  | bitXor => some (b ^^^ a)
  | equivalent => some (b ^^^ ~~~a)
  | dereference | leave | finish | switch => none

namespace Machine

/-- Returns from the current frame. -/
def leave : Action Machine Unit := do
  let sp := (← get).sp
  let pc ← word (sp.plus 1).address
  let frame ← word sp.address
  modify fun m => { m with pc := pc.address, sp := frame }

/-- Jumps through the table at the program counter. -/
def switch : Action Machine Unit := do
  let table ← Action.read fun m => Switch.ofMemory m.memory m.pc
  modify fun m =>
    let (target, k) := table.lookup m.a
    { m with b := table.remaining k, pc := target.address }

/-- Executes the extended operation with the given number. -/
def operate (x : Cell) : Action Machine Unit :=
  match Operation.ofCell? x with
  | none => Action.fail (.fatal .unknownOperation x.toInt)
  | some .dereference => do setA (← word (← get).a.address)
  | some .leave => leave
  | some .finish => stop 0
  | some .switch => switch
  | some op => modify fun m => { m with a := (op.value? m.a m.b).getD m.a }

/-- Calls the routine at the accumulator's address, or the system if that lies below the
code. The new frame starts at the operand above the frame base and holds the old frame base
and the address to return to. -/
def call (bindings : Bindings) (d : Cell) : Action Machine Unit := do
  let m ← get
  let (a, sp, pc) := (m.a, m.sp, m.pc)
  let frame := d.plus sp
  if a.signed < codeStart then systemCall bindings a (frame.address + 2)
  else
    onMemory (Memory.setWord frame.address sp)
    onMemory (Memory.setWord (frame.address + 1) (Cell.ofInt pc))
    modify fun m => { m with sp := frame, pc := a.address }

/-- Executes a function with its effective operand. The program counter is already past the
instruction. -/
def execute (bindings : Bindings) (f : Function) (d : Cell) : Action Machine Unit :=
  match f with
  | .load => modify fun m => { m with a := d, b := m.a }
  | .store => do
    let a := (← get).a
    onMemory (Memory.setWord d.address a)
  | .add => modify fun m => { m with a := m.a.plus d }
  | .jump => modify fun m => { m with pc := d.address }
  | .jumpTrue => modify fun m => if m.a ≠ 0 then { m with pc := d.address } else m
  | .jumpFalse => modify fun m => if m.a = 0 then { m with pc := d.address } else m
  | .call => call bindings d
  | .operate => operate d

/-- What a step or a number of steps leads to. -/
inductive Progress where
  /-- The program goes on. -/
  | running
  /-- The program has stopped with a result. -/
  | stopped (result : Cell)
  /-- An instruction has failed. -/
  | failed (r : Report)
  /-- The machine itself has broken down. -/
  | broken (e : Failure)
deriving DecidableEq, Repr

/-- What a failure of the instruction at an address leads to. -/
def Progress.ofFailure (pc : Int) : Failure → Progress
  | .address a => .failed ⟨[addressText a], .fatal .machineFault pc⟩
  | .report r => .failed r
  | e => .broken e

/-- The entry that an instruction makes in the journal. -/
@[inline] def traceStep (m : Machine) (i : Instruction) : TraceStep :=
  ⟨m.pc, i.opcode, i.operand, m.a, m.b, m.sp⟩

/-- Notes an instruction in the journal if one is kept. -/
@[inline] def noteStep (i : Instruction) (m : Machine) : Machine :=
  if m.peripherals.tracing then
    let s := m.traceStep i
    { m with
      peripherals := { m.peripherals with journal := .step s :: m.peripherals.journal } }
  else m

/-- Ends an instruction: counts it if it has not failed, and else goes back to it. -/
@[inline] def endStep (pc : Int) : EStateM.Result Failure Machine Unit → Progress × Machine
  | .ok _ m =>
    let m := { m with instructions := m.instructions + 1 }
    match m.verdict with
    | some result => (.stopped result, m)
    | none => (.running, m)
  | .error e m => (.ofFailure pc e, { m with pc })

/-- Decodes the instruction at the program counter. -/
@[inline] def decode (m : Machine) : Except Failure Instruction :=
  Instruction.decode m.memory m.pc m.sp

/-- Decodes and executes one instruction. -/
@[inline] def step (bindings : Bindings) (m : Machine) : Progress × Machine :=
  match m.decode with
  | .error e => (.ofFailure m.pc e, m)
  | .ok i =>
    let pc := m.pc
    let m := m.noteStep i
    endStep pc (execute bindings i.opcode.function i.operand { m with pc := i.next })

end Machine

end Intcode
