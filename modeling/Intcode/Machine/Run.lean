import Intcode.Machine.Step

/-!
# Runs

A run starts at the entry code with the frame base after the loaded code, and goes
on until the program stops or an instruction fails. Then the default output is
flushed. Runs are bounded by a number of instructions, and a run that reaches its
bound can be continued.
-/

namespace Intcode.Machine

/-- How a run ends. -/
inductive Ending where
  /-- With the program's result, which is 0 after a failed instruction, and an error. -/
  | ended (result : Cell) (error : Option Report)
  /-- At its bound, before the next instruction. -/
  | limited
  /-- The machine itself has broken down. -/
  | broken (e : Failure)
deriving DecidableEq, Repr

/-- Makes the machine ready for a run. -/
def start : Action Machine Unit := do
  modify fun m =>
    { m with
      pc := codeStart, sp := Cell.ofInt m.lomem, a := 0, b := 0, instructions := 0,
      stopped := false }
  let m ← get
  let (lomem, words) := (m.lomem, m.memory.size)
  onPeripherals (Peripherals.trace (.runStarted lomem words))

/-- Executes at most the given number of instructions. At the bound the next instruction is
still decoded, so that one that cannot be decoded fails. -/
def proceed (bindings : Bindings) : Nat → Machine → Progress × Machine
  | 0, m =>
    match m.decode with
    | .error e => (.ofFailure m.pc e, m)
    | .ok _ => (.running, m)
  | n + 1, m =>
    match step bindings m with
    | (.running, m) => proceed bindings n m
    | ended => ended

/-- Flushes the default output at the end of a run and notes the end. An error of the run
comes before one of the flush. -/
def finish (result : Cell) (error : Option Report) (m : Machine) : Ending × Machine :=
  let note (error : Option Report) (m : Machine) : Ending × Machine :=
    let e := Event.runFinished result m.instructions error
    match onPeripherals (Peripherals.trace e) m with
    | .ok _ m => (.ended result error, m)
    | .error e m => (.broken e, m)
  match onPeripherals Peripherals.flush m with
  | .ok _ m => note error m
  | .error (.report r) m => note (error <|> some r) m
  | .error e m => (.broken e, m)

/-- What the progress of a run amounts to. -/
def conclude : Progress × Machine → Ending × Machine
  | (.running, m) => (.limited, m)
  | (.stopped result, m) => finish result none m
  | (.failed r, m) => finish 0 (some r) m
  | (.broken e, m) => (.broken e, m)

/-- Continues a run that reached its bound. -/
def resume (bindings : Bindings) (limit : Nat) (m : Machine) : Ending × Machine :=
  conclude (proceed bindings limit m)

/-- Runs the loaded program for at most the given number of instructions. -/
def run (bindings : Bindings) (limit : Nat) (m : Machine) : Ending × Machine :=
  match start m with
  | .ok _ m => resume bindings limit m
  | .error e m => (.broken e, m)

end Intcode.Machine
