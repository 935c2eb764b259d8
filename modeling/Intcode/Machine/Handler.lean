import Intcode.Machine

/-!
# Handlers

A handler serves a system call. It gets the address of the first argument and may
change the machine as it likes. A host may bind handlers of its own to call codes;
they come before the built-in ones. A few handlers are ready made.
-/

namespace Intcode

/-- What serves a system call, given the address of its first argument. -/
abbrev Handler := Int → Action Machine Unit

/-- The handlers that the host has bound to call codes, the latest first. A code bound to
nothing has its built-in handler again. -/
structure Bindings where
  bound : List (Cell × Option Handler) := []

instance : Inhabited Bindings := ⟨{}⟩

namespace Bindings

/-- The handler bound to a code. -/
def get? (b : Bindings) (code : Cell) : Option Handler := (b.bound.lookup code).join

/-- Binds a handler to a code. Codes of calls into the program cannot be bound. -/
def bind (b : Bindings) (code : Cell) (h : Option Handler) : Except Report Bindings :=
  if 0 ≤ code.toInt ∧ code.toInt < codeStart then .ok ⟨(code, h) :: b.bound⟩
  else .error ⟨[], .callCode code⟩

end Bindings

namespace Handler

/-- Does nothing. -/
def nothing : Handler := fun _ => pure ()

/-- Reads a character, with the byte that a terminal in raw mode sends at the end of its
input as the end of the stream. -/
def rawRead : Handler := fun _ => do
  let c ← Machine.onPeripherals Peripherals.readCharacter
  Machine.setA (if c = 4 then endOfStream else c)

/-- Stops with the first argument as the result. -/
def stop : Handler := fun args => do
  Machine.stop (← Machine.word args)

/-- Fails. -/
def refuse : Handler := fun _ => Action.fail ⟨[], .handler⟩

/-- Notes the call in the journal. -/
def record : Handler := fun args => do
  let first ← Machine.word args
  let m ← get
  Machine.onPeripherals
    (Peripherals.note (.recorded ⟨args, first, m.a, m.b, m.sp, m.pc, m.instructions⟩))

end Handler

end Intcode
