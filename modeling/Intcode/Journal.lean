import Intcode.Instruction.Operation
import Intcode.Instruction
import Intcode.SystemCall

/-!
# The journal

A machine that is traced keeps a journal: every run, every instruction, and the
failures that the program itself is not told about.
-/

namespace Intcode

/-- The first address of the code. Calls to lower addresses are system calls. -/
def codeStart : Int := 401

/-- An instruction about to be executed, and the registers before it. -/
structure TraceStep where
  pc : Int
  opcode : Opcode
  operand : Cell
  a : Cell
  b : Cell
  sp : Cell
deriving DecidableEq, Repr

namespace TraceStep

/-- The name of the system call that an instruction makes, if it makes one. -/
def callName? (s : TraceStep) : Option Text :=
  if s.opcode.function = .call ∧ s.a.toInt < codeStart then some (SystemCall.nameOf s.a) else none

/-- The name of the extended operation that an instruction asks for, if it asks for one. -/
def operationName? (s : TraceStep) : Option Text :=
  if s.opcode.function = .operate then some (Operation.nameOf s.operand) else none

end TraceStep

/-- What a recording handler notes of a system call. -/
structure CallRecord where
  args : Int
  first : Cell
  a : Cell
  b : Cell
  sp : Cell
  pc : Int
  instructions : Nat
deriving DecidableEq, Repr

/-- An entry of the journal. -/
inductive Event where
  | runStarted (lomem : Int) (words : Nat)
  | step (s : TraceStep)
  | runFinished (result : Cell) (instructions : Nat) (error : Option Report)
  | findInputFailed (name : Text) (error : HostError)
  | findOutputFailed (name : Text) (error : HostError)
  | flushFailed (error : HostError)
  | readFailed (stream : Cell) (error : HostError)
  | loaded (files : List Text) (lomem : Int)
  | rawUnavailable
  | recorded (call : CallRecord)
deriving DecidableEq, Repr

namespace Event

/-- The title of an entry. -/
def title : Event → Text
  | runStarted .. => Text.ofAscii "run"
  | step .. => Text.ofAscii "step"
  | runFinished .. => Text.ofAscii "run finished"
  | findInputFailed .. => Text.ofAscii "findinput failed"
  | findOutputFailed .. => Text.ofAscii "findoutput failed"
  | flushFailed .. => Text.ofAscii "flush failed"
  | readFailed .. => Text.ofAscii "rdch failed"
  | loaded .. => Text.ofAscii "loaded"
  | rawUnavailable => Text.ofAscii "raw terminal input unavailable"
  | recorded .. => Text.ofAscii "call"

/-- Whether an entry is a warning, which is noted even when nothing is traced. -/
def isWarning : Event → Bool
  | rawUnavailable => true
  | _ => false

end Event

end Intcode
