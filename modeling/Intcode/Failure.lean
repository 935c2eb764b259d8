import Intcode.Cell

/-!
# Failures

Assembling, running and the command line stop for one of a fixed list of fatal
conditions, each with a number that says more: a label, a character, an
address. Files and devices fail for reasons of their own. A report is such a
cause together with the contexts it passed through, and reads as these contexts
followed by the text of the cause.
-/

namespace Intcode

/-- The fatal conditions. -/
inductive Condition where
  | noInput
  | noOutput
  | noCodeFile
  | invalidOption
  | duplicateLabel
  | badCode
  | unsetLabel
  | badCharacter
  | unknownCall
  | unknownOperation
  | machineFault
  | usage
deriving DecidableEq, Repr

namespace Condition

/-- The condition with the given number, counting from 1. -/
def ofNumber? : Int → Option Condition
  | 1 => some .noInput
  | 2 => some .noOutput
  | 3 => some .noCodeFile
  | 4 => some .invalidOption
  | 5 => some .duplicateLabel
  | 6 => some .badCode
  | 7 => some .unsetLabel
  | 8 => some .badCharacter
  | 9 => some .unknownCall
  | 10 => some .unknownOperation
  | 11 => some .machineFault
  | 12 => some .usage
  | _ => none

/-- The fixed part of a condition's diagnostic. -/
def text : Condition → Text
  | noInput => Text.ofAscii "NO INPUT"
  | noOutput => Text.ofAscii "NO OUTPUT"
  | noCodeFile => Text.ofAscii "NO ICFILE"
  | invalidOption => Text.ofAscii "INVALID OPTION"
  | duplicateLabel => Text.ofAscii "DUPLICATE LABEL"
  | badCode => Text.ofAscii "BAD CODE AT P"
  | unsetLabel => Text.ofAscii "UNSET LABEL"
  | badCharacter => Text.ofAscii "BAD CH"
  | unknownCall => Text.ofAscii "UNKNOWN CALL"
  | unknownOperation => Text.ofAscii "UNKNOWN EXEC"
  | machineFault => Text.ofAscii "INTCODE ERROR AT PC"
  | usage => Text.ofAscii "USAGE: icint ICFILE [...] [-iINPUT] [-oOUTPUT]"

/-- The fixed part of the diagnostic with the given number, known or not. -/
def textOfNumber (n : Int) : Text :=
  match ofNumber? n with
  | some c => c.text
  | none => Text.ofAscii "ERROR " ++ Text.ofInt n

end Condition

/-- A diagnostic: its fixed part, then the number that says more unless it is zero. -/
def diagnostic (fixed : Text) (argument : Int) : Text :=
  if argument = 0 then fixed else fixed ++ Text.ofAscii " #" ++ Text.ofInt argument

/-- Why a file or a device refused an operation. -/
inductive HostError where
  | deviceFull
  | deviceError
  | badClose
  | permissionDenied
  | noSuchFile
  | isDirectory (name : Text)
deriving DecidableEq, Repr

/-- The wording of a host's refusal. -/
def HostError.text : HostError → Text
  | deviceFull => Text.ofAscii "device full"
  | deviceError => Text.ofAscii "device error"
  | badClose => Text.ofAscii "bad close"
  | permissionDenied => Text.ofAscii "permission denied"
  | noSuchFile => Text.ofAscii "file does not exist"
  | isDirectory name => Text.ofAscii "read " ++ name ++ Text.ofAscii ": is a directory"

/-- What a report is about. -/
inductive Cause where
  /-- A fatal condition with its number. -/
  | fatal (condition : Condition) (argument : Int)
  /-- A refusal of the host. -/
  | host (error : HostError)
  /-- A memory size that no machine can have. -/
  | memorySize (words : Int)
  /-- A system call code that no handler can be bound to. -/
  | callCode (code : Cell)
  /-- A bound handler that gave up. -/
  | handler
deriving DecidableEq, Repr

/-- The wording of a cause. -/
def Cause.text : Cause → Text
  | fatal condition argument => diagnostic condition.text argument
  | host error => error.text
  | memorySize words => Text.ofAscii "invalid memory size " ++ Text.ofInt words
  | callCode code =>
    Text.ofAscii "system call code " ++ code.decimal ++ Text.ofAscii " out of range"
  | handler => Text.ofAscii "handler failed"

/-- A cause and the contexts it passed through, the outermost first. -/
structure Report where
  contexts : List Text := []
  cause : Cause
deriving DecidableEq, Repr

namespace Report

/-- A report of a fatal condition, without context. -/
def fatal (condition : Condition) (argument : Int) : Report := ⟨[], .fatal condition argument⟩

/-- A report of a host's refusal in the given context. -/
def host (context : String) (error : HostError) : Report :=
  ⟨[Text.ofAscii context], .host error⟩

/-- The same report seen from one more context. -/
def within (context : Text) (r : Report) : Report := { r with contexts := context :: r.contexts }

/-- The contexts, each followed by a colon and a space, then the cause. -/
def message (r : Report) : Text :=
  r.contexts.foldr (fun context rest => context ++ Text.ofAscii ": " ++ rest) r.cause.text

end Report

/-- Why a computation gives no result. -/
inductive Failure where
  /-- A memory access outside the memory, at the given word address. -/
  | address (word : Int)
  /-- A reported error. -/
  | report (r : Report)
  /-- A memory access that passed its check only because its end wrapped around, from the
  given byte on, in a memory of the given number of bytes. -/
  | overrun (byte : Int) (bytes : Nat)
  /-- A text longer than any host has room for. -/
  | overlong
  /-- A search or walk that never ends. -/
  | endless
deriving DecidableEq, Repr

/-- The wording of an access outside the memory. -/
def addressText (word : Int) : Text := Text.ofAscii "address out of range: " ++ Text.ofInt word

/-- The wording of an access whose end wrapped around. -/
def overrunText (byte : Int) (bytes : Nat) : Text :=
  Text.ofAscii "runtime error: slice bounds out of range [" ++ Text.ofInt byte ++
    Text.ofAscii ":" ++ Text.ofNat bytes ++ Text.ofAscii "]"

/-- The wording of a text that is too long. -/
def overlongText : Text := Text.ofAscii "runtime error: growslice: len out of range"

end Intcode
