import Intcode.CommandLine.Value
import Intcode.Text.Quoted

/-!
# Flags

The flags of the command, what they are called and what the help says of them,
and the errors of a command line.
-/

namespace Intcode.CommandLine

/-- The flags of the command. -/
inductive Flag where
  | disassemble
  | dump
  | help
  | input
  | output
  | raw
  | trace
  | words
deriving DecidableEq, Repr

/-- What a flag takes. -/
inductive FlagKind where
  /-- A truth value, true if none is given. -/
  | switch
  /-- A file name. -/
  | file
  /-- An integer. -/
  | number
deriving DecidableEq, Repr

namespace Flag

/-- All flags, by their names. -/
def all : List Flag := [disassemble, dump, help, input, output, raw, trace, words]

/-- The long name of a flag. -/
def name : Flag → Text
  | disassemble => Text.ofAscii "disasm"
  | dump => Text.ofAscii "dump"
  | help => Text.ofAscii "help"
  | input => Text.ofAscii "input"
  | output => Text.ofAscii "output"
  | raw => Text.ofAscii "raw"
  | trace => Text.ofAscii "trace"
  | words => Text.ofAscii "words"

/-- The letter of a flag, if it has one. -/
def letter? : Flag → Option UInt8
  | help => some (Text.byte 'h')
  | input => some (Text.byte 'i')
  | output => some (Text.byte 'o')
  | trace => some (Text.byte 't')
  | disassemble | dump | raw | words => none

/-- What a flag takes. -/
def kind : Flag → FlagKind
  | input | output => .file
  | words => .number
  | disassemble | dump | help | raw | trace => .switch

/-- What the help says of a flag. -/
def usage : Flag → Text
  | disassemble => Text.ofAscii "disassemble the loaded code instead of running it"
  | dump => Text.ofAscii "dump registers, globals and code on stderr upon exit"
  | help => Text.ofAscii "help for icint"
  | input => Text.ofAscii "read the default input from file"
  | output => Text.ofAscii "write the default output to file"
  | raw => Text.ofAscii "switch the terminal to raw input"
  | trace => Text.ofAscii "trace every executed instruction on stderr"
  | words => Text.ofAscii "memory size in words"

/-- The flag with a long name. -/
def ofName? (t : Text) : Option Flag := all.find? fun f => f.name = t

/-- The flag with a letter. -/
def ofLetter? (c : UInt8) : Option Flag := all.find? fun f => f.letter? = some c

/-- The long name with its dashes. -/
def longForm (f : Flag) : Text := Text.ofAscii "--" ++ f.name

/-- How errors name a flag: by its letter, if it has one, and its long name. -/
def title (f : Flag) : Text :=
  match f.letter? with
  | some c => [Text.byte '-', c] ++ Text.ofAscii ", " ++ f.longForm
  | none => f.longForm

end Flag

/-- What is wrong with a command line. -/
inductive FlagError where
  /-- An argument that cannot be a flag. -/
  | badForm (argument : Text)
  /-- An unknown long name. -/
  | unknownName (name : Text)
  /-- An unknown letter, and the letters from it on. -/
  | unknownLetter (c : UInt8) (letters : Text)
  /-- A long flag without its value. -/
  | missingValue (argument : Text)
  /-- A letter without its value, and the letters from it on. -/
  | missingLetterValue (c : UInt8) (letters : Text)
  /-- A text that is no value for the flag. -/
  | badValue (flag : Flag) (value : Text)
deriving DecidableEq, Repr

namespace FlagError

/-- The wording of an error. -/
def message : FlagError → Text
  | badForm argument => Text.ofAscii "bad flag syntax: " ++ argument
  | unknownName name => Text.ofAscii "unknown flag: --" ++ name
  | unknownLetter c letters =>
    Text.ofAscii "unknown shorthand flag: " ++ Text.quotedByte c ++ Text.ofAscii " in -" ++ letters
  | missingValue argument => Text.ofAscii "flag needs an argument: " ++ argument
  | missingLetterValue c letters =>
    Text.ofAscii "flag needs an argument: " ++ Text.quotedByte c ++ Text.ofAscii " in -" ++ letters
  | badValue flag value =>
    Text.ofAscii "invalid argument " ++ Text.quoted value ++ Text.ofAscii " for " ++
      Text.quoted flag.title ++ Text.ofAscii " flag: parsing " ++ Text.quoted value ++
      Text.ofAscii ": invalid value"

/-- The number of the first argument equal to a word, counting from 1. -/
def numberOf? (arguments : List Text) (w : Text) : Option Nat :=
  (arguments.findIdx? fun a => a = w).map (· + 1)

/-- The number of the argument that an error complains about, counting from 1: the first
word of its message that looks like a flag and is an argument. Zero if there is none. -/
def argumentNumber (e : FlagError) (arguments : List Text) : Nat :=
  let candidates := (Text.words e.message).map Text.unquoted |>.filter fun w =>
    2 ≤ w.length && w.head? = some (Text.byte '-')
  (candidates.findSome? (numberOf? arguments)).getD 0

end FlagError

end Intcode.CommandLine
