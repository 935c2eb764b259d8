import Intcode.Cell

/-!
# System calls

A call to an address below the code is a request to the host, known by that
number and by its name in the library header.
-/

namespace Intcode

/-- The named system calls. -/
inductive SystemCall where
  | start
  | setPostMortem
  | abort
  | backtrace
  | selectInput
  | selectOutput
  | readCharacter
  | writeCharacter
  | unreadCharacter
  | input
  | output
  | stop
  | level
  | longJump
  | binaryWrite
  | rewind
  | applyToVector
  | findOutput
  | findInput
  | endRead
  | endWrite
  | writeString
  | writeNumber
  | newline
  | newpage
  | writeOctalNumber
  | packString
  | unpackString
  | writeDecimal
  | writeArgument
  | readNumber
  | writeHexNumber
  | writeHex
  | writeFormat
  | writeOctal
  | mapStore
  | getByte
  | putByte
  | getVector
  | freeVector
  | random
  | multiplyDivide
  | resultTwo
deriving DecidableEq, Repr

namespace SystemCall

/-- The system call with the given number. -/
def ofCell? (c : Cell) : Option SystemCall :=
  match c.toNat with
  | 1 => some start
  | 2 => some setPostMortem
  | 3 => some abort
  | 4 => some backtrace
  | 11 => some selectInput
  | 12 => some selectOutput
  | 13 => some readCharacter
  | 14 => some writeCharacter
  | 15 => some unreadCharacter
  | 16 => some input
  | 17 => some output
  | 30 => some stop
  | 31 => some level
  | 32 => some longJump
  | 34 => some binaryWrite
  | 35 => some rewind
  | 40 => some applyToVector
  | 41 => some findOutput
  | 42 => some findInput
  | 46 => some endRead
  | 47 => some endWrite
  | 60 => some writeString
  | 62 => some writeNumber
  | 63 => some newline
  | 64 => some newpage
  | 65 => some writeOctalNumber
  | 66 => some packString
  | 67 => some unpackString
  | 68 => some writeDecimal
  | 69 => some writeArgument
  | 70 => some readNumber
  | 74 => some writeHexNumber
  | 75 => some writeHex
  | 76 => some writeFormat
  | 77 => some writeOctal
  | 78 => some mapStore
  | 85 => some getByte
  | 86 => some putByte
  | 87 => some getVector
  | 88 => some freeVector
  | 89 => some random
  | 90 => some multiplyDivide
  | 91 => some resultTwo
  | _ => none

/-- The library name of a system call. -/
def name : SystemCall → Text
  | start => Text.ofAscii "start"
  | setPostMortem => Text.ofAscii "setpm"
  | abort => Text.ofAscii "abort"
  | backtrace => Text.ofAscii "backtrace"
  | selectInput => Text.ofAscii "selectinput"
  | selectOutput => Text.ofAscii "selectoutput"
  | readCharacter => Text.ofAscii "rdch"
  | writeCharacter => Text.ofAscii "wrch"
  | unreadCharacter => Text.ofAscii "unrdch"
  | input => Text.ofAscii "input"
  | output => Text.ofAscii "output"
  | stop => Text.ofAscii "stop"
  | level => Text.ofAscii "level"
  | longJump => Text.ofAscii "longjump"
  | binaryWrite => Text.ofAscii "binwrch"
  | rewind => Text.ofAscii "rewind"
  | applyToVector => Text.ofAscii "aptovec"
  | findOutput => Text.ofAscii "findoutput"
  | findInput => Text.ofAscii "findinput"
  | endRead => Text.ofAscii "endread"
  | endWrite => Text.ofAscii "endwrite"
  | writeString => Text.ofAscii "writes"
  | writeNumber => Text.ofAscii "writen"
  | newline => Text.ofAscii "newline"
  | newpage => Text.ofAscii "newpage"
  | writeOctalNumber => Text.ofAscii "writeo"
  | packString => Text.ofAscii "packstring"
  | unpackString => Text.ofAscii "unpackstring"
  | writeDecimal => Text.ofAscii "writed"
  | writeArgument => Text.ofAscii "writearg"
  | readNumber => Text.ofAscii "readn"
  | writeHexNumber => Text.ofAscii "writex"
  | writeHex => Text.ofAscii "writehex"
  | writeFormat => Text.ofAscii "writef"
  | writeOctal => Text.ofAscii "writeoct"
  | mapStore => Text.ofAscii "mapstore"
  | getByte => Text.ofAscii "getbyte"
  | putByte => Text.ofAscii "putbyte"
  | getVector => Text.ofAscii "getvec"
  | freeVector => Text.ofAscii "freevec"
  | random => Text.ofAscii "random"
  | multiplyDivide => Text.ofAscii "muldiv"
  | resultTwo => Text.ofAscii "result2"

/-- The name of the system call with the given number, empty if there is none. -/
def nameOf (c : Cell) : Text := ((ofCell? c).map name).getD []

end SystemCall

end Intcode
