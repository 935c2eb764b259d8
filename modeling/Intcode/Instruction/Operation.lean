import Intcode.Cell

/-!
# Extended operations

The operand of the eighth function selects one of twenty-three operations.
-/

namespace Intcode

/-- The extended operations. -/
inductive Operation where
  | dereference
  | negate
  | complement
  | leave
  | multiply
  | divide
  | remainder
  | plus
  | minus
  | equal
  | notEqual
  | less
  | greaterEqual
  | greater
  | lessEqual
  | shiftLeft
  | shiftRight
  | bitAnd
  | bitOr
  | bitXor
  | equivalent
  | finish
  | switch
deriving DecidableEq, Repr

namespace Operation

/-- All operations, in the order of their numbers, the first being 1. -/
def all : List Operation :=
  [dereference, negate, complement, leave, multiply, divide, remainder, plus, minus, equal,
    notEqual, less, greaterEqual, greater, lessEqual, shiftLeft, shiftRight, bitAnd, bitOr, bitXor,
    equivalent, finish, switch]

/-- The operation with the given number. -/
def ofCell? (x : Cell) : Option Operation :=
  match x.toNat with
  | 0 => none
  | n + 1 => all[n]?

/-- The name of an operation. -/
def name : Operation → Text
  | dereference => Text.ofAscii "rv"
  | negate => Text.ofAscii "neg"
  | complement => Text.ofAscii "not"
  | leave => Text.ofAscii "rtrn"
  | multiply => Text.ofAscii "mult"
  | divide => Text.ofAscii "div"
  | remainder => Text.ofAscii "rem"
  | plus => Text.ofAscii "plus"
  | minus => Text.ofAscii "minus"
  | equal => Text.ofAscii "eq"
  | notEqual => Text.ofAscii "ne"
  | less => Text.ofAscii "ls"
  | greaterEqual => Text.ofAscii "ge"
  | greater => Text.ofAscii "gr"
  | lessEqual => Text.ofAscii "le"
  | shiftLeft => Text.ofAscii "lsh"
  | shiftRight => Text.ofAscii "rsh"
  | bitAnd => Text.ofAscii "and"
  | bitOr => Text.ofAscii "or"
  | bitXor => Text.ofAscii "xor"
  | equivalent => Text.ofAscii "eqv"
  | finish => Text.ofAscii "finish"
  | switch => Text.ofAscii "switchon"

/-- The name of the operation with the given number, empty if there is none. -/
def nameOf (x : Cell) : Text := ((ofCell? x).map name).getD []

end Operation

end Intcode
