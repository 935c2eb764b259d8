import Intcode.Memory

/-!
# Instructions

An instruction word holds a function in its low three bits, then a bit for an
indirect operand, a bit for an operand relative to the frame and a bit that says
that the operand is the next word. Otherwise the operand is the high byte.
-/

namespace Intcode

/-- The functions of the machine. -/
inductive Function where
  | load
  | store
  | add
  | jump
  | jumpTrue
  | jumpFalse
  | call
  | operate
deriving DecidableEq, Repr

namespace Function

/-- The bits that select a function. -/
def code : Function → Cell
  | load => 0
  | store => 1
  | add => 2
  | jump => 3
  | jumpTrue => 4
  | jumpFalse => 5
  | call => 6
  | operate => 7

/-- The function selected by the low three bits of a word. -/
def ofWord (w : Cell) : Function :=
  match w.toNat % 8 with
  | 0 => load
  | 1 => store
  | 2 => add
  | 3 => jump
  | 4 => jumpTrue
  | 5 => jumpFalse
  | 6 => call
  | _ => operate

/-- The letter of a function. -/
def letter : Function → UInt8
  | load => Text.byte 'L'
  | store => Text.byte 'S'
  | add => Text.byte 'A'
  | jump => Text.byte 'J'
  | jumpTrue => Text.byte 'T'
  | jumpFalse => Text.byte 'F'
  | call => Text.byte 'K'
  | operate => Text.byte 'X'

/-- All functions, in the order of their codes. -/
def all : List Function := [load, store, add, jump, jumpTrue, jumpFalse, call, operate]

/-- The function with the given letter. -/
def ofLetter? (c : UInt8) : Option Function := all.find? fun f => f.letter = c

end Function

namespace Cell

/-- Whether an instruction word asks for an indirect operand. -/
@[inline] def isIndirect (w : Cell) : Bool := w &&& 8 != 0

/-- Whether an instruction word asks for an operand relative to the frame. -/
@[inline] def isFramed (w : Cell) : Bool := w &&& 16 != 0

/-- Whether an instruction word has its operand in the next word. -/
@[inline] def isLong (w : Cell) : Bool := w &&& 32 != 0

end Cell

/-- The part of an instruction that its word holds beside the operand. -/
structure Opcode where
  function : Function
  indirect : Bool := false
  framed : Bool := false
deriving DecidableEq, Repr

namespace Opcode

/-- The opcode of an instruction word. -/
@[inline] def ofWord (w : Cell) : Opcode := ⟨.ofWord w, w.isIndirect, w.isFramed⟩

/-- The bits of an opcode. -/
def bits (o : Opcode) : Cell :=
  o.function.code ||| (if o.indirect then 8 else 0) ||| (if o.framed then 16 else 0)

/-- The word of an instruction whose operand is in the next word. -/
def longWord (o : Opcode) : Cell := o.bits ||| 32

/-- The word of an instruction whose operand is in its high byte. -/
def shortWord (o : Opcode) (operand : Cell) : Cell := o.bits ||| (operand <<< 8)

/-- The letters of an opcode. -/
def letters (o : Opcode) : Text :=
  [o.function.letter] ++ (if o.indirect then [Text.byte 'I'] else []) ++
    (if o.framed then [Text.byte 'P'] else [])

end Opcode

/-- A decoded instruction. -/
structure Instruction where
  opcode : Opcode
  /-- The instruction word. -/
  word : Cell
  /-- The effective operand. -/
  operand : Cell
  /-- The address of the next instruction. -/
  next : Int
deriving DecidableEq, Repr

namespace Instruction

/-- The raw operand of the instruction word at an address, and the address after it. -/
@[inline] def rawOperand (m : Memory) (pc : Int) (w : Cell) : Except Failure (Cell × Int) :=
  if w.isLong then do
    let d ← m.word (pc + 1)
    return (d, pc + 2)
  else
    .ok (w >>> 8, pc + 1)

/-- Decodes the instruction at an address. The frame base is added to the operand before
the operand is dereferenced, so an indirect operand in the frame is a pointer kept there. -/
@[inline] def decode (m : Memory) (pc : Int) (sp : Cell) : Except Failure Instruction := do
  let w ← m.word pc
  let (d, next) ← rawOperand m pc w
  let d := if w.isFramed then d.plus sp else d
  let d ← if w.isIndirect then m.word d.address else pure d
  return ⟨.ofWord w, w, d, next⟩

end Instruction

end Intcode
