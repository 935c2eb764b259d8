import Intcode.Instruction

/-!
# Assembly text

Assembly text is a sequence of directives with separators between them. A slash
starts a comment that runs to the end of its line and takes the empty lines after
it along; comments may stand anywhere, even inside a number. This file reads a
text as a list of directives and writes a directive as text.
-/

namespace Intcode

/-- What a comment scanner has just passed. -/
inductive CommentScan where
  /-- A significant byte. -/
  | code
  /-- A byte of a comment. -/
  | comment
  /-- A line feed that ends a comment, or follows one that does. -/
  | lineEnd
deriving DecidableEq, Repr

namespace Text

/-- The byte that starts a comment. -/
def slash : UInt8 := byte '/'

/-- A text without its comments. Each comment goes with the line feeds that end it. -/
def stripComments : CommentScan → Text → Text
  | _, [] => []
  | .code, c :: t => if c = slash then stripComments .comment t else c :: stripComments .code t
  | .comment, c :: t =>
    if c = lineFeed then stripComments .lineEnd t else stripComments .comment t
  | .lineEnd, c :: t =>
    if c = lineFeed then stripComments .lineEnd t
    else if c = slash then stripComments .comment t
    else c :: stripComments .code t

/-- The bytes of a text that matter to the assembler, carriage returns as line feeds. -/
def significant (t : Text) : Text := stripComments .code (t.map foldReturn)

/-- The value of decimal digits, modulo the size of a cell. -/
def digitsValue (t : Text) : Cell :=
  t.foldl (fun sum c => sum * 10 + Cell.ofNat (c.toNat - 48)) 0

/-- Reads an optional minus sign and decimal digits, of which there may be none. -/
def numeral (t : Text) : Cell × Text :=
  match t with
  | c :: rest =>
    if c = byte '-' then (-digitsValue (rest.takeWhile isDigit), rest.dropWhile isDigit)
    else (digitsValue (t.takeWhile isDigit), t.dropWhile isDigit)
  | [] => (0, [])

/-- Reads a byte if the text starts with it, and tells whether it did. -/
def accept (c : UInt8) (t : Text) : Bool × Text :=
  match t with
  | d :: rest => if d = c then (true, rest) else (false, t)
  | [] => (false, t)

/-- Whether a byte separates directives. -/
def isSeparator (c : UInt8) : Bool := c = space || c = lineFeed || c = byte '$'

end Text

/-- The operand of an instruction or of a data word. -/
inductive Operand where
  | number (v : Cell)
  | label (n : Cell)
deriving DecidableEq, Repr

namespace Operand

/-- Reads an operand: the letter of a label and its number, or a number. -/
def parse (t : Text) : Operand × Text :=
  let (isLabel, t) := Text.accept (Text.byte 'L') t
  let (v, t) := Text.numeral t
  (if isLabel then .label v else .number v, t)

/-- Writes an operand. -/
def render : Operand → Text
  | number v => v.decimal
  | label n => Text.byte 'L' :: n.decimal

end Operand

/-- The directives of the assembler. -/
inductive Directive where
  /-- Defines a label as the address of what follows. -/
  | label (n : Cell)
  /-- An instruction. The letter that may mark its operand as a global has no effect. -/
  | instruction (opcode : Opcode) (marked : Bool) (operand : Operand)
  /-- A byte, packed with the bytes beside it. -/
  | byte (v : Cell)
  /-- A data word. -/
  | word (operand : Operand)
  /-- Sets a global to the address of a label. -/
  | global (n : Cell) (label : Cell)
  /-- A global without the letter of a label. -/
  | openGlobal (n : Cell)
  /-- The end of a segment. -/
  | segmentEnd
  /-- A byte that starts no directive. -/
  | unknown (c : UInt8)
deriving DecidableEq, Repr

namespace Directive

/-- Reads the rest of an instruction after the letter of its function. -/
def parseInstruction (f : Function) (t : Text) : Directive × Text :=
  let (indirect, t) := Text.accept (Text.byte 'I') t
  let (framed, t) := Text.accept (Text.byte 'P') t
  let (marked, t) := Text.accept (Text.byte 'G') t
  let (operand, t) := Operand.parse t
  (.instruction ⟨f, indirect, framed⟩ marked operand, t)

/-- Reads the rest of a global directive after its letter. -/
def parseGlobal (t : Text) : Directive × Text :=
  let (n, t) := Text.numeral t
  let (closed, t) := Text.accept (Text.byte 'L') t
  if closed then
    let (l, t) := Text.numeral t
    (.global n l, t)
  else
    (.openGlobal n, t)

/-- Reads the directive that starts with the byte `c`, followed by `t`. -/
def parseFrom (c : UInt8) (t : Text) : Directive × Text :=
  if Text.isDigit c then
    let (n, t) := Text.numeral (c :: t)
    (.label n, t)
  else if c = Text.byte 'C' then
    let (v, t) := Text.numeral t
    (.byte v, t)
  else if c = Text.byte 'D' then
    let (operand, t) := Operand.parse t
    (.word operand, t)
  else if c = Text.byte 'G' then parseGlobal t
  else if c = Text.byte 'Z' then (.segmentEnd, t)
  else
    match Function.ofLetter? c with
    | some f => parseInstruction f t
    | none => (.unknown c, t)

/-- Reads the first directive of a text without comments, if there is one. -/
def parseFirst (t : Text) : Option (Directive × Text) :=
  match t.dropWhile Text.isSeparator with
  | [] => none
  | c :: t => some (parseFrom c t)

/-- Reads at most the given number of directives. -/
def parseUpTo : Nat → Text → List Directive
  | 0, _ => []
  | n + 1, t =>
    match parseFirst t with
    | none => []
    | some (d, t) => d :: parseUpTo n t

/-- The directives of a text without comments. Each takes at least one byte, so there are
no more of them than bytes. -/
def parseAll (t : Text) : List Directive := parseUpTo t.length t

/-- Writes a directive. -/
def render : Directive → Text
  | label n => n.decimal
  | instruction opcode marked operand =>
    opcode.letters ++ (if marked then [Text.byte 'G'] else []) ++ operand.render
  | byte v => Text.byte 'C' :: v.decimal
  | word operand => Text.byte 'D' :: operand.render
  | .global n l => Text.byte 'G' :: n.decimal ++ Text.byte 'L' :: l.decimal
  | openGlobal n => Text.byte 'G' :: n.decimal
  | segmentEnd => [Text.byte 'Z']
  | unknown c => [c]

end Directive

end Intcode
