import Intcode.Machine
import Intcode.Proofs.Action

/-!
# The text of a format

Writing a format writes a text that depends on the memory only, up to the first
argument that is not in the memory. Writing numbers is a case of it.
-/

namespace Intcode.Machine

/-- The text of a piece of a format whose argument is at an address, and the address of the next
argument. -/
def pieceText (memory : Memory) (v : Int) : FormatPiece → Except Failure (Text × Int)
  | .literal c => pure ([c], v)
  | .string => memory.word v >>= fun w => memory.string w.address >>= fun t => pure (t, v + 1)
  | .character => memory.word v >>= fun w => pure ([w.low], v + 1)
  | .number conversion width =>
    memory.word v >>= fun w => pure ((conversion.render width w).toText, v + 1)

/-- The text of the pieces of a format, with arguments from an address on, and the failure that
comes after it. -/
def formatText (memory : Memory) : List FormatPiece → Int → Text × Option Failure
  | [], _ => ([], none)
  | piece :: pieces, v =>
    match pieceText memory v piece with
    | .error e => ([], some e)
    | .ok (t, next) =>
      let (later, failure) := formatText memory pieces next
      (t ++ later, failure)

/-- Writes a text, and then fails if there is a failure. -/
def writeThen (t : Text) : Option Failure → Action Peripherals Unit
  | none => Peripherals.writeText t
  | some e => do
    Peripherals.writeText t
    throw e

/-- An action on the peripherals. -/
theorem onPeripherals_apply {α : Type} (x : Action Peripherals α) (m : Machine) :
    onPeripherals x m = match x m.peripherals with
      | .ok a p => .ok a { m with peripherals := p }
      | .error e p => .error e { m with peripherals := p } := by
  simp only [onPeripherals, Action.on]
  cases x m.peripherals <;> rfl

/-- The fillings of numbers are not line feeds. -/
theorem render_fill (conversion : Conversion) (width : Int) (n : Cell) :
    (conversion.render width n).fill ≠ Text.lineFeed := by
  cases conversion with
  | octal | hex =>
    change Text.digit 0 ≠ Text.lineFeed
    decide
  | decimal =>
    change Text.space ≠ Text.lineFeed
    decide

/-- Writing a number is writing its text. -/
theorem writeNumber_eq (conversion : Conversion) (n : Cell) (width : Int) :
    writeNumber conversion n width =
      onPeripherals (Peripherals.writeText (conversion.render width n).toText) := by
  rw [writeNumber, Peripherals.writePadded_eq (render_fill conversion width n)]

/-- Reads the text of a piece of a format and the address of the next argument. -/
def readPiece (v : Int) (piece : FormatPiece) : Action Machine (Text × Int) :=
  Action.read fun m => pieceText m.memory v piece

/-- Writing the first piece of a format is reading its text and writing it. -/
theorem writePieces_cons (piece : FormatPiece) (pieces : List FormatPiece) (v : Int) :
    writePieces (piece :: pieces) v = (do
      let r ← readPiece v piece
      onPeripherals (Peripherals.writeText r.1)
      writePieces pieces r.2) := by
  have hsingle (c : UInt8) : Peripherals.writeText [c] = Peripherals.writeCharacter c := by
    simp [Peripherals.writeText]
  cases piece with
  | literal c =>
    simp only [writePieces, readPiece, pieceText, Action.read_pure, pure_bind, hsingle]
  | string =>
    simp only [writePieces, writeString, word, readPiece, pieceText, Action.read_bind,
      Action.read_pure, bind_assoc, pure_bind]
  | character =>
    simp only [writePieces, word, readPiece, pieceText, Action.read_bind, Action.read_pure,
      bind_assoc, pure_bind, hsingle]
  | number conversion width =>
    simp only [writePieces, word, readPiece, pieceText, Action.read_bind, Action.read_pure,
      bind_assoc, pure_bind, writeNumber_eq]

/-- Writing the pieces of a format is writing their text, and then failing if an argument is not in
the memory. -/
theorem writePieces_eq (pieces : List FormatPiece) (v : Int) (m : Machine) :
    writePieces pieces v m =
      onPeripherals
        (writeThen (formatText m.memory pieces v).1 (formatText m.memory pieces v).2) m := by
  induction pieces generalizing v m with
  | nil => rfl
  | cons piece pieces ih =>
    rw [writePieces_cons, Action.bind_apply, formatText]
    simp only [readPiece, Action.read_apply]
    cases pieceText m.memory v piece with
    | error e => rfl
    | ok r =>
      obtain ⟨t, next⟩ := r
      simp only [Action.bind_apply, onPeripherals_apply]
      have hsplit : writeThen (t ++ (formatText m.memory pieces next).1)
            (formatText m.memory pieces next).2 =
          (do
            Peripherals.writeText t
            writeThen (formatText m.memory pieces next).1 (formatText m.memory pieces next).2) := by
        cases (formatText m.memory pieces next).2 with
        | none => exact Peripherals.writeText_append _ _
        | some e => simp only [writeThen, Peripherals.writeText_append, bind_assoc]
      rw [hsplit, Action.bind_apply]
      cases Peripherals.writeText t m.peripherals with
      | error e p => rfl
      | ok u p => exact (ih next { m with peripherals := p }).trans (onPeripherals_apply _ _)

end Intcode.Machine
