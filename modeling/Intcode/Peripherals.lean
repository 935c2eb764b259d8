import Intcode.Stream
import Intcode.Journal
import Intcode.Action
import Intcode.Text.LowerCase
import Intcode.Text.Padded

/-!
# Peripherals

The program reads from the selected input stream and writes to the selected
output stream, both chosen by handle. Handle 1 is the default input and handle 2
the default output; files get handles from 3 on.
-/

namespace Intcode

/-- The handle of the default input. -/
def defaultInput : Cell := 1

/-- The handle of the default output. -/
def defaultOutput : Cell := 2

/-- The lowest handle of a file. -/
def firstFile : Cell := 3

/-- The character that reading gives at the end of a stream. -/
def endOfStream : Cell := -1

/-- The streams, the selected ones, the host's files and the journal. -/
structure Peripherals where
  streams : StreamTable := {}
  /-- Where the search for a free handle starts. -/
  nextHandle : Cell := firstFile
  /-- The selected input stream. -/
  input : Cell := defaultInput
  /-- The selected output stream. -/
  output : Cell := defaultOutput
  host : Host := default
  /-- Whether a journal is kept. -/
  tracing : Bool := false
  /-- The journal, the latest entry first. -/
  journal : List Event := []
deriving Inhabited

namespace Peripherals

/-- The peripherals with the default streams open. -/
def ofDefaults (source : Source) (sink : Sink) (host : Host) (tracing : Bool) : Peripherals where
  streams := StreamTable.insert (.insert {} defaultInput ⟨.input { source }, none⟩)
    defaultOutput ⟨.output { sink }, none⟩
  host := host
  tracing := tracing

/-- Makes an entry in the journal. -/
def note (e : Event) : Action Peripherals Unit :=
  modify fun p => { p with journal := e :: p.journal }

/-- Makes an entry in the journal if one is kept. -/
def trace (e : Event) : Action Peripherals Unit :=
  modify fun p => if p.tracing then { p with journal := e :: p.journal } else p

/-- Replaces a stream and the host's files. -/
def setStream (h : Cell) (s : Stream) (host : Host) : Action Peripherals Unit :=
  modify fun p => { p with streams := p.streams.set h s, host }

/-- Fails with an error of the host in a context, if there is one. -/
def check (context : String) : Option HostError → Action Peripherals Unit
  | some e => Action.fail (.host context e)
  | none => pure ()

/-- Flushes the default output and returns its error. -/
def flushDefault : Action Peripherals (Option HostError) := do
  let p ← get
  match p.streams.get? defaultOutput with
  | none => return none
  | some s =>
    let (e, s, host) := s.flush p.host
    setStream defaultOutput s host
    return e

/-- Flushes the default output. -/
def flush : Action Peripherals Unit := do
  check "flush failed" (← flushDefault)

/-- Makes what has been written visible before the program waits for input. -/
def prompt : Action Peripherals Unit := do
  match ← flushDefault with
  | some e => trace (.flushFailed e)
  | none => pure ()

/-- Reads a character from the selected input stream. A carriage return reads as a line
feed. At the end of the stream, after a failure, and if no readable stream is selected, the
character is the end of the stream. -/
def readCharacter : Action Peripherals Cell := do
  let handle := (← get).input
  match (← get).streams.get? handle with
  | some { channel := .input i, closer } =>
    if i.unread.isEmpty then prompt
    let host := (← get).host
    let (reading, i) := i.next host
    setStream handle { channel := .input i, closer } host
    match reading with
    | .byte c => return .ofByte (Text.foldReturn c)
    | .exhausted => return endOfStream
    | .failed e =>
      trace (.readFailed handle e)
      return endOfStream
  | _ => return endOfStream

/-- Writes a byte to the selected output stream, in the given context. Without a writable
stream the byte is dropped. -/
def putByte (context : String) (c : UInt8) : Action Peripherals Unit := do
  let handle := (← get).output
  match (← get).streams.get? handle with
  | some { channel := .output o, closer } =>
    let (e, o, host) := o.put c (← get).host
    setStream handle { channel := .output o, closer } host
    check context e
  | _ => pure ()

/-- Ends a line on the selected output stream. The default output is flushed. -/
def newline : Action Peripherals Unit := do
  putByte "newline failed" Text.lineFeed
  if (← get).output = defaultOutput then
    check "newline failed" (← flushDefault)

/-- Writes a character to the selected output stream. A line feed ends the line. -/
def writeCharacter (c : UInt8) : Action Peripherals Unit :=
  if c = Text.lineFeed then newline else putByte "wrch failed" c

/-- Writes the characters of a text, up to the first that fails. -/
def writeText : Text → Action Peripherals Unit
  | [] => pure ()
  | c :: t => do
    writeCharacter c
    writeText t

/-- Whether the selected output stream can be written. -/
def isWritable (p : Peripherals) : Bool :=
  match p.streams.get? p.output with
  | some { channel := .output _, .. } => true
  | _ => false

/-- Writes a character the given number of times, up to the first time that fails. -/
def writeRepeated (c : UInt8) : Nat → Action Peripherals Unit
  | 0 => pure ()
  | n + 1 => do
    writeCharacter c
    writeRepeated c n

/-- Writes the characters of a padded text, up to the first that fails. The filling is passed
over if nothing can be written. -/
def writePadded (t : Padded) : Action Peripherals Unit := do
  if (← get).isWritable then writeRepeated t.fill t.count
  writeText t.text

/-- Writing two texts one after the other is writing them as one. -/
theorem writeText_append (s t : Text) :
    writeText (s ++ t) = (do writeText s; writeText t : Action Peripherals Unit) := by
  induction s with
  | nil => simp [writeText]
  | cons c s ih => simp [writeText, ih]

/-- Writing a character repeatedly is writing the text of its repetitions. -/
theorem writeRepeated_eq (c : UInt8) (n : Nat) :
    writeRepeated c n = writeText (List.replicate n c) := by
  induction n with
  | zero => rfl
  | succ n ih => rw [writeRepeated, List.replicate_succ, writeText, ih]

/-- Without a writable stream a byte is dropped. -/
theorem putByte_of_not_isWritable {p : Peripherals} (h : p.isWritable = false) (context : String)
    (c : UInt8) : putByte context c p = .ok () p := by
  have hget : (get : Action Peripherals Peripherals) p = .ok p p := rfl
  unfold putByte
  simp only [bind, EStateM.bind, hget]
  unfold isWritable at h
  rcases hs : p.streams.get? p.output with _ | ⟨_ | _, _⟩
  · rfl
  · rfl
  · simp [hs] at h

/-- Without a writable stream a text without line feeds is dropped. -/
theorem writeText_of_not_isWritable {p : Peripherals} (h : p.isWritable = false) {t : Text}
    (ht : Text.lineFeed ∉ t) : writeText t p = .ok () p := by
  induction t with
  | nil => rfl
  | cons c t ih =>
    rw [List.mem_cons, not_or] at ht
    simp only [writeText, writeCharacter, if_neg (Ne.symm ht.1), bind, EStateM.bind,
      putByte_of_not_isWritable h, ih ht.2]

/-- Writing a padded text is writing its bytes. -/
theorem writePadded_eq {t : Padded} (ht : t.fill ≠ Text.lineFeed) :
    writePadded t = writeText t.toText := by
  funext p
  have hget : (get : Action Peripherals Peripherals) p = .ok p p := rfl
  rw [Padded.toText, writeText_append, ← writeRepeated_eq]
  unfold writePadded
  simp only [bind, EStateM.bind, hget]
  by_cases h : p.isWritable = true
  · simp only [h, if_true]
    rfl
  · have hfill := writeText_of_not_isWritable (by simpa using h)
      (t := List.replicate t.count t.fill) (by simp [List.mem_replicate, Ne.symm ht])
    rw [writeRepeated_eq, hfill]
    simp only [h]
    rfl

/-- The handle that is tried after `h`. -/
def handleAfter (h : Cell) : Cell := if (h + 1).toInt < firstFile.toInt then firstFile else h + 1

/-- The first free handle for a file from `h` on, among the given number of handles. -/
def freeHandle? (t : StreamTable) : Nat → Cell → Option Cell
  | 0, _ => none
  | n + 1, h =>
    if t.isOpen h || decide (h.toInt < firstFile.toInt) then freeHandle? t n (handleAfter h)
    else some h

/-- How many handles are tried: no fewer than there are, whatever the first one is. -/
def handleCount : Nat := 0x8000

/-- Adds a stream under the first free handle. If there is none, the search never ends. -/
def addStream (s : Stream) : Action Peripherals Cell := do
  let p ← get
  match freeHandle? p.streams handleCount p.nextHandle with
  | none => throw .endless
  | some h =>
    modify fun p => { p with streams := p.streams.insert h s, nextHandle := h + 1 }
    return h

/-- Opens a file for reading under its name, or else under its name in lower case. -/
def openEither (h : Host) (name : Text) : Except HostError (Source × Closer × Host) :=
  match h.openFile name with
  | .ok opened => .ok opened
  | .error e => if Text.lowerCase name = name then .error e else h.openFile (Text.lowerCase name)

/-- Opens a file for reading and returns its handle, or 0 if it cannot be opened. The
reserved name is the default input. -/
def findInput (name : Text) : Action Peripherals Cell := do
  if Text.matchesWord name "SYSIN" then return defaultInput
  match openEither (← get).host name with
  | .ok (source, closer, host) =>
    modify fun p => { p with host }
    addStream ⟨.input { source }, some closer⟩
  | .error e =>
    trace (.findInputFailed name e)
    return 0

/-- Creates a file for writing and returns its handle, or 0 if it cannot be created. The
reserved name is the default output. -/
def findOutput (name : Text) : Action Peripherals Cell := do
  if Text.matchesWord name "SYSPRINT" then return defaultOutput
  match (← get).host.createFile name with
  | .ok (sink, closer, host) =>
    modify fun p => { p with host }
    addStream ⟨.output { sink }, some closer⟩
  | .error e =>
    trace (.findOutputFailed name e)
    return 0

/-- Selects an input stream. -/
def selectInput (h : Cell) : Action Peripherals Unit := modify fun p => { p with input := h }

/-- Selects an output stream. -/
def selectOutput (h : Cell) : Action Peripherals Unit := modify fun p => { p with output := h }

/-- Closes a file and forgets its handle, and returns its error. Default streams and
handles that are not open are left alone. -/
def endStream (h : Cell) : Action Peripherals (Option HostError) := do
  let p ← get
  if h = defaultInput ∨ h = defaultOutput then return none
  else
    match p.streams.get? h with
    | none => return none
    | some s =>
      let (e, _, host) := s.close p.host
      modify fun p => { p with streams := p.streams.erase h, host }
      return e

/-- Closes the selected input stream and selects the default input. -/
def endRead : Action Peripherals Unit := do
  let e ← endStream (← get).input
  selectInput defaultInput
  check "close failed" e

/-- Closes the selected output stream and selects the default output. -/
def endWrite : Action Peripherals Unit := do
  let e ← endStream (← get).output
  selectOutput defaultOutput
  check "close failed" e

/-- Closes the streams with the given handles in order and forgets all but the default
ones. The first error is returned. -/
def closeStreams : List Cell → Action Peripherals (Option HostError)
  | [] => return none
  | h :: hs => do
    let p ← get
    let e ←
      match p.streams.get? h with
      | none => pure none
      | some s => do
        let (e, s, host) := s.close p.host
        if h = defaultInput ∨ h = defaultOutput then setStream h s host
        else modify fun p => { p with streams := p.streams.erase h, host }
        pure e
    let later ← closeStreams hs
    return e <|> later

/-- Closes all streams in the given order and selects the default ones. -/
def closeInOrder (order : List Cell) : Action Peripherals Unit := do
  let e ← closeStreams order
  selectInput defaultInput
  selectOutput defaultOutput
  check "close failed" e

/-- Closes all streams and selects the default ones. -/
def close : Action Peripherals Unit := do
  closeInOrder (← get).streams.handles

/-- The bytes that reached the device of the default output since they were last collected,
if the default output is a device. -/
def collectOutput (p : Peripherals) : Text × Peripherals :=
  match p.streams.get? defaultOutput with
  | some { channel := .output { sink := .device d, backlog, failed }, closer } =>
    let (t, d) := d.collect
    (t, { p with
      streams := p.streams.set defaultOutput
        { channel := .output { sink := .device d, backlog, failed }, closer } })
  | _ => ([], p)

/-- The entries of the journal in order, and the peripherals with an empty journal. -/
def collectJournal (p : Peripherals) : List Event × Peripherals :=
  (p.journal.reverse, { p with journal := [] })

end Peripherals

end Intcode
