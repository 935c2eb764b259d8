import Intcode.Device

/-!
# The host's files

The host keeps files by name. It either follows a script that says for each name
what opening, reading, creating and closing it does, or it has directories and finds
out for itself what a name leads to. Every opened file gets a ticket, which is handed
back when the file is closed.
-/

namespace Intcode

/-- What the host gives for an opened file and takes back when the file is closed. Tickets are
never used twice. -/
abbrev Ticket := Nat

/-- What a scripted host does with a name. -/
structure Provision where
  /-- What the file holds before the program creates one of that name. -/
  contents : Text := []
  /-- Reading fails after the contents. -/
  readFails : Bool := false
  /-- The file cannot be opened. -/
  unreadable : Bool := false
  /-- The file can be neither created nor opened. -/
  uncreatable : Bool := false
  /-- The room of a created file. -/
  room : Option Nat := none
  /-- Closing fails. -/
  closeFails : Bool := false
deriving DecidableEq, Repr

/-- How the host treats names. -/
inductive Custody where
  /-- As a script says. An opened file is read as it is at that moment, and a created one
  takes the place of the former one of its name. -/
  | scripted (provisions : List (Text × Provision))
  /-- As a directory does. An opened file is read as it changes, and creating a file
  empties the one of that name. -/
  | directory
deriving DecidableEq, Repr

/-- What a name leads to in the directories of the host. -/
inductive Place where
  /-- A file that there is or can be. Several names may lead to it, and the host keeps it under one
  of them. The flags say whether it can be opened and whether it can be created or emptied. -/
  | file (name : Text) (readable writable : Bool)
  | directory
  /-- The device that is always empty and takes everything. -/
  | null
  | nowhere
deriving DecidableEq, Repr

/-- The name under which the host keeps the file, if it is one. -/
def Place.name? : Place → Option Text
  | file name _ _ => some name
  | _ => none

/-- What a file holds, and the room it has left. -/
structure Body where
  /-- The bytes in pieces, the last piece first. -/
  pieces : List Text := []
  /-- The number of bytes. -/
  length : Nat := 0
  room : Option Nat := none
  /-- The ticket that was given for the file when it was created. -/
  ticket : Option Ticket := none
  length_eq : length = pieces.reverse.flatten.length := by rfl
deriving DecidableEq, Repr

namespace Body

instance : Inhabited Body := ⟨{}⟩

/-- The bytes of a file. -/
def contents (b : Body) : Text :=
  match b.pieces with
  | [t] => t
  | pieces => pieces.reverse.flatten

/-- The bytes are the pieces in order. -/
theorem contents_eq (b : Body) : b.contents = b.pieces.reverse.flatten := by
  unfold contents
  split <;> simp_all

/-- The number of bytes counts them. -/
@[simp] theorem length_contents (b : Body) : b.contents.length = b.length := by
  rw [contents_eq, b.length_eq]

/-- The file with other contents. -/
def withContents (b : Body) (t : Text) : Body :=
  { b with pieces := [t], length := t.length, length_eq := by simp }

/-- The file with a text after its contents. -/
def append (b : Body) (t : Text) : Body :=
  { b with
    pieces := t :: b.pieces
    length := b.length + t.length
    length_eq := by
      rw [List.reverse_cons, List.flatten_append, List.length_append, ← b.length_eq,
        List.flatten_singleton] }

/-- Contents with a text laid over them from an offset on, and zeros up to it. -/
def overlay (contents : Text) (offset : Nat) (t : Text) : Text :=
  contents.take offset ++ List.replicate (offset - contents.length) 0 ++ t ++
    contents.drop (offset + t.length)

/-- Writes a text at an offset, or as much of it as there is room for, and tells how many
bytes were taken. -/
def writeAt (b : Body) (offset : Nat) (t : Text) : Nat × Body :=
  let n := Device.fitting { room := b.room } t
  let b := { b with room := b.room.map (· - n) }
  (n, if offset = b.length then b.append (t.take n)
    else b.withContents (overlay b.contents offset (t.take n)))

/-- A write lays what was taken over the contents. -/
theorem contents_writeAt (b : Body) (offset : Nat) (t : Text) :
    (b.writeAt offset t).2.contents =
      overlay b.contents offset (t.take (b.writeAt offset t).1) := by
  simp only [writeAt]
  split
  · next h =>
    have htake : b.contents.take offset = b.contents :=
      List.take_of_length_le (Nat.le_of_eq (by rw [length_contents, h]))
    have hdrop (k : Nat) : b.contents.drop (offset + k) = [] :=
      List.drop_of_length_le (by rw [length_contents, h]; exact Nat.le_add_right _ _)
    rw [overlay, htake, hdrop, length_contents, h, Nat.sub_self, contents_eq, contents_eq]
    simp [append]
  · simp [contents_eq, withContents]

end Body

/-- The host's files. -/
structure Host where
  custody : Custody
  /-- What names lead to in directories. -/
  place : Text → Place := fun name => .file name true true
  /-- The files there are or have been. -/
  bodies : Array Body := #[]
  /-- The number of the file that each name denotes. -/
  names : List (Text × Nat) := []
  /-- The next ticket. -/
  next : Ticket := 0
  /-- The tickets handed back, the latest first. -/
  closed : List Ticket := []

instance : Inhabited Host := ⟨{ custody := .directory }⟩

/-- Where the bytes of an input stream come from. -/
inductive Source where
  /-- Successive deliveries, then the end or a failure that repeats for ever. -/
  | script (chunks : List Text) (ending : Option HostError)
  /-- A file of the host, from an offset on. -/
  | file (body : Nat) (offset : Nat)
deriving DecidableEq, Repr, Inhabited

/-- Where the bytes of an output stream go. -/
inductive Sink where
  /-- A device of its own. -/
  | device (d : Device)
  /-- A file of the host, from an offset on. -/
  | file (body : Nat) (offset : Nat)
deriving DecidableEq, Repr, Inhabited

/-- What closing an opened file takes. -/
structure Closer where
  ticket : Ticket
  /-- Whether closing fails. -/
  fails : Bool
deriving DecidableEq, Repr

namespace Host

/-- The host that holds the given files in directories. -/
def ofDirectory (place : Text → Place) (files : List (Text × Text)) : Host where
  custody := .directory
  place
  bodies := (files.map fun file => Body.withContents {} file.2).toArray
  names := files.mapIdx fun k file => (file.1, k)

/-- The file with a number. -/
def body (h : Host) (k : Nat) : Body := h.bodies.getD k {}

/-- Replaces the file with a number. -/
def setBody (h : Host) (k : Nat) (b : Body) : Host :=
  { h with bodies := h.bodies.setIfInBounds k b }

/-- The files that names denote, with what they hold. -/
def files (h : Host) : List (Text × Text) :=
  h.names.map fun (name, k) => (name, (h.body k).contents)

/-- Whether a file has been closed by those who created it. -/
def isClosed (h : Host) (k : Nat) : Bool := (h.body k).ticket.any h.closed.contains

/-- What a script provides for a name. -/
def provision (provisions : List (Text × Provision)) (name : Text) : Provision :=
  (provisions.lookup name).getD {}

/-- The contents and the ending that opening a name of a script gives. -/
def openScripted (h : Host) (provisions : List (Text × Provision)) (name : Text) :
    Except HostError Source :=
  let p := provision provisions name
  let ending := if p.readFails then some .deviceError else none
  if p.unreadable then .error .permissionDenied
  else
    match h.names.lookup name with
    | some k => .ok (.script [(h.body k).contents] ending)
    | none =>
      if (provisions.lookup name).isNone || p.uncreatable then .error .noSuchFile
      else .ok (.script [p.contents] ending)

/-- What opening a name of a directory gives. Directories open, but cannot be read. -/
def openListed (h : Host) (name : Text) : Except HostError Source :=
  match h.place name with
  | .directory => .ok (.script [] (some (.isDirectory name)))
  | .null => .ok (.script [] none)
  | .nowhere => .error .noSuchFile
  | .file name readable _ =>
    match h.names.lookup name with
    | some k => if readable then .ok (.file k 0) else .error .permissionDenied
    | none => .error .noSuchFile

/-- Takes the next ticket. -/
def takeTicket (h : Host) : Ticket × Host := (h.next, { h with next := h.next + 1 })

/-- Opens a file for reading. -/
def openFile (h : Host) (name : Text) : Except HostError (Source × Closer × Host) := do
  let (source, fails) ←
    match h.custody with
    | .scripted provisions => do
      let source ← h.openScripted provisions name
      pure (source, (provision provisions name).closeFails)
    | .directory => do
      let source ← h.openListed name
      pure (source, false)
  let (ticket, h) := h.takeTicket
  return (source, ⟨ticket, fails⟩, h)

/-- Makes a name denote the file with a number. -/
def bindName (h : Host) (name : Text) (k : Nat) : Host :=
  { h with names := (name, k) :: h.names.filter fun e => e.1 != name }

/-- Adds a file without a name and returns its number. -/
def addBody (h : Host) (b : Body) : Nat × Host :=
  (h.bodies.size, { h with bodies := h.bodies.push b })

/-- Creates a file for writing. -/
def createFile (h : Host) (name : Text) : Except HostError (Sink × Closer × Host) :=
  let (ticket, fresh) := h.takeTicket
  match h.custody with
  | .scripted provisions =>
    let p := provision provisions name
    if p.uncreatable then .error .permissionDenied
    else
      let (k, fresh) := fresh.addBody { room := p.room, ticket := some ticket }
      .ok (.file k 0, ⟨ticket, p.closeFails⟩, fresh.bindName name k)
  | .directory =>
    match h.place name with
    | .directory | .nowhere => .error .noSuchFile
    | .null =>
      let (k, fresh) := fresh.addBody {}
      .ok (.file k 0, ⟨ticket, false⟩, fresh)
    | .file _ _ false => .error .permissionDenied
    | .file name _ true =>
      match h.names.lookup name with
      | some k => .ok (.file k 0, ⟨ticket, false⟩, fresh.setBody k {})
      | none =>
        let (k, fresh) := fresh.addBody {}
        .ok (.file k 0, ⟨ticket, false⟩, fresh.bindName name k)

/-- Takes a ticket back, and tells whether closing the file failed. -/
def close (h : Host) (c : Closer) : Option HostError × Host :=
  (if c.fails then some .badClose else none, { h with closed := c.ticket :: h.closed })

end Host

/-- The most that one read delivers, and the most that an output stream holds back. -/
def bufferSize : Nat := 4096

/-- What a read delivers. -/
inductive Delivery where
  /-- Some bytes. -/
  | bytes (t : Text)
  /-- The end. -/
  | exhausted
  /-- A failure. -/
  | failed (e : HostError)
deriving DecidableEq, Repr

namespace Source

/-- Reads from a script. Empty deliveries are passed over, and a long one comes in pieces. -/
def readScript : List Text → Option HostError → Delivery × Source
  | [], some e => (.failed e, .script [] (some e))
  | [], none => (.exhausted, .script [] none)
  | t :: ts, ending =>
    if t.isEmpty then readScript ts ending
    else
      let rest := t.drop bufferSize
      (.bytes (t.take bufferSize), .script (if rest.isEmpty then ts else rest :: ts) ending)

/-- Reads once. -/
def read (s : Source) (h : Host) : Delivery × Source :=
  match s with
  | script chunks ending => readScript chunks ending
  | file k offset =>
    let bytes := ((h.body k).contents.drop offset).take bufferSize
    if bytes.isEmpty then (.exhausted, s) else (.bytes bytes, .file k (offset + bytes.length))

/-- All bytes that are still to come, and the failure after them. -/
def drain (s : Source) (h : Host) : Text × Option HostError :=
  match s with
  | script chunks ending => (chunks.flatten, ending)
  | file k offset => ((h.body k).contents.drop offset, none)

end Source

namespace Sink

/-- Writes a text, or as much of it as there is room for, and tells how many bytes were
taken. -/
def write (s : Sink) (t : Text) (h : Host) : Nat × Sink × Host :=
  match s with
  | device d =>
    let (n, d) := d.write t
    (n, .device d, h)
  | file k offset =>
    let (n, b) := (h.body k).writeAt offset t
    (n, .file k (offset + n), h.setBody k b)

end Sink

end Intcode
