import Intcode.Host

/-!
# Streams

An input stream keeps the unread rest of its last read, an output stream holds
bytes back until it is flushed or full. Once a write of an output stream has
failed, the stream takes nothing more and repeats the error.
-/

namespace Intcode

/-- The bytes that an output stream holds back. -/
structure Backlog where
  /-- The bytes, the newest first. -/
  newest : Text := []
  /-- How many more bytes it takes. -/
  room : Nat := bufferSize
deriving DecidableEq, Repr, Inhabited

namespace Backlog

/-- The bytes held back, in order. -/
def text (b : Backlog) : Text := b.newest.reverse

/-- The backlog that holds a text. -/
def ofText (t : Text) : Backlog := ⟨t.reverse, bufferSize - t.length⟩

/-- Holds back one more byte. -/
def push (b : Backlog) (c : UInt8) : Backlog := ⟨c :: b.newest, b.room - 1⟩

/-- A byte held back comes last. -/
@[simp] theorem text_push (b : Backlog) (c : UInt8) : (b.push c).text = b.text ++ [c] := by
  simp [push, text]

/-- The backlog that holds a text holds that text. -/
@[simp] theorem text_ofText (t : Text) : (ofText t).text = t := by
  simp [ofText, text]

end Backlog

/-- An input stream. -/
structure Input where
  source : Source
  unread : Text := []
deriving DecidableEq, Repr, Inhabited

/-- What reading a byte gives. -/
inductive Reading where
  | byte (c : UInt8)
  | exhausted
  | failed (e : HostError)
deriving DecidableEq, Repr

namespace Input

/-- Reads a byte, from the source only if nothing is unread. -/
def next (i : Input) (h : Host) : Reading × Input :=
  match i.unread with
  | c :: t => (.byte c, { i with unread := t })
  | [] =>
    match i.source.read h with
    | (.bytes (c :: t), source) => (.byte c, ⟨source, t⟩)
    | (.bytes [], source) => (.exhausted, ⟨source, []⟩)
    | (.exhausted, source) => (.exhausted, ⟨source, []⟩)
    | (.failed e, source) => (.failed e, ⟨source, []⟩)

end Input

/-- An output stream. -/
structure Output where
  sink : Sink
  backlog : Backlog := {}
  /-- The error of the write that failed. -/
  failed : Option HostError := none
deriving DecidableEq, Repr, Inhabited

namespace Output

/-- Writes what is held back. What the sink did not take stays, and the error too. -/
def flush (o : Output) (h : Host) : Option HostError × Output × Host :=
  match o.failed with
  | some e => (some e, o, h)
  | none =>
    if o.backlog.newest.isEmpty then (none, o, h)
    else
      let t := o.backlog.text
      let (n, sink, h) := o.sink.write t h
      if n < t.length then
        (some .deviceFull, ⟨sink, .ofText (t.drop n), some .deviceFull⟩, h)
      else
        (none, ⟨sink, {}, none⟩, h)

/-- Takes a byte, after a flush if there is no room for it. -/
def put (o : Output) (c : UInt8) (h : Host) : Option HostError × Output × Host :=
  match o.failed with
  | some e => (some e, o, h)
  | none =>
    if o.backlog.room = 0 then
      match o.flush h with
      | (some e, o, h) => (some e, o, h)
      | (none, o, h) => (none, { o with backlog := o.backlog.push c }, h)
    else
      (none, { o with backlog := o.backlog.push c }, h)

end Output

/-- The direction of a stream. -/
inductive Channel where
  | input (i : Input)
  | output (o : Output)
deriving DecidableEq, Repr, Inhabited

/-- A stream, and what closing it takes if it is an open file. -/
structure Stream where
  channel : Channel
  closer : Option Closer := none
deriving DecidableEq, Repr, Inhabited

namespace Stream

/-- Flushes an output stream. An input stream has nothing to flush. -/
def flush (s : Stream) (h : Host) : Option HostError × Stream × Host :=
  match s.channel with
  | .input _ => (none, s, h)
  | .output o =>
    let (e, o, h) := o.flush h
    (e, { s with channel := .output o }, h)

/-- Flushes a stream and closes its file. The first of the two errors counts, but the file
is closed in any case, and only once. -/
def close (s : Stream) (h : Host) : Option HostError × Stream × Host :=
  let (flushError, s, h) := s.flush h
  match s.closer with
  | none => (flushError, s, h)
  | some c =>
    let (closeError, h) := h.close c
    (flushError <|> closeError, { s with closer := none }, h)

end Stream

/-- The open streams by their handles. -/
structure StreamTable where
  slots : Array (Option Stream) := #[]
deriving DecidableEq, Repr, Inhabited

namespace StreamTable

/-- The stream with a handle. -/
def get? (t : StreamTable) (h : Cell) : Option Stream := t.slots.getD h.toNat none

/-- Whether a handle is open. -/
def isOpen (t : StreamTable) (h : Cell) : Bool := (t.get? h).isSome

/-- Puts a stream, or none, under a handle that has a slot. -/
def put (t : StreamTable) (h : Cell) (s : Option Stream) : StreamTable :=
  ⟨t.slots.setIfInBounds h.toNat s⟩

/-- Makes room for a handle. -/
def reserve (t : StreamTable) (h : Cell) : StreamTable :=
  if h.toNat < t.slots.size then t
  else ⟨t.slots ++ Array.replicate (h.toNat + 1 - t.slots.size) none⟩

/-- Adds a stream under a handle. -/
def insert (t : StreamTable) (h : Cell) (s : Stream) : StreamTable := (t.reserve h).put h (some s)

/-- Replaces the stream with a handle, if it is open. -/
def set (t : StreamTable) (h : Cell) (s : Stream) : StreamTable :=
  if t.isOpen h then t.put h (some s) else t

/-- Removes the stream with a handle. -/
def erase (t : StreamTable) (h : Cell) : StreamTable := t.put h none

/-- The open handles, in ascending order. -/
def handles (t : StreamTable) : List Cell :=
  ((List.range t.slots.size).map Cell.ofNat).filter t.isOpen

/-- An open handle has a slot. -/
theorem lt_size_of_isOpen {t : StreamTable} {h : Cell} (hopen : t.isOpen h = true) :
    h.toNat < t.slots.size := by
  rw [isOpen, get?, Array.getD_eq_getD_getElem?] at hopen
  by_cases hlt : h.toNat < t.slots.size
  · exact hlt
  · rw [Array.getElem?_eq_none (Nat.le_of_not_lt hlt)] at hopen
    simp at hopen

/-- Handles are the same if their slots are. -/
theorem toNat_eq_iff (h k : Cell) : h.toNat = k.toNat ↔ k = h :=
  ⟨fun e => (BitVec.eq_of_toNat_eq e).symm, fun e => by rw [e]⟩

/-- Putting a stream under a handle changes no other handle. -/
theorem get?_put (t : StreamTable) (h k : Cell) (s : Option Stream) :
    (t.put h s).get? k = if k = h ∧ h.toNat < t.slots.size then s else t.get? k := by
  simp only [get?, put, Array.getD_eq_getD_getElem?, Array.getElem?_setIfInBounds, toNat_eq_iff]
  by_cases hk : k = h
  · subst hk
    by_cases hlt : k.toNat < t.slots.size <;> simp [hlt]
  · simp [hk]

/-- Making room opens and closes nothing. -/
theorem get?_reserve (t : StreamTable) (h k : Cell) : (t.reserve h).get? k = t.get? k := by
  unfold reserve
  split
  · rfl
  · simp only [get?, Array.getD_eq_getD_getElem?, Array.getElem?_append, Array.getElem?_replicate]
    by_cases hk : k.toNat < t.slots.size
    · simp [hk]
    · rw [if_neg hk, Array.getElem?_eq_none (Nat.le_of_not_lt hk)]
      split <;> rfl

/-- There is room for a handle once it has been made. -/
theorem lt_size_reserve (t : StreamTable) (h : Cell) : h.toNat < (t.reserve h).slots.size := by
  unfold reserve
  split
  · assumption
  · rw [Array.size_append, Array.size_replicate]
    omega

/-- Replacing a stream changes no other handle, and opens none. -/
theorem get?_set (t : StreamTable) (h k : Cell) (s : Stream) :
    (t.set h s).get? k = if k = h then (t.get? h).map fun _ => s else t.get? k := by
  unfold set
  by_cases hopen : t.isOpen h = true
  · rw [if_pos hopen, get?_put]
    obtain ⟨r, hr⟩ := Option.isSome_iff_exists.mp hopen
    simp [lt_size_of_isOpen hopen, hr]
  · rw [if_neg hopen]
    have hnone : t.get? h = none := by simpa [isOpen] using hopen
    by_cases hk : k = h <;> simp [hk, hnone]

/-- Removing a stream closes its handle and no other. -/
theorem get?_erase (t : StreamTable) (h k : Cell) :
    (t.erase h).get? k = if k = h then none else t.get? k := by
  rw [erase, get?_put]
  by_cases hk : k = h
  · subst hk
    by_cases hlt : k.toNat < t.slots.size
    · simp [hlt]
    · simp [hlt, get?, Array.getD_eq_getD_getElem?]
  · simp [hk]

/-- Adding a stream opens its handle and changes no other. -/
theorem get?_insert (t : StreamTable) (h k : Cell) (s : Stream) :
    (t.insert h s).get? k = if k = h then some s else t.get? k := by
  rw [insert, get?_put, get?_reserve]
  simp [lt_size_reserve]

end StreamTable

end Intcode
