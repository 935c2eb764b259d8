import Intcode.Proofs.Streams.Effects
import Mathlib.Logic.Relation

/-!
# Moves of the stream table

Whatever the operations on streams do, they do in moves of a few kinds: a stream is
read, written, flushed, opened or closed, another one is selected, or the journal
gets an entry. A scope says which streams may be read, written and ended and which
files may be created, so that the moves of an operation are those inside its scope.

Main statement: every operation is made of moves inside its scope. What every move
inside a scope keeps, the operation keeps.
-/

namespace Intcode

/-- The streams that may be read, written and ended, whether files may be opened, and the files
that may be created. -/
structure Scope where
  reads : Cell → Prop := fun _ => False
  writes : Cell → Prop := fun _ => False
  ends : Cell → Prop := fun _ => False
  finds : Prop := False
  creates : Nat → Prop := fun _ => False

namespace Peripherals

/-- The moves at a handle inside a scope. The default output may be flushed at any time, and
closing the default streams leaves them open. -/
inductive Move (scope : Scope) (p : Peripherals) : Cell → Peripherals → Prop
  | note (k : Cell) (e : Event) : Move scope p k { p with journal := e :: p.journal }
  | select (k i o : Cell) : Move scope p k { p with input := i, output := o }
  | flush {s} (hstream : p.streams.get? defaultOutput = some s) :
      Move scope p defaultOutput
        (p.withStream defaultOutput (s.flush p.host).2.1 (s.flush p.host).2.2)
  | read {k i closer} (hscope : scope.reads k)
      (hstream : p.streams.get? k = some ⟨.input i, closer⟩) :
      Move scope p k (p.withStream k ⟨.input (i.next p.host).2, closer⟩ p.host)
  | write {k o closer} (c : UInt8) (hscope : scope.writes k)
      (hstream : p.streams.get? k = some ⟨.output o, closer⟩) :
      Move scope p k (p.withStream k ⟨.output (o.put c p.host).2.1, closer⟩ (o.put c p.host).2.2)
  | finish {k s} (hscope : scope.ends k) (hfile : k ≠ defaultInput ∧ k ≠ defaultOutput)
      (hstream : p.streams.get? k = some s) : Move scope p k (p.ended k s)
  | settle {k s} (hdefault : k = defaultInput ∨ k = defaultOutput)
      (hstream : p.streams.get? k = some s) :
      Move scope p k (p.withStream k (s.close p.host).2.1 (s.close p.host).2.2)
  | find {name source closer host k} (hscope : scope.finds)
      (hopen : openEither p.host name = .ok (source, closer, host))
      (hfree : freeHandle? p.streams handleCount p.nextHandle = some k) :
      Move scope p k ((p.withHost host).added k ⟨.input { source }, some closer⟩)
  | create {name f closer host k} (hscope : scope.creates f)
      (hcreate : p.host.createFile name = .ok (.file f 0, closer, host))
      (hfree : freeHandle? p.streams handleCount p.nextHandle = some k) :
      Move scope p k ((p.withHost host).added k ⟨.output { sink := .file f 0 }, some closer⟩)

/-- Any number of moves inside a scope lead from one state to another. -/
def Reaches (scope : Scope) : Peripherals → Peripherals → Prop :=
  Relation.ReflTransGen fun p q => ∃ k, Move scope p k q

section Table

variable (p : Peripherals) (k j : Cell) (s : Stream) (host : Host)

/-- Another state of a stream is that of its handle only. -/
theorem get?_withStream :
    (p.withStream k s host).streams.get? j =
      if j = k then (p.streams.get? k).map fun _ => s else p.streams.get? j :=
  p.streams.get?_set k j s

/-- An ended stream has no handle, and all others keep theirs. -/
theorem get?_ended :
    (p.ended k s).streams.get? j = if j = k then none else p.streams.get? j :=
  p.streams.get?_erase k j

/-- An added stream has its handle, and all others keep theirs. -/
theorem get?_added :
    (p.added k s).streams.get? j = if j = k then some s else p.streams.get? j :=
  p.streams.get?_insert k j s

end Table

section Reaches

variable {scope : Scope} {p q r : Peripherals} {k : Cell}

/-- A single move leads to its state. -/
theorem Move.reaches (h : Move scope p k q) : Reaches scope p q := .single ⟨k, h⟩

/-- No move at all leads to the state itself. -/
theorem Reaches.refl (scope : Scope) (p : Peripherals) : Reaches scope p p :=
  Relation.ReflTransGen.refl

/-- Moves can be followed by moves. -/
theorem Reaches.trans (h : Reaches scope p q) (h' : Reaches scope q r) : Reaches scope p r :=
  Relation.ReflTransGen.trans h h'

/-- What every move inside a scope keeps, all of them keep. -/
theorem Reaches.preserves {I : Peripherals → Prop} (h : Reaches scope p q)
    (hmove : ∀ p k q, Move scope p k q → I p → I q) (hp : I p) : I q := by
  induction h with
  | refl => exact hp
  | tail _ hstep ih =>
    obtain ⟨k, hk⟩ := hstep
    exact hmove _ k _ hk ih

/-- An entry in the journal is a move, if one is made. -/
theorem reaches_traced (scope : Scope) (p : Peripherals) (e : Event) :
    Reaches scope p (p.traced e) := by
  unfold traced
  split
  · exact (Move.note 0 e).reaches
  · exact .refl scope p

/-- A flush of the default output is a move. -/
theorem reaches_flushed (scope : Scope) (p : Peripherals) : Reaches scope p p.flushed := by
  unfold flushed
  cases hstream : p.streams.get? defaultOutput with
  | none => exact .refl scope p
  | some s => exact (Move.flush hstream).reaches

/-- Making what has been written visible takes moves inside any scope. -/
theorem reaches_prompted (scope : Scope) (p : Peripherals) : Reaches scope p p.prompted := by
  unfold prompted
  cases p.flushError with
  | none => exact reaches_flushed scope p
  | some e => exact (reaches_flushed scope p).trans (reaches_traced scope _ _)

end Reaches

section Frame

variable {p : Peripherals}

/-- An entry in the journal leaves streams, selection and host alone. -/
@[simp] theorem traced_streams (p : Peripherals) (e : Event) :
    (p.traced e).streams = p.streams := by
  unfold traced
  split <;> rfl

/-- An entry in the journal leaves the host alone. -/
@[simp] theorem traced_host (p : Peripherals) (e : Event) : (p.traced e).host = p.host := by
  unfold traced
  split <;> rfl

/-- An entry in the journal leaves the selected input stream alone. -/
@[simp] theorem traced_input (p : Peripherals) (e : Event) : (p.traced e).input = p.input := by
  unfold traced
  split <;> rfl

/-- An entry in the journal leaves the selected output stream alone. -/
@[simp] theorem traced_output (p : Peripherals) (e : Event) : (p.traced e).output = p.output := by
  unfold traced
  split <;> rfl

/-- A flush leaves the selection alone. -/
theorem flushed_selection (p : Peripherals) :
    p.flushed.input = p.input ∧ p.flushed.output = p.output := by
  unfold flushed
  cases p.streams.get? defaultOutput <;> exact ⟨rfl, rfl⟩

/-- A flush changes no stream but the default output. -/
theorem get?_flushed (p : Peripherals) (k : Cell) :
    p.flushed.streams.get? k =
      if k = defaultOutput then (p.streams.get? k).map fun s => (s.flush p.host).2.1
      else p.streams.get? k := by
  unfold flushed
  by_cases hk : k = defaultOutput
  · subst hk
    cases hstream : p.streams.get? defaultOutput with
    | none => simp [hstream]
    | some s => simp [get?_withStream, hstream]
  · cases p.streams.get? defaultOutput with
    | none => rw [if_neg hk]
    | some s => simp only [get?_withStream, if_neg hk]

/-- Making what has been written visible leaves the selection alone. -/
theorem prompted_selection (p : Peripherals) :
    p.prompted.input = p.input ∧ p.prompted.output = p.output := by
  unfold prompted
  cases p.flushError with
  | none => exact p.flushed_selection
  | some e => simpa using p.flushed_selection

/-- Making what has been written visible is a flush, as far as streams are concerned. -/
theorem prompted_streams (p : Peripherals) : p.prompted.streams = p.flushed.streams := by
  unfold prompted
  cases p.flushError with
  | none => rfl
  | some e => exact traced_streams ..

/-- Getting ready to read leaves the selection alone. -/
theorem readied_selection (p : Peripherals) (i : Input) :
    (p.readied i).input = p.input ∧ (p.readied i).output = p.output := by
  unfold readied
  split
  · exact p.prompted_selection
  · exact ⟨rfl, rfl⟩

/-- Getting ready to read changes no input stream. -/
theorem get?_readied {k : Cell} {j : Input} {closer : Option Closer} (i : Input)
    (hstream : p.streams.get? k = some ⟨.input j, closer⟩) :
    (p.readied i).streams.get? k = some ⟨.input j, closer⟩ := by
  unfold readied
  split
  · rw [prompted_streams, get?_flushed, hstream]
    split <;> rfl
  · exact hstream

/-- A reading is noted at most. -/
theorem afterReading_frame (p : Peripherals) (k : Cell) (r : Reading) :
    (p.afterReading k r).streams = p.streams ∧ (p.afterReading k r).host = p.host ∧
      (p.afterReading k r).input = p.input := by
  cases r with
  | failed e => exact ⟨traced_streams .., traced_host .., traced_input ..⟩
  | byte c => exact ⟨rfl, rfl, rfl⟩
  | exhausted => exact ⟨rfl, rfl, rfl⟩

end Frame

section Operations

variable (p : Peripherals)

/-- Reading a character takes moves that read the selected stream. -/
theorem readCharacter_reaches :
    Reaches { reads := (· = p.input) } p (readCharacter.final p) := by
  rw [Action.final, readCharacter_apply]
  rcases hstream : p.streams.get? p.input with _ | ⟨i | o, closer⟩
  · exact .refl _ p
  · have hready : Reaches { reads := (· = p.input) } p (p.readied i) := by
      unfold readied
      split
      · exact reaches_prompted _ p
      · exact .refl _ p
    have hmove : Move { reads := (· = p.input) } (p.readied i) p.input _ :=
      Move.read rfl (get?_readied i hstream)
    refine hready.trans (hmove.reaches.trans ?_)
    simp only [Action.stateOf_ok]
    cases (i.next (p.readied i).host).1 with
    | failed e => exact reaches_traced _ _ _
    | byte c => exact .refl _ _
    | exhausted => exact .refl _ _
  · exact .refl _ p

/-- Giving a byte to the selected stream takes moves that write it, and leaves the selection
alone. -/
theorem putByte_reaches (context : String) (c : UInt8) :
    Reaches { writes := (· = p.output) } p ((putByte context c).final p) ∧
      ((putByte context c).final p).output = p.output := by
  rw [Action.final, putByte_apply]
  rcases hstream : p.streams.get? p.output with _ | ⟨i | o, closer⟩
  · exact ⟨.refl _ p, rfl⟩
  · exact ⟨.refl _ p, rfl⟩
  · simp only [stateOf_concluded]
    exact ⟨(Move.write c rfl hstream).reaches, rfl⟩

/-- Ending a line takes moves that write the selected stream. -/
theorem newline_reaches : Reaches { writes := (· = p.output) } p (newline.final p) := by
  obtain ⟨hput, -⟩ := p.putByte_reaches "newline failed" Text.lineFeed
  rw [Action.final] at hput ⊢
  rw [newline_apply]
  cases hbyte : putByte "newline failed" Text.lineFeed p with
  | error e q =>
    rw [hbyte] at hput
    exact hput
  | ok u q =>
    rw [hbyte] at hput
    by_cases hdefault : q.output = defaultOutput
    · simp only [if_pos hdefault, stateOf_concluded]
      exact hput.trans (reaches_flushed _ q)
    · simp only [if_neg hdefault]
      exact hput

/-- Writing a character takes moves that write the selected stream. -/
theorem writeCharacter_reaches (c : UInt8) :
    Reaches { writes := (· = p.output) } p ((writeCharacter c).final p) := by
  unfold writeCharacter
  split
  · exact p.newline_reaches
  · exact (p.putByte_reaches "wrch failed" c).1

/-- Ending a stream takes moves that end it. -/
theorem endStream_reaches (k : Cell) :
    ∃ e q, endStream k p = .ok e q ∧ Reaches { ends := (· = k) } p q := by
  rw [endStream_apply]
  by_cases hdefault : k = defaultInput ∨ k = defaultOutput
  · rw [if_pos hdefault]
    exact ⟨_, _, rfl, .refl _ p⟩
  · rw [if_neg hdefault]
    rw [not_or] at hdefault
    cases hstream : p.streams.get? k with
    | none => exact ⟨_, _, rfl, .refl _ p⟩
    | some s => exact ⟨_, _, rfl, (Move.finish rfl hdefault hstream).reaches⟩

/-- Ending the selected input stream takes moves that end it. -/
theorem endRead_reaches : Reaches { ends := (· = p.input) } p (endRead.final p) := by
  obtain ⟨e, q, hend, hreach⟩ := p.endStream_reaches p.input
  have hselect : Move { ends := (· = p.input) } q 0 { q with input := defaultInput } :=
    Move.select 0 defaultInput q.output
  simp only [Action.final, endRead, Action.bind_apply, Action.get_apply, hend, selectInput,
    Action.modify_apply, check_apply, stateOf_concluded]
  exact hreach.trans hselect.reaches

/-- Ending the selected output stream takes moves that end it. -/
theorem endWrite_reaches : Reaches { ends := (· = p.output) } p (endWrite.final p) := by
  obtain ⟨e, q, hend, hreach⟩ := p.endStream_reaches p.output
  have hselect : Move { ends := (· = p.output) } q 0 { q with output := defaultOutput } :=
    Move.select 0 q.input defaultOutput
  simp only [Action.final, endWrite, Action.bind_apply, Action.get_apply, hend, selectOutput,
    Action.modify_apply, check_apply, stateOf_concluded]
  exact hreach.trans hselect.reaches

/-- Closing a stream of a list takes a move that ends it. -/
theorem closeOne_reaches {scope : Scope} {k : Cell} (hk : scope.ends k) :
    Reaches scope p (p.closeOne k) := by
  unfold closeOne
  cases hstream : p.streams.get? k with
  | none => exact .refl scope p
  | some s =>
    by_cases hdefault : k = defaultInput ∨ k = defaultOutput
    · simp only [if_pos hdefault]
      exact (Move.settle hdefault hstream).reaches
    · simp only [if_neg hdefault]
      exact (Move.finish hk (not_or.mp hdefault) hstream).reaches

/-- Closing streams takes moves that end them. -/
theorem closeStreams_reaches {scope : Scope} {ks : List Cell} (hks : ∀ k ∈ ks, scope.ends k) :
    ∃ e q, closeStreams ks p = .ok e q ∧ Reaches scope p q := by
  induction ks generalizing p with
  | nil => exact ⟨none, p, rfl, .refl scope p⟩
  | cons k ks ih =>
    obtain ⟨e, q, hclose, hreach⟩ := ih (p.closeOne k) fun j hj => hks j (List.mem_cons_of_mem k hj)
    have hfirst := p.closeOne_reaches (hks k List.mem_cons_self)
    refine ⟨p.closeError k <|> e, q, ?_, hfirst.trans hreach⟩
    rw [closeStreams_cons_apply, hclose]

/-- Closing all streams takes moves that end them. -/
theorem closeInOrder_reaches (order : List Cell) :
    Reaches { ends := (· ∈ order) } p ((closeInOrder order).final p) := by
  obtain ⟨e, q, hclose, hreach⟩ :
      ∃ e q, closeStreams order p = .ok e q ∧ Reaches { ends := (· ∈ order) } p q :=
    p.closeStreams_reaches fun k hk => hk
  have hselect : Move { ends := (· ∈ order) } q 0
      { q with input := defaultInput, output := defaultOutput } :=
    Move.select 0 defaultInput defaultOutput
  simp only [Action.final, closeInOrder, Action.bind_apply, hclose, selectInput, selectOutput,
    Action.modify_apply, check_apply, stateOf_concluded]
  exact hreach.trans hselect.reaches

/-- Opening a file takes a move that opens it, unless the search for a handle never ends. -/
theorem findInput_reaches (name : Text) {k : Cell} {q : Peripherals}
    (hfind : findInput name p = .ok k q) : Reaches { finds := True } p q := by
  rw [findInput_apply] at hfind
  split at hfind
  · cases hfind
    exact .refl _ p
  · rcases hopen : openEither p.host name with e | ⟨source, closer, host⟩
    · rw [hopen] at hfind
      cases hfind
      exact reaches_traced _ p _
    · simp only [hopen, addStream_apply] at hfind
      cases hfree : freeHandle? (p.withHost host).streams handleCount
          (p.withHost host).nextHandle with
      | none => simp only [hfree, reduceCtorEq] at hfind
      | some h =>
        simp only [hfree] at hfind
        cases hfind
        exact (Move.find trivial hopen hfree).reaches

/-- The file that a request to create one creates. -/
def created? (name : Text) : Option Nat :=
  if Text.matchesWord name "SYSPRINT" then none
  else
    match p.host.createFile name with
    | .ok (sink, _, _) => sink.file?
    | .error _ => none

/-- A file that is created under a name is one that the host creates. The name is not reserved. -/
theorem exists_createFile_of_created? {p : Peripherals} {name : Text} {f : Nat}
    (hcreated : p.created? name = some f) : ∃ sink closer host,
      p.host.createFile name = .ok (sink, closer, host) ∧ sink.file? = some f ∧
        Text.matchesWord name "SYSPRINT" = false := by
  unfold created? at hcreated
  by_cases hword : Text.matchesWord name "SYSPRINT" = true
  · rw [if_pos hword] at hcreated
    cases hcreated
  · rw [if_neg hword] at hcreated
    rcases hcreate : p.host.createFile name with error | ⟨sink, closer, host⟩
    · rw [hcreate] at hcreated
      cases hcreated
    · rw [hcreate] at hcreated
      exact ⟨sink, closer, host, rfl, hcreated, Bool.eq_false_iff.mpr hword⟩

/-- Creating a file takes a move that creates it, unless the search for a handle never ends. -/
theorem findOutput_reaches (name : Text) {k : Cell} {q : Peripherals}
    (hfind : findOutput name p = .ok k q) :
    Reaches { creates := fun f => p.created? name = some f } p q := by
  rw [findOutput_apply] at hfind
  by_cases hname : Text.matchesWord name "SYSPRINT" = true
  · rw [if_pos hname] at hfind
    cases hfind
    exact .refl _ p
  · rw [if_neg hname] at hfind
    rcases hcreate : p.host.createFile name with e | ⟨sink, closer, host⟩
    · rw [hcreate] at hfind
      cases hfind
      exact reaches_traced _ p _
    · obtain ⟨f, rfl, -⟩ := Host.createFile_eq_ok hcreate
      have hscope : p.created? name = some f := by
        simp only [created?, if_neg hname, hcreate, Sink.file?]
      simp only [hcreate, addStream_apply] at hfind
      cases hfree : freeHandle? (p.withHost host).streams handleCount
          (p.withHost host).nextHandle with
      | none => simp only [hfree, reduceCtorEq] at hfind
      | some h =>
        simp only [hfree] at hfind
        cases hfind
        exact (Move.create hscope hcreate hfree).reaches

end Operations

end Peripherals

/-- The host after it has opened or created a file. -/
inductive Host.Acquires (h : Host) : Host → Prop
  | opened {name : Text} {source : Source} {closer : Closer} {host : Host}
      (hopen : Peripherals.openEither h name = .ok (source, closer, host)) : Acquires h host
  | created {name : Text} {sink : Sink} {closer : Closer} {host : Host}
      (hcreate : h.createFile name = .ok (sink, closer, host)) : Acquires h host

/-- The operations on streams. -/
inductive StreamOperation where
  | findInput (name : Text)
  | findOutput (name : Text)
  | selectInput (k : Cell)
  | selectOutput (k : Cell)
  | read
  | write (c : UInt8)
  | newline
  | endRead
  | endWrite
  /-- Closes the streams with the given handles, in that order. -/
  | close (order : List Cell)
  | flush
  /-- Makes an entry in the journal. -/
  | note (e : Event)
deriving DecidableEq, Repr

namespace StreamOperation

/-- What an operation does. Its result is 0 if it gives none. -/
def action : StreamOperation → Action Peripherals Cell
  | findInput name => Peripherals.findInput name
  | findOutput name => Peripherals.findOutput name
  | selectInput k => do Peripherals.selectInput k; return 0
  | selectOutput k => do Peripherals.selectOutput k; return 0
  | read => Peripherals.readCharacter
  | write c => do Peripherals.writeCharacter c; return 0
  | newline => do Peripherals.newline; return 0
  | endRead => do Peripherals.endRead; return 0
  | endWrite => do Peripherals.endWrite; return 0
  | close order => do Peripherals.closeInOrder order; return 0
  | flush => do Peripherals.flush; return 0
  | note e => do Peripherals.note e; return 0

/-- What an operation may do in a state. -/
def scope (p : Peripherals) : StreamOperation → Scope
  | findInput _ => { finds := True }
  | findOutput name => { creates := fun f => p.created? name = some f }
  | selectInput _ | selectOutput _ | flush | note _ => {}
  | read => { reads := (· = p.input) }
  | write _ | newline => { writes := (· = p.output) }
  | endRead => { ends := (· = p.input) }
  | endWrite => { ends := (· = p.output) }
  | close order => { ends := (· ∈ order) }

/-- The bytes that an operation gives to the selected output stream. -/
def bytes : StreamOperation → Text
  | write c => [c]
  | newline => [Text.lineFeed]
  | _ => []

/-- Writing gives its byte. -/
@[simp] theorem bytes_write (c : UInt8) : (write c).bytes = [c] := rfl

/-- The end of a line is a line feed. -/
@[simp] theorem bytes_newline : newline.bytes = [Text.lineFeed] := rfl

/-- The result of an operation and the state that it leaves. An operation that fails returns too,
but the search for a handle may never end. -/
def turn (op : StreamOperation) (p : Peripherals) : Option (Cell × Peripherals) :=
  match op.action p with
  | .ok c q => some (c, q)
  | .error .endless _ => none
  | .error _ q => some (0, q)

/-- The state that an operation leaves when it returns. -/
theorem final_of_turn {op : StreamOperation} {p q : Peripherals} {c : Cell}
    (hturn : op.turn p = some (c, q)) : op.action.final p = q := by
  unfold turn at hturn
  rw [Action.final]
  cases hrun : op.action p with
  | ok d r =>
    rw [hrun] at hturn
    cases hturn
    rfl
  | error e r =>
    rw [hrun] at hturn
    cases e with
    | endless => cases hturn
    | _ =>
      cases hturn
      rfl

/-- A search for a free handle that never ends comes after the file has been opened. -/
theorem findInput_eq_error {name : Text} {p q : Peripherals} {e : Failure}
    (hfind : Peripherals.findInput name p = .error e q) :
    e = .endless ∧ ∃ source closer host,
      Peripherals.openEither p.host name = .ok (source, closer, host) ∧ q = p.withHost host := by
  rw [Peripherals.findInput_apply] at hfind
  by_cases hword : Text.matchesWord name "SYSIN" = true
  · rw [if_pos hword] at hfind
    cases hfind
  · rw [if_neg hword] at hfind
    rcases hopen : Peripherals.openEither p.host name with error | ⟨source, closer, host⟩
    · rw [hopen] at hfind
      cases hfind
    · rw [hopen] at hfind
      obtain ⟨he, hq⟩ := Peripherals.addStream_eq_error hfind
      exact ⟨he, _, _, _, rfl, hq⟩

/-- A search for a free handle that never ends comes after the file has been created. -/
theorem findOutput_eq_error {name : Text} {p q : Peripherals} {e : Failure}
    (hfind : Peripherals.findOutput name p = .error e q) :
    e = .endless ∧ ∃ sink closer host,
      p.host.createFile name = .ok (sink, closer, host) ∧ q = p.withHost host := by
  rw [Peripherals.findOutput_apply] at hfind
  by_cases hword : Text.matchesWord name "SYSPRINT" = true
  · rw [if_pos hword] at hfind
    cases hfind
  · rw [if_neg hword] at hfind
    rcases hcreate : p.host.createFile name with error | ⟨sink, closer, host⟩
    · rw [hcreate] at hfind
      cases hfind
    · rw [hcreate] at hfind
      obtain ⟨he, hq⟩ := Peripherals.addStream_eq_error hfind
      exact ⟨he, _, _, _, rfl, hq⟩

/-- Whether an operation opens or creates a file. -/
def isFind : StreamOperation → Bool
  | findInput _ | findOutput _ => true
  | _ => false

/-- An operation on the files that are open is made of moves inside its scope. -/
theorem reaches_of_not_isFind {op : StreamOperation} (hop : op.isFind = false) (p : Peripherals) :
    Peripherals.Reaches (op.scope p) p (op.action.final p) := by
  cases op with
  | findInput name => cases hop
  | findOutput name => cases hop
  | selectInput k => exact (Peripherals.Move.select k k p.output).reaches
  | selectOutput k => exact (Peripherals.Move.select k p.input k).reaches
  | read => exact p.readCharacter_reaches
  | write c =>
    rw [action, Action.final_bind_pure]
    exact p.writeCharacter_reaches c
  | newline =>
    rw [action, Action.final_bind_pure]
    exact p.newline_reaches
  | endRead =>
    rw [action, Action.final_bind_pure]
    exact p.endRead_reaches
  | endWrite =>
    rw [action, Action.final_bind_pure]
    exact p.endWrite_reaches
  | close order =>
    rw [action, Action.final_bind_pure]
    exact p.closeInOrder_reaches order
  | flush =>
    rw [action, Action.final_bind_pure, Action.final, Peripherals.flush_apply,
      Peripherals.stateOf_concluded]
    exact Peripherals.reaches_flushed _ p
  | note e => exact (Peripherals.Move.note 0 e).reaches

/-- Every operation is made of moves inside its scope, unless it never returns. Then the host has
opened or created a file. -/
theorem final_reaches (op : StreamOperation) (p : Peripherals) :
    Peripherals.Reaches (op.scope p) p (op.action.final p) ∨
      (op.turn p = none ∧ ∃ host, p.host.Acquires host ∧ op.action.final p = p.withHost host) := by
  cases op with
  | findInput name =>
    rw [Action.final, turn, action]
    cases hfind : Peripherals.findInput name p with
    | ok k q => exact .inl (p.findInput_reaches name hfind)
    | error e q =>
      obtain ⟨rfl, _, _, host, hopen, hhost⟩ := findInput_eq_error hfind
      exact .inr ⟨rfl, host, .opened hopen, hhost⟩
  | findOutput name =>
    rw [Action.final, turn, action]
    cases hfind : Peripherals.findOutput name p with
    | ok k q => exact .inl (p.findOutput_reaches name hfind)
    | error e q =>
      obtain ⟨rfl, _, _, host, hcreate, hhost⟩ := findOutput_eq_error hfind
      exact .inr ⟨rfl, host, .created hcreate, hhost⟩
  | _ => exact .inl (reaches_of_not_isFind rfl p)

/-- Every operation that returns is made of moves inside its scope. -/
theorem reaches_of_turn {op : StreamOperation} {p q : Peripherals} {c : Cell}
    (hturn : op.turn p = some (c, q)) : Peripherals.Reaches (op.scope p) p q := by
  rcases op.final_reaches p with hreach | ⟨hnone, -⟩
  · rwa [final_of_turn hturn] at hreach
  · rw [hnone] at hturn
    cases hturn

end StreamOperation

namespace Peripherals

/-- The state that operations lead to one after the other, whether they fail or not. -/
def after : List StreamOperation → Peripherals → Peripherals
  | [], p => p
  | op :: ops, p => after ops (op.action.final p)

/-- Operations in two parts. -/
theorem after_append (ops ops' : List StreamOperation) (p : Peripherals) :
    after (ops ++ ops') p = after ops' (after ops p) := by
  induction ops generalizing p with
  | nil => rfl
  | cons op ops ih => exact ih (op.action.final p)

/-- The operations up to the first that fails. -/
def attempted : List StreamOperation → Peripherals → List StreamOperation
  | [], _ => []
  | op :: ops, p =>
    op :: match op.action p with
      | .ok _ q => attempted ops q
      | .error _ _ => []

/-- A single operation is attempted. -/
@[simp] theorem attempted_singleton (op : StreamOperation) (p : Peripherals) :
    attempted [op] p = [op] := by
  simp only [attempted]
  cases op.action p <;> rfl

/-- Writing a text is writing its characters up to the first that fails. -/
theorem final_writeText (t : Text) (p : Peripherals) :
    (writeText t).final p = after (attempted (t.map .write) p) p := by
  induction t generalizing p with
  | nil => rfl
  | cons c t ih =>
    rw [writeText, Action.final_bind, List.map_cons, attempted, after]
    simp only [StreamOperation.action, Action.final_bind_pure, Action.bind_apply]
    rw [Action.final]
    cases writeCharacter c p with
    | ok u q => exact ih q
    | error e q => rfl

end Peripherals

end Intcode
