import Intcode.Peripherals
import Intcode.Proofs.Action
import Intcode.Proofs.Streams.Files

/-!
# What the operations on streams do

Each operation as an equation: which stream it looks at, what it gives, and the
state that it leaves. Later files use these equations and do not open the
operations again.
-/

namespace Intcode

/-- The character that a reading gives. -/
def Reading.character : Reading → Cell
  | .byte c => .ofByte (Text.foldReturn c)
  | .exhausted | .failed _ => endOfStream

/-- The character that is read first from bytes to come. -/
def Text.firstCharacter : Text → Cell
  | [] => endOfStream
  | c :: _ => .ofByte (Text.foldReturn c)

/-- Reading a byte takes the first that is to come. -/
theorem Input.next_front (i : Input) (h : Host) :
    (i.next h).1.character = Text.firstCharacter (i.upcoming h) ∧
      (i.next h).2.upcoming h = (i.upcoming h).tail ∧
      i.source.Continues (i.next h).2.source := by
  cases hup : i.upcoming h with
  | nil =>
    obtain ⟨i', hnext, hrest, -, hsource⟩ := next_of_upcoming_nil hup
    rw [hnext]
    refine ⟨?_, hrest, hsource⟩
    cases i.ending h <;> rfl
  | cons c t =>
    obtain ⟨i', hnext, hrest, -, hsource⟩ := next_of_upcoming_cons hup
    rw [hnext]
    exact ⟨rfl, hrest, hsource⟩

namespace Peripherals

/-- The peripherals with another state of an open stream, and of the host. -/
def withStream (p : Peripherals) (k : Cell) (s : Stream) (host : Host) : Peripherals :=
  { p with streams := p.streams.set k s, host }

/-- The peripherals with an entry in the journal, if one is kept. -/
def traced (p : Peripherals) (e : Event) : Peripherals :=
  if p.tracing then { p with journal := e :: p.journal } else p

/-- An entry in the journal changes nothing else. -/
theorem traced_eq (p : Peripherals) (e : Event) : ∃ journal, p.traced e = { p with journal } := by
  unfold traced
  split
  · exact ⟨_, rfl⟩
  · exact ⟨p.journal, rfl⟩

/-- The error of a flush of the default output. -/
def flushError (p : Peripherals) : Option HostError :=
  match p.streams.get? defaultOutput with
  | none => none
  | some s => (s.flush p.host).1

/-- The state after a flush of the default output. -/
def flushed (p : Peripherals) : Peripherals :=
  match p.streams.get? defaultOutput with
  | none => p
  | some s => p.withStream defaultOutput (s.flush p.host).2.1 (s.flush p.host).2.2

/-- The state after what has been written was made visible. -/
def prompted (p : Peripherals) : Peripherals :=
  match p.flushError with
  | some e => p.flushed.traced (.flushFailed e)
  | none => p.flushed

/-- The state before a byte is read from a stream: if nothing is unread, the default output has
been flushed. -/
def readied (p : Peripherals) (i : Input) : Peripherals :=
  if i.unread.isEmpty then p.prompted else p

/-- The state after a reading: a failure is noted. -/
def afterReading (p : Peripherals) (k : Cell) : Reading → Peripherals
  | .failed e => p.traced (.readFailed k e)
  | _ => p

/-- The result of an operation that fails with an error of the host, if there is one. -/
def concluded (context : String) (p : Peripherals) :
    Option HostError → EStateM.Result Failure Peripherals Unit
  | none => .ok () p
  | some e => .error (.report (.host context e)) p

/-- The state is the same with an error and without. -/
@[simp] theorem stateOf_concluded (context : String) (p : Peripherals) (e : Option HostError) :
    Action.stateOf (concluded context p e) = p := by
  cases e <;> rfl

/-- Failing with an error leaves the state alone. -/
theorem check_apply (context : String) (e : Option HostError) (p : Peripherals) :
    check context e p = concluded context p e := by
  cases e <;> rfl

/-- A flush of the default output. -/
theorem flushDefault_apply (p : Peripherals) : flushDefault p = .ok p.flushError p.flushed := by
  simp only [flushDefault, Action.bind_apply, Action.get_apply, flushError, flushed]
  cases p.streams.get? defaultOutput <;> rfl

/-- A flush of the default output on demand. -/
theorem flush_apply (p : Peripherals) :
    flush p = concluded "flush failed" p.flushed p.flushError := by
  simp only [flush, Action.bind_apply, flushDefault_apply, check_apply]

/-- A flush before the program waits for input. -/
theorem prompt_apply (p : Peripherals) : prompt p = .ok () p.prompted := by
  simp only [prompt, Action.bind_apply, flushDefault_apply, prompted]
  cases p.flushError <;> rfl

/-- A character is read from the selected stream if that can be read. -/
theorem readCharacter_apply (p : Peripherals) :
    readCharacter p = match p.streams.get? p.input with
      | some ⟨.input i, closer⟩ =>
        let q := p.readied i
        .ok (i.next q.host).1.character
          ((q.withStream p.input ⟨.input (i.next q.host).2, closer⟩ q.host).afterReading p.input
            (i.next q.host).1)
      | _ => .ok endOfStream p := by
  simp only [readCharacter, Action.bind_apply, Action.get_apply]
  rcases p.streams.get? p.input with _ | ⟨i | o, closer⟩
  · rfl
  · simp only [readied]
    split
    · simp only [Action.bind_apply, prompt_apply, Action.get_apply, setStream, Action.modify_apply]
      rcases i.next p.prompted.host with ⟨_ | _ | e, i'⟩ <;> rfl
    · simp only [Action.bind_apply, Action.get_apply, setStream, Action.modify_apply]
      rcases i.next p.host with ⟨_ | _ | e, i'⟩ <;> rfl
  · rfl

/-- A byte goes to the selected stream if that can be written. -/
theorem putByte_apply (context : String) (c : UInt8) (p : Peripherals) :
    putByte context c p = match p.streams.get? p.output with
      | some ⟨.output o, closer⟩ =>
        concluded context
          (p.withStream p.output ⟨.output (o.put c p.host).2.1, closer⟩ (o.put c p.host).2.2)
          (o.put c p.host).1
      | _ => .ok () p := by
  simp only [putByte, Action.bind_apply, Action.get_apply]
  rcases p.streams.get? p.output with _ | ⟨i | o, closer⟩
  · rfl
  · rfl
  · simp only [setStream, Action.bind_apply, Action.get_apply, Action.modify_apply, check_apply,
      withStream]

/-- The end of a line goes to the selected stream, and the default output is flushed. -/
theorem newline_apply (p : Peripherals) :
    newline p = match putByte "newline failed" Text.lineFeed p with
      | .error e q => .error e q
      | .ok _ q =>
        if q.output = defaultOutput then concluded "newline failed" q.flushed q.flushError
        else .ok () q := by
  simp only [newline, Action.bind_apply]
  cases putByte "newline failed" Text.lineFeed p with
  | error e q => rfl
  | ok u q =>
    simp only [Action.get_apply]
    split
    · simp only [Action.bind_apply, flushDefault_apply, check_apply]
    · rfl

/-- The state without an open file, whose stream has been closed. -/
def ended (p : Peripherals) (k : Cell) (s : Stream) : Peripherals :=
  { p with streams := p.streams.erase k, host := (s.close p.host).2.2 }

/-- An open file is closed and its handle forgotten. -/
theorem endStream_apply (k : Cell) (p : Peripherals) :
    endStream k p =
      if k = defaultInput ∨ k = defaultOutput then .ok none p
      else
        match p.streams.get? k with
        | none => .ok none p
        | some s => .ok (s.close p.host).1 (p.ended k s) := by
  simp only [endStream, Action.bind_apply, Action.get_apply]
  split
  · rfl
  · cases p.streams.get? k <;> rfl

/-- Closing one stream of a list of handles. -/
def closeOne (p : Peripherals) (k : Cell) : Peripherals :=
  match p.streams.get? k with
  | none => p
  | some s =>
    if k = defaultInput ∨ k = defaultOutput then
      p.withStream k (s.close p.host).2.1 (s.close p.host).2.2
    else p.ended k s

/-- The error of closing one stream of a list of handles. -/
def closeError (p : Peripherals) (k : Cell) : Option HostError :=
  match p.streams.get? k with
  | none => none
  | some s => (s.close p.host).1

/-- Streams are closed one after the other. -/
theorem closeStreams_cons_apply (k : Cell) (ks : List Cell) (p : Peripherals) :
    closeStreams (k :: ks) p = match closeStreams ks (p.closeOne k) with
      | .ok later q => .ok (p.closeError k <|> later) q
      | .error e q => .error e q := by
  simp only [closeStreams, Action.bind_apply, Action.get_apply, closeOne, closeError]
  cases hstream : p.streams.get? k with
  | none =>
    simp only [Action.bind_apply, Action.pure_apply]
    cases closeStreams ks p <;> rfl
  | some s =>
    by_cases hdefault : k = defaultInput ∨ k = defaultOutput
    · simp only [if_pos hdefault, setStream, Action.bind_apply, Action.modify_apply,
        Action.pure_apply, withStream]
      cases closeStreams ks _ <;> rfl
    · simp only [if_neg hdefault, Action.bind_apply, Action.modify_apply, Action.pure_apply, ended]
      cases closeStreams ks _ <;> rfl

/-- The state with a stream added under a free handle. -/
def added (p : Peripherals) (k : Cell) (s : Stream) : Peripherals :=
  { p with streams := p.streams.insert k s, nextHandle := k + 1 }

/-- A stream is added under the first free handle. -/
theorem addStream_apply (s : Stream) (p : Peripherals) :
    addStream s p = match freeHandle? p.streams handleCount p.nextHandle with
      | none => .error .endless p
      | some k => .ok k (p.added k s) := by
  simp only [addStream, Action.bind_apply, Action.get_apply]
  cases freeHandle? p.streams handleCount p.nextHandle <;> rfl

/-- Only the search for a free handle can fail. -/
theorem addStream_eq_error {s : Stream} {p q : Peripherals} {e : Failure}
    (hadd : addStream s p = .error e q) : e = .endless ∧ q = p := by
  rw [addStream_apply] at hadd
  split at hadd <;> cases hadd
  exact ⟨rfl, rfl⟩

/-- A free handle for a file is not open, and none of the handles of the default streams. -/
theorem freeHandle?_eq_some {t : StreamTable} {n : Nat} {h k : Cell}
    (hfree : freeHandle? t n h = some k) : t.get? k = none ∧ firstFile.toInt ≤ k.toInt := by
  induction n generalizing h with
  | zero => cases hfree
  | succ n ih =>
    rw [freeHandle?] at hfree
    by_cases htaken : t.isOpen h || decide (h.toInt < firstFile.toInt)
    · rw [if_pos htaken] at hfree
      exact ih hfree
    · rw [if_neg htaken] at hfree
      obtain rfl := Option.some.inj hfree
      simp only [Bool.or_eq_true, decide_eq_true_eq, not_or] at htaken
      exact ⟨by simpa [StreamTable.isOpen] using htaken.1, Int.not_lt.mp htaken.2⟩

/-- A free handle is none of the default ones. -/
theorem ne_defaults_of_free {t : StreamTable} {n : Nat} {h k : Cell}
    (hfree : freeHandle? t n h = some k) : k ≠ defaultInput ∧ k ≠ defaultOutput := by
  have hle := (freeHandle?_eq_some hfree).2
  constructor
  · rintro rfl
    exact absurd hle (by decide)
  · rintro rfl
    exact absurd hle (by decide)

/-- The state after a file of the host has been opened or created, before it has a handle. -/
def withHost (p : Peripherals) (host : Host) : Peripherals := { p with host }

/-- A file that is opened under either of two names is opened under one of them. -/
theorem exists_openFile {h : Host} {name : Text} {opened : Source × Closer × Host}
    (hopen : openEither h name = .ok opened) : ∃ name', h.openFile name' = .ok opened := by
  unfold openEither at hopen
  cases hfirst : h.openFile name with
  | ok r =>
    rw [hfirst] at hopen
    exact ⟨name, hfirst.trans hopen⟩
  | error e =>
    rw [hfirst] at hopen
    by_cases hlower : Text.lowerCase name = name
    · simp only [if_pos hlower] at hopen
      cases hopen
    · simp only [if_neg hlower] at hopen
      exact ⟨_, hopen⟩

/-- A file is opened for reading. -/
theorem findInput_apply (name : Text) (p : Peripherals) :
    findInput name p =
      if Text.matchesWord name "SYSIN" then .ok defaultInput p
      else
        match openEither p.host name with
        | .ok (source, closer, host) =>
          addStream ⟨.input { source }, some closer⟩ (p.withHost host)
        | .error e => .ok 0 (p.traced (.findInputFailed name e)) := by
  unfold findInput
  split
  · rfl
  · simp only [Action.bind_apply, Action.get_apply]
    rcases openEither p.host name with e | ⟨source, closer, host⟩ <;> rfl

/-- A file is created for writing. -/
theorem findOutput_apply (name : Text) (p : Peripherals) :
    findOutput name p =
      if Text.matchesWord name "SYSPRINT" then .ok defaultOutput p
      else
        match p.host.createFile name with
        | .ok (sink, closer, host) =>
          addStream ⟨.output { sink }, some closer⟩ (p.withHost host)
        | .error e => .ok 0 (p.traced (.findOutputFailed name e)) := by
  unfold findOutput
  split
  · rfl
  · simp only [Action.bind_apply, Action.get_apply]
    rcases p.host.createFile name with e | ⟨sink, closer, host⟩ <;> rfl

end Peripherals

end Intcode
