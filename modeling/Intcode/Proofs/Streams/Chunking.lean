import Intcode.Proofs.Streams.Numbers

/-!
# Input in chunks

How an input is cut into chunks decides when its buffer is filled again, and so when
the default output is flushed. Two streams are alike if they give the same bytes,
or have taken the same bytes, wherever these lie; two states of the peripherals are
alike if their streams are, and agree in all else.

Main statement: no operation that a program has on its streams can tell alike
states apart.
-/

namespace Intcode

/-- Inputs from scripts that give the same bytes and then end in the same way. -/
inductive Input.Alike : Input → Input → Prop
  | intro {chunks chunks' : List Text} {unread unread' : Text} (ending : Option HostError)
      (htext : unread ++ chunks.flatten = unread' ++ chunks'.flatten) :
      Alike ⟨.script chunks ending, unread⟩ ⟨.script chunks' ending, unread'⟩

/-- Outputs to devices without a limit that have taken the same bytes. -/
inductive Output.Alike : Output → Output → Prop
  | intro {taken taken' : List Text} {b b' : Backlog}
      (htext : Device.contents { taken } ++ b.text =
        Device.contents { taken := taken' } ++ b'.text) :
      Alike ⟨.device { taken }, b, none⟩ ⟨.device { taken := taken' }, b', none⟩

/-- Streams under a handle that a program cannot tell apart. The default output is flushed at
different times, so that there being the same is not enough. -/
inductive Stream.Alike (k : Cell) : Stream → Stream → Prop
  | same (hk : k ≠ defaultOutput) (s : Stream) : Alike k s s
  | input {i j : Input} (closer : Option Closer) (h : i.Alike j) :
      Alike k ⟨.input i, closer⟩ ⟨.input j, closer⟩
  | output {o u : Output} (closer : Option Closer) (h : o.Alike u) :
      Alike k ⟨.output o, closer⟩ ⟨.output u, closer⟩

namespace Input.Alike

variable {i j : Input}

/-- Being alike is mutual. -/
theorem symm (h : i.Alike j) : j.Alike i := by
  obtain ⟨ending, htext⟩ := h
  exact ⟨ending, htext.symm⟩

/-- Alike inputs have the same bytes to come. -/
theorem upcoming_eq (h : i.Alike j) (host : Host) : i.upcoming host = j.upcoming host := by
  obtain ⟨ending, htext⟩ := h
  exact htext

/-- Inputs from scripts are alike if the same is to come. -/
theorem of_continues {chunks chunks' : List Text} {ending : Option HostError} {host : Host}
    (hi : Source.Continues (.script chunks ending) i.source)
    (hj : Source.Continues (.script chunks' ending) j.source)
    (htext : i.upcoming host = j.upcoming host) : i.Alike j := by
  obtain ⟨source, unread⟩ := i
  obtain ⟨source', unread'⟩ := j
  cases hi
  cases hj
  exact ⟨ending, htext⟩

/-- Alike inputs give the same and stay alike. -/
theorem next (h : i.Alike j) (host : Host) :
    (i.next host).1 = (j.next host).1 ∧ (i.next host).2.Alike (j.next host).2 := by
  have hupcoming := h.upcoming_eq host
  cases h with
  | intro ending htext =>
    cases hi : Input.upcoming _ host with
    | nil =>
      rw [hi] at hupcoming
      obtain ⟨i', hnext, hrest, -, hcontinues⟩ := next_of_upcoming_nil hi
      obtain ⟨j', hnext', hrest', -, hcontinues'⟩ := next_of_upcoming_nil hupcoming.symm
      rw [hnext, hnext']
      exact ⟨rfl, of_continues hcontinues hcontinues' (hrest.trans hrest'.symm)⟩
    | cons c t =>
      rw [hi] at hupcoming
      obtain ⟨i', hnext, hrest, -, hcontinues⟩ := next_of_upcoming_cons hi
      obtain ⟨j', hnext', hrest', -, hcontinues'⟩ := next_of_upcoming_cons hupcoming.symm
      rw [hnext, hnext']
      exact ⟨rfl, of_continues hcontinues hcontinues' (hrest.trans hrest'.symm)⟩

end Input.Alike

namespace Output.Alike

variable {o u : Output}

/-- Being alike is mutual. -/
theorem symm (h : o.Alike u) : u.Alike o := by
  obtain ⟨htext⟩ := h
  exact ⟨htext.symm⟩

/-- A device without a limit takes all of a text. -/
theorem write_device (taken : List Text) (t : Text) (host : Host) :
    (Sink.device { taken }).write t host = (t.length, .device { taken := t :: taken }, host) := by
  simp only [Sink.write, Device.write, Device.fitting, List.take_length, Option.map_none]

/-- A flush succeeds, and changes nothing but where the bytes lie. -/
theorem flush_left (h : o.Alike u) (host : Host) :
    ∃ o', o.flush host = (none, o', host) ∧ o'.backlog.text = [] ∧ o'.Alike u := by
  obtain @⟨taken, taken', b, b', htext⟩ := h
  rcases Output.flush_cases ⟨.device { taken }, b, none⟩ host with
    ⟨e, hfailed, -⟩ | ⟨-, hempty, hflush⟩ | ⟨n, s, host', -, hwrite, hflush⟩
  · cases hfailed
  · exact ⟨_, hflush, hempty, ⟨htext⟩⟩
  · rw [write_device] at hwrite
    cases hwrite
    rw [if_neg (Nat.lt_irrefl _)] at hflush
    refine ⟨_, hflush, rfl, ⟨?_⟩⟩
    rw [← htext]
    simp [Device.contents, Backlog.text]

/-- A byte is taken, after a flush that changes nothing but where the bytes lie. -/
theorem put_left (h : o.Alike u) (c : UInt8) (host : Host) :
    ∃ o' : Output, o.put c host = (none, { o' with backlog := o'.backlog.push c }, host) ∧
      o'.Alike u := by
  have hfailed : o.failed = none := by
    obtain ⟨htext⟩ := h
    rfl
  rw [Output.put_of_not_failed hfailed]
  by_cases hroom : o.backlog.room = 0
  · obtain ⟨o', hflush, -, hlike⟩ := h.flush_left host
    rw [if_pos hroom, hflush]
    exact ⟨o', rfl, hlike⟩
  · rw [if_neg hroom]
    exact ⟨o, rfl, h⟩

/-- Outputs that take the same byte stay alike. -/
theorem push (h : o.Alike u) (c : UInt8) :
    Alike { o with backlog := o.backlog.push c } { u with backlog := u.backlog.push c } := by
  obtain ⟨htext⟩ := h
  constructor
  rw [Backlog.text_push, Backlog.text_push, ← List.append_assoc, ← List.append_assoc, htext]

/-- Alike outputs take a byte and stay alike. -/
theorem put (h : o.Alike u) (c : UInt8) (host : Host) :
    ∃ o' u', o.put c host = (none, o', host) ∧ u.put c host = (none, u', host) ∧ o'.Alike u' := by
  obtain ⟨o', hput, hleft⟩ := h.put_left c host
  obtain ⟨u', hput', hboth⟩ := hleft.symm.put_left c host
  exact ⟨_, _, hput, hput', hboth.symm.push c⟩

end Output.Alike

namespace Stream.Alike

variable {k : Cell} {s t : Stream}

/-- Being alike is mutual. -/
theorem symm (h : s.Alike k t) : t.Alike k s := by
  cases h with
  | same hk => exact .same hk _
  | input closer h => exact .input closer h.symm
  | output closer h => exact .output closer h.symm

/-- A stream is alike to itself if it is alike to another one. -/
theorem left (h : s.Alike k t) : s.Alike k s := by
  cases h with
  | same hk => exact .same hk _
  | input closer h =>
    obtain ⟨ending, -⟩ := h
    exact .input closer ⟨ending, rfl⟩
  | output closer h =>
    obtain ⟨-⟩ := h
    exact .output closer ⟨rfl⟩

/-- A flush of a default output succeeds, and changes nothing but where the bytes lie. -/
theorem flush_left (h : s.Alike defaultOutput t) (host : Host) :
    ∃ s', s.flush host = (none, s', host) ∧ s'.Alike defaultOutput t := by
  cases h with
  | same hk => exact absurd rfl hk
  | input closer h => exact ⟨_, rfl, .input closer h⟩
  | output closer h =>
    obtain ⟨o', hflush, -, hlike⟩ := h.flush_left host
    exact ⟨_, by simp only [Stream.flush, hflush], .output closer hlike⟩

/-- Alike streams are closed with the same error and leave the same files. -/
theorem close (h : s.Alike k t) (host : Host) :
    (s.close host).1 = (t.close host).1 ∧ (s.close host).2.2 = (t.close host).2.2 := by
  cases h with
  | same => exact ⟨rfl, rfl⟩
  | input closer h => cases closer <;> exact ⟨rfl, rfl⟩
  | output closer h =>
    obtain ⟨o', hflush, -⟩ := h.flush_left host
    obtain ⟨u', hflush', -⟩ := h.symm.flush_left host
    cases closer <;> simp only [Stream.close, Stream.flush, hflush, hflush', and_self]

end Stream.Alike

namespace Peripherals

/-- States of the peripherals that a program cannot tell apart. -/
structure Alike (p q : Peripherals) : Prop where
  nextHandle : p.nextHandle = q.nextHandle
  input : p.input = q.input
  output : p.output = q.output
  host : p.host = q.host
  tracing : p.tracing = q.tracing
  journal : p.journal = q.journal
  streams (k : Cell) : (p.streams.get? k).Rel (Stream.Alike k) (q.streams.get? k)

namespace Alike

variable {p q : Peripherals}

/-- Being alike is mutual. -/
theorem symm (h : p.Alike q) : q.Alike p := by
  refine ⟨h.nextHandle.symm, h.input.symm, h.output.symm, h.host.symm, h.tracing.symm,
    h.journal.symm, fun k => ?_⟩
  have hk := h.streams k
  generalize p.streams.get? k = x, q.streams.get? k = y at hk ⊢
  cases hk with
  | none => exact .none
  | some hs => exact .some hs.symm

/-- The same handles are open. -/
theorem isOpen_eq (h : p.Alike q) (k : Cell) : p.streams.isOpen k = q.streams.isOpen k := by
  have hk := h.streams k
  unfold StreamTable.isOpen
  generalize p.streams.get? k = x, q.streams.get? k = y at hk ⊢
  cases hk <;> rfl

/-- Alike streams in the place of others. -/
theorem withStream {k : Cell} {s t : Stream} (h : p.Alike q) (hs : s.Alike k t) (host : Host) :
    (p.withStream k s host).Alike (q.withStream k t host) := by
  refine { h with host := rfl, streams := fun j => ?_ }
  rw [get?_withStream, get?_withStream]
  have hj := h.streams j
  by_cases hjk : j = k
  · subst hjk
    rw [if_pos rfl, if_pos rfl]
    generalize p.streams.get? j = x, q.streams.get? j = y at hj ⊢
    cases hj with
    | none => exact .none
    | some _ => exact .some hs
  · rwa [if_neg hjk, if_neg hjk]

/-- Alike streams under a new handle. -/
theorem added {s t : Stream} (h : p.Alike q) (k : Cell) (hs : s.Alike k t) :
    (p.added k s).Alike (q.added k t) := by
  refine { h with nextHandle := rfl, streams := fun j => ?_ }
  rw [get?_added, get?_added]
  by_cases hjk : j = k
  · subst hjk
    rw [if_pos rfl, if_pos rfl]
    exact .some hs
  · rw [if_neg hjk, if_neg hjk]
    exact h.streams j

/-- Alike streams are closed. -/
theorem ended {s t : Stream} {k : Cell} (h : p.Alike q) (hs : s.Alike k t) :
    (p.ended k s).Alike (q.ended k t) := by
  refine { h with host := ?_, streams := fun j => ?_ }
  · simp only [Peripherals.ended, h.host]
    exact (hs.close q.host).2
  · rw [get?_ended, get?_ended]
    by_cases hjk : j = k
    · rw [if_pos hjk, if_pos hjk]
      exact .none
    · rw [if_neg hjk, if_neg hjk]
      exact h.streams j

/-- The same entry in the journal. -/
theorem traced (h : p.Alike q) (e : Event) : (p.traced e).Alike (q.traced e) := by
  unfold Peripherals.traced
  by_cases hq : q.tracing = true
  · rw [if_pos (h.tracing.trans hq), if_pos hq]
    exact { h with journal := congrArg (e :: ·) h.journal }
  · rw [if_neg (h.tracing ▸ hq), if_neg hq]
    exact h

/-- A flush succeeds, and a program cannot tell. -/
theorem flushed_left (h : p.Alike q) : p.flushError = none ∧ p.flushed.Alike q := by
  have hdefault := h.streams defaultOutput
  unfold flushError flushed
  generalize hx : p.streams.get? defaultOutput = x,
    hy : q.streams.get? defaultOutput = y at hdefault
  cases hdefault with
  | none => exact ⟨rfl, h⟩
  | some hs =>
    obtain ⟨s', hflush, hlike⟩ := hs.flush_left p.host
    simp only [hflush]
    refine ⟨trivial, { h with streams := fun j => ?_ }⟩
    rw [get?_withStream]
    by_cases hj : j = defaultOutput
    · subst hj
      rw [if_pos rfl, hx, hy]
      exact .some hlike
    · rw [if_neg hj]
      exact h.streams j

/-- A program cannot tell whether the default output has been flushed before a reading. -/
theorem readied_left (h : p.Alike q) (i : Input) : (p.readied i).Alike q := by
  unfold Peripherals.readied prompted
  obtain ⟨hflush, hlike⟩ := h.flushed_left
  rw [hflush]
  split
  · exact hlike
  · exact h

/-- The default output may be flushed before a reading at different times. -/
theorem readied (h : p.Alike q) (i j : Input) : (p.readied i).Alike (q.readied j) :=
  ((h.readied_left i).symm.readied_left j).symm

/-- An outcome with an error of the host or without. -/
theorem concluded (h : p.Alike q) (context : String) (e : Option HostError) :
    Action.Agree Alike (concluded context p e) (concluded context q e) := by
  cases e with
  | none => exact .ok () h
  | some e => exact .error _ h

/-- The same entry in the journal after a reading, if it has failed. -/
theorem afterReading (h : p.Alike q) (k : Cell) (r : Reading) :
    (p.afterReading k r).Alike (q.afterReading k r) := by
  cases r with
  | byte c => exact h
  | exhausted => exact h
  | failed e => exact h.traced _

/-- Readings that give the same and leave alike streams. -/
theorem reading {i j : Input} {k : Cell} {closer : Option Closer} (h : p.Alike q)
    (hnext : (i.next p.host).1 = (j.next p.host).1)
    (hrest : Stream.Alike k ⟨.input (i.next p.host).2, closer⟩ ⟨.input (j.next p.host).2, closer⟩) :
    Action.Agree Alike
      (.ok (i.next p.host).1.character
        ((p.withStream k ⟨.input (i.next p.host).2, closer⟩ p.host).afterReading k
          (i.next p.host).1))
      (.ok (j.next q.host).1.character
        ((q.withStream k ⟨.input (j.next q.host).2, closer⟩ q.host).afterReading k
          (j.next q.host).1)) := by
  rw [← h.host, ← hnext]
  exact .ok _ ((h.withStream hrest _).afterReading k _)

end Alike

open Intcode.Action

/-- Reading a character cannot tell alike states apart. -/
theorem respects_readCharacter : Respects Alike readCharacter := by
  intro p q h
  rw [readCharacter_apply, readCharacter_apply, ← h.input]
  have hinput := h.streams p.input
  generalize p.streams.get? p.input = x, q.streams.get? p.input = y at hinput
  cases hinput with
  | none => exact .ok _ h
  | @some s t hs =>
    cases hs with
    | same hk =>
      obtain ⟨i | o, closer⟩ := s
      · exact (h.readied i i).reading rfl (.same hk _)
      · exact .ok _ h
    | @input i j closer hlike =>
      have hnext := hlike.next (p.readied i).host
      exact (h.readied i j).reading hnext.1 (.input closer hnext.2)
    | output closer hlike => exact .ok _ h

/-- Writing a byte cannot tell alike states apart. -/
theorem respects_putByte (context : String) (c : UInt8) : Respects Alike (putByte context c) := by
  intro p q h
  rw [putByte_apply, putByte_apply, ← h.output]
  have houtput := h.streams p.output
  generalize p.streams.get? p.output = x, q.streams.get? p.output = y at houtput
  cases houtput with
  | none => exact .ok _ h
  | @some s t hs =>
    cases hs with
    | same hk =>
      obtain ⟨i | o, closer⟩ := s
      · exact .ok _ h
      · simp only [← h.host]
        exact (h.withStream (.same hk _) _).concluded context _
    | input closer hlike => exact .ok _ h
    | output closer hlike =>
      obtain ⟨o', u', hput, hput', hlike'⟩ := hlike.put c p.host
      simp only [← h.host, hput, hput']
      exact (h.withStream (.output closer hlike') _).concluded context _

/-- Ending a line cannot tell alike states apart. -/
theorem respects_newline : Respects Alike newline := by
  intro p q h
  have hput := respects_putByte "newline failed" Text.lineFeed p q h
  rw [newline_apply, newline_apply]
  generalize putByte "newline failed" Text.lineFeed p = x,
    putByte "newline failed" Text.lineFeed q = y at hput
  cases hput with
  | error e h' => exact .error e h'
  | @ok u p' q' h' =>
    by_cases houtput : q'.output = defaultOutput
    · obtain ⟨hflush, hleft⟩ := h'.flushed_left
      obtain ⟨hflush', hboth⟩ := hleft.symm.flushed_left
      simp only [if_pos houtput, if_pos (h'.output.trans houtput), hflush, hflush']
      exact hboth.symm.concluded _ none
    · simp only [if_neg houtput, if_neg (h'.output ▸ houtput)]
      exact .ok u h'

/-- Writing a character cannot tell alike states apart. -/
theorem respects_writeCharacter (c : UInt8) : Respects Alike (writeCharacter c) := by
  unfold writeCharacter
  split
  · exact respects_newline
  · exact respects_putByte _ c

/-- The first free handle depends only on what is open. -/
theorem freeHandle?_congr {t u : StreamTable} (hopen : ∀ k, t.isOpen k = u.isOpen k) (n : Nat)
    (k : Cell) : freeHandle? t n k = freeHandle? u n k := by
  induction n generalizing k with
  | zero => rfl
  | succ n ih => rw [freeHandle?, freeHandle?, hopen, ih]

/-- Adding a file cannot tell alike states apart. -/
theorem respects_addStream (s : Stream) : Respects Alike (addStream s) := by
  intro p q h
  rw [addStream_apply, addStream_apply, freeHandle?_congr h.isOpen_eq, h.nextHandle]
  cases hfree : freeHandle? q.streams handleCount q.nextHandle with
  | none => exact .error _ h
  | some k => exact .ok k (h.added k (.same (ne_defaults_of_free hfree).2 s))

/-- Opening a file cannot tell alike states apart. -/
theorem respects_findInput (name : Text) : Respects Alike (findInput name) := by
  intro p q h
  rw [findInput_apply, findInput_apply, h.host]
  split
  · exact .ok _ h
  · rcases openEither q.host name with e | ⟨source, closer, host⟩
    · exact .ok 0 (h.traced _)
    · exact respects_addStream _ _ _ { h with host := rfl }

/-- Creating a file cannot tell alike states apart. -/
theorem respects_findOutput (name : Text) : Respects Alike (findOutput name) := by
  intro p q h
  rw [findOutput_apply, findOutput_apply, h.host]
  split
  · exact .ok _ h
  · rcases q.host.createFile name with e | ⟨sink, closer, host⟩
    · exact .ok 0 (h.traced _)
    · exact respects_addStream _ _ _ { h with host := rfl }

/-- Selecting an input stream cannot tell alike states apart. -/
theorem respects_selectInput (k : Cell) : Respects Alike (selectInput k) :=
  respects_modify fun _ _ h => { h with input := rfl }

/-- Selecting an output stream cannot tell alike states apart. -/
theorem respects_selectOutput (k : Cell) : Respects Alike (selectOutput k) :=
  respects_modify fun _ _ h => { h with output := rfl }

/-- Closing a file cannot tell alike states apart. -/
theorem respects_endStream (k : Cell) : Respects Alike (endStream k) := by
  intro p q h
  rw [endStream_apply, endStream_apply]
  split
  · exact .ok none h
  · have hk := h.streams k
    generalize p.streams.get? k = x, q.streams.get? k = y at hk
    cases hk with
    | none => exact .ok none h
    | some hs =>
      simp only [h.host, (hs.close q.host).1]
      exact .ok _ (h.ended hs)

/-- An error of the host cannot tell alike states apart. -/
theorem respects_check (context : String) (e : Option HostError) :
    Respects Alike (check context e) := by
  intro p q h
  rw [check_apply, check_apply]
  exact h.concluded context e

/-- Closing the selected input stream cannot tell alike states apart. -/
theorem respects_endRead : Respects Alike endRead := by
  refine respects_get_bind (fun p q h => by rw [h.input]) fun p => ?_
  refine (respects_endStream _).bind fun e => ?_
  exact (respects_selectInput _).bind fun _ => respects_check _ e

/-- Closing the selected output stream cannot tell alike states apart. -/
theorem respects_endWrite : Respects Alike endWrite := by
  refine respects_get_bind (fun p q h => by rw [h.output]) fun p => ?_
  refine (respects_endStream _).bind fun e => ?_
  exact (respects_selectOutput _).bind fun _ => respects_check _ e

/-- Alike states have the same bytes to come from the selected input stream. -/
theorem Alike.incoming_eq {p q : Peripherals} (h : p.Alike q) : p.incoming = q.incoming := by
  unfold incoming
  rw [← h.input, h.host]
  have hinput := h.streams p.input
  generalize p.streams.get? p.input = x, q.streams.get? p.input = y at hinput
  cases hinput with
  | none => rfl
  | some hs =>
    cases hs with
    | same => rfl
    | input closer hlike => exact hlike.upcoming_eq q.host
    | output => rfl

/-- Reading takes the first byte to come, as flushing the default output changes no file. -/
theorem Alike.readCharacter_eq {p q : Peripherals} (h : p.Alike q) :
    ∃ p', readCharacter p = .ok p.incoming.firstCharacter p' ∧ p'.incoming = p.incoming.tail := by
  rw [readCharacter_apply]
  rcases hstream : p.streams.get? p.input with _ | ⟨i | o, closer⟩
  · have hnone : p.incoming = [] := by simp only [incoming, hstream]
    rw [hnone]
    exact ⟨p, rfl, hnone⟩
  · obtain ⟨hcharacter, hupcoming, -⟩ := i.next_front p.host
    have hhost : (p.readied i).host = p.host := ((h.readied_left i).host).trans h.host.symm
    simp only [hhost, hcharacter, incoming_of_input hstream, ← hupcoming]
    refine ⟨_, rfl, ?_⟩
    obtain ⟨hstreams, hhost', hinput⟩ := afterReading_frame
      ((p.readied i).withStream p.input ⟨.input (i.next p.host).2, closer⟩ p.host) p.input
      (i.next p.host).1
    have hlater : ((p.readied i).withStream p.input ⟨.input (i.next p.host).2, closer⟩
        p.host).streams.get? (p.readied i).input = some ⟨.input (i.next p.host).2, closer⟩ := by
      rw [(p.readied_selection i).1, get?_withStream, if_pos rfl, get?_readied i hstream]
      rfl
    rw [incoming_of_input (hstreams ▸ hinput ▸ hlater), hhost']
    rfl
  · have hnone : p.incoming = [] := by simp only [incoming, hstream]
    rw [hnone]
    exact ⟨p, rfl, hnone⟩

/-- A state is alike to itself if it is alike to another one. -/
theorem Alike.left {p q : Peripherals} (h : p.Alike q) : p.Alike p := by
  refine ⟨rfl, rfl, rfl, rfl, rfl, rfl, fun k => ?_⟩
  have hk := h.streams k
  generalize p.streams.get? k = x, q.streams.get? k = y at hk
  cases hk with
  | none => exact .none
  | some hs => exact .some hs.left

/-- What is left after a reading is alike to itself. -/
theorem Alike.of_readCharacter {p q : Peripherals} {c : Cell} (h : p.Alike p)
    (hread : readCharacter p = .ok c q) : q.Alike q := by
  have hagree := respects_readCharacter p p h
  rw [hread] at hagree
  cases hagree with
  | ok _ h' => exact h'

/-- It does not matter how many blanks may be read, if it is enough. -/
theorem skipBlanks_eq {p : Peripherals} (h : p.Alike p) {n n' : Nat}
    (hn : span isBlank p.incoming < n) (hn' : span isBlank p.incoming < n') :
    skipBlanks n p = skipBlanks n' p := by
  induction n generalizing p n' with
  | zero => omega
  | succ n ih =>
    obtain ⟨m, rfl⟩ : ∃ m, n' = m + 1 := ⟨n' - 1, by omega⟩
    obtain ⟨q, hread, hrest⟩ := h.readCharacter_eq
    rw [skipBlanks_succ hread, skipBlanks_succ hread]
    by_cases hblank : isBlank p.incoming.firstCharacter = true
    · have hspan := span_of_firstCharacter rfl hblank
      rw [← hrest] at hspan
      rw [if_pos hblank, if_pos hblank]
      exact ih (h.of_readCharacter hread) (by omega) (by omega)
    · rw [if_neg hblank, if_neg hblank]

/-- It does not matter how many digits may be read, if it is enough. -/
theorem readDigits_eq {p : Peripherals} (h : p.Alike p) {n n' : Nat}
    (hn : span isDigit p.incoming < n) (hn' : span isDigit p.incoming < n') (sum c : Cell) :
    readDigits n sum c p = readDigits n' sum c p := by
  induction n generalizing p n' sum c with
  | zero => omega
  | succ n ih =>
    obtain ⟨m, rfl⟩ : ∃ m, n' = m + 1 := ⟨n' - 1, by omega⟩
    obtain ⟨q, hread, hrest⟩ := h.readCharacter_eq
    by_cases hdigit : isDigit c = true
    · rw [readDigits_succ hread hdigit, readDigits_succ hread hdigit]
      by_cases hnext : isDigit p.incoming.firstCharacter = true
      · have hspan := span_of_firstCharacter rfl hnext
        rw [← hrest] at hspan
        exact ih (h.of_readCharacter hread) (by omega) (by omega) _ _
      · rw [readDigits_of_not_isDigit hnext, readDigits_of_not_isDigit hnext]
    · rw [readDigits_of_not_isDigit hdigit, readDigits_of_not_isDigit hdigit]

/-- Passing over blanks cannot tell alike states apart. -/
theorem respects_skipBlanks (n : Nat) : Respects Alike (skipBlanks n) := by
  induction n with
  | zero => exact respects_throw _
  | succ n ih =>
    refine respects_readCharacter.bind fun c => ?_
    split
    · exact ih
    · exact respects_pure c

/-- Reading digits cannot tell alike states apart. -/
theorem respects_readDigits (n : Nat) (sum c : Cell) : Respects Alike (readDigits n sum c) := by
  induction n generalizing sum c with
  | zero =>
    unfold readDigits
    split
    · exact respects_throw _
    · exact respects_pure _
  | succ n ih =>
    unfold readDigits
    split
    · exact respects_readCharacter.bind fun next => ih _ next
    · exact respects_pure _

/-- The bound on the blanks that are read cannot tell alike states apart. -/
theorem agree_skipBlanks {p q : Peripherals} (h : p.Alike q) :
    Agree Alike (skipBlanks (p.spanLimit isBlank + 1) p)
      (skipBlanks (q.spanLimit isBlank + 1) q) := by
  have hp := span_incoming_le isBlank p
  have hq := span_incoming_le isBlank q
  rw [← h.incoming_eq] at hq
  have henough : skipBlanks (p.spanLimit isBlank + 1) p =
      skipBlanks (span isBlank p.incoming + 1) p :=
    skipBlanks_eq h.left (by omega) (by omega)
  have henough' : skipBlanks (q.spanLimit isBlank + 1) q =
      skipBlanks (span isBlank p.incoming + 1) q :=
    skipBlanks_eq h.symm.left (by rw [← h.incoming_eq]; omega) (by rw [← h.incoming_eq]; omega)
  rw [henough, henough']
  exact respects_skipBlanks _ p q h

/-- The bound on the digits that are read cannot tell alike states apart. -/
theorem respects_readMagnitude (negative : Bool) (c : Cell) :
    Respects Alike (readMagnitude negative c) := by
  intro p q h
  have hp := span_incoming_le isDigit p
  have hq := span_incoming_le isDigit q
  rw [← h.incoming_eq] at hq
  have henough : readDigits (p.spanLimit isDigit + 1) 0 c p =
      readDigits (span isDigit p.incoming + 1) 0 c p :=
    readDigits_eq h.left (by omega) (by omega) 0 c
  have henough' : readDigits (q.spanLimit isDigit + 1) 0 c q =
      readDigits (span isDigit p.incoming + 1) 0 c q :=
    readDigits_eq h.symm.left (by rw [← h.incoming_eq]; omega) (by rw [← h.incoming_eq]; omega) 0 c
  have hagree := respects_readDigits (span isDigit p.incoming + 1) 0 c p q h
  unfold readMagnitude
  rw [henough, henough']
  generalize readDigits _ 0 c p = x, readDigits _ 0 c q = y at hagree
  cases hagree with
  | ok _ h' => exact .ok _ h'
  | error e h' => exact .error e h'

/-- Reading a number cannot tell alike states apart. -/
theorem respects_readNumber : Respects Alike readNumber := by
  intro p q h
  have hblanks := agree_skipBlanks h
  rw [readNumber_apply, readNumber_apply]
  generalize skipBlanks (p.spanLimit isBlank + 1) p = x,
    skipBlanks (q.spanLimit isBlank + 1) q = y at hblanks
  cases hblanks with
  | error e h' => exact .error e h'
  | @ok c p' q' h' =>
    have hread := respects_readCharacter p' q' h'
    dsimp only
    split
    · generalize readCharacter p' = x, readCharacter q' = y at hread
      cases hread with
      | error e h'' => exact .error e h''
      | ok d h'' => exact respects_readMagnitude _ d _ _ h''
    · exact respects_readMagnitude false c p' q' h'

end Peripherals

end Intcode
