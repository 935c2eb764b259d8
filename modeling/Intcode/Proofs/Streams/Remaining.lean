import Intcode.Proofs.Streams.Supply

/-!
# The remaining input

The bytes that a program can still read from the selected input stream are those in the
buffer and those at the source. If the source is a file that the default output goes into,
what the default output holds back is among them, for it is flushed before the program
waits. With that settled beforehand, reading is taking characters from the front of a text.
-/

namespace Intcode

/-- A second flush does not touch the host. -/
theorem Output.host_flush_flush (o : Output) (h : Host) :
    ((o.flush h).2.1.flush (o.flush h).2.2).2.2 = (o.flush h).2.2 := by
  rcases o.flush_cases h with ⟨e, -, heq⟩ | ⟨-, -, heq⟩ | ⟨n, s, h', -, -, heq⟩
  · simp only [heq]
  · simp only [heq]
  · -- What has failed is not tried again, and what was written is not held back any more.
    rw [heq]
    split <;> rfl

namespace Peripherals

variable {p q : Peripherals}

/-- The bytes that can still be read from the selected input stream. -/
def remaining (p : Peripherals) : Text :=
  match p.streams.get? p.input with
  | some ⟨.input i, _⟩ => i.upcoming p.flushed.host
  | _ => []

/-- The remaining bytes of an input stream. -/
theorem remaining_of_input {i : Input} {closer : Option Closer}
    (hstream : p.streams.get? p.input = some ⟨.input i, closer⟩) :
    p.remaining = i.upcoming p.flushed.host := by
  rw [remaining, hstream]

/-- What a flush makes of the host depends on the streams and the host only. -/
theorem host_flushed_congr (hstreams : p.streams = q.streams) (hhost : p.host = q.host) :
    p.flushed.host = q.flushed.host := by
  unfold flushed
  rw [hstreams, hhost]
  cases q.streams.get? defaultOutput with
  | none => exact hhost
  | some s => rfl

/-- A flush makes the same of the host when an input stream has another state. -/
theorem host_flushed_withStream {k : Cell} {i j : Input} {closer : Option Closer}
    (hstream : p.streams.get? k = some ⟨.input j, closer⟩) :
    (p.withStream k ⟨.input i, closer⟩ p.host).flushed.host = p.flushed.host := by
  unfold flushed
  rw [get?_withStream]
  by_cases hdefault : defaultOutput = k
  · rw [if_pos hdefault, hdefault, hstream]
    rfl
  · rw [if_neg hdefault]
    cases p.streams.get? defaultOutput <;> rfl

/-- What remains depends on the streams, the host and the selection only. -/
theorem remaining_congr (hstreams : p.streams = q.streams) (hhost : p.host = q.host)
    (hinput : p.input = q.input) : p.remaining = q.remaining := by
  unfold remaining
  rw [hstreams, hinput, host_flushed_congr hstreams hhost]

/-- What remains of the selected input stream in another state. -/
theorem remaining_withStream {k : Cell} {i j : Input} {closer : Option Closer}
    (hselected : p.input = k) (hstream : p.streams.get? k = some ⟨.input j, closer⟩) :
    (p.withStream k ⟨.input i, closer⟩ p.host).remaining = i.upcoming p.flushed.host := by
  have hleft : (p.withStream k ⟨.input i, closer⟩ p.host).streams.get? p.input =
      some ⟨.input i, closer⟩ := by
    rw [get?_withStream, if_pos hselected, hstream]
    rfl
  rw [remaining_of_input hleft, host_flushed_withStream hstream]

/-- A second flush does not touch the host. -/
theorem host_flushed_flushed (p : Peripherals) : p.flushed.flushed.host = p.flushed.host := by
  have hsecond : p.flushed.streams.get? defaultOutput =
      (p.streams.get? defaultOutput).map fun s => (s.flush p.host).2.1 := by
    rw [get?_flushed, if_pos rfl]
  rw [flushed.eq_def p.flushed, hsecond]
  rcases hstream : p.streams.get? defaultOutput with _ | ⟨i | o, closer⟩
  · rfl
  · rfl
  · simp only [flushed, hstream, Option.map_some, withStream, Stream.flush]
    exact o.host_flush_flush p.host

/-- What has been written is made visible by a flush. -/
theorem prompted_host (p : Peripherals) : p.prompted.host = p.flushed.host := by
  unfold prompted
  cases p.flushError with
  | none => rfl
  | some e => exact traced_host ..

/-- Getting ready to read does not change what a flush makes of the host. -/
theorem host_flushed_readied (p : Peripherals) (i : Input) :
    (p.readied i).flushed.host = p.flushed.host := by
  unfold readied
  split
  · calc p.prompted.flushed.host
      _ = p.flushed.flushed.host := host_flushed_congr p.prompted_streams p.prompted_host
      _ = p.flushed.host := p.host_flushed_flushed
  · rfl

/-- A stream that is ready to be read gives the same byte as after a flush. -/
theorem next_readied (p : Peripherals) (i : Input) :
    i.next (p.readied i).host = i.next p.flushed.host := by
  obtain ⟨source, unread⟩ := i
  cases unread with
  | nil => exact congrArg _ p.prompted_host
  | cons c t => rfl

/-- Reading takes the first of the remaining bytes. -/
theorem readCharacter_remaining (p : Peripherals) :
    ∃ q, readCharacter p = .ok p.remaining.firstCharacter q ∧ q.remaining = p.remaining.tail := by
  rw [readCharacter_apply]
  rcases hstream : p.streams.get? p.input with _ | ⟨i | o, closer⟩
  · have hnone : p.remaining = [] := by rw [remaining, hstream]
    exact ⟨p, by rw [hnone]; rfl, by rw [hnone]; rfl⟩
  · obtain ⟨hcharacter, hrest, -⟩ := i.next_front p.flushed.host
    have hready := get?_readied i hstream
    rw [remaining_of_input hstream, ← hcharacter, ← hrest]
    simp only [next_readied]
    refine ⟨_, rfl, ?_⟩
    obtain ⟨hstreams, hhost, hinput⟩ := afterReading_frame
      ((p.readied i).withStream p.input ⟨.input (i.next p.flushed.host).2, closer⟩
        (p.readied i).host) p.input (i.next p.flushed.host).1
    rw [remaining_congr hstreams hhost hinput,
      remaining_withStream (p.readied_selection i).1 hready, host_flushed_readied]
  · have hnone : p.remaining = [] := by rw [remaining, hstream]
    exact ⟨p, by rw [hnone]; rfl, by rw [hnone]; rfl⟩

/-- The state after so many readings. -/
def afterReads (n : Nat) (p : Peripherals) : Peripherals := after (List.replicate n .read) p

/-- The readings after the first. -/
theorem afterReads_succ {c : Cell} (hread : readCharacter p = .ok c q) (n : Nat) :
    p.afterReads (n + 1) = q.afterReads n := by
  rw [afterReads, List.replicate_succ, after, final_read hread, afterReads]

/-- One reading. -/
theorem readCharacter_eq (p : Peripherals) :
    readCharacter p = .ok p.remaining.firstCharacter (p.afterReads 1) := by
  obtain ⟨q, hread, -⟩ := p.readCharacter_remaining
  rw [afterReads_succ hread]
  exact hread

/-- So many readings and then others. -/
theorem afterReads_add (p : Peripherals) (m n : Nat) :
    p.afterReads (m + n) = (p.afterReads m).afterReads n := by
  rw [afterReads, ← List.replicate_append_replicate, after_append, afterReads, afterReads]

/-- So many readings take so many of the remaining bytes. -/
theorem remaining_afterReads (p : Peripherals) (n : Nat) :
    (p.afterReads n).remaining = p.remaining.drop n := by
  induction n generalizing p with
  | zero => rfl
  | succ n ih =>
    obtain ⟨q, hread, hrest⟩ := p.readCharacter_remaining
    rw [afterReads_succ hread, ih, hrest, List.drop_tail]

end Peripherals

end Intcode
