import Intcode.Proofs.Streams.Ledger

/-!
# Outputs that never fail

An output stream whose sink has no limit never fails. It takes every byte that it is
given, and what it has taken is in its ledger.
-/

namespace Intcode

/-- A sink without a limit takes all that it is given, and goes on without one. -/
theorem Sink.write_of_room_eq_none {s : Sink} {h : Host} (hroom : s.room h = none) (t : Text) :
    (s.write t h).1 = t.length ∧ (s.write t h).2.1.room (s.write t h).2.2 = none := by
  cases s with
  | device d =>
    simp only [room] at hroom
    simp only [write, Device.write, Device.fitting, hroom, room, Option.map_none, and_self]
  | file k offset =>
    simp only [room] at hroom
    refine ⟨by simp only [write, Body.writeAt, Device.fitting, hroom], ?_⟩
    simp only [write, room, Host.body_setBody]
    split
    · simp only [Body.writeAt]
      split <;> simp only [Body.append, Body.withContents, hroom, Option.map_none]
    · exact hroom

namespace Output

/-- An output stream that never fails: it has not failed yet, and its sink has no limit. -/
structure Unfailing (o : Output) (h : Host) : Prop where
  failed : o.failed = none
  room : o.sink.room h = none

variable {o : Output} {h : Host}

/-- A stream that never fails can be flushed. -/
theorem Unfailing.flush (ho : o.Unfailing h) :
    (o.flush h).1 = none ∧ (o.flush h).2.1.Unfailing (o.flush h).2.2 := by
  rcases o.flush_cases h with ⟨e, hfailed, -⟩ | ⟨-, -, heq⟩ | ⟨n, s, h', -, hwrite, heq⟩
  · rw [ho.failed] at hfailed
    cases hfailed
  · rw [heq]
    exact ⟨rfl, ho⟩
  · obtain ⟨hall, hroom⟩ := Sink.write_of_room_eq_none ho.room o.backlog.text
    rw [hwrite] at hall hroom
    rw [heq, if_neg (Nat.not_lt.mpr (Nat.le_of_eq hall.symm))]
    exact ⟨rfl, rfl, hroom⟩

/-- A stream that never fails takes every byte. -/
theorem Unfailing.put (ho : o.Unfailing h) (c : UInt8) :
    (o.put c h).1 = none ∧ (o.put c h).2.1.Unfailing (o.put c h).2.2 := by
  rw [put_of_not_failed ho.failed]
  by_cases hfull : o.backlog.room = 0
  · obtain ⟨hnone, hflush⟩ := ho.flush
    rw [if_pos hfull]
    generalize o.flush h = outcome at hnone hflush ⊢
    obtain ⟨e, o', h'⟩ := outcome
    obtain rfl : e = none := hnone
    exact ⟨rfl, hflush.failed, hflush.room⟩
  · rw [if_neg hfull]
    exact ⟨rfl, ho.failed, ho.room⟩

end Output

namespace Peripherals

/-- The selected output stream can be written and never fails. -/
def Accepts (p : Peripherals) : Prop :=
  ∃ o closer, p.streams.get? p.output = some ⟨.output o, closer⟩ ∧ o.Unfailing p.host

variable {p : Peripherals}

/-- The selected stream goes on in another state that never fails. -/
theorem accepts_withStream {s : Stream} {o : Output} {host : Host}
    (hstream : p.streams.get? p.output = some s) (ho : o.Unfailing host) (closer : Option Closer) :
    (p.withStream p.output ⟨.output o, closer⟩ host).Accepts := by
  refine ⟨o, closer, ?_, ho⟩
  exact (get?_withStream p p.output p.output ⟨.output o, closer⟩ host).trans
    (by rw [if_pos rfl, hstream, Option.map_some])

/-- A byte is taken by an output that never fails. -/
theorem Accepts.putByte (h : p.Accepts) (context : String) (c : UInt8) :
    ∃ q, putByte context c p = .ok () q ∧ q.Accepts ∧ q.output = p.output := by
  obtain ⟨o, closer, hstream, ho⟩ := h
  obtain ⟨hnone, hput⟩ := ho.put c
  refine ⟨_, ?_, accepts_withStream hstream hput closer, rfl⟩
  rw [putByte_apply, hstream]
  simp only [hnone]
  rfl

/-- An output that never fails can be flushed, if it is the default one. -/
theorem Accepts.flushed (h : p.Accepts) (hdefault : p.output = defaultOutput) :
    p.flushError = none ∧ p.flushed.Accepts ∧ p.flushed.output = p.output := by
  obtain ⟨o, closer, hstream, ho⟩ := h
  obtain ⟨hnone, hflush⟩ := ho.flush
  have haccepts := accepts_withStream hstream hflush closer
  rw [hdefault] at hstream haccepts
  simp only [flushError, Peripherals.flushed, hstream]
  exact ⟨hnone, haccepts, rfl⟩

/-- A character is taken by an output that never fails, and comes last in its ledger. -/
theorem Accepts.writeCharacter (h : p.Accepts) (c : UInt8) :
    ∃ q, writeCharacter c p = .ok () q ∧ q.Accepts ∧ q.output = p.output ∧
      ∀ file? taken, p.Keeps p.output file? none taken →
        q.Keeps q.output file? none (taken ++ [c]) := by
  have hwritten : ∃ q, Peripherals.writeCharacter c p = .ok () q ∧ q.Accepts ∧
      q.output = p.output := by
    unfold Peripherals.writeCharacter
    split
    · obtain ⟨q, hput, hq, houtput⟩ := h.putByte "newline failed" Text.lineFeed
      rw [newline_apply, hput]
      by_cases hdefault : q.output = defaultOutput
      · obtain ⟨hnone, hflushed, hselected⟩ := hq.flushed hdefault
        simp only [if_pos hdefault, hnone]
        exact ⟨_, rfl, hflushed, hselected.trans houtput⟩
      · simp only [if_neg hdefault]
        exact ⟨q, rfl, hq, houtput⟩
    · exact h.putByte "wrch failed" c
  obtain ⟨q, hwrite, hq, houtput⟩ := hwritten
  refine ⟨q, hwrite, hq, houtput, fun file? taken hkeeps => ?_⟩
  have hledger := hkeeps.writeCharacter c
  rw [Action.final, hwrite, hkeeps.taking_eq] at hledger
  rw [houtput]
  exact hledger

/-- A text is taken by an output that never fails, and comes last in its ledger. -/
theorem Accepts.writeText (h : p.Accepts) (t : Text) :
    ∃ q, writeText t p = .ok () q ∧ q.output = p.output ∧
      ∀ file? taken, p.Keeps p.output file? none taken →
        q.Keeps q.output file? none (taken ++ t) := by
  induction t generalizing p with
  | nil =>
    refine ⟨p, rfl, rfl, fun file? taken hkeeps => ?_⟩
    rwa [List.append_nil]
  | cons c t ih =>
    obtain ⟨p', hfirst, hp', hselected, hledger⟩ := h.writeCharacter c
    obtain ⟨q, hrest, houtput, hledger'⟩ := ih hp'
    refine ⟨q, ?_, houtput.trans hselected, fun file? taken hkeeps => ?_⟩
    · rw [Peripherals.writeText, Action.bind_apply, hfirst]
      exact hrest
    · have hlast := hledger' file? _ (hledger file? taken hkeeps)
      rwa [List.append_assoc] at hlast

end Peripherals

end Intcode
