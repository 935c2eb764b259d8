import Intcode.Peripherals.ReadNumber
import Intcode.Proofs.Streams.Moves

/-!
# Reading numbers

A number is read in three parts: blanks are passed over, a sign is looked at, and
the digits are read. As far as the streams are concerned, it is so many readings.
-/

namespace Intcode.Peripherals

/-- Whether a character is a sign. -/
def isSign (c : Cell) : Bool := c = Cell.ofByte (Text.byte '-') || c = Cell.ofByte (Text.byte '+')

/-- Reads the digits of a number, of which `c` may be the first. -/
def readMagnitude (negative : Bool) (c : Cell) : Action Peripherals (Cell × Cell) := fun p =>
  match readDigits (p.spanLimit isDigit + 1) 0 c p with
  | .ok (sum, next) q => .ok (if negative then -sum else sum, next) q
  | .error e q => .error e q

/-- The parts of a number. -/
theorem readNumber_apply (p : Peripherals) :
    readNumber p = match skipBlanks (p.spanLimit isBlank + 1) p with
      | .error e q => .error e q
      | .ok c q =>
        if isSign c then
          match readCharacter q with
          | .error e r => .error e r
          | .ok d r => readMagnitude (c = Cell.ofByte (Text.byte '-')) d r
        else readMagnitude false c q := by
  simp only [readNumber, Action.bind_apply, Action.get_apply]
  cases skipBlanks (p.spanLimit isBlank + 1) p with
  | error e q => rfl
  | ok c q =>
    by_cases hsign : isSign c = true
    · have hsigned := hsign
      rw [isSign] at hsigned
      simp only [hsigned, hsign, if_true, Action.bind_apply]
      cases readCharacter q with
      | error e r => rfl
      | ok d r =>
        simp only [Action.get_apply, readMagnitude, decide_eq_true_eq]
        cases readDigits (r.spanLimit isDigit + 1) 0 d r <;> rfl
    · have hsigned := hsign
      rw [isSign] at hsigned
      have hminus : c ≠ Cell.ofByte (Text.byte '-') := by
        rintro rfl
        exact hsign rfl
      simp only [if_neg hsigned, if_neg hsign]
      simp only [Action.bind_apply, Action.pure_apply, Action.get_apply, readMagnitude, hminus,
        Bool.false_eq_true, if_false]
      cases readDigits (q.spanLimit isDigit + 1) 0 c q <;> rfl

/-- The bytes that the selected input stream still gives, unless a file changes. -/
def incoming (p : Peripherals) : Text :=
  match p.streams.get? p.input with
  | some ⟨.input i, _⟩ => i.upcoming p.host
  | _ => []

/-- The bytes to come if an input stream is selected. -/
theorem incoming_of_input {p : Peripherals} {i : Input} {closer : Option Closer}
    (hstream : p.streams.get? p.input = some ⟨.input i, closer⟩) :
    p.incoming = i.upcoming p.host := by
  unfold incoming
  rw [hstream]

/-- The number of characters of a class at the front of bytes to come. -/
def span (isMember : Cell → Bool) (t : Text) : Nat :=
  (t.takeWhile fun c => isMember (.ofByte (Text.foldReturn c))).length

/-- A character of a class without the end of the stream is one of the bytes to come. -/
theorem span_of_firstCharacter {isMember : Cell → Bool} (hend : isMember endOfStream = false)
    {t : Text} (hfirst : isMember t.firstCharacter = true) :
    span isMember t = span isMember t.tail + 1 := by
  cases t with
  | nil => exact absurd (hend.symm.trans hfirst) (by simp)
  | cons c t =>
    rw [span, List.takeWhile_cons_of_pos (by exact hfirst), List.length_cons, List.tail_cons, span]

/-- The bound on the characters of a class is large enough. -/
theorem span_incoming_le (isMember : Cell → Bool) (p : Peripherals) :
    span isMember p.incoming ≤ p.spanLimit isMember := by
  unfold spanLimit supply incoming
  rcases p.streams.get? p.input with _ | ⟨i | o, closer⟩
  · exact Nat.le_refl 0
  · simp only [span, Input.upcoming, List.takeWhile_append]
    have hunread := (List.takeWhile_prefix (l := i.unread)
      fun c => isMember (.ofByte (Text.foldReturn c))).length_le
    have hrest := (List.takeWhile_prefix (l := (i.source.drain p.host).1)
      fun c => isMember (.ofByte (Text.foldReturn c))).length_le
    by_cases hany : (i.unread.any fun c => !isMember (.ofByte (Text.foldReturn c))) = true
    · -- The class ends among the unread bytes.
      have hends : (i.unread.takeWhile fun c => isMember (.ofByte (Text.foldReturn c))).length ≠
          i.unread.length := by
        intro hlength
        obtain ⟨c, hc, hnot⟩ := List.any_eq_true.mp hany
        rw [← (List.takeWhile_prefix _).eq_of_length hlength] at hc
        simp [List.all_eq_true.mp List.all_takeWhile c hc] at hnot
      rw [if_neg hends, if_pos hany]
      exact hunread
    · rw [if_neg hany]
      split
      · rw [List.length_append]
        omega
      · omega
  · exact Nat.le_refl 0

/-- Reading a character never fails. -/
theorem readCharacter_ok (p : Peripherals) : ∃ c q, readCharacter p = .ok c q := by
  rw [readCharacter_apply]
  split <;> exact ⟨_, _, rfl⟩

/-- The state after a reading. -/
theorem final_read {p q : Peripherals} {c : Cell} (hread : readCharacter p = .ok c q) :
    StreamOperation.read.action.final p = q := by
  rw [Action.final, StreamOperation.action, hread, Action.stateOf_ok]

/-- Blanks are passed over one by one. -/
theorem skipBlanks_succ {p q : Peripherals} {c : Cell} (hread : readCharacter p = .ok c q)
    (n : Nat) :
    skipBlanks (n + 1) p = if isBlank c then skipBlanks n q else .ok c q := by
  rw [skipBlanks, Action.bind_apply, hread]
  by_cases hblank : isBlank c = true
  · simp only [if_pos hblank]
  · simp only [if_neg hblank, Action.pure_apply]

/-- Digits are read one by one. -/
theorem readDigits_succ {p q : Peripherals} {c next : Cell} (hread : readCharacter p = .ok next q)
    (hdigit : isDigit c = true) (n : Nat) (sum : Cell) :
    readDigits (n + 1) sum c p = readDigits n (sum * 10 + c - 48) next q := by
  rw [readDigits, if_pos hdigit, Action.bind_apply, hread]

/-- A character that is no digit ends the digits. -/
theorem readDigits_of_not_isDigit {c : Cell} (hdigit : ¬ isDigit c = true) (n : Nat) (sum : Cell)
    (p : Peripherals) : readDigits n sum c p = .ok (sum, c) p := by
  cases n with
  | zero => rw [readDigits, if_neg hdigit, Action.pure_apply]
  | succ n => rw [readDigits, if_neg hdigit, Action.pure_apply]

/-- Repeated readings are all attempted. -/
theorem attempted_reads (n : Nat) (p : Peripherals) :
    attempted (List.replicate n .read) p = List.replicate n .read := by
  induction n generalizing p with
  | zero => rfl
  | succ n ih =>
    obtain ⟨c, q, hread⟩ := p.readCharacter_ok
    simp only [List.replicate_succ, attempted, StreamOperation.action, hread, ih]

/-- The number of readings that pass over blanks. -/
def blankReads : Nat → Peripherals → Nat
  | 0, _ => 0
  | n + 1, p =>
    match readCharacter p with
    | .ok c q => if isBlank c then blankReads n q + 1 else 1
    | .error _ _ => 1

/-- Passing over blanks is reading. -/
theorem final_skipBlanks (n : Nat) (p : Peripherals) :
    (skipBlanks n).final p = after (List.replicate (blankReads n p) .read) p := by
  induction n generalizing p with
  | zero => rfl
  | succ n ih =>
    obtain ⟨c, q, hread⟩ := p.readCharacter_ok
    have hq := final_read hread
    simp only [Action.final, skipBlanks_succ hread, blankReads, hread]
    by_cases hblank : isBlank c = true
    · rw [if_pos hblank, if_pos hblank, List.replicate_succ, after, hq]
      exact ih q
    · rw [if_neg hblank, if_neg hblank, List.replicate_one, after, hq]
      rfl

/-- The number of readings after a character that may be a digit. -/
def digitReads : Nat → Cell → Peripherals → Nat
  | 0, _, _ => 0
  | n + 1, c, p =>
    if isDigit c then
      match readCharacter p with
      | .ok next q => digitReads n next q + 1
      | .error _ _ => 1
    else 0

/-- Reading digits is reading. -/
theorem final_readDigits (n : Nat) (sum c : Cell) (p : Peripherals) :
    (readDigits n sum c).final p = after (List.replicate (digitReads n c p) .read) p := by
  induction n generalizing sum c p with
  | zero =>
    rw [readDigits]
    split <;> rfl
  | succ n ih =>
    obtain ⟨next, q, hread⟩ := p.readCharacter_ok
    have hq := final_read hread
    rw [Action.final, digitReads]
    by_cases hdigit : isDigit c = true
    · rw [readDigits_succ hread hdigit, if_pos hdigit, hread, List.replicate_succ, after, hq]
      exact ih _ next q
    · rw [readDigits_of_not_isDigit hdigit, if_neg hdigit]
      rfl

/-- The number of readings of a number. -/
def numberReads (p : Peripherals) : Nat :=
  blankReads (p.spanLimit isBlank + 1) p +
    match skipBlanks (p.spanLimit isBlank + 1) p with
    | .error _ _ => 0
    | .ok c q =>
      if isSign c then
        match readCharacter q with
        | .error _ _ => 1
        | .ok d r => digitReads (r.spanLimit isDigit + 1) d r + 1
      else digitReads (q.spanLimit isDigit + 1) c q

/-- Reading a number is reading. -/
theorem final_readNumber (p : Peripherals) :
    readNumber.final p = after (List.replicate (numberReads p) .read) p := by
  have hblanks := final_skipBlanks (p.spanLimit isBlank + 1) p
  have hdigits (negative : Bool) (c : Cell) (q : Peripherals) :
      (readMagnitude negative c).final q =
        after (List.replicate (digitReads (q.spanLimit isDigit + 1) c q) .read) q := by
    rw [← final_readDigits _ 0]
    simp only [Action.final, readMagnitude]
    cases readDigits (q.spanLimit isDigit + 1) 0 c q <;> rfl
  rw [numberReads, ← List.replicate_append_replicate, after_append, ← hblanks]
  simp only [Action.final, readNumber_apply]
  cases skipBlanks (p.spanLimit isBlank + 1) p with
  | error e q => rfl
  | ok c q =>
    simp only [Action.stateOf_ok]
    split
    · obtain ⟨d, r, hread⟩ := q.readCharacter_ok
      have hr := final_read hread
      simp only [hread, List.replicate_succ, after, hr]
      exact hdigits _ d r
    · exact hdigits false c q

end Intcode.Peripherals
