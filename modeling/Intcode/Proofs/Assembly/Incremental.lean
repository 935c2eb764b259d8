import Intcode.Proofs.Assembly.Composition

/-!
# Assembling while reading

The assembler need not have the whole text at hand. It can take the bytes from
their source one by one, with one significant byte ahead, and carry out the parts
of a directive as soon as it has read them. Every reading of a byte skips the
comments in front of it. A source that fails reads as one that ends: the failure
is only noted, and it is looked at before the next directive.

This file gives that assembler. It comes to an end because every directive that is
carried out uses up the byte that it starts with.
-/

namespace Intcode.Incremental

/-- A source of bytes with one byte in hand. -/
structure Reader where
  /-- The bytes that the source still gives. -/
  rest : Text
  /-- What every reading after these bytes fails with, unless the source just ends. -/
  ending : Option HostError
  /-- The byte in hand, none at the end. -/
  current : Option UInt8 := none
  /-- The failure that has been noted. -/
  noted : Option HostError := none

namespace Reader

/-- Takes the next byte in hand. A failure is noted and reads as the end. -/
def next (r : Reader) : Reader :=
  match r.rest with
  | c :: rest => { r with rest, current := some (Text.foldReturn c) }
  | [] => { r with current := none, noted := r.ending.or r.noted }

/-- The number of bytes that have not been used up. -/
def left (r : Reader) : Nat := r.rest.length + r.current.toList.length

/-- Going on uses up the byte in hand. -/
theorem left_next_lt {r : Reader} {c : UInt8} (h : r.current = some c) : r.next.left < r.left := by
  unfold next left
  rw [h]
  cases r.rest <;> simp

/-- Goes on while the byte in hand is one of a class. -/
def skipWhile (p : UInt8 → Bool) (r : Reader) : Reader :=
  match _h : r.current with
  | some c => if p c then r.next.skipWhile p else r
  | none => r
termination_by r.left
decreasing_by exact left_next_lt ‹_›

/-- Skipping uses bytes up. -/
theorem left_skipWhile_le (p : UInt8 → Bool) (r : Reader) : (r.skipWhile p).left ≤ r.left := by
  fun_induction skipWhile p r with
  | case1 r c h hp ih => exact Nat.le_trans ih (Nat.le_of_lt (left_next_lt h))
  | case2 r c h hp => exact Nat.le_refl _
  | case3 r h => exact Nat.le_refl _

/-- Skips the comments that start with the byte in hand, each with the line feeds that end it. -/
def skipComments (r : Reader) : Reader :=
  if _h : r.current = some Text.slash then
    ((r.next.skipWhile (· ≠ Text.lineFeed)).skipWhile (· = Text.lineFeed)).skipComments
  else r
termination_by r.left
decreasing_by
  exact Nat.lt_of_le_of_lt
    (Nat.le_trans (left_skipWhile_le _ _) (left_skipWhile_le _ _)) (left_next_lt ‹_›)

/-- Takes the next significant byte in hand. -/
def advance (r : Reader) : Reader := r.next.skipComments

/-- Skipping comments uses bytes up. -/
theorem left_skipComments_le (r : Reader) : r.skipComments.left ≤ r.left := by
  fun_induction skipComments r with
  | case1 r h ih =>
    have hlt := left_next_lt h
    have hline := left_skipWhile_le (· ≠ Text.lineFeed) r.next
    have hfeeds := left_skipWhile_le (· = Text.lineFeed) (r.next.skipWhile (· ≠ Text.lineFeed))
    omega
  | case2 r h => exact Nat.le_refl _

/-- Going on to the next significant byte uses up the byte in hand. -/
theorem left_advance_lt {r : Reader} {c : UInt8} (h : r.current = some c) :
    r.advance.left < r.left :=
  Nat.lt_of_le_of_lt (left_skipComments_le _) (left_next_lt h)

/-- Reads digits behind those that have been read. -/
def digits (sum : Cell) (r : Reader) : Cell × Reader :=
  match h : r.current with
  | some c =>
    if Text.isDigit c then r.advance.digits (sum * 10 + Cell.ofNat (c.toNat - 48)) else (sum, r)
  | none => (sum, r)
termination_by r.left
decreasing_by exact left_advance_lt h

/-- Reads a number. -/
def number (r : Reader) : Cell × Reader :=
  if r.current = some (Text.byte '-') then
    let (v, r) := r.advance.digits 0
    (-v, r)
  else r.digits 0

/-- Reads a byte if it is the one in hand, and tells whether it was. -/
def accept (c : UInt8) (r : Reader) : Bool × Reader :=
  if r.current = some c then (true, r.advance) else (false, r)

/-- Reading digits uses them up. -/
theorem left_digits_le (sum : Cell) (r : Reader) : (r.digits sum).2.left ≤ r.left := by
  fun_induction digits sum r with
  | case1 sum r c h hdigit ih => exact Nat.le_trans ih (Nat.le_of_lt (left_advance_lt h))
  | case2 sum r c h hdigit => exact Nat.le_refl _
  | case3 sum r h => exact Nat.le_refl _

/-- Reading a byte that may be missing uses it up. -/
theorem left_accept_le (c : UInt8) (r : Reader) : (r.accept c).2.left ≤ r.left := by
  unfold accept
  by_cases h : r.current = some c
  · rw [if_pos h]
    exact Nat.le_of_lt (left_advance_lt h)
  · rw [if_neg h]

/-- Reading a number uses its bytes up. -/
theorem left_number_le (r : Reader) : r.number.2.left ≤ r.left := by
  unfold number
  by_cases h : r.current = some (Text.byte '-')
  · rw [if_pos h]
    exact Nat.le_trans (left_digits_le 0 _) (Nat.le_of_lt (left_advance_lt h))
  · rw [if_neg h]
    exact left_digits_le 0 r

/-- Reading a number uses up the digit that it starts with. -/
theorem left_number_lt {r : Reader} {c : UInt8} (h : r.current = some c)
    (hdigit : Text.isDigit c = true) : r.number.2.left < r.left := by
  have hunsigned : r.current ≠ some (Text.byte '-') := by
    rw [h]
    rintro ⟨⟩
    exact absurd hdigit (by decide)
  have hfirst : r.digits 0 = r.advance.digits (0 * 10 + Cell.ofNat (c.toNat - 48)) := by
    rw [digits]
    split
    · next d hd =>
      obtain rfl : c = d := Option.some.inj (h.symm.trans hd)
      rw [if_pos hdigit]
    · next hnone =>
      rw [h] at hnone
      cases hnone
  rw [number, if_neg hunsigned, hfirst]
  exact Nat.lt_of_le_of_lt (left_digits_le _ _) (left_advance_lt h)

end Reader

/-- An assembler together with the reader that it takes its text from. -/
structure State where
  assembler : Assembler
  reader : Reader

/-- Reads something. -/
def reading {α : Type} (read : Reader → α × Reader) : Action State α := fun s =>
  .ok (read s.reader).1 { s with reader := (read s.reader).2 }

/-- Takes the next significant byte in hand. -/
def advance : Action State Unit := reading fun r => ((), r.advance)

/-- Assembles something. -/
def assembling {α : Type} (x : Action Assembler α) : Action State α :=
  Action.on (·.assembler) (fun s assembler => { s with assembler }) x

/-- Makes the last word refer to a label. -/
def referLast (n : Cell) : Action Assembler Unit := do
  Assembler.reference n.toInt ((← get).lomem - 1)

/-- Makes a global ready to refer to a label. -/
def clearGlobal (n : Cell) : Action Assembler Unit := do
  if (← get).memory.size ≤ n.address then Assembler.failHere
  else Assembler.onMemory (Memory.setWord n.address 0)

/-- Carries out the rest of an instruction after the letter of its function, which is in hand. -/
def instruction (f : Function) : Action State Unit := do
  advance
  let indirect ← reading (Reader.accept (Text.byte 'I'))
  let framed ← reading (Reader.accept (Text.byte 'P'))
  let marked ← reading (Reader.accept (Text.byte 'G'))
  if ← reading (Reader.accept (Text.byte 'L')) then
    assembling (Assembler.append (Opcode.longWord ⟨f, indirect, framed⟩))
    assembling (Assembler.append 0)
    let n ← reading Reader.number
    assembling (referLast n)
  else
    let v ← reading Reader.number
    assembling (Assembler.emit (.instruction ⟨f, indirect, framed⟩ marked (.number v)))

/-- Carries out the rest of a data word after its letter, which is in hand. -/
def word : Action State Unit := do
  advance
  if ← reading (Reader.accept (Text.byte 'L')) then
    assembling (Assembler.append 0)
    let n ← reading Reader.number
    assembling (referLast n)
  else
    let v ← reading Reader.number
    assembling (Assembler.append v)

/-- Carries out the rest of a global directive after its letter, which is in hand. -/
def global : Action State Unit := do
  advance
  let n ← reading Reader.number
  if ← reading (Reader.accept (Text.byte 'L')) then
    assembling (clearGlobal n)
    let l ← reading Reader.number
    assembling (Assembler.reference l.toInt n.address)
  else
    assembling Assembler.failHere

/-- Carries out the directive that starts with the byte in hand. -/
def directive (c : UInt8) : Action State Unit :=
  if Text.isDigit c then do
    let n ← reading Reader.number
    assembling (Assembler.emit (.label n))
  else if c = Text.byte 'C' then do
    advance
    let v ← reading Reader.number
    assembling (Assembler.appendByte v.low)
  else if c = Text.byte 'D' then word
  else if c = Text.byte 'G' then global
  else if c = Text.byte 'Z' then do
    assembling (Assembler.emit .segmentEnd)
    advance
  else
    match Function.ofLetter? c with
    | some f => instruction f
    | none => assembling (Action.fail (.fatal .badCharacter c.toNat))

section Progress

/-- No bytes come back. -/
def Onward (s s' : State) : Prop := s'.reader.left ≤ s.reader.left

instance : Trans Onward Onward Onward := ⟨fun h h' => Nat.le_trans h' h⟩

variable {α β : Type}

/-- Assembling does not touch the reader. -/
theorem assembling_apply (x : Action Assembler α) (s : State) :
    assembling x s = match x s.assembler with
      | .ok a assembler => .ok a { s with assembler }
      | .error e assembler => .error e { s with assembler } := by
  simp only [assembling, Action.on]
  cases x s.assembler <;> rfl

/-- Reading uses bytes up. -/
theorem onward_reading {read : Reader → α × Reader} (h : ∀ r, (read r).2.left ≤ r.left) :
    Action.Stays Onward (reading read) :=
  fun s => h s.reader

/-- Assembling uses no bytes. -/
theorem onward_assembling (x : Action Assembler α) : Action.Stays Onward (assembling x) := by
  intro s
  rw [Action.final, assembling_apply]
  cases x s.assembler <;> exact Nat.le_refl _

/-- What follows an action that uses bytes up gives none back. -/
theorem left_lt_of_bind {x : Action State α} {f : α → Action State β} {s s' : State} {b : β}
    (hx : ∀ a s₁, x s = .ok a s₁ → s₁.reader.left < s.reader.left)
    (hf : ∀ a, Action.Stays Onward (f a)) (h : (x >>= f) s = .ok b s') :
    s'.reader.left < s.reader.left := by
  obtain ⟨a, s₁, hfirst, hrest⟩ := Action.bind_eq_ok_iff.mp h
  have honward := hf a s₁
  rw [Action.final, hrest] at honward
  exact Nat.lt_of_le_of_lt honward (hx a s₁ hfirst)

/-- Going on to the next byte uses up the byte in hand. -/
theorem left_lt_of_advance {s : State} {c : UInt8} (h : s.reader.current = some c) (a : Unit)
    (s' : State) (hrun : advance s = .ok a s') : s'.reader.left < s.reader.left := by
  cases hrun
  exact Reader.left_advance_lt h

/-- Reading a byte that may be missing uses it up. -/
theorem onward_accept (c : UInt8) : Action.Stays Onward (reading (Reader.accept c)) :=
  onward_reading (Reader.left_accept_le c)

/-- Reading a number uses its bytes up. -/
theorem onward_number : Action.Stays Onward (reading Reader.number) :=
  onward_reading Reader.left_number_le

/-- A directive that is carried out uses up its first byte. -/
theorem left_lt_of_directive {c : UInt8} {s s' : State} (h : s.reader.current = some c)
    (hrun : directive c s = .ok () s') : s'.reader.left < s.reader.left := by
  have hlabel (y : Action Assembler Unit) (f : Cell → Action Assembler Unit) :
      Action.Stays Onward (do assembling y; let n ← reading Reader.number; assembling (f n)) :=
    (onward_assembling y).bind fun _ => onward_number.bind fun n => onward_assembling (f n)
  have hnumber (f : Cell → Action Assembler Unit) :
      Action.Stays Onward (do let v ← reading Reader.number; assembling (f v)) :=
    onward_number.bind fun v => onward_assembling (f v)
  unfold directive at hrun
  by_cases hdigit : Text.isDigit c = true
  · rw [if_pos hdigit] at hrun
    refine left_lt_of_bind (fun n s₁ hread => ?_) (fun n => onward_assembling _) hrun
    cases hread
    exact Reader.left_number_lt h hdigit
  rw [if_neg hdigit] at hrun
  split at hrun
  · exact left_lt_of_bind (left_lt_of_advance h) (fun _ => hnumber _) hrun
  split at hrun
  · refine left_lt_of_bind (left_lt_of_advance h) (fun _ => ?_) hrun
    refine (onward_accept _).bind fun isLabel => ?_
    split
    · exact hlabel _ _
    · exact hnumber _
  split at hrun
  · refine left_lt_of_bind (left_lt_of_advance h) (fun _ => ?_) hrun
    refine onward_number.bind fun n => (onward_accept _).bind fun closed => ?_
    split
    · exact hlabel _ _
    · exact onward_assembling _
  split at hrun
  · obtain ⟨_, s₁, hend, hadvance⟩ := Action.bind_eq_ok_iff.mp hrun
    have hreader : s₁.reader = s.reader := by
      rw [assembling_apply] at hend
      split at hend <;> cases hend
      rfl
    rw [← hreader] at h ⊢
    exact left_lt_of_advance h () _ hadvance
  cases hletter : Function.ofLetter? c with
  | some f =>
    simp only [hletter] at hrun
    refine left_lt_of_bind (left_lt_of_advance h) (fun _ => ?_) hrun
    refine (onward_accept _).bind fun indirect => (onward_accept _).bind fun framed =>
      (onward_accept _).bind fun marked => (onward_accept _).bind fun isLabel => ?_
    split
    · exact (onward_assembling _).bind fun _ => hlabel _ _
    · exact hnumber _
  | none =>
    simp only [hletter] at hrun
    cases hrun

end Progress

/-- Carries out the directives of the source one after the other. A failure to read that has been
noted ends the run, and so does the end of the text. -/
def run (s : State) : EStateM.Result Failure State Unit :=
  match s.reader.noted with
  | some e => .error (.report (.host "read failed" e)) s
  | none =>
    match _h : s.reader.current with
    | none => .ok () s
    | some c =>
      if Text.isSeparator c then run { s with reader := s.reader.advance }
      else
        match _hrun : directive c s with
        | .ok _ s' => run s'
        | .error e s' => .error e s'
termination_by s.reader.left
decreasing_by
  · exact Reader.left_advance_lt ‹_›
  · exact left_lt_of_directive ‹_› ‹_›

/-- The outcome for the assembler alone. -/
def forget {α : Type} : EStateM.Result Failure State α → EStateM.Result Failure Assembler α
  | .ok a s => .ok a s.assembler
  | .error e s => .error e s.assembler

/-- Assembles the text of a source after the code already there. -/
def assemble (t : Text) (ending : Option HostError) : Action Assembler Unit :=
  Action.restating Assembler.restateFailure fun a =>
    forget (run ⟨a.fresh, Reader.advance { rest := t, ending }⟩)

end Intcode.Incremental
