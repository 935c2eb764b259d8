import Intcode.Proofs.Machine.Accesses
import Intcode.Proofs.Streams.Table

/-!
# Why instructions fail

Instructions and built-in calls fail for few reasons: an access outside the memory, a
stream that refuses, a number without an operation or a call, and a file that finds no
free handle. This file lists the accesses of every instruction and shows that, apart
from the other reasons, one of them is outside the memory exactly when it fails.
-/

namespace Intcode

/-- A format has at most one piece more than characters. -/
theorem FormatPiece.length_scan_le (state : FormatScan) (t : Text) :
    (scan state t).length ≤ t.length + 1 := by
  induction t generalizing state with
  | nil => cases state <;> simp [scan]
  | cons c t ih =>
    rw [List.length_cons]
    cases state with
    | plain =>
      rw [scan]
      split
      · exact Nat.le_succ_of_le (ih _)
      · exact Nat.succ_le_succ (ih _)
    | percent =>
      rw [scan]
      split
      · exact Nat.le_succ_of_le (ih _)
      · exact Nat.succ_le_succ (ih _)
    | width k =>
      rw [scan]
      exact Nat.succ_le_succ (ih _)

/-- The contexts in which system calls use streams. -/
def streamContexts : List String := ["wrch failed", "newline failed", "close failed"]

/-- A failure of a stream. -/
def Refused (e : Failure) : Prop :=
  ∃ context ∈ streamContexts, ∃ error, e = .report (.host context error)

/-- Whether an operation finds a file. -/
def StreamOperation.finds : StreamOperation → Bool
  | .findInput _ | .findOutput _ => true
  | _ => false

namespace Peripherals

variable {p q : Peripherals} {e : Failure}

/-- An error of the host is a failure in its context. -/
theorem refused_of_concluded {context : String} {error : Option HostError}
    (hcontext : context ∈ streamContexts)
    (h : concluded context p error = .error e q) : Refused e := by
  cases error with
  | none => cases h
  | some error =>
    cases h
    exact ⟨context, hcontext, error, rfl⟩

/-- Why a byte cannot be written. -/
theorem refused_of_putByte {context : String} {c : UInt8}
    (hcontext : context ∈ streamContexts)
    (h : putByte context c p = .error e q) : Refused e := by
  rw [putByte_apply] at h
  split at h
  · exact refused_of_concluded hcontext h
  · cases h

/-- Why a line cannot be ended. -/
theorem refused_of_newline (h : newline p = .error e q) : Refused e := by
  have hcontext : "newline failed" ∈ streamContexts := by decide
  rw [newline_apply] at h
  cases hput : putByte "newline failed" Text.lineFeed p with
  | error e' q' =>
    rw [hput] at h
    cases h
    exact refused_of_putByte hcontext hput
  | ok u q' =>
    rw [hput] at h
    by_cases hdefault : q'.output = defaultOutput
    · simp only [if_pos hdefault] at h
      exact refused_of_concluded hcontext h
    · simp only [if_neg hdefault] at h
      cases h

/-- Why a character cannot be written. -/
theorem refused_of_writeCharacter {c : UInt8} (h : writeCharacter c p = .error e q) :
    Refused e := by
  unfold writeCharacter at h
  split at h
  · exact refused_of_newline h
  · exact refused_of_putByte (by decide) h

/-- Why a text cannot be written. -/
theorem refused_of_writeText {t : Text} (h : writeText t p = .error e q) : Refused e := by
  induction t generalizing p with
  | nil => cases h
  | cons c t ih =>
    rcases Action.bind_eq_error_iff.mp h with hfirst | ⟨_, p', -, hrest⟩
    · exact refused_of_writeCharacter hfirst
    · exact ih hrest

/-- Why a stream cannot be closed. -/
theorem refused_of_endStream {k : Cell} {f : Peripherals → Peripherals}
    (h : (do
      let error ← endStream k
      modify f
      check "close failed" error : Action Peripherals Unit) p = .error e q) : Refused e := by
  rcases Action.bind_eq_error_iff.mp h with hend | ⟨error, p', -, hcheck⟩
  · rw [endStream_apply] at hend
    split at hend
    · cases hend
    · split at hend <;> cases hend
  · have hchecked : check "close failed" error (f p') = .error e q := hcheck
    rw [check_apply] at hchecked
    exact refused_of_concluded (by decide) hchecked

/-- Reading a character does not fail. -/
theorem readCharacter_ne_error : readCharacter p ≠ .error e q := by
  rw [readCharacter_apply]
  split <;> exact nofun

/-- The host has a file of the given name for a call that finds one. Reserved names are no files. -/
def HasFile (p : Peripherals) (name : Text) : SystemCall → Prop
  | .findInput =>
    Text.matchesWord name "SYSIN" = false ∧ ∃ opened, openEither p.host name = .ok opened
  | .findOutput =>
    Text.matchesWord name "SYSPRINT" = false ∧ ∃ created, p.host.createFile name = .ok created
  | _ => False

/-- All handles that files can have are in use. -/
def IsFull (p : Peripherals) : Prop := ∀ k : Cell, 3 ≤ k.toInt → p.streams.isOpen k = true

/-- A stream finds no handle exactly when all are in use. -/
theorem outcome_addStream_eq_error_iff {s : Stream} :
    (addStream s).outcome p = .error e ↔ e = .endless ∧ p.IsFull := by
  rw [Action.outcome, addStream_apply, IsFull, ← freeHandle?_eq_none_iff (h := p.nextHandle)]
  cases freeHandle? p.streams handleCount p.nextHandle with
  | none => simp [eq_comm]
  | some k => simp

/-- Finding a file for reading fails exactly when the host has it and no handle is left. -/
theorem outcome_findInput_eq_error_iff {name : Text} :
    (findInput name).outcome p = .error e ↔
      e = .endless ∧ p.HasFile name .findInput ∧ p.IsFull := by
  have hadd (s : Stream) (host : Host) :
      (addStream s).outcome (p.withHost host) = .error e ↔ e = .endless ∧ p.IsFull :=
    outcome_addStream_eq_error_iff
  rw [Action.outcome, findInput_apply, HasFile]
  cases Text.matchesWord name "SYSIN" with
  | true => simp
  | false =>
    cases openEither p.host name with
    | error error => simp
    | ok opened =>
      obtain ⟨source, closer, host⟩ := opened
      simpa [Action.outcome] using hadd ⟨.input { source }, some closer⟩ host

/-- Finding a file for writing fails exactly when the host creates it and no handle is left. -/
theorem outcome_findOutput_eq_error_iff {name : Text} :
    (findOutput name).outcome p = .error e ↔
      e = .endless ∧ p.HasFile name .findOutput ∧ p.IsFull := by
  have hadd (s : Stream) (host : Host) :
      (addStream s).outcome (p.withHost host) = .error e ↔ e = .endless ∧ p.IsFull :=
    outcome_addStream_eq_error_iff
  rw [Action.outcome, findOutput_apply, HasFile]
  cases Text.matchesWord name "SYSPRINT" with
  | true => simp
  | false =>
    cases p.host.createFile name with
    | error error => simp
    | ok created =>
      obtain ⟨sink, closer, host⟩ := created
      simpa [Action.outcome] using hadd ⟨.output { sink }, some closer⟩ host

/-- Why an operation of a call that finds no file fails. -/
theorem refused_of_operation {op : StreamOperation} (hop : op.isCall = true)
    (hfind : op.finds = false) (h : op.action.outcome p = .error e) : Refused e := by
  obtain ⟨q, hrun⟩ := Action.outcome_eq_error_iff.mp h
  have hunit {x : Action Peripherals Unit} (h : (do x; return (0 : Cell)) p = .error e q) :
      x p = .error e q := by
    rcases Action.bind_eq_error_iff.mp h with hx | ⟨_, _, -, hreturn⟩
    · exact hx
    · cases hreturn
  cases op with
  | findInput | findOutput => cases hfind
  | selectInput | selectOutput => cases hunit hrun
  | read => exact absurd hrun readCharacter_ne_error
  | write c => exact refused_of_writeCharacter (hunit hrun)
  | newline => exact refused_of_newline (hunit hrun)
  | endRead | endWrite => exact refused_of_endStream (hunit hrun)
  | close | flush | note => cases hop

end Peripherals

/-- The accesses that a built-in call makes, whose arguments are at an address. -/
def Memory.callSpans (m : Memory) (args : Int) : SystemCall → List Span
  | .selectInput | .selectOutput | .writeCharacter | .stop | .writeNumber => [.word args]
  | .longJump | .writeDecimal | .writeHex | .writeOctal => [.word args, .word (args + 1)]
  | .applyToVector =>
    let frame := (Cell.ofInt (args - 2) + m.fetch (args + 1) + 1).address
    [.word (args + 1), .word frame, .word (frame + 1), .word (frame + 2), .word (frame + 3),
      .word args]
  | .findOutput | .findInput | .writeString => .word args :: m.stringSpans (m.fetch args).address
  | .packString =>
    .word args :: .word (args + 1) ::
      m.packSpans (m.fetch args).address (m.fetch (args + 1)).address
  | .unpackString =>
    .word args :: .word (args + 1) ::
      m.unpackSpans (m.fetch args).address (m.fetch (args + 1)).address
  | .readNumber => [.word Machine.terminatorGlobal]
  | .writeFormat =>
    let f := (m.fetch args).address
    .word args :: (m.stringSpans f ++ m.formatSpans (FormatPiece.ofText (m.text f)) (args + 1))
  | .getByte =>
    [.word args, .word (args + 1), .byte (Machine.vectorByte (m.fetch args) (m.fetch (args + 1)))]
  | .putByte =>
    [.word args, .word (args + 1), .word (args + 2),
      .byte (Machine.vectorByte (m.fetch args) (m.fetch (args + 1)))]
  | _ => []

namespace Machine

/-- A call with its arguments at an address finds a file that gets no handle. -/
def Exhausts (m : Machine) (args : Int) (call : SystemCall) : Prop :=
  ∃ v name, m.memory.word args = .ok v ∧ m.memory.string v.address = .ok name ∧
    m.peripherals.HasFile name call ∧ m.peripherals.IsFull

/-- Why a call fails without an access outside the memory. -/
def CallFails (m : Machine) (args : Int) (call : SystemCall) (e : Failure) : Prop :=
  Refused e ∨ e = .endless ∧ m.Exhausts args call

/-- The accesses of what a call does. -/
def Deed.spans (m : Memory) : Deed → List Span
  | format pieces v => m.formatSpans pieces v
  | readNumber => [.word terminatorGlobal]
  | setByte b _ => [.byte b]
  | pack v s => m.packSpans v.address s.address
  | unpack s v => m.unpackSpans s.address v.address
  | apply args => m.callSpans args .applyToVector
  | _ => []

/-- What a call does makes near accesses. -/
def Deed.Near : Deed → Prop
  | format pieces v => 0 ≤ v ∧ v + pieces.length ≤ 0x1000000
  | setByte b _ => Intcode.Near b
  | apply args => 0 ≤ args ∧ args ≤ 65537
  | _ => True

/-- Why what a call does fails without an access outside the memory. -/
def Deed.Fails (m : Machine) : Deed → Failure → Prop
  | operate op _, e => op.action.outcome m.peripherals = .error e
  | write _, e | format _ _, e => Refused e
  | _, _ => False

/-- Whether a call finds a file. -/
def Deed.finds : Deed → Bool
  | operate op _ => op.finds
  | _ => false

/-- The accesses of a plan, if those before them are in the memory. -/
def Plan.spans (m : Machine) : Plan → List Span
  | word a next => .word a :: (next (m.memory.fetch a)).spans m
  | byte b next => .byte b :: (next (m.memory.fetchByte b)).spans m
  | string a next =>
    m.memory.stringSpans a.address ++ (next (m.memory.text a.address)).spans m
  | registers next => (next m.registers).spans m
  | perform x | answer x => x.spans m.memory

/-- A plan makes near accesses. -/
def Plan.Near (m : Machine) : Plan → Prop
  | word a next => Intcode.Near a ∧ (next (m.memory.fetch a)).Near m
  | byte b next => Intcode.Near b ∧ (next (m.memory.fetchByte b)).Near m
  | string a next => (next (m.memory.text a.address)).Near m
  | registers next => (next m.registers).Near m
  | perform x | answer x => x.Near

/-- Why a plan fails without an access outside the memory. -/
def Plan.Fails (m : Machine) : Plan → Failure → Prop
  | word a next, e => ∃ v, m.memory.word a = .ok v ∧ (next v).Fails m e
  | byte b next, e => ∃ c, m.memory.byte b = .ok c ∧ (next c).Fails m e
  | string a next, e => ∃ t, m.memory.string a.address = .ok t ∧ (next t).Fails m e
  | registers next, e => (next m.registers).Fails m e
  | perform x, e | answer x, e => x.Fails m e

/-- What does not find files fails because a stream refuses. -/
theorem Deed.refused_of_fails {m : Machine} {x : Deed} {e : Failure} (hx : x.finds = false)
    (h : x.Fails m e) : Refused e := by
  cases x with
  | operate op hop => exact Peripherals.refused_of_operation hop hx h
  | write t | format pieces v => exact h
  | _ => exact h.elim

/-- A plan that finds no files fails because a stream refuses. -/
theorem refused_of_fails {m : Machine} {p : Plan} {e : Failure}
    (hp : p.Every fun x => x.finds = false) (h : p.Fails m e) : Refused e := by
  induction p with
  | word a next ih =>
    obtain ⟨v, -, hv⟩ := h
    exact ih v (hp v) hv
  | byte b next ih =>
    obtain ⟨c, -, hc⟩ := h
    exact ih c (hp c) hc
  | string a next ih =>
    obtain ⟨t, -, ht⟩ := h
    exact ih t (hp t) ht
  | registers next ih => exact ih m.registers (hp m.registers) h
  | perform x => exact Deed.refused_of_fails hp h
  | answer x => exact Deed.refused_of_fails hp h

section Meets

open Memory

variable {α : Type} {size : Nat} {spans : List Span} {other : Failure → Prop} {m : Machine}
  {args : Int}

/-- The outcome of an action on the memory. -/
theorem outcome_onMemory (x : Action Memory α) (m : Machine) :
    (onMemory x).outcome m = x.outcome m.memory := by
  rw [Action.outcome, Action.outcome, onMemory_apply]
  cases x m.memory <;> rfl

/-- The outcome of an action on the peripherals. -/
theorem outcome_onPeripherals (x : Action Peripherals α) (m : Machine) :
    (onPeripherals x).outcome m = x.outcome m.peripherals := by
  rw [Action.outcome, Action.outcome, onPeripherals_apply]
  cases x m.peripherals <;> rfl

/-- Streams are not in the memory. -/
theorem meets_onPeripherals {x : Action Peripherals α}
    (hx : ∀ e q, x m.peripherals = .error e q → other e) :
    Meets size [] other ((onPeripherals x).outcome m) := by
  rw [outcome_onPeripherals, Action.outcome]
  cases hrun : x m.peripherals with
  | ok a q => exact meets_ok a
  | error e q => exact .other (hx e q hrun)

/-- Storing a word before something else is done. -/
theorem meets_store_bind {a : Int} (ha : Near a) (v : Cell) {f : Unit → Action Machine α}
    (hsize : m.memory.size = size)
    (hf : ∀ m' : Machine, m'.memory.size = size → Meets size spans other ((f ()).outcome m')) :
    Meets size (.word a :: spans) other ((onMemory (setWord a v) >>= f).outcome m) := by
  have hstore : Meets size [.word a] other ((onMemory (setWord a v)).outcome m) := by
    rw [outcome_onMemory]
    exact meets_setWord hsize ha v
  refine hstore.actions fun _ m' hrun => hf m' ?_
  have hconfined : Confined m ((onMemory (setWord a v)).final m) :=
    confined_onMemory (sameSize_setWord a v) m
  rw [Action.final, hrun] at hconfined
  exact hconfined.size.trans hsize

/-- Writing a text. -/
theorem meets_writeText (hother : ∀ e, Refused e → other e) (t : Text) :
    Meets size [] other ((onPeripherals (Peripherals.writeText t)).outcome m) :=
  meets_onPeripherals fun _ _ h => hother _ (Peripherals.refused_of_writeText h)

/-- Looking at the argument of a piece of a format. -/
theorem meets_pieceText {memory : Memory} {v : Int} (hv : Near v) (piece : FormatPiece) :
    Meets memory.size (memory.pieceSpans v piece) other (pieceText memory v piece) := by
  cases piece with
  | literal c => exact meets_ok _
  | string =>
    refine (meets_word hv).bind fun w hw => ?_
    obtain rfl := word_eq_ok hv hw
    exact (meets_string _).bind_ok fun _ => ⟨_, rfl⟩
  | character => exact (meets_word hv).bind_ok fun _ => ⟨_, rfl⟩
  | number conversion width => exact (meets_word hv).bind_ok fun _ => ⟨_, rfl⟩

/-- The address of the next argument. -/
theorem pieceText_next {memory : Memory} {v : Int} {piece : FormatPiece} {r : Text × Int}
    (h : pieceText memory v piece = .ok r) : r.2 = piece.after v := by
  cases piece with
  | literal c =>
    cases h
    rfl
  | string =>
    obtain ⟨w, -, hw⟩ := exists_of_bind_eq_ok h
    obtain ⟨t, -, ht⟩ := exists_of_bind_eq_ok hw
    cases ht
    rfl
  | character | number =>
    obtain ⟨w, -, hw⟩ := exists_of_bind_eq_ok h
    cases hw
    rfl

/-- The outcome of what fails if there is a failure. -/
def outcomeOf : Option Failure → Except Failure Unit
  | none => .ok ()
  | some e => .error e

/-- The failure of a format is that of its first piece, or else that of the others. -/
theorem outcomeOf_formatText (memory : Memory) (piece : FormatPiece) (pieces : List FormatPiece)
    (v : Int) : outcomeOf (formatText memory (piece :: pieces) v).2 =
      pieceText memory v piece >>= fun r => outcomeOf (formatText memory pieces r.2).2 := by
  rw [formatText]
  cases pieceText memory v piece <;> rfl

/-- Looking at the arguments of a format. -/
theorem meets_formatText {memory : Memory} {pieces : List FormatPiece} {v : Int}
    (hv : 0 ≤ v ∧ v + pieces.length ≤ 0x1000000) :
    Meets memory.size (memory.formatSpans pieces v) other
      (outcomeOf (formatText memory pieces v).2) := by
  induction pieces generalizing v with
  | nil => exact meets_ok ()
  | cons piece pieces ih =>
    rw [List.length_cons] at hv
    rw [outcomeOf_formatText]
    refine (meets_pieceText ⟨by omega, by omega⟩ piece).bind fun r hr => ?_
    rw [pieceText_next hr]
    have hafter : piece.after v = v ∨ piece.after v = v + 1 := by
      cases piece <;> simp [FormatPiece.after]
    exact ih (by omega)

/-- Writing a text before a failure. -/
theorem meets_writeThen (hother : ∀ e, Refused e → other e) (t : Text) {failure : Option Failure}
    (hfailure : Meets size spans other (outcomeOf failure)) :
    Meets size spans other ((onPeripherals (writeThen t failure)).outcome m) := by
  have hwrite := @meets_writeText size other m hother t
  rw [outcome_onPeripherals] at hwrite ⊢
  have hsplit : writeThen t failure =
      Peripherals.writeText t >>= fun _ => Action.read fun _ => outcomeOf failure := by
    cases failure with
    | none => exact (bind_pure_unit).symm
    | some e => rfl
  rw [hsplit]
  refine hwrite.actions fun _ q _ => ?_
  rw [Action.outcome_read]
  exact hfailure

/-- Calling a routine with a vector. -/
theorem meets_applyToVector (hargs : 0 ≤ args ∧ args ≤ 65537) :
    Meets m.memory.size (m.memory.callSpans args .applyToVector) other
      ((applyToVector args).outcome m) := by
  have hfirst : Near args := ⟨by omega, by omega⟩
  have hsecond : Near (args + 1) := ⟨by omega, by omega⟩
  refine meets_word_bind hsecond (by rfl) ?_
  have hframe := (Cell.ofInt (args - 2) + m.memory.fetch (args + 1) + 1).address_bounds
  generalize Cell.ofInt (args - 2) + m.memory.fetch (args + 1) + 1 = frame at hframe ⊢
  refine meets_store_bind ⟨by omega, by omega⟩ _ rfl fun m₁ h₁ => ?_
  refine meets_store_bind ⟨by omega, by omega⟩ _ h₁ fun m₂ h₂ => ?_
  refine meets_store_bind ⟨by omega, by omega⟩ _ h₂ fun m₃ h₃ => ?_
  refine meets_store_bind ⟨by omega, by omega⟩ _ h₃ fun m₄ h₄ => ?_
  rw [← h₄]
  exact meets_word_bind hfirst (by rfl) (meets_ok ())

/-- Reading a number. -/
theorem meets_readNumber :
    Meets m.memory.size [.word terminatorGlobal] other (readNumber.outcome m) := by
  obtain ⟨r, q, hread⟩ := m.peripherals.readNumber_ok
  have hstore : readNumber.outcome m =
      (onMemory (setWord terminatorGlobal r.2) >>= fun _ => pure r.1 : Action Machine Cell).outcome
        { m with peripherals := q } := by
    simp only [readNumber, Action.outcome, Action.bind_apply, onPeripherals_apply, hread]
  rw [hstore]
  refine Meets.actions_ok ?_ fun _ _ => ⟨_, _, rfl⟩
  rw [outcome_onMemory]
  exact meets_setWord rfl ⟨by decide, by decide⟩ _

/-- Finding a file is looking at its name and then using the streams. -/
theorem find_apply {find : Text → Action Peripherals Cell} {v : Cell} {name : Text}
    (hv : m.memory.word args = .ok v) (hname : m.memory.string v.address = .ok name) :
    withFirst (findBy find) args m = (onPeripherals (find name) >>= setA) m := by
  have hfirst : withFirst (findBy find) args m = findBy find v m :=
    Action.read_bind_apply (f := fun m : Machine => m.memory.word args) hv _
  have hsecond : findBy find v m = (onPeripherals (find name) >>= setA) m :=
    Action.read_bind_apply (f := fun m : Machine => m.memory.string v.address) hname _
  rw [hfirst, hsecond]

/-- A file that is not found because of the streams fails the call. -/
theorem outcome_find_of_error {find : Text → Action Peripherals Cell} {v : Cell} {name : Text}
    {e : Failure} (hv : m.memory.word args = .ok v) (hname : m.memory.string v.address = .ok name)
    (hfind : (find name).outcome m.peripherals = .error e) :
    (withFirst (findBy find) args).outcome m = .error e := by
  rw [Action.outcome, find_apply hv hname]
  refine Action.outcome_bind_of_error ?_ setA
  rw [outcome_onPeripherals]
  exact hfind

/-- A call that finds a file makes no access outside the memory. -/
theorem Exhausts.inside (hargs : 0 ≤ args ∧ args ≤ 65537) {call : SystemCall}
    (h : m.Exhausts args call) : ∀ s ∈ m.memory.callSpans args call, s.Inside m.memory.size := by
  have hfirst : Near args := ⟨by omega, by omega⟩
  obtain ⟨v, name, hv, hname, hfile, -⟩ := h
  have hword : Meets m.memory.size [.word args] (fun _ => False) (m.memory.word args) :=
    meets_word hfirst
  have hstring : Meets m.memory.size (m.memory.stringSpans v.address) (fun _ => False)
      (m.memory.string v.address) := meets_string v
  rw [hv] at hword
  rw [hname] at hstring
  obtain rfl := word_eq_ok hfirst hv
  have hspans : m.memory.callSpans args call =
      [.word args] ++ m.memory.stringSpans (m.memory.fetch args).address := by
    cases call with
    | findInput | findOutput => rfl
    | _ => exact hfile.elim
  intro s hs
  rw [hspans] at hs
  rcases List.mem_append.mp hs with hs | hs
  · exact hword.inside s hs
  · exact hstring.inside s hs

/-- What a call does fails at its accesses, or for the other reasons. -/
theorem meets_deed {x : Deed} (hx : x.Near) (hother : ∀ e, x.Fails m e → other e) :
    Meets m.memory.size (x.spans m.memory) other (x.perform.outcome m) := by
  cases x with
  | give v => exact meets_ok v
  | operate op hop =>
    exact meets_onPeripherals fun e q hrun => hother e (Action.outcome_eq_error_iff.mpr ⟨q, hrun⟩)
  | write t => exact (meets_writeText hother t).actions_ok fun _ _ => ⟨_, _, rfl⟩
  | format pieces v =>
    refine Meets.actions_ok ?_ fun _ _ => ⟨_, _, rfl⟩
    rw [Action.outcome, writePieces_eq]
    exact meets_writeThen hother _ (meets_formatText hx)
  | readNumber => exact meets_readNumber
  | setByte b c =>
    refine Meets.actions_ok ?_ fun _ _ => ⟨_, _, rfl⟩
    rw [outcome_onMemory]
    exact meets_setByte rfl hx c
  | pack v s =>
    rw [Deed.perform, outcome_onMemory]
    exact meets_pack v s
  | unpack s v =>
    refine Meets.actions_ok ?_ fun _ _ => ⟨_, _, rfl⟩
    rw [outcome_onMemory]
    exact meets_unpack s v
  | stop result => exact meets_ok _
  | jump frame label => exact meets_ok _
  | apply args => exact (meets_applyToVector hx).actions_ok fun _ _ => ⟨_, _, rfl⟩

/-- A plan fails at its accesses, or for the other reasons. -/
theorem meets_plan {p : Plan} (hp : p.Near m) (hother : ∀ e, p.Fails m e → other e) :
    Meets m.memory.size (p.spans m) other (p.run.outcome m) := by
  induction p with
  | word a next ih =>
    refine Meets.read_bind (f := fun m : Machine => m.memory.word a) (meets_word hp.1)
      fun v hv => ?_
    obtain rfl := word_eq_ok hp.1 hv
    exact ih _ hp.2 fun e he => hother e ⟨_, hv, he⟩
  | byte b next ih =>
    refine Meets.read_bind (f := fun m : Machine => m.memory.byte b) (meets_byte hp.1)
      fun c hc => ?_
    obtain ⟨rfl, -⟩ := byte_eq_ok hp.1 hc
    exact ih _ hp.2 fun e he => hother e ⟨_, hc, he⟩
  | string a next ih =>
    refine Meets.read_bind (f := fun m : Machine => m.memory.string a.address) (meets_string a)
      fun t ht => ?_
    have htext : m.memory.text a.address = t := by
      rw [text, ht]
      rfl
    subst htext
    exact ih _ hp fun e he => hother e ⟨_, ht, he⟩
  | registers next ih => exact ih m.registers hp hother
  | perform x => exact (meets_deed hp hother).actions_ok fun _ _ => ⟨_, _, rfl⟩
  | answer x => exact (meets_deed hp hother).actions_ok fun _ _ => ⟨_, _, rfl⟩

/-- The plan of a call has the accesses that the call is said to have. -/
theorem spans_callPlan (args : Int) (call : SystemCall) (m : Machine) :
    (callPlan args call).spans m = m.memory.callSpans args call := by
  cases call <;> rfl

/-- Calls with near arguments make near accesses. -/
theorem near_callPlan (hargs : 0 ≤ args ∧ args ≤ 65537) (call : SystemCall) (m : Machine) :
    (callPlan args call).Near m := by
  have hfirst : Near args := ⟨by omega, by omega⟩
  have hsecond : Near (args + 1) := ⟨by omega, by omega⟩
  have hthird : Near (args + 2) := ⟨by omega, by omega⟩
  have hbyte (v w : Cell) : Near (vectorByte v w) := by
    have hv := v.address_bounds
    have hlow := w.le_toInt
    have hhigh := w.toInt_lt
    exact ⟨by unfold vectorByte; omega, by unfold vectorByte; omega⟩
  cases call with
  | selectInput | selectOutput | writeCharacter | stop | findOutput | findInput | writeString
  | writeNumber => exact ⟨hfirst, trivial⟩
  | longJump | packString | unpackString | writeDecimal | writeHex | writeOctal =>
    exact ⟨hfirst, hsecond, trivial⟩
  | applyToVector => exact hargs
  | writeFormat =>
    have hlength := m.memory.length_text_le (m.memory.fetch args).address
    have hpieces := FormatPiece.length_scan_le .plain
      (m.memory.text (m.memory.fetch args).address)
    refine ⟨hfirst, by omega, ?_⟩
    rw [FormatPiece.ofText]
    omega
  | getByte => exact ⟨hfirst, hsecond, hbyte _ _, trivial⟩
  | putByte => exact ⟨hfirst, hsecond, hthird, hbyte _ _⟩
  | _ => trivial

/-- Calls but two find no files. -/
theorem findless_callPlan {call : SystemCall} (hinput : call ≠ .findInput)
    (houtput : call ≠ .findOutput) (args : Int) :
    (callPlan args call).Every fun x => x.finds = false := by
  cases call with
  | findInput => exact absurd rfl hinput
  | findOutput => exact absurd rfl houtput
  | _ => simp [callPlan, callPlan.number, Plan.Every, Deed.finds, StreamOperation.finds]

/-- A call fails without an access outside the memory for the reasons that it is said to have. -/
theorem callFails_of_callPlan {call : SystemCall} {e : Failure}
    (h : (callPlan args call).Fails m e) : m.CallFails args call e := by
  by_cases hinput : call = .findInput
  · subst hinput
    obtain ⟨v, hv, name, hname, hfind⟩ := h
    obtain ⟨rfl, hfile, hfull⟩ := Peripherals.outcome_findInput_eq_error_iff.mp hfind
    exact .inr ⟨rfl, v, name, hv, hname, hfile, hfull⟩
  · by_cases houtput : call = .findOutput
    · subst houtput
      obtain ⟨v, hv, name, hname, hfind⟩ := h
      obtain ⟨rfl, hfile, hfull⟩ := Peripherals.outcome_findOutput_eq_error_iff.mp hfind
      exact .inr ⟨rfl, v, name, hv, hname, hfile, hfull⟩
    · exact .inl (refused_of_fails (findless_callPlan hinput houtput args) h)

/-- The built-in calls fail at the accesses in their lists, or for the other reasons. -/
theorem meets_builtIn {call : SystemCall} {handler : Handler} (hcall : builtIn? call = some handler)
    (hargs : 0 ≤ args ∧ args ≤ 65537) :
    Meets m.memory.size (m.memory.callSpans args call) (m.CallFails args call)
      ((handler args).outcome m) := by
  rw [handler_eq_run hcall, ← spans_callPlan]
  exact meets_plan (near_callPlan hargs call m) fun _ => callFails_of_callPlan

end Meets

/-- The accesses of the system call with the given code. -/
def systemSpans (m : Machine) (code : Cell) (args : Int) : List Span :=
  match SystemCall.ofCell? code with
  | some call => m.memory.callSpans args call
  | none => []

/-- The accesses of the extended operation with the given number. -/
def operateSpans (m : Machine) (x : Cell) : List Span :=
  match Operation.ofCell? x with
  | some .dereference => [.word m.a.address]
  | some .leave => [.word (m.sp.plus 1).address, .word m.sp.address]
  | some .switch => m.memory.tableSpans m.pc
  | _ => []

/-- The accesses of a function with its effective operand. -/
def executeSpans (m : Machine) (d : Cell) : Function → List Span
  | .store => [.word d.address]
  | .call =>
    let frame := (d.plus m.sp).address
    if m.a.signed < codeStart then m.systemSpans m.a (frame + 2)
    else [.word frame, .word (frame + 1)]
  | .operate => m.operateSpans d
  | _ => []

/-- Why a function with its effective operand fails without an access outside the memory. -/
inductive ExecuteFails (m : Machine) (d : Cell) : Function → Failure → Prop
  | operation (hnone : Operation.ofCell? d = none) :
      ExecuteFails m d .operate (.report (.fatal .unknownOperation d.toInt))
  | unknown (hbelow : m.a.signed < codeStart)
      (hnone : (SystemCall.ofCell? m.a).bind builtIn? = none) :
      ExecuteFails m d .call (.report (.fatal .unknownCall m.a.toInt))
  | call {call : SystemCall} {e : Failure} (hbelow : m.a.signed < codeStart)
      (hcode : SystemCall.ofCell? m.a = some call)
      (hfails : m.CallFails ((d.plus m.sp).address + 2) call e) : ExecuteFails m d .call e

section Execute

open Memory

variable {m : Machine}

/-- A call without a handler is unknown. -/
theorem systemCall_of_unknown {code : Cell} (hnone : (SystemCall.ofCell? code).bind builtIn? = none)
    (args : Int) : systemCall {} code args = Action.fail (.fatal .unknownCall code.toInt) := by
  have hbound : (({} : Bindings).get? code <|> (SystemCall.ofCell? code).bind builtIn?) =
      (SystemCall.ofCell? code).bind builtIn? := rfl
  unfold systemCall
  rw [hbound, hnone]

/-- A call without a handler makes no accesses. -/
theorem systemSpans_of_unknown {code : Cell}
    (hnone : (SystemCall.ofCell? code).bind builtIn? = none) (args : Int) :
    m.systemSpans code args = [] := by
  unfold systemSpans
  cases hcode : SystemCall.ofCell? code with
  | none => rfl
  | some call =>
    rw [hcode] at hnone
    cases call <;> first | rfl | cases hnone

/-- Extended operations fail at the accesses in their lists, or because they are unknown. -/
theorem meets_operate (hpc : 0 ≤ m.pc ∧ m.pc ≤ 0x20000) (x : Cell) :
    Meets m.memory.size (m.operateSpans x) (m.ExecuteFails x .operate) ((operate x).outcome m) := by
  have hnear (c : Cell) : Near c.address := by
    have hc := c.address_bounds
    exact ⟨by omega, by omega⟩
  unfold operate operateSpans
  cases hx : Operation.ofCell? x with
  | none => exact .other (.operation hx)
  | some op =>
    cases op with
    | dereference =>
      rw [Action.outcome_get_bind]
      exact meets_word_bind (hnear m.a) (by rfl) (meets_ok _)
    | leave =>
      unfold leave
      rw [Action.outcome_get_bind]
      exact meets_word_bind (hnear _) (by rfl) (meets_word_bind (hnear m.sp) (by rfl) (meets_ok _))
    | switch =>
      rw [← List.append_nil (m.memory.tableSpans m.pc)]
      exact Meets.read_bind (f := fun m : Machine => Switch.ofMemory m.memory m.pc)
        (meets_switch hpc) fun _ _ => meets_ok _
    | _ => exact meets_ok _

/-- Functions fail at the accesses in their lists, or for the other reasons. -/
theorem meets_execute (hpc : 0 ≤ m.pc ∧ m.pc ≤ 0x20000) (f : Function) (d : Cell) :
    Meets m.memory.size (m.executeSpans d f) (m.ExecuteFails d f) ((execute {} f d).outcome m) := by
  cases f with
  | load | add | jump | jumpTrue | jumpFalse => exact meets_ok _
  | store =>
    have hd := d.address_bounds
    rw [execute, Action.outcome_get_bind, outcome_onMemory]
    exact meets_setWord rfl ⟨by omega, by omega⟩ m.a
  | operate => exact meets_operate hpc d
  | call =>
    have hframe := (d.plus m.sp).address_bounds
    rw [Action.outcome, call_apply, executeSpans]
    by_cases hbelow : m.a.signed < codeStart
    · rw [if_pos hbelow, if_pos hbelow]
      unfold systemSpans
      rcases systemCall_cases m.a ((d.plus m.sp).address + 2) with
        ⟨call, handler, hcode, hcall, hserve⟩ | ⟨hnone, -⟩
      · rw [hcode, hserve]
        exact (meets_builtIn hcall ⟨by omega, by omega⟩).mono fun e => .call hbelow hcode
      · rw [systemCall_of_unknown hnone]
        exact .other (.unknown hbelow hnone)
    · rw [if_neg hbelow, if_neg hbelow]
      refine meets_store_bind ⟨by omega, by omega⟩ _ rfl fun m' hsize => ?_
      exact meets_store_bind ⟨by omega, by omega⟩ _ hsize fun _ _ => meets_ok _

end Execute

end Machine

end Intcode
