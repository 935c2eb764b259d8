import Intcode.Machine.BuiltIn
import Intcode.Proofs.Machine.Format
import Intcode.Proofs.Streams.Moves

/-!
# How the built-in calls are put together

A built-in call looks at words, bytes and strings in the memory and at a few registers,
and then it does one thing, whose result may go to the accumulator. This file writes
every built-in call down in this form. What holds of all the ways to look at something
and of all the things to be done then holds of all calls.

Main statement: the handlers of the machine do what these plans say.
-/

namespace Intcode

/-- The operations on streams that calls are made of. The others are for the host. -/
def StreamOperation.isCall : StreamOperation → Bool
  | .close _ | .flush | .note _ => false
  | _ => true

namespace Machine

/-- The registers that calls look at. -/
structure Registers where
  input : Cell
  output : Cell
  sp : Cell

/-- What calls see of the registers of a machine. -/
def registers (m : Machine) : Registers := ⟨m.peripherals.input, m.peripherals.output, m.sp⟩

/-- What a call does once it has seen its arguments. -/
inductive Deed where
  /-- Nothing, with the given result. -/
  | give (v : Cell)
  | operate (op : StreamOperation) (hop : op.isCall = true)
  | write (t : Text)
  /-- Writes the pieces of a format, with arguments from an address on. -/
  | format (pieces : List FormatPiece) (v : Int)
  | readNumber
  | setByte (b : Int) (c : UInt8)
  | pack (v s : Cell)
  | unpack (s v : Cell)
  | stop (result : Cell)
  | jump (frame label : Cell)
  /-- Calls a routine with a vector. The arguments are at an address. -/
  | apply (args : Int)

/-- Does something. The result is 0 if there is none. -/
def Deed.perform : Deed → Action Machine Cell
  | give v => pure v
  | operate op _ => onPeripherals op.action
  | write t => do onPeripherals (Peripherals.writeText t); return 0
  | format pieces v => do writePieces pieces v; return 0
  | readNumber => Machine.readNumber
  | setByte b c => do onMemory (Memory.setByte b c); return 0
  | pack v s => onMemory (Memory.pack v.address s.address)
  | unpack s v => do onMemory (Memory.unpack s.address v.address); return 0
  | stop result => do Machine.stop result; return 0
  | jump frame label => do longJump frame label; return 0
  | apply args => do applyToVector args; return 0

/-- What a call looks at, and what it does then. -/
inductive Plan where
  | word (a : Int) (next : Cell → Plan)
  | byte (b : Int) (next : UInt8 → Plan)
  | string (a : Cell) (next : Text → Plan)
  | registers (next : Registers → Plan)
  | perform (x : Deed)
  /-- Does something and puts the result into the accumulator. -/
  | answer (x : Deed)

namespace Plan

/-- Carries out a plan. -/
def run : Plan → Action Machine Unit
  | word a next => do (next (← Machine.word a)).run
  | byte b next => do (next (← Action.read (·.memory.byte b))).run
  | string a next => do (next (← Action.read (·.memory.string a.address))).run
  | registers next => do (next (← get).registers).run
  | perform x => do let _ ← x.perform
  | answer x => do setA (← x.perform)

/-- Whatever a plan comes to do has a property. -/
def Every (P : Deed → Prop) : Plan → Prop
  | word _ next => ∀ v, (next v).Every P
  | byte _ next => ∀ c, (next c).Every P
  | string _ next => ∀ t, (next t).Every P
  | registers next => ∀ r, (next r).Every P
  | perform x | answer x => P x

/-- What follows from a property of all that a plan comes to do. -/
theorem Every.imp {P Q : Deed → Prop} {p : Plan} (hp : p.Every P) (h : ∀ x, P x → Q x) :
    p.Every Q := by
  induction p with
  | word a next ih => exact fun v => ih v (hp v)
  | byte b next ih => exact fun c => ih c (hp c)
  | string a next ih => exact fun t => ih t (hp t)
  | registers next ih => exact fun r => ih r (hp r)
  | perform x => exact h x hp
  | answer x => exact h x hp

/-- What holds of all deeds holds of those of a plan. -/
theorem every_of_forall {P : Deed → Prop} (hP : ∀ x, P x) (p : Plan) : p.Every P := by
  induction p with
  | word a next ih => exact ih
  | byte b next ih => exact ih
  | string a next ih => exact ih
  | registers next ih => exact ih
  | perform x => exact hP x
  | answer x => exact hP x

/-- A plan keeps what its deeds and setting the accumulator keep. -/
theorem stays {R : Machine → Machine → Prop} [Std.Refl R] [Trans R R R] {p : Plan}
    (hset : ∀ v, Action.Stays R (setA v)) (hp : p.Every fun x => Action.Stays R x.perform) :
    Action.Stays R p.run := by
  induction p with
  | word a next ih => exact (Action.stays_read _).bind fun v => ih v (hp v)
  | byte b next ih => exact (Action.stays_read _).bind fun c => ih c (hp c)
  | string a next ih => exact (Action.stays_read _).bind fun t => ih t (hp t)
  | registers next ih => exact Action.stays_get_bind fun m => ih m.registers (hp m.registers)
  | perform x => exact Action.Stays.bind hp fun _ => Action.stays_pure ()
  | answer x => exact Action.Stays.bind hp hset

end Plan

/-- The plan of a call with arguments from an address on. Calls that the machine does not serve have
nothing to do. -/
def callPlan (args : Int) : SystemCall → Plan
  | .selectInput => .word args fun h => .perform (.operate (.selectInput h) rfl)
  | .selectOutput => .word args fun h => .perform (.operate (.selectOutput h) rfl)
  | .readCharacter => .answer (.operate .read rfl)
  | .writeCharacter => .word args fun c => .perform (.operate (.write c.low) rfl)
  | .input => .registers fun r => .answer (.give r.input)
  | .output => .registers fun r => .answer (.give r.output)
  | .stop => .word args fun result => .perform (.stop result)
  | .level => .registers fun r => .answer (.give r.sp)
  | .longJump =>
    .word args fun frame => .word (args + 1) fun label => .perform (.jump frame label)
  | .applyToVector => .perform (.apply args)
  | .findOutput =>
    .word args fun s => .string s fun t => .answer (.operate (.findOutput t) rfl)
  | .findInput =>
    .word args fun s => .string s fun t => .answer (.operate (.findInput t) rfl)
  | .endRead => .perform (.operate .endRead rfl)
  | .endWrite => .perform (.operate .endWrite rfl)
  | .writeString => .word args fun s => .string s fun t => .perform (.write t)
  | .writeNumber => .word args fun n => .perform (.write (Conversion.decimal.render 0 n).toText)
  | .newline => .perform (.operate .newline rfl)
  | .newpage => .perform (.operate (.write 12) rfl)
  | .packString => .word args fun v => .word (args + 1) fun s => .answer (.pack v s)
  | .unpackString => .word args fun s => .word (args + 1) fun v => .perform (.unpack s v)
  | .writeDecimal => number .decimal
  | .readNumber => .answer .readNumber
  | .writeHex => number .hex
  | .writeFormat =>
    .word args fun f => .string f fun t => .perform (.format (FormatPiece.ofText t) (args + 1))
  | .writeOctal => number .octal
  | .getByte =>
    .word args fun vector => .word (args + 1) fun k => .byte (vectorByte vector k) fun c =>
      .answer (.give (.ofByte c))
  | .putByte =>
    .word args fun vector => .word (args + 1) fun k => .word (args + 2) fun c =>
      .perform (.setByte (vectorByte vector k) c.low)
  | _ => .perform (.give 0)
where
  /-- The plan of a call that writes a number in a width. -/
  number (conversion : Conversion) : Plan :=
    .word args fun n => .word (args + 1) fun width =>
      .perform (.write (conversion.render width.toInt n).toText)

/-- The result of an action on the peripherals may be forgotten. -/
theorem forget_onPeripherals (x : Action Peripherals Unit) :
    (do let _ ← onPeripherals (do x; return (0 : Cell))) = onPeripherals x := by
  funext m
  simp only [Action.bind_apply, onPeripherals_apply]
  cases x m.peripherals <;> rfl

/-- The result of an action may be forgotten. -/
theorem forget_return (x : Action Machine Unit) :
    (do let _ ← (do x; return (0 : Cell))) = x := by
  simp only [bind_assoc, pure_bind, bind_pure_unit]

/-- The handler of a call carries out its plan. -/
theorem handler_eq_run {call : SystemCall} {handler : Handler}
    (hcall : builtIn? call = some handler) (args : Int) :
    handler args = (callPlan args call).run := by
  cases call with
  | endRead | endWrite | newline | newpage =>
    cases hcall
    exact (forget_onPeripherals _).symm
  | applyToVector =>
    cases hcall
    exact (forget_return _).symm
  | selectInput | selectOutput | writeCharacter =>
    cases hcall
    simp only [callPlan, Plan.run, Deed.perform, StreamOperation.action, forget_onPeripherals]
    rfl
  | stop | longJump | unpackString | writeFormat | putByte =>
    cases hcall
    simp only [callPlan, Plan.run, Deed.perform, forget_return]
    rfl
  | writeString | writeNumber | writeDecimal | writeHex | writeOctal =>
    cases hcall
    simp only [callPlan, callPlan.number, Plan.run, Deed.perform, forget_return, ← writeNumber_eq]
    rfl
  | start | abort | backtrace | readCharacter | input | output | level | findOutput | findInput
  | packString | readNumber | getByte =>
    cases hcall
    rfl
  | _ => cases hcall

end Machine

end Intcode
