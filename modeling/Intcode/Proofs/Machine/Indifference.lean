import Intcode.Proofs.Machine.Steps

/-!
# What programs cannot tell apart

A relation between machines may say that they differ in something that no instruction
looks at. It is enough that the operations on streams cannot tell related peripherals
apart, that related machines have the same memory and registers, and that they stay
related when these are set to the same values.

Main statement: then no instruction and no system call can tell related machines apart,
and neither can a run.
-/

namespace Intcode

open Action

/-- No operation on streams can tell related peripherals apart. -/
structure Peripherals.BlindTo (P : Peripherals → Peripherals → Prop) : Prop where
  input {p q : Peripherals} (h : P p q) : p.input = q.input
  output {p q : Peripherals} (h : P p q) : p.output = q.output
  traced {p q : Peripherals} (h : P p q) (e : Event) : P (p.traced e) (q.traced e)
  flush {p q : Peripherals} (h : P p q) : p.flushError = q.flushError ∧ P p.flushed q.flushed
  selectInput (k : Cell) : Respects P (selectInput k)
  selectOutput (k : Cell) : Respects P (selectOutput k)
  readCharacter : Respects P readCharacter
  readNumber : Respects P readNumber
  writeCharacter (c : UInt8) : Respects P (writeCharacter c)
  newline : Respects P newline
  findInput (name : Text) : Respects P (findInput name)
  findOutput (name : Text) : Respects P (findOutput name)
  endRead : Respects P endRead
  endWrite : Respects P endWrite

/-- Writing a text cannot tell related peripherals apart. -/
theorem Peripherals.BlindTo.writeText {P : Peripherals → Peripherals → Prop}
    (hP : Peripherals.BlindTo P) (t : Text) : Respects P (Peripherals.writeText t) := by
  induction t with
  | nil => exact respects_pure ()
  | cons c t ih => exact (hP.writeCharacter c).bind fun _ => ih

/-- No operation that calls are made of can tell related peripherals apart. -/
theorem Peripherals.BlindTo.operation {P : Peripherals → Peripherals → Prop}
    (hP : Peripherals.BlindTo P) {op : StreamOperation} (hop : op.isCall = true) :
    Respects P op.action := by
  cases op with
  | findInput name => exact hP.findInput name
  | findOutput name => exact hP.findOutput name
  | selectInput k => exact (hP.selectInput k).bind fun _ => respects_pure _
  | selectOutput k => exact (hP.selectOutput k).bind fun _ => respects_pure _
  | read => exact hP.readCharacter
  | write c => exact (hP.writeCharacter c).bind fun _ => respects_pure _
  | newline => exact hP.newline.bind fun _ => respects_pure _
  | endRead => exact hP.endRead.bind fun _ => respects_pure _
  | endWrite => exact hP.endWrite.bind fun _ => respects_pure _
  | close | flush | note => cases hop

/-- No handler can tell related machines apart. -/
def Bindings.BlindTo (R : Machine → Machine → Prop) (b : Bindings) : Prop :=
  ∀ code handler, b.get? code = some handler → ∀ args, Respects R (handler args)

namespace Machine

/-- Related machines agree in what instructions look at, and stay related when that is set to the
same values. -/
structure BlindTo (P : Peripherals → Peripherals → Prop) (R : Machine → Machine → Prop) : Prop where
  streams : Peripherals.BlindTo P
  memory {m m' : Machine} (h : R m m') : m.memory = m'.memory
  pc {m m' : Machine} (h : R m m') : m.pc = m'.pc
  sp {m m' : Machine} (h : R m m') : m.sp = m'.sp
  a {m m' : Machine} (h : R m m') : m.a = m'.a
  b {m m' : Machine} (h : R m m') : m.b = m'.b
  instructions {m m' : Machine} (h : R m m') : m.instructions = m'.instructions
  verdict {m m' : Machine} (h : R m m') : m.verdict = m'.verdict
  peripherals {m m' : Machine} (h : R m m') : P m.peripherals m'.peripherals
  setMemory {m m' : Machine} (h : R m m') {x x' : Memory} (hx : x = x') :
    R { m with memory := x } { m' with memory := x' }
  setPc {m m' : Machine} (h : R m m') {v v' : Int} (hv : v = v') :
    R { m with pc := v } { m' with pc := v' }
  setSp {m m' : Machine} (h : R m m') {v v' : Cell} (hv : v = v') :
    R { m with sp := v } { m' with sp := v' }
  setA {m m' : Machine} (h : R m m') {v v' : Cell} (hv : v = v') :
    R { m with a := v } { m' with a := v' }
  setB {m m' : Machine} (h : R m m') {v v' : Cell} (hv : v = v') :
    R { m with b := v } { m' with b := v' }
  setInstructions {m m' : Machine} (h : R m m') {n n' : Nat} (hn : n = n') :
    R { m with instructions := n } { m' with instructions := n' }
  stop {m m' : Machine} (h : R m m') (result : Cell) :
    R { m with stopped := true, result } { m' with stopped := true, result }
  setPeripherals {m m' : Machine} (h : R m m') {p p' : Peripherals} (hp : P p p') :
    R { m with peripherals := p } { m' with peripherals := p' }

namespace BlindTo

variable {P : Peripherals → Peripherals → Prop} {R : Machine → Machine → Prop} {α : Type}

section Actions

variable (hR : BlindTo P R)

include hR

/-- Related machines stay related when the program counter and the frame base are set. -/
theorem setFrame {m m' : Machine} (h : R m m') (pc : Int) (sp : Cell) :
    R { m with pc, sp } { m' with pc, sp } :=
  hR.setSp (hR.setPc h (rfl : pc = pc)) (rfl : sp = sp)

/-- What cannot tell related peripherals apart cannot tell related machines apart. -/
theorem respects_onPeripherals {x : Action Peripherals α} (hx : Respects P x) :
    Respects R (onPeripherals x) := by
  intro m m' h
  have hagree := hx _ _ (hR.peripherals h)
  rw [onPeripherals_apply, onPeripherals_apply]
  generalize x m.peripherals = r, x m'.peripherals = r' at hagree
  cases hagree with
  | ok a h' => exact .ok a (hR.setPeripherals h h')
  | error e h' => exact .error e (hR.setPeripherals h h')

/-- Related machines do the same to their memories. -/
theorem respects_onMemory (x : Action Memory α) : Respects R (onMemory x) := by
  intro m m' h
  simp only [onMemory, Action.on, hR.memory h]
  cases x m'.memory with
  | ok a memory => exact .ok a (hR.setMemory h rfl)
  | error e memory => exact .error e (hR.setMemory h rfl)

/-- Related machines read the same from their memories. -/
theorem respects_readMemory (f : Memory → Except Failure α) :
    Respects R (Action.read fun m : Machine => f m.memory) :=
  respects_read fun _ _ h => congrArg f (hR.memory h)

/-- Related machines have the same words. -/
theorem respects_word (v : Int) : Respects R (word v) := hR.respects_readMemory (·.word v)

/-- Setting the accumulator keeps machines related. -/
theorem respects_setA (v : Cell) : Respects R (Machine.setA v) :=
  respects_modify fun _ _ h => hR.setA h rfl

/-- Asking to stop keeps machines related. -/
theorem respects_stop (v : Cell) : Respects R (Machine.stop v) :=
  respects_modify fun _ _ h => hR.stop h v

/-- A jump to another frame keeps machines related. -/
theorem respects_longJump (frame label : Cell) : Respects R (longJump frame label) :=
  respects_modify fun _ _ h => hR.setFrame h label.address frame

/-- Related machines jump on the same condition of the accumulator. -/
theorem respects_jumpIf (condition : Cell → Prop) [DecidablePred condition] (target : Int) :
    Respects R (modify fun m => if condition m.a then { m with pc := target } else m) := by
  refine respects_modify fun m m' h => ?_
  by_cases hcondition : condition m'.a
  · rw [if_pos hcondition, if_pos (hR.a h ▸ hcondition)]
    exact hR.setPc h rfl
  · rw [if_neg hcondition, if_neg (hR.a h ▸ hcondition)]
    exact h

/-- Related machines write a text in the same way. -/
theorem respects_writeText (t : Text) : Respects R (onPeripherals (Peripherals.writeText t)) :=
  hR.respects_onPeripherals (hR.streams.writeText t)

/-- Related machines write the pieces of a format in the same way. -/
theorem respects_writePieces (pieces : List FormatPiece) (v : Int) :
    Respects R (writePieces pieces v) := by
  induction pieces generalizing v with
  | nil => exact respects_pure ()
  | cons piece pieces ih =>
    rw [writePieces_cons]
    refine (hR.respects_readMemory fun memory => pieceText memory v piece).bind fun r => ?_
    exact (hR.respects_writeText r.1).bind fun _ => ih r.2

/-- Related machines read the same number. -/
theorem respects_readNumber : Respects R readNumber :=
  (hR.respects_onPeripherals hR.streams.readNumber).bind fun _ =>
    (hR.respects_onMemory _).bind fun _ => respects_pure _

/-- Related machines set up the same frame for a routine that is applied to a vector. -/
theorem respects_applyToVector (args : Int) : Respects R (applyToVector args) := by
  unfold applyToVector
  refine (hR.respects_word _).bind fun n => ?_
  refine respects_get_bind (fun m m' h => by rw [hR.sp h, hR.pc h]) fun m => ?_
  refine (hR.respects_onMemory _).bind fun _ => (hR.respects_onMemory _).bind fun _ => ?_
  refine (hR.respects_onMemory _).bind fun _ => (hR.respects_onMemory _).bind fun _ => ?_
  exact (hR.respects_word args).bind fun routine =>
    respects_modify fun _ _ h => hR.setFrame h routine.address _

/-- Nothing that calls do can tell related machines apart. -/
theorem respects_deed (x : Deed) : Respects R x.perform := by
  cases x with
  | give v => exact respects_pure v
  | operate op hop => exact hR.respects_onPeripherals (hR.streams.operation hop)
  | write t => exact (hR.respects_writeText t).bind fun _ => respects_pure _
  | format pieces v => exact (hR.respects_writePieces pieces v).bind fun _ => respects_pure _
  | readNumber => exact hR.respects_readNumber
  | setByte b c => exact (hR.respects_onMemory _).bind fun _ => respects_pure _
  | pack v s => exact hR.respects_onMemory _
  | unpack s v => exact (hR.respects_onMemory _).bind fun _ => respects_pure _
  | stop result => exact (hR.respects_stop result).bind fun _ => respects_pure _
  | jump frame label => exact (hR.respects_longJump frame label).bind fun _ => respects_pure _
  | apply args => exact (hR.respects_applyToVector args).bind fun _ => respects_pure _

/-- No plan can tell related machines apart. -/
theorem respects_plan (p : Plan) : Respects R p.run := by
  induction p with
  | word a next ih => exact (hR.respects_word a).bind ih
  | byte b next ih => exact (hR.respects_readMemory (·.byte b)).bind ih
  | string a next ih => exact (hR.respects_readMemory (·.string a.address)).bind ih
  | registers next ih =>
    have hregisters (m m' : Machine) (h : R m m') : m.registers = m'.registers := by
      have hp := hR.peripherals h
      rw [registers, registers, hR.streams.input hp, hR.streams.output hp, hR.sp h]
    exact respects_get_bind (fun m m' h => by rw [hregisters m m' h]) fun m => ih m.registers
  | perform x => exact (hR.respects_deed x).bind fun _ => respects_pure ()
  | answer x => exact (hR.respects_deed x).bind hR.respects_setA

/-- No built-in system call can tell related machines apart. -/
theorem respects_builtIn {call : SystemCall} {handler : Handler}
    (hcall : builtIn? call = some handler) (args : Int) : Respects R (handler args) := by
  rw [handler_eq_run hcall]
  exact hR.respects_plan _

/-- No extended operation can tell related machines apart. -/
theorem respects_operate (x : Cell) : Respects R (operate x) := by
  unfold operate
  cases Operation.ofCell? x with
  | none => exact respects_throw _
  | some op =>
    cases op with
    | dereference =>
      exact respects_get_bind (fun _ _ h => by rw [hR.a h]) fun _ =>
        (hR.respects_word _).bind hR.respects_setA
    | leave =>
      refine respects_get_bind (fun _ _ h => by rw [hR.sp h]) fun _ => ?_
      exact (hR.respects_word _).bind fun pc => (hR.respects_word _).bind fun frame =>
        respects_modify fun _ _ h => hR.setFrame h pc.address frame
    | finish => exact hR.respects_stop 0
    | switch =>
      refine (respects_read fun _ _ h => by rw [hR.memory h, hR.pc h]).bind fun table => ?_
      refine respects_modify fun m m' h => ?_
      have hlookup : table.lookup m.a = table.lookup m'.a := congrArg table.lookup (hR.a h)
      have hb := hR.setB h (congrArg (fun found => table.remaining found.2) hlookup)
      exact hR.setPc hb (congrArg (fun found => found.1.address) hlookup)
    | _ => exact respects_modify fun _ _ h => hR.setA h (by rw [hR.a h, hR.b h])

end Actions

section Runs

variable {bindings : Bindings} {m m' : Machine} (hR : BlindTo P R)
  (hbindings : bindings.BlindTo R)

include hR hbindings

/-- No system call can tell related machines apart, neither one that the host serves nor one that
nobody serves. -/
theorem respects_systemCall (code : Cell) (args : Int) :
    Respects R (systemCall bindings code args) := by
  cases hbound : bindings.get? code with
  | some handler =>
    rw [systemCall_of_bound hbound]
    exact hbindings code handler hbound args
  | none =>
    rw [systemCall_of_unbound hbound]
    rcases systemCall_cases code args with ⟨call, handler, -, hcall, hserve⟩ | ⟨-, e, hserve⟩
    · rw [hserve]
      exact hR.respects_builtIn hcall args
    · rw [hserve]
      exact respects_throw e

/-- No instruction can tell related machines apart. -/
theorem respects_execute (f : Function) (d : Cell) : Respects R (execute bindings f d) := by
  cases f with
  | load =>
    exact respects_modify fun _ _ h => hR.setB (hR.setA h (rfl : d = d)) (hR.a h)
  | add =>
    exact respects_modify fun _ _ h => hR.setA h (congrArg (·.plus d) (hR.a h))
  | jump => exact respects_modify fun _ _ h => hR.setPc h rfl
  | store => exact respects_get_bind (fun _ _ h => by rw [hR.a h]) fun _ => hR.respects_onMemory _
  | jumpTrue => exact hR.respects_jumpIf (· ≠ 0) d.address
  | jumpFalse => exact hR.respects_jumpIf (· = 0) d.address
  | operate => exact hR.respects_operate d
  | call =>
    rw [execute]
    refine respects_get_bind (fun m m' h => by rw [hR.a h, hR.sp h, hR.pc h]) fun m => ?_
    dsimp only
    split
    · exact hR.respects_systemCall hbindings _ _
    · refine (hR.respects_onMemory _).bind fun _ => (hR.respects_onMemory _).bind fun _ => ?_
      exact respects_modify fun _ _ h => hR.setFrame h m.a.address _

omit hbindings in
/-- The end of an instruction keeps machines related. -/
theorem endStep {r r' : EStateM.Result Failure Machine Unit} (h : Agree R r r') (pc : Int) :
    (endStep pc r).1 = (endStep pc r').1 ∧ R (endStep pc r).2 (endStep pc r').2 := by
  cases h with
  | error e h => exact ⟨rfl, hR.setPc h rfl⟩
  | @ok u m m' h =>
    have hcounted : R { m with instructions := m.instructions + 1 }
        { m' with instructions := m'.instructions + 1 } :=
      hR.setInstructions h (congrArg (· + 1) (hR.instructions h))
    simp only [Machine.endStep, verdict_counted, hR.verdict h]
    cases m'.verdict with
    | none => exact ⟨rfl, hcounted⟩
    | some result => exact ⟨rfl, hcounted⟩

omit hbindings in
/-- Related machines have the same instruction before them. -/
theorem decode_eq (h : R m m') : m.decode = m'.decode := by
  rw [decode, decode, hR.memory h, hR.pc h, hR.sp h]

/-- A step of related machines leads to the same progress and to related machines. -/
theorem step (h : R m m') :
    (step bindings m).1 = (step bindings m').1 ∧ R (step bindings m).2 (step bindings m').2 := by
  unfold Machine.step
  rw [hR.decode_eq h]
  cases m'.decode with
  | error e => exact ⟨congrArg (Progress.ofFailure · e) (hR.pc h), h⟩
  | ok i =>
    have htrace : m.traceStep i = m'.traceStep i := by
      rw [traceStep, traceStep, hR.pc h, hR.a h, hR.b h, hR.sp h]
    simp only [noteStep_eq, htrace, hR.pc h]
    refine hR.endStep (hR.respects_execute hbindings _ _ _ _ ?_) m'.pc
    exact hR.setPc (hR.setPeripherals h (hR.streams.traced (hR.peripherals h) _)) rfl

/-- Any number of steps of related machines leads to the same progress and to related machines. -/
theorem proceed (h : R m m') (n : Nat) :
    (proceed bindings n m).1 = (proceed bindings n m').1 ∧
      R (proceed bindings n m).2 (proceed bindings n m').2 := by
  induction n generalizing m m' with
  | zero =>
    unfold Machine.proceed
    rw [hR.decode_eq h]
    cases m'.decode with
    | error e => exact ⟨congrArg (Progress.ofFailure · e) (hR.pc h), h⟩
    | ok i => exact ⟨rfl, h⟩
  | succ n ih =>
    obtain ⟨hprogress, hlast⟩ := hR.step hbindings h
    unfold Machine.proceed
    generalize Machine.step bindings m = r, Machine.step bindings m' = r' at hprogress hlast
    obtain ⟨progress, last⟩ := r
    obtain ⟨_ | result | report | e, last'⟩ := r'
    · cases hprogress
      exact ih hlast
    · cases hprogress
      exact ⟨rfl, hlast⟩
    · cases hprogress
      exact ⟨rfl, hlast⟩
    · cases hprogress
      exact ⟨rfl, hlast⟩

omit hbindings in
/-- The end of a run keeps machines related. -/
theorem finish (h : R m m') (result : Cell) (error : Option Report) :
    (finish result error m).1 = (finish result error m').1 ∧
      R (finish result error m).2 (finish result error m').2 := by
  obtain ⟨hflush, hflushed⟩ := hR.streams.flush (hR.peripherals h)
  have herror : finalError error m.peripherals = finalError error m'.peripherals := by
    rw [finalError, finalError, hflush]
  have hevent : Event.runFinished result m.instructions (finalError error m.peripherals) =
      Event.runFinished result m'.instructions (finalError error m'.peripherals) := by
    rw [herror, hR.instructions h]
  rw [finish_apply, finish_apply, hevent, herror]
  exact ⟨rfl, hR.setPeripherals h (hR.streams.traced hflushed _)⟩

/-- A run of related machines that goes on ends in the same way and leads to related machines. -/
theorem resume (h : R m m') (n : Nat) :
    (resume bindings n m).1 = (resume bindings n m').1 ∧
      R (resume bindings n m).2 (resume bindings n m').2 := by
  obtain ⟨hprogress, hlast⟩ := hR.proceed hbindings h n
  simp only [Machine.resume]
  generalize Machine.proceed bindings n m = r, Machine.proceed bindings n m' = r'
    at hprogress hlast
  obtain ⟨progress, last⟩ := r
  obtain ⟨_ | result | report | e, last'⟩ := r'
  · cases hprogress
    exact ⟨rfl, hlast⟩
  · cases hprogress
    exact hR.finish hlast result none
  · cases hprogress
    exact hR.finish hlast 0 (some report)
  · cases hprogress
    exact ⟨rfl, hlast⟩

end Runs

end BlindTo

end Machine

end Intcode
