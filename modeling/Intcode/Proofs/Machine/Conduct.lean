import Intcode.Machine.Run
import Intcode.Proofs.Machine.Plans
import Intcode.Proofs.Streams.Numbers

/-!
# What a machine does to its peripherals

A machine acts on its peripherals through operations on streams only. This file
lists the operations of each system call, of a step and of a run, up to the first
that fails.

Main statement: the peripherals after a run are those that the operations of the
run lead to.
-/

namespace Intcode.Machine

/-- The operations that follow from something in the memory, none if it is not there. -/
def given {α : Type} (r : Except Failure α) (f : α → List StreamOperation) : List StreamOperation :=
  match r with
  | .ok a => f a
  | .error _ => []

/-- No operations follow from anything. -/
theorem given_nil {α : Type} (r : Except Failure α) : (given r fun _ => []) = [] := by
  cases r <;> rfl

/-- The operations of a call that writes a number in a width. -/
def numberOperations (m : Machine) (args : Int) (conversion : Conversion) : List StreamOperation :=
  given (m.memory.word args) fun n => given (m.memory.word (args + 1)) fun width =>
    (conversion.render width.toInt n).toText.map .write

/-- The operations of writing a format whose address and arguments are in words from an address
on. -/
def formatOperations (m : Machine) (args : Int) : List StreamOperation :=
  given (m.memory.word args) fun f => given (m.memory.string f.address) fun t =>
    (formatText m.memory (FormatPiece.ofText t) (args + 1)).1.map .write

/-- The operations of a system call with arguments from an address on. -/
def callOperations (m : Machine) (args : Int) : SystemCall → List StreamOperation
  | .selectInput => given (m.memory.word args) fun h => [.selectInput h]
  | .selectOutput => given (m.memory.word args) fun h => [.selectOutput h]
  | .readCharacter => [.read]
  | .writeCharacter => given (m.memory.word args) fun c => [.write c.low]
  | .findOutput =>
    given (m.memory.word args) fun s => given (m.memory.string s.address) fun t => [.findOutput t]
  | .findInput =>
    given (m.memory.word args) fun s => given (m.memory.string s.address) fun t => [.findInput t]
  | .endRead => [.endRead]
  | .endWrite => [.endWrite]
  | .writeString =>
    given (m.memory.word args) fun s => given (m.memory.string s.address) (·.map .write)
  | .writeNumber =>
    given (m.memory.word args) fun n => (Conversion.decimal.render 0 n).toText.map .write
  | .newline => [.newline]
  | .newpage => [.write 12]
  | .writeDecimal => m.numberOperations args .decimal
  | .writeHex => m.numberOperations args .hex
  | .writeOctal => m.numberOperations args .octal
  | .readNumber => List.replicate m.peripherals.numberReads .read
  | .writeFormat => m.formatOperations args
  | _ => []

section Conducts

variable {α β : Type}

/-- An action on a machine takes its peripherals where the given operations lead. -/
def Conducts (x : Action Machine α) (m : Machine) (ops : List StreamOperation) : Prop :=
  (x.final m).peripherals =
    Peripherals.after (Peripherals.attempted ops m.peripherals) m.peripherals

/-- An action that leaves the peripherals alone. -/
def Quiet (x : Action Machine α) : Prop := ∀ m, (x.final m).peripherals = m.peripherals

/-- Without operations nothing is done. -/
theorem Quiet.conducts {x : Action Machine α} (hx : Quiet x) (m : Machine) : Conducts x m [] := hx m

/-- A result leaves the peripherals alone. -/
theorem quiet_pure (a : α) : Quiet (pure a : Action Machine α) := fun _ => rfl

/-- A failure leaves the peripherals alone. -/
theorem quiet_throw (e : Failure) : Quiet (throw e : Action Machine α) := fun _ => rfl

/-- What is read leaves the peripherals alone. -/
theorem quiet_read (f : Machine → Except Failure α) : Quiet (Action.read f) := by
  intro m
  rw [Action.final, Action.read_apply]
  cases f m <;> rfl

/-- A change elsewhere leaves the peripherals alone. -/
theorem quiet_modify {f : Machine → Machine} (hf : ∀ m, (f m).peripherals = m.peripherals) :
    Quiet (modify f : Action Machine Unit) := hf

/-- What is done to the memory leaves the peripherals alone. -/
theorem quiet_onMemory (x : Action Memory α) : Quiet (onMemory x) := by
  intro m
  simp only [Action.final, onMemory, Action.on]
  cases x m.memory <;> rfl

/-- Actions that leave the peripherals alone one after the other. -/
theorem Quiet.bind {x : Action Machine α} {f : α → Action Machine β} (hx : Quiet x)
    (hf : ∀ a, Quiet (f a)) : Quiet (x >>= f) := by
  intro m
  have hm := hx m
  rw [Action.final] at hm
  rw [Action.final_bind]
  cases hrun : x m with
  | error e m' =>
    rw [hrun] at hm
    exact hm
  | ok a m' =>
    rw [hrun] at hm
    exact (hf a m').trans hm

/-- What comes after the operations may leave the peripherals alone. -/
theorem Conducts.bind_quiet {x : Action Machine α} {f : α → Action Machine β} {m : Machine}
    {ops : List StreamOperation} (hx : Conducts x m ops) (hf : ∀ a, Quiet (f a)) :
    Conducts (x >>= f) m ops := by
  rw [Conducts, Action.final] at hx
  rw [Conducts, Action.final_bind, ← hx]
  cases x m with
  | error e m' => rfl
  | ok a m' => exact hf a m'

/-- What the operations are may be read first. -/
theorem Conducts.read_bind {f : Machine → Except Failure α} {g : α → Action Machine β} {m : Machine}
    {ops : α → List StreamOperation} (hg : ∀ a, f m = .ok a → Conducts (g a) m (ops a)) :
    Conducts (Action.read f >>= g) m (given (f m) ops) := by
  rw [Conducts, Action.final_bind, Action.read_apply]
  cases hread : f m with
  | error e => rfl
  | ok a => exact hg a hread

/-- An action on the peripherals. -/
theorem conducts_onPeripherals {x : Action Peripherals α} {m : Machine}
    {ops : List StreamOperation}
    (hx : x.final m.peripherals =
      Peripherals.after (Peripherals.attempted ops m.peripherals) m.peripherals) :
    Conducts (onPeripherals x) m ops := by
  rw [Conducts, ← hx, Action.final, Action.final, onPeripherals_apply]
  cases x m.peripherals <;> rfl

/-- A single operation. -/
theorem conducts_operation {x : Action Peripherals α} {m : Machine} (op : StreamOperation)
    (hx : x.final m.peripherals = op.action.final m.peripherals) :
    Conducts (onPeripherals x) m [op] :=
  conducts_onPeripherals (by rw [hx, Peripherals.attempted_singleton]; rfl)

/-- Writing a text, and then failing or not. -/
theorem conducts_writeThen (t : Text) (failure : Option Failure) (m : Machine) :
    Conducts (onPeripherals (writeThen t failure)) m (t.map .write) := by
  refine conducts_onPeripherals ?_
  rw [← Peripherals.final_writeText]
  cases failure with
  | none => rfl
  | some e =>
    rw [writeThen, Action.final_bind, Action.final]
    cases Peripherals.writeText t m.peripherals <;> rfl

/-- Writing a number. -/
theorem conducts_writeNumber (conversion : Conversion) (n : Cell) (width : Int) (m : Machine) :
    Conducts (writeNumber conversion n width) m
      ((conversion.render width n).toText.map .write) := by
  rw [writeNumber_eq]
  exact conducts_writeThen _ none m

/-- Writing the pieces of a format. -/
theorem conducts_writePieces (pieces : List FormatPiece) (v : Int) (m : Machine) :
    Conducts (writePieces pieces v) m ((formatText m.memory pieces v).1.map .write) := by
  rw [Conducts, Action.final, writePieces_eq]
  exact conducts_writeThen _ _ m

/-- Writing a format. -/
theorem conducts_writeFormat (args : Int) (m : Machine) :
    Conducts (writeFormat args) m (m.formatOperations args) :=
  Conducts.read_bind (f := fun m => m.memory.word args) fun f _ =>
    Conducts.read_bind (f := fun m => m.memory.string f.address) fun t _ =>
      conducts_writePieces (FormatPiece.ofText t) (args + 1) m

/-- Reading a number. -/
theorem conducts_readNumber (m : Machine) :
    Conducts readNumber m (List.replicate m.peripherals.numberReads .read) := by
  refine Conducts.bind_quiet (conducts_onPeripherals ?_) fun _ => ?_
  · rw [Peripherals.attempted_reads, Peripherals.final_readNumber]
  · exact (quiet_onMemory _).bind fun _ => quiet_pure _

/-- Setting up the frame of a routine that is applied to a vector leaves the peripherals alone. -/
theorem quiet_applyToVector (args : Int) : Quiet (applyToVector args) := by
  unfold applyToVector
  refine (quiet_read _).bind fun n => ?_
  refine Quiet.bind (fun _ => rfl) fun m => ?_
  refine (quiet_onMemory _).bind fun _ => (quiet_onMemory _).bind fun _ => ?_
  refine (quiet_onMemory _).bind fun _ => (quiet_onMemory _).bind fun _ => ?_
  exact (quiet_read _).bind fun routine => quiet_modify fun _ => rfl

/-- The state may be looked at first. -/
theorem conducts_get_bind {f : Machine → Action Machine α} {m : Machine}
    {ops : List StreamOperation} (hf : Conducts (f m) m ops) :
    Conducts (get >>= f) m ops := by
  rw [Conducts, Action.final_bind]
  exact hf

/-- The state may be looked at first. -/
theorem quiet_get_bind {f : Machine → Action Machine α} (hf : ∀ m, Quiet (f m)) :
    Quiet (get >>= f) :=
  Quiet.bind (fun _ => rfl) hf

/-- The operations of what a call does. -/
def Deed.operations (m : Machine) : Deed → List StreamOperation
  | operate op _ => [op]
  | write t => t.map .write
  | format pieces v => (formatText m.memory pieces v).1.map .write
  | readNumber => List.replicate m.peripherals.numberReads .read
  | _ => []

/-- What a call does has its operations. -/
theorem conducts_deed (x : Deed) (m : Machine) : Conducts x.perform m (x.operations m) := by
  cases x with
  | give v => exact (quiet_pure v).conducts m
  | operate op hop => exact conducts_operation op rfl
  | write t => exact (conducts_writeThen t none m).bind_quiet fun _ => quiet_pure _
  | format pieces v => exact (conducts_writePieces pieces v m).bind_quiet fun _ => quiet_pure _
  | readNumber => exact conducts_readNumber m
  | setByte b c => exact ((quiet_onMemory _).bind fun _ => quiet_pure _).conducts m
  | pack v s => exact (quiet_onMemory _).conducts m
  | unpack s v => exact ((quiet_onMemory _).bind fun _ => quiet_pure _).conducts m
  | stop result =>
    have hstop : Quiet (Machine.stop result) := quiet_modify fun _ => rfl
    exact (hstop.bind fun _ => quiet_pure _).conducts m
  | jump frame label =>
    have hjump : Quiet (longJump frame label) := quiet_modify fun _ => rfl
    exact (hjump.bind fun _ => quiet_pure _).conducts m
  | apply args => exact ((quiet_applyToVector args).bind fun _ => quiet_pure _).conducts m

/-- The operations of a plan. -/
def Plan.operations (m : Machine) : Plan → List StreamOperation
  | word a next => given (m.memory.word a) fun v => (next v).operations m
  | byte b next => given (m.memory.byte b) fun c => (next c).operations m
  | string a next => given (m.memory.string a.address) fun t => (next t).operations m
  | registers next => (next m.registers).operations m
  | perform x | answer x => x.operations m

/-- A plan has its operations. -/
theorem conducts_plan (p : Plan) (m : Machine) : Conducts p.run m (p.operations m) := by
  induction p with
  | word a next ih =>
    exact Conducts.read_bind (f := fun m => m.memory.word a) fun v _ => ih v
  | byte b next ih =>
    exact Conducts.read_bind (f := fun m => m.memory.byte b) fun c _ => ih c
  | string a next ih =>
    exact Conducts.read_bind (f := fun m => m.memory.string a.address) fun t _ => ih t
  | registers next ih => exact conducts_get_bind (ih m.registers)
  | perform x => exact (conducts_deed x m).bind_quiet fun _ => quiet_pure _
  | answer x => exact (conducts_deed x m).bind_quiet fun _ => quiet_modify fun _ => rfl

/-- The plan of a call has the operations that the call is said to have. -/
theorem operations_callPlan (args : Int) (call : SystemCall) (m : Machine) :
    (callPlan args call).operations m = m.callOperations args call := by
  cases call with
  | stop | longJump | packString | unpackString | getByte | putByte =>
    simp only [callPlan, Plan.operations, Deed.operations, given_nil]
    rfl
  | _ => rfl

/-- The operations of a system call are those that it is said to have. -/
theorem conducts_builtIn {call : SystemCall} {handler : Handler}
    (hcall : builtIn? call = some handler) (args : Int) (m : Machine) :
    Conducts (handler args) m (m.callOperations args call) := by
  rw [handler_eq_run hcall, ← operations_callPlan]
  exact conducts_plan _ m

end Conducts

/-- The operations of the system call with a code. -/
def systemOperations (m : Machine) (code : Cell) (args : Int) : List StreamOperation :=
  match SystemCall.ofCell? code with
  | none => []
  | some call => if (builtIn? call).isSome then m.callOperations args call else []

/-- The operations of a function with its effective operand. Only system calls have any. -/
def executeOperations (m : Machine) (d : Cell) : Function → List StreamOperation
  | .call =>
    if m.a.signed < codeStart then m.systemOperations m.a ((d.plus m.sp).address + 2) else []
  | _ => []

/-- An entry in the journal, if one is kept. -/
def traceOperations (p : Peripherals) (e : Event) : List StreamOperation :=
  if p.tracing then [.note e] else []

/-- The operations of a step. -/
def stepOperations (m : Machine) : List StreamOperation :=
  match m.decode with
  | .error _ => []
  | .ok i =>
    let ready := { m.noteStep i with pc := i.next }
    traceOperations m.peripherals (.step (m.traceStep i)) ++
      Peripherals.attempted (ready.executeOperations i.operand i.opcode.function) ready.peripherals

/-- The operations of at most the given number of steps. -/
def proceedOperations (bindings : Bindings) : Nat → Machine → List StreamOperation
  | 0, _ => []
  | n + 1, m =>
    m.stepOperations ++ match step bindings m with
      | (.running, m') => proceedOperations bindings n m'
      | _ => []

/-- The error of a run, which comes before one of the flush at its end. -/
def finalError (error : Option Report) (p : Peripherals) : Option Report :=
  error <|> p.flushError.map (Report.host "flush failed")

/-- The operations at the end of a run. -/
def finishOperations (result : Cell) (error : Option Report) (m : Machine) : List StreamOperation :=
  .flush :: traceOperations m.peripherals.flushed
    (.runFinished result m.instructions (finalError error m.peripherals))

/-- The operations that the progress of a run leads to. -/
def concludeOperations : Progress × Machine → List StreamOperation
  | (.stopped result, m) => finishOperations result none m
  | (.failed r, m) => finishOperations 0 (some r) m
  | _ => []

/-- The machine ready for a run. -/
def started (m : Machine) : Machine :=
  { m with
    pc := codeStart, sp := Cell.ofInt m.lomem, a := 0, b := 0, instructions := 0, stopped := false
    peripherals := m.peripherals.traced (.runStarted m.lomem m.memory.size) }

/-- The operations of a run of at most the given number of instructions. -/
def runOperations (limit : Nat) (m : Machine) (bindings : Bindings := {}) : List StreamOperation :=
  traceOperations m.peripherals (.runStarted m.lomem m.memory.size) ++
    (proceedOperations bindings limit m.started ++
      concludeOperations (proceed bindings limit m.started))

/-- A call is served by the handler of its code, and fails if there is none. -/
theorem systemCall_cases (code : Cell) (args : Int) :
    (∃ call handler, SystemCall.ofCell? code = some call ∧ builtIn? call = some handler ∧
        systemCall {} code args = handler args) ∨
      (SystemCall.ofCell? code).bind builtIn? = none ∧
        ∃ e, systemCall {} code args = throw e := by
  have hbound : (({} : Bindings).get? code <|> (SystemCall.ofCell? code).bind builtIn?) =
      (SystemCall.ofCell? code).bind builtIn? := rfl
  unfold systemCall
  rw [hbound]
  cases hfound : (SystemCall.ofCell? code).bind builtIn? with
  | none => exact .inr ⟨rfl, _, rfl⟩
  | some handler =>
    obtain ⟨call, hcode, hcall⟩ := Option.bind_eq_some_iff.mp hfound
    exact .inl ⟨call, handler, hcode, hcall, rfl⟩

/-- An unknown call leaves the peripherals alone, and a known one does what it is said to do. -/
theorem conducts_systemCall (code : Cell) (args : Int) (m : Machine) :
    Conducts (systemCall {} code args) m (m.systemOperations code args) := by
  unfold systemOperations
  rcases systemCall_cases code args with ⟨call, handler, hcode, hcall, hserve⟩ | ⟨hnone, e, hserve⟩
  · simp only [hcode, hcall, Option.isSome_some, if_true, hserve]
    exact conducts_builtIn hcall args m
  · rw [hserve]
    cases hcode : SystemCall.ofCell? code with
    | none => exact (quiet_throw e).conducts m
    | some call =>
      rw [hcode, Option.bind_some] at hnone
      simp only [hnone, Option.isSome_none, Bool.false_eq_true, if_false]
      exact (quiet_throw e).conducts m

/-- An extended operation leaves the peripherals alone. -/
theorem quiet_operate (x : Cell) : Quiet (operate x) := by
  unfold operate
  cases Operation.ofCell? x with
  | none => exact quiet_throw _
  | some op =>
    cases op with
    | dereference =>
      exact quiet_get_bind fun _ => (quiet_read _).bind fun _ => quiet_modify fun _ => rfl
    | leave =>
      exact quiet_get_bind fun _ => (quiet_read _).bind fun _ => (quiet_read _).bind fun _ =>
        quiet_modify fun _ => rfl
    | switch => exact (quiet_read _).bind fun _ => quiet_modify fun _ => rfl
    | _ => exact quiet_modify fun _ => rfl

/-- Whoever serves a call, it does what the built-in one does to the peripherals. -/
def ActsAlike (bindings : Bindings) : Prop :=
  ∀ code args m, Conducts (systemCall bindings code args) m (m.systemOperations code args)

variable {bindings : Bindings}

/-- Only system calls act on the peripherals. -/
theorem conducts_execute (hbindings : ActsAlike bindings) (f : Function) (d : Cell) (m : Machine) :
    Conducts (execute bindings f d) m (m.executeOperations d f) := by
  cases f with
  | load | add | jump => exact (quiet_modify fun _ => rfl).conducts m
  | store => exact (quiet_get_bind fun _ => quiet_onMemory _).conducts m
  | jumpTrue | jumpFalse =>
    refine (quiet_modify fun m => ?_).conducts m
    split <;> rfl
  | operate => exact (quiet_operate d).conducts m
  | call =>
    rw [execute, executeOperations]
    refine conducts_get_bind ?_
    dsimp only
    split
    · exact hbindings _ _ m
    · refine Quiet.conducts ((quiet_onMemory _).bind fun _ => (quiet_onMemory _).bind fun _ => ?_) m
      exact quiet_modify fun _ => rfl

/-- An entry in the journal, if one is kept. -/
@[simp] theorem after_traceOperations (p : Peripherals) (e : Event) :
    Peripherals.after (traceOperations p e) p = p.traced e := by
  unfold traceOperations Peripherals.traced
  split <;> rfl

/-- The end of an instruction leaves the peripherals alone. -/
theorem endStep_peripherals (pc : Int) (r : EStateM.Result Failure Machine Unit) :
    (endStep pc r).2.peripherals = (Action.stateOf r).peripherals := by
  cases r with
  | error e m => rfl
  | ok u m =>
    simp only [endStep]
    split <;> rfl

/-- An instruction is noted in the journal if one is kept. -/
theorem noteStep_eq (i : Instruction) (m : Machine) :
    m.noteStep i = { m with peripherals := m.peripherals.traced (.step (m.traceStep i)) } := by
  unfold noteStep Peripherals.traced
  split <;> rfl

/-- The peripherals after a step are those that its operations lead to. -/
theorem step_peripherals (hbindings : ActsAlike bindings) (m : Machine) :
    (step bindings m).2.peripherals = Peripherals.after m.stepOperations m.peripherals := by
  unfold step stepOperations
  cases m.decode with
  | error e => rfl
  | ok i =>
    dsimp only
    rw [endStep_peripherals, Peripherals.after_append, after_traceOperations, noteStep_eq]
    exact conducts_execute hbindings i.opcode.function i.operand _

/-- The peripherals after a number of steps are those that their operations lead to. -/
theorem proceed_peripherals (hbindings : ActsAlike bindings) (n : Nat) (m : Machine) :
    (proceed bindings n m).2.peripherals =
      Peripherals.after (proceedOperations bindings n m) m.peripherals := by
  induction n generalizing m with
  | zero =>
    rw [proceed, proceedOperations]
    cases m.decode <;> rfl
  | succ n ih =>
    rw [proceed, proceedOperations, Peripherals.after_append, ← step_peripherals hbindings]
    generalize step bindings m = r
    obtain ⟨_ | _ | _ | _, m'⟩ := r
    · exact ih m'
    · rfl
    · rfl
    · rfl

/-- A run always starts. -/
theorem start_apply (m : Machine) : start m = .ok () m.started := by
  simp only [start, Action.bind_apply, Action.modify_apply, Action.get_apply, onPeripherals_apply,
    Peripherals.trace]
  rfl

/-- The end of a run is a flush and an entry in the journal. -/
theorem finish_apply (result : Cell) (error : Option Report) (m : Machine) :
    finish result error m =
      (.ended result (finalError error m.peripherals),
        { m with
          peripherals := m.peripherals.flushed.traced
            (.runFinished result m.instructions (finalError error m.peripherals)) }) := by
  simp only [finish, onPeripherals_apply, Peripherals.flush_apply, finalError]
  cases m.peripherals.flushError with
  | none =>
    simp only [Peripherals.concluded, Peripherals.trace, Action.modify_apply, Option.map_none]
    cases error <;> rfl
  | some e =>
    simp only [Peripherals.concluded, Peripherals.trace, Action.modify_apply, Option.map_some]
    rfl

/-- The peripherals after the end of a run are those that its operations lead to. -/
theorem finish_peripherals (result : Cell) (error : Option Report) (m : Machine) :
    (finish result error m).2.peripherals =
      Peripherals.after (finishOperations result error m) m.peripherals := by
  have hflush : StreamOperation.flush.action.final m.peripherals = m.peripherals.flushed := by
    rw [StreamOperation.action, Action.final_bind_pure, Action.final, Peripherals.flush_apply,
      Peripherals.stateOf_concluded]
  rw [finish_apply, finishOperations, Peripherals.after, hflush, after_traceOperations]

/-- The peripherals after a run are those that its operations lead to. -/
theorem run_peripherals (hbindings : ActsAlike bindings) (limit : Nat) (m : Machine) :
    (run bindings limit m).2.peripherals =
      Peripherals.after (m.runOperations limit bindings) m.peripherals := by
  rw [run, start_apply, runOperations, Peripherals.after_append, after_traceOperations,
    Peripherals.after_append]
  change (resume bindings limit m.started).2.peripherals =
    Peripherals.after _ (Peripherals.after _ m.started.peripherals)
  rw [resume, ← proceed_peripherals hbindings]
  generalize proceed bindings limit m.started = r
  obtain ⟨_ | result | r | e, m'⟩ := r
  · rfl
  · exact finish_peripherals result none m'
  · exact finish_peripherals 0 (some r) m'
  · rfl

end Intcode.Machine
