import Intcode.Proofs.InstructionText
import Intcode.Proofs.Machine.Faults

/-!
# The trace of a run

A machine that is traced notes an instruction when it has decoded it, and counts it
when it has executed it. The two are done at different points of a step, and a run can
end at either of them or between them.

Main statement: the entries of a run show its instructions one after the other, each
where the one before it has left the program counter. There are as many of them as
instructions are counted, and one more if the last one failed after it was decoded.
-/

namespace Intcode

/-- The instruction that an entry of the journal shows. -/
def Event.step? : Event → Option TraceStep
  | .step s => some s
  | _ => none

/-- The letters of the instruction in a word: that of the function in its low bits, and those of the
two marks that are set. -/
def Cell.mnemonic (w : Cell) : Text :=
  ((Text.ofAscii "LSAJTFKX").drop (w.toNat % 8)).take 1 ++
    (if w.getLsbD 3 then Text.ofAscii "I" else []) ++ (if w.getLsbD 4 then Text.ofAscii "P" else [])

/-- The letters of an opcode are those of its word. -/
theorem Opcode.letters_ofWord (w : Cell) : (ofWord w).letters = w.mnemonic := by
  have hfunction : [(Function.ofWord w).letter] =
      ((Text.ofAscii "LSAJTFKX").drop (w.toNat % 8)).take 1 := by
    have hlt : w.toNat % 8 < 8 := Nat.mod_lt _ (by decide)
    unfold Function.ofWord
    generalize w.toNat % 8 = k at hlt
    revert k
    decide
  simp only [letters, ofWord, Cell.mnemonic, hfunction, w.isIndirect_eq, w.isFramed_eq]
  rfl

/-- An entry shows the next instruction of a machine: its address, its letters, its effective
operand and the registers before it. -/
structure TraceStep.Shows (s : TraceStep) (m : Machine) : Prop where
  pc : s.pc = m.pc
  registers : s.a = m.a ∧ s.b = m.b ∧ s.sp = m.sp
  instruction : ∃ w d v : Cell, m.memory.word m.pc = .ok w ∧
    (if w.getLsbD 5 then m.memory.word (m.pc + 1) = .ok d else d = w >>> 8) ∧
    (v = if w.getLsbD 4 then d + m.sp else d) ∧
    s.opcode.letters = w.mnemonic ∧
    if w.getLsbD 3 then m.memory.word v.address = .ok s.operand else s.operand = v

namespace Peripherals

open Action

/-- The instructions in the journal, in order. -/
def stepEntries (p : Peripherals) : List TraceStep := p.journal.reverse.filterMap Event.step?

/-- The journal is kept as before and shows the same instructions. -/
def SameTrace (p q : Peripherals) : Prop :=
  q.tracing = p.tracing ∧ q.stepEntries = p.stepEntries

instance : Std.Refl SameTrace := ⟨fun _ => ⟨rfl, rfl⟩⟩

instance : Trans SameTrace SameTrace SameTrace :=
  ⟨fun h h' => ⟨h'.1.trans h.1, h'.2.trans h.2⟩⟩

/-- Everything but the journal may change. -/
theorem SameTrace.of_eq {p q : Peripherals} (htracing : q.tracing = p.tracing)
    (hjournal : q.journal = p.journal) : SameTrace p q :=
  ⟨htracing, congrArg (fun j : List Event => j.reverse.filterMap Event.step?) hjournal⟩

/-- An entry about an instruction is the last one. -/
theorem stepEntries_traced {p : Peripherals} (htracing : p.tracing = true) (s : TraceStep) :
    (p.traced (.step s)).tracing = true ∧
      (p.traced (.step s)).stepEntries = p.stepEntries ++ [s] := by
  rw [traced, if_pos htracing]
  refine ⟨htracing, ?_⟩
  simp [stepEntries, Event.step?]

/-- Other entries show no instruction. -/
theorem sameTrace_traced (p : Peripherals) {e : Event} (he : e.step? = none) :
    SameTrace p (p.traced e) := by
  unfold traced
  split
  · refine ⟨rfl, ?_⟩
    simp [stepEntries, he]
  · exact Std.Refl.refl p

/-- A flush shows no instruction. -/
theorem sameTrace_flushed (p : Peripherals) : SameTrace p p.flushed := by
  unfold flushed
  split
  · exact Std.Refl.refl p
  · exact .of_eq rfl rfl

section Operations

/-- Other entries are made without showing an instruction. -/
theorem stays_trace {e : Event} (he : e.step? = none) : Stays SameTrace (trace e) :=
  stays_modify fun p => p.sameTrace_traced he

/-- Replacing a stream. -/
theorem stays_setStream (h : Cell) (s : Stream) (host : Host) :
    Stays SameTrace (setStream h s host) :=
  stays_modify fun _ => .of_eq rfl rfl

/-- Failing with an error of the host. -/
theorem stays_check (context : String) (e : Option HostError) :
    Stays SameTrace (check context e) := by
  cases e with
  | none => exact stays_pure _
  | some e => exact stays_throw _

/-- Flushing the default output. -/
theorem stays_flushDefault : Stays SameTrace flushDefault := by
  intro p
  rw [final, flushDefault_apply]
  exact p.sameTrace_flushed

/-- Making what has been written visible. -/
theorem stays_prompt : Stays SameTrace prompt := by
  refine stays_flushDefault.bind fun e => ?_
  cases e with
  | none => exact stays_pure _
  | some e => exact stays_trace rfl

/-- Getting ready to read. -/
theorem sameTrace_readied (p : Peripherals) (i : Input) : SameTrace p (p.readied i) := by
  unfold readied
  split
  · have hprompt := stays_prompt p
    rwa [final, prompt_apply] at hprompt
  · exact Std.Refl.refl p

/-- Reading a character. -/
theorem stays_readCharacter : Stays SameTrace readCharacter := by
  intro p
  rw [final, readCharacter_apply]
  rcases p.streams.get? p.input with _ | ⟨i | o, closer⟩
  · exact Std.Refl.refl p
  · have hread (s : Stream) (host : Host) :
        SameTrace p ((p.readied i).withStream p.input s host) :=
      Trans.trans (p.sameTrace_readied i) (SameTrace.of_eq rfl rfl)
    simp only [stateOf_ok]
    cases (i.next (p.readied i).host).1 with
    | failed e => exact Trans.trans (hread _ _) (sameTrace_traced _ rfl)
    | byte c => exact hread _ _
    | exhausted => exact hread _ _
  · exact Std.Refl.refl p

/-- Giving a byte to the selected stream. -/
theorem stays_putByte (context : String) (c : UInt8) : Stays SameTrace (putByte context c) := by
  refine stays_get_bind fun p => stays_get_bind fun p' => ?_
  split
  · exact stays_get_bind fun _ => (stays_setStream _ _ _).bind fun _ => stays_check _ _
  · exact stays_pure _

/-- Ending a line. -/
theorem stays_newline : Stays SameTrace newline := by
  refine (stays_putByte _ _).bind fun _ => stays_get_bind fun p => ?_
  split
  · exact stays_flushDefault.bind fun e => stays_check _ e
  · exact stays_pure _

/-- Writing a character. -/
theorem stays_writeCharacter (c : UInt8) : Stays SameTrace (writeCharacter c) := by
  unfold writeCharacter
  split
  · exact stays_newline
  · exact stays_putByte _ _

/-- Adding a stream. -/
theorem stays_addStream (s : Stream) : Stays SameTrace (addStream s) := by
  refine stays_get_bind fun p => ?_
  split
  · exact stays_throw _
  · exact (stays_modify fun _ => .of_eq rfl rfl).bind fun _ => stays_pure _

/-- Opening a file. -/
theorem stays_findInput (name : Text) : Stays SameTrace (findInput name) := by
  unfold findInput
  split
  · exact stays_pure _
  · refine stays_get_bind fun p => ?_
    split
    · exact (stays_modify fun _ => .of_eq rfl rfl).bind fun _ => stays_addStream _
    · exact (stays_trace rfl).bind fun _ => stays_pure _

/-- Creating a file. -/
theorem stays_findOutput (name : Text) : Stays SameTrace (findOutput name) := by
  unfold findOutput
  split
  · exact stays_pure _
  · refine stays_get_bind fun p => ?_
    split
    · exact (stays_modify fun _ => .of_eq rfl rfl).bind fun _ => stays_addStream _
    · exact (stays_trace rfl).bind fun _ => stays_pure _

/-- Closing a file. -/
theorem stays_endStream (h : Cell) : Stays SameTrace (endStream h) := by
  refine stays_get_bind fun p => ?_
  split
  · exact stays_pure _
  · split
    · exact stays_pure _
    · exact (stays_modify fun _ => .of_eq rfl rfl).bind fun _ => stays_pure _

/-- Ending the selected input stream. -/
theorem stays_endRead : Stays SameTrace endRead :=
  stays_get_bind fun _ => (stays_endStream _).bind fun _ =>
    (stays_modify fun _ => .of_eq rfl rfl).bind fun _ => stays_check _ _

/-- Ending the selected output stream. -/
theorem stays_endWrite : Stays SameTrace endWrite :=
  stays_get_bind fun _ => (stays_endStream _).bind fun _ =>
    (stays_modify fun _ => .of_eq rfl rfl).bind fun _ => stays_check _ _

/-- Closing the streams of a list. -/
theorem stays_closeStreams (ks : List Cell) : Stays SameTrace (closeStreams ks) := by
  induction ks with
  | nil => exact stays_pure _
  | cons k ks ih =>
    intro p
    have hfirst : SameTrace p (p.closeOne k) := by
      unfold closeOne
      split
      · exact Std.Refl.refl p
      · split <;> exact .of_eq rfl rfl
    have hrest := ih (p.closeOne k)
    rw [final] at hrest ⊢
    rw [closeStreams_cons_apply]
    generalize closeStreams ks (p.closeOne k) = r at hrest
    cases r <;> exact Trans.trans hfirst hrest

/-- Closing all streams. -/
theorem stays_closeInOrder (order : List Cell) : Stays SameTrace (closeInOrder order) :=
  (stays_closeStreams order).bind fun _ => (stays_modify fun _ => .of_eq rfl rfl).bind fun _ =>
    (stays_modify fun _ => .of_eq rfl rfl).bind fun _ => stays_check _ _

end Operations

end Peripherals

namespace StreamOperation

open Action Peripherals

/-- Whether an operation makes an entry in the journal and nothing else. -/
def isNote : StreamOperation → Bool
  | note _ => true
  | _ => false

/-- Operations show no instruction of their own accord. -/
theorem stays_action {op : StreamOperation} (hop : op.isNote = false) :
    Stays SameTrace op.action := by
  have hreturn {x : Action Peripherals Unit} (hx : Stays SameTrace x) :
      Stays SameTrace (do x; return (0 : Cell)) := hx.bind fun _ => stays_pure _
  cases op with
  | findInput name => exact stays_findInput name
  | findOutput name => exact stays_findOutput name
  | selectInput k => exact hreturn (stays_modify fun _ => .of_eq rfl rfl)
  | selectOutput k => exact hreturn (stays_modify fun _ => .of_eq rfl rfl)
  | read => exact stays_readCharacter
  | write c => exact hreturn (stays_writeCharacter c)
  | newline => exact hreturn stays_newline
  | endRead => exact hreturn stays_endRead
  | endWrite => exact hreturn stays_endWrite
  | close order => exact hreturn (stays_closeInOrder order)
  | flush => exact hreturn (stays_flushDefault.bind fun e => stays_check _ e)
  | note e => cases hop

/-- Operations one after the other, up to the first that fails. -/
theorem sameTrace_attempted {ops : List StreamOperation} (hops : ∀ op ∈ ops, op.isNote = false)
    (p : Peripherals) : SameTrace p (after (attempted ops p) p) := by
  induction ops generalizing p with
  | nil => exact Std.Refl.refl p
  | cons op ops ih =>
    have hfirst := stays_action (hops op List.mem_cons_self) p
    rw [attempted, after]
    rw [final] at hfirst ⊢
    cases hrun : op.action p with
    | error e q =>
      rw [hrun] at hfirst
      exact hfirst
    | ok c q =>
      rw [hrun] at hfirst
      exact Trans.trans hfirst (ih (fun op' hop' => hops op' (List.mem_cons_of_mem op hop')) q)

end StreamOperation

/-- All handlers leave it to the machine to show the instructions. -/
def Bindings.KeepTrace (b : Bindings) : Prop :=
  ∀ code handler, b.get? code = some handler → ∀ args,
    Action.Stays (fun m m' : Machine => m.peripherals.SameTrace m'.peripherals) (handler args)

namespace Machine

open Action

/-- What follows from something in the memory. -/
theorem mem_given {α : Type} {r : Except Failure α} {f : α → List StreamOperation}
    {op : StreamOperation} : op ∈ given r f ↔ ∃ a, r = .ok a ∧ op ∈ f a := by
  cases r <;> simp [given]

/-- What system calls do makes no entries of its own. -/
theorem isNote_of_mem_deed {m : Machine} {x : Deed} {op : StreamOperation}
    (hop : op ∈ x.operations m) : op.isNote = false := by
  have hwrite {t : Text} (hmem : op ∈ t.map StreamOperation.write) : op.isNote = false := by
    obtain ⟨c, -, rfl⟩ := List.mem_map.mp hmem
    rfl
  cases x with
  | operate op' hcall =>
    rw [List.mem_singleton.mp hop]
    cases op' with
    | note e => cases hcall
    | _ => rfl
  | write t => exact hwrite hop
  | format pieces v => exact hwrite hop
  | readNumber =>
    rw [List.eq_of_mem_replicate hop]
    rfl
  | _ => cases hop

/-- Plans make no entries of their own. -/
theorem isNote_of_mem_plan {m : Machine} {p : Plan} {op : StreamOperation}
    (hop : op ∈ p.operations m) : op.isNote = false := by
  induction p with
  | word a next ih =>
    obtain ⟨v, -, hv⟩ := mem_given.mp hop
    exact ih v hv
  | byte b next ih =>
    obtain ⟨c, -, hc⟩ := mem_given.mp hop
    exact ih c hc
  | string a next ih =>
    obtain ⟨t, -, ht⟩ := mem_given.mp hop
    exact ih t ht
  | registers next ih => exact ih m.registers hop
  | perform x => exact isNote_of_mem_deed hop
  | answer x => exact isNote_of_mem_deed hop

/-- Instructions make no entries of their own. -/
theorem isNote_of_mem_executeOperations {m : Machine} {d : Cell} {f : Function}
    {op : StreamOperation} (hop : op ∈ m.executeOperations d f) : op.isNote = false := by
  cases f with
  | call =>
    rw [executeOperations, systemOperations] at hop
    split at hop
    · split at hop
      · cases hop
      · split at hop
        · rw [← operations_callPlan] at hop
          exact isNote_of_mem_plan hop
        · cases hop
    · cases hop
  | _ => cases hop

/-- Executing an instruction shows no other one. -/
theorem sameTrace_execute {bindings : Bindings} (htrace : bindings.KeepTrace) (f : Function)
    (d : Cell) (m : Machine) :
    m.peripherals.SameTrace ((execute bindings f d).final m).peripherals := by
  have hown (hsame : execute bindings f d m = execute {} f d m) :
      m.peripherals.SameTrace ((execute bindings f d).final m).peripherals := by
    rw [final, hsame]
    change m.peripherals.SameTrace ((execute {} f d).final m).peripherals
    rw [conducts_execute conducts_systemCall f d m]
    exact StreamOperation.sameTrace_attempted (fun _ => isNote_of_mem_executeOperations) _
  by_cases hf : f = .call
  · subst hf
    cases hbound : bindings.get? m.a with
    | none => exact hown (by rw [call_apply, call_apply, systemCall_of_unbound hbound])
    | some handler =>
      by_cases hbelow : m.a.signed < codeStart
      · rw [final, call_apply, if_pos hbelow, systemCall_of_bound hbound]
        exact htrace m.a handler hbound _ m
      · exact hown (by rw [call_apply, call_apply, if_neg hbelow, if_neg hbelow])
  · exact hown (by rw [execute_of_ne_call hf])

/-- An instruction that can be decoded is shown by its entry. -/
theorem shows_traceStep {m : Machine} {i : Instruction} (hdecode : m.decode = .ok i) :
    (m.traceStep i).Shows m := by
  obtain ⟨w, d, hword, hraw, hopcode, hoperand⟩ := Instruction.of_decode hdecode
  refine ⟨rfl, ⟨rfl, rfl, rfl⟩, w, d, _, hword, ?_, rfl, ?_, ?_⟩
  · rw [Instruction.rawOperand, w.isLong_eq] at hraw
    by_cases hlong : w.getLsbD 5 = true
    · rw [if_pos hlong] at hraw ⊢
      cases hnext : m.memory.word (m.pc + 1) with
      | error e =>
        rw [hnext] at hraw
        cases hraw
      | ok d' =>
        rw [hnext] at hraw
        exact congrArg (Except.ok ∘ Prod.fst) (Except.ok.inj hraw)
    · rw [if_neg hlong] at hraw ⊢
      exact (congrArg Prod.fst (Except.ok.inj hraw)).symm
  · exact (congrArg Opcode.letters hopcode).trans (Opcode.letters_ofWord w)
  · have hindirect : (Opcode.ofWord w).indirect = w.getLsbD 3 := w.isIndirect_eq
    have hlocated : (Opcode.ofWord w).located d m.sp = if w.getLsbD 4 then d + m.sp else d := by
      rw [← w.isFramed_eq]
      rfl
    rw [Opcode.effective, hindirect, hlocated] at hoperand
    by_cases hset : w.getLsbD 3 = true
    · rw [if_pos hset] at hoperand ⊢
      exact hoperand
    · rw [if_neg hset] at hoperand ⊢
      exact (Except.ok.inj hoperand).symm

section Step

variable {bindings : Bindings} {m m' : Machine}

/-- A step shows the instruction that it decodes, whatever becomes of it. -/
theorem step_stepEntries (htrace : bindings.KeepTrace) (htracing : m.peripherals.tracing = true)
    {i : Instruction} (hdecode : m.decode = .ok i) :
    (step bindings m).2.peripherals.tracing = true ∧
      (step bindings m).2.peripherals.stepEntries =
        m.peripherals.stepEntries ++ [m.traceStep i] := by
  obtain ⟨hkept, hentry⟩ := Peripherals.stepEntries_traced htracing (m.traceStep i)
  obtain ⟨htracing', hentries⟩ :=
    sameTrace_execute htrace i.opcode.function i.operand (m.ready i)
  rw [step_of_ok hdecode, endStep_peripherals]
  exact ⟨htracing'.trans hkept, hentries.trans hentry⟩

/-- The machine after a number of steps. -/
def afterSteps (bindings : Bindings) : Nat → Machine → Machine
  | 0, m => m
  | n + 1, m => afterSteps bindings n (step bindings m).2

/-- One more step after a number of them. -/
theorem afterSteps_succ (bindings : Bindings) (n : Nat) (m : Machine) :
    afterSteps bindings (n + 1) m = (step bindings (afterSteps bindings n m)).2 := by
  induction n generalizing m with
  | zero => rfl
  | succ n ih => exact ih (step bindings m).2

/-- Completed instructions lead where their number says. -/
theorem Steps.eq_afterSteps {n : Nat} (h : Steps bindings n m m') :
    m' = afterSteps bindings n m := by
  induction h with
  | zero m => rfl
  | succ hstep _ ih => rw [ih, afterSteps, hstep]

/-- All but the last of the machines on the way go on. -/
theorem Steps.running {n : Nat} (h : Steps bindings n m m') {k : Nat} (hk : k < n) :
    (step bindings (afterSteps bindings k m)).1 = .running := by
  induction h generalizing k with
  | zero m => cases hk
  | succ hstep _ ih =>
    cases k with
    | zero => rw [afterSteps, hstep]
    | succ k =>
      have hnext := ih (Nat.lt_of_succ_lt_succ hk)
      rw [afterSteps, hstep]
      exact hnext

/-- Entries show the instructions of a machine one after the other, from the next one on. -/
def Shown (bindings : Bindings) (m : Machine) (entries : List TraceStep) : Prop :=
  ∀ (k : Nat) (s : TraceStep), entries[k]? = some s → s.Shows (afterSteps bindings k m)

/-- The entry of the next instruction comes first. -/
theorem Shown.cons {s : TraceStep} {entries : List TraceStep} (hs : s.Shows m)
    (hentries : Shown bindings (step bindings m).2 entries) :
    Shown bindings m (s :: entries) := by
  intro k s' hk
  cases k with
  | zero =>
    cases hk
    exact hs
  | succ k => exact hentries k s' hk

/-- More instructions are shown after the first ones. -/
theorem Shown.append {entries more : List TraceStep} (hentries : Shown bindings m entries)
    (hmore : Shown bindings (afterSteps bindings entries.length m) more) :
    Shown bindings m (entries ++ more) := by
  induction entries generalizing m with
  | nil => exact hmore
  | cons s entries ih =>
    exact .cons (hentries 0 s rfl) (ih (fun k s' hk => hentries (k + 1) s' hk) hmore)

/-- Each entry is where the instruction before it has left the program counter. -/
theorem Shown.pc_succ {entries : List TraceStep} (hentries : Shown bindings m entries) {k : Nat}
    {s : TraceStep} (hs : entries[k + 1]? = some s) :
    s.pc = (step bindings (afterSteps bindings k m)).2.pc := by
  rw [(hentries (k + 1) s hs).pc, afterSteps_succ]

/-- Completed instructions are shown one after the other. -/
theorem Steps.shown (htrace : bindings.KeepTrace) {n : Nat} (h : Steps bindings n m m')
    (htracing : m.peripherals.tracing = true) :
    m'.peripherals.tracing = true ∧
      ∃ entries, entries.length = n ∧ Shown bindings m entries ∧
        m'.peripherals.stepEntries = m.peripherals.stepEntries ++ entries := by
  induction h with
  | zero m => exact ⟨htracing, [], rfl, fun _ _ h => (by cases h), (List.append_nil _).symm⟩
  | @succ n m next m' hstep _ ih =>
    obtain ⟨i, -, hdecode, -⟩ := step_eq_running_iff.mp hstep
    obtain ⟨htracing', hfirst⟩ := step_stepEntries htrace htracing hdecode
    rw [hstep] at htracing' hfirst
    obtain ⟨hlast, entries, hlength, hshown, hentries⟩ := ih htracing'
    refine ⟨hlast, m.traceStep i :: entries, congrArg (· + 1) hlength,
      .cons (shows_traceStep hdecode) (by rw [hstep]; exact hshown), ?_⟩
    rw [hentries, hfirst, List.append_assoc]
    rfl

end Step

/-- How a run ends when the instruction at an address fails. -/
def Ending.ofFailure (pc : Int) : Failure → Ending
  | .address a => .ended 0 (some ⟨[addressText a], .fatal .machineFault pc⟩)
  | .report r => .ended 0 (some r)
  | e => .broken e

/-- What a failure amounts to. -/
theorem conclude_ofFailure (pc : Int) (e : Failure) (m : Machine) :
    (conclude (.ofFailure pc e, m)).1 = .ofFailure pc e := by
  cases e with
  | address a => exact congrArg Prod.fst (finish_apply ..)
  | report r => exact congrArg Prod.fst (finish_apply ..)
  | _ => rfl

/-- The end of a run neither shows nor counts an instruction. -/
theorem conclude_keeps (progress : Progress) (m : Machine) :
    m.peripherals.SameTrace (conclude (progress, m)).2.peripherals ∧
      (conclude (progress, m)).2.instructions = m.instructions := by
  have hfinish (result : Cell) (error : Option Report) :
      m.peripherals.SameTrace (finish result error m).2.peripherals ∧
        (finish result error m).2.instructions = m.instructions := by
    rw [finish_apply]
    exact ⟨Trans.trans m.peripherals.sameTrace_flushed (Peripherals.sameTrace_traced _ rfl), rfl⟩
  cases progress with
  | running => exact ⟨Std.Refl.refl _, rfl⟩
  | stopped result => exact hfinish result none
  | failed r => exact hfinish 0 (some r)
  | broken e => exact ⟨Std.Refl.refl _, rfl⟩

/-- The exits of a run after a number of completed instructions: how it ends, how many instructions
are counted and how many are noted. -/
inductive Exit (bindings : Bindings) (limit n : Nat) (before : Machine) : Ending → Nat → Nat → Prop
  /-- The run is at its bound. -/
  | limited (hbound : n = limit) : Exit bindings limit n before .limited n n
  /-- One more instruction is completed and stops the program. -/
  | stopped {result : Cell} {after : Machine}
      (hstep : step bindings before = (.stopped result, after)) :
      Exit bindings limit n before (.ended result (finalError none after.peripherals))
        (n + 1) (n + 1)
  /-- The next instruction cannot be decoded. -/
  | undecoded {e : Failure} (hdecode : before.decode = .error e) :
      Exit bindings limit n before (.ofFailure before.pc e) n n
  /-- The next instruction is decoded and fails. -/
  | failed {i : Instruction} {e : Failure} {after : Machine} (hdecode : before.decode = .ok i)
      (hexecute :
        execute bindings i.opcode.function i.operand (before.ready i) = .error e after) :
      Exit bindings limit n before (.ofFailure before.pc e) n (n + 1)

section Run

variable {bindings : Bindings} {m before : Machine} {n : Nat}

/-- A run that is not at its bound ends with one more step. What is noted and counted in it tells
the exits apart. -/
theorem exit_of_step (hcount : bindings.KeepCount) (htrace : bindings.KeepTrace)
    (htracing : before.peripherals.tracing = true)
    (hends : (step bindings before).1 ≠ .running) (limit : Nat) :
    let last := (conclude (step bindings before)).2
    ∃ more, Shown bindings before more ∧
      last.peripherals.stepEntries = before.peripherals.stepEntries ++ more ∧
      ∃ counted, last.instructions = before.instructions + counted ∧
        Exit bindings limit n before (conclude (step bindings before)).1 (n + counted)
          (n + more.length) := by
  intro last
  subst last
  cases hdecode : before.decode with
  | error e =>
    rw [step_of_error hdecode]
    obtain ⟨⟨-, hkept⟩, hsame⟩ := conclude_keeps (.ofFailure before.pc e) before
    refine ⟨[], fun k s hk => (by cases hk), hkept.trans (List.append_nil _).symm, 0, hsame, ?_⟩
    rw [conclude_ofFailure]
    exact .undecoded hdecode
  | ok i =>
    obtain ⟨-, hnoted⟩ := step_stepEntries htrace htracing hdecode
    have hshown : Shown bindings before [before.traceStep i] :=
      .cons (shows_traceStep hdecode) fun k s hk => by cases hk
    have hsame := execute_instructions hcount i.opcode.function i.operand (before.ready i)
    rw [final] at hsame
    rw [step_of_ok hdecode] at hends hnoted ⊢
    cases hexecute : execute bindings i.opcode.function i.operand (before.ready i) with
    | error e after =>
      rw [hexecute] at hnoted hsame
      obtain ⟨⟨-, hkept⟩, hcounted⟩ :=
        conclude_keeps (.ofFailure before.pc e) { after with pc := before.pc }
      refine ⟨_, hshown, hkept.trans hnoted, 0, hcounted.trans hsame, ?_⟩
      rw [endStep, conclude_ofFailure]
      exact .failed hdecode hexecute
    | ok u after =>
      rw [hexecute, endStep, verdict_counted] at hends
      rw [hexecute] at hnoted hsame
      cases hverdict : after.verdict with
      | none =>
        rw [hverdict] at hends
        exact absurd rfl hends
      | some result =>
        have hstep : step bindings before =
            (.stopped result, { after with instructions := after.instructions + 1 }) := by
          rw [step_of_ok hdecode, hexecute, endStep, verdict_counted, hverdict]
        rw [endStep, verdict_counted, hverdict] at hnoted ⊢
        obtain ⟨⟨-, hkept⟩, hcounted⟩ := conclude_keeps (.stopped result)
          { after with instructions := after.instructions + 1 }
        refine ⟨_, hshown, hkept.trans hnoted, 1, hcounted.trans (congrArg (· + 1) hsame), ?_⟩
        have hexit : Exit bindings limit n before _ _ _ := .stopped hstep
        rw [conclude, finish_apply]
        exact hexit

/-- The start of a run shows no instruction. -/
theorem sameTrace_started (m : Machine) : m.peripherals.SameTrace m.started.peripherals :=
  Peripherals.sameTrace_traced _ rfl

/-- The entries of a run show its completed instructions and what its end adds to them. -/
theorem Steps.exists_entries (htrace : bindings.KeepTrace) {last : Machine}
    (hsteps : Steps bindings n m.started before) (htracing : m.peripherals.tracing = true)
    {more : List TraceStep} (hmore : Shown bindings before more)
    (hlast : last.peripherals.stepEntries = before.peripherals.stepEntries ++ more) :
    ∃ entries, entries.length = n + more.length ∧ Shown bindings m.started entries ∧
      last.peripherals.stepEntries = m.peripherals.stepEntries ++ entries := by
  obtain ⟨htracing', hstart⟩ := m.sameTrace_started
  obtain ⟨-, entries, rfl, hshown, hentries⟩ := hsteps.shown htrace (htracing'.trans htracing)
  refine ⟨entries ++ more, List.length_append, hshown.append ?_, ?_⟩
  · rwa [← hsteps.eq_afterSteps]
  · rw [hlast, hentries, hstart, List.append_assoc]

/-- A run completes a number of instructions and then takes one of its exits. -/
theorem run_exit (hcount : bindings.KeepCount) (htrace : bindings.KeepTrace)
    (htracing : m.peripherals.tracing = true) {limit : Nat} {ending : Ending} {last : Machine}
    (hrun : run bindings limit m = (ending, last)) :
    ∃ n before more, Steps bindings n m.started before ∧ Shown bindings before more ∧
      last.peripherals.stepEntries = before.peripherals.stepEntries ++ more ∧
      Exit bindings limit n before ending last.instructions (n + more.length) := by
  have hzero : m.started.instructions = 0 := rfl
  rw [run, start_apply] at hrun
  change conclude (proceed bindings limit m.started) = _ at hrun
  rcases proceed_cases bindings limit m.started with ⟨before, hsteps, heq⟩ |
    ⟨n, before, -, hsteps, hends, heq⟩
  · rw [heq] at hrun
    cases hrun
    refine ⟨limit, last, [], hsteps, fun k s hk => (by cases hk), (List.append_nil _).symm, ?_⟩
    rw [hsteps.instructions hcount, hzero, Nat.zero_add]
    exact .limited rfl
  · have htraced := (hsteps.shown htrace (m.sameTrace_started.1.trans htracing)).1
    obtain ⟨more, hmore, hlast, counted, hcounted, hexit⟩ :=
      exit_of_step hcount htrace htraced hends limit
    rw [heq] at hrun
    rw [hrun] at hlast hcounted hexit
    refine ⟨n, before, more, hsteps, hmore, hlast, ?_⟩
    rw [hcounted, hsteps.instructions hcount, hzero, Nat.zero_add]
    exact hexit

end Run

/-- The trace of a run is its execution. The entries that a traced run adds show its instructions
one after the other, the first at the start of the code and each of the others where the
instruction before it has left the program counter. There are as many entries as instructions are
counted if the last instruction stops the program or cannot be decoded, and one more if it fails
after it has been decoded. -/
theorem trace_shows_run {bindings : Bindings} (hcount : bindings.KeepCount)
    (htrace : bindings.KeepTrace) {m : Machine} (htracing : m.peripherals.tracing = true)
    {limit : Nat} {ending : Ending} {last : Machine}
    (hrun : run bindings limit m = (ending, last)) :
    let state k := afterSteps bindings k m.started
    ∃ (n : Nat) (entries : List TraceStep),
      (∀ k < n, (step bindings (state k)).1 = .running) ∧
      last.peripherals.stepEntries = m.peripherals.stepEntries ++ entries ∧
      (∀ (k : Nat) (s : TraceStep), entries[k]? = some s → s.Shows (state k)) ∧
      (∀ s, entries[0]? = some s → s.pc = 401) ∧
      (∀ k s, entries[k + 1]? = some s → s.pc = (step bindings (state k)).2.pc) ∧
      Exit bindings limit n (state n) ending last.instructions entries.length := by
  intro state
  obtain ⟨n, before, more, hsteps, hmore, hlast, hexit⟩ := run_exit hcount htrace htracing hrun
  obtain ⟨entries, hlength, hshown, hentries⟩ :=
    hsteps.exists_entries htrace htracing hmore hlast
  refine ⟨n, entries, fun k => hsteps.running, hentries, hshown,
    fun s hs => (hshown 0 s hs).pc, fun k s hs => hshown.pc_succ hs, ?_⟩
  rw [hlength]
  rwa [hsteps.eq_afterSteps] at hexit

/-- A traced machine whose entry code makes the system call with code 5. -/
def observed : Machine where
  memory := (Memory.ofFn 404 initialCell).setCell 1 5
  lomem := 404
  peripherals := .ofDefaults (.script [] none) (.device {}) default true

/-- A host that refuses the call with code 5. -/
def refusing : Bindings := ⟨[(5, some Handler.refuse)]⟩

/-- The only handler is the one that refuses. -/
theorem eq_refuse_of_refusing {code : Cell} {handler : Handler}
    (hbound : refusing.get? code = some handler) : handler = Handler.refuse := by
  unfold refusing Bindings.get? at hbound
  rw [List.lookup_cons] at hbound
  split at hbound
  · cases hbound
    rfl
  · cases hbound

/-- The first instruction loads the code and is completed. The second one is noted where the first
has left the program counter, and fails in the handler before it is counted. -/
theorem trace_shows_run_observed :
    let last := (run refusing 9 observed).2
    run refusing 9 observed = (.ended 0 (some ⟨[], .handler⟩), last) ∧
      last.peripherals.stepEntries =
        [⟨401, ⟨.load, true, false⟩, 5, 0, 0, 404⟩, ⟨402, ⟨.call, false, false⟩, 2, 5, 0, 404⟩] ∧
      last.instructions = 1 ∧
      ∃ s : TraceStep, s.Shows (afterSteps refusing 1 observed.started) ∧ s.pc = 402 ∧
        s.opcode.letters = Text.ofAscii "K" ∧ s.operand = 2 := by
  intro last
  have hended : (run refusing 9 observed).1 = .ended 0 (some ⟨[], .handler⟩) := by decide +kernel
  have hrun : run refusing 9 observed = (.ended 0 (some ⟨[], .handler⟩), last) := by rw [← hended]
  have hlast : last.peripherals.stepEntries =
      [⟨401, ⟨.load, true, false⟩, 5, 0, 0, 404⟩, ⟨402, ⟨.call, false, false⟩, 2, 5, 0, 404⟩] := by
    decide +kernel
  have hcount : refusing.KeepCount := by
    intro code handler hbound args
    rw [eq_refuse_of_refusing hbound]
    exact fun m => rfl
  have htrace : refusing.KeepTrace := by
    intro code handler hbound args
    rw [eq_refuse_of_refusing hbound]
    exact fun m => Std.Refl.refl m.peripherals
  refine ⟨hrun, hlast, by decide +kernel, ?_⟩
  obtain ⟨n, entries, -, hentries, hshows, -, -, -⟩ := trace_shows_run hcount htrace rfl hrun
  rw [hlast] at hentries
  obtain rfl : _ = entries := hentries
  exact ⟨_, hshows 1 _ rfl, rfl, by decide, rfl⟩

end Machine

end Intcode
