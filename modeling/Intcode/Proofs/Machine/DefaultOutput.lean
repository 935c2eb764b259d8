import Intcode.Proofs.Machine.Conduct
import Intcode.Proofs.Streams.Ledger

/-!
# Default output is never lost

The default output is written to and flushed from many places, and each of them may
fail half way. Whatever happens, the bytes that it has taken are on its device or
held back, in order.

Main statement: this holds after any requests to a machine. Once a write of the
device has failed, the device holds all that it has room for, and nothing is taken
any more. What ends a line on the default output, flushes it or runs a program, and
succeeds, leaves nothing held back.
-/

namespace Intcode

namespace Peripherals

/-- The byte that an operation gives to the default output, if it is taken. -/
def accepting (op : StreamOperation) (p : Peripherals) : Text :=
  if p.output = defaultOutput then op.bytes.flatMap (p.taking defaultOutput) else []

/-- The bytes that operations give to the default output one after the other, and that it takes. -/
def accepted : List StreamOperation → Peripherals → Text
  | [], _ => []
  | op :: ops, p => accepting op p ++ accepted ops (op.action.final p)

/-- What operations in two parts have taken. -/
theorem accepted_append (ops ops' : List StreamOperation) (p : Peripherals) :
    accepted (ops ++ ops') p = accepted ops p ++ accepted ops' (after ops p) := by
  induction ops generalizing p with
  | nil => rfl
  | cons op ops ih => rw [List.cons_append, accepted, ih, ← List.append_assoc, accepted, after]

/-- What has reached the device of the default output. -/
def onDevice (p : Peripherals) : Text :=
  match p.streams.get? defaultOutput with
  | some ⟨.output o, _⟩ => o.sink.delivered p.host
  | _ => []

/-- What the default output holds back. -/
def heldBack (p : Peripherals) : Text :=
  match p.streams.get? defaultOutput with
  | some ⟨.output o, _⟩ => o.backlog.text
  | _ => []

/-- Whether a write of the default output has failed. -/
def hasFailed (p : Peripherals) : Bool :=
  match p.streams.get? defaultOutput with
  | some ⟨.output o, _⟩ => o.failed.isSome
  | _ => false

section Ledger

variable {p : Peripherals} {limit : Option Nat} {taken : Text}

/-- Other files of the host do not matter to a ledger. -/
theorem Keeps.withHost {h : Cell} {file? : Option Nat} (hp : p.Keeps h file? limit taken)
    {host : Host}
    (hbody : ∀ f ∈ file?, host.body f = p.host.body f ∧
      p.host.bodies.size ≤ host.bodies.size) :
    (p.withHost host).Keeps h file? limit taken := by
  obtain ⟨⟨o, closer, hopen, hfile, haccounts⟩, hsole⟩ := hp
  exact ⟨⟨o, closer, hopen, hfile, haccounts.congr_host (hfile ▸ hbody)⟩, hsole⟩

/-- An operation that opens or creates no file adds to the ledger of the default output what that
takes. -/
theorem Keeps.final_of_not_isFind {file? : Option Nat}
    (hp : p.Keeps defaultOutput file? limit taken) {op : StreamOperation}
    (hop : op.isFind = false) :
    (op.action.final p).Keeps defaultOutput file? limit (taken ++ accepting op p) := by
  by_cases hwrites : (op.scope p).writes defaultOutput
  · have hselected (houtput : p.output = defaultOutput) : p.Keeps p.output file? limit taken := by
      rw [houtput]
      exact hp
    cases op with
    | write c =>
      have houtput : p.output = defaultOutput := Eq.symm hwrites
      have hwritten := (hselected houtput).writeCharacter c
      rw [StreamOperation.action, Action.final_bind_pure, accepting, if_pos houtput,
        StreamOperation.bytes_write, List.flatMap_singleton]
      rwa [houtput] at hwritten
    | newline =>
      have houtput : p.output = defaultOutput := Eq.symm hwrites
      have hwritten := (hselected houtput).newline
      rw [StreamOperation.action, Action.final_bind_pure, accepting, if_pos houtput,
        StreamOperation.bytes_newline, List.flatMap_singleton]
      rwa [houtput] at hwritten
    | _ => exact hwrites.elim
  · have hnone : accepting op p = [] := by
      unfold accepting
      by_cases houtput : p.output = defaultOutput
      · rw [if_pos houtput]
        cases op with
        | write c => exact absurd (Eq.symm houtput) hwrites
        | newline => exact absurd (Eq.symm houtput) hwrites
        | _ => rfl
      · rw [if_neg houtput]
    have hcreates (f : Nat) : ¬ (op.scope p).creates f := by
      cases op with
      | findOutput name => cases hop
      | _ => exact id
    rw [hnone, List.append_nil]
    exact hp.of_reaches (StreamOperation.reaches_of_not_isFind hop p) hwrites (.inr rfl)
      fun f _ => hcreates f

/-- Opening and creating files writes nothing. -/
theorem accepting_of_isFind {op : StreamOperation} (hop : op.isFind = true) (p : Peripherals) :
    accepting op p = [] := by
  cases op with
  | findInput name => exact ite_self _
  | findOutput name => exact ite_self _
  | _ => cases hop

/-- An operation adds to the ledger of a default output with a device of its own what that takes. -/
theorem Keeps.final (hp : p.Keeps defaultOutput none limit taken) (op : StreamOperation) :
    (op.action.final p).Keeps defaultOutput none limit (taken ++ accepting op p) := by
  cases hfind : op.isFind with
  | false => exact hp.final_of_not_isFind hfind
  | true =>
    rw [accepting_of_isFind hfind, List.append_nil]
    have hwrites : ¬ (op.scope p).writes defaultOutput := by
      cases op with
      | findInput name => exact id
      | findOutput name => exact id
      | _ => cases hfind
    rcases op.final_reaches p with hreach | ⟨-, host, -, hhost⟩
    · exact hp.of_reaches hreach hwrites (.inr rfl) fun f hf => absurd hf (by simp)
    · rw [hhost]
      exact hp.withHost fun _ hf => by cases hf

/-- Operations add to the ledger of the default output what that takes. -/
theorem Keeps.after (hp : p.Keeps defaultOutput none limit taken) (ops : List StreamOperation) :
    (after ops p).Keeps defaultOutput none limit (taken ++ accepted ops p) := by
  induction ops generalizing p taken with
  | nil =>
    rw [accepted, List.append_nil]
    exact hp
  | cons op ops ih =>
    rw [accepted, ← List.append_assoc]
    exact ih (hp.final op)

/-- What has been taken is on the device or held back. -/
theorem Keeps.onDevice_append (hp : p.Keeps defaultOutput none limit taken) :
    p.onDevice ++ p.heldBack = taken := by
  obtain ⟨o, closer, hopen, -, haccounts⟩ := hp.stream
  simp only [onDevice, heldBack, hopen]
  exact haccounts.text

/-- Once a write has failed, the device is full. -/
theorem Keeps.onDevice_of_hasFailed (hp : p.Keeps defaultOutput none limit taken)
    (hfailed : p.hasFailed = true) :
    limit = some p.onDevice.length ∧ p.onDevice = taken.take p.onDevice.length := by
  have htext := hp.onDevice_append
  obtain ⟨o, closer, hopen, -, haccounts⟩ := hp.stream
  simp only [hasFailed, hopen] at hfailed
  have hfull := haccounts.full (Option.isSome_iff_ne_none.mp hfailed)
  rw [← htext, List.take_left]
  simp only [onDevice, hopen]
  exact ⟨hfull, trivial⟩

/-- A stream that has failed takes nothing. -/
theorem taking_of_hasFailed (hfailed : p.hasFailed = true) (c : UInt8) :
    p.taking defaultOutput c = [] := by
  unfold hasFailed at hfailed
  unfold taking
  rcases hstream : p.streams.get? defaultOutput with _ | ⟨i | o, closer⟩
  · rfl
  · rfl
  · simp only [hstream] at hfailed
    obtain ⟨e, he⟩ := Option.isSome_iff_exists.mp hfailed
    simp only [Output.put_of_failed he, reduceCtorEq, if_false]

/-- A move leaves a failure of the default output as it is. -/
theorem Move.hasFailed {scope : Scope} {q : Peripherals} {k : Cell} (hmove : Move scope p k q)
    (hfailed : p.hasFailed = true) : q.hasFailed = true := by
  have htable := hmove.touches.table
  by_cases hk : k = defaultOutput
  · subst hk
    unfold Peripherals.hasFailed at hfailed ⊢
    rcases hopen : p.streams.get? defaultOutput with _ | ⟨i | o, closer⟩
    · simp [hopen] at hfailed
    · simp [hopen] at hfailed
    · simp only [hopen] at hfailed
      obtain ⟨e, he⟩ := Option.isSome_iff_exists.mp hfailed
      have hflush : o.flush p.host = (some e, o, p.host) := by simp only [Output.flush, he]
      -- Neither a flush nor a write changes a stream that has failed.
      cases hmove with
      | note k e => simp only [hopen, hfailed]
      | select k i o => simp only [hopen, hfailed]
      | flush hstream =>
        rw [hopen] at hstream
        cases hstream
        simp [get?_withStream, hopen, Stream.flush, hflush, hfailed]
      | read _ hstream =>
        rw [hopen] at hstream
        cases hstream
      | write c _ hstream =>
        rw [hopen] at hstream
        cases hstream
        simp [get?_withStream, hopen, Output.put_of_failed he, hfailed]
      | finish _ hne _ => exact absurd rfl hne.2
      | settle _ hstream =>
        rw [hopen] at hstream
        cases hstream
        simp [get?_withStream, hopen, (Stream.close_eq _ p.host).1, Stream.flush, hflush, hfailed]
      | find _ _ hfree => exact absurd (hopen.symm.trans (freeHandle?_eq_some hfree).1) (by simp)
      | create _ _ hfree => exact absurd (hopen.symm.trans (freeHandle?_eq_some hfree).1) (by simp)
  · unfold Peripherals.hasFailed at hfailed ⊢
    rwa [htable defaultOutput (Ne.symm hk)]

/-- After a failure nothing is taken any more. -/
theorem accepted_of_hasFailed (hfailed : p.hasFailed = true) (ops : List StreamOperation) :
    accepted ops p = [] := by
  induction ops generalizing p with
  | nil => rfl
  | cons op ops ih =>
    have hfinal : (op.action.final p).hasFailed = true := by
      rcases op.final_reaches p with hreach | ⟨-, host, -, hhost⟩
      · exact hreach.preserves (fun _ _ _ hmove hr => hmove.hasFailed hr) hfailed
      · rw [hhost]
        exact hfailed
    have hnone : p.taking defaultOutput = fun _ => [] := funext (taking_of_hasFailed hfailed)
    rw [accepted, ih hfinal, accepting, hnone, List.append_nil]
    split
    · exact List.flatMap_eq_nil_iff.mpr fun _ _ => rfl
    · rfl

/-- A flush that succeeds leaves nothing held back. -/
theorem Keeps.heldBack_flushed (hp : p.Keeps defaultOutput none limit taken)
    (hflush : p.flushError = none) : p.flushed.heldBack = [] := by
  obtain ⟨o, closer, hopen, -, haccounts⟩ := hp.stream
  simp only [flushError, hopen, Stream.flush] at hflush
  simp only [heldBack, get?_flushed, hopen, if_pos, Option.map_some, Stream.flush]
  exact (haccounts.flush.2.1 hflush).1

/-- A line that is ended on the default output with success leaves nothing held back. -/
theorem Keeps.heldBack_newline {q : Peripherals} (hp : p.Keeps defaultOutput none limit taken)
    (houtput : p.output = defaultOutput) (hline : Peripherals.newline p = .ok () q) :
    q.heldBack = [] := by
  have hselected : p.Keeps p.output none limit taken := by
    rw [houtput]
    exact hp
  have hput := hselected.putByte "newline failed" Text.lineFeed
  obtain ⟨-, hselected⟩ := p.putByte_reaches "newline failed" Text.lineFeed
  rw [Action.final] at hput hselected
  rw [newline_apply] at hline
  cases hbyte : Peripherals.putByte "newline failed" Text.lineFeed p with
  | error e r => simp [hbyte] at hline
  | ok u r =>
    rw [hbyte, houtput] at hput hselected
    simp only [Action.stateOf_ok] at hput hselected
    simp only [hbyte, if_pos hselected] at hline
    cases hflush : r.flushError with
    | some e => simp [hflush, concluded] at hline
    | none =>
      simp only [hflush, concluded, EStateM.Result.ok.injEq, true_and] at hline
      rw [← hline]
      exact hput.heldBack_flushed hflush

end Ledger

/-- A new default output has taken nothing. -/
theorem keeps_ofDefaults (source : Source) (limit : Option Nat) (host : Host) (tracing : Bool) :
    (ofDefaults source (.device { room := limit }) host tracing).Keeps defaultOutput none limit
      [] := by
  refine ⟨⟨{ sink := .device { room := limit } }, none, ?_, rfl, ?_⟩, ?_⟩
  · simp only [ofDefaults, StreamTable.get?_insert, if_pos]
  · refine ⟨trivial, rfl, ?_, fun l _ => Nat.zero_le l, fun hne => absurd rfl hne⟩
    cases limit <;> rfl
  · intro f hf
    cases hf

end Peripherals

/-- What a machine may be asked to do. -/
inductive Request where
  | stream (op : StreamOperation)
  | writeString (a : Int)
  | writeNumber (conversion : Conversion) (n : Cell) (width : Int)
  | writeFormat (args : Int)
  | readNumber
  /-- Puts a program into the memory. -/
  | load (memory : Memory) (lomem : Int)
  /-- Runs the program for at most the given number of instructions. -/
  | run (limit : Nat)

namespace Request

open Machine

/-- Whether an action succeeded, and the machine that it left. -/
def outcome {α : Type} : EStateM.Result Failure Machine α → Bool × Machine
  | .ok _ m => (true, m)
  | .error _ m => (false, m)

/-- Whether a machine has done what it was asked to do without an error, and the machine after
it. -/
def serve (m : Machine) : Request → Bool × Machine
  | stream op => outcome (onPeripherals op.action m)
  | writeString a => outcome (Machine.writeString a m)
  | writeNumber conversion n width => outcome (Machine.writeNumber conversion n width m)
  | writeFormat args => outcome (Machine.writeFormat args m)
  | readNumber => outcome (Machine.readNumber m)
  | load memory lomem => (true, { m with memory, lomem })
  | run limit =>
    match Machine.run {} limit m with
    | (.ended _ none, m) => (true, m)
    | (_, m) => (false, m)

/-- The operations on streams that a request leads to. -/
def operations (m : Machine) : Request → List StreamOperation
  | stream op => [op]
  | writeString a =>
    Peripherals.attempted (given (m.memory.string a) (·.map .write)) m.peripherals
  | writeNumber conversion n width =>
    Peripherals.attempted ((conversion.render width n).toText.map .write) m.peripherals
  | writeFormat args => Peripherals.attempted (m.formatOperations args) m.peripherals
  | readNumber => List.replicate m.peripherals.numberReads .read
  | load _ _ => []
  | run limit => m.runOperations limit

/-- Whether a request flushes the default output if it succeeds. -/
def flushes (m : Machine) : Request → Prop
  | stream .newline => m.peripherals.output = defaultOutput
  | stream .flush => True
  | run _ => True
  | _ => False

/-- The machine after requests one after the other. -/
def serveAll : List Request → Machine → Machine
  | [], m => m
  | r :: rs, m => serveAll rs (r.serve m).2

/-- The operations on streams that requests lead to one after the other. -/
def operationsAll : List Request → Machine → List StreamOperation
  | [], _ => []
  | r :: rs, m => r.operations m ++ operationsAll rs (r.serve m).2

/-- The machine that an outcome leaves. -/
theorem outcome_machine {α : Type} (r : EStateM.Result Failure Machine α) :
    (outcome r).2 = Action.stateOf r := by
  cases r <;> rfl

/-- The peripherals after a request are those that its operations lead to. -/
theorem serve_peripherals (r : Request) (m : Machine) :
    (r.serve m).2.peripherals = Peripherals.after (r.operations m) m.peripherals := by
  cases r with
  | stream op =>
    rw [serve, outcome_machine, operations, ← Peripherals.attempted_singleton op m.peripherals]
    exact conducts_operation op rfl
  | writeString a =>
    rw [serve, outcome_machine, operations]
    exact Conducts.read_bind (f := fun m => m.memory.string a) fun t _ =>
      conducts_writeThen t none m
  | writeNumber conversion n width =>
    rw [serve, outcome_machine, operations]
    exact conducts_writeNumber conversion n width m
  | writeFormat args =>
    rw [serve, outcome_machine, operations]
    exact conducts_writeFormat args m
  | readNumber =>
    rw [serve, outcome_machine, operations, ← Peripherals.attempted_reads _ m.peripherals]
    exact conducts_readNumber m
  | load memory lomem => rfl
  | run limit =>
    rw [operations, ← run_peripherals conducts_systemCall, serve]
    rcases Machine.run {} limit m with ⟨⟨_, _ | _⟩ | _ | _, last⟩ <;> rfl

/-- The peripherals after requests are those that their operations lead to. -/
theorem serveAll_peripherals (rs : List Request) (m : Machine) :
    (serveAll rs m).peripherals = Peripherals.after (operationsAll rs m) m.peripherals := by
  induction rs generalizing m with
  | nil => rfl
  | cons r rs ih => rw [serveAll, ih, operationsAll, Peripherals.after_append, serve_peripherals]

/-- A run that ends has flushed the default output after its last operations. If it ends without an
error, the flush has succeeded. -/
theorem flushed_of_run {bindings : Bindings} (hbindings : ActsAlike bindings) {n : Nat}
    {m m' : Machine} {result : Cell} {error : Option Report}
    (hrun : Machine.run bindings n m = (.ended result error, m')) :
    ∃ ops e, ops <+: m.runOperations n bindings ∧
      (error = none → (Peripherals.after ops m.peripherals).flushError = none) ∧
      m'.peripherals = (Peripherals.after ops m.peripherals).flushed.traced e := by
  refine ⟨traceOperations m.peripherals (.runStarted m.lomem m.memory.size) ++
    proceedOperations bindings n m.started, ?_⟩
  have hfirst : traceOperations m.peripherals (.runStarted m.lomem m.memory.size) ++
      proceedOperations bindings n m.started <+: m.runOperations n bindings := by
    rw [runOperations, ← List.append_assoc]
    exact List.prefix_append _ _
  rw [Peripherals.after_append, after_traceOperations]
  change ∃ e, _ ∧ (error = none → (Peripherals.after _ m.started.peripherals).flushError = none) ∧
    m'.peripherals = (Peripherals.after _ m.started.peripherals).flushed.traced e
  rw [← proceed_peripherals hbindings]
  simp only [Machine.run, start_apply, resume] at hrun
  generalize proceed bindings n m.started = progress at hrun ⊢
  obtain ⟨_ | value | report | failure, last⟩ := progress
  · cases hrun
  · rw [conclude, finish_apply] at hrun
    simp only [Prod.mk.injEq, Ending.ended.injEq] at hrun
    obtain ⟨⟨-, rfl⟩, rfl⟩ := hrun
    refine ⟨_, hfirst, fun herror => ?_, rfl⟩
    simpa [finalError] using herror
  · rw [conclude, finish_apply] at hrun
    simp only [Prod.mk.injEq, Ending.ended.injEq] at hrun
    obtain ⟨⟨-, rfl⟩, rfl⟩ := hrun
    exact ⟨_, hfirst, fun herror => by simp [finalError] at herror, rfl⟩
  · cases hrun

/-- A request that flushes the default output and succeeds leaves nothing held back. -/
theorem heldBack_of_flushes {r : Request} {m m' : Machine} {limit : Option Nat} {taken : Text}
    (hm : m.peripherals.Keeps defaultOutput none limit taken) (hflushes : r.flushes m)
    (hserve : r.serve m = (true, m')) : m'.peripherals.heldBack = [] := by
  cases r with
  | stream op =>
    rw [serve, onPeripherals_apply] at hserve
    cases op with
    | newline =>
      rw [StreamOperation.action, Action.bind_apply] at hserve
      cases hline : Peripherals.newline m.peripherals with
      | error e q => simp [hline, outcome] at hserve
      | ok u q =>
        simp only [hline, Action.pure_apply, outcome, Prod.mk.injEq, true_and] at hserve
        rw [← hserve]
        exact hm.heldBack_newline hflushes hline
    | flush =>
      rw [StreamOperation.action, Action.bind_apply, Peripherals.flush_apply] at hserve
      cases hflush : m.peripherals.flushError with
      | some e => simp [hflush, Peripherals.concluded, outcome] at hserve
      | none =>
        simp only [hflush, Peripherals.concluded, Action.pure_apply, outcome, Prod.mk.injEq,
          true_and] at hserve
        rw [← hserve]
        exact hm.heldBack_flushed hflush
    | _ => exact hflushes.elim
  | run n =>
    rw [serve] at hserve
    rcases hrun : Machine.run {} n m with ⟨⟨result, _ | report⟩ | _ | _, last⟩
    · rw [hrun] at hserve
      cases hserve
      obtain ⟨ops, e, -, hflush, hlast⟩ := flushed_of_run conducts_systemCall hrun
      rw [hlast, Peripherals.heldBack, Peripherals.traced_streams]
      exact (hm.after ops).heldBack_flushed (hflush rfl)
    all_goals
      rw [hrun] at hserve
      cases hserve
  | _ => exact hflushes.elim

/-- Default output is never lost, duplicated or put out of order. Requests to a machine with new
default streams lead to operations on streams, and after each of these the bytes that the default
output has taken are on its device or held back. Once a write of the device has failed, the device
holds as many of them as it has room for, and no operation adds to them. A request that flushes the
default output and succeeds leaves nothing held back. -/
theorem default_output_kept (m : Machine) (source : Source) (limit : Option Nat) (host : Host)
    (tracing : Bool) (rs : List Request) :
    let new := { m with peripherals := .ofDefaults source (.device { room := limit }) host tracing }
    (serveAll rs new).peripherals = Peripherals.after (operationsAll rs new) new.peripherals ∧
      (∀ ops, ops <+: operationsAll rs new →
        let p := Peripherals.after ops new.peripherals
        let taken := Peripherals.accepted ops new.peripherals
        p.onDevice ++ p.heldBack = taken ∧
          (p.hasFailed = true →
            (limit = some p.onDevice.length ∧ p.onDevice = taken.take p.onDevice.length) ∧
            ∀ later, Peripherals.accepted (ops ++ later) new.peripherals = taken)) ∧
      ∀ r m', flushes (serveAll rs new) r → r.serve (serveAll rs new) = (true, m') →
        m'.peripherals.heldBack = [] := by
  intro new
  have hkeeps (ops : List StreamOperation) :
      (Peripherals.after ops new.peripherals).Keeps defaultOutput none limit
        (Peripherals.accepted ops new.peripherals) :=
    (Peripherals.keeps_ofDefaults source limit host tracing).after ops
  refine ⟨serveAll_peripherals rs new, ?_, ?_⟩
  · intro ops _ p taken
    refine ⟨(hkeeps ops).onDevice_append, fun hfailed => ?_⟩
    refine ⟨(hkeeps ops).onDevice_of_hasFailed hfailed, fun later => ?_⟩
    rw [Peripherals.accepted_append, Peripherals.accepted_of_hasFailed hfailed, List.append_nil]
  · intro r m'
    exact heldBack_of_flushes (serveAll_peripherals rs new ▸ hkeeps (operationsAll rs new))

/-- Three characters and a flush. -/
def spelling : List Request :=
  [.stream (.write 65), .stream (.write 66), .stream (.write 67), .stream .flush]

/-- The machine that spells on a device with room for two bytes. -/
def cramped : Machine :=
  { (default : Machine) with
    peripherals := .ofDefaults (.script [] none) (.device { room := some 2 }) default false }

/-- A device with room for two bytes gets the first two of three, and the third is held back. -/
theorem default_output_kept_cramped :
    let p := Peripherals.after (operationsAll spelling cramped) cramped.peripherals
    p.hasFailed = true ∧ p.onDevice ++ p.heldBack = [65, 66, 67] ∧
      some 2 = some p.onDevice.length := by
  have hfailed : (Peripherals.after (operationsAll spelling cramped)
      cramped.peripherals).hasFailed = true := by decide +kernel
  have htaken : Peripherals.accepted (operationsAll spelling cramped) cramped.peripherals =
      [65, 66, 67] := by decide +kernel
  obtain ⟨htext, hfull⟩ := (default_output_kept default (.script [] none) (some 2) default false
    spelling).2.1 (operationsAll spelling cramped) List.prefix_rfl
  exact ⟨hfailed, htext.trans htaken, (hfull hfailed).1.1⟩

end Request

end Intcode
