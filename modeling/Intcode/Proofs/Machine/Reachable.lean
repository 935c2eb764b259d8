import Intcode.Machine.Load
import Intcode.Proofs.Machine.Steps
import Intcode.Proofs.Streams.Table

/-!
# Reachable machines

A host creates a machine, works its streams, loads programs and runs them, and binds
handlers of its own to system calls. A handler may do what it likes to the registers
and the memory, but it gets at the streams through their operations only.

Main statement: however a machine was reached, its stream table is in order.
-/

namespace Intcode

namespace Machine

/-- An action that changes the peripherals through operations on streams only. -/
def ActsByOperations {α : Type} (x : Action Machine α) : Prop :=
  ∀ m, ∃ ops, (x.final m).peripherals = Peripherals.after ops m.peripherals

section Actions

variable {α β : Type}

/-- An action whose operations are known. -/
theorem Conducts.actsByOperations {x : Action Machine α} {ops : Machine → List StreamOperation}
    (hx : ∀ m, Conducts x m (ops m)) : ActsByOperations x := fun m => ⟨_, hx m⟩

/-- An action that leaves the peripherals alone. -/
theorem Quiet.actsByOperations {x : Action Machine α} (hx : Quiet x) : ActsByOperations x :=
  fun m => ⟨[], hx m⟩

/-- Actions one after the other. -/
theorem ActsByOperations.bind {x : Action Machine α} {f : α → Action Machine β}
    (hx : ActsByOperations x) (hf : ∀ a, ActsByOperations (f a)) : ActsByOperations (x >>= f) := by
  intro m
  obtain ⟨ops, hops⟩ := hx m
  rw [Action.final] at hops
  rw [Action.final_bind]
  cases hrun : x m with
  | error e m' =>
    rw [hrun] at hops
    exact ⟨ops, hops⟩
  | ok a m' =>
    rw [hrun] at hops
    obtain ⟨later, hlater⟩ := hf a m'
    refine ⟨ops ++ later, ?_⟩
    rw [Peripherals.after_append, ← hops]
    exact hlater

/-- A single operation. -/
theorem actsByOperations_operation (op : StreamOperation) :
    ActsByOperations (onPeripherals op.action) :=
  Conducts.actsByOperations fun _ => conducts_operation op rfl

end Actions

end Machine

/-- All handlers change the peripherals through operations on streams only. -/
def Bindings.ActByOperations (b : Bindings) : Prop :=
  ∀ code handler, b.get? code = some handler → ∀ args, Machine.ActsByOperations (handler args)

namespace Machine

section Runs

variable {bindings : Bindings} (hbindings : bindings.ActByOperations)

include hbindings

/-- Every system call acts by operations. -/
theorem actsByOperations_systemCall (code : Cell) (args : Int) :
    ActsByOperations (systemCall bindings code args) := by
  cases hbound : bindings.get? code with
  | none =>
    rw [systemCall_of_unbound hbound]
    exact Conducts.actsByOperations (conducts_systemCall code args)
  | some handler =>
    rw [systemCall_of_bound hbound]
    exact hbindings code handler hbound args

/-- Every instruction acts by operations. -/
theorem actsByOperations_execute (f : Function) (d : Cell) :
    ActsByOperations (execute bindings f d) := by
  by_cases hf : f = .call
  · subst hf
    intro m
    by_cases hsystem : m.a.signed < codeStart
    · rw [Action.final, call_apply, if_pos hsystem]
      exact actsByOperations_systemCall hbindings m.a _ m
    · -- A routine is entered in the same way without handlers.
      have hplain := conducts_execute conducts_systemCall .call d m
      rw [Conducts, Action.final, call_apply, if_neg hsystem] at hplain
      rw [Action.final, call_apply, if_neg hsystem]
      exact ⟨_, hplain⟩
  · rw [execute_of_ne_call hf]
    exact Conducts.actsByOperations (conducts_execute conducts_systemCall f d)

/-- The peripherals after a step are those that some operations lead to. -/
theorem exists_step_operations (m : Machine) :
    ∃ ops, (step bindings m).2.peripherals = Peripherals.after ops m.peripherals := by
  cases hdecode : m.decode with
  | error e =>
    rw [step_of_error hdecode]
    exact ⟨[], rfl⟩
  | ok i =>
    obtain ⟨ops, hops⟩ := actsByOperations_execute hbindings i.opcode.function i.operand (m.ready i)
    refine ⟨traceOperations m.peripherals (.step (m.traceStep i)) ++ ops, ?_⟩
    rw [step_of_ok hdecode, endStep_peripherals, Peripherals.after_append, after_traceOperations]
    exact hops

/-- The peripherals after a number of steps are those that some operations lead to. -/
theorem exists_proceed_operations (n : Nat) (m : Machine) :
    ∃ ops, (proceed bindings n m).2.peripherals = Peripherals.after ops m.peripherals := by
  have hsteps {k : Nat} {m' : Machine} (h : Steps bindings k m m') :
      ∃ ops, m'.peripherals = Peripherals.after ops m.peripherals := by
    refine h.preserves (I := fun r => ∃ ops, r.peripherals = Peripherals.after ops m.peripherals)
      ?_ ⟨[], rfl⟩
    rintro r r' hstep ⟨ops, hops⟩
    obtain ⟨later, hlater⟩ := exists_step_operations hbindings r
    rw [hstep, hops] at hlater
    exact ⟨ops ++ later, by rw [Peripherals.after_append]; exact hlater⟩
  rcases proceed_cases bindings n m with ⟨m', h, heq⟩ | ⟨k, m', -, h, -, heq⟩
  · rw [heq]
    exact hsteps h
  · obtain ⟨ops, hops⟩ := hsteps h
    obtain ⟨later, hlater⟩ := exists_step_operations hbindings m'
    refine ⟨ops ++ later, ?_⟩
    rw [heq, hlater, hops, Peripherals.after_append]

/-- The peripherals after a run are those that some operations lead to. -/
theorem exists_run_operations (limit : Nat) (m : Machine) :
    ∃ ops, (run bindings limit m).2.peripherals = Peripherals.after ops m.peripherals := by
  obtain ⟨ops, hops⟩ := exists_proceed_operations hbindings limit m.started
  have hconclude : ∃ later, (run bindings limit m).2.peripherals =
      Peripherals.after later (proceed bindings limit m.started).2.peripherals := by
    rw [run, start_apply]
    dsimp only
    rw [resume]
    generalize proceed bindings limit m.started = r
    obtain ⟨_ | result | report | e, m'⟩ := r
    · exact ⟨[], rfl⟩
    · exact ⟨_, finish_peripherals result none m'⟩
    · exact ⟨_, finish_peripherals 0 (some report) m'⟩
    · exact ⟨[], rfl⟩
  obtain ⟨later, hlater⟩ := hconclude
  refine ⟨traceOperations m.peripherals (.runStarted m.lomem m.memory.size) ++ (ops ++ later), ?_⟩
  rw [Peripherals.after_append, after_traceOperations, Peripherals.after_append]
  change _ = Peripherals.after later (Peripherals.after ops m.started.peripherals)
  rw [hlater, hops]

end Runs

/-- The machines that a host can reach from new default streams. Apart from the peripherals it may
set a machine as it likes. -/
inductive Reachable (source : Source) (sink : Sink) : Machine → Prop
  | create {words : Int} {host : Host} {tracing : Bool} {m : Machine}
      (hcreate : create words (.ofDefaults source sink host tracing) = .ok m) :
      Reachable source sink m
  | operation {m : Machine} (op : StreamOperation) (hm : Reachable source sink m) :
      Reachable source sink ((onPeripherals op.action).final m)
  | systemCall {m : Machine} {bindings : Bindings} (hbindings : bindings.ActByOperations)
      (code : Cell) (args : Int) (hm : Reachable source sink m) :
      Reachable source sink ((systemCall bindings code args).final m)
  | run {m : Machine} {bindings : Bindings} (hbindings : bindings.ActByOperations) (limit : Nat)
      (hm : Reachable source sink m) : Reachable source sink (run bindings limit m).2
  | loadFile {m : Machine} (name : Text) (hm : Reachable source sink m) :
      Reachable source sink ((loadFile name).final m)
  | set {m m' : Machine} (hset : m'.peripherals = m.peripherals) (hm : Reachable source sink m) :
      Reachable source sink m'

/-- Assembling a text leaves the peripherals alone. -/
theorem load_peripherals (name t : Text) (readError : Option HostError) (m : Machine) :
    ((load name t readError).final m).peripherals = m.peripherals := by
  simp only [Action.final, load]
  split <;> rfl

/-- Loading a file leaves the streams alone, and a ticket that it takes is not given again. -/
theorem loadFile_peripherals (name : Text) (m : Machine) :
    ((loadFile name).final m).peripherals.streams = m.peripherals.streams ∧
      m.peripherals.host.next ≤ ((loadFile name).final m).peripherals.host.next := by
  rw [loadFile, Action.final_bind]
  simp only [Action.get_apply]
  cases hopen : m.peripherals.host.openFile name with
  | error e => exact ⟨rfl, Nat.le_refl _⟩
  | ok r =>
    obtain ⟨source, closer, host⟩ := r
    dsimp only
    rw [Action.final_bind, Action.modify_apply]
    dsimp only
    rw [load_peripherals]
    refine ⟨rfl, ?_⟩
    change m.peripherals.host.next ≤ host.next
    rw [(Host.openFile_ticket hopen).2]
    exact Nat.le_succ _

/-- However a machine was reached, its stream table is in order. -/
theorem Reachable.inOrder {source : Source} {sink : Sink} {m : Machine}
    (hm : Reachable source sink m) : m.peripherals.InOrder source sink := by
  induction hm with
  | @create words host tracing m hcreate =>
    unfold Machine.create at hcreate
    split at hcreate
    · cases hcreate
      exact .ofDefaults source sink host tracing
    · cases hcreate
  | @operation m op _ ih =>
    obtain ⟨ops, hops⟩ := actsByOperations_operation op m
    rw [hops]
    exact ih.after ops
  | @systemCall m _ hbindings code args _ ih =>
    obtain ⟨ops, hops⟩ := actsByOperations_systemCall hbindings code args m
    rw [hops]
    exact ih.after ops
  | @run m _ hbindings limit _ ih =>
    obtain ⟨ops, hops⟩ := exists_run_operations hbindings limit m
    rw [hops]
    exact ih.after ops
  | @loadFile m name _ ih =>
    obtain ⟨hstreams, hnext⟩ := loadFile_peripherals name m
    exact ih.congr hstreams hnext
  | set hset _ ih =>
    rw [hset]
    exact ih

/-- The stream table of every machine that can be reached is in order. The default streams are open
under their handles and keep their directions, all other open handles are those of files, and no two
of them share a stream. Finding a reserved name gives the default stream, and a file that is refused
gives no handle; neither changes the streams. The end of reading or writing removes the selected
stream if it is a file, also when closing it fails, leaves all others and selects the default
stream. -/
theorem stream_table_in_order {source : Source} {sink : Sink} {m : Machine}
    (hm : Reachable source sink m) :
    let p := m.peripherals
    ((∃ i, p.streams.get? defaultInput = some ⟨.input i, none⟩ ∧ source.Continues i.source) ∧
      (∃ o, p.streams.get? defaultOutput = some ⟨.output o, none⟩ ∧ sink.Continues o.sink) ∧
      (∀ k, p.streams.isOpen k = true →
        k = defaultInput ∨ k = defaultOutput ∨ (3 ≤ k.toInt ∧ k.toInt ≤ 32767)) ∧
      (∀ k, k.toInt ≤ 0 → p.streams.isOpen k = false) ∧
      ∀ j k s, p.streams.get? j = some s → p.streams.get? k = some s → j = k) ∧
    (∀ name,
      (Text.matchesWord name "SYSIN" = true →
        Peripherals.findInput name p = .ok defaultInput p) ∧
      (Text.matchesWord name "SYSPRINT" = true →
        Peripherals.findOutput name p = .ok defaultOutput p) ∧
      (∀ e e', Text.matchesWord name "SYSIN" = false → p.host.openFile name = .error e →
        p.host.openFile (Text.lowerCase name) = .error e' →
        ∃ journal, Peripherals.findInput name p = .ok 0 { p with journal }) ∧
      ∀ e, Text.matchesWord name "SYSPRINT" = false → p.host.createFile name = .error e →
        ∃ journal, Peripherals.findOutput name p = .ok 0 { p with journal }) ∧
    (let q := Peripherals.endRead.final p
     q.input = defaultInput ∧ q.output = p.output ∧
      ∀ j, q.streams.get? j =
        if j = p.input ∧ p.input ≠ defaultInput ∧ p.input ≠ defaultOutput then none
        else p.streams.get? j) ∧
    (let q := Peripherals.endWrite.final p
     q.output = defaultOutput ∧ q.input = p.input ∧
      ∀ j, q.streams.get? j =
        if j = p.output ∧ p.output ≠ defaultInput ∧ p.output ≠ defaultOutput then none
        else p.streams.get? j) := by
  intro p
  have horder : p.InOrder source sink := hm.inOrder
  refine ⟨⟨horder.input, horder.output, fun k => horder.range, ?_, fun j k s => horder.injective⟩,
    fun name => ⟨?_, ?_, ?_, ?_⟩, p.endRead_table, p.endWrite_table⟩
  · intro k hk
    cases hopen : p.streams.isOpen k with
    | false => rfl
    | true =>
      rcases horder.range hopen with rfl | rfl | ⟨hfirst, -⟩
      · exact absurd hk (by decide)
      · exact absurd hk (by decide)
      · omega
  · intro hname
    rw [Peripherals.findInput_apply, if_pos hname]
  · intro hname
    rw [Peripherals.findOutput_apply, if_pos hname]
  · intro e e'
    exact p.findInput_of_refused
  · intro e
    exact p.findOutput_of_refused

/-- Default streams, and a host with a file that can be read but not closed. -/
def stubborn : Peripherals :=
  .ofDefaults (.script [] none) (.device {})
    { custody := .scripted [([105], { contents := [65], closeFails := true })] } false

/-- A call of the program reads a character in the way of the host. -/
def rawReading : Bindings := ⟨[(1, some Handler.rawRead)]⟩

/-- A machine that has run with a handler of the host after a file was opened and selected. -/
def reading : Machine :=
  (run rawReading 9
    ((onPeripherals (Peripherals.selectInput 3)).final
      ((onPeripherals (Peripherals.findInput [105])).final
        { memory := .ofFn 500 initialCell, lomem := 404, peripherals := stubborn }))).2

/-- Reading in the way of the host is reading. -/
theorem actByOperations_rawReading : rawReading.ActByOperations := by
  intro code handler hbound args
  simp only [Bindings.get?, rawReading, List.lookup_cons] at hbound
  split at hbound
  · cases hbound
    exact (actsByOperations_operation .read).bind fun c =>
      (quiet_modify fun _ => rfl).actsByOperations
  · cases hbound

/-- A selected file is gone after the end of reading, which fails, and the default input is selected
again. -/
theorem stream_table_in_order_reading :
    Reachable (.script [] none) (.device {}) reading ∧
      (reading.a = 65 ∧ reading.peripherals.input = 3 ∧
        reading.peripherals.streams.isOpen 3 = true) ∧
      (Peripherals.endRead reading.peripherals matches .error _ _) ∧
      (Peripherals.endRead.final reading.peripherals).input = defaultInput ∧
      (Peripherals.endRead.final reading.peripherals).streams.get? 3 = none := by
  have hcreate : create 500 stubborn =
      .ok { memory := .ofFn 500 initialCell, lomem := 404, peripherals := stubborn } := rfl
  have hreachable : Reachable (.script [] none) (.device {}) reading :=
    .run actByOperations_rawReading 9 (.operation (.selectInput 3) (.operation (.findInput [105])
      (.create hcreate)))
  have hselected : reading.peripherals.input = 3 := by decide +kernel
  obtain ⟨hinput, -, htable⟩ := (stream_table_in_order hreachable).2.2.1
  refine ⟨hreachable, ⟨by decide +kernel, hselected, by decide +kernel⟩, by decide +kernel,
    hinput, ?_⟩
  rw [htable, hselected]
  rfl

end Machine

end Intcode
