import Intcode.Proofs.Machine.DefaultOutput
import Intcode.Proofs.Machine.Indifference
import Intcode.Proofs.Streams.Chunking

/-!
# Chunks of input are not observable

Two machines are alike if they differ at most in the buffers of their default
streams. Every instruction and every system call takes alike machines to alike
machines, and so does a run.

Main statement: how the default input is cut into chunks makes no difference to a
run, apart from when the default output is flushed.
-/

namespace Intcode

namespace Output.Alike

/-- Alike outputs that hold nothing back have delivered the same. -/
theorem delivered_eq {o u : Output} (h : o.Alike u) (ho : o.backlog.text = [])
    (hu : u.backlog.text = []) (host : Host) : o.sink.delivered host = u.sink.delivered host := by
  obtain ⟨htext⟩ := h
  change Device.contents _ = Device.contents _
  simpa only [ho, hu, List.append_nil] using htext

end Output.Alike

namespace Peripherals.Alike

/-- After a flush the same has reached the device of the default output. -/
theorem onDevice_flushed {p q : Peripherals} (h : p.Alike q) :
    p.flushed.onDevice = q.flushed.onDevice := by
  have hdefault := h.streams defaultOutput
  simp only [onDevice, get?_flushed, if_pos]
  generalize p.streams.get? defaultOutput = x, q.streams.get? defaultOutput = y at hdefault
  cases hdefault with
  | none => rfl
  | some hs =>
    cases hs with
    | same hk => exact absurd rfl hk
    | input => rfl
    | output closer hlike =>
      obtain ⟨o', hflush, ho, hleft⟩ := hlike.flush_left q.host
      obtain ⟨u', hflush', hu, hboth⟩ := hleft.symm.flush_left q.host
      simp only [Option.map_some, Stream.flush, hflush, hflush', h.flushed_left.2.host,
        h.symm.flushed_left.2.host, h.host]
      exact hboth.symm.delivered_eq ho hu q.host

end Peripherals.Alike

/-- No operation on streams looks at the buffers of the default streams. -/
theorem Peripherals.blindTo_alike : Peripherals.BlindTo Peripherals.Alike where
  input h := h.input
  output h := h.output
  traced h e := h.traced e
  flush h := by
    obtain ⟨hflush, hleft⟩ := h.flushed_left
    obtain ⟨hflush', hboth⟩ := hleft.symm.flushed_left
    exact ⟨hflush.trans hflush'.symm, hboth.symm⟩
  selectInput := Peripherals.respects_selectInput
  selectOutput := Peripherals.respects_selectOutput
  readCharacter := Peripherals.respects_readCharacter
  readNumber := Peripherals.respects_readNumber
  writeCharacter := Peripherals.respects_writeCharacter
  newline := Peripherals.respects_newline
  findInput := Peripherals.respects_findInput
  findOutput := Peripherals.respects_findOutput
  endRead := Peripherals.respects_endRead
  endWrite := Peripherals.respects_endWrite

namespace Machine

/-- Machines that differ at most in the buffers of their default streams. -/
structure Alike (m m' : Machine) : Prop where
  memory : m.memory = m'.memory
  pc : m.pc = m'.pc
  sp : m.sp = m'.sp
  a : m.a = m'.a
  b : m.b = m'.b
  lomem : m.lomem = m'.lomem
  instructions : m.instructions = m'.instructions
  verdict : m.verdict = m'.verdict
  peripherals : m.peripherals.Alike m'.peripherals

/-- No instruction looks at the buffers of the default streams. -/
theorem blindTo_alike : BlindTo Peripherals.Alike Alike where
  streams := Peripherals.blindTo_alike
  memory h := h.memory
  pc h := h.pc
  sp h := h.sp
  a h := h.a
  b h := h.b
  instructions h := h.instructions
  verdict h := h.verdict
  peripherals h := h.peripherals
  setMemory h _ _ hx := { h with memory := hx }
  setPc h _ _ hv := { h with pc := hv }
  setSp h _ _ hv := { h with sp := hv }
  setA h _ _ hv := { h with a := hv }
  setB h _ _ hv := { h with b := hv }
  setInstructions h _ _ hn := { h with instructions := hn }
  stop h _ := { h with verdict := rfl }
  setPeripherals h _ _ hp := { h with peripherals := hp }

variable {m m' : Machine}

/-- A machine is ready for a run whatever is in its buffers. -/
theorem Alike.started (h : m.Alike m') : m.started.Alike m'.started := by
  have htraced : (m.peripherals.traced (.runStarted m.lomem m.memory.size)).Alike
      (m'.peripherals.traced (.runStarted m'.lomem m'.memory.size)) := by
    rw [h.lomem, h.memory]
    exact h.peripherals.traced _
  exact ⟨h.memory, rfl, congrArg Cell.ofInt h.lomem, rfl, rfl, h.lomem, rfl, rfl, htraced⟩

/-- After the end of a run the same has reached the device of the default output. -/
theorem Alike.onDevice_finish (h : m.Alike m') (result : Cell) (error : Option Report) :
    (finish result error m).2.peripherals.onDevice =
      (finish result error m').2.peripherals.onDevice := by
  simp only [finish_apply, Peripherals.onDevice, Peripherals.traced_streams,
    Peripherals.traced_host]
  exact h.peripherals.onDevice_flushed

/-- A run takes alike machines to alike machines, and once it has ended the same has reached the
device of the default output. -/
theorem Alike.run (h : m.Alike m') (n : Nat) :
    (run {} n m).1 = (run {} n m').1 ∧ (run {} n m).2.Alike (run {} n m').2 ∧
      ∀ result error, (run {} n m).1 = .ended result error →
        (run {} n m).2.peripherals.onDevice = (run {} n m').2.peripherals.onDevice := by
  have hnone : ({} : Bindings).BlindTo Alike := fun _ _ hbound => by cases hbound
  obtain ⟨hending, hlast⟩ := blindTo_alike.resume hnone h.started n
  refine ⟨hending, hlast, ?_⟩
  obtain ⟨hprogress, hlike⟩ := blindTo_alike.proceed hnone h.started n
  simp only [Machine.run, start_apply, resume]
  generalize Machine.proceed {} n m.started = r, Machine.proceed {} n m'.started = r'
    at hprogress hlike
  obtain ⟨progress, last⟩ := r
  obtain ⟨_ | result | report | e, last'⟩ := r'
  · cases hprogress
    exact fun _ _ hended => by cases hended
  · cases hprogress
    exact fun _ _ _ => hlike.onDevice_finish result none
  · cases hprogress
    exact fun _ _ _ => hlike.onDevice_finish 0 (some report)
  · cases hprogress
    exact fun _ _ hended => by cases hended

/-- What can be seen of a machine from outside is the same: the state of the program, the selected
streams, the open handles, the files and the journal. -/
structure SameView (m m' : Machine) : Prop where
  memory : m.memory = m'.memory
  pc : m.pc = m'.pc
  sp : m.sp = m'.sp
  a : m.a = m'.a
  b : m.b = m'.b
  instructions : m.instructions = m'.instructions
  input : m.peripherals.input = m'.peripherals.input
  output : m.peripherals.output = m'.peripherals.output
  isOpen (k : Cell) : m.peripherals.streams.isOpen k = m'.peripherals.streams.isOpen k
  host : m.peripherals.host = m'.peripherals.host
  journal : m.peripherals.journal = m'.peripherals.journal

/-- Alike machines look the same. -/
theorem Alike.sameView (h : m.Alike m') : m.SameView m' where
  memory := h.memory
  pc := h.pc
  sp := h.sp
  a := h.a
  b := h.b
  instructions := h.instructions
  input := h.peripherals.input
  output := h.peripherals.output
  isOpen := h.peripherals.isOpen_eq
  host := h.peripherals.host
  journal := h.peripherals.journal

/-- The machine with a default input that comes in the given chunks, and with a default output that
takes everything. -/
def fed (m : Machine) (chunks : List Text) (ending : Option HostError) (host : Host)
    (tracing : Bool) : Machine :=
  { m with peripherals := .ofDefaults (.script chunks ending) (.device {}) host tracing }

/-- The same input in other chunks makes an alike machine. -/
theorem alike_fed (m : Machine) {chunks chunks' : List Text}
    (htext : chunks.flatten = chunks'.flatten) (ending : Option HostError) (host : Host)
    (tracing : Bool) :
    (m.fed chunks ending host tracing).Alike (m.fed chunks' ending host tracing) := by
  refine ⟨rfl, rfl, rfl, rfl, rfl, rfl, rfl, rfl, ⟨rfl, rfl, rfl, rfl, rfl, rfl, fun k => ?_⟩⟩
  simp only [fed, Peripherals.ofDefaults, StreamTable.get?_insert]
  by_cases houtput : k = defaultOutput
  · rw [if_pos houtput, if_pos houtput]
    exact .some (.output none ⟨rfl⟩)
  · rw [if_neg houtput, if_neg houtput]
    by_cases hinput : k = defaultInput
    · rw [if_pos hinput, if_pos hinput]
      exact .some (.input none ⟨ending, htext⟩)
    · rw [if_neg hinput, if_neg hinput]
      exact .none

/-- How the default input is cut into chunks cannot be observed. Whatever the program is, runs of
any number of instructions on the same input end in the same way and leave the same view of the
machine, and once they have ended, the same bytes have reached the device of the default output. -/
theorem chunks_unobservable (m : Machine) (chunks chunks' : List Text)
    (htext : chunks.flatten = chunks'.flatten) (ending : Option HostError) (host : Host)
    (tracing : Bool) (n : Nat) :
    let r := run {} n (m.fed chunks ending host tracing)
    let r' := run {} n (m.fed chunks' ending host tracing)
    r.1 = r'.1 ∧ r.2.SameView r'.2 ∧
      ∀ result error, r.1 = .ended result error →
        r.2.peripherals.onDevice = r'.2.peripherals.onDevice := by
  intro r r'
  obtain ⟨hending, hlike, hdevice⟩ := (m.alike_fed htext ending host tracing).run n
  exact ⟨hending, hlike.sameView, hdevice⟩

/-- The code of a program that writes the first two characters that it reads. -/
def echoCode : List Cell :=
  let echo := [Opcode.shortWord ⟨.load, false, false⟩ 13, Opcode.shortWord ⟨.call, false, false⟩ 2,
    Opcode.shortWord ⟨.store, false, true⟩ 4, Opcode.shortWord ⟨.load, false, false⟩ 14,
    Opcode.shortWord ⟨.call, false, false⟩ 2]
  echo ++ echo ++ [Opcode.shortWord ⟨.operate, false, false⟩ 22]

/-- A machine with a program that writes the first two characters that it reads. -/
def echoing : Machine :=
  { (default : Machine) with
    memory := .ofFn 430 fun i => if i < 401 then 0 else echoCode.getD (i - 401) 0
    lomem := 412 }

/-- Two characters are echoed, no matter whether they come at once or one by one. -/
theorem chunks_unobservable_echoing :
    ∃ r r', run {} 20 (echoing.fed [[65, 66]] none default false) = r ∧
      run {} 20 (echoing.fed [[65], [66]] none default false) = r' ∧
      r.1 = .ended 0 none ∧ r'.1 = .ended 0 none ∧ r.2.SameView r'.2 ∧
      r.2.peripherals.onDevice = [65, 66] ∧ r'.2.peripherals.onDevice = [65, 66] := by
  obtain ⟨hending, hview, hdevice⟩ := chunks_unobservable echoing [[65, 66]] [[65], [66]] rfl none
    default false 20
  have hended : (run {} 20 (echoing.fed [[65, 66]] none default false)).1 = .ended 0 none := by
    decide +kernel
  have hbytes : (run {} 20 (echoing.fed [[65, 66]] none default false)).2.peripherals.onDevice =
      [65, 66] := by decide +kernel
  refine ⟨_, _, rfl, rfl, hended, hending ▸ hended, hview, hbytes, ?_⟩
  rw [← hdevice 0 none hended, hbytes]

end Machine

end Intcode
