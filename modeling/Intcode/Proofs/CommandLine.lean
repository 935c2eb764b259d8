import Intcode.CommandLine
import Intcode.Proofs.Machine.CloseOrder
import Intcode.Proofs.Machine.DefaultFile

/-!
# Fatal errors come last

The program writes to the default output through a buffer, and the command reports a
fatal error past that buffer. When it does so, a run has flushed the default output,
and closing the streams has left nothing held back.

Main statement: a command whose default output is a file leaves in it what the program
wrote, and after that the line of the error, if there is one.
-/

namespace Intcode.CommandLine

open Action Peripherals

/-- Streams and files stay as they are. -/
structure SameFiles (p q : Peripherals) : Prop where
  streams : q.streams = p.streams
  bodies : q.host.bodies = p.host.bodies
  names : q.host.names = p.host.names
  custody : q.host.custody = p.host.custody
  place : q.host.place = p.host.place

instance : Std.Refl SameFiles := ⟨fun _ => ⟨rfl, rfl, rfl, rfl, rfl⟩⟩

instance : Trans SameFiles SameFiles SameFiles :=
  ⟨fun h h' => ⟨h'.streams.trans h.streams, h'.bodies.trans h.bodies, h'.names.trans h.names,
    h'.custody.trans h.custody, h'.place.trans h.place⟩⟩

/-- The peripherals of two machines have the same streams and files. -/
def SameMachineFiles (m m' : Machine) : Prop := SameFiles m.peripherals m'.peripherals

instance : Std.Refl SameMachineFiles := ⟨fun m => Std.Refl.refl m.peripherals⟩

instance : Trans SameMachineFiles SameMachineFiles SameMachineFiles :=
  ⟨fun h h' => Trans.trans (r := SameFiles) h h'⟩

/-- An entry in the journal leaves streams and files alone. -/
theorem sameFiles_traced (p : Peripherals) (e : Event) : SameFiles p (p.traced e) := by
  obtain ⟨journal, heq⟩ := p.traced_eq e
  rw [heq]
  exact ⟨rfl, rfl, rfl, rfl, rfl⟩

/-- Loading a program file leaves streams and files alone. -/
theorem stays_loadFile (name : Text) : Stays SameMachineFiles (Machine.loadFile name) := by
  intro m
  rcases Machine.loadFile_cases name m with hsame | ⟨source, closer, host, hopen, hhost⟩
  · rw [SameMachineFiles, hsame]
    exact Std.Refl.refl _
  · obtain rfl := Host.openFile_eq_ok hopen
    rw [SameMachineFiles, hhost]
    exact ⟨rfl, rfl, rfl, rfl, rfl⟩

/-- Loading program files leaves streams and files alone. -/
theorem stays_loadFiles (names : List Text) : Stays SameMachineFiles (loadFiles names) := by
  have hfiles : Stays SameMachineFiles (names.forM Machine.loadFile) := by
    induction names with
    | nil => exact stays_pure _
    | cons name names ih => exact (stays_loadFile name).bind fun _ => ih
  refine hfiles.bind fun _ => stays_get_bind fun m' m => ?_
  rw [SameMachineFiles, Machine.onPeripherals_final]
  exact sameFiles_traced _ _

section SavesTo

variable {p q : Peripherals} {place : Text → Place} {name : Text} {k : Nat} {taken : Text}

/-- The ledger of a file depends on streams and files only. -/
theorem SameFiles.savesTo (h : SameFiles p q) (hp : p.SavesTo place name k taken) :
    q.SavesTo place name k taken := by
  have hsize : p.host.bodies.size = q.host.bodies.size := by rw [h.bodies]
  have hbody (f : Nat) : q.host.body f = p.host.body f := by simp only [Host.body, h.bodies]
  obtain ⟨hhost, ⟨o, closer, hopen, hfile, haccounts⟩, hsole⟩ := hp
  refine ⟨hhost.congr h.custody h.place h.names (Nat.le_of_eq hsize),
    ⟨o, closer, ?_, hfile, ?_⟩, ?_⟩
  · rw [h.streams]
    exact hopen
  · exact haccounts.congr_host fun f _ => ⟨hbody f, Nat.le_of_eq hsize⟩
  · intro f hf j hwrites
    rw [Writes, h.streams] at hwrites
    exact hsole f hf j hwrites

/-- What is held back depends on the streams only. -/
theorem SameFiles.heldBack (h : SameFiles p q) : q.heldBack = p.heldBack := by
  rw [Peripherals.heldBack, Peripherals.heldBack, h.streams]

/-- What the command writes itself comes after all that the default output has sent. -/
theorem savesTo_writeDirectly (hp : p.SavesTo place name k taken) (hheld : p.heldBack = [])
    (t : Text) :
    (writeDirectly t p).SavesTo place name k (taken ++ t) ∧ (writeDirectly t p).heldBack = [] := by
  obtain ⟨o, closer, hopen, hfile, haccounts⟩ := hp.keeps.stream
  obtain ⟨hfile', hframe⟩ := o.sink.write_frame t p.host
  obtain ⟨hend, hdelivered, hroom, hfit⟩ := o.sink.write_atEnd haccounts.atEnd t
  have hnone : o.sink.room p.host = none := haccounts.room
  have hall : (o.sink.write t p.host).1 = t.length := by
    rw [hfit, hnone]
    rfl
  simp only [Peripherals.heldBack, hopen] at hheld
  have hdirect : writeDirectly t p = p.withStream defaultOutput
      ⟨.output { o with sink := (o.sink.write t p.host).2.1 }, closer⟩
      (o.sink.write t p.host).2.2 := by
    simp only [writeDirectly, hopen]
    rfl
  rw [hdirect]
  have hhost := hp.host.congr hframe.custody hframe.place hframe.names
    (Nat.le_of_eq hframe.size.symm)
  refine ⟨⟨hhost, ?_⟩, ?_⟩
  · refine hp.keeps.withStream hopen hfile' ⟨hend, ?_, ?_, fun l hl => (by cases hl), ?_⟩
    · have htext := haccounts.text
      rw [hheld, List.append_nil] at htext
      rw [hdelivered, hall, List.take_length, hheld, List.append_nil, htext]
    · rw [hroom, hnone]
      rfl
    · exact fun hne => absurd (haccounts.full hne) (by simp)
  · simp only [Peripherals.heldBack, get?_withStream, hopen, if_pos, Option.map_some]
    exact hheld

/-- Closing the streams is an operation. -/
theorem closeStreams_eq (p : Peripherals) :
    closeStreams p = (StreamOperation.close p.streams.handles).action.final p := by
  rw [StreamOperation.action, final_bind_pure, closeStreams]
  change _ = (Peripherals.close).final p
  rw [final]
  cases Peripherals.close p <;> rfl

/-- Closing the streams adds nothing to the file. -/
theorem savesTo_closeStreams (hp : p.SavesTo place name k taken) (hheld : p.heldBack = []) :
    (closeStreams p).SavesTo place name k taken ∧ (closeStreams p).heldBack = [] := by
  have hspares : Spares place name (.close p.streams.handles) := fun t ht => by cases ht
  have hclose := hp.final hspares
  have hnothing : offering (.close p.streams.handles) p = [] := ite_self _
  rw [hnothing, List.append_nil] at hclose
  refine ⟨closeStreams_eq p ▸ hclose, ?_⟩
  rw [closeStreams_eq, StreamOperation.action, final_bind_pure]
  exact heldBack_closeInOrder hheld _

/-- The end of the command with a status. -/
theorem complete_eq (status : Int) (dump : Text) (p : Peripherals) :
    ∃ c, complete status dump p = .completed c ∧ c.status = status ∧
      c.directory = p.host.files := by
  refine ⟨_, rfl, rfl, ?_⟩
  change p.collectOutput.2.host.files = p.host.files
  unfold collectOutput
  split <;> rfl

end SavesTo

/-- Peripherals on a directory in which every file has one name and names lead where they are said
to. The default output is open, and no stream writes to a file. -/
structure Unused (place : Text → Place) (p : Peripherals) : Prop where
  custody : p.host.custody = .directory
  place_eq : p.host.place = place
  sound : p.host.Sound
  distinct : ∀ e ∈ p.host.names, ∀ e' ∈ p.host.names, e.2 = e'.2 → e.1 = e'.1
  isOpen : p.streams.isOpen defaultOutput = true
  idle : ∀ j f, ¬ p.Writes j f

/-- The peripherals at the start. -/
theorem unused_console (i : Invocation) : Unused i.place (console i) where
  custody := rfl
  place_eq := rfl
  sound := (Host.proper_ofDirectory i.place i.directory {}).sound
  distinct := Host.names_ofDirectory i.place i.directory
  isOpen := by
    simp only [console, ofDefaults, StreamTable.isOpen, StreamTable.get?_insert, if_pos,
      Option.isSome_some]
  idle j f := by
    rintro ⟨s, hs, hfile⟩
    simp only [console, ofDefaults, StreamTable.get?_insert] at hs
    split at hs
    · cases hs
      cases hfile
    · split at hs
      · cases hs
        cases hfile
      · simp [StreamTable.get?] at hs

section Connect

variable {o : Options} {p q : Peripherals} {place : Text → Place} {name : Text}

/-- A file for the default input leaves the rest alone. -/
theorem Unused.connectInput (hp : Unused place p) (hinput : connectInput o p = .ok q) :
    Unused place q := by
  unfold CommandLine.connectInput at hinput
  by_cases hnone : o.input = []
  · rw [if_pos hnone] at hinput
    cases hinput
    exact hp
  · rw [if_neg hnone] at hinput
    rcases hopen : p.host.openFile o.input with error | ⟨source, closer, host⟩
    · rw [hopen] at hinput
      cases hinput
    · obtain rfl := Host.openFile_eq_ok hopen
      rw [hopen] at hinput
      cases hinput
      refine ⟨hp.custody, hp.place_eq, hp.sound, hp.distinct, ?_, ?_⟩
      · have hne : defaultOutput ≠ defaultInput := by decide
        simp only [StreamTable.isOpen, StreamTable.get?_set, if_neg hne]
        exact hp.isOpen
      · rintro j f ⟨s, hs, hfile⟩
        simp only [StreamTable.get?_set] at hs
        split at hs
        · obtain ⟨s', -, rfl⟩ := Option.map_eq_some_iff.mp hs
          cases hfile
        · exact hp.idle j f ⟨s, hs, hfile⟩

/-- A file for the default output is empty and has no other stream. -/
theorem Unused.connectOutput (hp : Unused place p) (hnamed : o.output ≠ []) {readable : Bool}
    (hplace : place o.output = .file name readable true) :
    ∃ q k, connectOutput o p = .ok q ∧ q.SavesTo place name k [] ∧ q.heldBack = [] := by
  rw [← hp.place_eq] at hplace
  obtain ⟨k, closer, host, hcreate, hassigns, hbody⟩ :=
    Host.exists_createFile hp.custody hp.sound hp.distinct hplace
  rw [hp.place_eq] at hassigns
  obtain ⟨old, hold⟩ := Option.isSome_iff_exists.mp hp.isOpen
  have hstream : (p.withStream defaultOutput ⟨.output { sink := .file k 0 }, none⟩
      host).streams.get? defaultOutput = some ⟨.output { sink := .file k 0 }, none⟩ := by
    rw [get?_withStream, if_pos rfl, hold]
    rfl
  refine ⟨p.withStream defaultOutput ⟨.output { sink := .file k 0 }, none⟩ host, k, ?_, ?_, ?_⟩
  · simp only [CommandLine.connectOutput, if_neg hnamed, hcreate]
    rfl
  · refine ⟨hassigns, ⟨_, none, hstream, rfl, ⟨⟨hassigns.lt_size, ?_⟩, ?_, ?_, ?_, ?_⟩⟩, ?_⟩
    · change 0 = (host.body k).length
      rw [hbody]
    · change (host.body k).contents ++ _ = []
      rw [hbody]
      rfl
    · change (host.body k).room = none
      rw [hbody]
    · exact fun l hl => by cases hl
    · exact fun hne => absurd rfl hne
    · rintro f - j ⟨s, hs, hfile⟩
      rw [get?_withStream] at hs
      split at hs
      · assumption
      · exact absurd ⟨s, hs, hfile⟩ (hp.idle j f)
  · rw [Peripherals.heldBack, hstream]
    rfl

/-- A note about the terminal leaves streams and files alone. -/
theorem sameFiles_noteRaw (o : Options) (terminal : Bool) (p : Peripherals) :
    SameFiles p (noteRaw o terminal p) := by
  unfold noteRaw
  split <;> exact ⟨rfl, rfl, rfl, rfl, rfl⟩

end Connect

/-- Reading raw input reads a character. -/
theorem conducts_rawRead (args : Int) (m : Machine) :
    Machine.Conducts (Handler.rawRead args) m [.read] :=
  (Machine.conducts_operation .read rfl).bind_quiet fun _ => Machine.quiet_modify fun _ => rfl

/-- The handlers that the command binds act on the streams as the built-in ones do. -/
theorem actsAlike_bindingsFor (o : Options) (terminal : Bool) :
    Machine.ActsAlike (bindingsFor o terminal) := by
  unfold bindingsFor
  split
  · intro code args m
    by_cases hcode : code = readCode
    · subst hcode
      exact conducts_rawRead args m
    · have hunbound : Bindings.get? ⟨[(readCode, some Handler.rawRead)]⟩ code = none := by
        simp [Bindings.get?, List.lookup_cons, beq_eq_false_iff_ne.mpr hcode]
      rw [Machine.systemCall_of_unbound hunbound]
      exact Machine.conducts_systemCall code args m
  · exact Machine.conducts_systemCall

/-- The result of a run, unless it has an error. -/
def outcomeOf (result : Cell) : Option Report → Except Report Cell
  | none => .ok result
  | some r => .error r

/-- What becomes of the program once its default streams are connected and its handlers are bound:
the operations on streams that it leads to, the bytes that it writes to the default output, and its
result or error. -/
inductive Brings (o : Options) (bindings : Bindings) (fuel : Nat) (p : Peripherals) :
    List StreamOperation → Text → Except Report Cell → Prop
  /-- There is no such machine. -/
  | uncreated {r : Report} (hcreate : Machine.create o.words p = .error r) :
      Brings o bindings fuel p [] [] (.error (.fatal .invalidOption 0))
  /-- A program file cannot be loaded. -/
  | unloaded {m m' : Machine} {r : Report} (hcreate : Machine.create o.words p = .ok m)
      (hload : loadFiles o.files m = .error (.report r) m') :
      Brings o bindings fuel p [] [] (.error r)
  /-- The program has been run to its end. -/
  | ran {m m' last : Machine} {result : Cell} {error : Option Report}
      (hcreate : Machine.create o.words p = .ok m) (hload : loadFiles o.files m = .ok () m')
      (hrun : Machine.run bindings fuel m' = (.ended result error, last)) :
      Brings o bindings fuel p (m'.runOperations fuel bindings)
        (offered (m'.runOperations fuel bindings) m'.peripherals) (outcomeOf result error)

/-- The line of an error: the text of the fatal condition that it is about, or else the whole
message. -/
inductive ReportedAs (r : Report) : Text → Prop
  | fatal {condition : Condition} {argument : Int} (hcause : r.cause = .fatal condition argument) :
      ReportedAs r (diagnostic condition.text argument ++ [Text.lineFeed])
  | other (hcause : ∀ condition argument, r.cause ≠ .fatal condition argument) :
      ReportedAs r (r.message ++ [Text.lineFeed])

/-- Errors are reported by their lines. -/
theorem reportedAs_errorLine (r : Report) : ReportedAs r (errorLine r) := by
  unfold errorLine
  cases hcause : r.cause with
  | fatal condition argument => exact .fatal hcause
  | _ => exact .other fun condition argument heq => by rw [hcause] at heq; cases heq

/-- What the command leaves after a program: its output in a file, then the line of an error, and a
status. -/
def Completion.Delivers (c : Completion) (name text : Text) : Except Report Cell → Prop
  | .ok result => c.directory.lookup name = some text ∧ c.status = result.toInt
  | .error r => ∃ line, ReportedAs r line ∧ c.directory.lookup name = some (text ++ line) ∧
      c.status = 255

section CarryOut

variable {o : Options} {bindings : Bindings} {fuel : Nat} {p : Peripherals} {place : Text → Place}
  {name : Text} {k : Nat} {taken : Text}

/-- The end of the command after a program. -/
def finished (p : Peripherals) : Except Report Cell → Outcome
  | .ok result => complete result.toInt [] p
  | .error r => completeFatally r [] p

/-- The file holds what the default output has taken, and an error is reported after that. -/
theorem delivers_finished (hp : p.SavesTo place name k taken) (hheld : p.heldBack = [])
    (outcome : Except Report Cell) :
    ∃ c, finished p outcome = .completed c ∧ c.Delivers name taken outcome := by
  cases outcome with
  | ok result =>
    obtain ⟨c, hcomplete, hstatus, hdirectory⟩ := complete_eq result.toInt [] p
    refine ⟨c, hcomplete, ?_, hstatus⟩
    rw [hdirectory]
    exact hp.lookup_files hheld
  | error r =>
    obtain ⟨hwritten, hheld'⟩ := savesTo_writeDirectly hp hheld (errorLine r)
    obtain ⟨c, hcomplete, hstatus, hdirectory⟩ :=
      complete_eq fatalStatus [] (writeDirectly (errorLine r) p)
    refine ⟨c, hcomplete, errorLine r, reportedAs_errorLine r, ?_, hstatus⟩
    rw [hdirectory]
    exact hwritten.lookup_files hheld'

/-- A run leaves in the file what the program wrote to the default output. -/
theorem savesTo_run (hbindings : Machine.ActsAlike bindings) {m last : Machine} {result : Cell}
    {error : Option Report} (hm : m.peripherals.SavesTo place name k [])
    (hspares : ∀ op ∈ m.runOperations fuel bindings, Spares place name op)
    (hrun : Machine.run bindings fuel m = (.ended result error, last)) :
    last.peripherals.SavesTo place name k
        (offered (m.runOperations fuel bindings) m.peripherals) ∧
      last.peripherals.heldBack = [] := by
  have hlast := Machine.run_peripherals hbindings fuel m
  rw [hrun] at hlast
  obtain ⟨ops, e, hfirst, -, hflushed⟩ := Request.flushed_of_run hbindings hrun
  constructor
  · rw [hlast]
    exact hm.after hspares
  · rw [hflushed, (sameFiles_traced _ e).heldBack]
    exact (hm.after fun op hop => hspares op (hfirst.subset hop)).heldBack_flushed

/-- The loaded machine has the streams and the files that the command has connected. -/
theorem sameFiles_loaded {m : Machine} (hcreate : Machine.create o.words p = .ok m) :
    SameFiles p ((loadFiles o.files).final m).peripherals := by
  have hload := stays_loadFiles o.files m
  rwa [SameMachineFiles, Machine.create_peripherals hcreate] at hload

/-- A program that has been run to its end. -/
theorem run_of_ended (hdumps : o.dump = false) {m last : Machine} {result : Cell}
    {error : Option Report} (hrun : Machine.run bindings fuel m = (.ended result error, last)) :
    run o bindings fuel m = finished (closeStreams last.peripherals) (outcomeOf result error) := by
  simp only [run, hrun, hdumps, Bool.false_eq_true, if_false]
  cases error <;> rfl

/-- The command leaves what the program wrote, and then the line of an error. -/
theorem delivers_carryOut (hlists : o.disassemble = false) (hdumps : o.dump = false)
    (hbindings : Machine.ActsAlike bindings) (hp : p.SavesTo place name k [])
    (hheld : p.heldBack = []) {ops : List StreamOperation} {text : Text}
    {outcome : Except Report Cell} (hbrings : Brings o bindings fuel p ops text outcome)
    (hspares : ∀ op ∈ ops, Spares place name op) :
    ∃ c, carryOut o bindings fuel p = .completed c ∧ c.Delivers name text outcome := by
  cases hbrings with
  | uncreated hcreate =>
    simp only [carryOut, hcreate]
    exact delivers_finished hp hheld (.error _)
  | @unloaded m m' r hcreate hload =>
    have hsame := sameFiles_loaded hcreate
    rw [final, hload, stateOf_error] at hsame
    obtain ⟨hclosed, hheld'⟩ :=
      savesTo_closeStreams (hsame.savesTo hp) (hsame.heldBack.trans hheld)
    simp only [carryOut, hcreate, hload]
    exact delivers_finished hclosed hheld' (.error r)
  | @ran m m' last result error hcreate hload hrun =>
    have hsame := sameFiles_loaded hcreate
    rw [final, hload, stateOf_ok] at hsame
    obtain ⟨hlast, hflushed⟩ := savesTo_run hbindings (hsame.savesTo hp) hspares hrun
    obtain ⟨hclosed, hheld'⟩ := savesTo_closeStreams hlast hflushed
    simp only [carryOut, hcreate, hload, hlists, Bool.false_eq_true, if_false,
      run_of_ended hdumps hrun]
    exact delivers_finished hclosed hheld' _

/-- The command comes to an end only if the program does. -/
theorem exists_brings (hlists : o.disassemble = false) {c : Completion}
    (hcarry : carryOut o bindings fuel p = .completed c) :
    ∃ ops text outcome, Brings o bindings fuel p ops text outcome := by
  unfold carryOut at hcarry
  cases hcreate : Machine.create o.words p with
  | error r => exact ⟨_, _, _, .uncreated hcreate⟩
  | ok m =>
    simp only [hcreate] at hcarry
    cases hload : loadFiles o.files m with
    | error e m' =>
      simp only [hload] at hcarry
      cases e with
      | report r => exact ⟨_, _, _, .unloaded hcreate hload⟩
      | _ => cases hcarry
    | ok u m' =>
      simp only [hload, hlists, Bool.false_eq_true, if_false, run] at hcarry
      cases hrun : Machine.run bindings fuel m' with
      | mk ending last =>
        rw [hrun] at hcarry
        cases ending with
        | ended result error => exact ⟨_, _, _, .ran hcreate hload hrun⟩
        | _ => cases hcarry

end CarryOut

/-- A program that writes a letter and then asks for an extended operation that there is not. It
runs on a terminal with raw input. -/
def hasty : Invocation where
  arguments := ["/tmp/hasty.int", "-o/tmp/out.txt", "--raw", "--words=910"].map Text.ofAscii
  directory := [(Text.ofAscii "/tmp/hasty.int", Text.ofAscii "1 L104 SP5 L14 K3 X99 G1L1")]
  terminal := true

/-- What the arguments ask for. -/
def hastyOptions : Options where
  output := Text.ofAscii "/tmp/out.txt"
  raw := true
  words := 910
  files := [Text.ofAscii "/tmp/hasty.int"]

end Intcode.CommandLine
