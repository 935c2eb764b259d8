import Intcode.CommandLine.Options
import Intcode.Listing
import Intcode.Machine.Load
import Intcode.Machine.Run

/-!
# The command

The command loads program files into one machine and runs or lists them. A fatal
error goes as a line to the default output, after everything the program wrote.
-/

namespace Intcode.CommandLine

/-- What the command is called with. -/
structure Invocation where
  arguments : List Text
  /-- The files of the host, under the names by which it keeps them. -/
  directory : List (Text × Text) := []
  /-- What names lead to. -/
  place : Text → Place := fun name => .file name true true
  standardInput : Text := []
  /-- Whether standard input is a terminal that can be switched to raw input. -/
  terminal : Bool := false
  environment : List (Text × Text) := []

/-- What the command leaves behind. -/
structure Completion where
  status : Int
  standardOutput : Text
  directory : List (Text × Text)
  journal : List Event
  dump : Text := []
deriving DecidableEq, Repr

/-- How the command ends. -/
inductive Outcome where
  | completed (c : Completion)
  /-- The program has used up the instructions it was given. -/
  | unfinished
  /-- The machine itself has broken down. -/
  | broken (e : Failure)
deriving DecidableEq, Repr

/-- The status after a fatal error. -/
def fatalStatus : Int := 255

/-- The line that reports an error: the diagnostic of a fatal condition, or else the whole
message. -/
def errorLine (r : Report) : Text :=
  (match r.cause with
    | .fatal .. => r.cause.text
    | _ => r.message) ++ [Text.lineFeed]

/-- Writes a text to the sink of the default output, past what the stream holds back. -/
def writeDirectly (t : Text) (p : Peripherals) : Peripherals :=
  match p.streams.get? defaultOutput with
  | some { channel := .output o, closer } =>
    let (_, sink, host) := o.sink.write t p.host
    { p with
      streams := p.streams.set defaultOutput { channel := .output { o with sink }, closer },
      host }
  | _ => p

/-- The end of the command with a status. -/
def complete (status : Int) (dump : Text) (p : Peripherals) : Outcome :=
  let (standardOutput, p) := p.collectOutput
  let (journal, p) := p.collectJournal
  .completed { status, standardOutput, directory := p.host.files, journal, dump }

/-- The end of the command with a fatal error. -/
def completeFatally (r : Report) (dump : Text) (p : Peripherals) : Outcome :=
  complete fatalStatus dump (writeDirectly (errorLine r) p)

/-- The default input that the options ask for. -/
def connectInput (o : Options) (p : Peripherals) : Except Report Peripherals :=
  if o.input = [] then .ok p
  else
    match p.host.openFile o.input with
    | .ok (source, _, host) =>
      .ok { p with streams := p.streams.set defaultInput ⟨.input { source }, none⟩, host }
    | .error _ => .error ⟨[o.input], .fatal .noInput 0⟩

/-- The default output that the options ask for. -/
def connectOutput (o : Options) (p : Peripherals) : Except Report Peripherals :=
  if o.output = [] then .ok p
  else
    match p.host.createFile o.output with
    | .ok (sink, _, host) =>
      .ok { p with streams := p.streams.set defaultOutput ⟨.output { sink }, none⟩, host }
    | .error _ => .error ⟨[o.output], .fatal .noOutput 0⟩

/-- Whether the options ask for raw input from the terminal. -/
def wantsRaw (o : Options) : Bool := o.raw && o.input.isEmpty

/-- Notes that the terminal cannot be switched to raw input, if the options ask for it. -/
def noteRaw (o : Options) (terminal : Bool) (p : Peripherals) : Peripherals :=
  if wantsRaw o && !terminal then { p with journal := .rawUnavailable :: p.journal } else p

/-- The code of the call that reads a character. -/
def readCode : Cell := 13

/-- The handlers that the command binds: one that reads raw input, if the options ask for it and the
terminal can be switched to it. -/
def bindingsFor (o : Options) (terminal : Bool) : Bindings :=
  if wantsRaw o && terminal then ⟨[(readCode, some Handler.rawRead)]⟩ else {}

/-- Loads program files in order and notes it. -/
def loadFiles (names : List Text) : Action Machine Unit := do
  names.forM Machine.loadFile
  let lomem := (← get).lomem
  Machine.onPeripherals (Peripherals.trace (.loaded names lomem))

/-- Closes all streams, whatever errors that gives. -/
def closeStreams (p : Peripherals) : Peripherals :=
  match Peripherals.close p with
  | .ok _ p => p
  | .error _ p => p

/-- The text that a printer with unlimited room ends up with. -/
def printed (x : Action Printer Unit) : Except Failure Text :=
  match x {} with
  | .ok _ p => .ok p.device.contents
  | .error e _ => .error e

/-- Lists the loaded code on the default output. -/
def list (m : Machine) : Outcome :=
  match printed (Listing.printRange m.memory codeStart m.lomem) with
  | .ok t => complete 0 [] (closeStreams (writeDirectly t m.peripherals))
  | .error e => .broken e

/-- Runs the loaded program, then dumps the machine if the options ask for it. -/
def run (o : Options) (bindings : Bindings) (fuel : Nat) (m : Machine) : Outcome :=
  match Machine.run bindings fuel m with
  | (.limited, _) => .unfinished
  | (.broken e, _) => .broken e
  | (.ended result error, m) =>
    match if o.dump then printed m.dump else .ok [] with
    | .error e => .broken e
    | .ok dump =>
      let p := closeStreams m.peripherals
      match error with
      | none => complete result.toInt dump p
      | some r => completeFatally r dump p

/-- Carries out the command once its default streams are connected and its handlers are bound. -/
def carryOut (o : Options) (bindings : Bindings) (fuel : Nat) (p : Peripherals) : Outcome :=
  match Machine.create o.words p with
  | .error _ => completeFatally (.fatal .invalidOption 0) [] p
  | .ok m =>
    match loadFiles o.files m with
    | .error (.report r) m => completeFatally r [] (closeStreams m.peripherals)
    | .error e _ => .broken e
    | .ok _ m => if o.disassemble then list m else run o bindings fuel m

/-- The peripherals at the start: standard input, standard output and the files. -/
def console (i : Invocation) : Peripherals :=
  .ofDefaults (.script [i.standardInput] none) (.device {}) (.ofDirectory i.place i.directory) false

/-- Carries out the command with options. -/
def executeOptions (o : Options) (terminal : Bool) (fuel : Nat) (p : Peripherals) : Outcome :=
  let p := { p with tracing := o.trace }
  match connectInput o p with
  | .error r => completeFatally r [] p
  | .ok p =>
    match connectOutput o p with
    | .error r => completeFatally r [] p
    | .ok p => carryOut o (bindingsFor o terminal) fuel (noteRaw o terminal p)

/-- Carries out the command, with a bound on the instructions that the program executes. -/
def execute (fuel : Nat) (i : Invocation) : Outcome :=
  let defaults := Options.ofEnvironment i.environment
  match defaults.ofArguments i.arguments with
  | .error e =>
    completeFatally (.fatal .invalidOption (e.argumentNumber i.arguments)) [] (console i)
  | .ok o =>
    if o.help then complete 0 [] (writeDirectly defaults.helpText (console i))
    else if o.files.isEmpty then completeFatally (.fatal .usage 0) [] (console i)
    else executeOptions o i.terminal fuel (console i)

/-- The files that are new or whose contents have changed. -/
def Completion.changedFiles (c : Completion) (i : Invocation) : List (Text × Text) :=
  c.directory.filter fun (name, t) => i.directory.lookup name ≠ some t

/-- The line of a journal entry: its level and its title. -/
def journalLine (e : Event) : Text :=
  Text.ofAscii (if e.isWarning then "WARN " else "DEBUG ") ++ e.title

end Intcode.CommandLine
