import Intcode.CommandLine.Flag
import Intcode.Machine

/-!
# Options

The arguments of the command set options over defaults that come from the
environment. Flags and file names may be mixed; two dashes end the flags.
-/

namespace Intcode.CommandLine

/-- The options of the command. -/
structure Options where
  /-- The file of the default input, if not empty. -/
  input : Text := []
  /-- The file of the default output, if not empty. -/
  output : Text := []
  trace : Bool := false
  raw : Bool := false
  dump : Bool := false
  disassemble : Bool := false
  help : Bool := false
  words : Int := Machine.defaultWords
  /-- The program files. -/
  files : List Text := []
deriving DecidableEq, Repr

/-- A flag that waits for its value, and the error if none comes. -/
structure Awaited where
  flag : Flag
  error : FlagError
deriving DecidableEq, Repr

namespace Options

/-- The value that a reader finds in a variable, or a default. Invalid values are ignored. -/
def fromVariable {α : Type} (environment : List (Text × Text)) (name : String)
    (parse : Text → Option α) (default : α) : α :=
  match environment.lookup (Text.ofAscii name) with
  | some t => (parse t).getD default
  | none => default

/-- The options that hold without arguments. -/
def ofEnvironment (environment : List (Text × Text)) : Options where
  trace := fromVariable environment "ICINT_TRACE" parseBool false
  raw := fromVariable environment "ICINT_RAW" parseBool false
  words := fromVariable environment "ICINT_WORDS" parseDecimal Machine.defaultWords

/-- Sets a switch. -/
def setSwitch (o : Options) (f : Flag) (b : Bool) : Options :=
  match f with
  | .trace => { o with trace := b }
  | .raw => { o with raw := b }
  | .dump => { o with dump := b }
  | .disassemble => { o with disassemble := b }
  | .help => { o with help := b }
  | .input | .output | .words => o

/-- Gives a flag a value. -/
def set (o : Options) (f : Flag) (value : Text) : Except FlagError Options :=
  match f with
  | .input => .ok { o with input := value }
  | .output => .ok { o with output := value }
  | .words =>
    match parseInteger value with
    | some n => .ok { o with words := n }
    | none => .error (.badValue f value)
  | .trace | .raw | .dump | .disassemble | .help =>
    match parseBool value with
    | some b => .ok (o.setSwitch f b)
    | none => .error (.badValue f value)

/-- Reads a flag by its long name, given the text after its two dashes. -/
def setLong (o : Options) (argument t : Text) : Except FlagError (Options × Option Awaited) :=
  let isEquals (c : UInt8) : Bool := c = Text.byte '='
  if t.head?.any fun c => c = Text.byte '-' || isEquals c then .error (.badForm argument)
  else
    let name := t.takeWhile fun c => !isEquals c
    match Flag.ofName? name with
    | none => .error (.unknownName name)
    | some f =>
      match t.drop name.length with
      | _ :: value => do return (← o.set f value, none)
      | [] =>
        if f.kind = .switch then .ok (o.setSwitch f true, none)
        else .ok (o, some ⟨f, .missingValue argument⟩)

/-- Reads flags by their letters. The rest of the argument is the value of a flag that takes
one. An argument for tests is passed over. -/
def setLetters (o : Options) : Text → Except FlagError (Options × Option Awaited)
  | [] => .ok (o, none)
  | c :: t =>
    if (Text.ofAscii "test.").isPrefixOf (c :: t) then .ok (o, none)
    else
      match Flag.ofLetter? c with
      | none => .error (.unknownLetter c (c :: t))
      | some f =>
        match t with
        | [] =>
          if f.kind = .switch then .ok (o.setSwitch f true, none)
          else .ok (o, some ⟨f, .missingLetterValue c [c]⟩)
        | d :: value =>
          if d = Text.byte '=' && value ≠ [] then do return (← o.set f value, none)
          else if f.kind = .switch then setLetters (o.setSwitch f true) (d :: value)
          else do return (← o.set f (d :: value), none)

/-- Reads arguments, of which the first may be the value of a flag. -/
def parse (o : Options) : Option Awaited → List Text → Except FlagError Options
  | none, [] => .ok o
  | some awaited, [] => .error awaited.error
  | some awaited, value :: rest => do
    let o ← o.set awaited.flag value
    parse o none rest
  | none, argument :: rest =>
    match argument with
    | c :: d :: t =>
      if c ≠ Text.byte '-' then parse { o with files := o.files ++ [argument] } none rest
      else if d ≠ Text.byte '-' then do
        let (o, awaited) ← o.setLetters (d :: t)
        parse o awaited rest
      else if t.isEmpty then .ok { o with files := o.files ++ rest }
      else do
        let (o, awaited) ← o.setLong argument t
        parse o awaited rest
    | _ => parse { o with files := o.files ++ [argument] } none rest

/-- A flag that has a spelling of its own with one dash. -/
def respell (argument : Text) : Text :=
  if argument = Text.ofAscii "-trace" then Text.ofAscii "--trace" else argument

/-- The options that arguments set over defaults. -/
def ofArguments (defaults : Options) (arguments : List Text) : Except FlagError Options :=
  defaults.parse none (arguments.map respell)

/-- What the help says of the default of a flag. -/
def defaultRemark (o : Options) : Flag → Text
  | .trace => if o.trace then Text.ofAscii " (default true)" else []
  | .raw => if o.raw then Text.ofAscii " (default true)" else []
  | .words =>
    if o.words = 0 then []
    else Text.ofAscii " (default " ++ Text.ofInt o.words ++ Text.ofAscii ")"
  | .disassemble | .dump | .help | .input | .output => []

/-- The left column of a flag in the help. -/
def helpColumn (f : Flag) : Text :=
  let start :=
    match f.letter? with
    | some c => Text.ofAscii "  -" ++ [c] ++ Text.ofAscii ", "
    | none => Text.ofAscii "      "
  let value :=
    match f.kind with
    | .switch => []
    | .file => Text.ofAscii " file"
    | .number => Text.ofAscii " int"
  start ++ f.longForm ++ value

/-- The width of the left column, with the gap after it. -/
def helpWidth : Nat := (Flag.all.map fun f => (helpColumn f).length).foldl max 0 + 3

/-- The line of a flag in the help. -/
def helpLine (defaults : Options) (f : Flag) : Text :=
  let column := helpColumn f
  column ++ List.replicate (helpWidth - column.length) Text.space ++ f.usage ++
    defaults.defaultRemark f ++ [Text.lineFeed]

/-- The help. -/
def helpText (defaults : Options) : Text :=
  Text.ofAscii "Assemble and run INTCODE programs\n\nUsage:\n" ++
    Text.ofAscii "  icint ICFILE [...] [-iINPUT] [-oOUTPUT] [flags]\n\nFlags:\n" ++
    Flag.all.flatMap defaults.helpLine

end Options

end Intcode.CommandLine
