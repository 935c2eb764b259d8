import Intcode.CommandLine
import Intcode.Host.Directory

/-!
# The program

Collects the arguments, the environment, standard input, the files of the current
directory and those that the arguments name elsewhere, carries out the command, and
puts its effects into place.
-/

namespace Intcode.CommandLine

/-- The bytes of a string. -/
def bytesOf (s : String) : Text := s.toUTF8.toList

/-- The string of a text. -/
def stringOf (t : Text) : String := String.ofList (t.codePoints.map Char.ofNat)

/-- Reads a stream to its end. -/
partial def readAll (stream : IO.FS.Stream) (bytes : ByteArray) : IO Text := do
  let more ← stream.read 65536
  if more.isEmpty then return bytes.toList else readAll stream (bytes ++ more)

/-- The files of the current directory. Those that cannot be read are left out. -/
def readDirectory : IO (List (Text × Text)) := do
  let entries ← (← IO.currentDir).readDir
  let mut files := []
  for entry in entries do
    try
      if !(← entry.path.isDir) then
        let bytes ← IO.FS.readBinFile entry.path
        files := (bytesOf entry.fileName, bytes.toList) :: files
    catch _ => pure ()
  return files

/-- The variables that set defaults. -/
def readEnvironment : IO (List (Text × Text)) := do
  let mut found := []
  for name in ["ICINT_WORDS", "ICINT_TRACE", "ICINT_RAW"] do
    if let some value ← IO.getEnv name then
      found := (bytesOf name, bytesOf value) :: found
  return found

/-- The names that the arguments give to files. -/
def namesOf (arguments : List Text) (environment : List (Text × Text)) : List Text :=
  match (Options.ofEnvironment environment).ofArguments arguments with
  | .ok o => (o.input :: o.output :: o.files).filter (· ≠ [])
  | .error _ => []

/-- The part of a path up to its last slash. -/
def parentOf (path : Text) : Text :=
  (path.reverse.dropWhile (· ≠ Text.byte '/')).reverse

/-- What the given names lead to outside the current directory, and the files that they lead to. -/
def readOutside (names : List Text) : IO (List (Text × Place) × List (Text × Text)) := do
  let current ← IO.currentDir
  let mut places := []
  let mut files := []
  for name in names do
    let path := current / stringOf name
    if (Directory.place (fun _ => .nowhere) name) != .nowhere then pure ()
    else if ← path.isDir then places := (name, .directory) :: places
    else if ← (current / stringOf (parentOf name)).isDir then
      try
        if ← path.pathExists then
          files := (name, (← IO.FS.readBinFile path).toList) :: files
        places := (name, .file name true true) :: places
      catch _ => places := (name, .file name false true) :: places
  return (places, files)

/-- What the command is called with. The terminal cannot be switched to raw input from here. -/
def readInvocation (arguments : List String) : IO Invocation := do
  let arguments := arguments.map bytesOf
  let environment ← readEnvironment
  let (places, files) ← readOutside (namesOf arguments environment)
  return {
    arguments, environment
    directory := (← readDirectory) ++ files
    place := Directory.place fun name => (places.lookup name).getD .nowhere
    standardInput := ← readAll (← IO.getStdin) .empty }

/-- Puts the effects of the command into place and returns the status. -/
def putInPlace (i : Invocation) (c : Completion) : IO UInt32 := do
  let bytes (t : Text) : ByteArray := ⟨t.toArray⟩
  for e in c.journal do
    (← IO.getStderr).write (bytes (journalLine e ++ [Text.lineFeed]))
  (← IO.getStderr).write (bytes c.dump)
  for (name, contents) in c.changedFiles i do
    IO.FS.writeBinFile (stringOf name) (bytes contents)
  (← IO.getStdout).write (bytes c.standardOutput)
  (← IO.getStdout).flush
  return UInt32.ofNat (c.status % 256).toNat

/-- Carries out the command, with ever more instructions until the program ends. -/
partial def carryThrough (i : Invocation) (fuel : Nat) : IO UInt32 :=
  match execute fuel i with
  | .completed c => putInPlace i c
  | .unfinished => carryThrough i (4 * fuel)
  | .broken _ => return 2

end Intcode.CommandLine

/-- Runs the command. -/
def main (arguments : List String) : IO UInt32 := do
  let i ← Intcode.CommandLine.readInvocation arguments
  Intcode.CommandLine.carryThrough i 1000000
