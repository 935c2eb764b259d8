import Intcode.Host

/-!
# A working directory

A working directory without directories in it. Names that lead to its files or to
itself are known here; what all other names lead to is up to those who know the rest
of the host.
-/

namespace Intcode.Directory

/-- The parts of a name between slashes. -/
def pathParts : Text → List Text
  | [] => [[]]
  | c :: t =>
    if c = Text.byte '/' then [] :: pathParts t
    else
      match pathParts t with
      | part :: parts => (c :: part) :: parts
      | [] => [[c]]

/-- Whether a part of a name stays where it is. -/
def staysHere (part : Text) : Bool := part.isEmpty || part = Text.ofAscii "."

/-- Whether a part of a name goes to the directory above. -/
def goesUp (part : Text) : Bool := part = Text.ofAscii ".."

/-- The longest name of a file. -/
def nameLimit : Nat := 255

/-- The longest path. -/
def pathLimit : Nat := 4095

/-- Where the parts of a name lead from inside the directory, unless they lead out of it. -/
def follow? : List Text → Option Place
  | [] => some .directory
  | part :: rest =>
    if staysHere part then follow? rest
    else if goesUp part then none
    else if rest.isEmpty && part.length ≤ nameLimit then some (.file part true true)
    else some .nowhere

/-- Where a name leads, given where names lead outside the directory. -/
def place (outside : Text → Place) (name : Text) : Place :=
  if name.isEmpty || name.contains 0 || pathLimit < name.length then .nowhere
  else if name.head? = some (Text.byte '/') then outside name
  else (follow? (pathParts name)).getD (outside name)

end Intcode.Directory
