import Intcode.Memory

/-!
# Labels

Labels are numbered. The table holds zero for a label that nobody has mentioned,
the address of the last word that refers to it while it is not defined, and its
negated address once it is. The words that refer to an undefined label form a
chain: each holds the address of the one before it, and the first holds zero.
-/

namespace Intcode

/-- The number of labels of a segment, and of words at the end of memory that code never
reaches. -/
def labelCount : Nat := 500

/-- The label table. -/
structure Labels where
  entries : Vector Cell labelCount

namespace Labels

/-- The table in which no label has been mentioned. -/
def blank : Labels := ⟨Vector.replicate labelCount 0⟩

instance : Inhabited Labels := ⟨blank⟩

/-- The entry of a label, if its number is one. -/
def lookup? (l : Labels) (n : Int) : Option Cell :=
  if 0 ≤ n then l.entries[n.toNat]? else none

/-- Replaces the entry of a label. -/
def setEntry (l : Labels) (n : Int) (v : Cell) : Labels :=
  ⟨l.entries.setIfInBounds n.toNat v⟩

/-- The first label that has been referred to and not defined. -/
def pending? (l : Labels) : Option Nat := l.entries.toList.findIdx? fun k => 0 < k.toInt

/-- Stores a value in every word of the chain that starts at `k`. A chain that runs into
itself is walked for ever; after as many words as there are positive cells and two more
it has done so. -/
def patchChain (v : Cell) : Nat → Cell → Action Memory Unit
  | 0, k => if k.toInt ≤ 0 then pure () else throw .endless
  | n + 1, k => do
    if k.toInt ≤ 0 then pure ()
    else
      let next ← Action.read (·.word k.toInt)
      Memory.setWord k.toInt v
      patchChain v n next

/-- The number of words after which a walk along a chain never ends. -/
def chainLimit : Nat := 0x8000 + 2

end Labels

end Intcode
