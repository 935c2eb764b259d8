import Intcode.Memory

/-!
# Jump tables

A switch operation is followed by its table: the number of cases, the address to
jump to when no case matches, then a value and an address for each case.
-/

namespace Intcode

/-- A jump table. -/
structure Switch where
  fallback : Cell
  cases : List (Cell × Cell)
deriving DecidableEq, Repr

namespace Switch

/-- The given number of cases from an address on. -/
def readCases (m : Memory) (a : Int) : Nat → Except Failure (List (Cell × Cell))
  | 0 => .ok []
  | n + 1 => do
    let value ← m.word a
    let target ← m.word (a + 1)
    let rest ← readCases m (a + 2) n
    return (value, target) :: rest

/-- The table at an address, read as a whole. A negative number of cases counts as none. -/
def ofMemory (m : Memory) (a : Int) : Except Failure Switch := do
  let n := (← m.word a).toInt
  let fallback ← m.word (a + 1)
  let cases ← readCases m (a + 2) n.toNat
  return ⟨fallback, cases⟩

/-- The address for a value and the number of the first case that matches, if one does. -/
def lookup (s : Switch) (v : Cell) : Cell × Option Nat :=
  match s.cases.findIdx? fun c => c.1 = v with
  | some k => (((s.cases[k]?).map (·.2)).getD s.fallback, some k)
  | none => (s.fallback, none)

/-- What is left of a counter that was set to the number of cases and decremented before
each case was looked at, when the search ended: minus one when no case matched. -/
def remaining (s : Switch) : Option Nat → Cell
  | some k => Cell.ofNat (s.cases.length - k - 1)
  | none => -1

end Switch

end Intcode
