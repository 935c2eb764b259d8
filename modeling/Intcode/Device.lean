import Intcode.Failure

/-!
# Output devices

A device takes bytes until it is full. It remembers what it took, write by
write.
-/

namespace Intcode

/-- A device and the room it has left, unlimited when none is given. -/
structure Device where
  /-- The bytes taken by each write, the newest write first. -/
  taken : List Text := []
  room : Option Nat := none
deriving DecidableEq, Repr, Inhabited

namespace Device

/-- All bytes taken, in order. -/
def contents (d : Device) : Text := d.taken.reverse.flatten

/-- How many bytes of a text fit. -/
def fitting (d : Device) (t : Text) : Nat :=
  match d.room with
  | none => t.length
  | some r => min r t.length

/-- Writes a text, or as much of it as fits, and tells how many bytes were taken. A device
refuses exactly when it takes fewer bytes than it was given. -/
def write (d : Device) (t : Text) : Nat × Device :=
  let n := d.fitting t
  (n, { taken := t.take n :: d.taken, room := d.room.map (· - n) })

/-- A write adds what was taken to the contents. -/
theorem contents_write (d : Device) (t : Text) :
    (d.write t).2.contents = d.contents ++ t.take (d.write t).1 := by
  simp [write, contents]

/-- A device never takes more than it is given. -/
theorem write_le (d : Device) (t : Text) : (d.write t).1 ≤ t.length := by
  simp only [write, fitting]
  cases d.room with
  | none => exact Nat.le_refl _
  | some r => exact Nat.min_le_right _ _

/-- The device with more room, if its room is limited. -/
def enlarge (d : Device) (n : Nat) : Device := { d with room := d.room.map (· + n) }

/-- The bytes taken so far, and the device that starts to record afresh. -/
def collect (d : Device) : Text × Device := (d.contents, { d with taken := [] })

end Device

end Intcode
