import Intcode.Action
import Intcode.Device
import Intcode.Text.Padded

/-!
# Printers

A printer writes pieces of text to a device until a write fails. From then on
it writes nothing more, even if the device has room again.
-/

namespace Intcode

/-- A device and the error of the first write that failed. -/
structure Printer where
  device : Device := {}
  failed : Option HostError := none
deriving DecidableEq, Repr, Inhabited

namespace Printer

/-- What a printer reports once a write has failed. -/
def error (p : Printer) : Option Report := p.failed.map (Report.host "write failed")

/-- Writes a text and tells how many of its bytes the device took. -/
def write (t : Text) (p : Printer) : Nat × Printer :=
  match p.failed with
  | some _ => (0, p)
  | none =>
    let (n, device) := p.device.write t
    (n, { device, failed := if n < t.length then some .deviceFull else none })

/-- Writes a text. -/
def print (t : Text) (p : Printer) : Printer := (p.write t).2

/-- Writes a padded text. No more of it is laid out than it takes to see that it does not
fit. -/
def printPadded (t : Padded) (p : Printer) : Printer :=
  p.print (match p.device.room with
    | none => t.toText
    | some r => t.take (r + 1))

/-- Writing a padded text is writing its bytes. -/
theorem printPadded_eq (t : Padded) (p : Printer) : p.printPadded t = p.print t.toText := by
  unfold printPadded
  split
  · rfl
  · next r hroom =>
    rw [Padded.take_eq]
    simp only [print, write, Device.write, Device.fitting, hroom, List.length_take, List.take_take]
    cases p.failed with
    | some e => rfl
    | none =>
      have hmin : min r (min (r + 1) t.toText.length) = min r t.toText.length := by omega
      have hlt : min r t.toText.length < min (r + 1) t.toText.length ↔
          min r t.toText.length < t.toText.length := by omega
      have htake : min (min r t.toText.length) (r + 1) = min r t.toText.length := by omega
      simp only [hmin, hlt, htake]

/-- No host has room for a text of more bytes. -/
def textLimit : Nat := 0x1000000000000

/-- A text preceded by as many spaces as it lacks to the given width. Their number is computed in
the integers of the host. -/
def justify (width : Int) (t : Text) : Except Failure Padded :=
  let count := wrap (width - t.length)
  if textLimit < t.length + count then .error .overlong
  else .ok ⟨Text.space, count.toNat, t⟩

/-- Writes an integer in decimal, right justified in the given width. The text is laid out before
it is given to the device, even if nothing is written any more. -/
def printInt (v width : Int) : Action Printer Unit := do
  let t ← Action.read fun _ => justify width (Text.ofInt v)
  modify (·.printPadded t)

end Printer

end Intcode
