import Intcode.Text

/-!
# Padded texts

A padded text is a text with one byte repeated in front of it. It may be far longer
than what anybody sees of it, so it is kept as that byte and a count.
-/

namespace Intcode

/-- A text with a byte repeated in front of it. -/
structure Padded where
  fill : UInt8
  count : Nat
  text : Text
deriving DecidableEq, Repr

namespace Padded

/-- A text preceded by as many spaces as it lacks to the given width. -/
def rightJustified (width : Int) (t : Text) : Padded := ⟨Text.space, (width - t.length).toNat, t⟩

/-- The bytes of a padded text. -/
def toText (p : Padded) : Text := List.replicate p.count p.fill ++ p.text

/-- The first bytes of a padded text. -/
def take (n : Nat) (p : Padded) : Text :=
  List.replicate (min n p.count) p.fill ++ p.text.take (n - p.count)

/-- The first bytes of a padded text are the first of its bytes. -/
theorem take_eq (n : Nat) (p : Padded) : p.take n = p.toText.take n := by
  simp [take, toText, List.take_append, List.take_replicate]

end Padded

end Intcode
