import Intcode.Text

/-!
# Code points

File names are byte texts, but their letters are those of UTF-8. A byte that
starts no well-formed sequence counts as the replacement character.
-/

namespace Intcode.Text

/-- The code point that stands for a malformed byte. -/
def replacement : Nat := 0xFFFD

/-- Whether a byte continues a sequence, within the given bounds for its value. -/
def continues (low high : UInt8) (c : UInt8) : Bool := low ≤ c && c ≤ high

/-- The six bits that a continuation byte carries. -/
def payload (c : UInt8) : Nat := c.toNat % 64

/-- The bounds of the second byte of a sequence that starts with `c`. They exclude overlong
forms, surrogates and values beyond the last code point. -/
def secondBounds (c : UInt8) : UInt8 × UInt8 :=
  if c = 0xE0 then (0xA0, 0xBF)
  else if c = 0xED then (0x80, 0x9F)
  else if c = 0xF0 then (0x90, 0xBF)
  else if c = 0xF4 then (0x80, 0x8F)
  else (0x80, 0xBF)

/-- The code point that starts with the byte `c`, followed by `t`, and the number of bytes
of `t` that belong to it. -/
def codePoint (c : UInt8) (t : Text) : Nat × Nat :=
  if c < 0x80 then (c.toNat, 0)
  else
    let (low, high) := secondBounds c
    match t with
    | d :: t =>
      if !continues low high d then (replacement, 0)
      else if 0xC2 ≤ c && c ≤ 0xDF then (c.toNat % 32 * 64 + payload d, 1)
      else
        match t with
        | e :: t =>
          if !continues 0x80 0xBF e then (replacement, 0)
          else if 0xE0 ≤ c && c ≤ 0xEF then
            (c.toNat % 16 * 4096 + payload d * 64 + payload e, 2)
          else
            match t with
            | f :: _ =>
              if continues 0x80 0xBF f && 0xF0 ≤ c && c ≤ 0xF4 then
                (c.toNat % 8 * 262144 + payload d * 4096 + payload e * 64 + payload f, 3)
              else (replacement, 0)
            | [] => (replacement, 0)
        | [] => (replacement, 0)
    | [] => (replacement, 0)

/-- The code points of a text after the given number of bytes. -/
def codePointsAfter : Nat → Text → List Nat
  | _, [] => []
  | n + 1, _ :: t => codePointsAfter n t
  | 0, c :: t =>
    let (r, n) := codePoint c t
    r :: codePointsAfter n t

/-- The code points of a text. -/
def codePoints (t : Text) : List Nat := codePointsAfter 0 t

/-- The bytes of a code point. -/
def ofCodePoint (r : Nat) : Text :=
  let tail (shift : Nat) : UInt8 := UInt8.ofNat (0x80 + r / shift % 64)
  if r < 0x80 then [UInt8.ofNat r]
  else if r < 0x800 then [UInt8.ofNat (0xC0 + r / 64), tail 1]
  else if r < 0x10000 then [UInt8.ofNat (0xE0 + r / 4096), tail 64, tail 1]
  else [UInt8.ofNat (0xF0 + r / 262144), tail 4096, tail 64, tail 1]

/-- The bytes of code points. -/
def ofCodePoints (rs : List Nat) : Text := rs.flatMap ofCodePoint

end Intcode.Text
