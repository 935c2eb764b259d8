import Intcode.Memory

/-!
# Strings in memory

A packed string keeps its length in its first byte and its characters in the
bytes after it, so it has at most 255 of them. An unpacked string keeps the
same numbers one to a word.
-/

namespace Intcode.Memory

/-- The packed string at a word address. -/
def string (m : Memory) (a : Int) : Except Failure Text := do
  let b := wrap (2 * a)
  let n := (← m.byte b).toNat
  if b + 1 + n ≤ 2 * m.size then
    return (List.range n).map fun k => m.byteAt (b.toNat + 1 + k)
  else
    throw (.address ((b + 1).tdiv 2))

/-- Stores a text as a packed string at a word address. Characters beyond the 255th are
dropped. The last word is cleared first, so the byte after an even number of characters
is zero. -/
def setString (a : Int) (t : Text) : Action Memory Unit := do
  let s := t.take 255
  setWord (wrap (a + (s.length / 2 : Nat))) 0
  let b := wrap (2 * a)
  setByte b (UInt8.ofNat s.length)
  setBytes (b + 1) s

/-- Packs the unpacked string at word address `v` into word address `s` and returns the
offset of the last word of the packed string. -/
def pack (v s : Int) : Action Memory Cell := do
  let n := (← Action.read (·.word v)).low.toNat
  setWord (wrap (s + (n / 2 : Nat))) 0
  (List.range (n + 1)).forM fun k => do
    let c ← Action.read (·.word (wrap (v + k)))
    setByte (wrap (2 * s + k)) c.low
  return Cell.ofNat (n / 2)

/-- Unpacks the packed string at word address `s` into the words from word address `v` on. -/
def unpack (s v : Int) : Action Memory Unit := do
  let n := (← Action.read (·.byte (wrap (2 * s)))).toNat
  (List.range (n + 1)).forM fun k => do
    let c ← Action.read (·.byte (wrap (2 * s + k)))
    setWord (wrap (v + k)) (.ofByte c)

end Intcode.Memory
