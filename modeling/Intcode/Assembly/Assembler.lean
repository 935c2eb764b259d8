import Intcode.Assembly.Directive
import Intcode.Assembly.Labels

/-!
# The assembler

The assembler appends code to a memory in one pass. References to labels that
are not defined yet are chained through the words that hold them and filled in
when the label is defined. Labels are local to a segment.
-/

namespace Intcode

/-- An assembler at work. -/
structure Assembler where
  memory : Memory
  /-- The first free word after the code. -/
  lomem : Int
  /-- Whether the next packed byte goes into the high half of the last word. -/
  packing : Bool := false
  labels : Labels := .blank

namespace Assembler

instance : Inhabited Assembler := ⟨{ memory := default, lomem := 0 }⟩

/-- Runs an action on the memory. -/
@[inline] def onMemory {α : Type} (x : Action Memory α) : Action Assembler α :=
  Action.on (·.memory) (fun s memory => { s with memory }) x

/-- Defines a label as an address and fills in the words that wait for it. -/
def define (n addr : Int) : Action Assembler Unit := do
  match (← get).labels.lookup? n with
  | none => Action.fail (.fatal .badCode addr)
  | some k =>
    if k.toInt < 0 then Action.fail (.fatal .duplicateLabel n)
    else
      let v := Cell.ofInt addr
      onMemory (Labels.patchChain v Labels.chainLimit k)
      modify fun s => { s with labels := s.labels.setEntry n (-v) }

/-- Adds the address of a label to a word, or chains the word to the label's references if
the label is not defined yet. -/
def reference (n patch : Int) : Action Assembler Unit := do
  match (← get).labels.lookup? n with
  | none => Action.fail (.fatal .badCode patch)
  | some k =>
    if 0 ≤ k.toInt then
      modify fun s => { s with labels := s.labels.setEntry n (Cell.ofInt patch) }
    onMemory do
      let w ← Action.read (·.word patch)
      Memory.setWord patch (w + if k.toInt < 0 then -k else k)

/-- Fails if a label has been referred to and not defined. -/
def checkResolved : Action Assembler Unit := do
  match (← get).labels.pending? with
  | some n => Action.fail (.fatal .unsetLabel n)
  | none => pure ()

/-- Forgets all labels. -/
def resetLabels : Action Assembler Unit := modify fun s => { s with labels := .blank }

/-- Ends a run of packed bytes. -/
def endPacking : Action Assembler Unit := modify fun s => { s with packing := false }

/-- Fails at the current end of the code. -/
def failHere : Action Assembler Unit := do
  Action.fail (.fatal .badCode (← get).lomem)

/-- Appends a word. -/
def append (w : Cell) : Action Assembler Unit := do
  let lomem := (← get).lomem
  if (← get).memory.size - (labelCount : Int) ≤ lomem then failHere
  else
    onMemory (Memory.setWord lomem w)
    modify fun s => { s with lomem := s.lomem + 1, packing := false }

/-- Appends a byte: into the high half of the last word if that is free for it, else into
the low half of a new word. -/
def appendByte (c : UInt8) : Action Assembler Unit := do
  let second := (← get).packing
  if !second then append 0
  let last := (← get).lomem - 1
  onMemory (Memory.setByte (wrap (2 * last + if second then 1 else 0)) c)
  modify fun s => { s with packing := !second }

/-- Appends a word that refers to a label. -/
def appendReference (n : Cell) : Action Assembler Unit := do
  append 0
  reference n.toInt ((← get).lomem - 1)

/-- Carries out a directive. -/
def emit : Directive → Action Assembler Unit
  | .label n => do
    define n.toInt (← get).lomem
    endPacking
  | .instruction opcode _ (.label n) => do
    append opcode.longWord
    appendReference n
  | .instruction opcode _ (.number v) => do
    if v.toNat < 256 then append (opcode.shortWord v)
    else
      append opcode.longWord
      append v
  | .byte v => appendByte v.low
  | .word (.label n) => appendReference n
  | .word (.number v) => append v
  | .global n label => do
    if (← get).memory.size ≤ n.address then failHere
    else
      onMemory (Memory.setWord n.address 0)
      reference label.toInt n.address
  | .openGlobal _ => failHere
  | .segmentEnd => do
    checkResolved
    resetLabels
    endPacking
  | .unknown c => Action.fail (.fatal .badCharacter c.toNat)

/-- Carries out directives in order. -/
def emitAll : List Directive → Action Assembler Unit
  | [] => pure ()
  | d :: ds => do
    emit d
    emitAll ds

/-- An access outside the memory and what the host refuses are bad code at the current end of the
code. -/
def restateFailure (s : Assembler) : Failure → Failure
  | .address a => .report ⟨[addressText a], .fatal .badCode s.lomem⟩
  | .overrun b n => .report ⟨[overrunText b n], .fatal .badCode s.lomem⟩
  | .overlong => .report ⟨[overlongText], .fatal .badCode s.lomem⟩
  | e => e

/-- Assembles a text after the code already there, with a fresh label table. If reading the
text failed at its end, that is an error once the text before it has been accepted. -/
def assemble (t : Text) (readError : Option HostError) : Action Assembler Unit :=
  Action.restating restateFailure do
    resetLabels
    endPacking
    emitAll (Directive.parseAll t.significant)
    match readError with
    | some e => Action.fail (.host "read failed" e)
    | none => pure ()

end Assembler

end Intcode
