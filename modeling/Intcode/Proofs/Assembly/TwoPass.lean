import Intcode.Proofs.Assembly.Segments
import Intcode.Proofs.Memory
import Intcode.Proofs.Assembly.LabelTable

/-!
# Assembling in two passes

The plain way to assemble a segment reads it twice. The first pass only measures
the directives, and so finds the address of every label. The second pass stores
every word in its final form, with the address of a label wherever a directive
refers to it. Nothing is chained and no word is stored for later completion.

This file gives that assembler, and the conditions on a segment under which its
result is what the text means: labels have numbers and are defined once, those
that are used are defined, and the globals are distinct words before the code.
-/

namespace Intcode.TwoPass

/-- Where a pass stands: at the first free word, and inside a word or not. -/
structure Position where
  lomem : Nat
  packing : Bool := false
deriving DecidableEq, Repr

namespace Position

/-- The position after a directive. -/
def after (p : Position) : Directive → Position
  | .label _ | .segmentEnd => { p with packing := false }
  | .instruction _ _ (.number v) => ⟨p.lomem + if v.toNat < 256 then 1 else 2, false⟩
  | .instruction _ _ (.label _) => ⟨p.lomem + 2, false⟩
  | .byte _ => if p.packing then ⟨p.lomem, false⟩ else ⟨p.lomem + 1, true⟩
  | .word _ => ⟨p.lomem + 1, false⟩
  | .global _ _ | .openGlobal _ | .unknown _ => p

/-- The position after directives. -/
def afterAll (p : Position) (ds : List Directive) : Position := ds.foldl after p

/-- No directive moves a position back. -/
theorem lomem_le_after (p : Position) (d : Directive) : p.lomem ≤ (p.after d).lomem := by
  unfold after
  grind

/-- No directives move a position back. -/
theorem lomem_le_afterAll (p : Position) (ds : List Directive) :
    p.lomem ≤ (p.afterAll ds).lomem := by
  induction ds generalizing p with
  | nil => exact Nat.le_refl _
  | cons d ds ih => exact Nat.le_trans (p.lomem_le_after d) (ih (p.after d))

end Position

/-- The first pass: the address of a label that is defined among directives. -/
def labelAddress (n : Cell) : Position → List Directive → Nat
  | _, [] => 0
  | p, d :: ds => if d = .label n then p.lomem else labelAddress n (p.after d) ds

/-- What the second pass stores for a directive, given the addresses of the labels. -/
def place (address : Cell → Cell) (p : Position) (m : Memory) : Directive → Memory
  | .instruction opcode _ (.number v) =>
    if v.toNat < 256 then m.setCell p.lomem (opcode.shortWord v)
    else (m.setCell p.lomem opcode.longWord).setCell (p.lomem + 1) v
  | .instruction opcode _ (.label n) =>
    (m.setCell p.lomem opcode.longWord).setCell (p.lomem + 1) (address n)
  | .byte v =>
    if p.packing then
      m.setCell (p.lomem - 1) (.ofBytes (m.cellAt (p.lomem - 1)).low v.low)
    else m.setCell p.lomem (.ofByte v.low)
  | .word (.number v) => m.setCell p.lomem v
  | .word (.label n) => m.setCell p.lomem (address n)
  | .global n l => m.setCell n.toNat (address l)
  | .label _ | .openGlobal _ | .segmentEnd | .unknown _ => m

/-- The second pass. -/
def placeAll (address : Cell → Cell) : Position → Memory → List Directive → Memory
  | _, m, [] => m
  | p, m, d :: ds => placeAll address (p.after d) (place address p m d) ds

/-- Storing words does not change the size of the memory. -/
@[simp] theorem size_place (address : Cell → Cell) (p : Position) (m : Memory) (d : Directive) :
    (place address p m d).size = m.size := by
  unfold place
  split <;> (try split) <;> simp only [Memory.size_setCell]

/-- The second pass does not change the size of the memory. -/
theorem size_placeAll (address : Cell → Cell) (p : Position) (m : Memory) (ds : List Directive) :
    (placeAll address p m ds).size = m.size := by
  induction ds generalizing p m with
  | nil => rfl
  | cons d ds ih => exact (ih (p.after d) (place address p m d)).trans (size_place ..)

/-- Both passes over a segment. -/
def assembleSegment (p : Position) (m : Memory) (seg : List Directive) : Memory :=
  placeAll (fun n => Cell.ofNat (labelAddress n p seg)) p m seg

/-- A memory with code up to an address. -/
structure Output where
  memory : Memory
  lomem : Nat

/-- Assembles segments one after the other. -/
def assembleSegments (lomem : Nat) (m : Memory) : List (List Directive) → Output
  | [] => ⟨m, lomem⟩
  | seg :: segs =>
    assembleSegments (Position.afterAll ⟨lomem, false⟩ seg).lomem
      (assembleSegment ⟨lomem, false⟩ m seg) segs

/-- Assembles directives after the code that ends before `lomem`. -/
def assemble (lomem : Nat) (m : Memory) (ds : List Directive) : Output :=
  assembleSegments lomem m (Directive.segments ds)

/-- The code does not end before the segments begin. -/
theorem le_lomem_assembleSegments (lomem : Nat) (m : Memory) (segs : List (List Directive)) :
    lomem ≤ (assembleSegments lomem m segs).lomem := by
  induction segs generalizing lomem m with
  | nil => exact Nat.le_refl _
  | cons seg segs ih => exact Nat.le_trans (Position.lomem_le_afterAll ⟨lomem, false⟩ seg) (ih ..)

/-- Directives whose labels have numbers and are defined at most once, and whose globals are
distinct words below the address `base`, word zero excepted. -/
structure Tidy (base : Nat) (ds : List Directive) : Prop where
  defined_number : ∀ n ∈ Directive.definitions ds, Labels.IsNumber n.toInt
  referenced_number : ∀ n ∈ Directive.references ds, Labels.IsNumber n.toInt
  definitions_nodup : (Directive.definitions ds).Nodup
  targets_nodup : (Directive.targets ds).Nodup
  targets_bounds : ∀ a ∈ Directive.targets ds, 0 < a ∧ a < base

/-- Directives that make up a whole segment: every label that they refer to they define. -/
structure WellFormed (base : Nat) (seg : List Directive) : Prop extends Tidy base seg where
  defined : ∀ n ∈ Directive.references seg, n ∈ Directive.definitions seg

instance (base : Nat) (ds : List Directive) : Decidable (Tidy base ds) :=
  decidable_of_iff
    (((Directive.definitions ds).all fun n => Labels.IsNumber n.toInt) = true ∧
      ((Directive.references ds).all fun n => Labels.IsNumber n.toInt) = true ∧
      (Directive.definitions ds).Nodup ∧ (Directive.targets ds).Nodup ∧
      ((Directive.targets ds).all fun a => 0 < a ∧ a < base) = true) <| by
    simp only [List.all_eq_true, decide_eq_true_eq]
    exact ⟨fun ⟨h₁, h₂, h₃, h₄, h₅⟩ => ⟨h₁, h₂, h₃, h₄, h₅⟩,
      fun ⟨h₁, h₂, h₃, h₄, h₅⟩ => ⟨h₁, h₂, h₃, h₄, h₅⟩⟩

instance (base : Nat) (seg : List Directive) : Decidable (WellFormed base seg) :=
  decidable_of_iff (Tidy base seg ∧
    ((Directive.references seg).all fun n => n ∈ Directive.definitions seg) = true) <| by
    simp only [List.all_eq_true, decide_eq_true_eq]
    exact ⟨fun ⟨htidy, hdefined⟩ => ⟨htidy, hdefined⟩, fun h => ⟨h.toTidy, h.defined⟩⟩

end Intcode.TwoPass
