import Intcode.Assembly.Directive

/-!
# Segments

A list of directives falls into segments: the stretches between the segment
ends, and the last stretch up to the end of the list. Labels belong to a segment,
so what a directive defines, refers to or names as a global is collected segment
by segment.
-/

namespace Intcode.Directive

/-- The segments of a list of directives, without their ends. -/
def segments (ds : List Directive) : List (List Directive) := ds.splitOn .segmentEnd

/-- The label that a directive defines. -/
def definition? : Directive → Option Cell
  | label n => some n
  | _ => none

/-- The label that a directive refers to. -/
def reference? : Directive → Option Cell
  | instruction _ _ (.label n) => some n
  | word (.label n) => some n
  | .global _ l => some l
  | _ => none

/-- The word that a directive names as a global. -/
def target? : Directive → Option Nat
  | .global n _ => some n.toNat
  | _ => none

/-- Whether a directive is one: no unknown byte, and no global without its label. -/
def IsComplete : Directive → Prop
  | openGlobal _ | unknown _ => False
  | _ => True

/-- The labels that directives define, in order. -/
def definitions (ds : List Directive) : List Cell := ds.filterMap definition?

/-- The labels that directives refer to, in order. -/
def references (ds : List Directive) : List Cell := ds.filterMap reference?

/-- The words that directives name as globals, in order. -/
def targets (ds : List Directive) : List Nat := ds.filterMap target?

/-- The definitions of a list are that of its first directive and those of the others. -/
theorem definitions_cons (d : Directive) (ds : List Directive) :
    definitions (d :: ds) = d.definition?.toList ++ definitions ds := by
  unfold definitions
  cases h : d.definition? <;> simp [h]

/-- The references of a list are that of its first directive and those of the others. -/
theorem references_cons (d : Directive) (ds : List Directive) :
    references (d :: ds) = d.reference?.toList ++ references ds := by
  unfold references
  cases h : d.reference? <;> simp [h]

/-- The globals of a list are that of its first directive and those of the others. -/
theorem targets_cons (d : Directive) (ds : List Directive) :
    targets (d :: ds) = d.target?.toList ++ targets ds := by
  unfold targets
  cases h : d.target? <;> simp [h]

/-- The definitions of two lists are those of the first and those of the second. -/
theorem definitions_append (ds ds' : List Directive) :
    definitions (ds ++ ds') = definitions ds ++ definitions ds' := List.filterMap_append

/-- The globals of two lists are those of the first and those of the second. -/
theorem targets_append (ds ds' : List Directive) :
    targets (ds ++ ds') = targets ds ++ targets ds' := List.filterMap_append

/-- A list without segment end is one segment. -/
theorem segments_of_not_mem {ds : List Directive} (h : .segmentEnd ∉ ds) : segments ds = [ds] :=
  List.splitOn_eq_singleton h

/-- The first segment end ends the first segment. -/
theorem segments_append_cons {seg : List Directive} (h : .segmentEnd ∉ seg)
    (rest : List Directive) : segments (seg ++ .segmentEnd :: rest) = seg :: segments rest := by
  unfold segments
  rw [List.splitOn_append_cons_of_beq seg rest (beq_self_eq_true _), List.splitOn_eq_singleton h,
    List.singleton_append]

/-- What holds of a last segment, and of a segment followed by directives of which it holds,
holds of all lists of directives. -/
theorem segments_induction {P : List Directive → Prop}
    (last : ∀ seg, .segmentEnd ∉ seg → P seg)
    (next : ∀ seg rest, .segmentEnd ∉ seg → P rest → P (seg ++ .segmentEnd :: rest))
    (ds : List Directive) : P ds := by
  induction hlength : ds.length using Nat.strongRecOn generalizing ds with
  | ind length ih =>
    by_cases hend : .segmentEnd ∈ ds
    · obtain ⟨seg, rest, rfl, hseg⟩ := List.eq_append_cons_of_mem hend
      refine next seg rest hseg (ih rest.length ?_ rest rfl)
      simp only [List.length_append, List.length_cons] at hlength
      omega
    · exact last ds hend

end Intcode.Directive
