import Intcode.Assembly.Labels
import Intcode.Proofs.Memory

/-!
# The label table

The table has an entry for each label number from zero on and below the number
of labels, and for no other integer. These lemmas say what looking an entry up
gives after a replacement and after clearing the table, and when a label counts
as pending.
-/

namespace Intcode.Labels

/-- A label number is one that the table has an entry for. -/
def IsNumber (n : Int) : Prop := 0 ≤ n ∧ n < labelCount

instance (n : Int) : Decidable (IsNumber n) := inferInstanceAs (Decidable (_ ∧ _))

/-- What a word that refers to a label receives, given the label's entry: the address of a
defined label, and otherwise the link to the reference before it. -/
def pointer (k : Cell) : Cell := if k.toInt < 0 then -k else k

/-- The table after a word at address `a` has come to refer to label `n` with entry `k`. -/
def note (l : Labels) (n : Int) (k : Cell) (a : Int) : Labels :=
  if k.toInt < 0 then l else l.setEntry n (Cell.ofInt a)

/-- Exactly the label numbers have entries. -/
theorem exists_lookup?_iff (l : Labels) (n : Int) : (∃ k, l.lookup? n = some k) ↔ IsNumber n := by
  unfold lookup? IsNumber
  by_cases hn : 0 ≤ n
  · have hlt : n.toNat < labelCount ↔ n < (labelCount : Int) := by omega
    simp only [hn, true_and, ← hlt]
    constructor
    · rintro ⟨k, hk⟩
      exact (Vector.getElem?_eq_some_iff.mp hk).1
    · intro h
      exact ⟨l.entries[n.toNat], Vector.getElem?_eq_getElem h⟩
  · simp [hn]

/-- A label with an entry has a label number. -/
theorem isNumber_of_lookup? {l : Labels} {n : Int} {k : Cell} (h : l.lookup? n = some k) :
    IsNumber n := (exists_lookup?_iff l n).mp ⟨k, h⟩

/-- A replaced entry has its new value, and all others keep theirs. -/
theorem lookup?_setEntry {n : Int} (hn : IsNumber n) (l : Labels) (i : Int) (v : Cell) :
    (l.setEntry n v).lookup? i = if i = n then some v else l.lookup? i := by
  obtain ⟨hnonneg, hlt⟩ := hn
  unfold lookup? setEntry
  by_cases hi : 0 ≤ i
  · simp only [if_pos hi, Vector.getElem?_setIfInBounds]
    by_cases hin : i = n
    · subst hin
      simp only [if_true]
      rw [if_pos (by omega)]
    · rw [if_neg (by omega), if_neg hin]
  · rw [if_neg hi, if_neg hi, if_neg (by omega)]

/-- In the cleared table every entry is zero. -/
theorem lookup?_blank (n : Int) : blank.lookup? n = if IsNumber n then some 0 else none := by
  unfold lookup? blank IsNumber
  by_cases hn : 0 ≤ n
  · have hlt : n.toNat < labelCount ↔ n < (labelCount : Int) := by omega
    simp only [hn, true_and, Vector.getElem?_replicate, ← hlt, if_true]
  · simp [hn]

/-- An entry after a reference: that of the label is replaced unless the label is defined. -/
theorem lookup?_note {l : Labels} {n : Int} {k : Cell} (hk : l.lookup? n = some k) (i a : Int) :
    (l.note n k a).lookup? i =
      if i = n then some (if k.toInt < 0 then k else Cell.ofInt a) else l.lookup? i := by
  unfold note
  by_cases hneg : k.toInt < 0
  · rw [if_pos hneg, if_pos hneg]
    by_cases hin : i = n
    · rw [if_pos hin, hin, hk]
    · rw [if_neg hin]
  · rw [if_neg hneg, if_neg hneg, lookup?_setEntry (isNumber_of_lookup? hk)]

/-- Every label with an entry is the number of a cell. -/
theorem exists_toInt_eq {l : Labels} {n : Int} {k : Cell} (h : l.lookup? n = some k) :
    ∃ i : Cell, i.toInt = n := by
  obtain ⟨hnonneg, hlt⟩ := isNumber_of_lookup? h
  have hcount : (labelCount : Int) = 500 := rfl
  exact ⟨Cell.ofInt n, Cell.toInt_ofInt (by omega) (by omega)⟩

/-- No label is pending exactly when no entry is positive. -/
theorem pending?_eq_none_iff (l : Labels) :
    l.pending? = none ↔ ∀ (n k : Cell), l.lookup? n.toInt = some k → k.toInt ≤ 0 := by
  simp only [pending?, List.findIdx?_eq_none_iff, decide_eq_false_iff_not, Int.not_lt,
    Vector.mem_toList_iff]
  constructor
  · intro h n k hk
    unfold lookup? at hk
    split at hk
    · exact h k (Vector.mem_of_getElem? hk)
    · cases hk
  · intro h k hk
    obtain ⟨i, hi, rfl⟩ := Vector.getElem_of_mem hk
    have hentry : l.lookup? i = some l.entries[i] := by
      unfold lookup?
      rw [if_pos (by omega), Int.toNat_natCast, Vector.getElem?_eq_getElem hi]
    obtain ⟨n, hn⟩ := exists_toInt_eq hentry
    exact h n _ (hn ▸ hentry)

/-- The pending label is the least one whose entry is positive. -/
theorem pending?_eq_some_iff (l : Labels) (n : Nat) :
    l.pending? = some n ↔ (∃ k, l.lookup? n = some k ∧ 0 < k.toInt) ∧
      ∀ i < n, ∀ k, l.lookup? i = some k → k.toInt ≤ 0 := by
  have hentry (i : Nat) : l.lookup? i = l.entries.toList[i]? := by
    unfold lookup?
    rw [if_pos (Int.natCast_nonneg i), Int.toNat_natCast, Vector.getElem?_toList]
  simp only [pending?, List.findIdx?_eq_some_iff_getElem, decide_eq_true_eq, hentry,
    List.getElem?_eq_some_iff]
  constructor
  · rintro ⟨hlt, hpositive, hbefore⟩
    refine ⟨⟨_, ⟨hlt, rfl⟩, hpositive⟩, ?_⟩
    rintro i hi k ⟨-, rfl⟩
    exact Int.not_lt.mp (hbefore i hi)
  · rintro ⟨⟨k, ⟨hlt, rfl⟩, hpositive⟩, hbefore⟩
    exact ⟨hlt, hpositive, fun i hi => Int.not_lt.mpr (hbefore i hi _ ⟨_, rfl⟩)⟩

end Intcode.Labels
