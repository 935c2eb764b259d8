import Intcode.Proofs.Assembly.Orderly

/-!
# When assembling comes to an end

Only the definition of a label can go on for ever: its walk follows links that
lie in the memory, and a global that is set twice in a segment, or a global in
the code itself, can close these links to a circle. A text is assembled to an
end exactly when none of its label definitions is trapped, and this is so in
particular when no segment sets a global twice and all globals lie before the
code.
-/

namespace Intcode.Assembler

/-- Assembling a text comes to an end, with acceptance or with a report. -/
def Returns (t : Text) (readError : Option HostError) (s : Assembler) : Prop :=
  (∃ s', assemble t readError s = .ok () s') ∨
    ∃ r s', assemble t readError s = .error (.report r) s'

/-- Assembling a text comes to an end exactly when no label definition hangs. -/
theorem returns_iff_not_hangs {t : Text} {readError : Option HostError} {s : Assembler}
    (h : 0 ≤ s.lomem) :
    Returns t readError s ↔ ¬ s.fresh.Hangs (Directive.parseAll t.significant) := by
  rw [← assemble_eq_endless_iff_hangs t readError s h]
  constructor
  · rintro (⟨s', hreturn⟩ | ⟨r, s', hreturn⟩) ⟨s'', hendless⟩
    · rw [hreturn] at hendless
      cases hendless
    · rw [hreturn] at hendless
      cases hendless
  · intro hends
    rcases assemble_cases t readError s with haccept | hreport | hendless
    · exact .inl haccept
    · exact .inr hreport
    · exact absurd hendless hends

/-- A walk is trapped exactly when no number of words is enough for it. -/
theorem trapped_iff_forall_patchChain {m : Memory} {v k : Cell} :
    Labels.Trapped m v k ↔ ∀ words, ∃ m', Labels.patchChain v words k m = .error .endless m' := by
  constructor
  · exact Labels.patchChain_of_trapped
  · intro hwalk
    exact Labels.patchChain_chainLimit_eq_endless_iff.mp (hwalk Labels.chainLimit)

/-- A global that is set to one label twice holds its own address. If it lies at the end of the
code, the definition of the label there hangs. -/
theorem hangs_of_global_at_lomem {s : Assembler} {a n : Cell} (hlomem : 0 ≤ s.lomem)
    (ha : Cell.ofInt s.lomem = a) (hlink : Labels.IsLink s.memory a)
    (hn : Labels.IsNumber n.toInt) : s.fresh.Hangs [.global a n, .global a n, .label n] := by
  have hself : Cell.ofInt (a.toNat : Int) = a := by
    change BitVec.ofInt 16 _ = a
    rw [BitVec.ofInt_natCast, BitVec.ofNat_toNat, BitVec.setWidth_eq]
  have hpositive : ¬ a.toInt < 0 := Int.not_lt.mpr hlink.1.le
  have hplaced := placed_fresh hlomem
  have hentry : s.fresh.labels.lookup? n.toInt = some 0 := by
    simp only [fresh, Labels.lookup?_blank, if_pos hn]
  have hfirst := Step.global (s := s.fresh) hlink.2 hentry
  have hentry₁ : (s.fresh.refer n.toInt 0 a.toNat).labels.lookup? n.toInt = some a := by
    rw [refer, Labels.lookup?_note hentry, if_pos rfl, if_neg (by decide), hself]
  have hinside : a.toNat < (s.fresh.refer n.toInt 0 a.toNat).memory.size := by
    simpa only [refer, fresh, Memory.size_setCell] using hlink.2
  have hsecond := Step.global hinside hentry₁
  have hrun : emitAll [.global a n, .global a n] s.fresh = .ok () _ :=
    (emitAll_cons_eq_ok_iff hplaced).mpr ⟨_, hfirst,
      (emitAll_cons_eq_ok_iff (hfirst.placed hplaced)).mpr ⟨_, hsecond, rfl⟩⟩
  refine ⟨[.global a n, .global a n], n, [], _, rfl, hrun, a, ?_, ?_⟩
  · rw [refer, Labels.lookup?_note hentry₁, if_pos rfl, if_neg hpositive, hself]
  · have hcell : ((s.fresh.refer n.toInt 0 a.toNat).refer n.toInt a a.toNat).memory.cellAt a.toNat =
        a := by
      rw [refer, Memory.cellAt_setCell_self hinside, Labels.pointer, if_neg hpositive]
    have hunending := Labels.unending_of_cycle (k := a)
      (Labels.isLink_of_cellAt_eq_self hlink.1 hcell) (hcell.symm ▸ .refl _ a)
    exact ⟨hunending, ha.symm ▸ hunending⟩

/-- Assembling a text comes to an end exactly when none of its label definitions starts a trapped
walk. A trapped walk has no end, and there is none when no segment sets a global twice and all
globals lie before the code. -/
theorem assemble_returns_iff (t : Text) (readError : Option HostError) (s : Assembler)
    (hlomem : 0 < s.lomem) :
    (Returns t readError s ↔ ¬ s.fresh.Hangs (Directive.parseAll t.significant)) ∧
      (∀ m v k, Labels.Trapped m v k ↔
        ∀ words, ∃ m', Labels.patchChain v words k m = .error .endless m') ∧
      (s.memory.size ≤ 32768 → s.lomem < 32768 →
        Directive.Orderly s.lomem.toNat (Directive.parseAll t.significant) →
          Returns t readError s) := by
  have hreturns : Returns t readError s ↔ ¬ s.fresh.Hangs (Directive.parseAll t.significant) :=
    returns_iff_not_hangs (by omega)
  refine ⟨hreturns, fun m v k => trapped_iff_forall_patchChain, fun hsize hlt horderly => ?_⟩
  rw [hreturns]
  exact (ready_fresh (based_fresh hlomem hlt hsize) horderly).not_hangs

/-- A text that sets a global once is assembled to its end. -/
theorem returns_global_set_once :
    Returns (Text.ofAscii "G10L1 JL1 1 ") none { memory := .blank 1000, lomem := 401 } := by
  have hds : Directive.parseAll (Text.significant (Text.ofAscii "G10L1 JL1 1 ")) =
      [.global 10 1, .instruction ⟨.jump, false, false⟩ false (.label 1), .label 1] := by decide
  have hsize : (Memory.blank 1000).size = 1000 := Memory.size_blank (by decide)
  refine (assemble_returns_iff _ none { memory := .blank 1000, lomem := 401 } (by decide)).2.2
    (by rw [hsize]; decide) (by decide) ?_
  rw [hds]
  decide

/-- A text that sets the word at the end of the code to a label twice, and defines the label
there, is assembled for ever. -/
theorem not_returns_global_set_twice :
    ¬ Returns (Text.ofAscii "G401L1 G401L1 1 ") none { memory := .blank 1000, lomem := 401 } := by
  have hds : Directive.parseAll (Text.significant (Text.ofAscii "G401L1 G401L1 1 ")) =
      [.global 401 1, .global 401 1, .label 1] := by decide
  have hsize : (Memory.blank 1000).size = 1000 := Memory.size_blank (by decide)
  rw [returns_iff_not_hangs (by decide), not_not, hds]
  exact hangs_of_global_at_lomem (by decide) rfl ⟨by decide, by rw [hsize]; decide⟩ (by decide)

end Intcode.Assembler
