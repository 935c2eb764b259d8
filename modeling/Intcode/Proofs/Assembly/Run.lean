import Intcode.Proofs.Assembly.Effects
import Intcode.Proofs.Assembly.Walk

/-!
# Carrying out directives in order

What every directive keeps, every run of directives keeps: the size of the
memory, a code end that only grows, a byte that waits only inside the memory. A
run fails with a report or at the walk of a label definition, and it never ends
exactly when such a walk is trapped.
-/

namespace Intcode.Assembler

/-- Some label definition among directives meets a condition on the label and the state in which
it is reached. -/
def SomeDefinition (P : Assembler → Cell → Prop) (s : Assembler) (ds : List Directive) : Prop :=
  ∃ before n after s₁, ds = before ++ .label n :: after ∧ emitAll before s = .ok () s₁ ∧ P s₁ n

/-- The definition of a label would walk for ever. -/
def Traps (s : Assembler) (n : Cell) : Prop :=
  ∃ k, s.labels.lookup? n.toInt = some k ∧ Labels.Trapped s.memory (Cell.ofInt s.lomem) k

/-- Some label definition among directives walks for ever. -/
def Hangs (s : Assembler) (ds : List Directive) : Prop := SomeDefinition Traps s ds

section Step

variable {s s' : Assembler} {d : Directive}

/-- No directive changes the size of the memory. -/
theorem Step.size_eq (h : Step s d s') : s'.memory.size = s.memory.size := by
  cases h with
  | define _ _ hpatch => exact (Labels.cellAt_patchChain hpatch).1
  | _ => simp [push, refer, packHigh, fresh]

/-- No directive moves the end of the code back. -/
theorem Step.lomem_le (h : Step s d s') : s.lomem ≤ s'.lomem := by
  cases h <;> simp only [defineHere, push, refer, packHigh, fresh] <;> omega

/-- Every directive keeps the code inside the address space. -/
theorem Step.placed (hs : s.Placed) (h : Step s d s') : s'.Placed := by
  refine ⟨hs.nonneg.trans h.lomem_le, ?_⟩
  cases h with
  | firstByte _ hroom =>
    intro _
    have hnonneg := hs.nonneg
    have hlt := hroom.lt_size
    simp only [push, Memory.size_setCell]
    omega
  | global _ _ =>
    intro hpacking
    simpa only [refer, Memory.size_setCell] using hs.packed hpacking
  | _ => simp [defineHere, push, refer, packHigh, fresh]

end Step

section Runs

variable {s s' : Assembler} {ds ds' : List Directive}

/-- The state at the start of a segment is one of an assembler at work. -/
theorem placed_fresh (h : 0 ≤ s.lomem) : s.fresh.Placed := ⟨h, by simp [fresh]⟩

/-- A run of directives is the first of them and then the others. -/
theorem emitAll_cons_eq_ok_iff (hs : s.Placed) {d : Directive} :
    emitAll (d :: ds) s = .ok () s' ↔ ∃ s₁, Step s d s₁ ∧ emitAll ds s₁ = .ok () s' := by
  simp only [emitAll, Action.bind_eq_ok_iff, ← emit_eq_ok_iff hs]
  constructor
  · rintro ⟨⟨⟩, s₁, hfirst, hrest⟩
    exact ⟨s₁, hfirst, hrest⟩
  · rintro ⟨s₁, hfirst, hrest⟩
    exact ⟨⟨⟩, s₁, hfirst, hrest⟩

/-- A run can be cut in two. -/
theorem emitAll_append (ds ds' : List Directive) (s : Assembler) :
    emitAll (ds ++ ds') s = (emitAll ds >>= fun _ => emitAll ds') s := by
  induction ds generalizing s with
  | nil => rfl
  | cons d ds ih =>
    simp only [List.cons_append, emitAll, Action.bind_apply]
    cases emit d s with
    | ok u s₁ => exact (ih s₁).trans (Action.bind_apply ..)
    | error e s₁ => rfl

/-- A run of two parts is the run of the first and then that of the second. -/
theorem emitAll_append_eq_ok_iff :
    emitAll (ds ++ ds') s = .ok () s' ↔
      ∃ s₁, emitAll ds s = .ok () s₁ ∧ emitAll ds' s₁ = .ok () s' := by
  rw [emitAll_append, Action.bind_eq_ok_iff]
  constructor
  · rintro ⟨⟨⟩, s₁, hfirst, hrest⟩
    exact ⟨s₁, hfirst, hrest⟩
  · rintro ⟨s₁, hfirst, hrest⟩
    exact ⟨⟨⟩, s₁, hfirst, hrest⟩

/-- What every step keeps, a run keeps. -/
theorem emitAll_preserves {P : Assembler → Prop} (hs : s.Placed) (h : emitAll ds s = .ok () s')
    (hstep : ∀ s₁ d s₂, s₁.Placed → Step s₁ d s₂ → P s₁ → P s₂) (hP : P s) : P s' := by
  induction ds generalizing s with
  | nil =>
    cases h
    exact hP
  | cons d ds ih =>
    obtain ⟨s₁, hfirst, hrest⟩ := (emitAll_cons_eq_ok_iff hs).mp h
    exact ih (hfirst.placed hs) hrest (hstep s d s₁ hs hfirst hP)

/-- A run keeps the code inside the address space. -/
theorem placed_of_emitAll (hs : s.Placed) (h : emitAll ds s = .ok () s') : s'.Placed :=
  emitAll_preserves hs h (fun _ _ _ hs₁ hstep _ => hstep.placed hs₁) hs

/-- A run of one more directive is the run and then the directive. -/
theorem emitAll_append_singleton_eq_ok_iff (hs : s.Placed) {d : Directive} :
    emitAll (ds ++ [d]) s = .ok () s' ↔
      ∃ s₁, emitAll ds s = .ok () s₁ ∧ Step s₁ d s' := by
  rw [emitAll_append_eq_ok_iff]
  constructor
  · rintro ⟨s₁, hrun, hlast⟩
    obtain ⟨s₂, hstep, hnil⟩ := (emitAll_cons_eq_ok_iff (placed_of_emitAll hs hrun)).mp hlast
    cases hnil
    exact ⟨s₁, hrun, hstep⟩
  · rintro ⟨s₁, hrun, hstep⟩
    exact ⟨s₁, hrun, (emitAll_cons_eq_ok_iff (placed_of_emitAll hs hrun)).mpr ⟨s', hstep, rfl⟩⟩

/-- A run keeps the size of the memory. -/
theorem size_of_emitAll (hs : s.Placed) (h : emitAll ds s = .ok () s') :
    s'.memory.size = s.memory.size :=
  emitAll_preserves (P := fun s₁ => s₁.memory.size = s.memory.size) hs h
    (fun _ _ _ _ hstep hsize => hstep.size_eq.trans hsize) rfl

/-- A run does not move the end of the code back. -/
theorem lomem_le_of_emitAll (hs : s.Placed) (h : emitAll ds s = .ok () s') :
    s.lomem ≤ s'.lomem :=
  emitAll_preserves (P := fun s₁ => s.lomem ≤ s₁.lomem) hs h
    (fun _ _ _ _ hstep hle => hle.trans hstep.lomem_le) le_rfl

/-- A run goes on after a directive that is known to have been carried out. -/
theorem emitAll_split_eq_ok_iff {d : Directive} {s₁ s₂ : Assembler} (hs : s.Placed)
    (hbefore : emitAll ds s = .ok () s₁) (hstep : Step s₁ d s₂) :
    emitAll (ds ++ d :: ds') s = .ok () s' ↔ emitAll ds' s₂ = .ok () s' := by
  have hplaced := placed_of_emitAll hs hbefore
  have hemit := (emit_eq_ok_iff hplaced).mpr hstep
  rw [emitAll_append, Action.bind_apply, hbefore]
  simp only [emitAll, Action.bind_apply, hemit]

/-- A label definition among directives is the first of them, or one that is reached once the
first has been carried out. -/
theorem someDefinition_cons {P : Assembler → Cell → Prop} (hs : s.Placed) {d : Directive} :
    SomeDefinition P s (d :: ds) ↔
      (∃ n, d = .label n ∧ P s n) ∨ ∃ s₁, Step s d s₁ ∧ SomeDefinition P s₁ ds := by
  constructor
  · rintro ⟨before, n, after, s₁, hds, hrun, hP⟩
    cases before with
    | nil =>
      cases hrun
      obtain ⟨rfl, rfl⟩ := List.cons_eq_cons.mp hds
      exact .inl ⟨n, rfl, hP⟩
    | cons d' before =>
      obtain ⟨rfl, rfl⟩ := List.cons_eq_cons.mp hds
      obtain ⟨s₂, hfirst, hrest⟩ := (emitAll_cons_eq_ok_iff hs).mp hrun
      exact .inr ⟨s₂, hfirst, before, n, after, s₁, rfl, hrest, hP⟩
  · rintro (⟨n, rfl, hP⟩ | ⟨s₁, hfirst, before, n, after, s₂, rfl, hrest, hP⟩)
    · exact ⟨[], n, ds, s, rfl, rfl, hP⟩
    · exact ⟨d :: before, n, after, s₂, rfl,
        (emitAll_cons_eq_ok_iff hs).mpr ⟨s₁, hfirst, hrest⟩, hP⟩

/-- A directive has one effect at most. -/
theorem Step.unique {d : Directive} {s₁ s₂ : Assembler} (hs : s.Placed) (h₁ : Step s d s₁)
    (h₂ : Step s d s₂) : s₁ = s₂ := by
  rw [← emit_eq_ok_iff hs] at h₁ h₂
  exact Action.ok_unique h₁ h₂

end Runs

section Failures

variable {s s' : Assembler} {d : Directive} {e : Failure}

/-- A failure to append a word is reported. -/
theorem append_eq_error (h : 0 ≤ s.lomem) {w : Cell} (hfail : append w s = .error e s') :
    ∃ r, e = .report r := by
  rw [append_eq h] at hfail
  split at hfail
  · cases hfail
  · cases hfail
    exact ⟨_, rfl⟩

/-- A failure to append a word that refers to a label is reported. -/
theorem appendReference_eq_error (h : 0 ≤ s.lomem) {n : Cell}
    (hfail : appendReference n s = .error e s') : ∃ r, e = .report r := by
  rw [appendReference_eq h] at hfail
  split at hfail
  · split at hfail <;> cases hfail
    exact ⟨_, rfl⟩
  · cases hfail
    exact ⟨_, rfl⟩

/-- A directive that fails is reported, or it defines a label and the walk for it fails. -/
theorem emit_eq_error (hs : s.Placed) (h : emit d s = .error e s') :
    (∃ r, e = .report r) ∨ ∃ n k m', d = .label n ∧ s.labels.lookup? n.toInt = some k ∧
      Labels.patchChain (Cell.ofInt s.lomem) Labels.chainLimit k s.memory = .error e m' := by
  have hnonneg := hs.nonneg
  cases d with
  | label n =>
    rw [emit_label_eq] at h
    cases hentry : s.labels.lookup? n.toInt with
    | none =>
      simp only [hentry] at h
      cases h
      exact .inl ⟨_, rfl⟩
    | some k =>
      by_cases hneg : k.toInt < 0
      · simp only [hentry, if_pos hneg] at h
        cases h
        exact .inl ⟨_, rfl⟩
      · cases hpatch : Labels.patchChain (Cell.ofInt s.lomem) Labels.chainLimit k s.memory with
        | ok u memory => simp only [hentry, if_neg hneg, hpatch, reduceCtorEq] at h
        | error e' memory =>
          simp only [hentry, if_neg hneg, hpatch] at h
          cases h
          exact .inr ⟨n, k, memory, rfl, hentry, hpatch⟩
  | instruction opcode marked operand =>
    left
    have hnonneg' := push_lomem_nonneg hnonneg opcode.longWord
    cases operand with
    | number v =>
      rw [emit_number_eq hnonneg] at h
      split at h
      · exact append_eq_error hnonneg h
      · split at h
        · exact append_eq_error hnonneg' h
        · cases h
          exact ⟨_, rfl⟩
    | label n =>
      rw [emit_labelOperand_eq hnonneg] at h
      split at h
      · exact appendReference_eq_error hnonneg' h
      · cases h
        exact ⟨_, rfl⟩
  | byte v =>
    left
    change appendByte v.low s = _ at h
    rw [appendByte_eq hs] at h
    split at h
    · cases h
    · split at h <;> cases h
      exact ⟨_, rfl⟩
  | word operand =>
    left
    cases operand with
    | number v => exact append_eq_error hnonneg h
    | label n => exact appendReference_eq_error hnonneg h
  | global n l =>
    left
    rw [emit_global_eq] at h
    split at h
    · split at h <;> cases h
      exact ⟨_, rfl⟩
    · cases h
      exact ⟨_, rfl⟩
  | openGlobal n =>
    cases h
    exact .inl ⟨_, rfl⟩
  | segmentEnd =>
    left
    rw [emit_segmentEnd_eq] at h
    split at h <;> cases h
    exact ⟨_, rfl⟩
  | unknown c =>
    cases h
    exact .inl ⟨_, rfl⟩

/-- A directive never ends exactly when it defines a label and the walk for it is trapped. -/
theorem emit_eq_endless_iff (hs : s.Placed) :
    (∃ s', emit d s = .error .endless s') ↔ ∃ n, d = .label n ∧ s.Traps n := by
  constructor
  · rintro ⟨s', h⟩
    rcases emit_eq_error hs h with ⟨r, hr⟩ | ⟨n, k, m', hd, hentry, hpatch⟩
    · cases hr
    · exact ⟨n, hd, k, hentry, Labels.patchChain_chainLimit_eq_endless_iff.mp ⟨m', hpatch⟩⟩
  · rintro ⟨n, rfl, k, hentry, htrapped⟩
    obtain ⟨m', hpatch⟩ := Labels.patchChain_of_trapped htrapped Labels.chainLimit
    have hpos := htrapped.1.next.1.1
    refine ⟨{ s with memory := m' }, ?_⟩
    rw [emit_label_eq]
    simp only [hentry, if_neg (show ¬ k.toInt < 0 by omega), hpatch]

/-- A run is taken for endless exactly when it hangs at a label definition. -/
theorem emitAll_eq_endless_iff (hs : s.Placed) (ds : List Directive) :
    (∃ s', emitAll ds s = .error .endless s') ↔ Hangs s ds := by
  induction ds generalizing s with
  | nil =>
    constructor
    · rintro ⟨s', h⟩
      cases h
    · rintro ⟨before, n, after, s₁, hds, -⟩
      simp at hds
  | cons d ds ih =>
    rw [Hangs, someDefinition_cons hs, ← emit_eq_endless_iff hs]
    simp only [emitAll, Action.bind_eq_error_iff]
    constructor
    · rintro ⟨s', hfirst | ⟨⟨⟩, s₁, hfirst, hrest⟩⟩
      · exact .inl ⟨s', hfirst⟩
      · have hstep := (emit_eq_ok_iff hs).mp hfirst
        exact .inr ⟨s₁, hstep, (ih (hstep.placed hs)).mp ⟨s', hrest⟩⟩
    · rintro (⟨s', hfirst⟩ | ⟨s₁, hstep, hrest⟩)
      · exact ⟨s', .inl hfirst⟩
      · obtain ⟨s', hrest⟩ := (ih (hstep.placed hs)).mpr hrest
        exact ⟨s', .inr ⟨⟨⟩, s₁, (emit_eq_ok_iff hs).mpr hstep, hrest⟩⟩

/-- Every failure but an endless walk is restated as a report. -/
theorem restateFailure_eq (s : Assembler) (e : Failure) :
    e = .endless ∧ restateFailure s e = .endless ∨ ∃ r, restateFailure s e = .report r := by
  cases e with
  | endless => exact .inl ⟨rfl, rfl⟩
  | _ => exact .inr ⟨_, rfl⟩

end Failures

section Texts

variable (t : Text) (readError : Option HostError) (s : Assembler)

/-- Assembling a text carries out its directives from a fresh label table, and then reports
a failure to read on. -/
theorem assemble_eq :
    assemble t readError s =
      match emitAll (Directive.parseAll t.significant) s.fresh with
      | .ok _ s' =>
        match readError with
        | some e => .error (.report (.host "read failed" e)) s'
        | none => .ok () s'
      | .error e s' => .error (restateFailure s' e) s' := by
  simp only [assemble, Action.restating, Action.bind_apply, resetLabels, endPacking,
    Action.modify_apply, fresh]
  cases emitAll (Directive.parseAll t.significant)
      { memory := s.memory, lomem := s.lomem, packing := false, labels := Labels.blank } with
  | error e s' => rfl
  | ok u s' => cases readError <;> rfl

/-- A text is accepted exactly when its directives are carried out and nothing failed to be
read. -/
theorem assemble_eq_ok_iff {s' : Assembler} :
    assemble t readError s = .ok () s' ↔ readError = none ∧
      emitAll (Directive.parseAll t.significant) s.fresh = .ok () s' := by
  rw [assemble_eq]
  cases emitAll (Directive.parseAll t.significant) s.fresh with
  | error e s₁ => simp
  | ok u s₁ => cases readError <;> simp

/-- Assembling a text is taken for endless exactly when its directives hang. -/
theorem assemble_eq_endless_iff_hangs (h : 0 ≤ s.lomem) :
    (∃ s', assemble t readError s = .error .endless s') ↔
      s.fresh.Hangs (Directive.parseAll t.significant) := by
  rw [← emitAll_eq_endless_iff (placed_fresh h), assemble_eq]
  cases emitAll (Directive.parseAll t.significant) s.fresh with
  | error e s₁ =>
    rcases restateFailure_eq s₁ e with ⟨rfl, hrestated⟩ | ⟨r, hrestated⟩
    · simp [hrestated]
    · cases e <;> simp [restateFailure]
  | ok u s₁ => cases readError <;> simp

/-- A text is accepted, rejected with a report, or taken for endless. -/
theorem assemble_cases :
    (∃ s', assemble t readError s = .ok () s') ∨
      (∃ r s', assemble t readError s = .error (.report r) s') ∨
      ∃ s', assemble t readError s = .error .endless s' := by
  rw [assemble_eq]
  cases emitAll (Directive.parseAll t.significant) s.fresh with
  | ok u s₁ =>
    cases readError with
    | none => exact .inl ⟨s₁, rfl⟩
    | some e => exact .inr (.inl ⟨_, s₁, rfl⟩)
  | error e s₁ =>
    rcases restateFailure_eq s₁ e with ⟨-, hrestated⟩ | ⟨r, hrestated⟩
    · exact .inr (.inr ⟨s₁, by simp only [hrestated]⟩)
    · exact .inr (.inl ⟨r, s₁, by simp only [hrestated]⟩)

end Texts

end Intcode.Assembler
