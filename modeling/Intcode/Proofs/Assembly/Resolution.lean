import Intcode.Proofs.Assembly.Threads

/-!
# References that stay unresolved

The end of a segment is refused when a label has been referred to and not
defined. The table keeps the address of the last reference to such a label, and
takes address zero for no reference at all. So the end of a segment is refused
exactly when some label that the segment does not define is referred to last by
a word other than word zero.
-/

namespace Intcode

namespace Directive

/-- The last directive that refers to a label. -/
def lastReference? (m : Cell) (ds : List Directive) : Option Directive :=
  ds.reverse.find? fun d => d.reference? = some m

/-- A label that directives refer to and do not define, and whose last reference is not the
setting of global zero. -/
def LeftOpen (ds : List Directive) (m : Cell) : Prop :=
  m ∉ definitions ds ∧ ∃ d ∈ lastReference? m ds, d.target? ≠ some 0

/-- Nothing, or directives up to the end of a segment. -/
def EndsSegment (ds : List Directive) : Prop := ds = [] ∨ ∃ ds', ds = ds' ++ [.segmentEnd]

/-- The last reference is the last directive if that refers to the label. -/
theorem lastReference?_append_singleton (m : Cell) (ds : List Directive) (d : Directive) :
    lastReference? m (ds ++ [d]) =
      if d.reference? = some m then some d else lastReference? m ds := by
  unfold lastReference?
  rw [List.reverse_append, List.reverse_singleton, List.singleton_append, List.find?_cons]
  by_cases h : d.reference? = some m <;> simp [h]

end Directive

namespace Assembler

variable {s s' : Assembler} {d : Directive} {seg : List Directive} {m : Cell}

/-- A directive changes the entry of a label only by defining it or referring to it. -/
theorem Step.lookup?_of_ne (h : Step s d s') (hend : d ≠ .segmentEnd)
    (hdefinition : d.definition? ≠ some m) (hreference : d.reference? ≠ some m) :
    s'.labels.lookup? m.toInt = s.labels.lookup? m.toInt := by
  have hne {n : Cell} (hn : some n ≠ some m) : m.toInt ≠ n.toInt :=
    fun heq => hn (congrArg some (BitVec.toInt_inj.mp heq).symm)
  cases h with
  | define hentry _ _ =>
    rw [defineHere, Labels.lookup?_setEntry (Labels.isNumber_of_lookup? hentry),
      if_neg (hne hdefinition)]
  | labelOperand _ _ hentry =>
    rw [refer, push, push, Labels.lookup?_note hentry, if_neg (hne hreference)]
  | labelWord _ hentry => rw [refer, push, Labels.lookup?_note hentry, if_neg (hne hreference)]
  | global _ hentry => rw [refer, Labels.lookup?_note hentry, if_neg (hne hreference)]
  | segmentEnd _ => exact absurd rfl hend
  | _ => rfl

/-- A reference to a label that is not defined leaves the address of the word that refers. -/
theorem Step.lookup?_of_reference (hs : 0 < s.lomem) (h : Step s d s')
    (hreference : d.reference? = some m) :
    ∃ k, s.labels.lookup? m.toInt = some k ∧ ∃ a : Nat, a < s.memory.size ∧
      (a = 0 ↔ d.target? = some 0) ∧
        s'.labels.lookup? m.toInt = some (if k.toInt < 0 then k else Cell.ofInt a) := by
  cases h with
  | @labelOperand opcode marked n k _ hroom hentry =>
    obtain rfl := Option.some.inj hreference
    have hlt := hroom.lt_size
    simp only [push, Memory.size_setCell] at hlt
    refine ⟨k, hentry, (s.lomem + 1).toNat, by omega, ?_, ?_⟩
    · simp only [Directive.target?, reduceCtorEq, iff_false]
      omega
    · rw [refer, push, push, Labels.lookup?_note hentry, if_pos rfl]
  | @labelWord n k hroom hentry =>
    obtain rfl := Option.some.inj hreference
    have hlt := hroom.lt_size
    refine ⟨k, hentry, s.lomem.toNat, by omega, ?_, ?_⟩
    · simp only [Directive.target?, reduceCtorEq, iff_false]
      omega
    · rw [refer, push, Labels.lookup?_note hentry, if_pos rfl]
  | @global n l k hlt hentry =>
    obtain rfl := Option.some.inj hreference
    refine ⟨k, hentry, n.toNat, hlt, ?_, ?_⟩
    · simp only [Directive.target?, Option.some.injEq]
    · rw [refer, Labels.lookup?_note hentry, if_pos rfl]
  | _ => cases hreference

/-- A label that a segment has not defined has a positive entry exactly when its last reference is
not the setting of global zero, and never a negative one. -/
theorem lookup?_of_not_defined (hs : 0 < s.lomem) (hsize : s.memory.size ≤ 32768)
    (hrun : emitAll seg s.fresh = .ok () s') (hend : .segmentEnd ∉ seg)
    (hm : m ∉ Directive.definitions seg) :
    (∀ k, s'.labels.lookup? m.toInt = some k → 0 ≤ k.toInt) ∧
      ((∃ d ∈ Directive.lastReference? m seg, d.target? ≠ some 0) ↔
        ∃ k, s'.labels.lookup? m.toInt = some k ∧ 0 < k.toInt) := by
  have hplaced := placed_fresh hs.le
  induction seg using List.reverseRecOn generalizing s' with
  | nil =>
    cases hrun
    have hzero : ∀ k, s.fresh.labels.lookup? m.toInt = some k → k = 0 := by
      intro k hk
      simp only [fresh, Labels.lookup?_blank] at hk
      split at hk
      · exact (Option.some.inj hk).symm
      · cases hk
    refine ⟨fun k hk => hzero k hk ▸ le_rfl, ?_⟩
    constructor
    · rintro ⟨d, hd, -⟩
      cases hd
    · rintro ⟨k, hk, hpos⟩
      rw [hzero k hk] at hpos
      exact absurd hpos (by decide)
  | append_singleton seg d ih =>
    obtain ⟨s₁, hbefore, hstep⟩ := (emitAll_append_singleton_eq_ok_iff hplaced).mp hrun
    rw [List.mem_append, List.mem_singleton, not_or] at hend
    rw [Directive.definitions_append, List.mem_append, not_or, Directive.definitions_cons,
      List.mem_append, not_or, Option.mem_toList] at hm
    obtain ⟨hnonneg, hiff⟩ := ih hbefore hend.1 hm.1
    rw [Directive.lastReference?_append_singleton]
    by_cases hreference : d.reference? = some m
    · have hle := lomem_le_of_emitAll hplaced hbefore
      have hsize₁ := size_of_emitAll hplaced hbefore
      simp only [fresh] at hle hsize₁
      obtain ⟨k, hk, a, hlt, hzero, hk'⟩ := hstep.lookup?_of_reference (by omega) hreference
      have hvalue : (Cell.ofInt (a : Int)).toInt = a := Cell.toInt_ofInt (by omega) (by omega)
      rw [if_neg (by have := hnonneg k hk; omega)] at hk'
      rw [if_pos hreference, hk']
      refine ⟨?_, ?_⟩
      · rintro _ ⟨⟩
        omega
      · constructor
        · rintro ⟨_, ⟨⟩, hne⟩
          have hpos : a ≠ 0 := fun ha => hne (hzero.mp ha)
          exact ⟨_, rfl, by omega⟩
        · rintro ⟨_, ⟨⟩, hpos⟩
          refine ⟨d, rfl, fun htarget => ?_⟩
          have ha := hzero.mpr htarget
          omega
    · rw [if_neg hreference, hstep.lookup?_of_ne (Ne.symm hend.2) hm.2.1 hreference]
      exact ⟨hnonneg, hiff⟩

/-- A label that a segment has defined has a negative entry, if the code lies at positive
addresses. -/
theorem lookup?_of_defined {base : Int} (hs : s.fresh.Based base)
    (hrun : emitAll seg s.fresh = .ok () s') (hend : .segmentEnd ∉ seg)
    (hm : m ∈ Directive.definitions seg) :
    ∀ k, s'.labels.lookup? m.toInt = some k → k.toInt < 0 := by
  induction seg using List.reverseRecOn generalizing s' with
  | nil => simp [Directive.definitions] at hm
  | append_singleton seg d ih =>
    obtain ⟨s₁, hbefore, hstep⟩ := (emitAll_append_singleton_eq_ok_iff hs.toPlaced).mp hrun
    have hbased := based_of_emitAll hs hbefore
    have hpos := hbased.base_pos.trans_le hbased.base_le
    have hlt := hbased.lomem_lt
    rw [List.mem_append, List.mem_singleton, not_or] at hend
    intro k hk
    by_cases hdefinition : d.definition? = some m
    · cases hstep with
      | define hentry _ _ =>
        obtain rfl := Option.some.inj hdefinition
        have hnumber := Labels.isNumber_of_lookup? hentry
        rw [defineHere, Labels.lookup?_setEntry hnumber, if_pos rfl] at hk
        obtain rfl := Option.some.inj hk
        rw [Cell.toInt_neg_ofInt (by omega) hlt]
        omega
      | _ => cases hdefinition
    · rw [Directive.definitions_append, List.mem_append, Directive.definitions_cons,
        List.mem_append, Option.mem_toList] at hm
      have hearlier : m ∈ Directive.definitions seg :=
        hm.resolve_right fun h => h.elim hdefinition (by simp [Directive.definitions])
      by_cases hreference : d.reference? = some m
      · obtain ⟨k₁, hk₁, a, -, -, hk'⟩ := hstep.lookup?_of_reference hpos hreference
        have hneg := ih hbefore hend.1 hearlier k₁ hk₁
        rw [hk, if_pos hneg] at hk'
        rwa [Option.some.inj hk']
      · rw [hstep.lookup?_of_ne (Ne.symm hend.2) hdefinition hreference] at hk
        exact ih hbefore hend.1 hearlier k hk

/-- After directives up to the end of a segment the label table is fresh, so the segment that
follows is run from its start. -/
theorem exists_segment_start {before : List Directive} (hs : 0 < s.lomem)
    (hbefore : Directive.EndsSegment before) (hrun : emitAll (before ++ seg) s.fresh = .ok () s') :
    ∃ s₀, emitAll before s.fresh = .ok () s₀ ∧ 0 < s₀.lomem ∧
      s₀.memory.size = s.memory.size ∧ emitAll seg s₀.fresh = .ok () s' := by
  have hplaced := placed_fresh hs.le
  obtain ⟨s₀, hstart, hseg⟩ := emitAll_append_eq_ok_iff.mp hrun
  have hle := lomem_le_of_emitAll hplaced hstart
  have hsize := size_of_emitAll hplaced hstart
  have hfresh : s₀.fresh = s₀ := by
    rcases hbefore with rfl | ⟨ds, rfl⟩
    · cases hstart
      rfl
    · obtain ⟨s₁, -, hstep⟩ := (emitAll_append_singleton_eq_ok_iff hplaced).mp hstart
      cases hstep
      rfl
  exact ⟨s₀, hstart, lt_of_lt_of_le hs hle, hsize, hfresh.symm ▸ hseg⟩

/-- A segment with a label left open cannot be ended. -/
theorem pending?_of_leftOpen (hs : 0 < s.lomem) (hsize : s.memory.size ≤ 32768)
    (hrun : emitAll seg s.fresh = .ok () s') (hend : .segmentEnd ∉ seg)
    (hopen : Directive.LeftOpen seg m) : s'.labels.pending? ≠ none := by
  obtain ⟨hm, hlast⟩ := hopen
  obtain ⟨k, hk, hpos⟩ := (lookup?_of_not_defined hs hsize hrun hend hm).2.mp hlast
  rw [Ne, Labels.pending?_eq_none_iff]
  intro hnone
  have hnonpos := hnone m k hk
  omega

/-- A segment that cannot be ended has a label left open. -/
theorem exists_leftOpen (hs : 0 < s.lomem) (hlt : s.lomem < 32768)
    (hsize : s.memory.size ≤ 32768) (hrun : emitAll seg s.fresh = .ok () s')
    (hend : .segmentEnd ∉ seg) (hpending : s'.labels.pending? ≠ none) :
    ∃ m, Directive.LeftOpen seg m := by
  rw [Ne, Labels.pending?_eq_none_iff] at hpending
  push Not at hpending
  obtain ⟨m, k, hk, hpos⟩ := hpending
  have hm : m ∉ Directive.definitions seg := by
    intro hm
    have hneg := lookup?_of_defined (based_fresh hs hlt hsize) hrun hend hm k hk
    omega
  exact ⟨m, hm, (lookup?_of_not_defined hs hsize hrun hend hm).2.mpr ⟨k, hk, hpos⟩⟩

/-- A text with a segment that leaves a label open at its end is rejected, unless an earlier label
definition hangs. When the code lies at positive addresses, an end that is reached is refused
exactly when the segment leaves a label open. -/
theorem segment_leaving_open_rejected (t : Text) (readError : Option HostError) (s : Assembler)
    (hsize : s.memory.size ≤ 32768) (hlomem : 0 < s.lomem) {before seg after : List Directive}
    (hds : Directive.parseAll t.significant = before ++ (seg ++ .segmentEnd :: after))
    (hbefore : Directive.EndsSegment before) (hend : .segmentEnd ∉ seg) :
    ((∃ m, Directive.LeftOpen seg m) → ¬ s.fresh.Hangs (Directive.parseAll t.significant) →
        ∃ r s', assemble t readError s = .error (.report r) s') ∧
      (s.lomem < 32768 → ∀ s₁, emitAll (before ++ seg) s.fresh = .ok () s₁ →
        ((∀ s₂, emit .segmentEnd s₁ ≠ .ok () s₂) ↔ ∃ m, Directive.LeftOpen seg m)) := by
  have hplaced := placed_fresh hlomem.le
  refine ⟨?_, fun hlt s₁ hrun => ?_⟩
  · rintro ⟨m, hopen⟩ hhangs
    rcases assemble_cases t readError s with ⟨s', haccept⟩ | hreport | hendless
    · have hrun := ((assemble_eq_ok_iff t readError s).mp haccept).2
      rw [hds, ← List.append_assoc] at hrun
      obtain ⟨s₁, hseg, hlast⟩ := emitAll_append_eq_ok_iff.mp hrun
      obtain ⟨s₂, hstep, -⟩ :=
        (emitAll_cons_eq_ok_iff (placed_of_emitAll hplaced hseg)).mp hlast
      obtain ⟨s₀, -, hpos, hsame, hstart⟩ := exists_segment_start hlomem hbefore hseg
      cases hstep with
      | segmentEnd hpending =>
        exact absurd hpending (pending?_of_leftOpen hpos (hsame ▸ hsize) hstart hend hopen)
    · exact hreport
    · exact absurd ((assemble_eq_endless_iff_hangs t readError s hlomem.le).mp hendless) hhangs
  · obtain ⟨s₀, hfirst, hpos, hsame, hstart⟩ := exists_segment_start hlomem hbefore hrun
    have hbased := based_of_emitAll (based_fresh hlomem hlt hsize) hfirst
    have hends : (∀ s₂, emit .segmentEnd s₁ ≠ .ok () s₂) ↔ s₁.labels.pending? ≠ none := by
      simp only [Ne, emit_eq_ok_iff (placed_of_emitAll hplaced hrun)]
      constructor
      · exact fun hrefused hpending => hrefused _ (.segmentEnd hpending)
      · rintro hpending s₂ hstep
        cases hstep with
        | segmentEnd hnone => exact hpending hnone
    rw [hends]
    constructor
    · exact exists_leftOpen hpos hbased.lomem_lt (hsame ▸ hsize) hstart hend
    · rintro ⟨m, hopen⟩
      exact pending?_of_leftOpen hpos (hsame ▸ hsize) hstart hend hopen

/-- A jump to a label that its segment does not define keeps the segment from ending, whatever
globals were set to the label before. -/
theorem jump_left_open_rejected :
    ∃ r s', assemble (Text.ofAscii "G0L5 JL5 Z") none { memory := .blank 1000, lomem := 401 } =
      .error (.report r) s' := by
  have hds : Directive.parseAll (Text.significant (Text.ofAscii "G0L5 JL5 Z")) =
      [] ++ ([.global 0 5, .instruction ⟨.jump, false, false⟩ false (.label 5)] ++
        .segmentEnd :: []) := by decide
  have hsize : (Memory.blank 1000).size = 1000 := Memory.size_blank (by decide)
  refine (segment_leaving_open_rejected _ none { memory := .blank 1000, lomem := 401 }
    (by rw [hsize]; decide) (by decide) hds (.inl rfl) (by decide)).1 ⟨5, by decide, ?_⟩ ?_
  · exact ⟨.instruction ⟨.jump, false, false⟩ false (.label 5), by decide, by decide⟩
  · rintro ⟨before, n, after, s₁, hsplit, -⟩
    have hlabel : Directive.label n ∈ before ++ .label n :: after := by simp
    rw [← hsplit, hds] at hlabel
    simp at hlabel

/-- A segment that sets global zero to a label and does not define the label is accepted. -/
theorem global_zero_left_open_accepted :
    (Directive.parseAll (Text.significant (Text.ofAscii "G0L5 Z")) = [.global 0 5, .segmentEnd]) ∧
      ∃ s', assemble (Text.ofAscii "G0L5 Z") none { memory := .blank 1000, lomem := 401 } =
        .ok () s' ∧ s'.lomem = 401 :=
  ⟨by decide, Action.after?_eq_some_iff.mp (by decide +kernel)⟩

end Assembler

end Intcode
