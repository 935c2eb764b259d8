import Intcode.Proofs.Assembly.Threads

/-!
# The label table and its history

A table that is used on its own receives three kinds of calls: it is reset, a
label is defined, a word is made to refer to a label. What the table and the
memory hold is determined by the calls since the last reset. A label has the
address of its first definition, and the words that refer to it hold that address
or, while there is none, form a chain from the last reference to the first.

The main statement says this of every history in which a word is made to refer
to a label only while it holds zero and is on no chain.
-/

namespace Intcode

/-- A call that changes the label table. -/
inductive LabelCall
  | reset
  | define (n : Int) (addr : Nat)
  | reference (n : Int) (patch : Nat)
  deriving DecidableEq, Repr

namespace LabelCall

open Labels (IsNumber)

/-- What a call does. -/
def serve : LabelCall → Action Assembler Unit
  | reset => Assembler.resetLabels
  | define n addr => Assembler.define n addr
  | reference n patch => Assembler.reference n patch

/-- The calls that keep to the rules: labels are defined at positive addresses, and a word that is
made to refer to a label holds zero and is on no chain. -/
def Allowed (s : Assembler) : LabelCall → Prop
  | reset => True
  | define _ addr => 0 < addr ∧ addr < 32768
  | reference _ patch => 0 < patch ∧ patch < s.memory.size ∧ s.memory.cellAt patch = 0 ∧
      ∀ n k, s.labels.lookup? n = some k → 0 < k.toInt → ¬ Labels.Reaches s.memory k patch

/-- The state after a history of calls that keep to the rules, the latest call first. A call that
fails is part of the history too. -/
inductive Served (s₀ : Assembler) : List LabelCall → Assembler → Prop
  | start : Served s₀ [] s₀
  | call {past : List LabelCall} {s : Assembler} (c : LabelCall) (h : Served s₀ past s)
      (hallowed : c.Allowed s) : Served s₀ (c :: past) (c.serve.final s)

/-- The address of a label: that of its first definition since the last reset. -/
def address? : List LabelCall → Int → Option Nat
  | [], _ => none
  | reset :: _, _ => none
  | define n addr :: past, i =>
    if i = n ∧ IsNumber n then (address? past i).or (some addr) else address? past i
  | reference _ _ :: past, i => address? past i

/-- The words that have come to refer to a label since the last reset, the latest first. -/
def references : List LabelCall → Int → List Nat
  | [], _ => []
  | reset :: _, _ => []
  | define _ _ :: past, i => references past i
  | reference n patch :: past, i =>
    if i = n then patch :: references past i else references past i

/-- The error with which a call fails after a history, if it does. -/
def refusal? (past : List LabelCall) : LabelCall → Option Report
  | reset => none
  | define n addr =>
    if ¬ IsNumber n then some (.fatal .badCode addr)
    else if (address? past n).isSome then some (.fatal .duplicateLabel n)
    else none
  | reference n patch => if IsNumber n then none else some (.fatal .badCode patch)

/-- A label waits when it has been referred to and not defined since the last reset. -/
def Waits (past : List LabelCall) (n : Int) : Prop :=
  IsNumber n ∧ references past n ≠ [] ∧ address? past n = none

instance (past : List LabelCall) (n : Int) : Decidable (Waits past n) :=
  inferInstanceAs (Decidable (_ ∧ _ ∧ _))

variable {past : List LabelCall} {n : Int}

/-- Only numbers of labels get an address. -/
theorem isNumber_of_address? {addr : Nat} (h : address? past n = some addr) : IsNumber n := by
  induction past with
  | nil => cases h
  | cons c past ih =>
    cases c with
    | reset => cases h
    | reference i patch => exact ih h
    | define i addr' =>
      unfold address? at h
      by_cases hdefined : n = i ∧ IsNumber i
      · exact hdefined.1 ▸ hdefined.2
      · rw [if_neg hdefined] at h
        exact ih h

/-- The words that refer to a label have been given for it. -/
theorem mem_of_mem_references {a : Nat} (h : a ∈ references past n) : reference n a ∈ past := by
  induction past with
  | nil => cases h
  | cons c past ih =>
    cases c with
    | reset => cases h
    | define i addr => exact List.mem_cons_of_mem _ (ih h)
    | reference i patch =>
      unfold references at h
      by_cases hin : n = i
      · rw [if_pos hin] at h
        rcases List.mem_cons.mp h with rfl | h
        · exact hin ▸ List.mem_cons_self
        · exact List.mem_cons_of_mem _ (ih h)
      · rw [if_neg hin] at h
        exact List.mem_cons_of_mem _ (ih h)

/-- A definition is refused as a second one exactly when the label has an address. -/
theorem refusal?_eq_duplicateLabel_iff (addr : Nat) :
    refusal? past (define n addr) = some (.fatal .duplicateLabel n) ↔
      IsNumber n ∧ ∃ addr', address? past n = some addr' := by
  have hdiffer : Report.fatal .badCode addr ≠ .fatal .duplicateLabel n := by simp [Report.fatal]
  rw [refusal?]
  by_cases hn : IsNumber n
  · cases address? past n <;> simp [hn]
  · simp [hn, hdiffer]

/-- The table and the memory hold what the history says. -/
structure Tracks (s₀ : Assembler) (past : List LabelCall) (s : Assembler) : Prop where
  size_eq : s.memory.size = s₀.memory.size
  bounds : ∀ n addr, address? past n = some addr → 0 < addr ∧ addr < 32768
  defined : ∀ n addr, address? past n = some addr →
    s.labels.lookup? n = some (-Cell.ofInt addr)
  chained : ∀ n, IsNumber n → address? past n = none →
    ∃ k, s.labels.lookup? n = some k ∧ Labels.Chain s.memory k (references past n)
  apart : ∀ i j a, IsNumber i → IsNumber j → a ∈ references past i → a ∈ references past j → i = j
  settled : ∀ n addr, address? past n = some addr →
    ∀ a ∈ references past n, s.memory.cellAt a = Cell.ofInt addr
  untouched : ∀ w, (∀ n, reference n w ∉ past) → s.memory.cellAt w = s₀.memory.cellAt w

end LabelCall

namespace Labels.Chain

variable {m : Memory} {k : Cell} {as : List Nat}

/-- The entry of a chain is positive exactly when there is a word on the chain. -/
theorem toInt_pos_iff (h : Chain m k as) : 0 < k.toInt ↔ as ≠ [] := by
  cases as with
  | nil =>
    rw [show k = 0 from h]
    decide
  | cons a as => simp [h.1.1]

/-- The entry of a chain is not that of a defined label. -/
theorem toInt_nonneg (h : Chain m k as) : ¬ k.toInt < 0 := by
  cases as with
  | nil =>
    rw [show k = 0 from h]
    decide
  | cons a as =>
    have hpos := h.1.1
    omega

end Labels.Chain

namespace LabelCall.Tracks

open Labels (IsNumber)

variable {s₀ s : Assembler} {past : List LabelCall} {n : Int}

/-- The entry of a defined label is negative, and what it stands for is the label's address. -/
theorem entry_of_address? (h : Tracks s₀ past s) {addr : Nat}
    (haddr : address? past n = some addr) :
    (-Cell.ofInt addr).toInt < 0 ∧ Labels.pointer (-Cell.ofInt addr) = Cell.ofInt addr := by
  obtain ⟨hpos, hlt⟩ := h.bounds n addr haddr
  have hneg : (-Cell.ofInt addr).toInt < 0 := by
    rw [Cell.toInt_neg_ofInt (by omega) (by omega)]
    omega
  exact ⟨hneg, (if_pos hneg).trans (BitVec.neg_neg)⟩

/-- No word of an allowed reference refers to a label already. -/
theorem not_mem_references (h : Tracks s₀ past s) {i : Int} {a : Nat}
    (hallowed : (reference i a).Allowed s) (hn : IsNumber n) : a ∉ references past n := by
  obtain ⟨-, -, hzero, hfree⟩ := hallowed
  intro hmem
  cases haddr : address? past n with
  | some addr =>
    obtain ⟨hpos, hlt⟩ := h.bounds n addr haddr
    have hvalue : (Cell.ofInt (addr : Int)).toInt = addr := Cell.toInt_ofInt (by omega) (by omega)
    rw [← h.settled n addr haddr a hmem, hzero] at hvalue
    have hnone : (0 : Cell).toInt = 0 := rfl
    omega
  | none =>
    obtain ⟨k, hentry, hchain⟩ := h.chained n hn haddr
    exact hfree n k hentry (hchain.toInt_pos_iff.mpr (List.ne_nil_of_mem hmem))
      ((hchain.reaches_iff a).mpr hmem)

/-- A new table tracks the empty history. -/
theorem start (hblank : s₀.labels = .blank) : Tracks s₀ [] s₀ where
  size_eq := rfl
  bounds _ _ h := by cases h
  defined _ _ h := by cases h
  chained n hn _ := ⟨0, by rw [hblank, Labels.lookup?_blank, if_pos hn], rfl⟩
  apart _ _ _ _ _ h := by cases h
  settled _ _ h := by cases h
  untouched _ _ := rfl

/-- A reset starts a new history, and the memory stays as it is. -/
theorem reset (h : Tracks s₀ past s) : Tracks s₀ (.reset :: past) { s with labels := .blank } where
  size_eq := h.size_eq
  bounds _ _ h := by cases h
  defined _ _ h := by cases h
  chained n hn _ := ⟨0, by rw [Labels.lookup?_blank, if_pos hn], rfl⟩
  apart _ _ _ _ _ h := by cases h
  settled _ _ h := by cases h
  untouched w hw := h.untouched w fun n hmem => hw n (List.mem_cons_of_mem _ hmem)

/-- A call that changes neither an address nor the references of a label leaves everything as it
is. -/
theorem unchanged (h : Tracks s₀ past s) {c : LabelCall}
    (haddress : ∀ i, address? (c :: past) i = address? past i)
    (hreferences : ∀ i, IsNumber i → references (c :: past) i = references past i) :
    Tracks s₀ (c :: past) s where
  size_eq := h.size_eq
  bounds i addr haddr := h.bounds i addr ((haddress i).symm.trans haddr)
  defined i addr haddr := h.defined i addr ((haddress i).symm.trans haddr)
  chained i hi haddr := by
    rw [hreferences i hi]
    exact h.chained i hi ((haddress i).symm.trans haddr)
  apart i j a hi hj := by
    rw [hreferences i hi, hreferences j hj]
    exact h.apart i j a hi hj
  settled i addr haddr := by
    rw [hreferences i (isNumber_of_address? haddr)]
    exact h.settled i addr ((haddress i).symm.trans haddr)
  untouched w hw := h.untouched w fun i hmem => hw i (List.mem_cons_of_mem _ hmem)

/-- A definition that fails is no part of what the table holds. -/
theorem define_of_failed (h : Tracks s₀ past s) {addr : Nat}
    (hfails : IsNumber n → (address? past n).isSome) : Tracks s₀ (.define n addr :: past) s := by
  refine h.unchanged (fun i => ?_) fun _ _ => rfl
  rw [address?]
  by_cases hin : i = n ∧ IsNumber n
  · obtain ⟨old, hold⟩ := Option.isSome_iff_exists.mp (hfails hin.2)
    rw [if_pos hin, hin.1, hold]
    rfl
  · rw [if_neg hin]

/-- A reference that fails is no part of what the table holds. -/
theorem reference_of_failed (h : Tracks s₀ past s) {a : Nat} (hn : ¬ IsNumber n) :
    Tracks s₀ (.reference n a :: past) s := by
  refine h.unchanged (fun _ => rfl) fun i hi => if_neg ?_
  rintro rfl
  exact hn hi

/-- The definition of a label fills in the words that refer to it. -/
theorem define (h : Tracks s₀ past s) (hn : IsNumber n) (hnone : address? past n = none)
    {addr : Nat} (hallowed : (LabelCall.define n addr).Allowed s) {memory : Memory}
    (hsize : memory.size = s.memory.size)
    (hfilled : ∀ w ∈ references past n, memory.cellAt w = Cell.ofInt addr)
    (hkept : ∀ w ∉ references past n, memory.cellAt w = s.memory.cellAt w) :
    Tracks s₀ (.define n addr :: past)
      { s with memory, labels := s.labels.setEntry n (-Cell.ofInt addr) } := by
  have haddress (i : Int) : address? (.define n addr :: past) i =
      if i = n then some addr else address? past i := by
    rw [address?]
    by_cases hin : i = n
    · rw [if_pos ⟨hin, hn⟩, if_pos hin, hin, hnone]
      rfl
    · rw [if_neg fun hand => hin hand.1, if_neg hin]
  have hreferences : references (.define n addr :: past) = references past := rfl
  -- a word that refers to another label is not among those that are filled in
  have hother {i : Int} (hi : IsNumber i) (hin : i ≠ n) :
      ∀ a ∈ references past i, memory.cellAt a = s.memory.cellAt a := fun a ha =>
    hkept a fun ha' => hin (h.apart i n a hi hn ha ha')
  constructor
  case size_eq => exact hsize.trans h.size_eq
  case untouched =>
    intro w hw
    have hpast : ∀ i, .reference i w ∉ past := fun i hmem => hw i (List.mem_cons_of_mem _ hmem)
    exact (hkept w fun hmem => hpast n (mem_of_mem_references hmem)).trans (h.untouched w hpast)
  all_goals simp only [haddress, hreferences, Labels.lookup?_setEntry hn]
  case bounds =>
    intro i addr' haddr
    split at haddr
    · exact Option.some.inj haddr ▸ hallowed
    · exact h.bounds i addr' haddr
  case defined =>
    intro i addr' haddr
    by_cases hin : i = n
    · rw [if_pos hin] at haddr ⊢
      rw [Option.some.inj haddr]
    · rw [if_neg hin] at haddr ⊢
      exact h.defined i addr' haddr
  case chained =>
    intro i hi haddr
    by_cases hin : i = n
    · rw [if_pos hin] at haddr
      cases haddr
    · rw [if_neg hin] at haddr
      obtain ⟨k, hentry, hchain⟩ := h.chained i hi haddr
      exact ⟨k, by rwa [if_neg hin], hchain.congr hsize (hother hi hin)⟩
  case apart => exact h.apart
  case settled =>
    intro i addr' haddr a ha
    by_cases hin : i = n
    · rw [if_pos hin] at haddr
      rw [← Option.some.inj haddr]
      exact hfilled a (hin ▸ ha)
    · rw [if_neg hin] at haddr
      rw [hother (isNumber_of_address? haddr) hin a ha]
      exact h.settled i addr' haddr a ha

/-- A word that comes to refer to a label receives its address or joins its chain. -/
theorem reference (h : Tracks s₀ past s) (hsize : s₀.memory.size ≤ 32768) {k : Cell} {a : Nat}
    (hallowed : (LabelCall.reference n a).Allowed s) (hentry : s.labels.lookup? n = some k) :
    Tracks s₀ (.reference n a :: past) (s.refer n k a) := by
  have hn : IsNumber n := Labels.isNumber_of_lookup? hentry
  have hfresh {i : Int} (hi : IsNumber i) : a ∉ references past i :=
    h.not_mem_references hallowed hi
  obtain ⟨hpos, hlt, -, -⟩ := hallowed
  have haddress : address? (.reference n a :: past) = address? past := rfl
  have hreferences (i : Int) : references (.reference n a :: past) i =
      if i = n then a :: references past i else references past i := rfl
  have hself : (s.refer n k a).memory.cellAt a = Labels.pointer k :=
    Memory.cellAt_setCell_self hlt _
  have hother {b : Nat} (hb : b ≠ a) : (s.refer n k a).memory.cellAt b = s.memory.cellAt b :=
    Memory.cellAt_setCell_of_ne (fun hab => hb hab.symm) _ _
  have hlookup (i : Int) := Labels.lookup?_note hentry i a
  constructor
  case size_eq => exact (Memory.size_setCell ..).trans h.size_eq
  case bounds => exact h.bounds
  case defined =>
    intro i addr haddr
    rw [haddress] at haddr
    have hold := h.defined i addr haddr
    refine (hlookup i).trans ?_
    by_cases hin : i = n
    · rw [hin, hentry] at hold
      rw [if_pos hin, Option.some.inj hold, if_pos (h.entry_of_address? haddr).1]
    · rw [if_neg hin]
      exact hold
  case chained =>
    intro i hi haddr
    rw [haddress] at haddr
    obtain ⟨k', hentry', hchain⟩ := h.chained i hi haddr
    have hkept := hchain.setCell (v := Labels.pointer k) (hfresh hi)
    by_cases hin : i = n
    · subst hin
      obtain rfl : k = k' := Option.some.inj (hentry.symm.trans hentry')
      obtain ⟨hlink, hnat⟩ := Labels.isLink_ofInt (by rw [h.size_eq]; exact hsize)
        (Nat.pos_iff_ne_zero.mp hpos) hlt
      refine ⟨Cell.ofInt a, (hlookup i).trans ?_, ?_⟩
      · rw [if_pos rfl, if_neg hchain.toInt_nonneg]
      · rw [hreferences, if_pos rfl]
        refine ⟨Labels.isLink_setCell.mpr hlink, hnat, ?_⟩
        rw [hself, Labels.pointer, if_neg hchain.toInt_nonneg]
        exact hchain.setCell (hfresh hi)
    · refine ⟨k', (hlookup i).trans ?_, ?_⟩
      · rwa [if_neg hin]
      · rw [hreferences, if_neg hin]
        exact hkept
  case apart =>
    intro i j b hi hj hbi hbj
    rw [hreferences] at hbi hbj
    by_cases hin : i = n
    · by_cases hjn : j = n
      · exact hin.trans hjn.symm
      · rw [if_pos hin] at hbi
        rw [if_neg hjn] at hbj
        rcases List.mem_cons.mp hbi with rfl | hbi
        · exact absurd hbj (hfresh hj)
        · exact h.apart i j b hi hj hbi hbj
    · rw [if_neg hin] at hbi
      by_cases hjn : j = n
      · rw [if_pos hjn] at hbj
        rcases List.mem_cons.mp hbj with rfl | hbj
        · exact absurd hbi (hfresh hi)
        · exact h.apart i j b hi hj hbi hbj
      · rw [if_neg hjn] at hbj
        exact h.apart i j b hi hj hbi hbj
  case settled =>
    intro i addr haddr b hb
    rw [haddress] at haddr
    have hold {b : Nat} (hb : b ∈ references past i) :
        (s.refer n k a).memory.cellAt b = Cell.ofInt addr := by
      have hne : b ≠ a := fun hba => hfresh (isNumber_of_address? haddr) (hba ▸ hb)
      rw [hother hne]
      exact h.settled i addr haddr b hb
    rw [hreferences] at hb
    by_cases hin : i = n
    · rw [if_pos hin] at hb
      rcases List.mem_cons.mp hb with rfl | hb
      · have hdefined := h.defined i addr haddr
        rw [hin, hentry] at hdefined
        rw [hself, Option.some.inj hdefined]
        exact (h.entry_of_address? haddr).2
      · exact hold hb
    · rw [if_neg hin] at hb
      exact hold hb
  case untouched =>
    intro w hw
    have hne : w ≠ a := fun hwa => hw n (hwa ▸ List.mem_cons_self)
    rw [hother hne]
    exact h.untouched w fun i hmem => hw i (List.mem_cons_of_mem _ hmem)

/-- A call succeeds, and the history goes on with it, or it fails as the history says and leaves
everything as it is. -/
theorem serve_cases (h : Tracks s₀ past s) (hsize : s₀.memory.size ≤ 32768) {c : LabelCall}
    (hallowed : c.Allowed s) :
    (∃ s', c.serve s = .ok () s' ∧ c.refusal? past = none ∧ Tracks s₀ (c :: past) s') ∨
      ∃ e, c.serve s = .error (.report e) s ∧ c.refusal? past = some e ∧
        Tracks s₀ (c :: past) s := by
  cases c with
  | reset => exact .inl ⟨_, rfl, rfl, h.reset⟩
  | define n addr =>
    have hserve : (LabelCall.define n addr).serve s = _ := Assembler.define_eq n addr
    by_cases hn : IsNumber n
    · cases haddr : address? past n with
      | some old =>
        have hfails : (address? past n).isSome := by rw [haddr]; rfl
        refine .inr ⟨.fatal .duplicateLabel n, ?_, ?_, h.define_of_failed fun _ => hfails⟩
        · rw [hserve, h.defined n old haddr]
          exact if_pos (h.entry_of_address? haddr).1
        · rw [refusal?, if_neg (not_not_intro hn), if_pos hfails]
      | none =>
        obtain ⟨k, hentry, hchain⟩ := h.chained n hn haddr
        obtain ⟨memory, hpatch, hsame, hfilled, hkept⟩ := hchain.patchChain_eq_ok (Cell.ofInt addr)
        refine .inl ⟨_, ?_, ?_, h.define hn haddr hallowed hsame hfilled hkept⟩
        · rw [hserve, hentry]
          dsimp only
          rw [if_neg hchain.toInt_nonneg, hpatch]
        · rw [refusal?, if_neg (not_not_intro hn), haddr]
          rfl
    · have hnone : s.labels.lookup? n = none := by
        cases hentry : s.labels.lookup? n with
        | none => rfl
        | some k => exact absurd (Labels.isNumber_of_lookup? hentry) hn
      refine .inr ⟨.fatal .badCode addr, ?_, ?_, h.define_of_failed fun hn' => absurd hn' hn⟩
      · rw [hserve, hnone]
      · rw [refusal?, if_pos hn]
  | reference n a =>
    have hserve : (LabelCall.reference n a).serve s = _ :=
      Assembler.reference_eq hallowed.2.1 hallowed.2.2.1 n
    cases hentry : s.labels.lookup? n with
    | some k =>
      refine .inl ⟨_, ?_, if_pos (Labels.isNumber_of_lookup? hentry),
        h.reference hsize hallowed hentry⟩
      rw [hserve, hentry]
    | none =>
      have hn : ¬ IsNumber n := fun hn => by
        obtain ⟨k, hk⟩ := (Labels.exists_lookup?_iff s.labels n).mpr hn
        rw [hentry] at hk
        cases hk
      refine .inr ⟨.fatal .badCode a, ?_, if_neg hn, h.reference_of_failed hn⟩
      rw [hserve, hentry]

/-- After every history the table and the memory hold what the history says. -/
theorem of_served (hblank : s₀.labels = .blank) (hsize : s₀.memory.size ≤ 32768)
    (h : Served s₀ past s) : Tracks s₀ past s := by
  induction h with
  | start => exact start hblank
  | call c _ hallowed ih =>
    rcases ih.serve_cases hsize hallowed with ⟨s', hserve, -, htracks⟩ | ⟨e, hserve, -, htracks⟩
    · rw [Action.final, hserve]
      exact htracks
    · rw [Action.final, hserve]
      exact htracks

/-- A label waits exactly when its entry is positive. -/
theorem waits_iff (h : Tracks s₀ past s) (n : Int) :
    Waits past n ↔ ∃ k, s.labels.lookup? n = some k ∧ 0 < k.toInt := by
  constructor
  · rintro ⟨hn, hsome, hnone⟩
    obtain ⟨k, hentry, hchain⟩ := h.chained n hn hnone
    exact ⟨k, hentry, hchain.toInt_pos_iff.mpr hsome⟩
  · rintro ⟨k, hentry, hpos⟩
    have hn := Labels.isNumber_of_lookup? hentry
    cases haddr : address? past n with
    | some addr =>
      have hneg := (h.entry_of_address? haddr).1
      rw [h.defined n addr haddr, Option.some.injEq] at hentry
      rw [hentry] at hneg
      omega
    | none =>
      obtain ⟨k', hentry', hchain⟩ := h.chained n hn haddr
      rw [hentry, Option.some.injEq] at hentry'
      exact ⟨hn, hchain.toInt_pos_iff.mp (hentry' ▸ hpos), haddr⟩

/-- A word that has not been given for a label and has held zero all along may be made to refer to
one. -/
theorem allowed_of_unused (h : Tracks s₀ past s) {a : Nat} (hpos : 0 < a)
    (hlt : a < s₀.memory.size) (hzero : s₀.memory.cellAt a = 0)
    (hunused : ∀ i, .reference i a ∉ past) : (LabelCall.reference n a).Allowed s := by
  refine ⟨hpos, h.size_eq ▸ hlt, (h.untouched a hunused).trans hzero,
    fun i k hentry hk hreach => ?_⟩
  obtain ⟨hi, -, hnone⟩ := (h.waits_iff i).mpr ⟨k, hentry, hk⟩
  obtain ⟨k', hentry', hchain⟩ := h.chained i hi hnone
  obtain rfl : k = k' := Option.some.inj (hentry.symm.trans hentry')
  exact hunused i (mem_of_mem_references ((hchain.reaches_iff a).mp hreach))

/-- The pending label is the least one that waits. -/
theorem pending?_eq_some_iff (h : Tracks s₀ past s) (n : Nat) :
    s.labels.pending? = some n ↔ Waits past n ∧ ∀ i < n, ¬ Waits past i := by
  rw [Labels.pending?_eq_some_iff, h.waits_iff]
  simp only [h.waits_iff, not_exists, not_and, Int.not_lt]

/-- No label is pending exactly when none waits. -/
theorem pending?_eq_none_iff (h : Tracks s₀ past s) :
    s.labels.pending? = none ↔ ∀ n, ¬ Waits past n := by
  rw [Labels.pending?_eq_none_iff]
  simp only [h.waits_iff, not_exists, not_and, Int.not_lt]
  constructor
  · intro hnone n k hentry
    obtain ⟨i, rfl⟩ := Labels.exists_toInt_eq hentry
    exact hnone i k hentry
  · exact fun hnone n k hentry => hnone n.toInt k hentry

end LabelCall.Tracks

namespace LabelCall

open Labels (IsNumber)

/-- The label table after any history of calls: every call ends, and fails exactly as the history
says, leaving everything as it is; the words that refer to a defined label hold its address, and no
other word has changed; the pending label is the least one that waits. -/
theorem table_follows_history {s₀ s : Assembler} {past : List LabelCall}
    (hsize : s₀.memory.size ≤ 32768) (hblank : s₀.labels = .blank) (h : Served s₀ past s) :
    (∀ c : LabelCall, c.Allowed s →
      (∃ s', c.serve s = .ok () s' ∧ c.refusal? past = none) ∨
        ∃ e, c.serve s = .error (.report e) s ∧ c.refusal? past = some e) ∧
    (∀ n addr, (define n addr).Allowed s →
      ((define n addr).serve s = .error (.report (.fatal .duplicateLabel n)) s ↔
        IsNumber n ∧ ∃ addr', address? past n = some addr')) ∧
    (∀ n addr, address? past n = some addr →
      ∀ a ∈ references past n, s.memory.cellAt a = Cell.ofInt addr) ∧
    s.memory.size = s₀.memory.size ∧
    (∀ w, (∀ n, reference n w ∉ past) → s.memory.cellAt w = s₀.memory.cellAt w) ∧
    (∀ n : Nat, s.labels.pending? = some n ↔ Waits past n ∧ ∀ i < n, ¬ Waits past i) ∧
    (s.labels.pending? = none ↔ ∀ n, ¬ Waits past n) ∧
    (∀ n : Nat, s.labels.pending? = some n →
      Assembler.checkResolved s = .error (.report (.fatal .unsetLabel n)) s) ∧
    (s.labels.pending? = none → Assembler.checkResolved s = .ok () s) := by
  have htracks := Tracks.of_served hblank hsize h
  refine ⟨fun c hallowed => ?_, fun n addr hallowed => ?_, htracks.settled, htracks.size_eq,
    htracks.untouched, htracks.pending?_eq_some_iff, htracks.pending?_eq_none_iff,
    fun n hpending => ?_, fun hpending => ?_⟩
  · rcases htracks.serve_cases hsize hallowed with ⟨s', hserve, hnone, -⟩ | ⟨e, hserve, hsome, -⟩
    · exact .inl ⟨s', hserve, hnone⟩
    · exact .inr ⟨e, hserve, hsome⟩
  · rcases htracks.serve_cases hsize hallowed with ⟨s', hserve, hnone, -⟩ | ⟨e, hserve, hsome, -⟩
    · rw [← refusal?_eq_duplicateLabel_iff addr, hserve, hnone]
      simp only [reduceCtorEq]
    · rw [← refusal?_eq_duplicateLabel_iff addr, hserve, hsome]
      simp only [EStateM.Result.error.injEq, Failure.report.injEq, and_true, Option.some.injEq]
  · simp only [Assembler.checkResolved, Action.bind_apply, Action.get_apply, hpending]
    rfl
  · simp only [Assembler.checkResolved, Action.bind_apply, Action.get_apply, hpending]
    rfl

/-- A new table for a memory of eight words. -/
def sampleTable : Assembler where
  memory := .blank 8
  lomem := 1

/-- A history in which, since a reset, three words have come to refer to label 5, one of them after
its definition, and one to label 2; label 5 is defined twice, and a number beyond the table is
used. -/
def sampleHistory : List LabelCall :=
  [define 5 41, reference 700 2, reference 5 1, define 5 40, reference 5 6, reference 2 4,
    reference 5 3, reset, reference 0 7]

/-- After the sample history three words hold the address of label 5, label 2 is pending, and
label 5 cannot be defined again. -/
theorem table_follows_history_sample :
    ∃ s, Served sampleTable sampleHistory s ∧
      (∀ a ∈ [1, 3, 6], s.memory.cellAt a = 40) ∧ s.labels.pending? = some 2 ∧
      (define 5 9).serve s = .error (.report (.fatal .duplicateLabel 5)) s := by
  have hsize : sampleTable.memory.size = 8 := Memory.size_blank (by decide)
  have hrefer {past : List LabelCall} {s : Assembler} (h : Served sampleTable past s) (n : Int)
      {a : Nat} (ha : 0 < a ∧ a < 8) (hunused : ∀ i, reference i a ∉ past) :
      Served sampleTable (reference n a :: past) ((reference n a).serve.final s) :=
    h.call _ ((Tracks.of_served rfl (by rw [hsize]; decide) h).allowed_of_unused ha.1
      (hsize ▸ ha.2) (Memory.cellAt_blank 8 a) hunused)
  have hreset := (hrefer .start 0 (a := 7) (by decide) (by simp)).call reset trivial
  have hchained := hrefer (hrefer (hrefer hreset 5 (a := 3) (by decide) (by simp)) 2 (a := 4)
    (by decide) (by simp)) 5 (a := 6) (by decide) (by simp)
  have hdefined := hchained.call (define 5 40) ⟨by decide, by decide⟩
  have hlast := (hrefer (hrefer hdefined 5 (a := 1) (by decide) (by simp)) 700 (a := 2)
    (by decide) (by simp)).call (define 5 41) ⟨by decide, by decide⟩
  obtain ⟨-, hduplicate, hsettled, -, -, hpending, -⟩ :=
    table_follows_history (by rw [hsize]; decide) rfl hlast
  refine ⟨_, hlast, ?_, (hpending 2).mpr ?_, (hduplicate 5 9 ⟨by decide, by decide⟩).mpr ?_⟩
  · exact fun a ha => hsettled 5 40 (by decide) a (by revert a; decide)
  · exact ⟨by decide, by decide⟩
  · exact ⟨by decide, 40, by decide⟩

end LabelCall

end Intcode
