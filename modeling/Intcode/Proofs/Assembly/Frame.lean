import Intcode.Proofs.Assembly.Orderly

/-!
# What assembling leaves alone

A directive stores into the words that it appends and into the global that it
names. The definition of a label stores into every word that its walk visits, and
a walk follows whatever links it finds. So a word outside the code that is no
global, or a word that a directive without label has stored, keeps its value
exactly when the last walk that visits it happens to store the same. In programs
that set each global once no walk visits such a word.
-/

namespace Intcode

/-- A part of a word: all of it or one of its bytes. -/
inductive Part where
  | word
  | low
  | high
deriving DecidableEq, Repr

/-- The part of a word as a cell. -/
def Part.view : Part → Cell → Cell
  | word, c => c
  | low, c => .ofByte c.low
  | high, c => .ofByte c.high

namespace Assembler

/-- The definition of a label would store into a word. -/
def Patches (w : Nat) (s : Assembler) (n : Cell) : Prop :=
  ∃ k, s.labels.lookup? n.toInt = some k ∧
    Labels.Visits s.memory (Cell.ofInt s.lomem) k w

/-- The last label definition among directives that stores into a word stores `v`. -/
def LastPatch (s : Assembler) (ds : List Directive) (w : Nat) (v : Cell) : Prop :=
  ∃ before n after s₁ s₂, ds = before ++ .label n :: after ∧ emitAll before s = .ok () s₁ ∧
    emit (.label n) s₁ = .ok () s₂ ∧ Patches w s₁ n ∧ ¬ SomeDefinition (Patches w) s₂ after ∧
      v = Cell.ofInt s₁.lomem

/-- The words that a directive without label appends, with their values. -/
def storedWords (s : Assembler) : Directive → List (Nat × Cell)
  | .instruction opcode _ (.number v) =>
    if v.toNat < 256 then [(s.lomem.toNat, opcode.shortWord v)]
    else [(s.lomem.toNat, opcode.longWord), (s.lomem.toNat + 1, v)]
  | .word (.number v) => [(s.lomem.toNat, v)]
  | _ => []

/-- `Means s ds s' s₁ after w part v` says that directives `ds`, carried out from `s` to `s'`,
mean a part of word `w` to be `v` from the state `s₁` on, with the directives `after` to come.
They mean a word outside their code to keep its value, and a word or byte of the code to hold
what a directive without label has stored. -/
inductive Means (s : Assembler) (ds : List Directive) (s' : Assembler) :
    Assembler → List Directive → Nat → Part → Cell → Prop
  | outside {w : Nat} (hw : (w : Int) < s.lomem ∨ s'.lomem ≤ w) :
      Means s ds s' s.fresh ds w .word (s.memory.cellAt w)
  | number {before d after s₀ s₁ w v} (hds : ds = before ++ d :: after)
      (hbefore : emitAll before s.fresh = .ok () s₀) (hemit : emit d s₀ = .ok () s₁)
      (hstored : (w, v) ∈ s₀.storedWords d) : Means s ds s' s₁ after w .word v
  | firstByte {before v after s₀ s₁} (hds : ds = before ++ .byte v :: after)
      (hbefore : emitAll before s.fresh = .ok () s₀) (hemit : emit (.byte v) s₀ = .ok () s₁)
      (hpacking : s₀.packing = false) :
      Means s ds s' s₁ after s₀.lomem.toNat .low (.ofByte v.low)
  | secondByte {before v after s₀ s₁} (hds : ds = before ++ .byte v :: after)
      (hbefore : emitAll before s.fresh = .ok () s₀) (hemit : emit (.byte v) s₀ = .ok () s₁)
      (hpacking : s₀.packing = true) :
      Means s ds s' s₁ after (s₀.lomem - 1).toNat .high (.ofByte v.low)

section Steps

variable {s s' : Assembler} {d : Directive} {ds : List Directive} {w : Nat} {part : Part}

/-- A part of a word is safe from directives that append: the word lies before the code that they
append or after it, and it does not wait for the byte that they pack. -/
structure Apart (w : Nat) (part : Part) (s s' : Assembler) : Prop where
  outside : (w : Int) < s.lomem ∨ s'.lomem ≤ w
  packed : s.packing = true → (w : Int) + 1 = s.lomem → part = .low

/-- The walk of a label definition stores the label's address into the words that it visits. -/
theorem Step.cellAt_of_patches {n : Cell} (h : Step s (.label n) s') (hpatch : Patches w s n) :
    s'.memory.cellAt w = Cell.ofInt s.lomem := by
  obtain ⟨k, hentry, hvisits⟩ := hpatch
  cases h with
  | define hentry' _ hwalk =>
    rw [hentry] at hentry'
    cases hentry'
    exact ((Labels.cellAt_patchChain hwalk).2 w).1 hvisits

/-- A directive leaves a part of a word alone unless it sets the word as a global or its walk
visits the word. -/
theorem Step.view_cellAt (hs : s.Placed) (h : Step s d s') (hapart : Apart w part s s')
    (htarget : w ∉ d.target?) (hpatch : ∀ n, d = .label n → ¬ Patches w s n) :
    part.view (s'.memory.cellAt w) = part.view (s.memory.cellAt w) := by
  have hnonneg := hs.nonneg
  obtain ⟨houtside, hpacked⟩ := hapart
  cases h with
  | @define n k memory hentry _ hwalk =>
    rw [defineHere, ((Labels.cellAt_patchChain hwalk).2 w).2 fun hvisits =>
      hpatch n rfl ⟨k, hentry, hvisits⟩]
  | secondByte hpacking =>
    have hlomem := hs.packed hpacking
    simp only [packHigh]
    by_cases hw : (w : Int) + 1 = s.lomem
    · obtain rfl : (s.lomem - 1).toNat = w := by omega
      rw [hpacked hpacking hw, Memory.cellAt_setCell_self (by omega)]
      simp only [Part.view, Cell.low_ofBytes]
    · rw [Memory.cellAt_setCell_of_ne (by omega)]
  | @global n l k _ _ =>
    have hne : n.toNat ≠ w := fun hnw => htarget (hnw ▸ rfl)
    rw [refer, Memory.cellAt_setCell_of_ne hne]
  | segmentEnd _ => rfl
  | _ =>
    simp only [push, refer] at houtside ⊢
    repeat rw [Memory.cellAt_setCell_of_ne (by omega)]

/-- A directive leaves a word outside what is appended safe. -/
theorem Apart.step {s₁ : Assembler} (h : Apart w part s s') (hstep : Step s d s₁)
    (hle : s₁.lomem ≤ s'.lomem) : Apart w part s₁ s' ∧ Apart w part s s₁ := by
  have hle' := hstep.lomem_le
  obtain ⟨houtside, hpacked⟩ := h
  refine ⟨⟨by omega, ?_⟩, ⟨by omega, hpacked⟩⟩
  cases hstep with
  | firstByte _ _ =>
    simp only [push] at hle ⊢
    intro _ hw
    omega
  | global _ _ => exact hpacked
  | _ => simp [defineHere, push, refer, packHigh, fresh]

end Steps

section Runs

variable {s s' : Assembler} {ds : List Directive} {w : Nat} {part : Part}

/-- A run leaves a part of a word alone if it neither sets the word as a global nor visits it. -/
theorem view_cellAt_of_emitAll (hs : s.Placed) (hrun : emitAll ds s = .ok () s')
    (hapart : Apart w part s s') (htarget : w ∉ Directive.targets ds)
    (hpatch : ¬ SomeDefinition (Patches w) s ds) :
    part.view (s'.memory.cellAt w) = part.view (s.memory.cellAt w) := by
  induction ds generalizing s with
  | nil =>
    cases hrun
    rfl
  | cons d ds ih =>
    obtain ⟨s₁, hfirst, hlast⟩ := (emitAll_cons_eq_ok_iff hs).mp hrun
    have hplaced := hfirst.placed hs
    obtain ⟨hapart₁, hapart₀⟩ := hapart.step hfirst (lomem_le_of_emitAll hplaced hlast)
    rw [someDefinition_cons hs, not_or] at hpatch
    rw [Directive.targets_cons, List.mem_append, not_or, Option.mem_toList] at htarget
    calc part.view (s'.memory.cellAt w)
        = part.view (s₁.memory.cellAt w) :=
          ih hplaced hlast hapart₁ htarget.2 fun h => hpatch.2 ⟨s₁, hfirst, h⟩
      _ = part.view (s.memory.cellAt w) :=
          hfirst.view_cellAt hs hapart₀ htarget.1 fun n hn h => hpatch.1 ⟨n, hn, h⟩

/-- If label definitions of a run store into a word, one of them is the last to do so. -/
theorem exists_lastPatch (hs : s.Placed) (hrun : emitAll ds s = .ok () s')
    (hpatch : SomeDefinition (Patches w) s ds) : ∃ v, LastPatch s ds w v := by
  induction ds generalizing s with
  | nil =>
    obtain ⟨before, n, after, s₁, hds, -⟩ := hpatch
    simp at hds
  | cons d ds ih =>
    obtain ⟨s₁, hfirst, hlast⟩ := (emitAll_cons_eq_ok_iff hs).mp hrun
    by_cases hlater : SomeDefinition (Patches w) s₁ ds
    · obtain ⟨v, before, n, after, s₂, s₃, rfl, hbefore, hrest⟩ :=
        ih (hfirst.placed hs) hlast hlater
      exact ⟨v, d :: before, n, after, s₂, s₃, rfl,
        (emitAll_cons_eq_ok_iff hs).mpr ⟨s₁, hfirst, hbefore⟩, hrest⟩
    · rcases (someDefinition_cons hs).mp hpatch with ⟨n, rfl, hhere⟩ | ⟨s₂, hstep, hlater'⟩
      · exact ⟨_, [], n, ds, s, s₁, rfl, rfl, (emit_eq_ok_iff hs).mpr hfirst, hhere, hlater, rfl⟩
      · exact absurd (hstep.unique hs hfirst ▸ hlater') hlater

/-- After a run a part of a word is as the last label definition that stores into the word has
left it. -/
theorem view_cellAt_of_lastPatch (hs : s.Placed) (hrun : emitAll ds s = .ok () s')
    (hapart : Apart w part s s') (htarget : w ∉ Directive.targets ds) {v : Cell}
    (hlast : LastPatch s ds w v) : part.view (s'.memory.cellAt w) = part.view v := by
  obtain ⟨before, n, after, s₁, s₂, rfl, hbefore, hemit, hhere, hlater, rfl⟩ := hlast
  have hplaced₁ := placed_of_emitAll hs hbefore
  have hstep := (emit_eq_ok_iff hplaced₁).mp hemit
  have hplaced₂ := hstep.placed hplaced₁
  have hafter := (emitAll_split_eq_ok_iff hs hbefore hstep).mp hrun
  have hapart₂ : Apart w part s₂ s' := by
    have hle₁ := lomem_le_of_emitAll hs hbefore
    have hle₂ := hstep.lomem_le
    have houtside := hapart.outside
    refine ⟨by omega, ?_⟩
    cases hstep
    simp [defineHere]
  have htarget₂ : w ∉ Directive.targets after := by
    rw [Directive.targets_append, Directive.targets_cons] at htarget
    exact fun h => htarget (List.mem_append_right _ (List.mem_append_right _ h))
  rw [view_cellAt_of_emitAll hplaced₂ hafter hapart₂ htarget₂ hlater,
    hstep.cellAt_of_patches hhere]

/-- A part of a word keeps its value in a run exactly when the last label definition that stores
into the word, if there is one, stores the same. -/
theorem view_cellAt_eq_iff (hs : s.Placed) (hrun : emitAll ds s = .ok () s')
    (hapart : Apart w part s s') (htarget : w ∉ Directive.targets ds) :
    part.view (s'.memory.cellAt w) = part.view (s.memory.cellAt w) ↔
      ∀ v, LastPatch s ds w v → part.view v = part.view (s.memory.cellAt w) := by
  constructor
  · intro hkept v hlast
    rw [← view_cellAt_of_lastPatch hs hrun hapart htarget hlast, hkept]
  · intro hsame
    by_cases hpatch : SomeDefinition (Patches w) s ds
    · obtain ⟨v, hlast⟩ := exists_lastPatch hs hrun hpatch
      rw [view_cellAt_of_lastPatch hs hrun hapart htarget hlast, hsame v hlast]
    · exact view_cellAt_of_emitAll hs hrun hapart htarget hpatch

end Runs

section Meanings

variable {s s' s₀ s₁ : Assembler} {d : Directive} {ds after : List Directive} {w : Nat}
  {part : Part} {v : Cell}

/-- An appended word is behind the code. -/
theorem cellAt_push (hs : s.Placed) (hroom : s.HasRoom) (u : Cell) :
    (s.push u).memory.cellAt s.lomem.toNat = u := by
  have hnonneg := hs.nonneg
  have hlt := hroom.lt_size
  exact Memory.cellAt_setCell_self (by omega) u

/-- A directive without label has stored its words behind the code. -/
theorem Step.storedWords (hs : s.Placed) (h : Step s d s') (hw : (w, v) ∈ s.storedWords d) :
    s'.memory.cellAt w = v ∧ s.lomem ≤ w ∧ (w : Int) < s'.lomem ∧ s'.packing = false ∧
      d.reference? = none ∧ d.target? = none := by
  have hnonneg := hs.nonneg
  cases h with
  | short hshort hroom =>
    simp only [Assembler.storedWords, if_pos hshort, List.mem_singleton, Prod.mk.injEq] at hw
    obtain ⟨rfl, rfl⟩ := hw
    refine ⟨cellAt_push hs hroom _, by omega, ?_, rfl, rfl, rfl⟩
    simp only [push]
    omega
  | @long opcode marked u hlong hroom hroom' =>
    have hplaced : (s.push opcode.longWord).Placed := (Step.word hroom).placed hs
    have hnext : (s.push opcode.longWord).lomem.toNat = s.lomem.toNat + 1 := by
      simp only [push]
      omega
    simp only [Assembler.storedWords, if_neg hlong, List.mem_cons, List.not_mem_nil, or_false,
      Prod.mk.injEq] at hw
    refine ⟨?_, by omega, by simp only [push]; omega, rfl, rfl, rfl⟩
    rcases hw with ⟨rfl, rfl⟩ | ⟨rfl, rfl⟩
    · rw [push, hnext, Memory.cellAt_setCell_of_ne (by omega), cellAt_push hs hroom]
    · rw [← hnext, cellAt_push hplaced hroom']
  | word hroom =>
    simp only [Assembler.storedWords, List.mem_singleton, Prod.mk.injEq] at hw
    obtain ⟨rfl, rfl⟩ := hw
    refine ⟨cellAt_push hs hroom _, by omega, ?_, rfl, rfl, rfl⟩
    simp only [push]
    omega
  | _ => simp [Assembler.storedWords] at hw

/-- A byte that starts a word is in its low half. -/
theorem Step.low_cellAt (hs : s.Placed) (h : Step s (.byte v) s') (hpacking : s.packing = false) :
    (s'.memory.cellAt s.lomem.toNat).low = v.low ∧ (s.lomem.toNat : Int) < s'.lomem := by
  have hnonneg := hs.nonneg
  cases h with
  | firstByte _ hroom =>
    refine ⟨?_, ?_⟩
    · rw [cellAt_push hs hroom, Cell.ofByte, Cell.low_ofBytes]
    · simp only [push]
      omega
  | secondByte hsecond => simp [hpacking] at hsecond

/-- A byte that completes a word is in its high half. -/
theorem Step.high_cellAt (hs : s.Placed) (h : Step s (.byte v) s') (hpacking : s.packing = true) :
    (s'.memory.cellAt (s.lomem - 1).toNat).high = v.low ∧
      ((s.lomem - 1).toNat : Int) < s'.lomem ∧ s'.packing = false := by
  have hpacked := hs.packed hpacking
  cases h with
  | firstByte hfirst _ => simp [hpacking] at hfirst
  | secondByte _ =>
    refine ⟨?_, ?_, rfl⟩
    · rw [packHigh, Memory.cellAt_setCell_self (by omega), Cell.high_ofBytes]
    · simp only [packHigh]
      omega

/-- What directives mean a part of a word to be it is when they say so, and no later directive
is to append there. -/
theorem Means.holds (hs : 0 ≤ s.lomem) (hrun : emitAll ds s.fresh = .ok () s')
    (h : Means s ds s' s₁ after w part v) :
    s₁.Placed ∧ emitAll after s₁ = .ok () s' ∧ Apart w part s₁ s' ∧
      part.view (s₁.memory.cellAt w) = v := by
  have hfresh := placed_fresh hs
  -- The run goes on after the directive that stores.
  have hlater {before d after s₀ s₁} (hds : ds = before ++ d :: after)
      (hbefore : emitAll before s.fresh = .ok () s₀) (hemit : emit d s₀ = .ok () s₁) :
      s₀.Placed ∧ Step s₀ d s₁ ∧ s₁.Placed ∧ emitAll after s₁ = .ok () s' := by
    have hplaced := placed_of_emitAll hfresh hbefore
    have hstep := (emit_eq_ok_iff hplaced).mp hemit
    exact ⟨hplaced, hstep, hstep.placed hplaced,
      (emitAll_split_eq_ok_iff hfresh hbefore hstep).mp (hds ▸ hrun)⟩
  cases h with
  | outside hw => exact ⟨hfresh, hrun, ⟨hw, by simp [fresh]⟩, rfl⟩
  | number hds hbefore hemit hstored =>
    obtain ⟨hplaced, hstep, hplaced', hafter⟩ := hlater hds hbefore hemit
    obtain ⟨hcell, -, hlt, hpacking, -⟩ := hstep.storedWords hplaced hstored
    exact ⟨hplaced', hafter, ⟨.inl hlt, by simp [hpacking]⟩, hcell⟩
  | firstByte hds hbefore hemit hpacking =>
    obtain ⟨hplaced, hstep, hplaced', hafter⟩ := hlater hds hbefore hemit
    obtain ⟨hcell, hlt⟩ := hstep.low_cellAt hplaced hpacking
    exact ⟨hplaced', hafter, ⟨.inl hlt, fun _ _ => rfl⟩, by rw [Part.view, hcell]⟩
  | secondByte hds hbefore hemit hpacking =>
    obtain ⟨hplaced, hstep, hplaced', hafter⟩ := hlater hds hbefore hemit
    obtain ⟨hcell, hlt, hpacking'⟩ := hstep.high_cellAt hplaced hpacking
    exact ⟨hplaced', hafter, ⟨.inl hlt, by simp [hpacking']⟩, by rw [Part.view, hcell]⟩

/-- In a program that sets each global once, what the directives mean a word to hold is not
waiting when they say so. -/
theorem Means.ready {base : Nat} (hs : s.fresh.Based base) (horderly : Directive.Orderly base ds)
    (h : Means s ds s' s₁ after w part v) :
    ∃ waits, s₁.Ready base waits after ∧ ∀ n, w ∉ waits n := by
  -- A word that does not wait before a directive without label does not wait after it.
  have hlater {before d after s₀ s₁} (hds : ds = before ++ d :: after)
      (hbefore : emitAll before s.fresh = .ok () s₀) (hemit : emit d s₀ = .ok () s₁)
      (htarget : d.target? = none) (hreference : d.reference? = none)
      (hfree : ∀ waits, s₀.Threaded waits → ∀ n, w ∉ waits n) :
      ∃ waits, s₁.Ready base waits after ∧ ∀ n, w ∉ waits n := by
    obtain ⟨waits₀, hready, -⟩ := (ready_fresh hs (hds ▸ horderly)).run hbefore
    have hstep := (emit_eq_ok_iff hready.based.toPlaced).mp hemit
    obtain ⟨waits₁, hready₁, hwait⟩ := hready.step hstep
    exact ⟨waits₁, hready₁,
      hwait w (hfree waits₀ hready.threaded) (by simp [htarget]) (.inl hreference)⟩
  have hplaced {before s₀} (hbefore : emitAll before s.fresh = .ok () s₀) : s₀.Placed :=
    placed_of_emitAll hs.toPlaced hbefore
  cases h with
  | outside hw => exact ⟨_, ready_fresh hs horderly, by simp⟩
  | number hds hbefore hemit hstored =>
    have hstep := (emit_eq_ok_iff (hplaced hbefore)).mp hemit
    obtain ⟨-, hle, -, -, hreference, htarget⟩ := hstep.storedWords (hplaced hbefore) hstored
    refine hlater hds hbefore hemit htarget hreference fun waits ht n hmem => ?_
    have hbelow := (ht.below n w hmem).1
    omega
  | firstByte hds hbefore hemit hpacking =>
    exact hlater hds hbefore hemit rfl rfl fun waits ht =>
      ht.lomem_not_mem (hplaced hbefore).nonneg
  | secondByte hds hbefore hemit hpacking =>
    have hpos := ((hplaced hbefore).packed hpacking).1
    refine hlater hds hbefore hemit rfl rfl fun waits ht n hmem => ?_
    have hbelow := (ht.below n _ hmem).2 hpacking
    omega

/-- While the chains are in order no label definition stores into a word that does not wait. -/
theorem Ready.not_patches {base : Nat} {waits : Cell → List Nat} (h : s.Ready base waits ds)
    (hrun : emitAll ds s = .ok () s') (hfree : ∀ n, w ∉ waits n)
    (htarget : w ∉ Directive.targets ds) (houtside : (w : Int) < s.lomem ∨ s'.lomem ≤ w) :
    ¬ SomeDefinition (Patches w) s ds := by
  rintro ⟨before, n, after, s₁, rfl, hbefore, k, hentry, hvisits⟩
  obtain ⟨s₂, hbefore', hafter⟩ := emitAll_append_eq_ok_iff.mp hrun
  obtain rfl := Action.ok_unique hbefore hbefore'
  have hle := lomem_le_of_emitAll (placed_of_emitAll h.based.toPlaced hbefore) hafter
  obtain ⟨waits₁, hready, hwait⟩ := h.run hbefore
  have hlink : Labels.IsLink s₁.memory k := by
    by_contra hnot
    exact Labels.not_visits_of_not_isLink hnot w hvisits
  have hchain := hready.threaded.chain n k hentry hlink.1.le
  rw [Directive.targets_append, List.mem_append, not_or] at htarget
  exact hwait w hfree htarget.1 (by omega) n ((hchain.visits_iff w).mp hvisits)

/-- A word of an accepted text is in the end what the text means it to be exactly when the last
label definition that stores into it, if there is one, stores just that. No label definition
stores into it when no segment sets a global twice and all globals lie before the code. -/
theorem accepted_view_cellAt_iff {t : Text} (hlomem : 0 < s.lomem)
    (haccept : assemble t none s = .ok () s')
    (hmeans : Means s (Directive.parseAll t.significant) s' s₁ after w part v)
    (htarget : w ∉ Directive.targets after) :
    (part.view (s'.memory.cellAt w) = v ↔ ∀ u, LastPatch s₁ after w u → part.view u = v) ∧
      (s.memory.size ≤ 32768 → s.lomem < 32768 →
        Directive.Orderly s.lomem.toNat (Directive.parseAll t.significant) →
          part.view (s'.memory.cellAt w) = v) := by
  have hrun := ((assemble_eq_ok_iff t none s).mp haccept).2
  obtain ⟨hplaced, hafter, hapart, hholds⟩ := hmeans.holds hlomem.le hrun
  refine ⟨?_, fun hsize hlt horderly => ?_⟩
  · rw [← hholds]
    exact view_cellAt_eq_iff hplaced hafter hapart htarget
  · obtain ⟨waits, hready, hfree⟩ := hmeans.ready (based_fresh hlomem hlt hsize) horderly
    rw [← hholds]
    exact view_cellAt_of_emitAll hplaced hafter hapart htarget
      (hready.not_patches hafter hfree htarget hapart.outside)

end Meanings

/-- In a text that sets a global once, a data word stays as it is stored. -/
theorem accepted_data_word :
    ∃ s', assemble (Text.ofAscii "G10L1 JL1 D7 1 ") none
        { memory := .blank 1000, lomem := 401 } = .ok () s' ∧
      Part.word.view (s'.memory.cellAt 403) = 7 := by
  have hds : Directive.parseAll (Text.significant (Text.ofAscii "G10L1 JL1 D7 1 ")) =
      [.global 10 1, .instruction ⟨.jump, false, false⟩ false (.label 1)] ++
        .word (.number 7) :: [.label 1] := by decide
  have hsize : (Memory.blank 1000).size = 1000 := Memory.size_blank (by decide)
  obtain ⟨s', haccept, -⟩ : ∃ s', assemble (Text.ofAscii "G10L1 JL1 D7 1 ") none
      { memory := .blank 1000, lomem := 401 } = .ok () s' ∧ s'.lomem = 404 :=
    Action.after?_eq_some_iff.mp (by decide +kernel)
  have hrun := ((assemble_eq_ok_iff ..).mp haccept).2
  rw [hds] at hrun
  obtain ⟨s₀, hbefore, hrest⟩ := emitAll_append_eq_ok_iff.mp hrun
  obtain ⟨⟨⟩, s₁, hemit, -⟩ := Action.bind_eq_ok_iff.mp hrest
  obtain ⟨s₂, hbefore', hlomem⟩ : ∃ s₂, emitAll [.global 10 1,
      .instruction ⟨.jump, false, false⟩ false (.label 1)]
      (fresh { memory := .blank 1000, lomem := 401 }) = .ok () s₂ ∧ s₂.lomem = 403 :=
    Action.after?_eq_some_iff.mp (by decide +kernel)
  obtain rfl := Action.ok_unique hbefore hbefore'
  refine ⟨s', haccept, (accepted_view_cellAt_iff (by decide) haccept
    (.number hds hbefore hemit (by simp [storedWords, hlomem])) (by decide)).2
    (by rw [hsize]; decide) (by decide) ?_⟩
  rw [hds]
  decide

/-- A text that sets a global to one label twice is accepted, and changes the word after its
code, which is no global of it. -/
theorem accepted_changes_word_after_code :
    401 ∉ Directive.targets
        (Directive.parseAll (Text.significant (Text.ofAscii "G10L1 G10L1 1 "))) ∧
      ∃ s', assemble (Text.ofAscii "G10L1 G10L1 1 ") none
        { memory := .blank 1000, lomem := 401 } = .ok () s' ∧
        (s'.lomem, s'.memory.cellAt 401, (Memory.blank 1000).cellAt 401) = (401, 401, 0) :=
  ⟨by decide, Action.after?_eq_some_iff.mp (by decide +kernel)⟩

end Assembler

end Intcode
