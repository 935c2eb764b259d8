import Intcode.Proofs.Assembly.Run
import Intcode.Proofs.Assembly.Segments

/-!
# Chains of waiting words

The words that wait for a label form a chain through the memory: the table holds
the address of the last of them, each holds the address of the one before, and
the first holds zero. As long as no directive stores into a waiting word, the
chains of different labels stay apart, and defining a label fills in exactly the
words that wait for it.

The globals that a segment sets are such words outside the code, so the chains
stay in order when the globals of a segment are distinct and lie below the code.
-/

namespace Intcode

namespace Labels

/-- The words of a chain, from the last reference to the first. -/
def Chain (m : Memory) : Cell → List Nat → Prop
  | k, [] => k = 0
  | k, a :: as => IsLink m k ∧ k.toNat = a ∧ Chain m (m.cellAt a) as

namespace Chain

variable {m : Memory} {v k : Cell} {as : List Nat}

/-- The words of a chain lie in the memory, at positive addresses. -/
theorem bounds (h : Chain m k as) : ∀ a ∈ as, 0 < a ∧ a < m.size ∧ a < 32768 := by
  induction as generalizing k with
  | nil => simp
  | cons a as ih =>
    obtain ⟨hlink, rfl, hrest⟩ := h
    have hnat := toInt_eq_toNat hlink.1
    have hpos := hlink.1
    intro b hb
    rcases List.mem_cons.mp hb with rfl | hb
    · exact ⟨by omega, hlink.2, hnat.2⟩
    · exact ih hrest b hb

/-- A memory with the same words on a chain has the same chain. -/
theorem congr {m' : Memory} (h : Chain m k as) (hsize : m'.size = m.size)
    (hcells : ∀ a ∈ as, m'.cellAt a = m.cellAt a) : Chain m' k as := by
  induction as generalizing k with
  | nil => exact h
  | cons a as ih =>
    obtain ⟨hlink, rfl, hrest⟩ := h
    refine ⟨⟨hlink.1, hsize ▸ hlink.2⟩, rfl, ?_⟩
    rw [hcells _ List.mem_cons_self]
    exact ih hrest fun a ha => hcells a (List.mem_cons_of_mem _ ha)

/-- Storing elsewhere keeps a chain. -/
theorem setCell {a : Nat} (h : Chain m k as) (ha : a ∉ as) : Chain (m.setCell a v) k as :=
  h.congr (Memory.size_setCell ..) fun b hb =>
    Memory.cellAt_setCell_of_ne (fun hab : a = b => ha (hab ▸ hb)) m v

/-- Links lead through exactly the words of a chain. -/
theorem reaches_iff (h : Chain m k as) (w : Nat) : Reaches m k w ↔ w ∈ as := by
  induction as generalizing k with
  | nil =>
    have hk : ¬ IsLink m k := by
      rw [show k = 0 from h]
      exact fun hlink => absurd hlink.1 (by decide)
    simp only [List.not_mem_nil, iff_false]
    exact fun hreach => not_visits_of_not_isLink (v := 0) hk w (.inl hreach)
  | cons a as ih =>
    obtain ⟨hlink, rfl, hrest⟩ := h
    rw [List.mem_cons, ← ih hrest]
    constructor
    · exact Reaches.cases_head
    · rintro (rfl | hreach)
      · exact ⟨k, .refl _ _, hlink, rfl⟩
      · exact hreach.of_leads (.head hlink (.refl _ _))

/-- The links of a chain end. -/
theorem not_unending (h : Chain m k as) : ¬ Unending m k := by
  induction as generalizing k with
  | nil =>
    intro hunending
    have hlink := hunending.next.1
    rw [show k = 0 from h] at hlink
    exact absurd hlink.1 (by decide)
  | cons a as ih =>
    obtain ⟨-, rfl, hrest⟩ := h
    exact fun hunending => ih hrest hunending.next.2

/-- No word is on a chain twice. -/
theorem nodup (h : Chain m k as) : as.Nodup := by
  induction as generalizing k with
  | nil => exact List.nodup_nil
  | cons a as ih =>
    have hends := h.not_unending
    obtain ⟨hlink, rfl, hrest⟩ := h
    refine List.nodup_cons.mpr ⟨fun hmem => hends ?_, ih hrest⟩
    obtain ⟨k', hleads, -, hk'⟩ := (hrest.reaches_iff k.toNat).mpr hmem
    obtain rfl : k' = k := BitVec.eq_of_toNat_eq hk'
    exact unending_of_cycle hlink hleads

/-- A chain is shorter than the limit of a walk. -/
theorem length_le (h : Chain m k as) : as.length ≤ chainLimit := by
  have hsubset : as.toFinset ⊆ Finset.range (32768) := by
    intro a ha
    exact Finset.mem_range.mpr (h.bounds a (List.mem_toFinset.mp ha)).2.2
  have hcard := Finset.card_le_card hsubset
  rw [List.toFinset_card_of_nodup h.nodup, Finset.card_range] at hcard
  unfold chainLimit
  omega

/-- A walk visits exactly the words of a chain. -/
theorem visits_iff (h : Chain m k as) (w : Nat) : Visits m v k w ↔ w ∈ as := by
  rw [← h.reaches_iff]
  exact or_iff_left fun hunending => h.not_unending hunending.1

/-- A walk along a chain comes to its end. -/
theorem exists_patchChain (h : Chain m k as) {n : Nat} (hn : as.length ≤ n) :
    ∃ m', patchChain v n k m = .ok () m' := by
  induction as generalizing k m n with
  | nil =>
    refine ⟨m, patchChain_of_nonpos ?_ n⟩
    rw [show k = 0 from h]
    decide
  | cons a as ih =>
    have hnodup := h.nodup
    obtain ⟨hlink, rfl, hrest⟩ := h
    cases n with
    | zero => simp at hn
    | succ n =>
      rw [patchChain_of_isLink hlink]
      exact ih (hrest.setCell (List.nodup_cons.mp hnodup).1) (by simpa using hn)

/-- A walk along a chain stores its value in the words of the chain and nowhere else. -/
theorem patchChain_eq_ok (h : Chain m k as) (v : Cell) :
    ∃ m', patchChain v chainLimit k m = .ok () m' ∧ m'.size = m.size ∧
      (∀ w ∈ as, m'.cellAt w = v) ∧ ∀ w ∉ as, m'.cellAt w = m.cellAt w := by
  obtain ⟨m', hwalk⟩ := h.exists_patchChain (v := v) h.length_le
  obtain ⟨hsize, hcells⟩ := cellAt_patchChain hwalk
  refine ⟨m', hwalk, hsize, fun w hw => ?_, fun w hw => ?_⟩
  · exact (hcells w).1 ((h.visits_iff w).mpr hw)
  · exact (hcells w).2 (mt (h.visits_iff w).mp hw)

end Chain

/-- A word with a positive address in a memory whose addresses all are positive as cells is a
link. -/
theorem isLink_ofInt {m : Memory} {a : Nat} (hsize : m.size ≤ 32768) (hpos : a ≠ 0)
    (hlt : a < m.size) : IsLink m (Cell.ofInt a) ∧ (Cell.ofInt a).toNat = a := by
  have hnat : (Cell.ofInt (a : Int)).toNat = a := by
    rw [Cell.toNat_ofInt (by omega) (by omega), Int.toNat_natCast]
  refine ⟨⟨?_, by rw [hnat]; exact hlt⟩, hnat⟩
  rw [Cell.toInt_ofInt (by omega) (by omega)]
  omega

end Labels

namespace Assembler

/-- An assembler whose code begins at an address that is positive as a cell, in a memory whose
addresses all are, so that the table can tell links from definitions. -/
structure Based (base : Int) (s : Assembler) : Prop extends s.Placed where
  base_pos : 0 < base
  base_le : base ≤ s.lomem
  base_lt : s.packing = true → base < s.lomem
  lomem_lt : s.lomem < 32768
  size_le : s.memory.size ≤ 32768

/-- The words `waits n` are those that wait for label `n`. -/
structure Threaded (s : Assembler) (waits : Cell → List Nat) : Prop where
  chain : ∀ n k, s.labels.lookup? n.toInt = some k → 0 ≤ k.toInt →
    Labels.Chain s.memory k (waits n)
  settled : ∀ n, (∀ k, s.labels.lookup? n.toInt = some k → k.toInt < 0) → waits n = []
  apart : ∀ i j a, a ∈ waits i → a ∈ waits j → i = j
  below : ∀ n, ∀ a ∈ waits n, (a : Int) < s.lomem ∧ (s.packing = true → (a : Int) + 1 ≠ s.lomem)

/-- The waiting words after the word `a` has come to refer to label `n` with entry `k`. Word zero
cannot be linked: the table takes it for the end of the chain. -/
def waitsWith (waits : Cell → List Nat) (n k : Cell) (a : Nat) : Cell → List Nat :=
  if k.toInt < 0 then waits else Function.update waits n (if a = 0 then [] else a :: waits n)

/-- A word that waits after a reference has waited before it, or is the word that refers. -/
theorem of_mem_waitsWith {waits : Cell → List Nat} {n k i : Cell} {a b : Nat}
    (h : b ∈ waitsWith waits n k a i) : b ∈ waits i ∨ i = n ∧ b = a := by
  unfold waitsWith at h
  split at h
  · exact .inl h
  · rw [Function.update_apply] at h
    by_cases hin : i = n
    · rw [if_pos hin] at h
      split at h
      · simp at h
      · rcases List.mem_cons.mp h with rfl | h
        · exact .inr ⟨hin, rfl⟩
        · exact .inl (hin ▸ h)
    · rw [if_neg hin] at h
      exact .inl h

section Based

variable {base : Int} {s s' : Assembler} {d : Directive}

/-- Every directive keeps the code where it is told apart from definitions. -/
theorem Step.based (hs : s.Based base) (h : Step s d s') : s'.Based base := by
  have hle := hs.base_le
  have hlt := hs.lomem_lt
  have hsize := hs.size_le
  have hcount : (labelCount : Int) = 500 := rfl
  refine ⟨h.placed hs.toPlaced, hs.base_pos, hle.trans h.lomem_le, ?_, ?_, h.size_eq ▸ hsize⟩
  · cases h with
    | firstByte _ _ =>
      intro _
      simp only [push]
      omega
    | global _ _ => exact hs.base_lt
    | _ => simp [defineHere, push, refer, packHigh, fresh]
  · cases h <;> simp only [defineHere, push, refer, packHigh, fresh, HasRoom,
      Memory.size_setCell] at * <;> omega

/-- A run keeps the code where it is told apart from definitions. -/
theorem based_of_emitAll {ds : List Directive} (hs : s.Based base)
    (h : emitAll ds s = .ok () s') : s'.Based base :=
  emitAll_preserves hs.toPlaced h (fun _ _ _ _ hstep hbased => hstep.based hbased) hs

/-- At the start of a segment the code is told apart from definitions. -/
theorem based_fresh (hpos : 0 < s.lomem) (hlt : s.lomem < 32768)
    (hsize : s.memory.size ≤ 32768) : s.fresh.Based s.lomem.toNat where
  toPlaced := placed_fresh (by omega)
  base_pos := by omega
  base_le := by
    simp only [fresh]
    omega
  base_lt := by simp [fresh]
  lomem_lt := hlt
  size_le := hsize

/-- A word with an address in such a memory is a link. -/
theorem Based.isLink_ofInt (hs : s.Based base) {a : Nat} (hpos : a ≠ 0)
    (hlt : a < s.memory.size) : Labels.IsLink s.memory (Cell.ofInt a) ∧
      (Cell.ofInt a).toNat = a := Labels.isLink_ofInt hs.size_le hpos hlt

end Based

namespace Threaded

variable {base : Int} {s s' : Assembler} {waits : Cell → List Nat} {d : Directive}

/-- At the start of a segment nothing waits. -/
theorem of_fresh (s : Assembler) : s.fresh.Threaded fun _ => [] where
  chain n k hentry _ := by
    simp only [fresh, Labels.lookup?_blank] at hentry
    split at hentry
    · exact (Option.some.inj hentry).symm
    · cases hentry
  settled _ _ := rfl
  apart _ _ _ ha := by simp at ha
  below _ _ ha := by simp at ha

/-- Storing into a word that does not wait keeps the chains. -/
theorem store {a : Nat} {v : Cell} {lomem : Int} {packing : Bool} (h : s.Threaded waits)
    (ha : ∀ n, a ∉ waits n)
    (hbelow : ∀ n, ∀ b ∈ waits n, (b : Int) < lomem ∧ (packing = true → (b : Int) + 1 ≠ lomem)) :
    ({ s with memory := s.memory.setCell a v, lomem, packing } : Assembler).Threaded waits where
  chain n k hentry hk := (h.chain n k hentry hk).setCell (ha n)
  settled := h.settled
  apart := h.apart
  below := hbelow

/-- The first free word does not wait. -/
theorem lomem_not_mem (h : s.Threaded waits) (hnonneg : 0 ≤ s.lomem) (n : Cell) :
    s.lomem.toNat ∉ waits n := by
  intro hmem
  have hlt := (h.below n _ hmem).1
  omega

/-- Appending a word keeps the chains, whether a byte may join it or not. -/
theorem append (h : s.Threaded waits) (hnonneg : 0 ≤ s.lomem) (v : Cell) (packing : Bool) :
    ({ s.push v with packing } : Assembler).Threaded waits := by
  have hlomem : (s.push v).lomem = s.lomem + 1 := rfl
  refine h.store (h.lomem_not_mem hnonneg) fun n b hb => ?_
  have hlt := (h.below n b hb).1
  exact ⟨by omega, fun _ => by omega⟩

/-- Appending a word keeps the chains. -/
theorem push (h : s.Threaded waits) (hnonneg : 0 ≤ s.lomem) (v : Cell) :
    (s.push v).Threaded waits := h.append hnonneg v false

/-- Packing a byte into the last word keeps the chains. -/
theorem packHigh (h : s.Threaded waits) (hs : s.Placed) (hpacking : s.packing = true)
    (c : UInt8) : (s.packHigh c).Threaded waits := by
  have hpos := (hs.packed hpacking).1
  refine h.store (fun n hmem => ?_) fun n b hb => ⟨(h.below n b hb).1, by simp⟩
  have hne := (h.below n _ hmem).2 hpacking
  omega

/-- A word that does not wait yet joins the chain of the label that it refers to. -/
theorem refer (h : s.Threaded waits) (hs : s.Based base) {n k : Cell} {a : Nat}
    (hentry : s.labels.lookup? n.toInt = some k) (hlt : a < s.memory.size)
    (hfresh : ∀ i, a ∉ waits i)
    (hbelow : (a : Int) < s.lomem ∧ (s.packing = true → (a : Int) + 1 ≠ s.lomem)) :
    (s.refer n.toInt k a).Threaded (waitsWith waits n k a) := by
  by_cases hneg : k.toInt < 0
  · have hlabels : s.labels.note n.toInt k a = s.labels := if_pos hneg
    simp only [Assembler.refer, waitsWith, hlabels, if_pos hneg]
    exact h.store hfresh h.below
  · have hsize := hs.size_le
    have hvalue : (Cell.ofInt (a : Int)).toInt = a := Cell.toInt_ofInt (by omega) (by omega)
    have hpointer : Labels.pointer k = k := if_neg hneg
    refine ⟨fun i k' hentry' hk' => ?_, fun i hdefined => ?_, fun i j b hi hj => ?_,
      fun i b hb => ?_⟩
    · simp only [Assembler.refer, hpointer, Labels.lookup?_note hentry, BitVec.toInt_inj,
        if_neg hneg] at hentry' ⊢
      simp only [waitsWith, if_neg hneg, Function.update_apply]
      by_cases hin : i = n
      · rw [if_pos hin] at hentry' ⊢
        obtain rfl := Option.some.inj hentry'
        by_cases hzero : a = 0
        · rw [if_pos hzero, hzero]
          rfl
        · rw [if_neg hzero]
          obtain ⟨hlink, hnat⟩ := hs.isLink_ofInt hzero hlt
          refine ⟨Labels.isLink_setCell.mpr hlink, hnat, ?_⟩
          rw [Memory.cellAt_setCell_self hlt]
          exact (h.chain n k hentry (by omega)).setCell (hfresh n)
      · rw [if_neg hin] at hentry' ⊢
        exact (h.chain i k' hentry' hk').setCell (hfresh i)
    · have hne : i ≠ n := by
        rintro rfl
        have hlast := hdefined (Cell.ofInt a) (by
          simp only [Assembler.refer, Labels.lookup?_note hentry, if_true, if_neg hneg])
        omega
      simp only [waitsWith, if_neg hneg, Function.update_of_ne hne]
      apply h.settled
      intro k' hentry'
      apply hdefined
      simp only [Assembler.refer, Labels.lookup?_note hentry, BitVec.toInt_inj, if_neg hne, hentry']
    · rcases of_mem_waitsWith hi, of_mem_waitsWith hj with ⟨hold | ⟨hin, hba⟩, hold' | ⟨hjn, hba'⟩⟩
      · exact h.apart i j b hold hold'
      · exact absurd (hba' ▸ hold) (hfresh i)
      · exact absurd (hba ▸ hold') (hfresh j)
      · exact hin.trans hjn.symm
    · rcases of_mem_waitsWith hb with hold | ⟨-, hba⟩
      · exact h.below i b hold
      · exact hba ▸ hbelow

/-- An appended word joins the chain of the label that it refers to. -/
theorem appendReference (h : s.Threaded waits) (hs : s.Based base) (hroom : s.HasRoom) {n k : Cell}
    (hentry : s.labels.lookup? n.toInt = some k) :
    ((s.push 0).refer n.toInt k s.lomem.toNat).Threaded
      (waitsWith waits n k s.lomem.toNat) := by
  have hnonneg := hs.nonneg
  have hlt := hroom.lt_size
  have hnext : (s.push 0).lomem = s.lomem + 1 := rfl
  have hbased : (s.push 0).Based base := (Step.word hroom).based hs
  refine (h.push hnonneg 0).refer hbased hentry ?_ (h.lomem_not_mem hnonneg) ⟨by omega, nofun⟩
  simp only [Assembler.push, Memory.size_setCell]
  omega

/-- Defining a label settles the words that wait for it. -/
theorem defineHere (h : s.Threaded waits) (hs : s.Based base) {n : Cell} {memory : Memory}
    (hnumber : Labels.IsNumber n.toInt) (hsize : memory.size = s.memory.size)
    (hcells : ∀ w ∉ waits n, memory.cellAt w = s.memory.cellAt w) :
    (s.defineHere n.toInt memory).Threaded (Function.update waits n []) := by
  have hpos := hs.base_pos
  have hle := hs.base_le
  have hlt := hs.lomem_lt
  have hmem : ∀ i b, b ∈ Function.update waits n [] i → i ≠ n ∧ b ∈ waits i := by
    intro i b hb
    rw [Function.update_apply] at hb
    by_cases hin : i = n
    · simp [hin] at hb
    · rw [if_neg hin] at hb
      exact ⟨hin, hb⟩
  refine ⟨fun i k' hentry' hk' => ?_, fun i hdefined => ?_, fun i j b hi hj => ?_, fun i b hb => ?_⟩
  · simp only [Assembler.defineHere, Labels.lookup?_setEntry hnumber, BitVec.toInt_inj] at hentry'
    by_cases hin : i = n
    · rw [if_pos hin] at hentry'
      obtain rfl := Option.some.inj hentry'
      rw [Cell.toInt_neg_ofInt (by omega) (by omega)] at hk'
      omega
    · rw [if_neg hin] at hentry'
      rw [Function.update_of_ne hin]
      refine (h.chain i k' hentry' hk').congr hsize fun a ha => hcells a fun ha' => ?_
      exact hin (h.apart i n a ha ha')
  · by_cases hin : i = n
    · rw [hin, Function.update_self]
    · rw [Function.update_of_ne hin]
      apply h.settled
      intro k' hentry'
      apply hdefined
      simp only [Assembler.defineHere, Labels.lookup?_setEntry hnumber, BitVec.toInt_inj,
        if_neg hin, hentry']
  · exact h.apart i j b (hmem i b hi).2 (hmem j b hj).2
  · exact ⟨(h.below i b (hmem i b hb).2).1, by simp [Assembler.defineHere]⟩

end Threaded

end Assembler

end Intcode
