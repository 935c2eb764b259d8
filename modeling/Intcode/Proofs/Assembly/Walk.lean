import Intcode.Assembly.Labels
import Intcode.Proofs.Memory
import Mathlib.Data.Finset.Card
import Mathlib.Logic.Relation

/-!
# Walks along links

Defining a label walks along a chain of words and stores the label's address in
each of them. This file describes the walk by the links of the memory before it,
for any memory whatever: which words it reaches, and when it never ends.

A walk follows the links until it comes to a word for the second time. That word
holds the label's address by then, so the walk goes on from there. Hence it ends
unless the links from its start and those from the label's address both lead on
for ever.
-/

namespace Intcode.Labels

/-- A cell is a link when it is the address of a word that a walk goes on to. -/
def IsLink (m : Memory) (k : Cell) : Prop := 0 < k.toInt ∧ k.toNat < m.size

/-- One link leads to the cell that the linked word holds. -/
def Link (m : Memory) (k k' : Cell) : Prop := IsLink m k ∧ m.cellAt k.toNat = k'

/-- Any number of links lead from one cell to another. -/
def Leads (m : Memory) : Cell → Cell → Prop := Relation.ReflTransGen (Link m)

/-- The links from a cell lead on for ever: they lead to nothing but links. -/
def Unending (m : Memory) (k : Cell) : Prop := ∀ k', Leads m k k' → IsLink m k'

/-- The links from a cell lead through a word. -/
def Reaches (m : Memory) (k : Cell) (w : Nat) : Prop :=
  ∃ k', Leads m k k' ∧ IsLink m k' ∧ k'.toNat = w

/-- A walk from `k` that stores `v` stores it in the word `w`: the links from its start lead
there, or they lead on for ever and the links from `v` lead there. -/
def Visits (m : Memory) (v k : Cell) (w : Nat) : Prop :=
  Reaches m k w ∨ Unending m k ∧ Reaches m v w

/-- A walk from `k` that stores `v` never ends. -/
def Trapped (m : Memory) (v k : Cell) : Prop := Unending m k ∧ Unending m v

variable {m : Memory} {v k : Cell}

section Links

/-- A positive cell is the address that it denotes as a signed number. -/
theorem toInt_eq_toNat (h : 0 < k.toInt) : k.toInt = k.toNat ∧ k.toNat < 32768 := by
  have hlt := k.isLt
  rw [BitVec.toInt_eq_toNat_cond] at h ⊢
  split at h <;> omega

/-- Storing a word does not change which cells are links. -/
theorem isLink_setCell {i : Nat} {w : Cell} : IsLink (m.setCell i w) k ↔ IsLink m k := by
  unfold IsLink
  rw [Memory.size_setCell]

/-- The word of a link is the only one that a store at the link changes. -/
theorem cellAt_setCell_link (hk : IsLink m k) (x : Cell) :
    (m.setCell k.toNat v).cellAt x.toNat = if x = k then v else m.cellAt x.toNat := by
  by_cases hxk : x = k
  · rw [if_pos hxk, hxk, Memory.cellAt_setCell_self hk.2]
  · have hne : k.toNat ≠ x.toNat := fun h => hxk (BitVec.eq_of_toNat_eq h.symm)
    rw [if_neg hxk, Memory.cellAt_setCell_of_ne hne]

/-- A positive address that a word holds at itself lies in the memory. -/
theorem isLink_of_cellAt_eq_self (hpos : 0 < k.toInt) (h : m.cellAt k.toNat = k) : IsLink m k := by
  refine ⟨hpos, ?_⟩
  by_contra hbeyond
  rw [Memory.cellAt_of_size_le (by omega)] at h
  rw [← h] at hpos
  exact absurd hpos (by decide)

/-- A cell leads to itself. -/
theorem Leads.refl (m : Memory) (k : Cell) : Leads m k k := Relation.ReflTransGen.refl

/-- Links lead one link further. -/
theorem Leads.tail {x : Cell} (h : Leads m k x) (hx : IsLink m x) : Leads m k (m.cellAt x.toNat) :=
  Relation.ReflTransGen.tail h ⟨hx, rfl⟩

/-- A link leads wherever the word behind it leads. -/
theorem Leads.head {x : Cell} (hk : IsLink m k) (h : Leads m (m.cellAt k.toNat) x) : Leads m k x :=
  Relation.ReflTransGen.head ⟨hk, rfl⟩ h

/-- A cell that leads somewhere is that place, or a link whose word leads there. -/
theorem Leads.cases_head {x : Cell} (h : Leads m k x) :
    k = x ∨ IsLink m k ∧ Leads m (m.cellAt k.toNat) x := by
  rcases Relation.ReflTransGen.cases_head h with heq | ⟨y, ⟨hk, rfl⟩, hy⟩
  · exact .inl heq
  · exact .inr ⟨hk, hy⟩

/-- A property of cells that links keep holds wherever they lead. -/
theorem Leads.preserves {S : Cell → Prop} (hnext : ∀ x, IsLink m x → S x → S (m.cellAt x.toNat))
    (hk : S k) {x : Cell} (h : Leads m k x) : S x := by
  induction h with
  | refl => exact hk
  | tail _ hlink ih => exact hlink.2 ▸ hnext _ hlink.1 ih

/-- A property of cells that links keep holds of the link to each word that they reach. -/
theorem Reaches.exists_link {S : Cell → Prop}
    (hnext : ∀ x, IsLink m x → S x → S (m.cellAt x.toNat)) (hk : S k) {w : Nat}
    (h : Reaches m k w) : ∃ x, S x ∧ IsLink m x ∧ x.toNat = w := by
  obtain ⟨x, hleads, hx, hw⟩ := h
  exact ⟨x, hleads.preserves hnext hk, hx, hw⟩

/-- A cell reaches what it leads to reaches. -/
theorem Reaches.of_leads {x : Cell} {w : Nat} (h : Reaches m x w) (hleads : Leads m k x) :
    Reaches m k w := by
  obtain ⟨y, hy, hlink, hw⟩ := h
  exact ⟨y, Relation.ReflTransGen.trans hleads hy, hlink, hw⟩

/-- The first word reached is that of the link itself, and the others come after it. -/
theorem Reaches.cases_head {w : Nat} (h : Reaches m k w) :
    w = k.toNat ∨ Reaches m (m.cellAt k.toNat) w := by
  obtain ⟨x, hleads, hx, rfl⟩ := h
  rcases hleads.cases_head with rfl | ⟨-, hnext⟩
  · exact .inl rfl
  · exact .inr ⟨x, hnext, hx, rfl⟩

/-- Links lead on for ever within a set of links that they do not leave. -/
theorem unending_of_closed {S : Cell → Prop}
    (hS : ∀ x, S x → IsLink m x ∧ S (m.cellAt x.toNat)) (hk : S k) : Unending m k := by
  intro x hleads
  exact (hS x (hleads.preserves (fun y _ hy => (hS y hy).2) hk)).1

/-- Where links lead on for ever, so do those of the next word. -/
theorem Unending.next (h : Unending m k) : IsLink m k ∧ Unending m (m.cellAt k.toNat) := by
  have hk := h k (.refl m k)
  exact ⟨hk, fun x hx => h x (.head hk hx)⟩

/-- Links that come back to their start lead on for ever. -/
theorem unending_of_cycle (hk : IsLink m k) (hback : Leads m (m.cellAt k.toNat) k) :
    Unending m k := by
  apply unending_of_closed (S := fun x => Leads m x k)
  · intro x hx
    rcases hx.cases_head with rfl | ⟨hlink, hnext⟩
    · exact ⟨hk, hback⟩
    · exact ⟨hlink, hnext⟩
  · exact .refl m k

end Links

section Steps

/-- Storing a value from which links lead on for ever keeps all such links so. -/
theorem Unending.setCell {x : Cell} (hx : Unending m x) (hk : IsLink m k) (hv : Unending m v) :
    Unending (m.setCell k.toNat v) x := by
  apply unending_of_closed (S := Unending m)
  · intro y hy
    refine ⟨isLink_setCell.mpr hy.next.1, ?_⟩
    rw [cellAt_setCell_link hk]
    split
    · exact hv
    · exact hy.next.2
  · exact hx

/-- Links that lead on for ever after a store did so before it, if those of the word stored
into do. -/
theorem Unending.of_setCell {x : Cell} (hk : IsLink m k)
    (hnext : Unending (m.setCell k.toNat v) (m.cellAt k.toNat))
    (hx : Unending (m.setCell k.toNat v) x ∨ x = k) : Unending m x := by
  apply unending_of_closed (S := fun y => Unending (m.setCell k.toNat v) y ∨ y = k)
  · intro y hy
    by_cases hyk : y = k
    · subst hyk
      exact ⟨hk, .inl hnext⟩
    · have hy' := (hy.resolve_right hyk).next
      rw [isLink_setCell, cellAt_setCell_link hk, if_neg hyk] at hy'
      exact ⟨hy'.1, .inl hy'.2⟩
  · exact hx

/-- A walk is trapped before a step exactly when it is trapped after it. -/
theorem trapped_step (hk : IsLink m k) :
    Trapped m v k ↔ Trapped (m.setCell k.toNat v) v (m.cellAt k.toNat) := by
  constructor
  · rintro ⟨hunending, hv⟩
    exact ⟨hunending.next.2.setCell hk hv, hv.setCell hk hv⟩
  · rintro ⟨hnext, hv⟩
    exact ⟨.of_setCell hk hnext (.inr rfl), .of_setCell hk hnext (.inl hv)⟩

/-- What a walk could reach before a step it can still reach after it, from where it was or
from where the step leads, the word of the step itself apart. -/
theorem Reaches.setCell {x : Cell} {w : Nat} (h : Reaches m x w) (hk : IsLink m k) :
    w = k.toNat ∨ Reaches (m.setCell k.toNat v) (m.cellAt k.toNat) w ∨
      Reaches (m.setCell k.toNat v) x w := by
  obtain ⟨y, hy, hlink, rfl⟩ := h.exists_link
    (S := fun y => y = k ∨ Leads (m.setCell k.toNat v) (m.cellAt k.toNat) y ∨
      Leads (m.setCell k.toNat v) x y)
    (fun y hlink hy => by
      by_cases hyk : y = k
      · exact .inr (.inl (hyk ▸ .refl _ _))
      · have hsame : (m.setCell k.toNat v).cellAt y.toNat = m.cellAt y.toNat := by
          rw [cellAt_setCell_link hk, if_neg hyk]
        rw [← hsame]
        exact .inr ((hy.resolve_left hyk).imp (·.tail (isLink_setCell.mpr hlink))
          (·.tail (isLink_setCell.mpr hlink))))
    (.inr (.inr (.refl _ _)))
  rcases hy with rfl | hy | hy
  · exact .inl rfl
  · exact .inr (.inl ⟨y, hy, isLink_setCell.mpr hlink, rfl⟩)
  · exact .inr (.inr ⟨y, hy, isLink_setCell.mpr hlink, rfl⟩)

/-- Links that lead on for ever and do not come back to a word still do so when it is stored
into. -/
theorem Unending.setCell_of_not_back (h : Unending m k)
    (hback : ¬ Leads (m.setCell k.toNat v) (m.cellAt k.toNat) k) :
    Unending (m.setCell k.toNat v) (m.cellAt k.toNat) := by
  have hk := h.next.1
  have hforth : ∀ x, Leads (m.setCell k.toNat v) (m.cellAt k.toNat) x →
      Leads m (m.cellAt k.toNat) x := by
    intro x hx
    induction hx with
    | refl => exact .refl _ _
    | @tail y _ hy hlink ih =>
      obtain ⟨hlink, rfl⟩ := hlink
      have hyk : y ≠ k := fun hyk => hback (hyk ▸ hy)
      rw [cellAt_setCell_link hk, if_neg hyk]
      exact ih.tail (isLink_setCell.mp hlink)
  exact fun x hx => isLink_setCell.mpr (h.next.2 x (hforth x hx))

/-- What a walk can reach after a step from cells that it comes to, it visits. -/
theorem Reaches.visits_of_setCell {x : Cell} {w : Nat} (hk : IsLink m k)
    (h : Reaches (m.setCell k.toNat v) x w)
    (hx : Leads m (m.cellAt k.toNat) x ∨ Unending m k ∧ Leads m v x) : Visits m v k w := by
  obtain ⟨y, hy, hlink, rfl⟩ := h.exists_link
    (S := fun y => Leads m (m.cellAt k.toNat) y ∨ Unending m k ∧ Leads m v y)
    (fun y hlink hy => by
      have hlink := isLink_setCell.mp hlink
      rw [cellAt_setCell_link hk]
      by_cases hyk : y = k
      · -- The walk is back at `k`, so its links run in a circle and it goes on from `v`.
        rw [if_pos hyk]
        have hunending : Unending m k :=
          hy.elim (fun hback => unending_of_cycle hk (hyk ▸ hback)) (·.1)
        exact .inr ⟨hunending, .refl _ _⟩
      · rw [if_neg hyk]
        exact hy.imp (·.tail hlink) (fun hy => ⟨hy.1, hy.2.tail hlink⟩))
    hx
  have hlink := isLink_setCell.mp hlink
  rcases hy with hy | ⟨hunending, hy⟩
  · exact .inl ⟨y, .head hk hy, hlink, rfl⟩
  · exact .inr ⟨hunending, y, hy, hlink, rfl⟩

/-- A step of a walk visits the word of its link, and the rest of the walk visits the rest. -/
theorem visits_step (hk : IsLink m k) (w : Nat) :
    Visits m v k w ↔
      w = k.toNat ∨ Visits (m.setCell k.toNat v) v (m.cellAt k.toNat) w := by
  constructor
  · rintro (hreach | ⟨hunending, hreach⟩)
    · rcases hreach.cases_head with rfl | hreach
      · exact .inl rfl
      · exact (hreach.setCell hk).imp_right fun h => .inl (h.elim id id)
    · rcases hreach.setCell hk with rfl | hnext | hv
      · exact .inl rfl
      · exact .inr (.inl hnext)
      · right
        by_cases hback : Leads (m.setCell k.toNat v) (m.cellAt k.toNat) k
        · have hturn := hback.tail (isLink_setCell.mpr hk)
          rw [cellAt_setCell_link hk, if_pos rfl] at hturn
          exact .inl (hv.of_leads hturn)
        · exact .inr ⟨hunending.setCell_of_not_back hback, hv⟩
  · rintro (rfl | hnext | ⟨hunending, hv⟩)
    · exact .inl ⟨k, .refl _ _, hk, rfl⟩
    · exact hnext.visits_of_setCell hk (.inl (.refl _ _))
    · exact hv.visits_of_setCell hk
        (.inr ⟨.of_setCell hk hunending (.inr rfl), .refl _ _⟩)

/-- A walk that starts at no link visits nothing. -/
theorem not_visits_of_not_isLink (hk : ¬ IsLink m k) (w : Nat) : ¬ Visits m v k w := by
  rintro (⟨x, hleads, hx, -⟩ | ⟨hunending, -⟩)
  · rcases hleads.cases_head with rfl | ⟨hlink, -⟩
    · exact hk hx
    · exact hk hlink
  · exact hk hunending.next.1

end Steps

section Outcomes

/-- A walk ends at a cell that is not positive. -/
theorem patchChain_of_nonpos (hk : k.toInt ≤ 0) (n : Nat) : patchChain v n k m = .ok () m := by
  cases n with
  | zero => simp only [patchChain, if_pos hk, Action.pure_apply]
  | succ n => simp only [patchChain, if_pos hk, Action.pure_apply]

/-- A walk goes on at a link: it stores its value there and follows what was there. -/
theorem patchChain_of_isLink (hk : IsLink m k) (n : Nat) :
    patchChain v (n + 1) k m = patchChain v n (m.cellAt k.toNat) (m.setCell k.toNat v) := by
  obtain ⟨hpos, hlt⟩ := hk
  have hnat := (toInt_eq_toNat hpos).1
  have hword : m.word k.toInt = .ok (m.cellAt k.toNat) := by
    rw [Memory.word_of_lt (by omega) (by omega), hnat, Int.toNat_natCast]
  have hset : Memory.setWord k.toInt v m = .ok () (m.setCell k.toNat v) := by
    rw [Memory.setWord_of_lt (by omega) (by omega), hnat, Int.toNat_natCast]
  simp only [patchChain, if_neg (Int.not_le.mpr hpos), Action.bind_apply, Action.read, hword, hset]

/-- A walk that comes to an address beyond the memory fails there, and is no endless walk. -/
theorem patchChain_of_beyond (hpos : 0 < k.toInt) (hbeyond : m.size ≤ k.toNat) (n : Nat) :
    ∃ e, e ≠ .endless ∧ patchChain v (n + 1) k m = .error e m := by
  obtain ⟨hnat, hlt⟩ := toInt_eq_toNat hpos
  have hwrap : wrap (2 * k.toInt) = 2 * k.toInt := wrap_of_lt (by omega) (by omega)
  have hslot : m.slot k.toInt = .error (.address ((2 * k.toInt).tdiv 2)) := by
    unfold Memory.slot
    rw [if_neg (by omega), hwrap, if_neg (by omega), if_neg (by omega)]
  have hword : m.word k.toInt = .error (.address ((2 * k.toInt).tdiv 2)) := by
    rw [Memory.word, hslot]
  refine ⟨.address ((2 * k.toInt).tdiv 2), by simp, ?_⟩
  simp only [patchChain, if_neg (Int.not_le.mpr hpos), Action.bind_apply, Action.read, hword]

/-- A trapped walk has not ended after any number of words. -/
theorem patchChain_of_trapped (h : Trapped m v k) (n : Nat) :
    ∃ m', patchChain v n k m = .error .endless m' := by
  induction n generalizing m k with
  | zero =>
    have hpos := h.1.next.1.1
    exact ⟨m, by simp only [patchChain, if_neg (Int.not_le.mpr hpos), Action.throw_apply]⟩
  | succ n ih =>
    have hk := h.1.next.1
    rw [patchChain_of_isLink hk]
    exact ih ((trapped_step hk).mp h)

/-- The words with positive addresses that do not hold a value, zero among them. -/
def wordsWithout (m : Memory) (v : Cell) : Finset Nat :=
  (Finset.range (32768)).filter fun i => m.cellAt i ≠ v

/-- Storing a value in a word that holds another leaves one word fewer without it. -/
theorem card_wordsWithout_setCell (hk : IsLink m k) (hne : m.cellAt k.toNat ≠ v) :
    (wordsWithout (m.setCell k.toNat v) v).card < (wordsWithout m v).card := by
  apply Finset.card_lt_card
  refine Finset.ssubset_iff_subset_ne.mpr ⟨?_, ?_⟩
  · intro i hi
    simp only [wordsWithout, Finset.mem_filter] at hi ⊢
    refine ⟨hi.1, fun hv => hi.2 ?_⟩
    rw [Memory.cellAt_setCell]
    split
    · rfl
    · exact hv
  · intro heq
    have hmem : k.toNat ∈ wordsWithout m v :=
      Finset.mem_filter.mpr ⟨Finset.mem_range.mpr (toInt_eq_toNat hk.1).2, hne⟩
    rw [← heq] at hmem
    exact (Finset.mem_filter.mp hmem).2 (Memory.cellAt_setCell_self hk.2 v)

/-- A walk that is not trapped ends within as many words as are without its value and one
more: it comes to a word with that value at most once before it comes to the value's own
word, and never after that. -/
theorem patchChain_ne_endless {n : Nat} (h : ¬ Trapped m v k)
    (hn : (wordsWithout m v).card + (if m.cellAt v.toNat = v ∨ k = v then 0 else 1) < n)
    (m' : Memory) : patchChain v n k m ≠ .error .endless m' := by
  induction n generalizing m k with
  | zero => omega
  | succ n ih =>
    by_cases hpos : 0 < k.toInt
    · by_cases hlt : k.toNat < m.size
      · have hk : IsLink m k := ⟨hpos, hlt⟩
        rw [patchChain_of_isLink hk]
        have hnext := mt (trapped_step hk).mpr h
        by_cases hheld : m.cellAt k.toNat = v
        · -- Nothing changes, and the walk goes on from `v`, where it must end by itself.
          rw [Memory.setCell_eq_self hheld, hheld] at hnext ⊢
          by_cases hvpos : 0 < v.toInt
          · have hopen : ¬ (m.cellAt v.toNat = v ∨ k = v) := by
              intro hloop
              have hself : m.cellAt v.toNat = v := hloop.elim id fun hkv => hkv ▸ hheld
              have hlink := isLink_of_cellAt_eq_self hvpos hself
              have hunending := unending_of_cycle hlink (hself.symm ▸ .refl m v)
              exact hnext ⟨hunending, hunending⟩
            rw [if_neg hopen] at hn
            apply ih hnext
            rw [if_pos (.inr rfl)]
            omega
          · rw [patchChain_of_nonpos (by omega)]
            exact fun heq => by cases heq
        · have hcard := card_wordsWithout_setCell hk hheld
          have hturn : m.cellAt v.toNat = v ∨ k = v →
              (m.setCell k.toNat v).cellAt v.toNat = v ∨ m.cellAt k.toNat = v := by
            intro hloop
            left
            rw [cellAt_setCell_link hk]
            split
            · rfl
            · exact hloop.resolve_right (Ne.symm ‹_›)
          have hbonus : (if (m.setCell k.toNat v).cellAt v.toNat = v ∨ m.cellAt k.toNat = v
              then 0 else 1) ≤ if m.cellAt v.toNat = v ∨ k = v then 0 else 1 := by
            split
            · exact Nat.zero_le _
            · rw [if_neg (mt hturn ‹_›)]
          apply ih hnext
          omega
      · obtain ⟨e, hne, he⟩ := patchChain_of_beyond (m := m) (v := v) hpos (by omega) n
        rw [he]
        exact fun heq => hne (by injection heq)
    · rw [patchChain_of_nonpos (by omega)]
      exact fun heq => by cases heq

/-- A walk within the limit is taken for endless exactly when it never ends. -/
theorem patchChain_chainLimit_eq_endless_iff :
    (∃ m', patchChain v chainLimit k m = .error .endless m') ↔ Trapped m v k := by
  constructor
  · rintro ⟨m', hwalk⟩
    by_contra hnot
    refine patchChain_ne_endless hnot ?_ m' hwalk
    have hcard : (wordsWithout m v).card ≤ 32768 :=
      (Finset.card_filter_le _ _).trans (Finset.card_range _).le
    unfold chainLimit
    split <;> omega
  · exact fun h => patchChain_of_trapped h _

/-- A walk that ends has stored its value in the words that it visits, and nowhere else. -/
theorem cellAt_patchChain {n : Nat} {m' : Memory} (h : patchChain v n k m = .ok () m') :
    m'.size = m.size ∧ ∀ w, (Visits m v k w → m'.cellAt w = v) ∧
      (¬ Visits m v k w → m'.cellAt w = m.cellAt w) := by
  induction n generalizing m k with
  | zero =>
    have hnonpos : k.toInt ≤ 0 := by
      by_contra hpos
      simp only [patchChain, if_neg hpos, Action.throw_apply, reduceCtorEq] at h
    have hk : ¬ IsLink m k := fun hk => absurd hk.1 (Int.not_lt.mpr hnonpos)
    rw [patchChain_of_nonpos hnonpos] at h
    cases h
    exact ⟨rfl, fun w => ⟨fun hw => absurd hw (not_visits_of_not_isLink hk w), fun _ => rfl⟩⟩
  | succ n ih =>
    by_cases hk : IsLink m k
    · rw [patchChain_of_isLink hk] at h
      obtain ⟨hsize, hcells⟩ := ih h
      refine ⟨hsize.trans (Memory.size_setCell ..), fun w => ⟨fun hw => ?_, fun hw => ?_⟩⟩
      · by_cases hrest : Visits (m.setCell k.toNat v) v (m.cellAt k.toNat) w
        · exact (hcells w).1 hrest
        · obtain rfl := ((visits_step hk w).mp hw).resolve_right hrest
          rw [(hcells _).2 hrest, Memory.cellAt_setCell_self hk.2]
      · have hrest := mt (fun hrest => (visits_step hk w).mpr (.inr hrest)) hw
        have hne : k.toNat ≠ w := fun heq => hw ((visits_step hk w).mpr (.inl heq.symm))
        rw [(hcells w).2 hrest, Memory.cellAt_setCell_of_ne hne]
    · have hnonpos : k.toInt ≤ 0 := by
        by_contra hpos
        obtain ⟨e, -, he⟩ := patchChain_of_beyond (m := m) (k := k) (v := v) (by omega)
          (by by_contra hlt; exact hk ⟨by omega, by omega⟩) n
        rw [he] at h
        cases h
      rw [patchChain_of_nonpos hnonpos] at h
      cases h
      exact ⟨rfl, fun w => ⟨fun hw => absurd hw (not_visits_of_not_isLink hk w), fun _ => rfl⟩⟩

end Outcomes

end Intcode.Labels
