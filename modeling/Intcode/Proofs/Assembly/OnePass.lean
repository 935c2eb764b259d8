import Intcode.Proofs.Assembly.Reading
import Intcode.Proofs.Assembly.Threads
import Intcode.Proofs.Assembly.TwoPass

/-!
# One pass does the work of two

The assembler reads a segment once and the two-pass assembler reads it twice, but
they move through it side by side. Between two directives their memories differ
only in the words that wait for a label, where the two-pass assembler already has
the address of that label. Each label that has waiting words is defined later in
the segment, so at its end no word waits and the memories are equal.
-/

namespace Intcode.TwoPass

/-- The assembler stands where the two-pass assembler stands, and their memories agree except
in the waiting words. -/
structure Mirrors (address : Cell → Cell) (s : Assembler) (p : Position) (m : Memory)
    (waits : Cell → List Nat) : Prop where
  lomem_eq : s.lomem = p.lomem
  packing_eq : s.packing = p.packing
  size_eq : s.memory.size = m.size
  settled : ∀ a, (∀ n, a ∉ waits n) → s.memory.cellAt a = m.cellAt a
  waiting : ∀ n, ∀ a ∈ waits n, m.cellAt a = address n

/-- The labels known so far and the words that wait fit the directives to come: these define
what is waited for, and refer to no label that stays undefined. -/
structure Expects (base : Nat) (address : Cell → Cell) (p : Position) (todo : List Directive)
    (labels : Labels) (waits : Cell → List Nat) : Prop where
  tidy : Tidy base todo
  address_eq : ∀ n ∈ Directive.definitions todo, address n = Cell.ofNat (labelAddress n p todo)
  promised : ∀ n, waits n ≠ [] → n ∈ Directive.definitions todo
  wanted : ∀ n k, labels.lookup? n.toInt = some k → 0 ≤ k.toInt →
    n ∈ Directive.references todo → n ∈ Directive.definitions todo
  known : ∀ n k, labels.lookup? n.toInt = some k → k.toInt < 0 →
    k = -address n ∧ n ∉ Directive.definitions todo
  untouched : ∀ n, ∀ a ∈ waits n, a ∉ Directive.targets todo

/-- The assembler and the two-pass assembler side by side, with directives to come. -/
structure InStep (base : Nat) (address : Cell → Cell) (s : Assembler) (p : Position) (m : Memory)
    (todo : List Directive) (waits : Cell → List Nat) : Prop where
  based : s.Based base
  threaded : s.Threaded waits
  mirrors : Mirrors address s p m waits
  expects : Expects base address p todo s.labels waits

section Memories

variable {address : Cell → Cell} {s : Assembler} {p : Position} {m : Memory}
  {waits : Cell → List Nat}

/-- Storing the same value into a word that does not wait keeps the memories in agreement. -/
theorem Mirrors.store {a : Nat} {lomem : Int} {packing : Bool} (h : Mirrors address s p m waits)
    (p' : Position) (ha : ∀ n, a ∉ waits n) (hlomem : lomem = p'.lomem) (v : Cell)
    (hpacking : packing = p'.packing) :
    Mirrors address { s with memory := s.memory.setCell a v, lomem, packing } p'
      (m.setCell a v) waits where
  lomem_eq := hlomem
  packing_eq := hpacking
  size_eq := by simp only [Memory.size_setCell, h.size_eq]
  settled b hb := by
    simp only [Memory.cellAt_setCell, h.size_eq, h.settled b hb]
  waiting n b hb := by
    have hne : a ≠ b := fun hab => ha n (hab ▸ hb)
    rw [Memory.cellAt_setCell_of_ne hne, h.waiting n b hb]

/-- Appending the same word keeps the memories in agreement, whether a byte may join it or
not. -/
theorem Mirrors.append (h : Mirrors address s p m waits) (ht : s.Threaded waits) (v : Cell)
    (packing : Bool) : Mirrors address { s.push v with packing } ⟨p.lomem + 1, packing⟩
      (m.setCell p.lomem v) waits := by
  have hlomem := h.lomem_eq
  have hnat : s.lomem.toNat = p.lomem := by omega
  have hfree := ht.lomem_not_mem (by omega)
  rw [hnat] at hfree
  have hnext : s.lomem + 1 = ((p.lomem + 1 : Nat) : Int) := by omega
  simpa only [Assembler.push, hnat] using h.store ⟨p.lomem + 1, packing⟩ hfree hnext v rfl

/-- Appending the same word keeps the memories in agreement. -/
theorem Mirrors.push (h : Mirrors address s p m waits) (ht : s.Threaded waits) (v : Cell) :
    Mirrors address (s.push v) ⟨p.lomem + 1, false⟩ (m.setCell p.lomem v) waits :=
  h.append ht v false

/-- Packing the same byte into the last word keeps the memories in agreement. -/
theorem Mirrors.packHigh (h : Mirrors address s p m waits) (hs : s.Placed) (ht : s.Threaded waits)
    (hpacking : s.packing = true) (c : UInt8) :
    Mirrors address (s.packHigh c) ⟨p.lomem, false⟩
      (m.setCell (p.lomem - 1) (.ofBytes (m.cellAt (p.lomem - 1)).low c)) waits := by
  have hlomem := h.lomem_eq
  have hpos := (hs.packed hpacking).1
  have hnat : (s.lomem - 1).toNat = p.lomem - 1 := by omega
  have hfree : ∀ n, p.lomem - 1 ∉ waits n := by
    intro n hmem
    have hne := (ht.below n _ hmem).2 hpacking
    omega
  have hsame := h.settled _ hfree
  simpa only [Assembler.packHigh, hnat, hsame] using
    h.store ⟨p.lomem, false⟩ hfree hlomem (.ofBytes (m.cellAt (p.lomem - 1)).low c) rfl

/-- A word that comes to refer to a label waits where the two-pass assembler stores the
address, or has the address too. -/
theorem Mirrors.refer (h : Mirrors address s p m waits) {n k : Cell} {a : Nat}
    (hlt : a < s.memory.size) (hpos : a ≠ 0) (hfree : ∀ i, a ∉ waits i)
    (hknown : k.toInt < 0 → k = -address n) :
    Mirrors address (s.refer n.toInt k a) p (m.setCell a (address n))
      (Assembler.waitsWith waits n k a) := by
  by_cases hneg : k.toInt < 0
  · have hpointer : Labels.pointer k = address n := by
      rw [Labels.pointer, if_pos hneg, hknown hneg, BitVec.neg_neg]
    have hstore := h.store p hfree h.lomem_eq (address n) h.packing_eq
    simp only [Assembler.refer, hpointer, Assembler.waitsWith, if_pos hneg]
    exact ⟨hstore.lomem_eq, hstore.packing_eq, hstore.size_eq, hstore.settled, hstore.waiting⟩
  · have hself : a ∈ Assembler.waitsWith waits n k a n := by
      simp [Assembler.waitsWith, hneg, hpos]
    have hkept : ∀ i b, b ∈ waits i → b ∈ Assembler.waitsWith waits n k a i := by
      intro i b hb
      simp only [Assembler.waitsWith, if_neg hneg, Function.update_apply, if_neg hpos]
      by_cases hin : i = n
      · rw [if_pos hin]
        exact List.mem_cons_of_mem _ (hin ▸ hb)
      · rw [if_neg hin]
        exact hb
    refine ⟨h.lomem_eq, h.packing_eq, ?_, fun b hb => ?_, fun i b hb => ?_⟩
    · simp only [Assembler.refer, Memory.size_setCell, h.size_eq]
    · have hne : a ≠ b := fun hab => hb n (hab ▸ hself)
      simp only [Assembler.refer]
      rw [Memory.cellAt_setCell_of_ne hne, Memory.cellAt_setCell_of_ne hne]
      exact h.settled b fun i hi => hb i (hkept i b hi)
    · rcases Assembler.of_mem_waitsWith hb with hold | ⟨rfl, rfl⟩
      · have hne : a ≠ b := fun hab => hfree i (hab ▸ hold)
        rw [Memory.cellAt_setCell_of_ne hne, h.waiting i b hold]
      · exact Memory.cellAt_setCell_self (h.size_eq ▸ hlt) _

/-- Once a label is defined, its waiting words agree too. -/
theorem Mirrors.defineHere (h : Mirrors address s p m waits) {n : Cell} {memory : Memory}
    (haddress : address n = Cell.ofInt s.lomem) (hsize : memory.size = s.memory.size)
    (hpatched : ∀ w ∈ waits n, memory.cellAt w = Cell.ofInt s.lomem)
    (hkept : ∀ w ∉ waits n, memory.cellAt w = s.memory.cellAt w) :
    Mirrors address (s.defineHere n.toInt memory) { p with packing := false } m
      (Function.update waits n []) := by
  refine ⟨h.lomem_eq, rfl, hsize.trans h.size_eq, fun a ha => ?_, fun i a ha => ?_⟩
  · change memory.cellAt a = m.cellAt a
    by_cases hmem : a ∈ waits n
    · rw [hpatched a hmem, h.waiting n a hmem, haddress]
    · rw [hkept a hmem]
      refine h.settled a fun i hi => ha i ?_
      have hin : i ≠ n := by
        rintro rfl
        exact hmem hi
      rwa [Function.update_of_ne hin]
  · rw [Function.update_apply] at ha
    split at ha
    · simp at ha
    · exact h.waiting i a ha

end Memories

section Labels

variable {base : Nat} {address : Cell → Cell} {p : Position} {d : Directive}
  {todo : List Directive} {labels : Labels} {waits : Cell → List Nat}

/-- What is left of tidy directives is tidy. -/
theorem Tidy.tail (h : Tidy base (d :: todo)) : Tidy base todo := by
  obtain ⟨hdefined, hreferenced, hdefinitions, htargets, hbounds⟩ := h
  rw [Directive.definitions_cons] at hdefined hdefinitions
  rw [Directive.references_cons] at hreferenced
  rw [Directive.targets_cons] at htargets hbounds
  exact ⟨fun n hn => hdefined n (List.mem_append_right _ hn),
    fun n hn => hreferenced n (List.mem_append_right _ hn), hdefinitions.of_append_right,
    htargets.of_append_right, fun a ha => hbounds a (List.mem_append_right _ ha)⟩

namespace Expects

/-- A directive that defines no label leaves the labels to come as they are. -/
theorem skip (h : Expects base address p (d :: todo) labels waits) (hd : d.definition? = none) :
    Expects base address (p.after d) todo labels waits := by
  have hdefinitions : Directive.definitions (d :: todo) = Directive.definitions todo := by
    rw [Directive.definitions_cons, hd, Option.toList_none, List.nil_append]
  obtain ⟨htidy, haddress, hpromised, hwanted, hknown, huntouched⟩ := h
  rw [hdefinitions] at haddress hpromised hwanted hknown
  refine ⟨htidy.tail, fun n hn => ?_, hpromised, fun n k hentry hk hn => ?_, hknown,
    fun n a ha hmem => ?_⟩
  · have hne : d ≠ .label n := by
      rintro rfl
      cases hd
    rw [haddress n hn, labelAddress, if_neg hne]
  · refine hwanted n k hentry hk ?_
    rw [Directive.references_cons]
    exact List.mem_append_right _ hn
  · refine huntouched n a ha ?_
    rw [Directive.targets_cons]
    exact List.mem_append_right _ hmem

/-- A reference to a label that is defined, or will be, is one more to wait for. -/
theorem refer (h : Expects base address p todo labels waits) {n k : Cell} {a : Nat}
    (hentry : labels.lookup? n.toInt = some k)
    (hwanted : 0 ≤ k.toInt → n ∈ Directive.definitions todo) (ha : a ∉ Directive.targets todo)
    (hlt : a < 32768) :
    Expects base address p todo (labels.note n.toInt k a) (Assembler.waitsWith waits n k a) := by
  have hsign : (Cell.ofInt (a : Int)).toInt = a := Cell.toInt_ofInt (by omega) (by omega)
  -- The entry of a label is negative after the reference exactly when it was so before.
  have hentries : ∀ i k', (labels.note n.toInt k a).lookup? i.toInt = some k' →
      labels.lookup? i.toInt = some k' ∨ i = n ∧ 0 ≤ k.toInt ∧ 0 ≤ k'.toInt := by
    intro i k' hentry'
    simp only [Labels.lookup?_note hentry, BitVec.toInt_inj] at hentry'
    by_cases hin : i = n
    · rw [if_pos hin] at hentry'
      by_cases hneg : k.toInt < 0
      · rw [if_pos hneg] at hentry'
        exact .inl (hin ▸ hentry'.symm ▸ hentry)
      · rw [if_neg hneg] at hentry'
        obtain rfl := Option.some.inj hentry'
        exact .inr ⟨hin, by omega, by omega⟩
    · rw [if_neg hin] at hentry'
      exact .inl hentry'
  refine ⟨h.tidy, h.address_eq, fun i hi => ?_, fun i k' hentry' hk' hmem => ?_,
    fun i k' hentry' hk' => ?_, fun i b hb => ?_⟩
  · by_cases hneg : k.toInt < 0
    · rw [Assembler.waitsWith, if_pos hneg] at hi
      exact h.promised i hi
    · obtain ⟨b, hb⟩ := List.exists_mem_of_ne_nil _ hi
      rcases Assembler.of_mem_waitsWith hb with hold | ⟨rfl, -⟩
      · exact h.promised i (List.ne_nil_of_mem hold)
      · exact hwanted (by omega)
  · rcases hentries i k' hentry' with hold | ⟨rfl, hk, -⟩
    · exact h.wanted i k' hold hk' hmem
    · exact hwanted hk
  · rcases hentries i k' hentry' with hold | ⟨-, -, hnonneg⟩
    · exact h.known i k' hold hk'
    · omega
  · rcases Assembler.of_mem_waitsWith hb with hold | ⟨-, rfl⟩
    · exact h.untouched i b hold
    · exact ha

/-- A label that is defined is known from then on. -/
theorem define {n : Cell} (h : Expects base address p (.label n :: todo) labels waits)
    (hpos : 0 < p.lomem) (hlt : p.lomem < 32768) :
    address n = Cell.ofInt p.lomem ∧
      Expects base address (p.after (.label n)) todo
        (labels.setEntry n.toInt (-Cell.ofInt p.lomem)) (Function.update waits n []) := by
  have hdefinitions : Directive.definitions (.label n :: todo) = n :: Directive.definitions todo :=
    Directive.definitions_cons ..
  have hreferences : Directive.references (.label n :: todo) = Directive.references todo :=
    Directive.references_cons ..
  have htargets : Directive.targets (.label n :: todo) = Directive.targets todo :=
    Directive.targets_cons ..
  have hself : address n = Cell.ofInt p.lomem := by
    rw [h.address_eq n (hdefinitions ▸ List.mem_cons_self), labelAddress, if_pos rfl]
    exact (BitVec.ofInt_natCast 16 p.lomem).symm
  have hnumber := h.tidy.defined_number n (hdefinitions ▸ List.mem_cons_self)
  have hnodup := h.tidy.definitions_nodup
  rw [hdefinitions, List.nodup_cons] at hnodup
  obtain ⟨htidy, haddress, hpromised, hwanted, hknown, huntouched⟩ := h
  rw [hdefinitions] at haddress hpromised hwanted hknown
  rw [hreferences] at hwanted
  rw [htargets] at huntouched
  refine ⟨hself, htidy.tail, fun i hi => ?_, fun i hi => ?_, fun i k hentry hk hmem => ?_,
    fun i k hentry hk => ?_, fun i a ha => ?_⟩
  · have hne : ¬ Directive.label n = .label i := by
      rintro ⟨⟩
      exact hnodup.1 hi
    rw [haddress i (List.mem_cons_of_mem _ hi), labelAddress, if_neg hne]
  · have hin : i ≠ n := by
      rintro rfl
      exact hi (Function.update_self ..)
    rw [Function.update_of_ne hin] at hi
    exact (List.mem_cons.mp (hpromised i hi)).resolve_left hin
  · simp only [Labels.lookup?_setEntry hnumber, BitVec.toInt_inj] at hentry
    by_cases hin : i = n
    · rw [if_pos hin] at hentry
      obtain rfl := Option.some.inj hentry
      rw [Cell.toInt_neg_ofInt (by omega) (by omega)] at hk
      omega
    · rw [if_neg hin] at hentry
      exact (List.mem_cons.mp (hwanted i k hentry hk hmem)).resolve_left hin
  · simp only [Labels.lookup?_setEntry hnumber, BitVec.toInt_inj] at hentry
    by_cases hin : i = n
    · rw [if_pos hin] at hentry
      obtain rfl := Option.some.inj hentry
      exact ⟨by rw [hin, hself], hin ▸ hnodup.1⟩
    · rw [if_neg hin] at hentry
      have hold := hknown i k hentry hk
      exact ⟨hold.1, fun hmem => hold.2 (List.mem_cons_of_mem _ hmem)⟩
  · rw [Function.update_apply] at ha
    split at ha
    · simp at ha
    · exact huntouched i a ha

end Expects

end Labels

section Steps

variable {base : Nat} {address : Cell → Cell} {s : Assembler} {p : Position} {m : Memory}
  {d : Directive} {todo : List Directive} {waits : Cell → List Nat}

namespace InStep

/-- There is room for a word if there is for all that the directive stores. -/
theorem hasRoom (h : InStep base address s p m todo waits)
    (hroom : p.lomem + 1 + labelCount ≤ m.size) : s.HasRoom := by
  have hlomem := h.mirrors.lomem_eq
  have hsize := h.mirrors.size_eq
  unfold Assembler.HasRoom
  omega

/-- A label is defined in step. -/
theorem define {n : Cell} (h : InStep base address s p m (.label n :: todo) waits) :
    ∃ s' waits', Assembler.Step s (.label n) s' ∧
      InStep base address s' (p.after (.label n)) m todo waits' := by
  have hdefined : n ∈ Directive.definitions (.label n :: todo) := by
    rw [Directive.definitions_cons]
    exact List.mem_cons_self
  have hnumber := h.expects.tidy.defined_number n hdefined
  obtain ⟨k, hentry⟩ := (Labels.exists_lookup?_iff s.labels n.toInt).mpr hnumber
  have hnonneg : 0 ≤ k.toInt := by
    by_contra hneg
    exact (h.expects.known n k hentry (by omega)).2 hdefined
  have hlomem := h.mirrors.lomem_eq
  have hpos := h.based.base_pos
  have hle := h.based.base_le
  have hlt := h.based.lomem_lt
  obtain ⟨haddress, hexpects⟩ := h.expects.define (by omega) (by omega)
  rw [← hlomem] at haddress hexpects
  obtain ⟨m', hpatch, hsize, hpatched, hkept⟩ :=
    (h.threaded.chain n k hentry hnonneg).patchChain_eq_ok (Cell.ofInt s.lomem)
  have hstep := Assembler.Step.define hentry hnonneg hpatch
  exact ⟨_, _, hstep, hstep.based h.based, h.threaded.defineHere h.based hnumber hsize hkept,
    h.mirrors.defineHere haddress hsize hpatched hkept, hexpects⟩

/-- A word is appended in step. -/
theorem append (h : InStep base address s p m (d :: todo) waits) (hd : d.definition? = none)
    {v : Cell} {packing : Bool} (hafter : p.after d = ⟨p.lomem + 1, packing⟩)
    (hplace : place address p m d = m.setCell p.lomem v)
    (hstep : Assembler.Step s d { s.push v with packing }) :
    ∃ s' waits', Assembler.Step s d s' ∧
      InStep base address s' (p.after d) (place address p m d) todo waits' := by
  refine ⟨_, waits, hstep, hstep.based h.based, h.threaded.append h.based.nonneg v packing, ?_,
    h.expects.skip hd⟩
  rw [hafter, hplace]
  exact h.mirrors.append h.threaded v packing

/-- A word in the memory comes to refer to a label in step, after words that refer to none
have been appended. -/
theorem refer {s₁ : Assembler} {m₁ : Memory} {n k : Cell} {a : Nat}
    (h : InStep base address s p m (d :: todo) waits) (hd : d.definition? = none)
    (hn : d.reference? = some n) (hbased : s₁.Based base) (hlabels : s₁.labels = s.labels)
    (hmirrors : Mirrors address s₁ (p.after d) m₁ waits)
    (hentry : s.labels.lookup? n.toInt = some k) (hlt : a < s₁.memory.size) (hpos : a ≠ 0)
    (hfree : ∀ i, a ∉ waits i) (ha : a ∉ Directive.targets todo)
    (hthreaded : (s₁.refer n.toInt k a).Threaded (Assembler.waitsWith waits n k a))
    (hplace : place address p m d = m₁.setCell a (address n))
    (hstep : Assembler.Step s d (s₁.refer n.toInt k a)) :
    ∃ s' waits', Assembler.Step s d s' ∧
      InStep base address s' (p.after d) (place address p m d) todo waits' := by
  have hsize := hbased.size_le
  have hskip := h.expects.skip hd
  rw [← hlabels] at hentry hskip
  refine ⟨_, _, hstep, hstep.based h.based, hthreaded, ?_,
    hskip.refer hentry (fun hk => ?_) ha (by omega)⟩
  · rw [hplace]
    exact hmirrors.refer hlt hpos hfree fun hneg => (hskip.known n k hentry hneg).1
  · have hwanted := h.expects.wanted n k (hlabels ▸ hentry) hk
      (by rw [Directive.references_cons, hn]; exact List.mem_cons_self)
    rwa [Directive.definitions_cons, hd] at hwanted

/-- A word of the code is not among the globals to come. -/
theorem not_mem_targets (h : InStep base address s p m (d :: todo) waits) {a : Nat}
    (ha : p.lomem ≤ a) : a ∉ Directive.targets todo := by
  intro hmem
  have hbounds := h.expects.tidy.tail.targets_bounds a hmem
  have hlomem := h.mirrors.lomem_eq
  have hle := h.based.base_le
  omega

/-- A label that a directive refers to has an entry. -/
theorem exists_entry (h : InStep base address s p m (d :: todo) waits) {n : Cell}
    (hn : d.reference? = some n) : ∃ k, s.labels.lookup? n.toInt = some k := by
  refine (Labels.exists_lookup?_iff ..).mpr (h.expects.tidy.referenced_number n ?_)
  rw [Directive.references_cons, hn]
  exact List.mem_cons_self

/-- A word with the address of a label is appended in step, after the words of `s₁`. -/
theorem appendReference {s₁ : Assembler} {m₁ : Memory} {p₁ : Position} {n k : Cell}
    (h : InStep base address s p m (d :: todo) waits) (hd : d.definition? = none)
    (hn : d.reference? = some n) (hbased : s₁.Based base) (hlabels : s₁.labels = s.labels)
    (hthreaded : s₁.Threaded waits) (hmirrors : Mirrors address s₁ p₁ m₁ waits)
    (hle : p.lomem ≤ p₁.lomem) (hroom : s₁.HasRoom) (hentry : s.labels.lookup? n.toInt = some k)
    (hafter : p.after d = ⟨p₁.lomem + 1, false⟩)
    (hplace : place address p m d = m₁.setCell p₁.lomem (address n))
    (hstep : Assembler.Step s d ((s₁.push 0).refer n.toInt k p₁.lomem)) :
    ∃ s' waits', Assembler.Step s d s' ∧
      InStep base address s' (p.after d) (place address p m d) todo waits' := by
  have hlomem := hmirrors.lomem_eq
  have hpos := hbased.base_pos
  have hbase := hbased.base_le
  have hlt := hroom.lt_size
  have hnat : s₁.lomem.toNat = p₁.lomem := by omega
  have hfree := hthreaded.lomem_not_mem hbased.nonneg
  have hbased' : (s₁.push 0).Based base := (Assembler.Step.word hroom).based hbased
  have hnext := hmirrors.push hthreaded 0
  have hthreaded' := hthreaded.appendReference hbased hroom (hlabels ▸ hentry)
  rw [← hafter] at hnext
  rw [hnat] at hfree hthreaded'
  refine h.refer hd hn hbased' hlabels hnext hentry ?_ (by omega) hfree (h.not_mem_targets hle)
    hthreaded' ?_ hstep
  · simp only [Assembler.push, Memory.size_setCell]
    omega
  · rw [hplace, Memory.setCell_setCell]

/-- An instruction is carried out in step. -/
theorem instruction {opcode : Opcode} {marked : Bool} {operand : Operand}
    (h : InStep base address s p m (.instruction opcode marked operand :: todo) waits)
    (hroom : (p.after (.instruction opcode marked operand)).lomem + labelCount ≤ m.size) :
    ∃ s' waits', Assembler.Step s (.instruction opcode marked operand) s' ∧
      InStep base address s' (p.after (.instruction opcode marked operand))
        (place address p m (.instruction opcode marked operand)) todo waits' := by
  have hlomem := h.mirrors.lomem_eq
  have hsize := h.mirrors.size_eq
  have hnonneg := h.based.nonneg
  have hthreaded := h.threaded.push hnonneg opcode.longWord
  have hmirrors := h.mirrors.push h.threaded opcode.longWord
  have hroom' (hlong : p.lomem + 2 + labelCount ≤ m.size) :
      s.HasRoom ∧ (s.push opcode.longWord).HasRoom := by
    refine ⟨h.hasRoom (by omega), ?_⟩
    simp only [Assembler.HasRoom, Assembler.push, Memory.size_setCell]
    omega
  cases operand with
  | number v =>
    by_cases hshort : v.toNat < 256
    · simp only [Position.after, if_pos hshort] at hroom
      exact h.append rfl (by simp only [Position.after, if_pos hshort]) (if_pos hshort)
        (.short hshort (h.hasRoom hroom))
    · simp only [Position.after, if_neg hshort] at hroom
      have hstep : Assembler.Step s (.instruction opcode marked (.number v)) _ :=
        .long hshort (hroom' hroom).1 (hroom' hroom).2
      have hnonneg' : 0 ≤ (s.push opcode.longWord).lomem := by
        simp only [Assembler.push]
        omega
      refine ⟨_, waits, hstep, hstep.based h.based, hthreaded.push hnonneg' v, ?_,
        h.expects.skip rfl⟩
      simp only [Position.after, place, if_neg hshort]
      exact hmirrors.push hthreaded v
  | label n =>
    obtain ⟨k, hentry⟩ := h.exists_entry rfl
    obtain ⟨hfirst, hsecond⟩ := hroom' hroom
    have hstep : Assembler.Step s (.instruction opcode marked (.label n)) _ :=
      .labelOperand hfirst hsecond hentry
    have hnat : (s.lomem + 1).toNat = p.lomem + 1 := by omega
    rw [hnat] at hstep
    have hbased : (s.push opcode.longWord).Based base :=
      (Assembler.Step.word hfirst).based h.based
    exact h.appendReference rfl rfl hbased rfl hthreaded hmirrors (Nat.le_succ _) hsecond hentry
      rfl rfl hstep

/-- A byte is packed in step. -/
theorem byte {v : Cell} (h : InStep base address s p m (.byte v :: todo) waits)
    (hroom : (p.after (.byte v)).lomem + labelCount ≤ m.size) :
    ∃ s' waits', Assembler.Step s (.byte v) s' ∧
      InStep base address s' (p.after (.byte v)) (place address p m (.byte v)) todo waits' := by
  have hpacking := h.mirrors.packing_eq
  by_cases hsecond : s.packing = true
  · have hstep := Assembler.Step.secondByte (v := v) hsecond
    rw [hsecond] at hpacking
    refine ⟨_, waits, hstep, hstep.based h.based,
      h.threaded.packHigh h.based.toPlaced hsecond v.low, ?_, h.expects.skip rfl⟩
    simp only [Position.after, place, ← hpacking, if_true]
    exact h.mirrors.packHigh h.based.toPlaced h.threaded hsecond v.low
  · have hfirst : s.packing = false := by simpa using hsecond
    rw [hfirst] at hpacking
    simp only [Position.after, ← hpacking, Bool.false_eq_true, if_false] at hroom
    exact h.append rfl (by simp only [Position.after, ← hpacking, Bool.false_eq_true, if_false])
      (by simp only [place, ← hpacking, Bool.false_eq_true, if_false])
      (.firstByte hfirst (h.hasRoom hroom))

/-- A global is set in step. -/
theorem global {n l : Cell} (h : InStep base address s p m (.global n l :: todo) waits)
    (hroom : p.lomem + labelCount ≤ m.size) :
    ∃ s' waits', Assembler.Step s (.global n l) s' ∧
      InStep base address s' p (m.setCell n.toNat (address l)) todo waits' := by
  have htargets : Directive.targets (.global n l :: todo) = n.toNat :: Directive.targets todo :=
    Directive.targets_cons ..
  have hnodup := h.expects.tidy.targets_nodup
  have hself : n.toNat ∈ Directive.targets (.global n l :: todo) := htargets ▸ List.mem_cons_self
  rw [htargets, List.nodup_cons] at hnodup
  have hbounds := h.expects.tidy.targets_bounds n.toNat hself
  have hlomem := h.mirrors.lomem_eq
  have hsize := h.mirrors.size_eq
  have hle := h.based.base_le
  have hlt := h.based.base_lt
  obtain ⟨k, hentry⟩ := h.exists_entry rfl
  have hinside : n.toNat < s.memory.size := by omega
  have hfree : ∀ i, n.toNat ∉ waits i := fun i hi => h.expects.untouched i _ hi hself
  refine h.refer rfl rfl h.based rfl h.mirrors hentry hinside (by omega) hfree hnodup.1
    (h.threaded.refer h.based hentry hinside hfree ⟨by omega, fun hpacking => ?_⟩) rfl
    (.global hinside hentry)
  have := hlt hpacking
  omega

/-- Every directive but a segment end is carried out in step. -/
theorem step (h : InStep base address s p m (d :: todo) waits) (hcomplete : d.IsComplete)
    (hend : d ≠ .segmentEnd) (hroom : (p.after d).lomem + labelCount ≤ m.size) :
    ∃ s' waits', Assembler.Step s d s' ∧
      InStep base address s' (p.after d) (place address p m d) todo waits' := by
  cases d with
  | label n => exact h.define
  | instruction opcode marked operand => exact h.instruction hroom
  | byte v => exact h.byte hroom
  | word operand =>
    have hfirst := h.hasRoom hroom
    cases operand with
    | number v => exact h.append rfl rfl rfl (.word hfirst)
    | label n =>
      obtain ⟨k, hentry⟩ := h.exists_entry rfl
      have hstep := Assembler.Step.labelWord hfirst hentry
      have hnat : s.lomem.toNat = p.lomem := by
        have hlomem := h.mirrors.lomem_eq
        omega
      rw [hnat] at hstep
      exact h.appendReference rfl rfl h.based rfl h.threaded h.mirrors (Nat.le_refl _) hfirst hentry
        rfl rfl hstep
  | global n l => exact h.global hroom
  | openGlobal n => exact absurd hcomplete id
  | segmentEnd => exact absurd rfl hend
  | unknown c => exact absurd hcomplete id

/-- At the end of a segment nothing waits, so the memories are equal and no label is
pending. -/
theorem finish (h : InStep base address s p m [] waits) :
    s.memory = m ∧ s.labels.pending? = none := by
  have hnone : ∀ n, waits n = [] := by
    intro n
    by_contra hwaits
    exact List.not_mem_nil (h.expects.promised n hwaits)
  refine ⟨Memory.ext_cellAt h.mirrors.size_eq fun a => ?_, ?_⟩
  · refine h.mirrors.settled a fun n ha => ?_
    rw [hnone n] at ha
    exact List.not_mem_nil ha
  · rw [Labels.pending?_eq_none_iff]
    intro n k hentry
    by_contra hpos
    have hchain := h.threaded.chain n k hentry (by omega)
    rw [hnone] at hchain
    exact hpos (by rw [show k = 0 from hchain]; decide)

/-- The directives of a segment are carried out in step. -/
theorem run (h : InStep base address s p m todo waits) (hcomplete : ∀ d ∈ todo, d.IsComplete)
    (hend : .segmentEnd ∉ todo) (hroom : (p.afterAll todo).lomem + labelCount ≤ m.size) :
    ∃ s' waits', Assembler.emitAll todo s = .ok () s' ∧
      InStep base address s' (p.afterAll todo) (placeAll address p m todo) [] waits' := by
  induction todo generalizing s p m waits with
  | nil => exact ⟨s, waits, rfl, h⟩
  | cons d todo ih =>
    rw [List.mem_cons, not_or] at hend
    have hle := (p.after d).lomem_le_afterAll todo
    have hafter : p.afterAll (d :: todo) = (p.after d).afterAll todo := rfl
    rw [hafter] at hroom ⊢
    obtain ⟨s₁, waits₁, hstep, hnext⟩ :=
      h.step (hcomplete d List.mem_cons_self) (Ne.symm hend.1) (by omega)
    obtain ⟨s', waits', hrun, hlast⟩ :=
      ih hnext (fun d' hd' => hcomplete d' (List.mem_cons_of_mem _ hd')) hend.2
        (by rw [size_place]; exact hroom)
    exact ⟨s', waits', (Assembler.emitAll_cons_eq_ok_iff h.based.toPlaced).mpr ⟨s₁, hstep, hrun⟩,
      hlast⟩

end InStep

end Steps

section Segments

variable {base lomem : Nat} {s : Assembler}

/-- At the start of a segment the assemblers are in step. -/
theorem inStep_fresh {seg : List Directive} (hs : s.fresh.Based base) (hlomem : s.lomem = lomem)
    (hseg : WellFormed base seg) :
    InStep base (fun n => Cell.ofNat (labelAddress n ⟨lomem, false⟩ seg)) s.fresh ⟨lomem, false⟩
      s.memory seg fun _ => [] where
  based := hs
  threaded := .of_fresh s
  mirrors := ⟨hlomem, rfl, rfl, fun _ _ => rfl, by simp⟩
  expects := by
    refine ⟨hseg.toTidy, fun _ _ => rfl, by simp, fun n _ _ _ hn => hseg.defined n hn, ?_, by simp⟩
    intro n k hentry hneg
    simp only [Assembler.fresh, Labels.lookup?_blank] at hentry
    split at hentry
    · obtain rfl := Option.some.inj hentry
      exact absurd hneg (by decide)
    · cases hentry

/-- The assembler stores for a segment what the two-pass assembler stores. -/
theorem emitAll_segment {seg : List Directive} (hs : s.fresh.Based base) (hlomem : s.lomem = lomem)
    (hseg : WellFormed base seg) (hcomplete : ∀ d ∈ seg, d.IsComplete)
    (hend : .segmentEnd ∉ seg)
    (hroom : (Position.afterAll ⟨lomem, false⟩ seg).lomem + labelCount ≤ s.memory.size) :
    ∃ s', Assembler.emitAll seg s.fresh = .ok () s' ∧
      s'.memory = assembleSegment ⟨lomem, false⟩ s.memory seg ∧
      s'.lomem = (Position.afterAll ⟨lomem, false⟩ seg).lomem ∧
      s'.labels.pending? = none ∧ s'.Based base := by
  obtain ⟨s', waits, hrun, hlast⟩ :=
    (inStep_fresh hs hlomem hseg).run hcomplete hend hroom
  obtain ⟨hmemory, hpending⟩ := hlast.finish
  exact ⟨s', hrun, hmemory, hlast.mirrors.lomem_eq, hpending, hlast.based⟩

/-- The assembler stores for directives what the two-pass assembler stores. -/
theorem emitAll_eq_assemble (ds : List Directive) (hs : s.fresh.Based base)
    (hlomem : s.lomem = lomem) (hsegments : ∀ seg ∈ Directive.segments ds, WellFormed base seg)
    (hcomplete : ∀ d ∈ ds, d.IsComplete)
    (hroom : (assemble lomem s.memory ds).lomem + labelCount ≤ s.memory.size) :
    ∃ s', Assembler.emitAll ds s.fresh = .ok () s' ∧
      s'.memory = (assemble lomem s.memory ds).memory ∧
      s'.lomem = (assemble lomem s.memory ds).lomem := by
  induction ds using Directive.segments_induction generalizing s lomem with
  | last seg hend =>
    have hassemble : assemble lomem s.memory seg =
        ⟨assembleSegment ⟨lomem, false⟩ s.memory seg,
          (Position.afterAll ⟨lomem, false⟩ seg).lomem⟩ := by
      rw [assemble, Directive.segments_of_not_mem hend]
      rfl
    rw [hassemble] at hroom ⊢
    have hseg := hsegments seg (Directive.segments_of_not_mem hend ▸ List.mem_singleton_self seg)
    obtain ⟨s', hrun, hmemory, hlast, -⟩ := emitAll_segment hs hlomem hseg hcomplete hend hroom
    exact ⟨s', hrun, hmemory, hlast⟩
  | next seg rest hend ih =>
    have hsplit := Directive.segments_append_cons hend rest
    have hassemble : assemble lomem s.memory (seg ++ .segmentEnd :: rest) =
        assemble (Position.afterAll ⟨lomem, false⟩ seg).lomem
          (assembleSegment ⟨lomem, false⟩ s.memory seg) rest := by
      rw [assemble, hsplit]
      rfl
    rw [hassemble] at hroom ⊢
    have hle : (Position.afterAll ⟨lomem, false⟩ seg).lomem ≤ (assemble _ _ rest).lomem :=
      le_lomem_assembleSegments _ (assembleSegment ⟨lomem, false⟩ s.memory seg) _
    obtain ⟨s₁, hrun, hmemory, hlomem₁, hpending, hbased⟩ :=
      emitAll_segment hs hlomem (hsegments seg (hsplit ▸ List.mem_cons_self))
        (fun d hd => hcomplete d (List.mem_append_left _ hd)) hend (by omega)
    have hstep := Assembler.Step.segmentEnd hpending
    have hsize : s₁.memory.size = s.memory.size := hmemory ▸ size_placeAll ..
    rw [← hmemory, ← hsize] at hroom
    obtain ⟨s', hrest, hmemory', hlomem'⟩ := ih (hstep.based hbased) hlomem₁
      (fun seg' hseg' => hsegments seg' (hsplit ▸ List.mem_cons_of_mem _ hseg'))
      (fun d hd => hcomplete d (List.mem_append_right _ (List.mem_cons_of_mem _ hd))) hroom
    rw [hmemory] at hmemory' hlomem'
    exact ⟨s', Assembler.emitAll_append_eq_ok_iff.mpr ⟨s₁, hrun,
      (Assembler.emitAll_cons_eq_ok_iff hbased.toPlaced).mpr ⟨_, hstep, hrest⟩⟩, hmemory', hlomem'⟩

/-- A text that spells well-formed segments is accepted, and the memory and the end of the code
are those of the two-pass assembler. -/
theorem assemble_text_eq_twoPass {ds : List Directive} {t : Text} (hsize : s.memory.size ≤ 32768)
    (hlomem : 401 ≤ s.lomem) (ht : Directive.WrittenAll ds t)
    (hsegments : ∀ seg ∈ Directive.segments ds, WellFormed s.lomem.toNat seg)
    (hroom : (assemble s.lomem.toNat s.memory ds).lomem + labelCount ≤ s.memory.size) :
    ∃ s', Assembler.assemble t none s = .ok () s' ∧
      s'.memory = (assemble s.lomem.toNat s.memory ds).memory ∧
      s'.lomem = (assemble s.lomem.toNat s.memory ds).lomem := by
  have hle := le_lomem_assembleSegments s.lomem.toNat s.memory (Directive.segments ds)
  have hnat : s.lomem = (s.lomem.toNat : Int) := by omega
  have hbased : s.fresh.Based s.lomem.toNat := by
    refine Assembler.based_fresh (by omega) ?_ hsize
    have hcount : labelCount = 500 := rfl
    unfold assemble at hroom
    omega
  obtain ⟨s', hrun, hmemory, hlast⟩ :=
    emitAll_eq_assemble ds hbased hnat hsegments ht.isComplete hroom
  refine ⟨s', ?_, hmemory, hlast⟩
  rw [Assembler.assemble_eq_ok_iff, ht.parseAll]
  exact ⟨rfl, hrun⟩

end Segments

/-- A program of two segments with forward and backward references, a global and packed bytes. -/
def twoSegments : List Directive :=
  [.global 10 1, .instruction ⟨.jump, false, false⟩ false (.label 2), .label 1, .byte 65, .byte 66,
    .byte 67, .label 2, .instruction ⟨.store, true, false⟩ true (.label 1), .segmentEnd,
    .word (.label 1), .label 1, .instruction ⟨.load, false, true⟩ false (.number 300)]

/-- The program of two segments gets its final words in one pass. -/
theorem assemble_twoSegments :
    ∃ s', Assembler.assemble
        (Text.ofAscii "G10L1 JL2 1 C65 C66 C67 2 SIGL1 Z DL1 1 LP300 ") none
        { memory := .blank 1000, lomem := 401 } = .ok () s' ∧
      s'.lomem = 410 ∧ s'.memory.cellAt 10 = 403 ∧ s'.memory.cellAt 402 = 405 := by
  have hlabels : ((Directive.definitions twoSegments).all fun n => 0 ≤ n.toInt) = true := by decide
  have hwritten : Directive.WrittenAll twoSegments
      (Text.ofAscii "G10L1 JL2 1 C65 C66 C67 2 SIGL1 Z DL1 1 LP300 ") :=
    Directive.writtenAll_render (by simp [twoSegments, Directive.IsComplete]) fun n hn =>
      of_decide_eq_true (List.all_eq_true.mp hlabels n hn)
  have hsize : (Memory.blank 1000).size = 1000 := Memory.size_blank (by decide)
  obtain ⟨s', hrun, hmemory, hlomem⟩ := assemble_text_eq_twoPass
    (s := { memory := .blank 1000, lomem := 401 }) (by rw [hsize]; decide) (by decide) hwritten
    (by decide) (by rw [hsize]; decide)
  refine ⟨s', hrun, ?_, ?_, ?_⟩
  · rw [hlomem]
    decide
  · rw [hmemory]
    decide +kernel
  · rw [hmemory]
    decide +kernel

end Intcode.TwoPass
