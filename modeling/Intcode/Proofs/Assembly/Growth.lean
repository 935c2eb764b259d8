import Intcode.Proofs.Assembly.Sources

/-!
# Growth of the code and packed bytes

The assembler may stop anywhere: at the end of the text, at an error, in the middle of
a directive. Here a directive is taken apart into the operations that it consists of,
and the points of a run are the states between them. At every point the code ends
between its start and the words that are kept free. A byte waits for its neighbour
only in the last word, and only if a byte directive has started that word and nothing
but globals has come since.

Main statement: this holds at every point of a run, whatever its outcome, and so a
packed byte never lands in a word that another kind of directive has appended or that
was there before.
-/

namespace Intcode

/-- Whether a directive is a global. -/
def Directive.IsGlobal : Directive → Prop
  | .global _ _ => True
  | _ => False

namespace Assembler

open Incremental (referLast clearGlobal)

/-- The byte of the last word that the next packed byte goes to, or zero if it starts a new word. -/
def position (s : Assembler) : Nat := if s.packing then 1 else 0

/-- Appends a word for the next packed byte, unless the last word waits for it. -/
def startByte : Action Assembler Unit := do
  if !(← get).packing then append 0

/-- Stores a byte at the packing position of the last word, and moves the position on. -/
def storeByte (c : UInt8) : Action Assembler Unit := do
  let s ← get
  onMemory (Memory.setByte (wrap (2 * (s.lomem - 1) + s.position)) c)
  modify fun s => { s with packing := !s.packing }

/-- The operations that a directive consists of. -/
def operations : Directive → List (Action Assembler Unit)
  | .label n => [do define n.toInt (← get).lomem, endPacking]
  | .instruction opcode _ (.label n) => [append opcode.longWord, append 0, referLast n]
  | .instruction opcode _ (.number v) =>
    if v.toNat < 256 then [append (opcode.shortWord v)] else [append opcode.longWord, append v]
  | .byte v => [startByte, storeByte v.low]
  | .word (.label n) => [append 0, referLast n]
  | .word (.number v) => [append v]
  | .global n label => [clearGlobal n, reference label.toInt n.address]
  | .openGlobal _ => [failHere]
  | .segmentEnd => [checkResolved, resetLabels, endPacking]
  | .unknown c => [Action.fail (.fatal .badCharacter c.toNat)]

/-- Carries out operations in order. -/
def perform : List (Action Assembler Unit) → Action Assembler Unit
  | [] => pure ()
  | x :: xs => do
    x
    perform xs

/-- `Passes s begun p` says that a run from `s` comes by `p` once it has begun the directives
`begun`: all of them but the last have been carried out, and of the last one some operations. -/
inductive Passes (s : Assembler) : List Directive → Assembler → Prop
  | start : Passes s [] s
  | within {done : List Directive} {s₁ : Assembler} (hdone : emitAll done s = .ok () s₁)
      (d : Directive) (k : Nat) :
      Passes s (done ++ [d]) ((perform ((operations d).take k)).final s₁)

/-- A word has been appended by a directive in the course of a run. -/
def Appended (s : Assembler) (ds : List Directive) (d : Directive) (w : Nat) : Prop :=
  ∃ before after s₁ s₂, ds = before ++ d :: after ∧ emitAll before s = .ok () s₁ ∧
    emit d s₁ = .ok () s₂ ∧ s₁.lomem ≤ w ∧ (w : Int) < s₂.lomem

/-- The number of bytes since the last directive that ends a run of packed bytes. Globals do not. -/
def bytesInRun (ds : List Directive) : Nat :=
  ds.foldl (fun n d => match d with
    | .byte _ => n + 1
    | .global _ _ => n
    | _ => 0) 0

/-- `StartedByByte s ds since p` says that in a run of `ds` from `s` a byte directive has started
the last word of `p`, where no byte waited, and that `since` are the directives after it. -/
def StartedByByte (s : Assembler) (ds since : List Directive) (p : Assembler) : Prop :=
  ∃ before v s₁ s₂, ds = before ++ .byte v :: since ∧ emitAll before s = .ok () s₁ ∧
    s₁.packing = false ∧ emit (.byte v) s₁ = .ok () s₂ ∧
    s₂.lomem = s₁.lomem + 1 ∧ p.lomem = s₂.lomem

/-- The end of the words that no packed byte goes to any more. -/
def settled (s : Assembler) : Int := s.lomem - s.position

section Operations

/-- After a word has been appended no byte waits. -/
theorem packing_of_append {s s' : Assembler} {w : Cell} (h : append w s = .ok () s') :
    s'.packing = false := by
  simp only [append, Action.bind_apply, Action.get_apply] at h
  split at h
  · cases h
  · simp only [Action.bind_apply, onMemory_apply] at h
    cases hset : Memory.setWord s.lomem w s.memory with
    | ok u memory =>
      simp only [hset, Action.modify_apply] at h
      cases h
      rfl
    | error e memory =>
      simp only [hset] at h
      cases h

/-- A byte is stored at the packing position, which moves on. -/
theorem storeByte_apply (c : UInt8) (s : Assembler) :
    storeByte c s =
      match Memory.setByte (wrap (2 * (s.lomem - 1) + s.position)) c s.memory with
      | .ok _ memory => .ok () { s with memory, packing := !s.packing }
      | .error e memory => .error e { s with memory } := by
  simp only [storeByte, Action.bind_apply, Action.get_apply, onMemory_apply]
  cases Memory.setByte (wrap (2 * (s.lomem - 1) + s.position)) c s.memory <;> rfl

/-- Appending a byte is making room for it and storing it. -/
theorem appendByte_eq_bind (c : UInt8) : appendByte c = (do startByte; storeByte c) := by
  funext s
  simp only [appendByte, startByte, Action.bind_apply, Action.get_apply]
  cases hpacking : s.packing with
  | true =>
    have hposition : (s.position : Int) = 1 := by rw [position, hpacking]; rfl
    simp only [Bool.not_true, Bool.false_eq_true, if_false, if_true, Action.pure_apply,
      Action.bind_apply, Action.get_apply, onMemory_apply, storeByte_apply, hposition, hpacking]
    cases Memory.setByte (wrap (2 * (s.lomem - 1) + 1)) c s.memory <;> rfl
  | false =>
    simp only [Bool.not_false, Bool.false_eq_true, if_false, if_true, Action.bind_apply]
    cases happend : append 0 s with
    | error e s' => rfl
    | ok u s' =>
      have hnone := packing_of_append happend
      have hposition : (s'.position : Int) = 0 := by rw [position, hnone]; rfl
      simp only [Action.get_apply, onMemory_apply, storeByte_apply, hposition, hnone]
      cases Memory.setByte (wrap (2 * (s'.lomem - 1) + 0)) c s'.memory <;> rfl

/-- A directive does what its operations do. -/
theorem emit_eq_perform (d : Directive) : emit d = perform (operations d) := by
  cases d with
  | label n => simp only [emit, operations, perform, bind_pure_unit, bind_assoc]
  | instruction opcode marked operand =>
    cases operand with
    | number v =>
      simp only [emit, operations]
      split <;> simp only [perform, bind_pure_unit]
    | label n => simp only [emit, operations, perform, bind_pure_unit, appendReference, referLast]
  | byte v => simp only [emit, operations, perform, bind_pure_unit, appendByte_eq_bind]
  | word operand =>
    cases operand with
    | number v => simp only [emit, operations, perform, bind_pure_unit]
    | label n => simp only [emit, operations, perform, bind_pure_unit, appendReference, referLast]
  | «global» n l => simp only [operations, perform, bind_pure_unit, Incremental.clearGlobal_bind]
  | openGlobal n => simp only [emit, operations, perform, bind_pure_unit]
  | segmentEnd => simp only [emit, operations, perform, bind_pure_unit]
  | unknown c => simp only [emit, operations, perform, bind_pure_unit]

end Operations

section Growth

open Action (Stays)

variable {α : Type}

/-- The end of the code moves on, but not into the words that are kept free. -/
structure Grows (s s' : Assembler) : Prop where
  size : s'.memory.size = s.memory.size
  le : s.lomem ≤ s'.lomem
  bounded : s'.lomem ≤ max s.lomem (s.memory.size - labelCount)

/-- The code grows, and a byte that waits after it has waited before, with nothing appended. -/
structure Proceeds (s s' : Assembler) : Prop extends Grows s s' where
  waiting : s'.packing = true → s.packing = true ∧ s'.lomem = s.lomem

/-- Where the code ends as before it has grown. -/
theorem Grows.of_eq {s s' : Assembler} (hsize : s'.memory.size = s.memory.size)
    (hlomem : s'.lomem = s.lomem) : Grows s s' :=
  ⟨hsize, by omega, by omega⟩

instance : Std.Refl Grows := ⟨fun _ => .of_eq rfl rfl⟩

instance : Trans Grows Grows Grows where
  trans h h' := by
    have hsize := h.size
    have hle := h.le
    have hbounded := h.bounded
    have hle' := h'.le
    have hbounded' := h'.bounded
    exact ⟨h'.size.trans hsize, by omega, by omega⟩

instance : Std.Refl Proceeds := ⟨fun s => ⟨Std.Refl.refl s, fun h => ⟨h, rfl⟩⟩⟩

instance : Trans Proceeds Proceeds Proceeds where
  trans h h' := by
    refine ⟨Trans.trans h.toGrows h'.toGrows, fun hwaits => ?_⟩
    obtain ⟨hwaits', hsame'⟩ := h'.waiting hwaits
    obtain ⟨hwaits, hsame⟩ := h.waiting hwaits'
    exact ⟨hwaits, hsame'.trans hsame⟩

/-- A walk along a chain leaves the number of cells alone. -/
theorem sameSize_patchChain (v : Cell) (n : Nat) (k : Cell) :
    Stays Memory.SameSize (Labels.patchChain v n k) := by
  induction n generalizing k with
  | zero =>
    unfold Labels.patchChain
    split
    · exact Action.stays_pure _
    · exact Action.stays_throw _
  | succ n ih =>
    unfold Labels.patchChain
    split
    · exact Action.stays_pure _
    · exact (Action.stays_read _).bind fun next =>
        (Memory.sameSize_setWord _ _).bind fun _ => ih next

/-- A change of the memory alone appends nothing. -/
theorem proceeds_onMemory {x : Action Memory α} (hx : Stays Memory.SameSize x) :
    Stays Proceeds (onMemory x) := by
  intro s
  have hsize := hx s.memory
  rw [Action.final] at hsize ⊢
  rw [onMemory_apply]
  cases hrun : x s.memory with
  | ok a memory =>
    rw [hrun] at hsize
    exact ⟨.of_eq hsize rfl, fun h => ⟨h, rfl⟩⟩
  | error e memory =>
    rw [hrun] at hsize
    exact ⟨.of_eq hsize rfl, fun h => ⟨h, rfl⟩⟩

/-- A change of the label table alone appends nothing. -/
theorem proceeds_modifyLabels (f : Assembler → Labels) :
    Stays Proceeds (modify fun s => { s with labels := f s } : Action Assembler PUnit) :=
  Action.stays_modify fun _ => ⟨.of_eq rfl rfl, fun h => ⟨h, rfl⟩⟩

/-- The end of a run of packed bytes appends nothing. -/
theorem proceeds_endPacking : Stays Proceeds endPacking :=
  Action.stays_modify fun _ => ⟨.of_eq rfl rfl, fun h => by cases h⟩

/-- A failure appends nothing. -/
theorem proceeds_failHere : Stays Proceeds failHere :=
  Action.stays_get_bind fun _ => Action.stays_throw _

/-- A word is appended in front of the words that are kept free, and no byte waits after it. -/
theorem proceeds_append (w : Cell) : Stays Proceeds (append w) := by
  intro s
  rw [Action.final]
  simp only [append, Action.bind_apply, Action.get_apply]
  by_cases hfull : s.memory.size - (labelCount : Int) ≤ s.lomem
  · rw [if_pos hfull]
    exact proceeds_failHere s
  · rw [if_neg hfull]
    have hstore := proceeds_onMemory (Memory.sameSize_setWord s.lomem w) s
    rw [Action.final] at hstore
    rw [Action.bind_apply]
    cases hset : onMemory (Memory.setWord s.lomem w) s with
    | error e s' =>
      rw [hset] at hstore
      exact hstore
    | ok u s' =>
      rw [hset] at hstore
      have hsize := hstore.size
      have hsame : s'.lomem = s.lomem := by
        rw [onMemory_apply] at hset
        split at hset <;> cases hset
        rfl
      refine ⟨⟨hsize, ?_, ?_⟩, fun h => by cases h⟩
      · simp only [Action.modify_apply, Action.stateOf_ok]
        omega
      · simp only [Action.modify_apply, Action.stateOf_ok]
        omega

/-- A reference to a label appends nothing. -/
theorem proceeds_reference (n patch : Int) : Stays Proceeds (reference n patch) := by
  refine Action.stays_get_bind fun s => ?_
  cases s.labels.lookup? n with
  | none => exact Action.stays_throw _
  | some k =>
    have hstore : Stays Proceeds (onMemory do
        let w ← Action.read (·.word patch)
        Memory.setWord patch (w + if k.toInt < 0 then -k else k)) :=
      proceeds_onMemory ((Action.stays_read _).bind fun _ => Memory.sameSize_setWord _ _)
    change Stays Proceeds (if 0 ≤ k.toInt then _ else _)
    split
    · exact (proceeds_modifyLabels _).bind fun _ => hstore
    · exact hstore

/-- The definition of a label appends nothing. -/
theorem proceeds_define (n addr : Int) : Stays Proceeds (define n addr) := by
  refine Action.stays_get_bind fun s => ?_
  cases s.labels.lookup? n with
  | none => exact Action.stays_throw _
  | some k =>
    change Stays Proceeds (if k.toInt < 0 then _ else _)
    split
    · exact Action.stays_throw _
    · exact (proceeds_onMemory (sameSize_patchChain _ _ _)).bind fun _ => proceeds_modifyLabels _

/-- The operations of a directive other than a byte let no byte wait. -/
theorem proceeds_of_mem {d : Directive} (hd : ∀ v, d ≠ .byte v) {x : Action Assembler Unit}
    (hx : x ∈ operations d) : Stays Proceeds x := by
  have hreferLast (n : Cell) : Stays Proceeds (referLast n) :=
    Action.stays_get_bind fun _ => proceeds_reference _ _
  cases d with
  | label n =>
    simp only [operations, List.mem_cons, List.not_mem_nil, or_false] at hx
    rcases hx with rfl | rfl
    · exact Action.stays_get_bind fun _ => proceeds_define _ _
    · exact proceeds_endPacking
  | instruction opcode marked operand =>
    cases operand with
    | number v =>
      simp only [operations] at hx
      split at hx
      · obtain rfl := List.mem_singleton.mp hx
        exact proceeds_append _
      · simp only [List.mem_cons, List.not_mem_nil, or_false] at hx
        rcases hx with rfl | rfl <;> exact proceeds_append _
    | label n =>
      simp only [operations, List.mem_cons, List.not_mem_nil, or_false] at hx
      rcases hx with rfl | rfl | rfl
      · exact proceeds_append _
      · exact proceeds_append _
      · exact hreferLast n
  | byte v => exact absurd rfl (hd v)
  | word operand =>
    cases operand with
    | number v =>
      obtain rfl := List.mem_singleton.mp hx
      exact proceeds_append _
    | label n =>
      simp only [operations, List.mem_cons, List.not_mem_nil, or_false] at hx
      rcases hx with rfl | rfl
      · exact proceeds_append _
      · exact hreferLast n
  | «global» n l =>
    simp only [operations, List.mem_cons, List.not_mem_nil, or_false] at hx
    rcases hx with rfl | rfl
    · refine Action.stays_get_bind fun s => ?_
      split
      · exact proceeds_failHere
      · exact proceeds_onMemory (Memory.sameSize_setWord _ _)
    · exact proceeds_reference _ _
  | openGlobal n =>
    obtain rfl := List.mem_singleton.mp hx
    exact proceeds_failHere
  | segmentEnd =>
    simp only [operations, List.mem_cons, List.not_mem_nil, or_false] at hx
    rcases hx with rfl | rfl | rfl
    · refine Action.stays_get_bind fun s => ?_
      cases s.labels.pending? with
      | some n => exact Action.stays_throw _
      | none => exact Action.stays_pure _
    · exact proceeds_modifyLabels fun _ => .blank
    · exact proceeds_endPacking
  | unknown c =>
    obtain rfl := List.mem_singleton.mp hx
    exact Action.stays_throw _

/-- Room for a byte is made by appending a word, or it is there. -/
theorem proceeds_startByte : Stays Proceeds startByte := by
  refine Action.stays_get_bind fun s => ?_
  split
  · exact proceeds_append 0
  · exact Action.stays_pure _

/-- A stored byte appends nothing. -/
theorem grows_storeByte (c : UInt8) : Stays Grows (storeByte c) :=
  Action.stays_get_bind fun _ =>
    Stays.bind (fun s => (proceeds_onMemory (Memory.sameSize_setByte _ c) s).toGrows) fun _ =>
      Action.stays_modify fun _ => .of_eq rfl rfl

/-- The code grows with every operation. -/
theorem grows_of_mem {d : Directive} {x : Action Assembler Unit} (hx : x ∈ operations d) :
    Stays Grows x := by
  by_cases hbyte : ∃ v, d = .byte v
  · obtain ⟨v, rfl⟩ := hbyte
    simp only [operations, List.mem_cons, List.not_mem_nil, or_false] at hx
    rcases hx with rfl | rfl
    · exact fun s => (proceeds_startByte s).toGrows
    · exact grows_storeByte _
  · exact fun s => (proceeds_of_mem (fun v hd => hbyte ⟨v, hd⟩) hx s).toGrows

/-- Operations lead where each of them leads. -/
theorem stays_perform {R : Assembler → Assembler → Prop} [Std.Refl R] [Trans R R R]
    {xs : List (Action Assembler Unit)} (h : ∀ x ∈ xs, Stays R x) : Stays R (perform xs) := by
  induction xs with
  | nil => exact Action.stays_pure ()
  | cons x xs ih =>
    obtain ⟨hfirst, hrest⟩ := List.forall_mem_cons.mp h
    exact hfirst.bind fun _ => ih hrest

/-- The code grows with every directive, finished or not. -/
theorem grows_take (d : Directive) (k : Nat) : Stays Grows (perform ((operations d).take k)) :=
  stays_perform fun _ hx => grows_of_mem (List.mem_of_mem_take hx)

/-- A directive other than a byte lets no byte wait, finished or not. -/
theorem proceeds_take {d : Directive} (hd : ∀ v, d ≠ .byte v) (k : Nat) :
    Stays Proceeds (perform ((operations d).take k)) :=
  stays_perform fun _ hx => proceeds_of_mem hd (List.mem_of_mem_take hx)

/-- The code grows in every run. -/
theorem grows_emitAll (ds : List Directive) : Stays Grows (emitAll ds) := by
  induction ds with
  | nil => exact Action.stays_pure ()
  | cons d ds ih =>
    have hfirst : Stays Grows (emit d) := by
      rw [emit_eq_perform]
      exact stays_perform fun _ hx => grows_of_mem hx
    exact hfirst.bind fun _ => ih

end Growth

section Packing

variable {s s' : Assembler} {d : Directive} {ds : List Directive}

/-- A byte waits exactly when the packing position is one. -/
theorem position_eq_one_iff : s.position = 1 ↔ s.packing = true := by
  cases h : s.packing <;> simp [position, h]

/-- There are two packing positions. -/
theorem position_le_one (s : Assembler) : s.position ≤ 1 := by
  unfold position
  split <;> decide

/-- A byte moves the packing position on, a global keeps it, and all else sets it back. -/
theorem Step.position_eq (h : Step s d s') :
    s'.position = match d with
      | .byte _ => 1 - s.position
      | .global _ _ => s.position
      | _ => 0 := by
  cases h with
  | firstByte hpacking => simp [position, hpacking]
  | secondByte hpacking => simp [position, packHigh, hpacking]
  | _ => rfl

/-- A byte that waits after a directive is that directive, or it waited before a global. -/
theorem Step.waiting (h : Step s d s') (hwaits : s'.packing = true) :
    (∃ v, d = .byte v ∧ s.packing = false ∧ s'.lomem = s.lomem + 1) ∨
      d.IsGlobal ∧ s.packing = true ∧ s'.lomem = s.lomem := by
  cases h with
  | firstByte hpacking => exact .inl ⟨_, rfl, hpacking, rfl⟩
  | global => exact .inr ⟨trivial, hwaits, rfl⟩
  | _ => cases hwaits

/-- After a run the packing position is the parity of the bytes since it was last set back. -/
theorem position_of_emitAll (hs : s.Placed) (hstart : s.packing = false)
    (h : emitAll ds s = .ok () s') : s'.position = bytesInRun ds % 2 := by
  induction ds using List.reverseRecOn generalizing s' with
  | nil =>
    cases h
    simp [position, hstart, bytesInRun]
  | append_singleton ds d ih =>
    obtain ⟨s₁, hrun, hstep⟩ := (emitAll_append_singleton_eq_ok_iff hs).mp h
    rw [hstep.position_eq, ih hrun, bytesInRun, bytesInRun, List.foldl_append]
    simp only [List.foldl_cons, List.foldl_nil]
    cases d <;> simp only [Nat.zero_mod]
    omega

/-- A byte that waits after a run has started the last word, and only globals have come since. -/
theorem startedByByte_of_emitAll (hs : s.Placed) (hstart : s.packing = false)
    (h : emitAll ds s = .ok () s') (hwaits : s'.packing = true) :
    ∃ globals, (∀ d ∈ globals, d.IsGlobal) ∧ StartedByByte s ds globals s' := by
  induction ds using List.reverseRecOn generalizing s' with
  | nil =>
    cases h
    rw [hstart] at hwaits
    cases hwaits
  | append_singleton ds d ih =>
    obtain ⟨s₁, hrun, hstep⟩ := (emitAll_append_singleton_eq_ok_iff hs).mp h
    rcases hstep.waiting hwaits with ⟨v, rfl, hnone, hlomem⟩ | ⟨hglobal, hwaits₁, hlomem⟩
    · have hemit := hstep.emit_eq (placed_of_emitAll hs hrun)
      exact ⟨[], by simp, ds, v, s₁, s', rfl, hrun, hnone, hemit, hlomem, rfl⟩
    · obtain ⟨globals, hglobals, before, v, t₁, t₂, rfl, hbefore, hnone, hemit, hnext, hlast⟩ :=
        ih hrun hwaits₁
      refine ⟨globals ++ [d], ?_, before, v, t₁, t₂, by simp, hbefore, hnone, hemit, hnext,
        hlomem.trans hlast⟩
      intro d' hd'
      rcases List.mem_append.mp hd' with hd' | hd'
      · exact hglobals d' hd'
      · exact List.mem_singleton.mp hd' ▸ hglobal

/-- No directive gives a word back to the packing of bytes. -/
theorem Step.settled_le (h : Step s d s') : s.settled ≤ s'.settled := by
  have hposition := h.position_eq
  have hlomem := h.lomem_le
  have hle := position_le_one s'
  unfold settled
  cases h with
  | firstByte hpacking =>
    simp only [push] at hle ⊢
    omega
  | secondByte hpacking =>
    have hone := position_eq_one_iff.mpr hpacking
    simp only at hposition
    omega
  | global => exact Int.le_refl _
  | _ =>
    simp only at hposition
    omega

/-- A run gives no word back to the packing of bytes. -/
theorem settled_le_of_emitAll (hs : s.Placed) (h : emitAll ds s = .ok () s') :
    s.settled ≤ s'.settled :=
  emitAll_preserves (P := fun s₁ => s.settled ≤ s₁.settled) hs h
    (fun _ _ _ _ hstep hle => hle.trans hstep.settled_le) le_rfl

/-- A word that a directive other than a byte appends is settled at once. -/
theorem Step.lt_settled (h : Step s d s') (hd : ∀ v, d ≠ .byte v) {w : Nat} (hlow : s.lomem ≤ w)
    (hhigh : (w : Int) < s'.lomem) : (w : Int) < s'.settled := by
  have hposition := h.position_eq
  unfold settled
  cases h with
  | firstByte | secondByte => exact absurd rfl (hd _)
  | global =>
    simp only [refer] at hhigh
    omega
  | _ =>
    simp only at hposition
    omega

/-- The words that other directives than bytes have appended are settled. -/
theorem lt_settled_of_appended (hs : s.Placed) (hrun : emitAll ds s = .ok () s')
    (hd : ∀ v, d ≠ .byte v) {w : Nat} (hw : Appended s ds d w) : (w : Int) < s'.settled := by
  obtain ⟨before, after, s₁, s₂, rfl, hbefore, hemit, hlow, hhigh⟩ := hw
  have hplaced := placed_of_emitAll hs hbefore
  have hstep := (emit_eq_ok_iff hplaced).mp hemit
  have hafter := (emitAll_split_eq_ok_iff hs hbefore hstep).mp hrun
  have hle := settled_le_of_emitAll (hstep.placed hplaced) hafter
  have hlt := hstep.lt_settled hd hlow hhigh
  omega

/-- Room for a byte is made unless a byte waits. -/
theorem startByte_eq (hs : 0 ≤ s.lomem) :
    startByte s =
      if s.packing then .ok () s
      else if s.HasRoom then .ok () (s.push 0)
      else .error (.report (.fatal .badCode s.lomem)) s := by
  simp only [startByte, Action.bind_apply, Action.get_apply]
  cases s.packing with
  | true => rfl
  | false =>
    simp only [Bool.not_false, Bool.false_eq_true, if_true, if_false]
    exact append_eq hs 0

/-- The operations of a byte directive, once both are carried out, are the directive. -/
theorem perform_take_byte (v : Cell) (k : Nat) :
    perform ((operations (.byte v)).take (k + 2)) = appendByte v.low := by
  rw [List.take_of_length_le (by simp [operations]), ← emit_eq_perform]
  rfl

/-- A byte directive changes no settled word, finished or not. -/
theorem cellAt_take_byte (hs : s.Placed) (v : Cell) (k : Nat) {w : Nat}
    (hw : (w : Int) < s.settled) :
    ((perform ((operations (.byte v)).take k)).final s).memory.cellAt w = s.memory.cellAt w := by
  have hnonneg := hs.nonneg
  have hlomem : s.lomem.toNat ≠ w := by
    unfold settled at hw
    omega
  match k with
  | 0 => rfl
  | 1 =>
    change ((startByte >>= fun _ => pure ()).final s).memory.cellAt w = _
    rw [Action.final_bind_pure, Action.final, startByte_eq hnonneg]
    split
    · rfl
    · split
      · exact Memory.cellAt_setCell_of_ne hlomem ..
      · rfl
  | k + 2 =>
    rw [perform_take_byte, Action.final, appendByte_eq hs]
    by_cases hpacking : s.packing = true
    · have hone := position_eq_one_iff.mpr hpacking
      have hlast : (s.lomem - 1).toNat ≠ w := by
        unfold settled at hw
        omega
      rw [if_pos hpacking]
      exact Memory.cellAt_setCell_of_ne hlast ..
    · rw [if_neg hpacking]
      split
      · exact Memory.cellAt_setCell_of_ne hlomem ..
      · rfl

/-- Within a directive no byte starts to wait, unless it is a byte directive and finished. -/
theorem take_cases (hs : s.Placed) (d : Directive) (k : Nat) :
    Proceeds s ((perform ((operations d).take k)).final s) ∨
      emit d s = .ok () ((perform ((operations d).take k)).final s) := by
  by_cases hbyte : ∃ v, d = .byte v
  · obtain ⟨v, rfl⟩ := hbyte
    match k with
    | 0 => exact .inl (Std.Refl.refl s)
    | 1 => exact .inl (proceeds_startByte.bind (fun _ => Action.stays_pure ()) s)
    | k + 2 =>
      change _ ∨ appendByte v.low s = _
      rw [perform_take_byte, Action.final, appendByte_eq hs]
      split
      · exact .inr rfl
      · split
        · exact .inr rfl
        · exact .inl (Std.Refl.refl s)
  · exact .inl (proceeds_take (fun v hd => hbyte ⟨v, hd⟩) k s)

end Packing

section Points

variable {s p : Assembler} {begun : List Directive}

/-- The code has grown at every point. -/
theorem Passes.grows (h : Passes s begun p) : Grows s p := by
  cases h with
  | start => exact Std.Refl.refl s
  | @within done s₁ hdone d k =>
    have hbefore := grows_emitAll done s
    rw [Action.final, hdone] at hbefore
    exact Trans.trans hbefore (grows_take d k _)

/-- At every point, a byte that waits has started the last word, and of the directives begun since
all but the last are globals. -/
theorem Passes.startedByByte (hs : s.Placed) (hstart : s.packing = false) (h : Passes s begun p)
    (hwaits : p.packing = true) :
    ∃ since, StartedByByte s begun since p ∧ ∀ d ∈ since.dropLast, d.IsGlobal := by
  cases h with
  | start =>
    rw [hstart] at hwaits
    cases hwaits
  | @within done s₁ hdone d k =>
    have hplaced := placed_of_emitAll hs hdone
    rcases take_cases hplaced d k with hproceeds | hemit
    · -- the byte has waited before the directive that is under way
      obtain ⟨hwaits₁, hsame⟩ := hproceeds.waiting hwaits
      obtain ⟨globals, hglobals, before, v, t₁, t₂, rfl, hbefore, hnone, hemit, hnext, hlast⟩ :=
        startedByByte_of_emitAll hs hstart hdone hwaits₁
      refine ⟨globals ++ [d], ⟨before, v, t₁, t₂, by simp, hbefore, hnone, hemit, hnext,
        hsame.trans hlast⟩, ?_⟩
      rw [List.dropLast_concat]
      exact hglobals
    · have hrun := (emitAll_append_singleton_eq_ok_iff hs).mpr
        ⟨s₁, hdone, (emit_eq_ok_iff hplaced).mp hemit⟩
      obtain ⟨globals, hglobals, hstarted⟩ := startedByByte_of_emitAll hs hstart hrun hwaits
      exact ⟨globals, hstarted, fun d hd => hglobals d (List.mem_of_mem_dropLast hd)⟩

/-- A byte directive changes neither a word in front of the code nor one that another kind of
directive has appended. -/
theorem Passes.cellAt_eq {done : List Directive} {v : Cell} {s₁ : Assembler} (hs : s.Placed)
    (hstart : s.packing = false) (h : Passes s (done ++ [.byte v]) p)
    (hdone : emitAll done s = .ok () s₁) {w : Nat}
    (hw : (w : Int) < s.lomem ∨ ∃ d, (∀ u, d ≠ .byte u) ∧ Appended s done d w) :
    p.memory.cellAt w = s₁.memory.cellAt w := by
  have hsettled : (w : Int) < s₁.settled := by
    rcases hw with hbelow | ⟨d, hd, happended⟩
    · have hle := settled_le_of_emitAll hs hdone
      have hzero : s.settled = s.lomem := by simp [settled, position, hstart]
      omega
    · exact lt_settled_of_appended hs hdone hd happended
  generalize hds : done ++ [.byte v] = ds at h
  cases h with
  | start => simp at hds
  | @within done' s₁' hdone' d k =>
    obtain ⟨rfl, hlast⟩ := List.append_inj' hds rfl
    obtain rfl := List.singleton_inj.mp hlast
    obtain rfl := Action.ok_unique hdone hdone'
    exact cellAt_take_byte (placed_of_emitAll hs hdone) v k hsettled

/-- The end of a directive is a point, whether it succeeds or fails. -/
theorem Passes.finished {done : List Directive} {s₁ : Assembler}
    (hdone : emitAll done s = .ok () s₁) (d : Directive) :
    Passes s (done ++ [d]) ((emit d).final s₁) := by
  have hpasses := Passes.within hdone d (operations d).length
  rw [List.take_length, ← emit_eq_perform] at hpasses
  exact hpasses

/-- The end of a run that succeeds is a point. -/
theorem Passes.of_emitAll (h : emitAll begun s = .ok () p) : Passes s begun p := by
  rcases List.eq_nil_or_concat' begun with rfl | ⟨done, d, rfl⟩
  · cases h
    exact .start
  · obtain ⟨s₁, hdone, hlast⟩ := emitAll_append_eq_ok_iff.mp h
    obtain ⟨⟨⟩, s₂, hemit, hnil⟩ := Action.bind_eq_ok_iff.mp hlast
    cases hnil
    have hpasses := Passes.finished hdone d
    rw [Action.final, hemit] at hpasses
    exact hpasses

/-- A run ends at one of its points, whether it succeeds or fails. -/
theorem passes_final (s : Assembler) (ds : List Directive) :
    ∃ begun, begun <+: ds ∧ Passes s begun ((emitAll ds).final s) := by
  induction ds using List.reverseRecOn with
  | nil => exact ⟨[], List.prefix_rfl, .start⟩
  | append_singleton ds d ih =>
    rw [Action.final, emitAll_append, Action.bind_apply]
    cases hrun : emitAll ds s with
    | error e p =>
      obtain ⟨begun, hbegun, hpasses⟩ := ih
      rw [Action.final, hrun] at hpasses
      exact ⟨begun, hbegun.trans (List.prefix_append ds [d]), hpasses⟩
    | ok u s₁ =>
      have hsingle : (emitAll [d]).final s₁ = (emit d).final s₁ := Action.final_bind_pure ..
      have hpasses := Passes.finished hrun d
      rw [← hsingle] at hpasses
      exact ⟨ds ++ [d], List.prefix_rfl, hpasses⟩

/-- Assembling a text leaves the state that its directives leave. -/
theorem final_assemble (t : Text) (readError : Option HostError) (s : Assembler) :
    (assemble t readError).final s =
      (emitAll (Directive.parseAll t.significant)).final s.fresh := by
  rw [Action.final, Action.final, assemble_eq]
  cases emitAll (Directive.parseAll t.significant) s.fresh with
  | error e s' => rfl
  | ok u s' => cases readError <;> rfl

/-- The code grows in bounds at every point of a run and whatever its outcome. The packing position
is one only if a byte directive has started the last word and nothing but globals has come since,
save the directive under way. So a byte directive changes no word in front of the code and none
that another kind of directive has appended. -/
theorem growth_in_bounds (s : Assembler) (hs : 0 ≤ s.lomem) (t : Text)
    (readError : Option HostError) :
    (∀ d, emit d = perform (operations d)) ∧
    (∃ begun, begun <+: Directive.parseAll t.significant ∧
      Passes s.fresh begun ((assemble t readError).final s)) ∧
    ∀ begun p, Passes s.fresh begun p →
      (s.lomem ≤ p.lomem ∧ p.lomem ≤ max s.lomem (s.memory.size - 500)) ∧
      (p.position = 0 ∨ p.position = 1) ∧
      (p.position = 1 →
        ∃ since, StartedByByte s.fresh begun since p ∧ ∀ d ∈ since.dropLast, d.IsGlobal) ∧
      (emitAll begun s.fresh = .ok () p → p.position = bytesInRun begun % 2) ∧
      ∀ done v s₁, begun = done ++ [.byte v] → emitAll done s.fresh = .ok () s₁ →
        ∀ w : Nat, ((w : Int) < s.lomem ∨
          ∃ d, (∀ u, d ≠ .byte u) ∧ Appended s.fresh done d w) →
          p.memory.cellAt w = s₁.memory.cellAt w := by
  have hplaced := placed_fresh hs
  refine ⟨emit_eq_perform, final_assemble t readError s ▸ passes_final s.fresh _, ?_⟩
  intro begun p hpasses
  have hgrows := hpasses.grows
  have hle := position_le_one p
  refine ⟨⟨hgrows.le, hgrows.bounded⟩, by omega, fun hone => ?_, fun hrun => ?_, ?_⟩
  · exact hpasses.startedByByte hplaced rfl (position_eq_one_iff.mp hone)
  · exact position_of_emitAll hplaced rfl hrun
  · rintro done v s₁ rfl hdone w hw
    exact hpasses.cellAt_eq hplaced rfl hdone hw

/-- A second byte joins the first one across a global, and the data word before them stays. -/
theorem growth_in_bounds_across_global :
    let s : Assembler := { memory := .blank 1000, lomem := 401 }
    let done : List Directive := [.word (.number 7), .byte 1, .global 9 1]
    0 ≤ s.lomem ∧ ∃ s₁ p, emitAll done s.fresh = .ok () s₁ ∧ s₁.position = 1 ∧
      (∃ since, StartedByByte s.fresh done since s₁ ∧ ∀ d ∈ since.dropLast, d.IsGlobal) ∧
      Passes s.fresh (done ++ [.byte 2]) p ∧
      (p.lomem, p.position, p.memory.cellAt 402) = (403, 0, 0x0201) ∧
      Appended s.fresh done (.word (.number 7)) 401 ∧
      p.memory.cellAt 401 = s₁.memory.cellAt 401 := by
  intro s done
  obtain ⟨s₁, hdone, hwaits⟩ : ∃ s₁, emitAll done s.fresh = .ok () s₁ ∧ s₁.position = 1 :=
    Action.after?_eq_some_iff.mp (by decide +kernel)
  obtain ⟨p, hrun, hview⟩ : ∃ p, emitAll (done ++ [.byte 2]) s.fresh = .ok () p ∧
      (p.lomem, p.position, p.memory.cellAt 402) = (403, 0, 0x0201) :=
    Action.after?_eq_some_iff.mp (by decide +kernel)
  obtain ⟨t, hemit, hnext⟩ : ∃ t, emit (.word (.number 7)) s.fresh = .ok () t ∧ t.lomem = 402 :=
    Action.after?_eq_some_iff.mp (by decide +kernel)
  have happended : Appended s.fresh done (.word (.number 7)) 401 :=
    ⟨[], _, s.fresh, t, rfl, rfl, hemit, by decide, by rw [hnext]; decide⟩
  have hpoints := (growth_in_bounds s (by decide) (Text.ofAscii "D7 C1 G9L1 C2") none).2.2
  refine ⟨by decide, s₁, p, hdone, hwaits, (hpoints done s₁ (.of_emitAll hdone)).2.2.1 hwaits,
    .of_emitAll hrun, hview, happended, ?_⟩
  exact (hpoints _ p (.of_emitAll hrun)).2.2.2.2 done 2 s₁ rfl hdone 401
    (.inr ⟨_, by simp, happended⟩)

end Points

end Assembler

end Intcode
