import Intcode.Proofs.Assembly.Threads

/-!
# Programs that set each global once

When no segment sets a global twice and all globals lie before the code, no word
waits for two labels and no waiting word is stored into. The chains then stay in
order through the whole program, whatever else it consists of. This file follows
them from directive to directive, together with the words that never wait.
-/

namespace Intcode

/-- Each global lies below the address `base` and is not set again in its segment. -/
def Directive.Orderly (base : Nat) : List Directive → Prop
  | [] => True
  | d :: ds =>
    (∀ a ∈ d.target?, a < base ∧ a ∉ targets (ds.takeWhile (· ≠ .segmentEnd))) ∧ Orderly base ds

instance Directive.decidableOrderly (base : Nat) :
    (ds : List Directive) → Decidable (Directive.Orderly base ds)
  | [] => isTrue trivial
  | _ :: ds =>
    have := decidableOrderly base ds
    inferInstanceAs (Decidable (_ ∧ _))

/-- The globals of orderly directives lie below the address. -/
theorem Directive.Orderly.lt_base {base : Nat} {ds : List Directive} (h : Orderly base ds) :
    ∀ a ∈ targets ds, a < base := by
  induction ds with
  | nil => simp [targets]
  | cons d ds ih =>
    rw [targets_cons]
    exact List.forall_mem_append.mpr
      ⟨fun a ha => (h.1 a (Option.mem_toList.mp ha)).1, ih h.2⟩

namespace Assembler

/-- The chains are in order, and stay so while the directives to come are carried out. -/
structure Ready (base : Nat) (s : Assembler) (waits : Cell → List Nat) (todo : List Directive) :
    Prop where
  based : s.Based base
  threaded : s.Threaded waits
  orderly : Directive.Orderly base todo
  untouched : ∀ n, ∀ a ∈ waits n, a ∉ Directive.targets (todo.takeWhile (· ≠ .segmentEnd))

variable {base : Nat} {s s' : Assembler} {waits : Cell → List Nat} {d : Directive}
  {ds rest : List Directive}

/-- A directive that stores into no waiting word keeps the chains in order. The words that it
makes wait are its global and words that it appends. -/
theorem Step.threaded (hs : s.Based base) (ht : s.Threaded waits) (h : Step s d s')
    (hglobal : ∀ a ∈ d.target?, a < base ∧ ∀ i, a ∉ waits i) :
    ∃ waits', s'.Threaded waits' ∧ ∀ i, ∀ a ∈ waits' i,
      a ∈ waits i ∧ d ≠ .segmentEnd ∨ a ∈ d.target? ∨
        d.reference? ≠ none ∧ s.lomem ≤ a ∧ (a : Int) < s'.lomem := by
  have hnonneg := hs.nonneg
  cases h with
  | @define n k memory hentry hk hpatch =>
    obtain ⟨m', hpatch', hsize, -, hkept⟩ :=
      (ht.chain n k hentry hk).patchChain_eq_ok (Cell.ofInt s.lomem)
    obtain rfl := Action.ok_unique hpatch hpatch'
    refine ⟨_, ht.defineHere hs (Labels.isNumber_of_lookup? hentry) hsize hkept, fun i a ha => ?_⟩
    rw [Function.update_apply] at ha
    split at ha
    · simp at ha
    · exact .inl ⟨ha, by simp⟩
  | short _ _ => exact ⟨waits, ht.push hnonneg _, fun i a ha => .inl ⟨ha, by simp⟩⟩
  | long _ _ _ =>
    exact ⟨waits, (ht.push hnonneg _).push (push_lomem_nonneg hnonneg _) _,
      fun i a ha => .inl ⟨ha, by simp⟩⟩
  | @labelOperand opcode marked n k hroom hroom' hentry =>
    have hbased : (s.push opcode.longWord).Based base := (Step.word hroom).based hs
    refine ⟨_, (ht.push hnonneg opcode.longWord).appendReference hbased hroom' hentry,
      fun i a ha => ?_⟩
    rcases of_mem_waitsWith ha with hold | ⟨-, rfl⟩
    · exact .inl ⟨hold, by simp⟩
    · simp only [push, refer] at ha ⊢
      exact .inr (.inr ⟨by simp [Directive.reference?], by omega, by omega⟩)
  | firstByte _ _ => exact ⟨waits, ht.append hnonneg _ true, fun i a ha => .inl ⟨ha, by simp⟩⟩
  | secondByte hpacking =>
    exact ⟨waits, ht.packHigh hs.toPlaced hpacking _, fun i a ha => .inl ⟨ha, by simp⟩⟩
  | word _ => exact ⟨waits, ht.push hnonneg _, fun i a ha => .inl ⟨ha, by simp⟩⟩
  | @labelWord n k hroom hentry =>
    refine ⟨_, ht.appendReference hs hroom hentry, fun i a ha => ?_⟩
    rcases of_mem_waitsWith ha with hold | ⟨-, rfl⟩
    · exact .inl ⟨hold, by simp⟩
    · simp only [push, refer] at ha ⊢
      exact .inr (.inr ⟨by simp [Directive.reference?], by omega, by omega⟩)
  | @global n l k hlt hentry =>
    obtain ⟨hbelow, hfree⟩ := hglobal n.toNat rfl
    have hle := hs.base_le
    have hpacked := hs.base_lt
    refine ⟨_, ht.refer hs hentry hlt hfree ⟨by omega, fun hpacking => ?_⟩, fun i a ha => ?_⟩
    · have := hpacked hpacking
      omega
    · rcases of_mem_waitsWith ha with hold | ⟨-, rfl⟩
      · exact .inl ⟨hold, by simp⟩
      · exact .inr (.inl rfl)
  | segmentEnd _ => exact ⟨fun _ => [], .of_fresh s, by simp⟩

/-- A fresh label table is ready for orderly directives. -/
theorem ready_fresh (hs : s.fresh.Based base) (h : Directive.Orderly base ds) :
    s.fresh.Ready base (fun _ => []) ds := ⟨hs, .of_fresh s, h, by simp⟩

/-- A directive keeps the chains ready for the others, and a word that is neither its global
nor appended by it for a label does not come to wait. -/
theorem Ready.step (h : s.Ready base waits (d :: ds)) (hstep : Step s d s') :
    ∃ waits', s'.Ready base waits' ds ∧ ∀ w, (∀ n, w ∉ waits n) → w ∉ d.target? →
      (d.reference? = none ∨ (w : Int) < s.lomem ∨ s'.lomem ≤ w) → ∀ n, w ∉ waits' n := by
  obtain ⟨hs, ht, ⟨horderly, hrest⟩, huntouched⟩ := h
  have hle := hs.base_le
  have hglobal : ∀ a ∈ d.target?, a < base ∧ ∀ i, a ∉ waits i := by
    intro a ha
    refine ⟨(horderly a ha).1, fun i hi => huntouched i a hi ?_⟩
    have hend : d ≠ .segmentEnd := by
      rintro rfl
      cases ha
    rw [List.takeWhile_cons_of_pos (by simpa using hend), Directive.targets_cons]
    exact List.mem_append_left _ (Option.mem_toList.mpr ha)
  obtain ⟨waits', ht', hnew⟩ := hstep.threaded hs ht hglobal
  refine ⟨waits', ⟨hstep.based hs, ht', hrest, fun n a ha hmem => ?_⟩,
    fun w hw htarget hword n ha => ?_⟩
  · rcases hnew n a ha with ⟨hold, hend⟩ | htarget | ⟨-, hcode, -⟩
    · refine huntouched n a hold ?_
      rw [List.takeWhile_cons_of_pos (by simpa using hend), Directive.targets_cons]
      exact List.mem_append_right _ hmem
    · exact (horderly a htarget).2 hmem
    · have hsublist : (ds.takeWhile (· ≠ .segmentEnd)).Sublist ds := List.takeWhile_sublist _
      have hlt := hrest.lt_base a ((hsublist.filterMap Directive.target?).subset hmem)
      omega
  · rcases hnew n w ha with ⟨hold, -⟩ | hglobal | ⟨hreference, hlow, hhigh⟩
    · exact hw n hold
    · exact htarget hglobal
    · rcases hword with hnone | hlt | hle'
      · exact hreference hnone
      · omega
      · omega

/-- A run keeps the chains ready for the directives after it, and a word that is neither a
global of the run nor in the code that it appends does not come to wait. -/
theorem Ready.run (h : s.Ready base waits (ds ++ rest)) (hrun : emitAll ds s = .ok () s') :
    ∃ waits', s'.Ready base waits' rest ∧ ∀ w, (∀ n, w ∉ waits n) → w ∉ Directive.targets ds →
      ((w : Int) < s.lomem ∨ s'.lomem ≤ w) → ∀ n, w ∉ waits' n := by
  induction ds generalizing s waits with
  | nil =>
    cases hrun
    exact ⟨waits, h, fun w hw _ _ => hw⟩
  | cons d ds ih =>
    obtain ⟨s₁, hfirst, hlast⟩ := (emitAll_cons_eq_ok_iff h.based.toPlaced).mp hrun
    obtain ⟨waits₁, hready, hwait⟩ := Ready.step h hfirst
    obtain ⟨waits', hready', hwait'⟩ := ih hready hlast
    have hle := hfirst.lomem_le
    have hle' := lomem_le_of_emitAll (hfirst.placed h.based.toPlaced) hlast
    refine ⟨waits', hready', fun w hw htarget hword => ?_⟩
    rw [Directive.targets_cons, List.mem_append, not_or, Option.mem_toList] at htarget
    exact hwait' w (hwait w hw htarget.1 (.inr (by omega))) htarget.2 (by omega)

/-- While the chains are in order no label definition walks for ever. -/
theorem Ready.not_hangs (h : s.Ready base waits ds) : ¬ Hangs s ds := by
  rintro ⟨before, n, after, s₁, rfl, hrun, k, hentry, htrapped⟩
  obtain ⟨waits₁, hready, -⟩ := h.run hrun
  have hpos := htrapped.1.next.1.1
  exact (hready.threaded.chain n k hentry (by omega)).not_unending htrapped.1

end Assembler

end Intcode
