import Intcode.Proofs.Machine.Confined

/-!
# Precise faults

When an instruction fails, the program counter is at its address and the count is
that of the instructions before it. Most instructions that fail have done nothing.
A routine that cannot be entered may have left one word, the last one of the memory,
because a frame begins there that does not fit.
-/

namespace Intcode

/-- All handlers leave the count of instructions alone. -/
def Bindings.KeepCount (b : Bindings) : Prop :=
  ∀ code handler, b.get? code = some handler →
    ∀ args, Action.Stays (fun m m' : Machine => m'.instructions = m.instructions) (handler args)

namespace Machine

open Action

/-- A word that cannot be stored leaves the machine alone. -/
theorem precise_setWord (a : Int) (v : Cell) : Precise (onMemory (Memory.setWord a v)) := by
  intro m e m' h
  rw [onMemory_apply, Memory.setWord] at h
  cases hslot : m.memory.slot a with
  | ok i =>
    rw [hslot] at h
    cases h
  | error e' =>
    rw [hslot] at h
    cases h
    rfl

/-- An extended operation that fails leaves the machine alone. -/
theorem precise_operate (x : Cell) : Precise (operate x) := by
  unfold operate
  split
  · exact precise_throw _
  · exact precise_get_bind fun _ => precise_read_bind _ fun _ => precise_modify _
  · exact precise_get_bind fun _ => precise_read_bind _ fun _ => precise_read_bind _ fun _ =>
      precise_modify _
  · exact precise_modify _
  · exact precise_read_bind _ fun _ => precise_modify _
  · exact precise_modify _

/-- An instruction other than a call that fails leaves the machine alone. -/
theorem precise_execute (bindings : Bindings) {f : Function} (hf : f ≠ .call) (d : Cell) :
    Precise (execute bindings f d) := by
  cases f with
  | load | add | jump | jumpTrue | jumpFalse => exact precise_modify _
  | store => exact precise_get_bind fun m => precise_setWord _ _
  | operate => exact precise_operate d
  | call => exact absurd rfl hf

/-- A system call that nobody serves leaves the machine alone. -/
theorem precise_systemCall {bindings : Bindings} {code : Cell} (hbound : bindings.get? code = none)
    (hbuiltIn : (SystemCall.ofCell? code).bind builtIn? = none) (args : Int) :
    Precise (systemCall bindings code args) := by
  unfold systemCall
  rw [hbound, hbuiltIn]
  exact precise_throw _

/-- A routine that cannot be entered leaves the machine alone but for the last word of its
memory. -/
theorem enter_eq_error {frame base : Cell} {back target : Int} {m m' : Machine} {e : Failure}
    (h : enter frame base back target m = .error e m') :
    ∃ memory, m' = { m with memory } ∧ memory.size = m.memory.size ∧
      ∀ k, k + 1 ≠ m.memory.size → memory.cellAt k = m.memory.cellAt k := by
  have haddress : frame.address < 65536 := by
    have hlt := frame.isLt
    unfold Cell.address
    omega
  have hnonneg : 0 ≤ frame.address := Int.natCast_nonneg _
  unfold enter at h
  rcases bind_eq_error_iff.mp h with hfirst | ⟨_, m₁, hfirst, hrest⟩
  · refine ⟨m.memory, precise_setWord _ _ m e m' hfirst, rfl, fun _ _ => rfl⟩
  · -- The first word of the frame is inside the memory.
    rw [onMemory_apply, Memory.setWord, Memory.slot_of_near _ (by omega) (by omega)] at hfirst
    by_cases hinside : 0 ≤ frame.address ∧ frame.address < m.memory.size
    · rw [if_pos hinside] at hfirst
      cases hfirst
      rcases bind_eq_error_iff.mp hrest with hsecond | ⟨_, m₂, -, hlast⟩
      · -- The second one is not, so the first is the last word.
        have hsame := precise_setWord _ _ _ e m' hsecond
        rw [onMemory_apply, Memory.setWord, Memory.slot_of_near _ (by omega) (by omega)] at hsecond
        rw [Memory.size_setCell] at hsecond
        by_cases hfits : 0 ≤ frame.address + 1 ∧ frame.address + 1 < m.memory.size
        · rw [if_pos hfits] at hsecond
          cases hsecond
        · refine ⟨_, hsame, Memory.size_setCell .., fun k hk => ?_⟩
          exact Memory.cellAt_setCell_of_ne (by omega) _ _
      · cases hlast
    · rw [if_neg hinside] at hfirst
      cases hfirst

section Step

variable {bindings : Bindings} {m m' : Machine} {r : Report}

/-- An instruction fails because it cannot be decoded or because it cannot be executed. -/
theorem step_failed_cases (hstep : step bindings m = (.failed r, m')) :
    ((∃ e, m.decode = .error e) ∧ m' = m) ∨
      ∃ i e m₁, m.decode = .ok i ∧
        execute bindings i.opcode.function i.operand (m.ready i) = .error e m₁ ∧
        m' = { m₁ with pc := m.pc } := by
  cases hdecode : m.decode with
  | error e =>
    rw [step_of_error hdecode] at hstep
    exact .inl ⟨⟨e, rfl⟩, (Prod.mk.inj hstep).2.symm⟩
  | ok i =>
    rw [step_of_ok hdecode] at hstep
    cases hexecute : execute bindings i.opcode.function i.operand (m.ready i) with
    | error e m₁ =>
      rw [hexecute] at hstep
      exact .inr ⟨i, e, m₁, rfl, hexecute, (Prod.mk.inj hstep).2.symm⟩
    | ok u m₁ =>
      rw [hexecute, endStep] at hstep
      split at hstep <;> cases hstep

/-- A failed instruction leaves the program counter at its own address. -/
theorem pc_of_failed (hstep : step bindings m = (.failed r, m')) : m'.pc = m.pc := by
  rcases step_failed_cases hstep with ⟨-, rfl⟩ | ⟨i, e, m₁, -, -, rfl⟩ <;> rfl

/-- An instruction that was noted and then did nothing. -/
theorem ready_back (m : Machine) (i : Instruction) :
    ∃ journal, { m.ready i with pc := m.pc } =
      { m with peripherals := { m.peripherals with journal } } := by
  obtain ⟨journal, hjournal⟩ := m.peripherals.traced_eq (.step (m.traceStep i))
  exact ⟨journal, by rw [ready, hjournal]⟩

/-- A failed instruction that cannot be decoded, that is no call, or that is a call nobody serves
has done nothing. -/
theorem unchanged_of_failed (hstep : step bindings m = (.failed r, m'))
    (hkind : ∀ i, m.decode = .ok i → i.opcode.function = .call →
      m.a.signed < codeStart ∧ bindings.get? m.a = none ∧
        (SystemCall.ofCell? m.a).bind builtIn? = none) :
    ∃ journal, m' = { m with peripherals := { m.peripherals with journal } } := by
  rcases step_failed_cases hstep with ⟨-, rfl⟩ | ⟨i, e, m₁, hdecode, hexecute, rfl⟩
  · exact ⟨_, rfl⟩
  · have hsame : m₁ = m.ready i := by
      by_cases hcall : i.opcode.function = .call
      · obtain ⟨hbelow, hbound, hbuiltIn⟩ := hkind i hdecode hcall
        have hready : (m.ready i).a.signed < codeStart := hbelow
        rw [hcall, call_apply, if_pos hready] at hexecute
        exact precise_systemCall hbound hbuiltIn _ _ e m₁ hexecute
      · exact precise_execute bindings hcall _ _ e m₁ hexecute
    rw [hsame]
    exact m.ready_back i

/-- A failed call of a routine has done nothing except perhaps to the last word of the memory. -/
theorem lastWord_of_failed (hstep : step bindings m = (.failed r, m'))
    (hkind : ∀ i, m.decode = .ok i → i.opcode.function = .call ∧ codeStart ≤ m.a.signed) :
    ∃ memory journal,
      m' = { m with memory, peripherals := { m.peripherals with journal } } ∧
      memory.size = m.memory.size ∧
      ∀ k, k + 1 ≠ m.memory.size → memory.cellAt k = m.memory.cellAt k := by
  rcases step_failed_cases hstep with ⟨-, rfl⟩ | ⟨i, e, m₁, hdecode, hexecute, rfl⟩
  · exact ⟨_, _, rfl, rfl, fun _ _ => rfl⟩
  · obtain ⟨hcall, habove⟩ := hkind i hdecode
    have hready : ¬ (m.ready i).a.signed < codeStart := Int.not_lt.mpr habove
    rw [hcall, call_apply, if_neg hready] at hexecute
    obtain ⟨memory, rfl, hsize, hcells⟩ := enter_eq_error hexecute
    obtain ⟨journal, hjournal⟩ := m.ready_back i
    refine ⟨memory, journal, ?_, hsize, hcells⟩
    change { { m.ready i with pc := m.pc } with memory } = _
    rw [hjournal]

section Count

variable (hbindings : bindings.KeepCount)

include hbindings

/-- Executing an instruction does not count it. -/
theorem execute_instructions (f : Function) (d : Cell) (m : Machine) :
    ((execute bindings f d).final m).instructions = m.instructions := by
  by_cases hf : f = .call
  · subst hf
    rw [final, call_apply]
    split
    · cases hbound : bindings.get? m.a with
      | none =>
        rw [systemCall_of_unbound hbound]
        exact (confined_systemCall m.a _ m).instructions
      | some handler =>
        rw [systemCall_of_bound hbound]
        exact hbindings m.a handler hbound _ m
    · exact (confined_enter _ _ _ m.a m).instructions
  · rw [execute_of_ne_call hf]
    exact (confined_execute f d m).instructions

/-- A completed instruction is counted. -/
theorem step_instructions (hstep : step bindings m = (.running, m')) :
    m'.instructions = m.instructions + 1 := by
  obtain ⟨i, m₁, -, hexecute, -, rfl⟩ := step_eq_running_iff.mp hstep
  have hcount := execute_instructions hbindings i.opcode.function i.operand (m.ready i)
  rw [final, hexecute] at hcount
  exact congrArg (· + 1) hcount

/-- Completed instructions are all counted. -/
theorem Steps.instructions {n : Nat} (h : Steps bindings n m m') :
    m'.instructions = m.instructions + n := by
  induction h with
  | zero m => rfl
  | succ hstep _ ih => rw [ih, step_instructions hbindings hstep, Nat.add_right_comm, Nat.add_assoc]

/-- A failed instruction is not counted. -/
theorem instructions_of_failed (hstep : step bindings m = (.failed r, m')) :
    m'.instructions = m.instructions := by
  rcases step_failed_cases hstep with ⟨-, rfl⟩ | ⟨i, e, m₁, -, hexecute, rfl⟩
  · rfl
  · have hcount := execute_instructions hbindings i.opcode.function i.operand (m.ready i)
    rw [final, hexecute] at hcount
    exact hcount

end Count

end Step

/-- A run that ends with an error has stopped and then failed to flush the default output, or one of
its instructions has failed. -/
theorem run_failed_cases {bindings : Bindings} {limit : Nat} {m m' : Machine} {result : Cell}
    {r : Report} (hrun : run bindings limit m = (.ended result (some r), m')) :
    (∃ n before after e, n ≤ limit ∧ Steps bindings n m.started before ∧
        step bindings before = (.stopped result, after) ∧
        after.peripherals.flushError = some e ∧ r = .host "flush failed" e) ∨
      ∃ n before after, n ≤ limit ∧ Steps bindings n m.started before ∧
        step bindings before = (.failed r, after) ∧ result = 0 ∧
        m' = { after with
          peripherals := after.peripherals.flushed.traced
            (.runFinished 0 after.instructions (some r)) } := by
  rw [run, start_apply] at hrun
  change conclude (proceed bindings limit m.started) = _ at hrun
  rcases proceed_cases bindings limit m.started with ⟨last, -, heq⟩ |
    ⟨n, before, hn, hsteps, -, heq⟩
  · rw [heq] at hrun
    cases hrun
  · rw [heq] at hrun
    cases hstep : step bindings before with
    | mk progress after =>
      rw [hstep] at hrun
      cases progress with
      | running => cases hrun
      | broken e => cases hrun
      | stopped result' =>
        rw [conclude, finish_apply, finalError] at hrun
        obtain ⟨hended, -⟩ := Prod.mk.inj hrun
        cases hflush : after.peripherals.flushError with
        | none =>
          rw [hflush] at hended
          cases hended
        | some e =>
          rw [hflush] at hended
          cases hended
          exact .inl ⟨n, before, after, e, hn, hsteps, hstep, hflush, rfl⟩
      | failed r' =>
        rw [conclude, finish_apply] at hrun
        obtain ⟨hended, hlast⟩ := Prod.mk.inj hrun
        cases hended
        exact .inr ⟨n, before, after, hn, hsteps, hstep, rfl, hlast.symm⟩

/-- Faults are precise. A run that ends with an error has stopped and then failed to flush the
default output, or one of its instructions has failed after a number of completed ones. Then the
program counter is at that instruction and the count is that number. If it cannot be decoded, is no
call, or is a call below the code that nobody serves, the machine is as it was before it, but for
the journal and the flush at the end. If it calls a routine, then at most the last word of the
memory has changed as well. -/
theorem faults_precise {bindings : Bindings} {limit : Nat} {m m' : Machine} {result : Cell}
    {r : Report} (hrun : run bindings limit m = (.ended result (some r), m')) :
    (∃ n before after e, n ≤ limit ∧ Steps bindings n m.started before ∧
        step bindings before = (.stopped result, after) ∧
        after.peripherals.flushError = some e ∧ r = .host "flush failed" e) ∨
      ∃ n before after, n ≤ limit ∧ Steps bindings n m.started before ∧
        step bindings before = (.failed r, after) ∧
        m' = { after with
          peripherals := after.peripherals.flushed.traced
            (.runFinished 0 after.instructions (some r)) } ∧
        m'.pc = before.pc ∧ (bindings.KeepCount → m'.instructions = n) ∧
        ((∀ i, before.decode = .ok i → i.opcode.function = .call →
            before.a.signed < codeStart ∧ bindings.get? before.a = none ∧
              (SystemCall.ofCell? before.a).bind builtIn? = none) →
          ∃ journal, after = { before with peripherals := { before.peripherals with journal } }) ∧
        ((∀ i, before.decode = .ok i →
            i.opcode.function = .call ∧ codeStart ≤ before.a.signed) →
          ∃ memory journal,
            after = { before with
              memory, peripherals := { before.peripherals with journal } } ∧
            memory.size = before.memory.size ∧
            ∀ k, k + 1 ≠ before.memory.size → memory.cellAt k = before.memory.cellAt k) := by
  rcases run_failed_cases hrun with hstopped | ⟨n, before, after, hn, hsteps, hstep, -, rfl⟩
  · exact .inl hstopped
  · have hpc : after.pc = before.pc := pc_of_failed hstep
    refine .inr ⟨n, before, after, hn, hsteps, hstep, rfl, hpc, fun hbindings => ?_,
      unchanged_of_failed hstep, lastWord_of_failed hstep⟩
    have hzero : m.started.instructions = 0 := rfl
    change after.instructions = n
    rw [instructions_of_failed hbindings hstep, hsteps.instructions hbindings, hzero, Nat.zero_add]

/-- A machine that calls a routine with its frame at the last word of the memory. -/
def crowded : Machine where
  memory := (Memory.ofFn 500 initialCell).setCell 1 450
  lomem := 497
  peripherals := .ofDefaults (.script [] none) (.device {}) default false

/-- The second instruction calls the routine. Its frame does not fit, and the first word of it is in
the last word of the memory. -/
theorem faults_precise_crowded :
    let last := (run {} 9 crowded).2
    run {} 9 crowded = (.ended 0 (some ⟨[addressText 500], .fatal .machineFault 402⟩), last) ∧
      last.instructions = 1 ∧ last.memory.cellAt 499 = 497 ∧
      ∃ before, Steps {} 1 crowded.started before ∧ last.pc = before.pc ∧
        (last.a = before.a ∧ last.b = before.b ∧ last.sp = before.sp) ∧
        ∀ k, k + 1 ≠ before.memory.size → last.memory.cellAt k = before.memory.cellAt k := by
  intro last
  have hended : (run {} 9 crowded).1 =
      .ended 0 (some ⟨[addressText 500], .fatal .machineFault 402⟩) := by decide +kernel
  have hrun : run {} 9 crowded =
      (.ended 0 (some ⟨[addressText 500], .fatal .machineFault 402⟩), last) := by rw [← hended]
  have hcount : last.instructions = 1 := by decide +kernel
  refine ⟨hrun, hcount, by decide +kernel, ?_⟩
  rcases faults_precise hrun with ⟨_, _, _, e, -, -, -, -, hflush⟩ |
    ⟨n, before, after, -, hsteps, -, hlast, hpc, hn, -, hroutine⟩
  · cases hflush
  · have hone : 1 = n := hcount.symm.trans (hn fun _ _ hbound => by cases hbound)
    subst hone
    refine ⟨before, hsteps, hpc, ?_⟩
    -- The instruction before it is the only one.
    have hbefore : (step {} crowded.started).2 = before := by
      cases hsteps with
      | succ hstep hrest =>
        cases hrest
        rw [hstep]
    have hcall : before.decode.toOption = some ⟨⟨.call, false, false⟩, 518, 2, 403⟩ := by
      rw [← hbefore]
      decide +kernel
    have habove : codeStart ≤ before.a.signed := by
      rw [← hbefore]
      decide +kernel
    obtain ⟨memory, journal, hafter, -, hcells⟩ := hroutine fun i hi => by
      rw [hi] at hcall
      cases hcall
      exact ⟨rfl, habove⟩
    rw [hlast, hafter]
    exact ⟨⟨rfl, rfl, rfl⟩, hcells⟩

end Machine

end Intcode
