import Intcode.Proofs.Machine.Conduct

/-!
# Steps one after the other

What one step does, as equations that later files use without opening it, and what a
run makes of them: a number of instructions are completed one after the other, and
then the run is at its bound or one more instruction ends it.
-/

namespace Intcode.Machine

/-- An action on the memory. -/
theorem onMemory_apply {α : Type} (x : Action Memory α) (m : Machine) :
    onMemory x m = match x m.memory with
      | .ok a memory => .ok a { m with memory }
      | .error e memory => .error e { m with memory } := by
  simp only [onMemory, Action.on]
  cases x m.memory <;> rfl

/-- A call whose code has no handler of the host is served by the machine itself. -/
theorem systemCall_of_unbound {bindings : Bindings} {code : Cell}
    (hbound : bindings.get? code = none) (args : Int) :
    systemCall bindings code args = systemCall {} code args := by
  unfold systemCall
  rw [hbound]
  rfl

/-- A call whose code has a handler of the host is served by that. -/
theorem systemCall_of_bound {bindings : Bindings} {code : Cell} {handler : Handler}
    (hbound : bindings.get? code = some handler) (args : Int) :
    systemCall bindings code args = handler args := by
  unfold systemCall
  rw [hbound]
  rfl

/-- Only calls look at the handlers. -/
theorem execute_of_ne_call {f : Function} (hf : f ≠ .call) (bindings : Bindings) (d : Cell) :
    execute bindings f d = execute {} f d := by
  cases f with
  | call => exact absurd rfl hf
  | _ => rfl

/-- Enters the routine at an address in a new frame, which holds the frame base and the address to
go back to. -/
def enter (frame base : Cell) (back target : Int) : Action Machine Unit := do
  onMemory (Memory.setWord frame.address base)
  onMemory (Memory.setWord (frame.address + 1) (Cell.ofInt back))
  modify fun m => { m with sp := frame, pc := target }

/-- A call is a system call or enters a routine. -/
theorem call_apply (bindings : Bindings) (d : Cell) (m : Machine) :
    execute bindings .call d m =
      if m.a.signed < codeStart then systemCall bindings m.a ((d.plus m.sp).address + 2) m
      else enter (d.plus m.sp) m.sp m.pc m.a.address m := by
  simp only [execute, call, Action.bind_apply, Action.get_apply]
  split <;> rfl

/-- The machine about to execute an instruction: it has been noted, and the program counter is
past it. -/
def ready (m : Machine) (i : Instruction) : Machine :=
  { m with
    pc := i.next
    peripherals := m.peripherals.traced (.step (m.traceStep i)) }

section Step

variable {bindings : Bindings} {m : Machine}

/-- An instruction that cannot be decoded fails at once. -/
theorem step_of_error {e : Failure} (hdecode : m.decode = .error e) :
    step bindings m = (.ofFailure m.pc e, m) := by
  unfold step
  rw [hdecode]

/-- An instruction that can be decoded is executed. -/
theorem step_of_ok {i : Instruction} (hdecode : m.decode = .ok i) :
    step bindings m = endStep m.pc (execute bindings i.opcode.function i.operand (m.ready i)) := by
  unfold step
  rw [hdecode]
  simp only [noteStep_eq]
  rfl

/-- The program goes on after an instruction that can be decoded and executed and that does not stop
it. -/
theorem step_eq_running_iff {m' : Machine} :
    step bindings m = (.running, m') ↔
      ∃ i m₁, m.decode = .ok i ∧
        execute bindings i.opcode.function i.operand (m.ready i) = .ok () m₁ ∧
        m₁.verdict = none ∧ m' = { m₁ with instructions := m₁.instructions + 1 } := by
  constructor
  · intro hstep
    cases hdecode : m.decode with
    | error e =>
      rw [step_of_error hdecode] at hstep
      cases e <;> cases hstep
    | ok i =>
      rw [step_of_ok hdecode] at hstep
      cases hexecute : execute bindings i.opcode.function i.operand (m.ready i) with
      | error e m₁ =>
        rw [hexecute] at hstep
        cases e <;> cases hstep
      | ok u m₁ =>
        rw [hexecute, endStep, verdict_counted] at hstep
        cases hverdict : m₁.verdict with
        | some result =>
          rw [hverdict] at hstep
          cases hstep
        | none =>
          rw [hverdict] at hstep
          exact ⟨i, m₁, rfl, hexecute, hverdict, (Prod.mk.inj hstep).2.symm⟩
  · rintro ⟨i, m₁, hdecode, hexecute, hverdict, rfl⟩
    rw [step_of_ok hdecode, hexecute, endStep, verdict_counted, hverdict]

end Step

/-- The given number of instructions are completed one after the other, and the program goes on. -/
inductive Steps (bindings : Bindings) : Nat → Machine → Machine → Prop
  | zero (m : Machine) : Steps bindings 0 m m
  | succ {n : Nat} {m m' m'' : Machine} (hstep : step bindings m = (.running, m'))
      (hsteps : Steps bindings n m' m'') : Steps bindings (n + 1) m m''

section Steps

variable {bindings : Bindings} {n k : Nat} {m m' m'' : Machine}

/-- One step. -/
theorem steps_one (h : (step bindings m).1 = .running) :
    Steps bindings 1 m (step bindings m).2 := by
  have hstep : step bindings m = (.running, (step bindings m).2) := by rw [← h]
  exact .succ hstep (.zero _)

/-- Steps can be followed by steps. -/
theorem Steps.trans (h : Steps bindings n m m') (h' : Steps bindings k m' m'') :
    Steps bindings (n + k) m m'' := by
  induction h with
  | zero m => rwa [Nat.zero_add]
  | succ hstep _ ih =>
    rw [Nat.add_right_comm]
    exact .succ hstep (ih h')

/-- One more step after a number of them. -/
theorem Steps.tail (h : Steps bindings n m m') (hstep : step bindings m' = (.running, m'')) :
    Steps bindings (n + 1) m m'' :=
  h.trans (.succ hstep (.zero m''))

/-- What every step keeps, all of them keep. -/
theorem Steps.preserves {I : Machine → Prop} (h : Steps bindings n m m')
    (hstep : ∀ m m', step bindings m = (.running, m') → I m → I m') (hm : I m) : I m' := by
  induction h with
  | zero m => exact hm
  | succ hfirst _ ih => exact ih (hstep _ _ hfirst hm)

/-- A run goes on after its first steps. -/
theorem Steps.proceed_eq (h : Steps bindings n m m') (limit : Nat) :
    proceed bindings (n + limit) m = proceed bindings limit m' := by
  induction h with
  | zero m => rw [Nat.zero_add]
  | succ hstep _ ih =>
    rw [Nat.add_right_comm, proceed, hstep]
    exact ih

/-- A run is at its bound, or one more instruction after those that were completed ends it. -/
theorem proceed_cases (bindings : Bindings) (limit : Nat) (m : Machine) :
    (∃ m', Steps bindings limit m m' ∧ proceed bindings limit m = (.running, m')) ∨
      ∃ n m', n ≤ limit ∧ Steps bindings n m m' ∧ (step bindings m').1 ≠ .running ∧
        proceed bindings limit m = step bindings m' := by
  induction limit generalizing m with
  | zero =>
    rw [proceed]
    cases hdecode : m.decode with
    | ok i => exact .inl ⟨m, .zero m, rfl⟩
    | error e =>
      refine .inr ⟨0, m, Nat.le_refl 0, .zero m, ?_, (step_of_error hdecode).symm⟩
      rw [step_of_error hdecode]
      cases e <;> simp [Progress.ofFailure]
  | succ limit ih =>
    cases hstep : step bindings m with
    | mk progress next =>
      by_cases hrunning : progress = .running
      · subst hrunning
        rw [proceed, hstep]
        rcases ih next with ⟨last, hsteps, heq⟩ | ⟨n, last, hle, hsteps, hends, heq⟩
        · exact .inl ⟨last, .succ hstep hsteps, heq⟩
        · exact .inr ⟨n + 1, last, Nat.succ_le_succ hle, .succ hstep hsteps, hends, heq⟩
      · refine .inr ⟨0, m, Nat.zero_le _, .zero m, by rw [hstep]; exact hrunning, ?_⟩
        rw [proceed, hstep]
        cases progress with
        | running => exact absurd rfl hrunning
        | _ => rfl

end Steps

end Intcode.Machine
