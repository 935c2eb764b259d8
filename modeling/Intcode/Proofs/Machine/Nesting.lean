import Intcode.Proofs.Machine.Faults
import Intcode.Proofs.Machine.Frames
import Intcode.Proofs.Machine.Outcomes

/-!
# Nested calls

The machine keeps no stack of calls: the frames are linked through two words each,
and the link words lie in the memory of the program. A list of activations beside
the machine records what each call that has not been returned from found: an entry
is pushed when a routine is entered and popped at a return.

As long as nothing stores into the link words of these activations and nothing
else changes the frame base, the links in the memory agree with the list. So the
frame base is the frame of the last activation, and each return restores what its
call found, however deep the calls are nested.
-/

namespace Intcode

/-- A call that has not been returned from. -/
structure Activation where
  /-- The frame that the call made. -/
  frame : Cell
  /-- The frame base at the call. -/
  base : Cell
  /-- The address of the instruction after the call. -/
  back : Int
deriving DecidableEq, Repr

namespace Activation

/-- The frame base that the activations lead to, the last one first. -/
def current (initial : Cell) : List Activation → Cell
  | [] => initial
  | top :: _ => top.frame

/-- The link words of an activation are the same in two memories. -/
def Kept (memory memory' : Memory) (activation : Activation) : Prop :=
  ∀ k < 2, memory'.cellAt (activation.frame.toNat + k) =
    memory.cellAt (activation.frame.toNat + k)

instance (memory memory' : Memory) (activation : Activation) :
    Decidable (activation.Kept memory memory') := inferInstanceAs (Decidable (∀ k < 2, _))

/-- The link words in the memory agree with the activations. -/
inductive Linked (memory : Memory) (initial : Cell) : List Activation → Prop
  | nil : Linked memory initial []
  | cons {top : Activation} {rest : List Activation}
      (hfits : top.frame.toNat + 1 < memory.size)
      (hbase : memory.cellAt top.frame.toNat = top.base)
      (hback : memory.cellAt (top.frame.toNat + 1) = Cell.ofInt top.back)
      (hbounds : 0 ≤ top.back ∧ top.back ≤ 65535)
      (hcaller : top.base = current initial rest)
      (h : Linked memory initial rest) : Linked memory initial (top :: rest)

/-- The activations are linked as before when their link words are. -/
theorem Linked.congr {memory memory' : Memory} {initial : Cell} {stack : List Activation}
    (h : Linked memory initial stack) (hsize : memory'.size = memory.size)
    (hkept : ∀ activation ∈ stack, activation.Kept memory memory') :
    Linked memory' initial stack := by
  induction h with
  | nil => exact .nil
  | cons hfits hbase hback hbounds hcaller _ ih =>
    have htop := hkept _ List.mem_cons_self
    refine .cons (hsize ▸ hfits) ?_ ?_ hbounds hcaller
      (ih fun activation hrest => hkept activation (List.mem_cons_of_mem _ hrest))
    · exact (htop 0 (by decide)).trans hbase
    · exact (htop 1 (by decide)).trans hback

end Activation

/-- An instruction that returns from the current frame. -/
def Instruction.Returns (i : Instruction) : Prop :=
  i.opcode.function = .operate ∧ Operation.ofCell? i.operand = some .leave

instance (i : Instruction) : Decidable i.Returns := inferInstanceAs (Decidable (_ ∧ _))

namespace Machine

/-- The instruction enters a routine. -/
def Enters (m : Machine) (i : Instruction) : Prop :=
  i.opcode.function = .call ∧ codeStart ≤ m.a.signed

instance (m : Machine) (i : Instruction) : Decidable (m.Enters i) :=
  inferInstanceAs (Decidable (_ ∧ _))

/-- The instruction is a system call that a handler of the host serves, or one of the two that
change the frame base. -/
def Disrupts (bindings : Bindings) (m : Machine) (i : Instruction) : Prop :=
  i.opcode.function = .call ∧ m.a.signed < codeStart ∧
    ((bindings.get? m.a).isSome ∨ SystemCall.ofCell? m.a = some .longJump ∨
      SystemCall.ofCell? m.a = some .applyToVector)

instance (bindings : Bindings) (m : Machine) (i : Instruction) :
    Decidable (Disrupts bindings m i) := inferInstanceAs (Decidable (_ ∧ _ ∧ (_ ∨ _ ∨ _)))

/-- The activations after an instruction. -/
def activations (m : Machine) (i : Instruction) (stack : List Activation) : List Activation :=
  if m.Enters i then ⟨i.operand.plus m.sp, m.sp, i.next⟩ :: stack
  else if i.Returns then stack.tail
  else stack

/-- The instruction keeps calls and returns in order: it does not disrupt them, and it returns only
from a call. -/
def Orderly (bindings : Bindings) (m : Machine) (i : Instruction) (stack : List Activation) :
    Prop :=
  ¬ Disrupts bindings m i ∧ (i.Returns → stack ≠ [])

instance (bindings : Bindings) (m : Machine) (i : Instruction) (stack : List Activation) :
    Decidable (Orderly bindings m i stack) := inferInstanceAs (Decidable (_ ∧ (_ → _)))

/-- The machine after a number of steps that keep calls and returns in order and the link words of
all activations as they are, with the activations that there are then. -/
inductive Nested (bindings : Bindings) (m₀ : Machine) : List Activation → Machine → Prop
  | start : Nested bindings m₀ [] m₀
  | step {stack : List Activation} {m m' : Machine} {i : Instruction}
      (h : Nested bindings m₀ stack m) (hdecode : m.decode = .ok i)
      (horderly : Orderly bindings m i stack) (hstep : step bindings m = (.running, m'))
      (hkept : ∀ activation ∈ stack, activation.Kept m.memory m'.memory) :
      Nested bindings m₀ (m.activations i stack) m'

section FrameBase

open Action

/-- Machines with the same frame base. -/
def SameBase (m m' : Machine) : Prop := m'.sp = m.sp

instance : Std.Refl SameBase := ⟨fun _ => rfl⟩

instance : Trans SameBase SameBase SameBase := ⟨fun h h' => Eq.trans h' h⟩

/-- Of the extended operations only the return changes the frame base. -/
theorem sameBase_operate {x : Cell} (hx : Operation.ofCell? x ≠ some .leave) :
    Stays SameBase (operate x) := by
  unfold operate
  cases hop : Operation.ofCell? x with
  | none => exact stays_throw _
  | some op =>
    cases op with
    | dereference =>
      exact stays_get_bind fun _ => (stays_read _).bind fun _ => stays_modify fun _ => rfl
    | leave => exact absurd hop hx
    | switch => exact (stays_read _).bind fun _ => stays_modify fun _ => rfl
    | _ => exact stays_modify fun _ => rfl

/-- Of the system calls that the machine serves itself only two change the frame base. -/
theorem sameBase_systemCall {code : Cell} (hjump : SystemCall.ofCell? code ≠ some .longJump)
    (hvector : SystemCall.ofCell? code ≠ some .applyToVector) (args : Int) :
    Stays SameBase (systemCall {} code args) := by
  rcases systemCall_cases code args with ⟨call, handler, hcode, hcall, hserve⟩ | ⟨-, e, hserve⟩
  · rw [hserve]
    intro m
    refine (inPlace_builtIn hcall ?_ ?_ args m).sp
    · rintro rfl
      exact hjump hcode
    · rintro rfl
      exact hvector hcode
  · rw [hserve]
    exact stays_throw e

/-- An instruction that neither enters a routine nor returns nor disrupts keeps the frame base,
whether it succeeds or fails. -/
theorem sp_execute {bindings : Bindings} {m : Machine} {i : Instruction}
    (hplain : ¬ Disrupts bindings m i) (henters : ¬ m.Enters i) (hreturns : ¬ i.Returns) :
    ((execute {} i.opcode.function i.operand).final (m.ready i)).sp = m.sp := by
  cases hf : i.opcode.function with
  | load | add | jump => rfl
  | store =>
    refine stays_get_bind (R := SameBase) (fun _ => ?_) (m.ready i)
    exact fun m => (inPlace_onMemory (Memory.sameSize_setWord _ _) m).sp
  | jumpTrue | jumpFalse =>
    refine stays_modify (R := SameBase) (fun m => ?_) (m.ready i)
    split <;> rfl
  | operate => exact sameBase_operate (fun hleave => hreturns ⟨hf, hleave⟩) (m.ready i)
  | call =>
    have hlt : (m.ready i).a.signed < codeStart := Int.not_le.mp fun hle => henters ⟨hf, hle⟩
    rw [final, call_apply, if_pos hlt]
    refine sameBase_systemCall ?_ ?_ _ (m.ready i)
    · exact fun hjump => hplain ⟨hf, hlt, .inr (.inl hjump)⟩
    · exact fun hvector => hplain ⟨hf, hlt, .inr (.inr hvector)⟩

end FrameBase

section Steps

variable {bindings : Bindings} {m₀ m m' : Machine} {i : Instruction} {stack : List Activation}

/-- Where no handler of the host is called the machine has only the built-in calls. -/
theorem step_of_not_disrupts (hdecode : m.decode = .ok i) (hplain : ¬ Disrupts bindings m i) :
    step bindings m = step {} m := by
  rw [step_of_ok hdecode, step_of_ok hdecode]
  congr 1
  by_cases hf : i.opcode.function = .call
  · rw [hf, call_apply, call_apply]
    by_cases hlt : (m.ready i).a.signed < codeStart
    · have hunbound : bindings.get? m.a = none := by
        rw [← Option.not_isSome_iff_eq_none]
        exact fun hsome => hplain ⟨hf, hlt, .inl hsome⟩
      rw [if_pos hlt, if_pos hlt]
      exact congrFun (systemCall_of_unbound hunbound _) _
    · rw [if_neg hlt, if_neg hlt]
  · rw [execute_of_ne_call hf]

/-- The frame base and the links agree with the activations. -/
structure Nesting (m₀ : Machine) (stack : List Activation) (m : Machine) : Prop where
  size : m.memory.size = m₀.memory.size
  pc : 0 ≤ m.pc ∧ m.pc ≤ 65535
  verdict : m.verdict = none
  sp : m.sp = Activation.current m₀.sp stack
  linked : Activation.Linked m.memory m₀.sp stack

/-- A routine that is entered is linked to its caller. -/
theorem Nesting.linked_of_enters (h : Nesting m₀ stack m) (henters : m.Enters i)
    (hnext : 0 ≤ i.next ∧ i.next ≤ 65535)
    (hexecute : execute {} i.opcode.function i.operand (m.ready i) = .ok () m')
    (hkept : ∀ activation ∈ stack, activation.Kept m.memory m'.memory) :
    m'.sp = i.operand.plus m.sp ∧
      Activation.Linked m'.memory m₀.sp (⟨i.operand.plus m.sp, m.sp, i.next⟩ :: stack) := by
  have hlarge : ¬ (m.ready i).a.signed < codeStart := Int.not_lt.mpr henters.2
  rw [henters.1, call_apply, if_neg hlarge] at hexecute
  change Machine.enter (i.operand.plus m.sp) m.sp i.next m.a.address (m.ready i) = _ at hexecute
  have hfits : (i.operand.plus m.sp).toNat + 1 < m.memory.size :=
    fits_of_enter (m := m.ready i) hexecute
  rw [enter_eq (m := m.ready i) hfits] at hexecute
  cases hexecute
  have hword (k : Nat) (hk : k < 2) :
      (m.memory.storeWords (i.operand.plus m.sp).toNat [m.sp, Cell.ofInt i.next]).cellAt
        ((i.operand.plus m.sp).toNat + k) = [m.sp, Cell.ofInt i.next].getD k 0 := by
    have hlength : [m.sp, Cell.ofInt i.next].length = 2 := rfl
    rw [Memory.cellAt_storeWords (by omega), if_pos (by omega), Nat.add_sub_cancel_left]
  refine ⟨rfl, .cons ?_ (hword 0 (by decide)) (hword 1 (by decide)) hnext h.sp ?_⟩
  · exact (Memory.size_storeWords ..).symm ▸ hfits
  · exact h.linked.congr (Memory.size_storeWords ..) hkept

/-- A return from an activation restores what its call found. -/
theorem Nesting.execute_returns {top : Activation} {rest : List Activation}
    (h : Nesting m₀ (top :: rest) m) (hsize : m₀.memory.size ≤ 32768) (hreturns : i.Returns) :
    execute {} i.opcode.function i.operand (m.ready i) =
      .ok () { m.ready i with sp := top.base, pc := top.back } := by
  obtain ⟨hf, hleave⟩ := hreturns
  have hsp : (m.ready i).sp = top.frame := h.sp
  have hsame := h.size
  have hoperate : execute {} i.opcode.function i.operand = leave := by
    rw [hf]
    exact operate_of_leave hleave
  rw [hoperate]
  cases h.linked with
  | cons hfits hbase hback hbounds _ _ =>
    rw [← hsp] at hfits hbase hback
    exact leave_eq hfits (by omega) hbase hback hbounds

/-- The end of a step leaves the frame base alone. -/
theorem sp_endStep (pc : Int) (r : EStateM.Result Failure Machine Unit) :
    (endStep pc r).2.sp = (Action.stateOf r).sp := by
  cases r with
  | error e m => rfl
  | ok _ m =>
    rw [endStep]
    split <;> rfl

/-- An instruction that completes without asking for a stop does not end the run. -/
theorem endStep_of_verdict {pc : Int} (hverdict : m.verdict = none) :
    (endStep pc (.ok () m)).1 = .running := by
  rw [endStep, verdict_counted, hverdict]

/-- An instruction that ends the run keeps the frame base. -/
theorem Nesting.sp_of_ended (h : Nesting m₀ stack m) (hsize : m₀.memory.size ≤ 32768)
    (hdecode : m.decode = .ok i) (horderly : Orderly bindings m i stack)
    (hended : (step bindings m).1 ≠ .running) : (step bindings m).2.sp = m.sp := by
  obtain ⟨hplain, hcalled⟩ := horderly
  rw [step_of_not_disrupts hdecode hplain, step_of_ok hdecode] at hended ⊢
  rw [sp_endStep]
  by_cases henters : m.Enters i
  · -- a routine that is entered goes on, so this one is not
    have hlarge : ¬ (m.ready i).a.signed < codeStart := Int.not_lt.mpr henters.2
    rw [henters.1, call_apply, if_neg hlarge] at hended ⊢
    cases hrun : enter (i.operand.plus (m.ready i).sp) (m.ready i).sp (m.ready i).pc
        (m.ready i).a.address (m.ready i) with
    | ok u m₁ =>
      rw [enter_eq (fits_of_enter hrun)] at hended
      exact (hended (endStep_of_verdict h.verdict)).elim
    | error e m₁ =>
      obtain ⟨memory, rfl, -, -⟩ := enter_eq_error hrun
      rfl
  · by_cases hreturns : i.Returns
    · obtain ⟨top, rest, rfl⟩ := List.exists_cons_of_ne_nil (hcalled hreturns)
      rw [h.execute_returns hsize hreturns] at hended
      exact (hended (endStep_of_verdict h.verdict)).elim
    · exact sp_execute hplain henters hreturns

/-- Every step that keeps calls and returns in order keeps the agreement. -/
theorem Nesting.step (h : Nesting m₀ stack m) (hsize : m₀.memory.size ≤ 32768)
    (hdecode : m.decode = .ok i) (horderly : Orderly bindings m i stack)
    (hstep : step bindings m = (.running, m'))
    (hkept : ∀ activation ∈ stack, activation.Kept m.memory m'.memory) :
    Nesting m₀ (m.activations i stack) m' := by
  obtain ⟨hplain, hcalled⟩ := horderly
  rw [step_of_not_disrupts hdecode hplain] at hstep
  have hsize' : m.memory.size ≤ 32768 := h.size ▸ hsize
  have hnext := next_bounds_of_decode hsize' h.pc hdecode
  have hpc := pc_bounds_of_step hsize' h.pc hstep
  obtain ⟨i', m₁, hdecode', hexecute, hverdict, rfl⟩ := step_eq_running_iff.mp hstep
  obtain rfl : i = i' := Except.ok.inj (hdecode.symm.trans hdecode')
  have hconfined := confined_execute i.opcode.function i.operand (m.ready i)
  rw [Action.final, hexecute, Action.stateOf_ok] at hconfined
  have hsame : m₁.memory.size = m.memory.size := hconfined.size
  unfold activations
  by_cases henters : m.Enters i
  · rw [if_pos henters]
    obtain ⟨hsp, hlinked⟩ := h.linked_of_enters henters hnext hexecute hkept
    exact ⟨hsame.trans h.size, hpc, hverdict, hsp, hlinked⟩
  · rw [if_neg henters]
    by_cases hreturns : i.Returns
    · rw [if_pos hreturns]
      obtain ⟨top, rest, rfl⟩ := List.exists_cons_of_ne_nil (hcalled hreturns)
      rw [h.execute_returns hsize hreturns] at hexecute
      cases hexecute
      cases h.linked with
      | cons _ _ _ _ hcaller hrest => exact ⟨h.size, hpc, h.verdict, hcaller, hrest⟩
    · rw [if_neg hreturns]
      have hsp := sp_execute hplain henters hreturns
      rw [Action.final, hexecute, Action.stateOf_ok] at hsp
      exact ⟨hsame.trans h.size, hpc, hverdict, hsp.trans h.sp, h.linked.congr hsame hkept⟩

/-- The frame base and the links agree with the activations all along. -/
theorem Nested.nesting (h : Nested bindings m.started stack m')
    (hsize : m.memory.size ≤ 32768) : Nesting m.started stack m' := by
  induction h with
  | start =>
    refine ⟨rfl, ?_, rfl, rfl, .nil⟩
    change 0 ≤ codeStart ∧ codeStart ≤ 65535
    decide
  | step _ hdecode horderly hstep hkept ih => exact ih.step hsize hdecode horderly hstep hkept

end Steps

/-- In every run, as long as calls and returns are in order and the link words are kept, the frame
base is the frame of the last activation, or the first frame base where there is none; a return
succeeds and restores the frame base and the address that its call found; and an instruction that
ends the run keeps the frame base. -/
theorem calls_nest {bindings : Bindings} {m m' : Machine} {stack : List Activation}
    (hsize : isMemorySize m.memory.size) (h : Nested bindings m.started stack m') :
    m'.sp = Activation.current m.started.sp stack ∧
    (∀ i top rest, m'.decode = .ok i → i.Returns → stack = top :: rest →
      ∃ m'', step bindings m' = (.running, m'') ∧ m''.sp = top.base ∧ m''.pc = top.back) ∧
    ∀ i, m'.decode = .ok i → Orderly bindings m' i stack → (step bindings m').1 ≠ .running →
      (step bindings m').2.sp = m'.sp := by
  simp only [isMemorySize, Bool.and_eq_true, decide_eq_true_eq] at hsize
  have hsize' : m.started.memory.size ≤ 32768 := Int.ofNat_le.mp hsize.2
  have hnesting := h.nesting hsize'
  refine ⟨hnesting.sp, ?_, fun i hdecode horderly => hnesting.sp_of_ended hsize' hdecode horderly⟩
  rintro i top rest hdecode hreturns rfl
  have hplain : ¬ Disrupts bindings m' i := by
    rintro ⟨hcall, -⟩
    rw [hreturns.1] at hcall
    cases hcall
  rw [step_of_not_disrupts hdecode hplain]
  exact ⟨_, step_eq_running_iff.mpr ⟨i, _, hdecode, hnesting.execute_returns hsize' hreturns,
    hnesting.verdict, rfl⟩, rfl, rfl⟩

/-- A machine whose program calls a routine at 404, which calls one at 408, which returns. -/
def nestedCalls : Machine where
  memory := .ofFn 420 fun k =>
    if k = 1 then 404 else if k < 404 then initialCell k else
      [Opcode.longWord ⟨.load, false, false⟩, 408, Opcode.shortWord ⟨.call, false, false⟩ 3,
        Opcode.shortWord ⟨.operate, false, false⟩ 4,
        Opcode.shortWord ⟨.operate, false, false⟩ 4].getD (k - 404) 0
  lomem := 409
  peripherals := .ofDefaults (.script [] none) (.device {}) default false

/-- One more step of a run that can be computed. -/
theorem nested_next {bindings : Bindings} {m₀ m : Machine} {stack stack' : List Activation}
    (h : Nested bindings m₀ stack m) {i : Instruction} (hdecode : m.decode.toOption = some i)
    (horderly : Orderly bindings m i stack) (hrunning : (step bindings m).1 = .running)
    (hkept : ∀ activation ∈ stack, activation.Kept m.memory (step bindings m).2.memory)
    (hstack : m.activations i stack = stack') :
    Nested bindings m₀ stack' (step bindings m).2 :=
  hstack ▸ .step h (eq_ok_of_toOption hdecode) horderly (by rw [← hrunning]) hkept

/-- In the routine that is called from a routine the frame base is that of the second call, and the
return from there leads back into the first one. -/
theorem calls_nest_twice :
    ∃ m', Nested {} nestedCalls.started [⟨414, 411, 407⟩, ⟨411, 409, 403⟩] m' ∧ m'.sp = 414 ∧
      ∃ m'', step {} m' = (.running, m'') ∧ m''.sp = 411 ∧ m''.pc = 407 := by
  have hsize : isMemorySize nestedCalls.memory.size := by decide +kernel
  have hstart : Nested {} nestedCalls.started [] _ := .start
  have hload : Nested {} nestedCalls.started [] _ :=
    nested_next (i := ⟨⟨.load, true, false⟩, 264, 404, 402⟩) hstart (by decide +kernel)
      (by decide +kernel) (by decide +kernel) (by decide +kernel) (by decide +kernel)
  have hfirst : Nested {} nestedCalls.started [⟨411, 409, 403⟩] _ :=
    nested_next (i := ⟨⟨.call, false, false⟩, 518, 2, 403⟩) hload (by decide +kernel)
      (by decide +kernel) (by decide +kernel) (by decide +kernel) (by decide +kernel)
  have hload' : Nested {} nestedCalls.started [⟨411, 409, 403⟩] _ :=
    nested_next (i := ⟨⟨.load, false, false⟩, 32, 408, 406⟩) hfirst (by decide +kernel)
      (by decide +kernel) (by decide +kernel) (by decide +kernel) (by decide +kernel)
  have hsecond : Nested {} nestedCalls.started [⟨414, 411, 407⟩, ⟨411, 409, 403⟩] _ :=
    nested_next (i := ⟨⟨.call, false, false⟩, 774, 3, 407⟩) hload' (by decide +kernel)
      (by decide +kernel) (by decide +kernel) (by decide +kernel) (by decide +kernel)
  obtain ⟨hsp, hreturn, -⟩ := calls_nest hsize hsecond
  refine ⟨_, hsecond, hsp, hreturn ⟨⟨.operate, false, false⟩, 1031, 4, 409⟩ _ _ ?_ ?_ rfl⟩
  · exact eq_ok_of_toOption (by decide +kernel)
  · decide

end Machine

end Intcode
