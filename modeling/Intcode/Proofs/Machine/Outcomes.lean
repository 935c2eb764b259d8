import Intcode.Proofs.Machine.Footprint

/-!
# The outcomes of a step

Main statement: in a run with the built-in calls only, a step completes, stops the run, or
fails in one of a few ways, and each way has its exact condition. One condition keeps the
step from ending at all: a file is found when every handle is in use.
-/

namespace Intcode

/-- The numbers without an operation are those outside the list. -/
theorem Operation.ofCell?_eq_none_iff (d : Cell) :
    ofCell? d = none ↔ ¬(1 ≤ d.toInt ∧ d.toInt ≤ 23) := by
  have hlt := d.isLt
  have hlength : all.length = 23 := rfl
  have hsigned := BitVec.toInt_eq_toNat_cond d
  unfold ofCell?
  cases hd : d.toNat with
  | zero =>
    rw [hd] at hsigned
    have hzero : d.toInt = 0 := by rw [hsigned]; rfl
    simp [hzero]
  | succ n =>
    rw [hd] at hsigned hlt
    simp only [List.getElem?_eq_none_iff, hlength]
    split at hsigned <;> omega

/-- The codes of the built-in calls. -/
def builtInCodes : List Nat :=
  [1, 3, 4, 11, 12, 13, 14, 16, 17, 30, 31, 32, 40, 41, 42, 46, 47, 60, 62, 63, 64, 66, 67, 68, 70,
    75, 76, 77, 85, 86]

/-- The codes in the list are those with a handler. -/
theorem builtIn?_eq_none_iff (code : Cell) :
    (SystemCall.ofCell? code).bind Machine.builtIn? = none ↔ code.toNat ∉ builtInCodes := by
  unfold SystemCall.ofCell?
  split <;> simp_all [builtInCodes, Machine.builtIn?]

/-- A refusal of the host is no fatal condition. -/
theorem Report.host_ne_fatal {context : String} {error : HostError} {contexts : List Text}
    {condition : Condition} {argument : Int} :
    Report.host context error ≠ ⟨contexts, .fatal condition argument⟩ := by
  intro h
  cases congrArg Report.cause h

/-- The next instruction is one or two words further. -/
theorem Instruction.next_bounds {m : Memory} {pc : Int} {sp : Cell} {i : Instruction}
    (hdecode : decode m pc sp = .ok i) : pc < i.next ∧ i.next ≤ pc + 2 := by
  obtain ⟨w, -, hrest⟩ := exists_of_bind_eq_ok hdecode
  obtain ⟨⟨d, next⟩, hraw, hoperand⟩ := exists_of_bind_eq_ok hrest
  have hnext : i.next = next := by
    dsimp only at hoperand
    split at hoperand
    · obtain ⟨_, -, hi⟩ := exists_of_bind_eq_ok hoperand
      cases hi
      rfl
    · cases hoperand
      rfl
  rw [hnext]
  unfold rawOperand at hraw
  split at hraw
  · obtain ⟨_, -, hlong⟩ := exists_of_bind_eq_ok hraw
    cases hlong
    exact ⟨by omega, by omega⟩
  · cases hraw
    exact ⟨by omega, by omega⟩

/-- The case that a value finds in a jump table is one of its cases. -/
theorem Switch.lookup_lt {table : Switch} {v : Cell} {k : Nat}
    (h : (table.lookup v).2 = some k) : k < table.cases.length := by
  unfold lookup at h
  cases hfound : table.cases.findIdx? (·.1 = v) with
  | some j =>
    rw [hfound] at h
    cases h
    exact (List.findIdx?_eq_some_iff_findIdx_eq.mp hfound).1
  | none =>
    rw [hfound] at h
    cases h

/-- The digits of a number are among those of its base. -/
theorem Text.mem_lowDigitsBefore {base k n : Nat} {t : Text} {c : UInt8} (hbase : 0 < base)
    (hc : c ∈ lowDigitsBefore base k n t) : c ∈ t ∨ ∃ d < base, c = digit d := by
  induction k generalizing n t with
  | zero => exact .inl hc
  | succ k ih =>
    rcases ih hc with hmem | hdigit
    · rcases List.mem_cons.mp hmem with rfl | ht
      · exact .inr ⟨n % base, Nat.mod_lt _ hbase, rfl⟩
      · exact .inl ht
    · exact .inr hdigit

/-- The digits that a number can have. -/
def Text.digits : Text := ofAscii "0123456789ABCDEF"

/-- Octal and hexadecimal numbers are written with digits. -/
theorem Conversion.mem_render {conversion : Conversion} (hconversion : conversion ≠ .decimal)
    {width : Int} {n : Cell} {c : UInt8} (hc : c ∈ (conversion.render width n).toText) :
    c ∈ Text.digits := by
  have hdigit : ∀ d < 16, Text.digit d ∈ Text.digits := by decide
  have hdigits (base most : Nat) (hbase : 0 < base ∧ base ≤ 16)
      (hmem : c ∈ (Padded.lowDigits base most width n.toNat).toText) : c ∈ Text.digits := by
    rcases List.mem_append.mp hmem with hfill | htext
    · rw [List.eq_of_mem_replicate hfill]
      exact hdigit 0 (by omega)
    · rcases Text.mem_lowDigitsBefore hbase.1 htext with hnil | ⟨d, hd, rfl⟩
      · cases hnil
      · exact hdigit d (by omega)
  cases conversion with
  | octal => exact hdigits 8 6 ⟨by decide, by decide⟩ hc
  | hex => exact hdigits 16 4 ⟨by decide, by decide⟩ hc
  | decimal => exact absurd rfl hconversion

namespace Peripherals

variable {p : Peripherals}

/-- Reading from a stream that is not open gives the end of the stream. -/
theorem readCharacter_of_not_isOpen (h : p.streams.isOpen p.input = false) :
    readCharacter p = .ok endOfStream p := by
  have hnone : p.streams.get? p.input = none := by simpa [StreamTable.isOpen] using h
  rw [readCharacter_apply, hnone]

/-- Writing to a stream that is not open does nothing. -/
theorem writeCharacter_of_not_isOpen (hdefault : p.streams.isOpen defaultOutput = true)
    (h : p.streams.isOpen p.output = false) (c : UInt8) : writeCharacter c p = .ok () p := by
  have hnone : p.streams.get? p.output = none := by simpa [StreamTable.isOpen] using h
  have hput (context : String) (c : UInt8) : putByte context c p = .ok () p := by
    rw [putByte_apply, hnone]
  have hother : p.output ≠ defaultOutput := by
    intro heq
    rw [heq, hdefault] at h
    cases h
  unfold writeCharacter
  split
  · rw [newline_apply, hput]
    exact if_neg hother
  · exact hput _ c

end Peripherals

namespace Machine

/-- The outcome of a step. -/
def stepOutcome (m : Machine) : Except Failure Unit :=
  m.decode >>= fun i => (execute {} i.opcode.function i.operand).outcome (m.ready i)

/-- The accesses of a step: those of decoding the instruction, and those of executing it. -/
def stepSpans (m : Machine) : List Span :=
  m.memory.instructionSpans m.pc m.sp ++ match m.decode with
    | .ok i => (m.ready i).executeSpans i.operand i.opcode.function
    | .error _ => []

/-- Why a step fails without an access outside the memory. -/
def StepFails (m : Machine) (e : Failure) : Prop :=
  ∃ i, m.decode = .ok i ∧ (m.ready i).ExecuteFails i.operand i.opcode.function e

/-- The instruction at the program counter is a call that finds a file which gets no handle. -/
def Exhausted (m : Machine) : Prop :=
  ∃ i call, m.decode = .ok i ∧ i.opcode.function = .call ∧ m.a.toInt < 401 ∧
    SystemCall.ofCell? m.a = some call ∧ m.Exhausts ((i.operand.plus m.sp).address + 2) call

section Step

variable {m : Machine} {e : Failure}

/-- A step fails at the accesses in its list, or for the other reasons. -/
theorem meets_step (hpc : 0 ≤ m.pc ∧ m.pc ≤ 65535) :
    Meets m.memory.size m.stepSpans m.StepFails m.stepOutcome := by
  refine Meets.bind (Memory.meets_decode hpc m.sp) fun i hi => ?_
  have hdecode : m.decode = .ok i := hi
  have hnext := Instruction.next_bounds hi
  have hready : 0 ≤ (m.ready i).pc ∧ (m.ready i).pc ≤ 0x20000 := by
    change 0 ≤ i.next ∧ i.next ≤ 0x20000
    omega
  rw [hdecode]
  exact (meets_execute hready _ _).mono fun e he => ⟨i, hdecode, he⟩

/-- A step that fails leads to what its failure leads to. -/
theorem step_of_outcome_error (houtcome : m.stepOutcome = .error e) :
    (step {} m).1 = .ofFailure m.pc e := by
  unfold stepOutcome at houtcome
  cases hdecode : m.decode with
  | error e' =>
    rw [hdecode] at houtcome
    cases houtcome
    rw [step_of_error hdecode]
  | ok i =>
    have hexecute : (execute {} i.opcode.function i.operand).outcome (m.ready i) = .error e := by
      rw [hdecode] at houtcome
      exact houtcome
    obtain ⟨m', hrun⟩ := Action.outcome_eq_error_iff.mp hexecute
    rw [step_of_ok hdecode, hrun]
    rfl

/-- A step that does not fail completes, and goes on or stops the run. -/
theorem step_of_outcome_ok {u : Unit} (houtcome : m.stepOutcome = .ok u) :
    (step {} m).1 = .running ∨ ∃ result, (step {} m).1 = .stopped result := by
  obtain ⟨i, hdecode, hexecute⟩ := exists_of_bind_eq_ok houtcome
  obtain ⟨m', hrun⟩ := Action.outcome_eq_ok_iff.mp hexecute
  rw [step_of_ok hdecode, hrun, endStep, verdict_counted]
  cases m'.verdict with
  | none => exact .inl rfl
  | some result => exact .inr ⟨result, rfl⟩

/-- What a step leads to, with the reason. -/
theorem step_cases (hpc : 0 ≤ m.pc ∧ m.pc ≤ 65535) :
    (((step {} m).1 = .running ∨ ∃ result, (step {} m).1 = .stopped result) ∧
        ∀ s ∈ m.stepSpans, s.Inside m.memory.size) ∨
      ((∃ w, (step {} m).1 = .failed ⟨[addressText w], .fatal .machineFault m.pc⟩) ∧
        ∃ s ∈ m.stepSpans, ¬ s.Inside m.memory.size) ∨
      ∃ e, m.StepFails e ∧ (step {} m).1 = .ofFailure m.pc e := by
  have hmeets := meets_step hpc
  cases houtcome : m.stepOutcome with
  | ok u =>
    rw [houtcome] at hmeets
    cases hmeets with
    | ok _ hinside => exact .inl ⟨step_of_outcome_ok houtcome, hinside⟩
  | error e =>
    rw [houtcome] at hmeets
    have hstep := step_of_outcome_error houtcome
    cases hmeets with
    | address w houtside => exact .inr (.inl ⟨⟨w, hstep⟩, houtside⟩)
    | other hfails => exact .inr (.inr ⟨e, hfails, hstep⟩)

/-- Noting an instruction does not change whether a file gets a handle. -/
theorem exhausts_ready (i : Instruction) (args : Int) (call : SystemCall) :
    (m.ready i).Exhausts args call ↔ m.Exhausts args call := by
  have hstreams : (m.ready i).peripherals.streams = m.peripherals.streams :=
    Peripherals.traced_streams ..
  have hhost : (m.ready i).peripherals.host = m.peripherals.host := Peripherals.traced_host ..
  have hfull : (m.ready i).peripherals.IsFull ↔ m.peripherals.IsFull := by
    rw [Peripherals.IsFull, Peripherals.IsFull, hstreams]
  have hfile (name : Text) :
      (m.ready i).peripherals.HasFile name call ↔ m.peripherals.HasFile name call := by
    unfold Peripherals.HasFile
    rw [hhost]
  unfold Exhausts
  simp only [hfile, hfull]
  rfl

/-- The reasons for which a step fails without an access outside the memory. -/
theorem StepFails.cases (h : m.StepFails e) :
    (∃ i, m.decode = .ok i ∧ i.opcode.function = .operate ∧
        Operation.ofCell? i.operand = none ∧
        e = .report (.fatal .unknownOperation i.operand.toInt)) ∨
      (∃ i, m.decode = .ok i ∧ i.opcode.function = .call ∧ m.a.toInt < 401 ∧
        m.a.toNat ∉ builtInCodes ∧ e = .report (.fatal .unknownCall m.a.toInt)) ∨
      Refused e ∨ e = .endless ∧ m.Exhausted := by
  obtain ⟨i, hdecode, hfails⟩ := h
  generalize hf : i.opcode.function = f at hfails
  cases hfails with
  | operation hnone => exact .inl ⟨i, hdecode, hf, hnone, rfl⟩
  | unknown hbelow hnone =>
    exact .inr (.inl ⟨i, hdecode, hf, hbelow, (builtIn?_eq_none_iff m.a).mp hnone, rfl⟩)
  | call hbelow hcode hfails =>
    rcases hfails with hrefused | ⟨rfl, hexhausts⟩
    · exact .inr (.inr (.inl hrefused))
    · have hm := (exhausts_ready i _ _).mp hexhausts
      exact .inr (.inr (.inr ⟨rfl, i, _, hdecode, hf, hbelow, hcode, hm⟩))

/-- The outcome of a step is that of its instruction. -/
theorem stepOutcome_of_ok {i : Instruction} (hdecode : m.decode = .ok i) :
    m.stepOutcome = (execute {} i.opcode.function i.operand).outcome (m.ready i) := by
  unfold stepOutcome
  rw [hdecode]
  rfl

/-- An operation without a number is refused. -/
theorem stepOutcome_of_unknownOperation {i : Instruction} (hdecode : m.decode = .ok i)
    (hf : i.opcode.function = .operate) (hnone : Operation.ofCell? i.operand = none) :
    m.stepOutcome = .error (.report (.fatal .unknownOperation i.operand.toInt)) := by
  rw [stepOutcome_of_ok hdecode, hf, execute, operate, hnone]
  rfl

/-- The outcome of a system call is that of the step. -/
theorem stepOutcome_of_systemCall {i : Instruction} (hdecode : m.decode = .ok i)
    (hf : i.opcode.function = .call) (hbelow : m.a.toInt < 401) :
    m.stepOutcome =
      (systemCall {} m.a ((i.operand.plus m.sp).address + 2)).outcome (m.ready i) := by
  have hready : (m.ready i).a.signed < codeStart := hbelow
  rw [stepOutcome_of_ok hdecode, hf, Action.outcome, call_apply, if_pos hready]
  rfl

/-- A call without a handler is refused. -/
theorem stepOutcome_of_unknownCall {i : Instruction} (hdecode : m.decode = .ok i)
    (hf : i.opcode.function = .call) (hbelow : m.a.toInt < 401)
    (hnone : m.a.toNat ∉ builtInCodes) :
    m.stepOutcome = .error (.report (.fatal .unknownCall m.a.toInt)) := by
  rw [stepOutcome_of_systemCall hdecode hf hbelow,
    systemCall_of_unknown ((builtIn?_eq_none_iff m.a).mpr hnone)]
  rfl

/-- A file that gets no handle keeps its call from ending. -/
theorem stepOutcome_of_exhausted (h : m.Exhausted) : m.stepOutcome = .error .endless := by
  obtain ⟨i, call, hdecode, hf, hbelow, hcode, hexhausts⟩ := h
  obtain ⟨v, name, hv, hname, hfile, hfull⟩ := (exhausts_ready i _ _).mpr hexhausts
  rw [stepOutcome_of_systemCall hdecode hf hbelow]
  rcases systemCall_cases m.a ((i.operand.plus m.sp).address + 2) with
    ⟨call', handler, hcode', hcall, hserve⟩ | ⟨hnone, -⟩
  · rw [hcode] at hcode'
    cases hcode'
    rw [hserve]
    cases call with
    | findInput =>
      cases hcall
      have hfind := Peripherals.outcome_findInput_eq_error_iff.mpr ⟨rfl, hfile, hfull⟩
      exact outcome_find_of_error hv hname hfind
    | findOutput =>
      cases hcall
      have hfind := Peripherals.outcome_findOutput_eq_error_iff.mpr ⟨rfl, hfile, hfull⟩
      exact outcome_find_of_error hv hname hfind
    | _ => exact hfile.elim
  · rw [hcode] at hnone
    cases call with
    | findInput | findOutput => cases hnone
    | _ => exact hfile.elim

/-- A decoded instruction makes an access outside the memory only when it is executed. -/
theorem inside_stepSpans {i : Instruction} {spans : List Span} (hpc : 0 ≤ m.pc ∧ m.pc ≤ 65535)
    (hdecode : m.decode = .ok i)
    (hspans : (m.ready i).executeSpans i.operand i.opcode.function = spans)
    (hinside : ∀ s ∈ spans, s.Inside m.memory.size) :
    ∀ s ∈ m.stepSpans, s.Inside m.memory.size := by
  have hmeets : Meets m.memory.size (m.memory.instructionSpans m.pc m.sp) (fun _ => False)
      m.decode := Memory.meets_decode hpc m.sp
  rw [hdecode] at hmeets
  intro s hs
  unfold stepSpans at hs
  rw [hdecode] at hs
  rcases List.mem_append.mp hs with hs | hs
  · exact hmeets.inside s hs
  · rw [← hspans] at hinside
    exact hinside s hs

/-- A step that fails for another reason than a stream makes no access outside the memory. -/
theorem StepFails.inside (hpc : 0 ≤ m.pc ∧ m.pc ≤ 65535) (h : m.StepFails e)
    (hrefused : ¬ Refused e) : ∀ s ∈ m.stepSpans, s.Inside m.memory.size := by
  rcases h.cases with ⟨i, hdecode, hf, hnone, -⟩ | ⟨i, hdecode, hf, hbelow, hnone, -⟩ | hrefused' |
    ⟨-, i, call, hdecode, hf, hbelow, hcode, hexhausts⟩
  · have hspans : (m.ready i).executeSpans i.operand i.opcode.function = [] := by
      rw [hf, executeSpans, operateSpans, hnone]
    exact inside_stepSpans hpc hdecode hspans (List.forall_mem_nil _)
  · have hready : (m.ready i).a.signed < codeStart := hbelow
    have hspans : (m.ready i).executeSpans i.operand i.opcode.function = [] := by
      rw [hf, executeSpans, if_pos hready]
      exact systemSpans_of_unknown ((builtIn?_eq_none_iff m.a).mpr hnone) _
    exact inside_stepSpans hpc hdecode hspans (List.forall_mem_nil _)
  · exact absurd hrefused' hrefused
  · have hready : (m.ready i).a.signed < codeStart := hbelow
    have hframe := (i.operand.plus m.sp).address_bounds
    have hspans : (m.ready i).executeSpans i.operand i.opcode.function =
        m.memory.callSpans ((i.operand.plus m.sp).address + 2) call := by
      rw [hf, executeSpans, if_pos hready, systemSpans]
      have hcode' : SystemCall.ofCell? (m.ready i).a = some call := hcode
      rw [hcode']
      rfl
    exact inside_stepSpans hpc hdecode hspans (hexhausts.inside ⟨by omega, by omega⟩)

/-- The reports with which a step fails, each with its reason. -/
theorem failed_cases (hpc : 0 ≤ m.pc ∧ m.pc ≤ 65535) {r : Report}
    (hstep : (step {} m).1 = .failed r) :
    ((∃ w, r = ⟨[addressText w], .fatal .machineFault m.pc⟩) ∧
        ∃ s ∈ m.stepSpans, ¬ s.Inside m.memory.size) ∨
      (∃ i, m.decode = .ok i ∧ i.opcode.function = .operate ∧
        Operation.ofCell? i.operand = none ∧ r = .fatal .unknownOperation i.operand.toInt) ∨
      (∃ i, m.decode = .ok i ∧ i.opcode.function = .call ∧ m.a.toInt < 401 ∧
        m.a.toNat ∉ builtInCodes ∧ r = .fatal .unknownCall m.a.toInt) ∨
      ∃ context ∈ streamContexts, ∃ error, r = .host context error := by
  rcases step_cases hpc with ⟨hdone | ⟨result, hdone⟩, -⟩ | ⟨⟨w, hfault⟩, houtside⟩ |
    ⟨e, hfails, hfailed⟩
  · rw [hstep] at hdone
    cases hdone
  · rw [hstep] at hdone
    cases hdone
  · rw [hstep] at hfault
    cases hfault
    exact .inl ⟨⟨w, rfl⟩, houtside⟩
  · rw [hstep] at hfailed
    rcases hfails.cases with ⟨i, hdecode, hf, hnone, rfl⟩ | ⟨i, hdecode, hf, hbelow, hnone, rfl⟩ |
      ⟨context, hcontext, error, rfl⟩ | ⟨rfl, -⟩
    · cases hfailed
      exact .inr (.inl ⟨i, hdecode, hf, hnone, rfl⟩)
    · cases hfailed
      exact .inr (.inr (.inl ⟨i, hdecode, hf, hbelow, hnone, rfl⟩))
    · cases hfailed
      exact .inr (.inr (.inr ⟨context, hcontext, error, rfl⟩))
    · cases hfailed

/-- When an operation is unknown. -/
theorem step_unknownOperation_iff (hpc : 0 ≤ m.pc ∧ m.pc ≤ 65535) (d : Int) :
    (step {} m).1 = .failed (.fatal .unknownOperation d) ↔
      ∃ i, m.decode = .ok i ∧ i.opcode.function = .operate ∧ i.operand.toInt = d ∧
        ¬(1 ≤ d ∧ d ≤ 23) := by
  constructor
  · intro hstep
    rcases failed_cases hpc hstep with ⟨⟨w, hr⟩, -⟩ | ⟨i, hdecode, hf, hnone, hr⟩ |
      ⟨i, -, -, -, -, hr⟩ | ⟨context, -, error, hr⟩
    · cases hr
    · cases hr
      exact ⟨i, hdecode, hf, rfl, (Operation.ofCell?_eq_none_iff _).mp hnone⟩
    · cases hr
    · cases hr
  · rintro ⟨i, hdecode, hf, rfl, hd⟩
    have hnone := (Operation.ofCell?_eq_none_iff _).mpr hd
    exact step_of_outcome_error (stepOutcome_of_unknownOperation hdecode hf hnone)

/-- When a call is unknown. -/
theorem step_unknownCall_iff (hpc : 0 ≤ m.pc ∧ m.pc ≤ 65535) (a : Int) :
    (step {} m).1 = .failed (.fatal .unknownCall a) ↔
      ∃ i, m.decode = .ok i ∧ i.opcode.function = .call ∧ m.a.toInt = a ∧ a < 401 ∧
        m.a.toNat ∉ builtInCodes := by
  constructor
  · intro hstep
    rcases failed_cases hpc hstep with ⟨⟨w, hr⟩, -⟩ | ⟨i, -, -, -, hr⟩ |
      ⟨i, hdecode, hf, hbelow, hnone, hr⟩ | ⟨context, -, error, hr⟩
    · cases hr
    · cases hr
    · cases hr
      exact ⟨i, hdecode, hf, rfl, hbelow, hnone⟩
    · cases hr
  · rintro ⟨i, hdecode, hf, rfl, hbelow, hnone⟩
    exact step_of_outcome_error (stepOutcome_of_unknownCall hdecode hf hbelow hnone)

/-- When an address is wrong. -/
theorem step_fault_iff (hpc : 0 ≤ m.pc ∧ m.pc ≤ 65535) :
    (∃ w, (step {} m).1 = .failed ⟨[addressText w], .fatal .machineFault m.pc⟩) ↔
      (∃ s ∈ m.stepSpans, ¬ s.Inside m.memory.size) ∧
        ∀ context error, (step {} m).1 ≠ .failed (.host context error) := by
  constructor
  · rintro ⟨w, hstep⟩
    refine ⟨?_, ?_⟩
    · rcases failed_cases hpc hstep with ⟨-, houtside⟩ | ⟨i, -, -, -, hr⟩ |
        ⟨i, -, -, -, -, hr⟩ | ⟨context, -, error, hr⟩
      · exact houtside
      · cases hr
      · cases hr
      · exact absurd hr.symm Report.host_ne_fatal
    · intro context error hhost
      rw [hstep] at hhost
      exact Report.host_ne_fatal (Progress.failed.inj hhost).symm
  · rintro ⟨⟨s, hs, houtside⟩, hhost⟩
    rcases step_cases hpc with ⟨-, hinside⟩ | ⟨hfault, -⟩ | ⟨e, hfails, hfailed⟩
    · exact absurd (hinside s hs) houtside
    · exact hfault
    · have hrefused : ¬ Refused e := by
        rintro ⟨context, -, error, rfl⟩
        exact hhost context error hfailed
      exact absurd (hfails.inside hpc hrefused s hs) houtside

/-- When a step never ends. -/
theorem step_endless_iff (hpc : 0 ≤ m.pc ∧ m.pc ≤ 65535) :
    (step {} m).1 = .broken .endless ↔ m.Exhausted := by
  constructor
  · intro hstep
    rcases step_cases hpc with ⟨hdone | ⟨result, hdone⟩, -⟩ | ⟨⟨w, hfault⟩, -⟩ |
      ⟨e, hfails, hfailed⟩
    · rw [hstep] at hdone
      cases hdone
    · rw [hstep] at hdone
      cases hdone
    · rw [hstep] at hfault
      cases hfault
    · rw [hstep] at hfailed
      rcases hfails.cases with ⟨i, -, -, -, rfl⟩ | ⟨i, -, -, -, -, rfl⟩ | ⟨context, -, error, rfl⟩ |
        ⟨-, hexhausted⟩
      · cases hfailed
      · cases hfailed
      · cases hfailed
      · exact hexhausted
  · intro hexhausted
    exact step_of_outcome_error (stepOutcome_of_exhausted hexhausted)

/-- The ways in which a step can turn out. -/
theorem step_progress (hpc : 0 ≤ m.pc ∧ m.pc ≤ 65535) :
    (step {} m).1 = .running ∨ (∃ result, (step {} m).1 = .stopped result) ∨
      (∃ d, (step {} m).1 = .failed (.fatal .unknownOperation d)) ∨
      (∃ a, (step {} m).1 = .failed (.fatal .unknownCall a)) ∨
      (∃ w, (step {} m).1 = .failed ⟨[addressText w], .fatal .machineFault m.pc⟩) ∨
      (∃ context ∈ streamContexts, ∃ error, (step {} m).1 = .failed (.host context error)) ∨
      (step {} m).1 = .broken .endless := by
  rcases step_cases hpc with ⟨hdone | hdone, -⟩ | ⟨hfault, -⟩ | ⟨e, hfails, hfailed⟩
  · exact .inl hdone
  · exact .inr (.inl hdone)
  · exact .inr (.inr (.inr (.inr (.inl hfault))))
  · rcases hfails.cases with ⟨i, -, -, -, rfl⟩ | ⟨i, -, -, -, -, rfl⟩ |
      ⟨context, hcontext, error, rfl⟩ | ⟨rfl, -⟩
    · exact .inr (.inr (.inl ⟨_, hfailed⟩))
    · exact .inr (.inr (.inr (.inl ⟨_, hfailed⟩)))
    · exact .inr (.inr (.inr (.inr (.inr (.inl ⟨context, hcontext, error, hfailed⟩)))))
    · exact .inr (.inr (.inr (.inr (.inr (.inr hfailed)))))

/-- Operations that compute a value set the accumulator. -/
theorem operate_of_value {x v : Cell} {op : Operation} (hx : Operation.ofCell? x = some op)
    (hvalue : op.value? m.a m.b = some v) : operate x m = .ok () { m with a := v } := by
  unfold operate
  rw [hx]
  cases op with
  | dereference | leave | finish | switch => cases hvalue
  | _ =>
    rw [← Option.getD_some (a := v) (b := m.a), ← hvalue]
    rfl

/-- Division by zero leaves the accumulators alone. -/
theorem step_divide_by_zero {i : Instruction} (hdecode : m.decode = .ok i)
    (hf : i.opcode.function = .operate)
    (hop : Operation.ofCell? i.operand = some .divide ∨
      Operation.ofCell? i.operand = some .remainder)
    (ha : m.a = 0) (hverdict : m.verdict = none) :
    step {} m = (.running, { m.ready i with instructions := m.instructions + 1 }) := by
  have hvalue : ∃ op, Operation.ofCell? i.operand = some op ∧
      op.value? (m.ready i).a (m.ready i).b = some (m.ready i).a := by
    have hready : (m.ready i).a = 0 := ha
    rw [hready]
    rcases hop with hop | hop
    · exact ⟨_, hop, rfl⟩
    · exact ⟨_, hop, rfl⟩
  obtain ⟨op, hop, hvalue⟩ := hvalue
  have hexecute : execute {} i.opcode.function i.operand (m.ready i) = .ok () (m.ready i) := by
    rw [hf]
    exact operate_of_value hop hvalue
  exact step_eq_running_iff.mpr ⟨i, _, hdecode, hexecute, hverdict, rfl⟩

end Step

/-- The instruction after one that can be decoded is at an address that a cell can denote. -/
theorem next_bounds_of_decode {m : Machine} {i : Instruction} (hsize : m.memory.size ≤ 32768)
    (hpc : 0 ≤ m.pc ∧ m.pc ≤ 65535) (hdecode : m.decode = .ok i) :
    0 ≤ i.next ∧ i.next ≤ 65535 := by
  have hmeets : Meets m.memory.size (m.memory.instructionSpans m.pc m.sp) (fun _ => False)
      m.decode := Memory.meets_decode hpc m.sp
  rw [hdecode] at hmeets
  have hinside := Span.inside_word.mp
    (hmeets.inside (.word m.pc) (List.mem_append_left _ (List.mem_singleton_self _)))
  have hnext := Instruction.next_bounds hdecode
  omega

/-- Steps leave the program counter at an address that a cell can denote. -/
theorem pc_bounds_of_step {m m' : Machine} (hsize : m.memory.size ≤ 32768)
    (hpc : 0 ≤ m.pc ∧ m.pc ≤ 65535) (hstep : step {} m = (.running, m')) :
    0 ≤ m'.pc ∧ m'.pc ≤ 65535 := by
  obtain ⟨i, m₁, hdecode, hexecute, -, rfl⟩ := step_eq_running_iff.mp hstep
  have hconfined := confined_execute i.opcode.function i.operand (m.ready i)
  rw [Action.final, hexecute, Action.stateOf_ok] at hconfined
  change 0 ≤ m₁.pc ∧ m₁.pc ≤ 65535
  rcases hconfined.pc with hnext | ⟨c, hcell⟩
  · rw [hnext]
    exact next_bounds_of_decode hsize hpc hdecode
  · rw [hcell]
    exact c.address_bounds

/-- What holds of a machine with the given size and default streams between the steps of a run. -/
structure Healthy (size : Nat) (source : Source) (sink : Sink) (m : Machine) : Prop where
  size : m.memory.size = size
  pc : 0 ≤ m.pc ∧ m.pc ≤ 65535
  verdict : m.verdict = none
  order : m.peripherals.InOrder source sink

section Healthy

variable {size : Nat} {source : Source} {sink : Sink} {m m' : Machine}

/-- A machine ready for a run. -/
theorem healthy_started (horder : m.peripherals.InOrder source sink) :
    Healthy m.memory.size source sink m.started where
  size := rfl
  pc := by
    change 0 ≤ codeStart ∧ codeStart ≤ 65535
    decide
  verdict := rfl
  order := horder.traced _

/-- Steps keep the machine healthy. -/
theorem Healthy.step (h : Healthy size source sink m) (hsize : size ≤ 32768)
    (hstep : step {} m = (.running, m')) : Healthy size source sink m' := by
  obtain ⟨i, m₁, hdecode, hexecute, hverdict, rfl⟩ := step_eq_running_iff.mp hstep
  have hconfined := confined_execute i.opcode.function i.operand (m.ready i)
  rw [Action.final, hexecute] at hconfined
  refine ⟨hconfined.size.trans h.size, ?_, hverdict, ?_⟩
  · exact pc_bounds_of_step (h.size ▸ hsize) h.pc hstep
  · have hperipherals := step_peripherals conducts_systemCall m
    rw [hstep] at hperipherals
    rw [hperipherals]
    exact h.order.after _

/-- Runs keep the machine healthy. -/
theorem Steps.healthy {n : Nat} (h : Steps {} n m m') (hsize : size ≤ 32768)
    (hm : Healthy size source sink m) : Healthy size source sink m' :=
  h.preserves (fun _ _ hstep hm => hm.step hsize hstep) hm

end Healthy

/-- In a run with the built-in calls only, a step completes, stops the run, or ends it in one of a
few ways; unless it never ends. An operation is unknown exactly when its number has none, and a call
exactly when it has neither a routine nor a built-in call. An address is wrong exactly when one of
the accesses of the step is outside the memory, unless a stream has refused before. A step never
ends exactly when it finds a file and all handles are in use. Division by zero leaves the
accumulators alone, jump tables and digits are not left, the default output is there after any
operations on streams, and a selected stream that is not there does no harm. -/
theorem step_outcomes_exact {source : Source} {sink : Sink} {n : Nat} {m before : Machine}
    (hsize : isMemorySize m.memory.size) (horder : m.peripherals.InOrder source sink)
    (hsteps : Steps {} n m.started before) :
    let progress := (step {} before).1
    (progress = .running ∨ (∃ result, progress = .stopped result) ∨
      (∃ d, progress = .failed (.fatal .unknownOperation d)) ∨
      (∃ a, progress = .failed (.fatal .unknownCall a)) ∨
      (∃ w, progress = .failed ⟨[addressText w], .fatal .machineFault before.pc⟩) ∨
      (∃ context ∈ streamContexts, ∃ error, progress = .failed (.host context error)) ∨
      progress = .broken .endless) ∧
    (∀ d, progress = .failed (.fatal .unknownOperation d) ↔
      ∃ i, before.decode = .ok i ∧ i.opcode.function = .operate ∧ i.operand.toInt = d ∧
        ¬(1 ≤ d ∧ d ≤ 23)) ∧
    (∀ a, progress = .failed (.fatal .unknownCall a) ↔
      ∃ i, before.decode = .ok i ∧ i.opcode.function = .call ∧ before.a.toInt = a ∧ a < 401 ∧
        before.a.toNat ∉ builtInCodes) ∧
    ((∃ w, progress = .failed ⟨[addressText w], .fatal .machineFault before.pc⟩) ↔
      (∃ s ∈ before.stepSpans, ¬ s.Inside before.memory.size) ∧
        ∀ context error, progress ≠ .failed (.host context error)) ∧
    (progress = .broken .endless ↔ before.Exhausted) ∧
    (∀ i, before.decode = .ok i → i.opcode.function = .operate →
      (Operation.ofCell? i.operand = some .divide ∨
        Operation.ofCell? i.operand = some .remainder) → before.a = 0 →
      step {} before =
        (.running, { before.ready i with instructions := before.instructions + 1 })) ∧
    (∀ (table : Switch) (v : Cell) (k : Nat), (table.lookup v).2 = some k →
      k < table.cases.length) ∧
    (∀ (conversion : Conversion) (width : Int) (number : Cell), conversion ≠ .decimal →
      ∀ c ∈ (conversion.render width number).toText, c ∈ Text.digits) ∧
    (∀ ops, ∃ o, (Peripherals.after ops before.peripherals).streams.get? defaultOutput =
      some ⟨.output o, none⟩) ∧
    (before.peripherals.streams.isOpen before.peripherals.input = false →
      Peripherals.readCharacter before.peripherals = .ok endOfStream before.peripherals) ∧
    (before.peripherals.streams.isOpen before.peripherals.output = false →
      ∀ c, Peripherals.writeCharacter c before.peripherals = .ok () before.peripherals) := by
  intro progress
  have hfits : m.memory.size ≤ 32768 := by
    simp only [isMemorySize, Bool.and_eq_true, decide_eq_true_eq] at hsize
    omega
  have hhealthy := hsteps.healthy hfits (healthy_started horder)
  have hpc := hhealthy.pc
  refine ⟨step_progress hpc, step_unknownOperation_iff hpc, step_unknownCall_iff hpc,
    step_fault_iff hpc, step_endless_iff hpc, ?_, fun _ _ _ => Switch.lookup_lt,
    fun _ _ _ hconversion _ hc => Conversion.mem_render hconversion hc, ?_,
    Peripherals.readCharacter_of_not_isOpen, ?_⟩
  · intro i hdecode hf hop ha
    exact step_divide_by_zero hdecode hf hop ha hhealthy.verdict
  · intro ops
    obtain ⟨o, ho, -⟩ := (hhealthy.order.after ops).output
    exact ⟨o, ho⟩
  · obtain ⟨o, ho, -⟩ := hhealthy.order.output
    have hopen : before.peripherals.streams.isOpen defaultOutput = true := by
      rw [StreamTable.isOpen, ho]
      rfl
    exact fun h c => Peripherals.writeCharacter_of_not_isOpen hopen h c

/-- A machine that writes a string which starts in the last word of the memory and is too long. -/
def overlong : Machine where
  memory := .ofFn 500 fun k =>
    if k = 1 then 60 else if k = 408 then 499 else if k = 499 then 255 else initialCell k
  lomem := 404
  peripherals := .ofDefaults (.script [] none) (.device {}) default false

/-- The call fails because the characters of the string are not in the memory. -/
theorem step_outcomes_exact_overlong :
    let before := (step {} overlong.started).2
    isMemorySize overlong.memory.size ∧ Steps {} 1 overlong.started before ∧
      (step {} before).1 = .failed ⟨[addressText 499], .fatal .machineFault 402⟩ ∧
      ∃ s ∈ before.stepSpans, ¬ s.Inside 500 := by
  intro before
  have hsize : isMemorySize overlong.memory.size := by decide +kernel
  have hstep : (step {} overlong.started).1 = .running := by decide +kernel
  have hsteps : Steps {} 1 overlong.started before := steps_one hstep
  have hfault : (step {} before).1 = .failed ⟨[addressText 499], .fatal .machineFault 402⟩ := by
    decide +kernel
  have hpc : before.pc = 402 := by decide +kernel
  have hmemory : before.memory.size = 500 := by decide +kernel
  have houtcomes := step_outcomes_exact hsize (.ofDefaults ..) hsteps
  rw [hpc, hmemory] at houtcomes
  exact ⟨hsize, hsteps, hfault, (houtcomes.2.2.2.1.mp ⟨499, hfault⟩).1⟩

section Hoarding

/-- A host with an empty file, which has been opened the given number of times. -/
def lender (j : Nat) : Host where
  custody := .scripted [(Text.ofAscii "a", {})]
  next := j

/-- The file of the host is open so many times, under the lowest handles. -/
structure Holding (j : Nat) (p : Peripherals) : Prop where
  tracing : p.tracing = false
  host : p.host = lender j
  next : p.nextHandle = Cell.ofNat (3 + j)
  isOpen : ∀ k : Cell, 3 ≤ k.toInt → (p.streams.isOpen k = true ↔ k.toInt < 3 + j)

/-- At first only the default streams are open. -/
theorem holding_zero :
    Holding 0 (.ofDefaults (.script [] none) (.device {}) (lender 0) false) := by
  refine ⟨rfl, rfl, rfl, fun k hk => ?_⟩
  have houtput : k ≠ defaultOutput := by
    rintro rfl
    exact absurd hk (by decide)
  have hinput : k ≠ defaultInput := by
    rintro rfl
    exact absurd hk (by decide)
  rw [StreamTable.isOpen, Peripherals.get?_ofDefaults, if_neg houtput, if_neg hinput]
  simp only [Option.isSome_none, Bool.false_eq_true, false_iff]
  omega

section Holding

variable {j : Nat} {p : Peripherals}

/-- The host opens its file whenever it is asked to. -/
theorem Holding.openEither (h : Holding j p) :
    Peripherals.openEither p.host (Text.ofAscii "a") =
      .ok (.script [[]] none, ⟨j, false⟩, lender (j + 1)) := by
  rw [h.host]
  rfl

/-- The file is opened once more. -/
theorem Holding.findInput (h : Holding j p) (hj : j < 32765) :
    ∃ q, Peripherals.findInput (Text.ofAscii "a") p = .ok (Cell.ofNat (3 + j)) q ∧
      Holding (j + 1) q := by
  have hhandle : (Cell.ofNat (3 + j)).toInt = 3 + j := by
    rw [BitVec.toInt_eq_toNat_of_lt (by rw [BitVec.toNat_ofNat]; omega), BitVec.toNat_ofNat]
    omega
  have hname : Text.matchesWord (Text.ofAscii "a") "SYSIN" = false := by decide +kernel
  have hfree : Peripherals.freeHandle? p.streams Peripherals.handleCount p.nextHandle =
      some (Cell.ofNat (3 + j)) := by
    have hcount : Peripherals.handleCount = 0x7fff + 1 := rfl
    have hclosed : ¬ p.streams.isOpen (Cell.ofNat (3 + j)) = true := by
      rw [h.isOpen _ (by omega), hhandle]
      omega
    have hfile : ¬ (Cell.ofNat (3 + j)).toInt < firstFile.toInt := by
      rw [hhandle]
      change ¬ (3 : Int) + j < 3
      omega
    rw [hcount, h.next, Peripherals.freeHandle?, if_neg]
    simp [hclosed, hfile]
  refine ⟨(p.withHost (lender (j + 1))).added (Cell.ofNat (3 + j))
    ⟨.input { source := .script [[]] none }, some ⟨j, false⟩⟩, ?_, h.tracing, rfl, ?_, ?_⟩
  · rw [Peripherals.findInput_apply, hname, h.openEither]
    simp only [Bool.false_eq_true, if_false]
    have hlent : Peripherals.freeHandle? (p.withHost (lender (j + 1))).streams
        Peripherals.handleCount (p.withHost (lender (j + 1))).nextHandle =
          some (Cell.ofNat (3 + j)) := hfree
    rw [Peripherals.addStream_apply, hlent]
  · change Cell.ofNat (3 + j) + 1 = Cell.ofNat (3 + (j + 1))
    exact (BitVec.ofNat_add (3 + j) 1).symm
  · intro k hk
    have hnew : k = Cell.ofNat (3 + j) ↔ k.toInt = 3 + j := by
      rw [← hhandle, BitVec.toInt_inj]
    have hold := h.isOpen k hk
    rw [StreamTable.isOpen] at hold ⊢
    rw [Peripherals.get?_added]
    by_cases hk' : k = Cell.ofNat (3 + j)
    · have hlt := hnew.mp hk'
      rw [if_pos hk']
      simp only [Option.isSome_some, true_iff]
      omega
    · rw [if_neg hk']
      have hne : k.toInt ≠ 3 + j := fun heq => hk' (hnew.mpr heq)
      change (p.streams.get? k).isSome = true ↔ _
      rw [hold]
      omega

/-- In the end all handles are in use. -/
theorem Holding.isFull (h : Holding 32765 p) : p.IsFull := by
  intro k hk
  have hlt := k.toInt_lt
  exact (h.isOpen k hk).mpr (by omega)

end Holding

/-- The program `1 LL2 SP6 3 L42 K4 TL3 X22 2 C1 C97 G1L1 Z`, which opens a file as long as it gets
a handle. -/
def hoarderCode : List Cell := [32, 412, 1553, 10752, 1030, 36, 407, 5639, 24833]

/-- A machine with this program. -/
def hoarder : Machine where
  memory := .ofFn 1000 fun k =>
    if k = 1 then 404 else if k < 404 then initialCell k else hoarderCode.getD (k - 404) 0
  lomem := 413
  peripherals := .ofDefaults (.script [] none) (.device {}) (lender 0) false

/-- The machine when it reaches its loop. -/
def hoarderAtLoop : Machine := (proceed {} 4 hoarder.started).2

/-- The machine is in its loop at an address and has opened the file so many times. -/
structure Hoarding (j : Nat) (pc : Int) (m : Machine) : Prop where
  memory : m.memory = hoarderAtLoop.memory
  pc : m.pc = pc
  sp : m.sp = 415
  verdict : m.verdict = none
  peripherals : Holding j m.peripherals

/-- The instructions of the loop, the argument of its call and the name there. -/
theorem hoarder_loop :
    (Instruction.decode hoarderAtLoop.memory 407 415).toOption =
        some ⟨⟨.load, false, false⟩, 10752, 42, 408⟩ ∧
      (Instruction.decode hoarderAtLoop.memory 408 415).toOption =
        some ⟨⟨.call, false, false⟩, 1030, 4, 409⟩ ∧
      (Instruction.decode hoarderAtLoop.memory 409 415).toOption =
        some ⟨⟨.jumpTrue, false, false⟩, 36, 407, 411⟩ ∧
      (hoarderAtLoop.memory.word 421).toOption = some 412 ∧
      (hoarderAtLoop.memory.string (412 : Cell).address).toOption = some (Text.ofAscii "a") := by
  decide +kernel

/-- The loop is reached after four instructions. -/
theorem hoarding_zero :
    Steps {} 4 hoarder.started hoarderAtLoop ∧ Hoarding 0 407 hoarderAtLoop := by
  obtain ⟨hrunning, hpc, hsp, hverdict, hoperations⟩ :
      (proceed {} 4 hoarder.started).1 = .running ∧ hoarderAtLoop.pc = 407 ∧
        hoarderAtLoop.sp = 415 ∧ hoarderAtLoop.verdict = none ∧
        proceedOperations {} 4 hoarder.started = [] := by
    decide +kernel
  refine ⟨?_, rfl, hpc, hsp, hverdict, ?_⟩
  · rcases proceed_cases {} 4 hoarder.started with ⟨m', hsteps, heq⟩ | ⟨n, m', -, -, hends, heq⟩
    · rw [hoarderAtLoop, heq]
      exact hsteps
    · rw [heq] at hrunning
      exact absurd hrunning hends
  · rw [hoarderAtLoop, proceed_peripherals conducts_systemCall, hoperations]
    exact holding_zero

section Loop

variable {j : Nat} {m : Machine}

/-- Without a journal an instruction is not noted. -/
theorem ready_of_not_tracing {i : Instruction} (htracing : m.peripherals.tracing = false) :
    m.ready i = { m with pc := i.next } := by
  simp [ready, Peripherals.traced, htracing]

/-- An instruction of the loop. -/
theorem Hoarding.decode {pc : Int} {i : Instruction} (h : Hoarding j pc m)
    (hi : (Instruction.decode hoarderAtLoop.memory pc 415).toOption = some i) :
    m.decode = .ok i := by
  rw [Machine.decode, h.memory, h.pc, h.sp]
  exact eq_ok_of_toOption hi

/-- First the number of the call is loaded. -/
theorem Hoarding.load (h : Hoarding j 407 m) :
    ∃ m', step {} m = (.running, m') ∧ m'.a = 42 ∧ Hoarding j 408 m' := by
  have hdecode := h.decode hoarder_loop.1
  have hready := ready_of_not_tracing (i := ⟨⟨.load, false, false⟩, 10752, 42, 408⟩)
    h.peripherals.tracing
  refine ⟨_, step_eq_running_iff.mpr ⟨_, _, hdecode, rfl, ?_, rfl⟩, rfl, ?_⟩
  · rw [hready]
    exact h.verdict
  · rw [hready]
    exact ⟨h.memory, rfl, h.sp, h.verdict, h.peripherals⟩

/-- The call of the loop, with the name of the file. -/
theorem Hoarding.arguments (h : Hoarding j 408 m) :
    ∃ i, m.decode = .ok i ∧ i.opcode.function = .call ∧ i.next = 409 ∧
      (i.operand.plus m.sp).address + 2 = 421 ∧
      m.memory.word 421 = .ok 412 ∧
      m.memory.string (412 : Cell).address = .ok (Text.ofAscii "a") := by
  obtain ⟨-, hcall, -, hword, hstring⟩ := hoarder_loop
  refine ⟨_, h.decode hcall, rfl, rfl, ?_, ?_, ?_⟩
  · rw [h.sp]
    rfl
  · rw [h.memory]
    exact eq_ok_of_toOption hword
  · rw [h.memory]
    exact eq_ok_of_toOption hstring

/-- Then the file is opened. -/
theorem Hoarding.call (h : Hoarding j 408 m) (ha : m.a = 42) (hj : j < 32765) :
    ∃ m', step {} m = (.running, m') ∧ m'.a = Cell.ofNat (3 + j) ∧ Hoarding (j + 1) 409 m' := by
  obtain ⟨i, hdecode, hf, hnext, hargs, hword, hstring⟩ := h.arguments
  obtain ⟨q, hfind, hq⟩ := h.peripherals.findInput hj
  have hready := ready_of_not_tracing (i := i) h.peripherals.tracing
  have hbelow : (m.ready i).a.signed < codeStart := by
    change m.a.signed < codeStart
    rw [ha]
    decide
  have hserve : systemCall {} m.a 421 = withFirst (findBy Peripherals.findInput) 421 := by
    rw [ha]
    rfl
  have hexecute : execute {} i.opcode.function i.operand (m.ready i) =
      .ok () { m with pc := 409, a := Cell.ofNat (3 + j), peripherals := q } := by
    rw [hf, call_apply, if_pos hbelow, hready]
    dsimp only
    rw [hargs, hserve, find_apply (m := { m with pc := i.next }) hword hstring, Action.bind_apply,
      onPeripherals_apply]
    dsimp only
    rw [hfind, hnext]
    rfl
  exact ⟨_, step_eq_running_iff.mpr ⟨i, _, hdecode, hexecute, h.verdict, rfl⟩, rfl,
    h.memory, rfl, h.sp, h.verdict, hq⟩

/-- At last the program goes back to the start of the loop. -/
theorem Hoarding.jump (h : Hoarding j 409 m) (ha : m.a ≠ 0) :
    ∃ m', step {} m = (.running, m') ∧ Hoarding j 407 m' := by
  have hdecode := h.decode hoarder_loop.2.2.1
  have hready := ready_of_not_tracing (i := ⟨⟨.jumpTrue, false, false⟩, 36, 407, 411⟩)
    h.peripherals.tracing
  have hexecute : execute {} .jumpTrue 407 (m.ready ⟨⟨.jumpTrue, false, false⟩, 36, 407, 411⟩) =
      .ok () { m with pc := 407 } := by
    rw [hready]
    change EStateM.Result.ok () (if m.a ≠ 0 then _ else _) = _
    rw [if_pos ha]
    rfl
  exact ⟨_, step_eq_running_iff.mpr ⟨_, _, hdecode, hexecute, h.verdict, rfl⟩,
    h.memory, rfl, h.sp, h.verdict, h.peripherals⟩

/-- Once around the loop the file is opened once. -/
theorem Hoarding.round (h : Hoarding j 407 m) (hj : j < 32765) :
    ∃ m', Steps {} 3 m m' ∧ Hoarding (j + 1) 407 m' := by
  obtain ⟨m₁, hload, ha, h₁⟩ := h.load
  obtain ⟨m₂, hcall, hhandle, h₂⟩ := h₁.call ha hj
  have hne : m₂.a ≠ 0 := by
    rw [hhandle]
    intro hzero
    have hnat := congrArg BitVec.toNat hzero
    rw [BitVec.toNat_ofNat] at hnat
    change (3 + j) % 65536 = 0 at hnat
    omega
  obtain ⟨m₃, hjump, h₃⟩ := h₂.jump hne
  exact ⟨m₃, .succ hload (.succ hcall (.succ hjump (.zero m₃))), h₃⟩

/-- The loop is run until no handle is left. -/
theorem hoarding_rounds (hj : j ≤ 32765) :
    ∃ m, Steps {} (4 + 3 * j) hoarder.started m ∧ Hoarding j 407 m := by
  induction j with
  | zero => exact ⟨hoarderAtLoop, hoarding_zero⟩
  | succ j ih =>
    obtain ⟨m, hsteps, hm⟩ := ih (by omega)
    obtain ⟨m', hround, hm'⟩ := hm.round (by omega)
    exact ⟨m', hsteps.trans hround, hm'⟩

/-- Without a handle left the file keeps the call from ending. -/
theorem Hoarding.exhausted (h : Hoarding 32765 408 m) (ha : m.a = 42) : m.Exhausted := by
  obtain ⟨i, hdecode, hf, -, hargs, hword, hstring⟩ := h.arguments
  have hname : Text.matchesWord (Text.ofAscii "a") "SYSIN" = false := by decide +kernel
  refine ⟨i, .findInput, hdecode, hf, ?_, ?_, ?_⟩
  · rw [ha]
    decide
  · rw [ha]
    rfl
  · rw [hargs]
    exact ⟨412, Text.ofAscii "a", hword, hstring, ⟨hname, _, h.peripherals.openEither⟩,
      h.peripherals.isFull⟩

end Loop

/-- The program opens the file 32765 times, and the next step neither completes nor ends the run. -/
theorem hoarder_never_ends :
    isMemorySize hoarder.memory.size ∧
      (∃ before, Steps {} 98300 hoarder.started before ∧ (step {} before).1 = .broken .endless) ∧
      (run {} 200000 hoarder).1 = .broken .endless := by
  obtain ⟨m, hsteps, hm⟩ := @hoarding_rounds 32765 (Nat.le_refl _)
  obtain ⟨m', hload, ha, hm'⟩ := hm.load
  have hbefore : Steps {} 98300 hoarder.started m' := hsteps.tail hload
  have hstep : (step {} m').1 = .broken .endless :=
    step_of_outcome_error (stepOutcome_of_exhausted (hm'.exhausted ha))
  refine ⟨by decide +kernel, ⟨m', hbefore, hstep⟩, ?_⟩
  have hlast : step {} m' = (.broken .endless, (step {} m').2) := by rw [← hstep]
  have hproceed : proceed {} 200000 hoarder.started = (.broken .endless, (step {} m').2) := by
    rw [hbefore.proceed_eq 101700, proceed, hlast]
  rw [run, start_apply]
  dsimp only
  rw [resume, hproceed]
  rfl

end Hoarding

end Machine

end Intcode
