import Intcode.Proofs.Machine.Indifference

/-!
# A run sees no leftovers

Before a run starts, the registers, the count of instructions and the request to stop
are set anew. Only the result of the last request to stop is left as it is: it is looked
at after another request, which sets it. Handlers of the host may see and set all of the
machine but the request and its result; of these they can only make a request, or start
a run.

Main statement: two machines with the same memory and peripherals run in the same way,
whatever earlier runs have left in them.
-/

namespace Intcode

open Action

/-- Nothing can tell equal states apart. -/
theorem Action.respects_eq {σ α : Type} (x : Action σ α) : Respects Eq x := by
  rintro s _ rfl
  cases x s with
  | ok a s' => exact .ok a rfl
  | error e s' => exact .error e rfl

/-- Gives the result or the failure of an outcome again. -/
def Action.echo {σ τ α : Type} : EStateM.Result Failure τ α → Action σ α
  | .ok a _ => pure a
  | .error e _ => throw e

/-- Operations on streams cannot tell equal peripherals apart. -/
theorem Peripherals.blindTo_eq : Peripherals.BlindTo Eq where
  input h := congrArg Peripherals.input h
  output h := congrArg Peripherals.output h
  traced h e := congrArg (·.traced e) h
  flush h := ⟨congrArg flushError h, congrArg flushed h⟩
  selectInput _ := respects_eq _
  selectOutput _ := respects_eq _
  readCharacter := respects_eq _
  readNumber := respects_eq _
  writeCharacter _ := respects_eq _
  newline := respects_eq _
  findInput _ := respects_eq _
  findOutput _ := respects_eq _
  endRead := respects_eq _
  endWrite := respects_eq _

namespace Machine

/-- What the host can see of a machine: all but whether it has been asked to stop, and with what
result. -/
def view (m : Machine) : Machine := { m with stopped := false, result := 0 }

/-- The machine after a change of what the host can see. -/
def changed (f : Machine → Machine) (m : Machine) : Machine :=
  { f m.view with stopped := m.stopped, result := m.result }

/-- The machines are equal, or they have not been asked to stop and differ in nothing but the
results that are left from before. -/
def Leftover (c c' : Cell) (m m' : Machine) : Prop :=
  m = m' ∨ (m.stopped = false ∧ m.result = c ∧ m' = { m with result := c' })

section Leftover

variable {c c' : Cell} {m m' : Machine}

/-- The host cannot see the results that are left. -/
theorem Leftover.view_eq (h : Leftover c c' m m') : m.view = m'.view := by
  rcases h with rfl | ⟨-, -, rfl⟩ <;> rfl

/-- What the host can see of machines with results that are left is the same. -/
theorem Leftover.seen {β : Type} (h : Leftover c c' m m') (f : Machine → β)
    (hf : ∀ m, f m.view = f m) : f m = f m' := by
  rw [← hf m, h.view_eq, hf]

/-- A change of what the host can see leaves the results that are left. -/
theorem Leftover.changed (h : Leftover c c' m m') (f : Machine → Machine) :
    Leftover c c' (changed f m) (changed f m') := by
  rcases h with rfl | ⟨hstopped, hresult, rfl⟩
  · exact .inl rfl
  · exact .inr ⟨hstopped, hresult, rfl⟩

/-- No instruction looks at a result that is left from before. -/
theorem blindTo_leftover (c c' : Cell) : BlindTo Eq (Leftover c c') where
  streams := Peripherals.blindTo_eq
  memory h := h.seen Machine.memory fun _ => rfl
  pc h := h.seen Machine.pc fun _ => rfl
  sp h := h.seen Machine.sp fun _ => rfl
  a h := h.seen Machine.a fun _ => rfl
  b h := h.seen Machine.b fun _ => rfl
  instructions h := h.seen Machine.instructions fun _ => rfl
  verdict h := by
    rcases h with rfl | ⟨hstopped, -, rfl⟩
    · rfl
    · simp only [verdict, hstopped, Bool.false_eq_true, if_false]
  peripherals h := h.seen Machine.peripherals fun _ => rfl
  setMemory h x _ hx := hx ▸ h.changed fun m => { m with memory := x }
  setPc h v _ hv := hv ▸ h.changed fun m => { m with pc := v }
  setSp h v _ hv := hv ▸ h.changed fun m => { m with sp := v }
  setA h v _ hv := hv ▸ h.changed fun m => { m with a := v }
  setB h v _ hv := hv ▸ h.changed fun m => { m with b := v }
  setInstructions h n _ hn := hn ▸ h.changed fun m => { m with instructions := n }
  stop h _ := by rcases h with rfl | ⟨-, -, rfl⟩ <;> exact .inl rfl
  setPeripherals h p _ hp := hp ▸ h.changed fun m => { m with peripherals := p }

/-- Machines that agree in the memory and the peripherals differ, once they are ready for a run, in
nothing but the results that are left. -/
theorem leftover_started (hmemory : m.memory = m'.memory) (hlomem : m.lomem = m'.lomem)
    (hperipherals : m.peripherals = m'.peripherals) :
    Leftover m.result m'.result m.started m'.started := by
  refine .inr ⟨rfl, rfl, ?_⟩
  simp only [started, hmemory, hlomem, hperipherals]

/-- A run of machines with results that are left ends in the same way. -/
theorem Leftover.run {bindings : Bindings} (h : Leftover c c' m m')
    (hbindings : bindings.BlindTo (Leftover c c')) (limit : Nat) :
    (run bindings limit m).1 = (run bindings limit m').1 ∧
      Leftover c c' (run bindings limit m).2 (run bindings limit m').2 := by
  have hstarted : Leftover c c' m.started m'.started := by
    rcases h with rfl | ⟨-, hresult, rfl⟩
    · exact .inl rfl
    · exact .inr ⟨rfl, hresult, rfl⟩
  simp only [Machine.run, start_apply]
  exact (blindTo_leftover c c').resume hbindings hstarted limit

end Leftover

/-- What a handler of the host may do: see and change what the host can see of the machine, ask to
stop, and run the machine itself. -/
inductive Public : {α : Type} → Action Machine α → Prop
  | pure {α : Type} (a : α) : Public (pure a)
  | throw {α : Type} (e : Failure) : Public (throw e : Action Machine α)
  | bind {α β : Type} {x : Action Machine α} {f : α → Action Machine β} (hx : Public x)
      (hf : ∀ a, Public (f a)) : Public (x >>= f)
  | read {α : Type} (f : Machine → Except Failure α) : Public (Action.read fun m => f m.view)
  | modify (f : Machine → Machine) : Public (modify (changed f))
  | stop (result : Cell) : Public (stop result)
  | run {bindings : Bindings} (limit : Nat)
      (hbindings : ∀ code handler, bindings.get? code = some handler →
        ∀ args, Public (handler args)) :
      Public fun m => .ok (run bindings limit m).1 (run bindings limit m).2

namespace Public

variable {α : Type}

/-- What a handler may do does not depend on results that are left. -/
theorem respects {x : Action Machine α} (hx : Public x) (c c' : Cell) :
    Respects (Leftover c c') x := by
  induction hx with
  | pure a => exact respects_pure a
  | throw e => exact respects_throw e
  | bind _ _ ihx ihf => exact ihx.bind ihf
  | read f => exact respects_read fun _ _ h => congrArg f h.view_eq
  | modify f => exact respects_modify fun _ _ h => h.changed f
  | stop result => exact (blindTo_leftover c c').respects_stop result
  | run limit _ ih =>
    intro m m' h
    obtain ⟨hending, hlast⟩ := h.run ih limit
    dsimp only
    rw [hending]
    exact .ok _ hlast

end Public

section Handlers

variable {α β : Type}

/-- A handler may look at the machine first. -/
theorem public_get_bind {f : Machine → Action Machine β} (hf : ∀ m, f m = f m.view)
    (hx : ∀ m, Public (f m)) : Public (get >>= f) := by
  have heq : (get >>= f) = (Action.read fun m => .ok m.view) >>= f := by
    funext m
    rw [bind_apply, bind_apply, get_apply, read_apply]
    exact congrFun (hf m) m
  rw [heq]
  exact (Public.read fun m => .ok m).bind hx

/-- A handler may work the peripherals. -/
theorem public_onPeripherals (x : Action Peripherals α) : Public (onPeripherals x) := by
  have heq : onPeripherals x =
      (Action.read fun m => .ok (x m.view.peripherals)) >>= fun r =>
        modify (changed fun m => { m with peripherals := stateOf r }) >>= fun _ => echo r := by
    funext m
    have hview : m.view.peripherals = m.peripherals := rfl
    simp only [onPeripherals_apply, bind_apply, read_apply, modify_apply, hview]
    cases x m.peripherals <;> rfl
  rw [heq]
  refine (Public.read fun m => .ok (x m.peripherals)).bind fun r => ?_
  refine (Public.modify _).bind fun _ => ?_
  cases r with
  | ok a p => exact .pure a
  | error e p => exact .throw e

/-- A handler may note the call in the journal. -/
theorem public_record (args : Int) : Public (Handler.record args) := by
  refine (Public.read fun m => m.memory.word args).bind fun first => ?_
  exact public_get_bind (fun _ => rfl) fun m => public_onPeripherals _

end Handlers

end Machine

/-- All handlers do what a handler may do. -/
def Bindings.Public (b : Bindings) : Prop :=
  ∀ code handler, b.get? code = some handler → ∀ args, Machine.Public (handler args)

namespace Machine

/-- A program that has stopped has been asked to. -/
theorem stopped_of_proceed {bindings : Bindings} {n : Nat} {m last : Machine} {result : Cell}
    (hproceed : proceed bindings n m = (.stopped result, last)) : last.stopped = true := by
  rcases proceed_cases bindings n m with ⟨m', -, heq⟩ | ⟨k, m', -, -, -, heq⟩
  · rw [heq] at hproceed
    cases hproceed
  · rw [heq] at hproceed
    cases hdecode : m'.decode with
    | error e =>
      rw [step_of_error hdecode] at hproceed
      cases e <;> cases hproceed
    | ok i =>
      rw [step_of_ok hdecode] at hproceed
      cases hexecute : execute bindings i.opcode.function i.operand (m'.ready i) with
      | error e m₁ =>
        rw [hexecute, endStep] at hproceed
        cases e <;> cases hproceed
      | ok u m₁ =>
        rw [hexecute, endStep, verdict_counted] at hproceed
        cases hstopped : m₁.stopped with
        | false =>
          simp only [verdict, hstopped] at hproceed
          cases hproceed
        | true =>
          simp only [verdict, hstopped] at hproceed
          cases hproceed
          rfl

/-- A run that ends without an error has been asked to stop. -/
theorem stopped_of_run {bindings : Bindings} {limit : Nat} {m : Machine} {result : Cell}
    (hended : (run bindings limit m).1 = .ended result none) :
    (run bindings limit m).2.stopped = true := by
  simp only [run, start_apply, resume] at hended ⊢
  cases hproceed : proceed bindings limit m.started with
  | mk progress last =>
    rw [hproceed] at hended
    cases progress with
    | running => cases hended
    | stopped value =>
      have hlast : last.stopped = true := stopped_of_proceed hproceed
      rw [conclude, finish_apply]
      exact hlast
    | failed report =>
      rw [conclude, finish_apply] at hended
      simp [finalError] at hended
    | broken e => cases hended

/-- A run sees no leftovers of earlier runs. Two machines with the same memory, end of the code and
peripherals take the same steps with handlers that do what handlers may do, whatever their
registers, counts of instructions and requests to stop are. Their runs end in the same way, after
the same number of instructions, and leave equal machines; a result that was left from before stays,
if the machine has not been asked to stop in the run. -/
theorem leftovers_unseen {bindings : Bindings} {m m' : Machine} (hbindings : bindings.Public)
    (hmemory : m.memory = m'.memory) (hlomem : m.lomem = m'.lomem)
    (hperipherals : m.peripherals = m'.peripherals) (limit : Nat) :
    (∀ n, let s := proceed bindings n m.started
      let s' := proceed bindings n m'.started
      s.1 = s'.1 ∧ Leftover m.result m'.result s.2 s'.2) ∧
    let r := run bindings limit m
    let r' := run bindings limit m'
    r.1 = r'.1 ∧ r.2.instructions = r'.2.instructions ∧
      (r.2 = r'.2 ∨ (r.2.stopped = false ∧ r.2.result = m.result ∧
        r'.2 = { r.2 with result := m'.result })) ∧
      ∀ result, r.1 = .ended result none → r.2 = r'.2 := by
  have hstarted := leftover_started hmemory hlomem hperipherals
  have hblind : bindings.BlindTo (Leftover m.result m'.result) :=
    fun code handler hbound args => (hbindings code handler hbound args).respects _ _
  have hR := blindTo_leftover m.result m'.result
  refine ⟨fun n => hR.proceed hblind hstarted n, ?_⟩
  intro r r'
  have hrun : r.1 = r'.1 ∧ Leftover m.result m'.result r.2 r'.2 := by
    simp only [r, r', run, start_apply]
    exact hR.resume hblind hstarted limit
  obtain ⟨hending, hlast⟩ := hrun
  refine ⟨hending, hR.instructions hlast, hlast, fun result hended => ?_⟩
  rcases hlast with heq | ⟨hstopped, -⟩
  · exact heq
  · rw [stopped_of_run hended] at hstopped
    cases hstopped

/-- The call that the start global makes at first is noted in the journal. -/
def recording : Bindings := ⟨[(1, some Handler.record)]⟩

/-- A new machine. -/
def rested : Machine :=
  { memory := .ofFn 500 initialCell
    lomem := codeStart + 3
    peripherals := .ofDefaults (.script [] none) (.device {}) default false }

/-- The machine with leftovers everywhere, also of a request to stop. -/
def weary : Machine :=
  { rested with pc := 77, sp := 5, a := 6, b := 7, instructions := 8, stopped := true, result := 9 }

/-- The handler that notes the call sees the same in both runs, and both end in the same state. The
result that was left is still there as long as the program has not stopped. -/
theorem leftovers_unseen_weary :
    recording.Public ∧
      ((run recording 20 rested).1 = .ended 0 none ∧ (run recording 20 weary).1 = .ended 0 none ∧
        (run recording 20 weary).2.instructions = 3 ∧
        (run recording 20 weary).2.peripherals.journal =
          [.recorded ⟨408, 0, 1, 0, 404, 403, 1⟩] ∧
        (run recording 20 rested).2 = (run recording 20 weary).2) ∧
      ((run recording 2 rested).1 = .limited ∧ (run recording 2 weary).1 = .limited ∧
        (run recording 2 rested).2.result = 0 ∧
        (run recording 2 weary).2 = { (run recording 2 rested).2 with result := 9 }) := by
  have hpublic : recording.Public := by
    intro code handler hbound args
    simp only [Bindings.get?, recording, List.lookup_cons] at hbound
    split at hbound
    · cases hbound
      exact public_record args
    · cases hbound
  have hended : (run recording 20 rested).1 = .ended 0 none := by decide +kernel
  have hmemory : rested.memory = weary.memory := rfl
  obtain ⟨-, hending, hcount, -, hequal⟩ := leftovers_unseen hpublic hmemory rfl rfl 20
  obtain ⟨-, hlimited, -, hleft, -⟩ := leftovers_unseen hpublic hmemory rfl rfl 2
  have hlimit : (run recording 2 rested).1 = .limited := by decide +kernel
  have hkept : (run recording 2 weary).2.result = 9 := by decide +kernel
  have hlost : (run recording 2 rested).2.result = 0 := by decide +kernel
  refine ⟨hpublic, ⟨hended, hending ▸ hended, ?_, by decide +kernel, hequal 0 hended⟩, hlimit,
    hlimited ▸ hlimit, hlost, ?_⟩
  · rw [← hcount]
    decide +kernel
  · rcases hleft with heq | ⟨-, -, heq⟩
    · rw [heq, hkept] at hlost
      exact absurd hlost (by decide)
    · exact heq

end Machine

end Intcode
