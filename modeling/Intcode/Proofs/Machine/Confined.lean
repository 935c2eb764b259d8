import Intcode.Proofs.Machine.Steps
import Intcode.Proofs.Memory

/-!
# What programs cannot change

The instructions and the built-in calls change the registers, the cells of the
memory and the peripherals. They leave the size of the memory, the end of the code
and the count of instructions alone, and they send the program counter nowhere but
to addresses that a cell can denote. Of the built-in calls only two send it
anywhere at all, and these are also the only ones that change the frame base.
-/

namespace Intcode

namespace Memory

/-- Repetitions leave the number of cells alone. -/
theorem sameSize_forM {f : Nat → Action Memory PUnit} (hf : ∀ k, Action.Stays SameSize (f k))
    (ks : List Nat) : Action.Stays SameSize (ks.forM f) := by
  induction ks with
  | nil => exact Action.stays_pure _
  | cons k ks ih => exact (hf k).bind fun _ => ih

/-- Packing a string leaves the number of cells alone. -/
theorem sameSize_pack (v s : Int) : Action.Stays SameSize (pack v s) := by
  refine (Action.stays_read _).bind fun c => (sameSize_setWord _ _).bind fun _ => ?_
  refine (sameSize_forM (fun k => ?_) _).bind fun _ => Action.stays_pure _
  exact (Action.stays_read _).bind fun _ => sameSize_setByte _ _

/-- Unpacking a string leaves the number of cells alone. -/
theorem sameSize_unpack (s v : Int) : Action.Stays SameSize (unpack s v) := by
  refine (Action.stays_read _).bind fun c => sameSize_forM (fun k => ?_) _
  exact (Action.stays_read _).bind fun _ => sameSize_setWord _ _

end Memory

namespace Machine

/-- A machine changed in nothing but what programs can change. -/
structure Confined (m m' : Machine) : Prop where
  size : m'.memory.size = m.memory.size
  lomem : m'.lomem = m.lomem
  instructions : m'.instructions = m.instructions
  pc : m'.pc = m.pc ∨ ∃ c : Cell, m'.pc = c.address

/-- A machine with other registers, at the same place. -/
theorem Confined.of_eq {m m' : Machine} (hmemory : m'.memory = m.memory)
    (hlomem : m'.lomem = m.lomem) (hcount : m'.instructions = m.instructions)
    (hpc : m'.pc = m.pc) : Confined m m' :=
  ⟨by rw [hmemory], hlomem, hcount, .inl hpc⟩

instance : Std.Refl Confined := ⟨fun _ => .of_eq rfl rfl rfl rfl⟩

instance : Trans Confined Confined Confined where
  trans h h' := by
    refine ⟨h'.size.trans h.size, h'.lomem.trans h.lomem, h'.instructions.trans h.instructions, ?_⟩
    rcases h'.pc with heq | haddress
    · rw [heq]
      exact h.pc
    · exact .inr haddress

/-- A machine that in addition is at the same place in the same frame. -/
structure InPlace (m m' : Machine) : Prop where
  size : m'.memory.size = m.memory.size
  lomem : m'.lomem = m.lomem
  instructions : m'.instructions = m.instructions
  pc : m'.pc = m.pc
  sp : m'.sp = m.sp

/-- A machine at the same place is confined. -/
theorem InPlace.confined {m m' : Machine} (h : InPlace m m') : Confined m m' :=
  ⟨h.size, h.lomem, h.instructions, .inl h.pc⟩

instance : Std.Refl InPlace := ⟨fun _ => ⟨rfl, rfl, rfl, rfl, rfl⟩⟩

instance : Trans InPlace InPlace InPlace where
  trans h h' := ⟨h'.size.trans h.size, h'.lomem.trans h.lomem,
    h'.instructions.trans h.instructions, h'.pc.trans h.pc, h'.sp.trans h.sp⟩

section Actions

open Action

variable {α : Type}

/-- What keeps the size of the memory stays at its place. -/
theorem inPlace_onMemory {x : Action Memory α} (hx : Stays Memory.SameSize x) :
    Stays InPlace (onMemory x) := by
  intro m
  have hsize := hx m.memory
  rw [final] at hsize ⊢
  rw [onMemory_apply]
  cases hrun : x m.memory with
  | ok a memory =>
    rw [hrun] at hsize
    exact ⟨hsize, rfl, rfl, rfl, rfl⟩
  | error e memory =>
    rw [hrun] at hsize
    exact ⟨hsize, rfl, rfl, rfl, rfl⟩

/-- What keeps the size of the memory is confined. -/
theorem confined_onMemory {x : Action Memory α} (hx : Stays Memory.SameSize x) :
    Stays Confined (onMemory x) := fun m => (inPlace_onMemory hx m).confined

/-- What acts on the peripherals stays at its place. -/
theorem inPlace_onPeripherals (x : Action Peripherals α) : Stays InPlace (onPeripherals x) := by
  intro m
  rw [final, onPeripherals_apply]
  cases x m.peripherals <;> exact ⟨rfl, rfl, rfl, rfl, rfl⟩

/-- The accumulator may be set. -/
theorem inPlace_setA (v : Cell) : Stays InPlace (setA v) :=
  stays_modify fun _ => ⟨rfl, rfl, rfl, rfl, rfl⟩

/-- Writing the pieces of a format stays at its place. -/
theorem inPlace_writePieces (pieces : List FormatPiece) (v : Int) :
    Stays InPlace (writePieces pieces v) := by
  intro m
  rw [final, writePieces_eq]
  exact inPlace_onPeripherals _ m

/-- Reading a number stays at its place. -/
theorem inPlace_readNumber : Stays InPlace readNumber :=
  (inPlace_onPeripherals _).bind fun _ =>
    (inPlace_onMemory (Memory.sameSize_setWord _ _)).bind fun _ => stays_pure _

/-- Going on at the address in a cell is confined. -/
theorem confined_goTo (frame target : Cell) : Stays Confined
    (modify fun m => { m with sp := frame, pc := target.address } : Action Machine PUnit) :=
  stays_modify fun _ => ⟨rfl, rfl, rfl, .inr ⟨target, rfl⟩⟩

/-- Calling a routine with a vector is confined. -/
theorem confined_applyToVector (args : Int) : Stays Confined (applyToVector args) := by
  have hstore (a : Int) (v : Cell) : Stays Confined (onMemory (Memory.setWord a v)) :=
    confined_onMemory (Memory.sameSize_setWord a v)
  refine (stays_read _).bind fun n => stays_get_bind fun m => ?_
  refine (hstore _ _).bind fun _ => (hstore _ _).bind fun _ => (hstore _ _).bind fun _ =>
    (hstore _ _).bind fun _ => (stays_read _).bind fun routine => ?_
  exact confined_goTo _ routine

/-- Whether what a call does leaves the program at its place. -/
def Deed.remains : Deed → Bool
  | jump _ _ | apply _ => false
  | _ => true

/-- What leaves the program at its place stays there. -/
theorem inPlace_deed {x : Deed} (hx : x.remains = true) : Stays InPlace x.perform := by
  cases x with
  | give v => exact stays_pure v
  | operate op hop => exact inPlace_onPeripherals _
  | write t => exact (inPlace_onPeripherals _).bind fun _ => stays_pure _
  | format pieces v => exact (inPlace_writePieces pieces v).bind fun _ => stays_pure _
  | readNumber => exact inPlace_readNumber
  | setByte b c =>
    exact (inPlace_onMemory (Memory.sameSize_setByte b c)).bind fun _ => stays_pure _
  | pack v s => exact inPlace_onMemory (Memory.sameSize_pack _ _)
  | unpack s v => exact (inPlace_onMemory (Memory.sameSize_unpack _ _)).bind fun _ => stays_pure _
  | stop result => exact stays_modify fun _ => ⟨rfl, rfl, rfl, rfl, rfl⟩
  | jump | apply => cases hx

/-- What calls do is confined. -/
theorem confined_deed (x : Deed) : Stays Confined x.perform := by
  cases x with
  | jump frame label => exact (confined_goTo frame label).bind fun _ => stays_pure _
  | apply args => exact (confined_applyToVector args).bind fun _ => stays_pure _
  | _ => exact fun m => (inPlace_deed rfl m).confined

/-- Calls but two leave the program at its place. -/
theorem remains_callPlan {call : SystemCall} (hjump : call ≠ .longJump)
    (hvector : call ≠ .applyToVector) (args : Int) :
    (callPlan args call).Every fun x => x.remains = true := by
  cases call with
  | longJump => exact absurd rfl hjump
  | applyToVector => exact absurd rfl hvector
  | _ => simp [callPlan, callPlan.number, Plan.Every, Deed.remains]

/-- The built-in calls but two stay at their place. -/
theorem inPlace_builtIn {call : SystemCall} {handler : Handler}
    (hcall : builtIn? call = some handler) (hjump : call ≠ .longJump)
    (hvector : call ≠ .applyToVector) (args : Int) : Stays InPlace (handler args) := by
  rw [handler_eq_run hcall]
  exact Plan.stays inPlace_setA ((remains_callPlan hjump hvector args).imp fun _ => inPlace_deed)

/-- The built-in calls are confined. -/
theorem confined_builtIn {call : SystemCall} {handler : Handler}
    (hcall : builtIn? call = some handler) (args : Int) : Stays Confined (handler args) := by
  rw [handler_eq_run hcall]
  exact Plan.stays (fun v m => (inPlace_setA v m).confined) (Plan.every_of_forall confined_deed _)

/-- System calls that the machine serves itself are confined. -/
theorem confined_systemCall (code : Cell) (args : Int) :
    Stays Confined (systemCall {} code args) := by
  rcases systemCall_cases code args with ⟨call, handler, -, hcall, hserve⟩ | ⟨-, e, hserve⟩
  · rw [hserve]
    exact confined_builtIn hcall args
  · rw [hserve]
    exact stays_throw e

/-- Entering a routine is confined. -/
theorem confined_enter (frame base : Cell) (back : Int) (target : Cell) :
    Stays Confined (enter frame base back target.address) :=
  (confined_onMemory (Memory.sameSize_setWord _ _)).bind fun _ =>
    (confined_onMemory (Memory.sameSize_setWord _ _)).bind fun _ => confined_goTo frame target

/-- Extended operations are confined. -/
theorem confined_operate (x : Cell) : Stays Confined (operate x) := by
  unfold operate
  cases Operation.ofCell? x with
  | none => exact stays_throw _
  | some op =>
    cases op with
    | dereference =>
      exact stays_get_bind fun _ => (stays_read _).bind fun v m => (inPlace_setA v m).confined
    | leave =>
      exact stays_get_bind fun _ => (stays_read _).bind fun target =>
        (stays_read _).bind fun frame => confined_goTo frame target
    | switch =>
      exact (stays_read _).bind fun table => stays_modify fun _ => ⟨rfl, rfl, rfl, .inr ⟨_, rfl⟩⟩
    | _ => exact stays_modify fun _ => .of_eq rfl rfl rfl rfl

/-- Instructions without handlers of the host are confined. -/
theorem confined_execute (f : Function) (d : Cell) : Stays Confined (execute {} f d) := by
  cases f with
  | load | add => exact stays_modify fun _ => .of_eq rfl rfl rfl rfl
  | store => exact stays_get_bind fun _ => confined_onMemory (Memory.sameSize_setWord _ _)
  | jump => exact stays_modify fun _ => ⟨rfl, rfl, rfl, .inr ⟨d, rfl⟩⟩
  | jumpTrue | jumpFalse =>
    refine stays_modify fun m => ?_
    split
    · exact ⟨rfl, rfl, rfl, .inr ⟨d, rfl⟩⟩
    · exact Std.Refl.refl m
  | operate => exact confined_operate d
  | call =>
    intro m
    rw [final, call_apply]
    split
    · exact confined_systemCall m.a _ m
    · exact confined_enter _ _ _ m.a m

end Actions

end Machine

end Intcode
