import Intcode.Proofs.Machine.DefaultOutput
import Intcode.Proofs.Machine.Reachable

/-!
# The course of a machine

A host can do three things to a machine: it works the streams, it loads files, and it
sets the rest of the machine as it likes. All else is made of these, also what
programs and handlers of the host do in a run. The course of a machine keeps account of
the bytes that its default output takes.

Main statement: every machine that can be reached from new default streams has a
course from its creation on.
-/

namespace Intcode.Machine

/-- The peripherals after an action on them. -/
theorem onPeripherals_final {α : Type} (x : Action Peripherals α) (m : Machine) :
    ((onPeripherals x).final m).peripherals = x.final m.peripherals := by
  rw [Action.final, Action.final, onPeripherals_apply]
  cases x m.peripherals <;> rfl

/-- Loading a file leaves the peripherals as they are, or the host has opened and closed the file
meanwhile. -/
theorem loadFile_cases (name : Text) (m : Machine) :
    ((loadFile name).final m).peripherals = m.peripherals ∨
      ∃ source closer host, m.peripherals.host.openFile name = .ok (source, closer, host) ∧
        ((loadFile name).final m).peripherals = m.peripherals.withHost (host.close closer).2 := by
  rw [loadFile, Action.final_bind]
  simp only [Action.get_apply]
  rcases hopen : m.peripherals.host.openFile name with e | ⟨source, closer, host⟩
  · exact .inl rfl
  · refine .inr ⟨source, closer, host, rfl, ?_⟩
    dsimp only
    rw [Action.final_bind, Action.modify_apply]
    exact load_peripherals name _ _ _

/-- The course of a machine from a new one on, with the bytes that its default output has taken so
far. -/
inductive Course (new : Machine) : Text → Machine → Prop
  | new : Course new [] new
  | operation {t : Text} {m : Machine} (op : StreamOperation) (hm : Course new t m) :
      Course new (t ++ Peripherals.accepting op m.peripherals) ((onPeripherals op.action).final m)
  | loadFile {t : Text} {m : Machine} (name : Text) (hm : Course new t m) :
      Course new t ((loadFile name).final m)
  | set {t : Text} {m m' : Machine} (hset : m'.peripherals = m.peripherals)
      (hm : Course new t m) : Course new t m'

namespace Course

variable {new m m' : Machine} {t : Text}

/-- Operations on streams one after the other. -/
theorem operations (hm : Course new t m) (ops : List StreamOperation)
    (hops : m'.peripherals = Peripherals.after ops m.peripherals) :
    Course new (t ++ Peripherals.accepted ops m.peripherals) m' := by
  induction ops generalizing m t with
  | nil =>
    rw [Peripherals.accepted, List.append_nil]
    exact hm.set hops
  | cons op ops ih =>
    have hnext := ih (hm.operation op) (by rw [onPeripherals_final]; exact hops)
    rw [onPeripherals_final, List.append_assoc] at hnext
    exact hnext

/-- A system call, also one that is served by a handler of the host. -/
theorem systemCall (hm : Course new t m) {bindings : Bindings}
    (hbindings : bindings.ActByOperations) (code : Cell) (args : Int) :
    ∃ ops, Course new (t ++ Peripherals.accepted ops m.peripherals)
      ((systemCall bindings code args).final m) := by
  obtain ⟨ops, hops⟩ := actsByOperations_systemCall hbindings code args m
  exact ⟨ops, hm.operations ops hops⟩

/-- A run, also one in which handlers of the host serve calls. -/
theorem run (hm : Course new t m) {bindings : Bindings} (hbindings : bindings.ActByOperations)
    (limit : Nat) :
    ∃ ops, Course new (t ++ Peripherals.accepted ops m.peripherals)
      (run bindings limit m).2 := by
  obtain ⟨ops, hops⟩ := exists_run_operations hbindings limit m
  exact ⟨ops, hm.operations ops hops⟩

/-- What a new machine has and what operations and loading keep, holds in the whole course. It may
be about the bytes that the default output has taken. -/
theorem keeps {I : Text → Peripherals → Prop} (hm : Course new t m) (hnew : I [] new.peripherals)
    (hop : ∀ t p (op : StreamOperation), I t p →
      I (t ++ Peripherals.accepting op p) (op.action.final p))
    (hload : ∀ t p name source closer host, p.host.openFile name = .ok (source, closer, host) →
      I t p → I t (p.withHost (host.close closer).2)) : I t m.peripherals := by
  induction hm with
  | new => exact hnew
  | operation op _ ih =>
    rw [onPeripherals_final]
    exact hop _ _ op ih
  | @loadFile t m name _ ih =>
    rcases loadFile_cases name m with hsame | ⟨source, closer, host, hopen, hhost⟩
    · rw [hsame]
      exact ih
    · rw [hhost]
      exact hload _ _ name source closer host hopen ih
  | set hset _ ih =>
    rw [hset]
    exact ih

/-- The course of a machine leads to machines that can be reached. -/
theorem reachable {source : Source} {sink : Sink} (hm : Course new t m)
    (hnew : Reachable source sink new) : Reachable source sink m := by
  induction hm with
  | new => exact hnew
  | operation op _ ih => exact ih.operation op
  | loadFile name _ ih => exact ih.loadFile name
  | set hset _ ih => exact ih.set hset

end Course

/-- Every machine that can be reached has a course from its creation on. -/
theorem Reachable.course {source : Source} {sink : Sink} {m : Machine}
    (hm : Reachable source sink m) :
    ∃ words host tracing new t,
      Machine.create words (.ofDefaults source sink host tracing) = .ok new ∧ Course new t m := by
  induction hm with
  | create hcreate => exact ⟨_, _, _, _, _, hcreate, .new⟩
  | operation op _ ih =>
    obtain ⟨words, host, tracing, new, t, hcreate, hcourse⟩ := ih
    exact ⟨words, host, tracing, new, _, hcreate, hcourse.operation op⟩
  | systemCall hbindings code args _ ih =>
    obtain ⟨words, host, tracing, new, t, hcreate, hcourse⟩ := ih
    obtain ⟨ops, hnext⟩ := hcourse.systemCall hbindings code args
    exact ⟨words, host, tracing, new, _, hcreate, hnext⟩
  | run hbindings limit _ ih =>
    obtain ⟨words, host, tracing, new, t, hcreate, hcourse⟩ := ih
    obtain ⟨ops, hnext⟩ := hcourse.run hbindings limit
    exact ⟨words, host, tracing, new, _, hcreate, hnext⟩
  | loadFile name _ ih =>
    obtain ⟨words, host, tracing, new, t, hcreate, hcourse⟩ := ih
    exact ⟨words, host, tracing, new, t, hcreate, hcourse.loadFile name⟩
  | set hset _ ih =>
    obtain ⟨words, host, tracing, new, t, hcreate, hcourse⟩ := ih
    exact ⟨words, host, tracing, new, t, hcreate, hcourse.set hset⟩

/-- A new machine has the peripherals that it is created with. -/
theorem create_peripherals {words : Int} {p : Peripherals} {m : Machine}
    (hcreate : create words p = .ok m) : m.peripherals = p := by
  unfold create at hcreate
  split at hcreate
  · cases hcreate
    rfl
  · cases hcreate

end Intcode.Machine
