import Intcode.Failure

/-!
# Actions

An action computes a result and a new state, or fails. The state that it leaves
behind when it fails counts too: a string half stored stays half stored.
-/

namespace Intcode

/-- A computation on a state that may fail, and then still leaves a state. -/
abbrev Action (σ α : Type) := EStateM Failure σ α

namespace Action

variable {σ τ α : Type}

/-- Computes a result from the state, which stays as it is. -/
@[inline] def read (f : σ → Except Failure α) : Action σ α := fun s =>
  match f s with
  | .ok a => .ok a s
  | .error e => .error e s

/-- Fails with a report. -/
@[inline] def fail (r : Report) : Action σ α := throw (.report r)

/-- Runs an action on a part of the state. The part is taken out meanwhile, so that the
action is its only owner. -/
@[inline] def on [Inhabited τ] (part : σ → τ) (replace : σ → τ → σ) (x : Action τ α) :
    Action σ α := fun s =>
  let t := part s
  let s := replace s default
  match x t with
  | .ok a t => .ok a (replace s t)
  | .error e t => .error e (replace s t)

/-- Runs an action and restates its failure in view of the state it left. -/
@[inline] def restating (f : σ → Failure → Failure) (x : Action σ α) : Action σ α := fun s =>
  match x s with
  | .ok a s => .ok a s
  | .error e s => .error (f s e) s

end Action

end Intcode
