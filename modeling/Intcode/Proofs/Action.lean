import Intcode.Action

/-!
# Running actions

An action is a function of the state. The equations here run the building
blocks of actions on a state, so that the effect of a composed action is read off
by rewriting.
-/

namespace Intcode.Action

variable {σ τ α β : Type}

/-- A sequence runs its second part on the state that the first part left. -/
theorem bind_apply (x : Action σ α) (f : α → Action σ β) (s : σ) :
    (x >>= f) s = match x s with
      | .ok a s => f a s
      | .error e s => .error e s := by
  change EStateM.bind x f s = _
  unfold EStateM.bind
  cases x s <;> rfl

/-- The state as a result. -/
@[simp] theorem get_apply (s : σ) : (get : Action σ σ) s = .ok s s := rfl

/-- A change of the state. -/
@[simp] theorem modify_apply (f : σ → σ) (s : σ) :
    (modify f : Action σ PUnit) s = .ok ⟨⟩ (f s) := rfl

/-- A plain result. -/
@[simp] theorem pure_apply (a : α) (s : σ) : (pure a : Action σ α) s = .ok a s := rfl

/-- A failure leaves the state as it is. -/
@[simp] theorem throw_apply (e : Failure) (s : σ) : (throw e : Action σ α) s = .error e s := rfl

/-- A result computed from the state. -/
theorem read_apply (f : σ → Except Failure α) (s : σ) :
    (read f : Action σ α) s = match f s with
      | .ok a => .ok a s
      | .error e => .error e s := by
  unfold read
  cases f s <;> rfl

/-- A result computed in two steps. -/
theorem read_bind (f : σ → Except Failure α) (g : α → σ → Except Failure β) :
    (read fun s => f s >>= fun a => g a s : Action σ β) = read f >>= fun a => read (g a) := by
  funext s
  rw [bind_apply, read_apply, read_apply]
  cases f s with
  | error e => rfl
  | ok a => exact read_apply (g a) s

/-- What is done after a successful reading. -/
theorem read_bind_apply {f : σ → Except Failure α} {s : σ} {a : α} (h : f s = .ok a)
    (g : α → Action σ β) : (read f >>= g) s = g a s := by
  rw [bind_apply, read_apply, h]

/-- A result that does not depend on the state. -/
theorem read_pure (a : α) : (read fun _ => pure a : Action σ α) = pure a := rfl

/-- An action that succeeds leaves one state. -/
theorem ok_unique {x : Action σ Unit} {s s₁ s₂ : σ} (h₁ : x s = .ok () s₁)
    (h₂ : x s = .ok () s₂) : s₁ = s₂ := by
  rw [h₁] at h₂
  cases h₂
  rfl

/-- A sequence succeeds exactly when both of its parts do, one after the other. -/
theorem bind_eq_ok_iff {x : Action σ α} {f : α → Action σ β} {s s' : σ} {b : β} :
    (x >>= f) s = .ok b s' ↔ ∃ a s₁, x s = .ok a s₁ ∧ f a s₁ = .ok b s' := by
  rw [bind_apply]
  constructor
  · intro h
    cases hx : x s with
    | ok a s₁ => exact ⟨a, s₁, rfl, by simpa only [hx] using h⟩
    | error e s₁ => simp only [hx, reduceCtorEq] at h
  · rintro ⟨a, s₁, hx, h⟩
    simpa only [hx] using h

/-- A sequence fails exactly when its first part does, or its second part after it. -/
theorem bind_eq_error_iff {x : Action σ α} {f : α → Action σ β} {s s' : σ} {e : Failure} :
    (x >>= f) s = .error e s' ↔
      x s = .error e s' ∨ ∃ a s₁, x s = .ok a s₁ ∧ f a s₁ = .error e s' := by
  rw [bind_apply]
  constructor
  · intro h
    cases hx : x s with
    | ok a s₁ => exact .inr ⟨a, s₁, rfl, by simpa only [hx] using h⟩
    | error e₁ s₁ =>
      simp only [hx, EStateM.Result.error.injEq] at h
      obtain ⟨rfl, rfl⟩ := h
      exact .inl rfl
  · rintro (hx | ⟨a, s₁, hx, h⟩)
    · simp only [hx]
    · simpa only [hx] using h

/-- A loop over the first numbers goes through a sequence of states if each of its rounds leads from
one of them to the next. -/
theorem forM_range {f : Nat → Action σ PUnit} {n : Nat} (states : Nat → σ)
    (h : ∀ i < n, f i (states i) = .ok ⟨⟩ (states (i + 1))) :
    (List.range n).forM f (states 0) = .ok ⟨⟩ (states n) := by
  induction n with
  | zero => rfl
  | succ n ih =>
    rw [List.range_succ, List.forM_eq_forM, List.forM_append, ← List.forM_eq_forM, bind_apply,
      ih fun i hi => h i (Nat.lt_succ_of_lt hi)]
    change (f n >>= fun _ => pure PUnit.unit) (states n) = _
    rw [bind_apply, h n (Nat.lt_succ_self n)]
    rfl

/-- The state of an outcome, be it a success or a failure. -/
def stateOf : EStateM.Result Failure σ α → σ
  | .ok _ s => s
  | .error _ s => s

/-- The state of a success. -/
@[simp] theorem stateOf_ok (a : α) (s : σ) : stateOf (.ok a s) = s := rfl

/-- The state of a failure. -/
@[simp] theorem stateOf_error (e : Failure) (s : σ) :
    stateOf (.error e s : EStateM.Result Failure σ α) = s := rfl

/-- The state that an action leaves, whether it succeeds or fails. -/
def final (x : Action σ α) (s : σ) : σ := stateOf (x s)

/-- The state after a sequence. -/
theorem final_bind (x : Action σ α) (f : α → Action σ β) (s : σ) :
    (x >>= f).final s = match x s with
      | .ok a s' => (f a).final s'
      | .error _ s' => s' := by
  simp only [final, bind_apply]
  cases x s <;> rfl

/-- A result put after an action leaves its state alone. -/
@[simp] theorem final_bind_pure (x : Action σ α) (b : β) (s : σ) :
    (do let _ ← x; pure b : Action σ β).final s = x.final s := by
  simp only [final, bind_apply]
  cases x s <;> rfl

/-- Outcomes that give the same result or the same failure, and leave related states. -/
inductive Agree (R : σ → σ → Prop) :
    EStateM.Result Failure σ α → EStateM.Result Failure σ α → Prop
  | ok (a : α) {s t : σ} (h : R s t) : Agree R (.ok a s) (.ok a t)
  | error (e : Failure) {s t : σ} (h : R s t) : Agree R (.error e s) (.error e t)

/-- An action that cannot tell related states apart. -/
def Respects (R : σ → σ → Prop) (x : Action σ α) : Prop := ∀ s t, R s t → Agree R (x s) (x t)

section Respects

variable {R : σ → σ → Prop}

/-- A result does not look at the state. -/
theorem respects_pure (a : α) : Respects R (pure a : Action σ α) := fun _ _ h => .ok a h

/-- A failure does not look at the state. -/
theorem respects_throw (e : Failure) : Respects R (throw e : Action σ α) := fun _ _ h => .error e h

/-- A change that takes related states to related states. -/
theorem respects_modify {f : σ → σ} (hf : ∀ s t, R s t → R (f s) (f t)) :
    Respects R (modify f : Action σ Unit) := by
  intro s t h
  rw [modify_apply, modify_apply]
  exact .ok () (hf s t h)

/-- What is the same in related states may be read. -/
theorem respects_read {f : σ → Except Failure α} (hf : ∀ s t, R s t → f s = f t) :
    Respects R (read f) := by
  intro s t h
  rw [read_apply, read_apply, hf s t h]
  cases f t with
  | ok a => exact .ok a h
  | error e => exact .error e h

/-- Two actions one after the other. -/
theorem Respects.bind {x : Action σ α} {f : α → Action σ β} (hx : Respects R x)
    (hf : ∀ a, Respects R (f a)) : Respects R (x >>= f) := by
  intro s t h
  have hfirst := hx s t h
  rw [bind_apply, bind_apply]
  generalize x s = r, x t = r' at hfirst
  cases hfirst with
  | ok a h' => exact hf a _ _ h'
  | error e h' => exact .error e h'

/-- What is done next may depend on what is the same in related states. -/
theorem respects_get_bind {f : σ → Action σ β} (hf : ∀ s t, R s t → f s = f t)
    (hx : ∀ s, Respects R (f s)) : Respects R (get >>= f) := by
  intro s t h
  change Agree R (f s s) (f t t)
  rw [hf s t h]
  exact hx t s t h

end Respects

/-- An action that leads from each state to a related one, whether it succeeds or fails. -/
def Stays (R : σ → σ → Prop) (x : Action σ α) : Prop := ∀ s, R s (x.final s)

section Stays

variable {R : σ → σ → Prop}

/-- A change to a related state. -/
theorem stays_modify {f : σ → σ} (hf : ∀ s, R s (f s)) : Stays R (modify f : Action σ PUnit) := hf

/-- Two actions one after the other. -/
theorem Stays.bind [Trans R R R] {x : Action σ α} {f : α → Action σ β} (hx : Stays R x)
    (hf : ∀ a, Stays R (f a)) : Stays R (x >>= f) := by
  intro s
  have hfirst := hx s
  rw [final] at hfirst
  rw [final_bind]
  cases hrun : x s with
  | error e s' =>
    rw [hrun] at hfirst
    exact hfirst
  | ok a s' =>
    rw [hrun] at hfirst
    exact Trans.trans hfirst (hf a s')

variable [Std.Refl R]

/-- A result leaves the state alone. -/
theorem stays_pure (a : α) : Stays R (pure a : Action σ α) := Std.Refl.refl

/-- A failure leaves the state alone. -/
theorem stays_throw (e : Failure) : Stays R (throw e : Action σ α) := Std.Refl.refl

/-- Reading leaves the state alone. -/
theorem stays_read (f : σ → Except Failure α) : Stays R (read f) := by
  intro s
  rw [final, read_apply]
  cases f s <;> exact Std.Refl.refl s

/-- The state may be looked at first. -/
theorem stays_get_bind [Trans R R R] {f : σ → Action σ β} (hf : ∀ s, Stays R (f s)) :
    Stays R (get >>= f) :=
  Stays.bind (fun s => Std.Refl.refl s) hf

end Stays

/-- An action that leaves the state as it is when it fails. -/
def Precise (x : Action σ α) : Prop := ∀ s e s', x s = .error e s' → s' = s

section Precise

/-- A change does not fail. -/
theorem precise_modify (f : σ → σ) : Precise (modify f : Action σ PUnit) := by
  intro s e s' h
  cases h

/-- A failure alone changes nothing. -/
theorem precise_throw (e : Failure) : Precise (throw e : Action σ α) := by
  intro s e' s' h
  cases h
  rfl

/-- What is done after the state has been looked at must be precise. -/
theorem precise_get_bind {f : σ → Action σ β} (hf : ∀ s, Precise (f s)) : Precise (get >>= f) :=
  fun s e s' h => hf s s e s' h

/-- What is done after reading must be precise. -/
theorem precise_read_bind (f : σ → Except Failure α) {g : α → Action σ β}
    (hg : ∀ a, Precise (g a)) : Precise (read f >>= g) := by
  intro s e s' h
  rw [bind_apply, read_apply] at h
  cases hf : f s with
  | error e' =>
    simp only [hf] at h
    cases h
    rfl
  | ok a =>
    simp only [hf] at h
    exact hg a s e s' h

end Precise

/-- What a view shows of the state after an action, if the action succeeds. -/
def after? (view : σ → β) (x : Action σ α) (s : σ) : Option β :=
  match x s with
  | .ok _ s' => some (view s')
  | .error _ _ => none

/-- A view shows something exactly when the action succeeds. -/
theorem after?_eq_some_iff {view : σ → β} {x : Action σ Unit} {s : σ} {b : β} :
    x.after? view s = some b ↔ ∃ s', x s = .ok () s' ∧ view s' = b := by
  unfold after?
  cases x s with
  | ok u s' => simp
  | error e s' => simp

end Intcode.Action
