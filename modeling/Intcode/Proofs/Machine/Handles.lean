import Mathlib.Logic.Function.Iterate
import Intcode.Proofs.Machine.Course
import Intcode.Proofs.Machine.Outcomes

/-!
# Handles of files

The handle of a new file is searched for in rounds. The first round tries the handle in
a counter, and each round after it the next one, with the lowest handle after the
highest. The counter goes one past the handle that was found, so after the highest one
it has overflowed.

Main statement: however a machine was reached, the search ends exactly when a handle is
free. Then the file gets the first free handle from the counter on, and nothing else in
the table changes.
-/

namespace Intcode

namespace Peripherals

/-- A handle that the search accepts: that of a file, and not open. -/
def IsFree (t : StreamTable) (k : Cell) : Prop := 3 ≤ k.toInt ∧ t.isOpen k = false

instance (t : StreamTable) (k : Cell) : Decidable (IsFree t k) :=
  inferInstanceAs (Decidable (_ ∧ _))

/-- The search from a handle on ends in a round: the handle of that round is accepted, and none
before it is. -/
structure EndsIn (t : StreamTable) (h : Cell) (n : Nat) : Prop where
  free : IsFree t (handleAfter^[n] h)
  before : ∀ i < n, ¬ IsFree t (handleAfter^[i] h)

/-- The handles before the last one in a search that goes up from a start, and from the lowest
handle again after the highest. -/
def Passed (start last k : Int) : Prop :=
  if start ≤ last then start ≤ k ∧ k < last else start ≤ k ∨ k < last

/-- The first free handle from a start on. -/
structure FirstFree (t : StreamTable) (start : Int) (k : Cell) : Prop where
  free : IsFree t k
  passed : ∀ j : Cell, 3 ≤ j.toInt → Passed start k.toInt j.toInt → t.isOpen j = true

section Search

variable {t : StreamTable} {h k : Cell} {n : Nat}

/-- The search accepts a handle or goes on after it. -/
theorem freeHandle?_succ (t : StreamTable) (n : Nat) (h : Cell) :
    freeHandle? t (n + 1) h =
      if IsFree t h then some h else freeHandle? t n (handleAfter h) := by
  have hfirst : firstFile.toInt = 3 := rfl
  rw [freeHandle?, hfirst]
  by_cases hfree : IsFree t h
  · have hcond : ¬ (t.isOpen h || decide (h.toInt < 3)) = true := by
      rw [hfree.2, Bool.false_or, decide_eq_true_eq]
      exact Int.not_lt.mpr hfree.1
    rw [if_pos hfree, if_neg hcond]
  · rw [if_neg hfree, if_pos]
    rw [Bool.or_eq_true, decide_eq_true_eq]
    by_cases hlt : h.toInt < 3
    · exact .inr hlt
    · refine .inl (Bool.of_not_eq_false fun hclosed => hfree ⟨Int.not_lt.mp hlt, hclosed⟩)

/-- A search that has found a handle has ended in one of its rounds. -/
theorem endsIn_of_freeHandle? (hfound : freeHandle? t n h = some k) :
    ∃ i, EndsIn t h i ∧ handleAfter^[i] h = k := by
  induction n generalizing h with
  | zero => cases hfound
  | succ n ih =>
    rw [freeHandle?_succ] at hfound
    by_cases hfree : IsFree t h
    · rw [if_pos hfree] at hfound
      exact ⟨0, ⟨hfree, fun i hi => absurd hi (Nat.not_lt_zero i)⟩, Option.some.inj hfound⟩
    · rw [if_neg hfree] at hfound
      obtain ⟨i, hends, hlast⟩ := ih hfound
      refine ⟨i + 1, ⟨hends.free, fun j hj => ?_⟩, hlast⟩
      cases j with
      | zero => exact hfree
      | succ j => exact hends.before j (Nat.lt_of_succ_lt_succ hj)

/-- A search ends in one round only. -/
theorem EndsIn.unique {i : Nat} (hn : EndsIn t h n) (hi : EndsIn t h i) : n = i := by
  rcases Nat.lt_trichotomy n i with hlt | heq | hlt
  · exact absurd hn.free (hi.before n hlt)
  · exact heq
  · exact absurd hi.free (hn.before i hlt)

/-- The search ends exactly when a handle is free. -/
theorem exists_endsIn_iff : (∃ n, EndsIn t h n) ↔ ∃ k, IsFree t k := by
  constructor
  · rintro ⟨n, hends⟩
    exact ⟨_, hends.free⟩
  · rintro ⟨k, hle, hclosed⟩
    cases hsearch : freeHandle? t handleCount h with
    | none =>
      rw [freeHandle?_eq_none_iff.mp hsearch k hle] at hclosed
      cases hclosed
    | some j =>
      obtain ⟨i, hends, -⟩ := endsIn_of_freeHandle? hsearch
      exact ⟨i, hends⟩

/-- What the search finds is the handle of the round in which it ends. -/
theorem EndsIn.freeHandle?_eq (hends : EndsIn t h n) :
    freeHandle? t handleCount h = some (handleAfter^[n] h) := by
  cases hsearch : freeHandle? t handleCount h with
  | none =>
    have hopen := freeHandle?_eq_none_iff.mp hsearch _ hends.free.1
    rw [hends.free.2] at hopen
    cases hopen
  | some j =>
    obtain ⟨i, hends', rfl⟩ := endsIn_of_freeHandle? hsearch
    rw [hends.unique hends']

/-- The handles of the rounds go up one by one, and from the lowest again after the highest. -/
theorem toInt_iterate_handleAfter (hfile : 3 ≤ h.toInt) (n : Nat) :
    (handleAfter^[n] h).toInt = 3 + (h.toInt - 3 + n) % 32765 := by
  have hhigh := h.toInt_lt
  induction n with
  | zero =>
    rw [Function.iterate_zero_apply]
    omega
  | succ n ih =>
    rw [Function.iterate_succ_apply', toInt_handleAfter, ih]
    split <;> omega

/-- A search from the handle of a file on ends at the first free handle. -/
theorem EndsIn.firstFree_of_file (hends : EndsIn t h n) (hfile : 3 ≤ h.toInt) :
    FirstFree t h.toInt (handleAfter^[n] h) := by
  refine ⟨hends.free, fun j hj hpassed => ?_⟩
  have hlast := toInt_iterate_handleAfter hfile n
  have hhigh := h.toInt_lt
  have hhigh' := j.toInt_lt
  -- The round in which the handle was tried.
  obtain ⟨i, hround, hi⟩ : ∃ i : Nat, (h.toInt - 3 + i) % 32765 = j.toInt - 3 ∧ i < n := by
    unfold Passed at hpassed
    by_cases hle : h.toInt ≤ j.toInt
    · refine ⟨(j.toInt - h.toInt).toNat, ?_, ?_⟩
      · omega
      · split at hpassed <;> omega
    · refine ⟨(j.toInt - h.toInt + 32765).toNat, ?_, ?_⟩
      · omega
      · split at hpassed <;> omega
  have htried : handleAfter^[i] h = j := by
    apply BitVec.eq_of_toInt_eq
    rw [toInt_iterate_handleAfter hfile, hround]
    omega
  have hnot := hends.before i hi
  rw [htried] at hnot
  exact Bool.of_not_eq_false fun hclosed => hnot ⟨hj, hclosed⟩

/-- A search from any other handle on ends at the first free handle from the lowest on. -/
theorem EndsIn.firstFree_of_low (hends : EndsIn t h n) (hlow : h.toInt < 3) :
    FirstFree t 3 (handleAfter^[n] h) := by
  have hafter : handleAfter h = firstFile := by
    apply BitVec.eq_of_toInt_eq
    rw [toInt_handleAfter, if_neg fun hand => absurd hlow (Int.not_lt.mpr hand.1)]
    rfl
  cases n with
  | zero => exact absurd hlow (Int.not_lt.mpr hends.free.1)
  | succ n =>
    have hrest : EndsIn t firstFile n :=
      ⟨hafter ▸ hends.free, fun i hi => hafter ▸ hends.before (i + 1) (Nat.succ_lt_succ hi)⟩
    rw [Function.iterate_succ_apply, hafter]
    exact hrest.firstFree_of_file (Int.le_refl 3)

end Search

/-- The counter holds the handle of a file, or it has overflowed. -/
def Counts (p : Peripherals) : Prop := 3 ≤ p.nextHandle.toInt ∨ p.nextHandle.toInt = -32768

/-- The counter goes one past a handle that was given. -/
theorem counts_added (p : Peripherals) {k : Cell} (hk : 3 ≤ k.toInt) (s : Stream) :
    (p.added k s).Counts := by
  have hhigh := k.toInt_lt
  change 3 ≤ (k + 1).toInt ∨ (k + 1).toInt = -32768
  rw [BitVec.toInt_add, Int.bmod_def, show (1 : Cell).toInt = 1 from rfl]
  split <;> omega

/-- A move leaves the counter alone or goes one past a handle that it gives. -/
theorem Move.counts {scope : Scope} {p q : Peripherals} {k : Cell} (hmove : Move scope p k q)
    (hp : p.Counts) : q.Counts := by
  cases hmove with
  | find _ _ hfree => exact counts_added _ (freeHandle?_eq_some hfree).2 _
  | create _ _ hfree => exact counts_added _ (freeHandle?_eq_some hfree).2 _
  | _ => exact hp

/-- Every operation leaves the counter in order. -/
theorem Counts.final {p : Peripherals} (hp : p.Counts) (op : StreamOperation) :
    (op.action.final p).Counts := by
  rcases op.final_reaches p with hreach | ⟨-, host, -, hhost⟩
  · exact hreach.preserves (fun _ _ _ hmove => hmove.counts) hp
  · rw [hhost]
    exact hp

end Peripherals

namespace Machine

open Peripherals

/-- However a machine was reached, its counter holds the handle of a file, or it has overflowed. -/
theorem Reachable.counts {source : Source} {sink : Sink} {m : Machine}
    (hm : Reachable source sink m) : m.peripherals.Counts := by
  obtain ⟨words, host, tracing, new, t, hcreate, hcourse⟩ := hm.course
  refine hcourse.keeps (I := fun _ => Counts) ?_ (fun _ _ op hp => hp.final op)
    fun _ _ _ _ _ _ _ hp => hp
  rw [create_peripherals hcreate]
  exact .inl (Int.le_refl 3)

/-- A file gets the first free handle. However a machine was reached, the search for a handle ends
if and only if one of the handles from 3 to 32767 is not open, and else it goes on for ever. The
handle that it finds was not open, and it is the first such handle from the counter on, or from 3 on
if the counter has overflowed, with 3 after 32767. The new stream is put under that handle, the
counter goes one past it, and nothing else changes. -/
theorem handles_first_free {source : Source} {sink : Sink} {m : Machine}
    (hm : Reachable source sink m) (s : Stream) :
    let p := m.peripherals
    let start := if p.nextHandle.toInt = -32768 then 3 else p.nextHandle.toInt
    (3 ≤ start ∧ start ≤ 32767) ∧
    ((∃ n, EndsIn p.streams p.nextHandle n) ↔
      ∃ k : Cell, (3 ≤ k.toInt ∧ k.toInt ≤ 32767) ∧ p.streams.isOpen k = false) ∧
    ((∀ n, ¬ EndsIn p.streams p.nextHandle n) → addStream s p = .error .endless p) ∧
    ∀ n, EndsIn p.streams p.nextHandle n → ∃ k q,
      handleAfter^[n] p.nextHandle = k ∧ addStream s p = .ok k q ∧
      (3 ≤ k.toInt ∧ k.toInt ≤ 32767) ∧ p.streams.isOpen k = false ∧
      FirstFree p.streams start k ∧
      (∀ j, q.streams.get? j = if j = k then some s else p.streams.get? j) ∧
      q = { p with streams := q.streams, nextHandle := k + 1 } := by
  intro p start
  have hcounts : 3 ≤ p.nextHandle.toInt ∨ p.nextHandle.toInt = -32768 := hm.counts
  have hhigh := p.nextHandle.toInt_lt
  refine ⟨?_, ?_, ?_, fun n hends => ?_⟩
  · simp only [start]
    split <;> omega
  · rw [exists_endsIn_iff]
    constructor
    · rintro ⟨k, hle, hclosed⟩
      have hlt := k.toInt_lt
      exact ⟨k, ⟨hle, by omega⟩, hclosed⟩
    · rintro ⟨k, hrange, hclosed⟩
      exact ⟨k, hrange.1, hclosed⟩
  · intro hforever
    rw [addStream_apply]
    cases hsearch : freeHandle? p.streams handleCount p.nextHandle with
    | none => rfl
    | some k =>
      obtain ⟨i, hends, -⟩ := endsIn_of_freeHandle? hsearch
      exact absurd hends (hforever i)
  · have hlt := (handleAfter^[n] p.nextHandle).toInt_lt
    refine ⟨_, p.added _ s, rfl, ?_, ⟨hends.free.1, by omega⟩, hends.free.2, ?_,
      fun j => get?_added .., rfl⟩
    · rw [addStream_apply, hends.freeHandle?_eq]
    · by_cases hoverflow : p.nextHandle.toInt = -32768
      · simp only [start, if_pos hoverflow]
        exact hends.firstFree_of_low (by omega)
      · simp only [start, if_neg hoverflow]
        exact hends.firstFree_of_file (hcounts.resolve_right hoverflow)

/-- A host can open its file as long as there are handles. -/
theorem exists_holding {j : Nat} (hj : j ≤ 32765) :
    ∃ m, Reachable (.script [] none) (.device {}) m ∧ Holding j m.peripherals := by
  induction j with
  | zero =>
    have hcreate : create 500 (.ofDefaults (.script [] none) (.device {}) (lender 0) false) =
        .ok { memory := .ofFn 500 initialCell, lomem := codeStart + 3, peripherals := _ } := rfl
    exact ⟨_, .create hcreate, holding_zero⟩
  | succ j ih =>
    obtain ⟨m, hm, hholding⟩ := ih (by omega)
    obtain ⟨q, hfind, hq⟩ := hholding.findInput (by omega)
    refine ⟨_, hm.operation (.findInput (Text.ofAscii "a")), ?_⟩
    rw [Action.final, onPeripherals_apply, StreamOperation.action, hfind]
    exact hq

/-- Ending the stream of a file that is selected for input forgets its handle. -/
theorem endRead_of_file {p : Peripherals} {s : Stream}
    (hfile : p.input ≠ defaultInput ∧ p.input ≠ defaultOutput)
    (hstream : p.streams.get? p.input = some s) :
    endRead.final p = { p.ended p.input s with input := defaultInput } := by
  have hend : endStream p.input p = .ok (s.close p.host).1 (p.ended p.input s) := by
    rw [endStream_apply, if_neg (not_or.mpr hfile), hstream]
  simp only [Action.final, endRead, Action.bind_apply, Action.get_apply, hend, selectInput,
    Action.modify_apply, check_apply, stateOf_concluded]

/-- All handles have been given, and then the file with handle 5 was ended. The counter has
overflowed, and the next file gets that handle again. -/
theorem handles_first_free_overflowed :
    ∃ m, Reachable (.script [] none) (.device {}) m ∧ m.peripherals.nextHandle.toInt = -32768 ∧
      (∀ k : Cell, 3 ≤ k.toInt → (m.peripherals.streams.isOpen k = false ↔ k = 5)) ∧
      ∀ s, ∃ q, addStream s m.peripherals = .ok 5 q ∧ q.streams.get? 5 = some s ∧
        q.streams.get? 4 = m.peripherals.streams.get? 4 := by
  obtain ⟨m, hm, hholding⟩ := @exists_holding 32765 (Nat.le_refl _)
  have hopen (k : Cell) (hk : 3 ≤ k.toInt) : m.peripherals.streams.isOpen k = true :=
    hholding.isFull k hk
  obtain ⟨r, hr⟩ := Option.isSome_iff_exists.mp (hopen 5 (by decide))
  have hfile : (5 : Cell) ≠ defaultInput ∧ (5 : Cell) ≠ defaultOutput := by decide
  have hended := (hm.operation (.selectInput 5)).operation .endRead
  generalize hlast : (onPeripherals StreamOperation.endRead.action).final
    ((onPeripherals (StreamOperation.selectInput 5).action).final m) = last at hended
  have hperipherals : last.peripherals =
      { Peripherals.ended { m.peripherals with input := 5 } 5 r with input := defaultInput } := by
    rw [← hlast, onPeripherals_final, onPeripherals_final]
    simp only [StreamOperation.action, Action.final_bind_pure]
    exact endRead_of_file (p := { m.peripherals with input := 5 }) hfile hr
  have hcounter : last.peripherals.nextHandle.toInt = -32768 := by
    rw [hperipherals]
    change m.peripherals.nextHandle.toInt = -32768
    rw [hholding.next]
    decide
  have hclosed (k : Cell) (hk : 3 ≤ k.toInt) :
      last.peripherals.streams.isOpen k = false ↔ k = 5 := by
    have hget : last.peripherals.streams.get? k =
        if k = 5 then none else m.peripherals.streams.get? k := by
      rw [hperipherals]
      exact get?_ended _ 5 k r
    have hopen' : (m.peripherals.streams.get? k).isSome = true := hopen k hk
    rw [StreamTable.isOpen, hget]
    by_cases h5 : k = 5
    · rw [if_pos h5]
      exact ⟨fun _ => h5, fun _ => rfl⟩
    · rw [if_neg h5, hopen']
      exact ⟨(by cases ·), fun h => absurd h h5⟩
  refine ⟨last, hended, hcounter, hclosed, fun s => ?_⟩
  obtain ⟨-, hends, -, hfound⟩ := handles_first_free hended s
  obtain ⟨n, hn⟩ := hends.mpr ⟨5, by decide, (hclosed 5 (by decide)).mpr rfl⟩
  obtain ⟨k, q, -, hadd, hrange, hfree, -, htable, -⟩ := hfound n hn
  obtain rfl := (hclosed k hrange.1).mp hfree
  exact ⟨q, hadd, htable 5, htable 4⟩

end Machine

end Intcode
