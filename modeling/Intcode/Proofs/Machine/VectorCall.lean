import Intcode.Proofs.Machine.Frames

/-!
# Calls with a vector

A routine can be called with a vector that is made for it. The vector lies above
the frame of the call, and the new frame above the vector: it holds the frame base
and the address to go back to, like any frame, and then the routine's two
arguments, the vector and its bound.

A short vector puts the new frame over the arguments of the call itself, and the
word that names the routine is read last. With a bound of two or more the routine
is entered. With a bound of one the word holds the frame base by then, and with a
bound of zero the address to go back to, and the program goes on there. The frame
is complete in each case, so that a return leads back to the caller.
-/

namespace Intcode

namespace Machine

/-- A system call that the host has not bound is served by the machine's own handler. -/
theorem systemCall_of_builtIn {bindings : Bindings} {code : Cell} {call : SystemCall}
    {handler : Handler} (hunbound : bindings.get? code = none)
    (hcode : SystemCall.ofCell? code = some call) (hhandler : builtIn? call = some handler)
    (args : Int) : systemCall bindings code args = handler args := by
  unfold systemCall
  rw [hunbound, hcode]
  simp only [Option.bind_some, hhandler]
  rfl

/-- The frame of a call with a vector of bound `n` above the frame at `d`. -/
def vectorFrame (m : Machine) (d : Nat) (n : Cell) : Memory :=
  m.memory.storeWords (d + n.toNat + 1) [m.sp, Cell.ofInt m.pc, Cell.ofNat d, n]

/-- What the word that names the routine holds once the frame of a call with a vector is there. -/
def vectorRoutine (m : Machine) (r n : Cell) : Cell :=
  if n = 0 then Cell.ofInt m.pc else if n = 1 then m.sp else r

section VectorCall

variable {m : Machine} {d : Nat} {r n : Cell}

/-- The frame holds four words, and the words around it are unchanged. -/
theorem cellAt_vectorFrame (hroom : d + n.toNat + 4 < m.memory.size) (i : Nat) :
    (m.vectorFrame d n).cellAt i =
      if d + n.toNat + 1 ≤ i ∧ i < d + n.toNat + 5 then
        [m.sp, Cell.ofInt m.pc, Cell.ofNat d, n].getD (i - (d + n.toNat + 1)) 0
      else m.memory.cellAt i :=
  Memory.cellAt_storeWords hroom i

/-- The four words of the frame, one by one. -/
theorem cellAt_vectorFrame_add (hroom : d + n.toNat + 4 < m.memory.size) {k : Nat} (hk : k < 4) :
    (m.vectorFrame d n).cellAt (d + n.toNat + (k + 1)) =
      [m.sp, Cell.ofInt m.pc, Cell.ofNat d, n].getD k 0 := by
  have hindex : d + n.toNat + (k + 1) - (d + n.toNat + 1) = k := by omega
  rw [cellAt_vectorFrame hroom, if_pos (by omega), hindex]

/-- The new frame covers the word that names the routine when the bound is less than two. -/
theorem cellAt_vectorFrame_routine (hroutine : m.memory.cellAt (d + 2) = r)
    (hroom : d + n.toNat + 4 < m.memory.size) :
    (m.vectorFrame d n).cellAt (d + 2) = m.vectorRoutine r n := by
  rw [cellAt_vectorFrame hroom, vectorRoutine]
  by_cases hzero : n = 0
  · subst hzero
    have hindex : d + 2 - (d + (0 : Cell).toNat + 1) = 1 := by simp
    rw [if_pos (by simp), if_pos rfl, hindex]
    rfl
  · by_cases hone : n = 1
    · subst hone
      have hindex : d + 2 - (d + (1 : Cell).toNat + 1) = 0 := by simp
      rw [if_pos (by simp), if_neg hzero, if_pos rfl, hindex]
      rfl
    · have hzero' : n.toNat ≠ 0 := fun h => hzero (BitVec.eq_of_toNat_eq h)
      have hone' : n.toNat ≠ 1 := fun h => hone (BitVec.eq_of_toNat_eq h)
      rw [if_neg (by omega), if_neg hzero, if_neg hone, hroutine]

/-- A call with a vector makes the frame and goes to where the word that names the routine leads by
then. -/
theorem applyToVector_apply (hroutine : m.memory.cellAt (d + 2) = r)
    (hbound : m.memory.cellAt (d + 3) = n) (hroom : d + n.toNat + 4 < m.memory.size)
    (hfits : d + n.toNat + 4 < 65536) :
    applyToVector (d + 2) m = .ok () { m with
      memory := m.vectorFrame d n
      sp := Cell.ofNat (d + n.toNat + 1)
      pc := (m.vectorRoutine r n).address } := by
  have hd : Cell.ofInt ((d : Int) + 2 - 2) = Cell.ofNat d := by
    apply BitVec.eq_of_toNat_eq
    rw [Cell.toNat_ofInt (by omega) (by omega), BitVec.toNat_ofNat]
    omega
  have hframe : Cell.ofNat d + n + 1 = Cell.ofNat (d + n.toNat + 1) := by
    apply BitVec.eq_of_toNat_eq
    have hone : (1 : Cell).toNat = 1 := rfl
    simp only [BitVec.toNat_add, BitVec.toNat_ofNat, hone]
    omega
  have haddress : (Cell.ofNat (d + n.toNat + 1)).address = ((d + n.toNat + 1 : Nat) : Int) := by
    rw [Cell.address, BitVec.toNat_ofNat, Nat.mod_eq_of_lt (by omega)]
  generalize hf : d + n.toNat + 1 = f at hframe haddress
  have hargs : (d : Int) + 2 + 1 = (d + 3 : Nat) ∧ (d : Int) + 2 = (d + 2 : Nat) := ⟨rfl, rfl⟩
  have hwords : (f : Int) + 1 = (f + 1 : Nat) ∧ (f : Int) + 2 = (f + 2 : Nat) ∧
    (f : Int) + 3 = (f + 3 : Nat) := ⟨rfl, rfl, rfl⟩
  unfold applyToVector
  dsimp only
  rw [hd, hargs.1, word_bind (by omega), hbound, hframe, haddress, hwords.1, hwords.2.1, hwords.2.2,
    hargs.2]
  change (onMemory _ >>= _) m = _
  rw [setWord_bind (by omega), setWord_bind (by simp only [Memory.size_setCell]; omega),
    setWord_bind (by simp only [Memory.size_setCell]; omega),
    setWord_bind (by simp only [Memory.size_setCell]; omega)]
  have hnamed := cellAt_vectorFrame_routine hroutine hroom
  rw [vectorFrame, hf] at hnamed ⊢
  change (word (d + 2 : Nat) >>= _)
    { m with memory := m.memory.storeWords f [m.sp, Cell.ofInt m.pc, Cell.ofNat d, n] } = _
  rw [word_bind (by simp only [Memory.size_storeWords]; omega), hnamed]
  rfl

/-- The address to which a call with a vector goes is that of the routine when the bound is two or
more, or when the word that comes to stand in the routine's place is the same. -/
theorem vectorRoutine_eq_iff : m.vectorRoutine r n = r ↔
    2 ≤ n.toNat ∨ n = 1 ∧ m.sp = r ∨ n = 0 ∧ Cell.ofInt m.pc = r := by
  have hcases : n = 0 ∨ n = 1 ∨ 2 ≤ n.toNat := by
    by_cases hsmall : 2 ≤ n.toNat
    · exact .inr (.inr hsmall)
    · have hle : n.toNat = 0 ∨ n.toNat = 1 := by omega
      exact hle.imp (BitVec.eq_of_toNat_eq ·) fun h => .inl (BitVec.eq_of_toNat_eq h)
  rcases hcases with rfl | rfl | hlarge
  · simp [vectorRoutine]
  · simp [vectorRoutine]
  · have hzero : n ≠ 0 := by
      rintro rfl
      simp at hlarge
    have hone : n ≠ 1 := by
      rintro rfl
      simp at hlarge
    exact iff_of_true ((if_neg hzero).trans (if_neg hone)) (.inl hlarge)

/-- A call with a vector makes a complete frame above the vector, from which a return leads back to
the caller, and changes no other word; but it goes to the routine only when the bound is two or
more, or when the word of the frame that covers the routine's argument is the same. -/
theorem vectorCall_makes_frame {bindings : Bindings} {code : Cell}
    (hunbound : bindings.get? code = none)
    (hcode : SystemCall.ofCell? code = some .applyToVector)
    (hroutine : m.memory.cellAt (d + 2) = r) (hbound : m.memory.cellAt (d + 3) = n)
    (hroom : d + n.toNat + 4 < m.memory.size) (hfits : d + n.toNat + 4 < 65536) :
    ∃ m', systemCall bindings code (d + 2) m = .ok () m' ∧
      m'.sp = Cell.ofNat (d + n.toNat + 1) ∧
      m'.pc = (if n = 0 then Cell.ofInt m.pc else if n = 1 then m.sp else r).address ∧
      (m'.pc = r.address ↔ 2 ≤ n.toNat ∨ n = 1 ∧ m.sp = r ∨ n = 0 ∧ Cell.ofInt m.pc = r) ∧
      m'.memory.size = m.memory.size ∧
      m'.memory.cellAt (d + n.toNat + 1) = m.sp ∧
      m'.memory.cellAt (d + n.toNat + 2) = Cell.ofInt m.pc ∧
      m'.memory.cellAt (d + n.toNat + 3) = Cell.ofNat d ∧
      m'.memory.cellAt (d + n.toNat + 4) = n ∧
      (∀ w, w ≤ d + n.toNat ∨ d + n.toNat + 4 < w →
        m'.memory.cellAt w = m.memory.cellAt w) ∧
      ∀ last : Machine, last.sp = m'.sp → last.memory.size = m'.memory.size →
        (∀ k < 2, last.memory.cellAt (last.sp.toNat + k) = m'.memory.cellAt (last.sp.toNat + k)) →
        0 ≤ m.pc → m.pc < 65536 →
        execute bindings .operate 4 last = .ok () { last with sp := m.sp, pc := m.pc } := by
  have hsp : (Cell.ofNat (d + n.toNat + 1)).toNat = d + n.toNat + 1 := by
    rw [BitVec.toNat_ofNat, Nat.mod_eq_of_lt (by omega)]
  have hword {k : Nat} (hk : k < 4) := cellAt_vectorFrame_add (m := m) hroom hk
  have hserve : systemCall bindings code (d + 2) m = _ :=
    (congrFun (systemCall_of_builtIn hunbound hcode rfl _) m).trans
      (applyToVector_apply hroutine hbound hroom hfits)
  refine ⟨_, hserve, rfl, rfl, ?_, Memory.size_storeWords ..,
    hword (k := 0) (by decide), hword (k := 1) (by decide), hword (k := 2) (by decide),
    hword (k := 3) (by decide), fun w hw => ?_, ?_⟩
  · rw [← vectorRoutine_eq_iff]
    exact ⟨fun h => BitVec.eq_of_toNat_eq (Int.ofNat.inj h), fun h => congrArg Cell.address h⟩
  · exact (cellAt_vectorFrame hroom w).trans (if_neg (by omega))
  · intro last hlast hsize hlinks hpc hpc'
    dsimp only at hlast hsize hlinks
    have hframe : last.sp.toNat = d + n.toNat + 1 := by rw [hlast, hsp]
    have hfit : last.sp.toNat + 1 < last.memory.size := by
      rw [hframe, hsize, vectorFrame, Memory.size_storeWords]
      omega
    have hbase : last.memory.cellAt last.sp.toNat = m.sp := by
      have hlink := hlinks 0 (by decide)
      rw [hframe] at hlink ⊢
      exact hlink.trans (hword (k := 0) (by decide))
    have hback : last.memory.cellAt (last.sp.toNat + 1) = Cell.ofInt m.pc := by
      have hlink := hlinks 1 (by decide)
      rw [hframe] at hlink ⊢
      exact hlink.trans (hword (k := 1) (by decide))
    exact leave_eq hfit (by omega) hbase hback ⟨hpc, by omega⟩

end VectorCall

/-- A machine in the middle of a call with a vector of the given bound: the frame of the call is at
word 3, and the routine at word 9. -/
def vectorCaller (bound : Cell) : Machine where
  memory := .ofFn 12 fun k => if k = 5 then 9 else if k = 6 then bound else 0
  pc := 8
  sp := 1
  lomem := 10
  peripherals := default

/-- With a vector of bound two the routine is entered, and a return leads back. -/
theorem vectorCall_makes_frame_two :
    ∃ m', systemCall {} 40 (3 + 2) (vectorCaller 2) = .ok () m' ∧ m'.sp = 6 ∧ m'.pc = 9 ∧
      execute {} .operate 4 m' = .ok () { m' with sp := 1, pc := 8 } := by
  have hsize : (vectorCaller 2).memory.size = 12 := by decide +kernel
  obtain ⟨m', hserve, hsp, hpc, -, -, -, -, -, -, -, hreturn⟩ :=
    vectorCall_makes_frame (m := vectorCaller 2) (d := 3) (r := 9) (n := 2)
      (rfl : ({} : Bindings).get? 40 = none) rfl (by decide +kernel) (by decide +kernel)
      (by rw [hsize]; decide) (by decide)
  exact ⟨m', hserve, hsp, hpc, hreturn m' rfl rfl (fun _ _ => rfl) (by decide) (by decide)⟩

/-- With a vector of bound zero the program goes on behind the call, and with one of bound one at
the address that is the frame base: neither enters the routine that the call names. -/
theorem vectorCall_misses_routine :
    (∃ m', systemCall {} 40 (3 + 2) (vectorCaller 0) = .ok () m' ∧
      (vectorCaller 0).memory.cellAt 5 = 9 ∧ m'.pc = 8) ∧
    ∃ m', systemCall {} 40 (3 + 2) (vectorCaller 1) = .ok () m' ∧
      (vectorCaller 1).memory.cellAt 5 = 9 ∧ m'.pc = 1 := by
  have hsize (n : Cell) : (vectorCaller n).memory.size = 12 := by
    simp [vectorCaller, Memory.ofFn, Memory.size]
  have hserve {n : Cell} (hnamed : (vectorCaller n).memory.cellAt 5 = 9)
      (hbound : (vectorCaller n).memory.cellAt 6 = n) (hsmall : n.toNat < 2) :=
    (congrFun (systemCall_of_builtIn (rfl : ({} : Bindings).get? 40 = none) rfl rfl _) _).trans
      (applyToVector_apply (d := 3) hnamed hbound (by rw [hsize]; omega) (by omega))
  exact ⟨⟨_, hserve (by decide +kernel) (by decide +kernel) (by decide), by decide +kernel, rfl⟩,
    _, hserve (by decide +kernel) (by decide +kernel) (by decide), by decide +kernel, rfl⟩

end Machine

end Intcode
