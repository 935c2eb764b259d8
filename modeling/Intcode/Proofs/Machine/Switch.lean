import Intcode.Proofs.Machine.Outcomes
import Intcode.Proofs.Stores

/-!
# Jump tables are scanned

The machine reads a jump table as a whole before it looks for a case, and computes
what it leaves in the second accumulator from the number of the case. Programs are
written for less: a scan case by case, with a counter that starts as the number of
cases and is decremented after each comparison with zero, until a case matches or the
counter was zero.

Main statement: a switch has the same effect as that scan if the table lies in the
memory, and else it fails and changes nothing, even if a case matches before the end
of the memory. The addresses at the lowest end of the host's integers reach the words
of the memory, too, so the tables there are scanned as well.
-/

namespace Intcode

/-- A counter that is not zero can be decremented. -/
theorem Cell.toNat_sub_one {c : Cell} (hc : c ≠ 0) : (c - 1).toNat = c.toNat - 1 := by
  have hlt := c.isLt
  have hpos : c.toNat ≠ 0 := fun hzero => hc (BitVec.eq_of_toNat_eq hzero)
  rw [BitVec.toNat_sub]
  change (65536 - 1 + c.toNat) % 65536 = c.toNat - 1
  omega

namespace Switch

/-- Scans cases from an address on. The counter is compared with zero and then decremented, before
each case and once more after the last. What comes out is the address to go on at and the
counter. -/
def scan (m : Memory) (v fallback counter : Cell) (a : Int) : Except Failure (Cell × Cell) :=
  if hcounter : counter = 0 then .ok (fallback, counter - 1)
  else do
    let value ← m.word a
    if value = v then return (← m.word (a + 1), counter - 1)
    else scan m v fallback (counter - 1) (a + 2)
termination_by counter.toNat
decreasing_by
  have hpos : counter.toNat ≠ 0 := fun hzero => hcounter (BitVec.eq_of_toNat_eq hzero)
  rw [Cell.toNat_sub_one hcounter]
  omega

/-- Scans the table at an address. With a negative number of cases there is nothing to scan. -/
def scanTable (m : Memory) (v : Cell) (a : Int) : Except Failure (Cell × Cell) := do
  let count ← m.word a
  let fallback ← m.word (a + 1)
  if count.toInt < 0 then return (fallback, -1)
  else scan m v fallback count (a + 2)

/-- The number of cases of the table at an address. -/
def caseCount (m : Memory) (a : Int) : Nat := (m.fetch a).toInt.toNat

/-- The words of the table at an address are all in the memory. -/
def Inside (m : Memory) (a : Int) : Prop :=
  ∀ k : Nat, k < 2 + 2 * caseCount m a → 0 ≤ a + k ∧ a + k < m.size

instance (m : Memory) (a : Int) : Decidable (Inside m a) :=
  inferInstanceAs (Decidable (∀ k : Nat, k < 2 + 2 * caseCount m a → 0 ≤ a + k ∧ a + k < m.size))

/-- An address of the host reaches the table at an address of the memory: it is this address, or it
lies as far above the lowest integer of the host as this one lies above zero. -/
def Reached (m : Memory) (pc a : Int) : Prop :=
  (a = pc ∨ a = pc + 0x8000000000000000) ∧ Inside m a

/-- The value of a case of the table at an address. -/
def caseValue (m : Memory) (a : Int) (k : Nat) : Cell := m.fetch (a + 2 + 2 * k)

/-- The address to go on at if a case of the table at an address matches. -/
def caseTarget (m : Memory) (a : Int) (k : Nat) : Cell := m.fetch (a + 3 + 2 * k)

/-- What a value chooses in the table at an address: where to go on, and the number of cases behind
the chosen one. -/
inductive Chosen (m : Memory) (v : Cell) (a : Int) : Cell → Cell → Prop
  /-- The first case with the value. -/
  | first (k : Nat) (hk : k < caseCount m a) (hvalue : caseValue m a k = v)
      (hbefore : ∀ j < k, caseValue m a j ≠ v) :
      Chosen m v a (caseTarget m a k) (Cell.ofNat (caseCount m a - k - 1))
  /-- No case has the value. -/
  | fallback (hnone : ∀ k < caseCount m a, caseValue m a k ≠ v) :
      Chosen m v a (m.fetch (a + 1)) (-1)

section Scan

variable {m : Memory} {a : Int} {v fallback : Cell} {n : Nat} {cases : List (Cell × Cell)}

/-- A counter of so many cases. -/
theorem ofNat_succ_ne_zero (hn : n + 1 < 65536) : Cell.ofNat (n + 1) ≠ 0 := by
  intro hzero
  have hnat := congrArg BitVec.toNat hzero
  rw [BitVec.toNat_ofNat] at hnat
  change (n + 1) % 65536 = 0 at hnat
  omega

/-- A decremented counter is one of one case less. -/
theorem ofNat_succ_sub_one (n : Nat) : Cell.ofNat (n + 1) - 1 = Cell.ofNat n := by
  rw [Cell.ofNat, BitVec.ofNat_add]
  exact BitVec.add_sub_cancel _ _

/-- Without cases the scan ends with the counter below zero. -/
theorem scan_zero : scan m v fallback (Cell.ofNat 0) a = .ok (fallback, -1) := by
  have hzero : Cell.ofNat 0 = 0 := rfl
  rw [scan, dif_pos hzero]
  rfl

/-- The scan looks at one case after the other. -/
theorem scan_succ (hn : n + 1 < 65536) :
    scan m v fallback (Cell.ofNat (n + 1)) a =
      m.word a >>= fun value =>
        if value = v then m.word (a + 1) >>= fun target => pure (target, Cell.ofNat n)
        else scan m v fallback (Cell.ofNat n) (a + 2) := by
  rw [scan, dif_neg (ofNat_succ_ne_zero hn), ofNat_succ_sub_one]

/-- As many cases are read as are asked for. -/
theorem length_of_readCases (h : readCases m a n = .ok cases) : cases.length = n := by
  induction n generalizing a cases with
  | zero =>
    cases h
    rfl
  | succ n ih =>
    obtain ⟨value, -, h⟩ := exists_of_bind_eq_ok h
    obtain ⟨target, -, h⟩ := exists_of_bind_eq_ok h
    obtain ⟨rest, hrest, h⟩ := exists_of_bind_eq_ok h
    cases h
    rw [List.length_cons, ih hrest]

/-- A case that matches is found first. -/
theorem lookup_cons_of_eq (target : Cell) :
    lookup ⟨fallback, (v, target) :: cases⟩ v = (target, some 0) := by
  simp only [lookup, List.findIdx?_cons, decide_true, if_true]
  rfl

/-- A case that does not match is passed over. -/
theorem lookup_cons_of_ne {value : Cell} (hne : value ≠ v) (target : Cell) :
    lookup ⟨fallback, (value, target) :: cases⟩ v =
      ((lookup ⟨fallback, cases⟩ v).1, (lookup ⟨fallback, cases⟩ v).2.map (· + 1)) := by
  simp only [lookup, List.findIdx?_cons, decide_eq_false hne, Bool.false_eq_true, if_false]
  cases cases.findIdx? fun c => decide (c.1 = v) with
  | none => rfl
  | some k => simp only [Option.map_some, List.getElem?_cons_succ]

/-- One case more in front leaves the same number of cases behind a match. -/
theorem remaining_cons (c : Cell × Cell) (k? : Option Nat) :
    remaining ⟨fallback, c :: cases⟩ (k?.map (· + 1)) = remaining ⟨fallback, cases⟩ k? := by
  cases k? with
  | none => rfl
  | some k =>
    simp only [Option.map_some, remaining, List.length_cons]
    congr 1
    omega

/-- The scan of cases that can all be read ends with the case that is looked up, and with the number
of the cases behind it. -/
theorem scan_of_readCases (h : readCases m a n = .ok cases) (hn : n < 65536) :
    scan m v fallback (Cell.ofNat n) a =
      .ok ((lookup ⟨fallback, cases⟩ v).1,
        remaining ⟨fallback, cases⟩ (lookup ⟨fallback, cases⟩ v).2) := by
  induction n generalizing a cases with
  | zero =>
    cases h
    rw [scan_zero]
    rfl
  | succ n ih =>
    obtain ⟨value, hvalue, h⟩ := exists_of_bind_eq_ok h
    obtain ⟨target, htarget, h⟩ := exists_of_bind_eq_ok h
    obtain ⟨rest, hrest, h⟩ := exists_of_bind_eq_ok h
    cases h
    rw [scan_succ hn, hvalue]
    change (if value = v then _ else _) = _
    by_cases hmatch : value = v
    · subst hmatch
      rw [if_pos rfl, htarget, lookup_cons_of_eq]
      simp only [remaining, List.length_cons, length_of_readCases hrest]
      rfl
    · rw [if_neg hmatch, ih hrest (by omega), lookup_cons_of_ne hmatch, remaining_cons]

end Scan

section Table

variable {m : Memory} {a : Int} {n : Nat}

/-- The table lies between two addresses of the memory. -/
theorem inside_iff : Inside m a ↔ 0 ≤ a ∧ a + 2 + 2 * caseCount m a ≤ m.size := by
  unfold Inside
  constructor
  · intro hall
    have hfirst := hall 0 (by omega)
    have hlast := hall (1 + 2 * caseCount m a) (by omega)
    omega
  · intro hbounds k hk
    omega

/-- A table has no more cases than a cell can count. -/
theorem caseCount_lt (m : Memory) (a : Int) : caseCount m a < 32768 := by
  have hlt := (m.fetch a).toInt_lt
  unfold caseCount
  omega

/-- Cases that lie in the memory are read as they are. -/
theorem readCases_of_inside (hlow : 0 ≤ a) (hhigh : a + 2 * n ≤ m.size) :
    readCases m a n =
      .ok ((List.range n).map fun k : Nat => (m.fetch (a + 2 * k), m.fetch (a + 1 + 2 * k))) := by
  induction n generalizing a with
  | zero => rfl
  | succ n ih =>
    have hvalue : m.word a = .ok (m.fetch a) := Memory.word_of_lt hlow (by omega)
    have htarget : m.word (a + 1) = .ok (m.fetch (a + 1)) :=
      Memory.word_of_lt (by omega) (by omega)
    have hrest := @ih (a + 2) (by omega) (by omega)
    have hshift (b : Int) (k : Nat) : b + 2 + 2 * k = b + 2 * ((k + 1 : Nat) : Int) := by omega
    have hswap (k : Nat) : a + 2 + 1 + 2 * (k : Int) = a + 1 + 2 + 2 * k := by omega
    rw [readCases, hvalue, htarget, hrest, List.range_succ_eq_map, List.map_cons, List.map_map]
    simp only [hswap, hshift, Int.natCast_zero, Int.mul_zero, Int.add_zero]
    rfl

/-- Cases that do not all lie in the memory are not read, and the failure names a word outside. -/
theorem readCases_of_outside (hlow : 0 ≤ a) (hstart : a ≤ m.size) (houtside : m.size < a + 2 * n)
    (hnear : a + 2 * n ≤ 0x3fffffffffffffff) :
    ∃ w : Int, m.size ≤ w ∧ readCases m a n = .error (.address w) := by
  induction n generalizing a with
  | zero => omega
  | succ n ih =>
    rw [readCases, m.word_of_near (by omega) (by omega),
      m.word_of_near (a := a + 1) (by omega) (by omega)]
    by_cases hvalue : a < m.size
    · rw [if_pos ⟨hlow, hvalue⟩]
      by_cases htarget : a + 1 < m.size
      · rw [if_pos ⟨by omega, htarget⟩]
        obtain ⟨w, hw, hrest⟩ := @ih (a + 2) (by omega) (by omega) (by omega) (by omega)
        exact ⟨w, hw, by rw [hrest]; rfl⟩
      · rw [if_neg (by omega)]
        exact ⟨a + 1, by omega, rfl⟩
    · rw [if_neg (by omega)]
      exact ⟨a, by omega, rfl⟩

/-- The table at an address, if it lies in the memory. -/
def tableAt (m : Memory) (a : Int) : Switch where
  fallback := m.fetch (a + 1)
  cases := (List.range (caseCount m a)).map fun k => (caseValue m a k, caseTarget m a k)

/-- The cases of a table that lies in the memory. -/
theorem readCases_tableAt (h : Inside m a) :
    readCases m (a + 2) (caseCount m a) = .ok (tableAt m a).cases := by
  obtain ⟨hlow, hhigh⟩ := inside_iff.mp h
  have hthird (k : Nat) : a + 2 + 1 + 2 * (k : Int) = a + 3 + 2 * k := by omega
  rw [readCases_of_inside (by omega) (by omega)]
  simp only [hthird]
  rfl

/-- A table that lies in the memory is read as it is. -/
theorem ofMemory_of_inside (h : Inside m a) : ofMemory m a = .ok (tableAt m a) := by
  obtain ⟨hlow, hhigh⟩ := inside_iff.mp h
  have hcount : m.word a = .ok (m.fetch a) := Memory.word_of_lt hlow (by omega)
  have hfallback : m.word (a + 1) = .ok (m.fetch (a + 1)) :=
    Memory.word_of_lt (by omega) (by omega)
  calc ofMemory m a
    _ = readCases m (a + 2) (caseCount m a) >>= fun cases => pure ⟨m.fetch (a + 1), cases⟩ := by
      rw [ofMemory, hcount, hfallback]
      rfl
    _ = .ok (tableAt m a) := by
      rw [readCases_tableAt h]
      rfl

/-- A table that does not lie in the memory is not read, and the failure names a word outside. -/
theorem ofMemory_of_near (hlow : -0x4000000000000000 ≤ a) (hhigh : a < 0x3fffffffffff0000)
    (h : ¬ Inside m a) : ∃ w, ¬ m.Inside w ∧ ofMemory m a = .error (.address w) := by
  have hcount := caseCount_lt m a
  rw [inside_iff] at h
  rw [ofMemory, m.word_of_near hlow (by omega), m.word_of_near (a := a + 1) (by omega) (by omega)]
  by_cases hfirst : 0 ≤ a ∧ a < m.size
  · rw [if_pos hfirst]
    by_cases hsecond : a + 1 < m.size
    · rw [if_pos ⟨by omega, hsecond⟩]
      obtain ⟨w, hw, hcases⟩ := readCases_of_outside (m := m) (n := caseCount m a) (a := a + 2)
        (by omega) (by omega) (by omega) (by omega)
      refine ⟨w, fun hinside => absurd hinside.2 (by omega), ?_⟩
      change (readCases m (a + 2) (caseCount m a) >>= fun cases =>
        pure (⟨m.fetch (a + 1), cases⟩ : Switch)) = _
      rw [hcases]
      rfl
    · rw [if_neg (by omega)]
      exact ⟨a + 1, fun hinside => hsecond hinside.2, rfl⟩
  · rw [if_neg hfirst]
    exact ⟨a, hfirst, rfl⟩

/-- The cases at the lowest end of the host's integers are those from zero on. -/
theorem readCases_sub_lowest (hlow : 0 ≤ a) (hhigh : a + 2 * n ≤ 0x4000000000000000) :
    readCases m (a - 0x8000000000000000) n = readCases m a n := by
  induction n generalizing a with
  | zero => rfl
  | succ n ih =>
    have hsecond : a - 0x8000000000000000 + 1 = a + 1 - 0x8000000000000000 := by omega
    have hrest : a - 0x8000000000000000 + 2 = a + 2 - 0x8000000000000000 := by omega
    rw [readCases, readCases, hsecond, hrest, m.word_sub_lowest hlow (by omega),
      m.word_sub_lowest (by omega) (by omega), ih (by omega) (by omega)]

/-- The tables at the lowest end of the host's integers are those from zero on. -/
theorem ofMemory_sub_lowest (hlow : 0 ≤ a) (hhigh : a < 0x3fffffffffff0000) :
    ofMemory m (a - 0x8000000000000000) = ofMemory m a := by
  have hsecond : a - 0x8000000000000000 + 1 = a + 1 - 0x8000000000000000 := by omega
  have hrest : a - 0x8000000000000000 + 2 = a + 2 - 0x8000000000000000 := by omega
  have hcases (count : Cell) : readCases m (a + 2 - 0x8000000000000000) count.toInt.toNat =
      readCases m (a + 2) count.toInt.toNat := by
    have hlt := count.toInt_lt
    exact readCases_sub_lowest (by omega) (by omega)
  simp only [ofMemory, hsecond, hrest, m.word_sub_lowest hlow (by omega),
    m.word_sub_lowest (a := a + 1) (by omega) (by omega), hcases]

/-- A table that an address reaches is read as it is. -/
theorem ofMemory_of_reached {pc : Int} (h : Reached m pc a) :
    ofMemory m pc = .ok (tableAt m a) := by
  obtain ⟨hreach, hinside⟩ := h
  obtain ⟨hlow, hhigh⟩ := inside_iff.mp hinside
  have hsize : m.size ≤ 0x800000000000 := m.fits
  obtain rfl | rfl := hreach
  · exact ofMemory_of_inside hinside
  · have htable := ofMemory_sub_lowest (m := m) hlow (by omega)
    rwa [Int.add_sub_cancel, ofMemory_of_inside hinside] at htable

/-- A table of which an address reaches the beginning only is not read, and the failure names a word
outside. -/
theorem ofMemory_of_cut {pc : Int} (hreach : a = pc ∨ a = pc + 0x8000000000000000) (hlow : 0 ≤ a)
    (hhigh : a < 0x3fffffffffff0000) (h : ¬ Inside m a) :
    ∃ w, ¬ m.Inside w ∧ ofMemory m pc = .error (.address w) := by
  obtain rfl | rfl := hreach
  · exact ofMemory_of_near (by omega) hhigh h
  · have htable := ofMemory_sub_lowest (m := m) hlow hhigh
    rw [Int.add_sub_cancel] at htable
    rw [htable]
    exact ofMemory_of_near (by omega) hhigh h

/-- A table that an address does not reach is not read. The failure names a word outside the memory,
but at the two addresses where the end of the first access wraps around. -/
theorem ofMemory_of_not_reached (pc : Int64) (h : ∀ a, ¬ Reached m pc.toInt a) :
    ∃ e, ofMemory m pc.toInt = .error e ∧
      (pc.toInt ≠ 0x3fffffffffffffff → pc.toInt ≠ -0x4000000000000001 →
        ∃ w, ¬ m.Inside w ∧ e = .address w) := by
  have hsize : m.size ≤ 0x800000000000 := m.fits
  by_cases hfirst : m.Inside pc.toInt ∨ m.Aliased pc.toInt
  · obtain ⟨a, hreach, hlow, hlt⟩ :
        ∃ a, (a = pc.toInt ∨ a = pc.toInt + 0x8000000000000000) ∧ 0 ≤ a ∧ a < m.size := by
      obtain ⟨hlow, hlt⟩ | ⟨hlow, hlt⟩ := hfirst
      · exact ⟨_, .inl rfl, hlow, hlt⟩
      · exact ⟨_, .inr rfl, by omega, hlt⟩
    obtain ⟨w, hw, htable⟩ := ofMemory_of_cut hreach hlow (by omega) fun hinside =>
      h a ⟨hreach, hinside⟩
    exact ⟨_, htable, fun _ _ => ⟨w, hw, rfl⟩⟩
  · obtain ⟨e, hslot, haddress⟩ := m.slot_eq_error hfirst
    refine ⟨e, ?_, haddress⟩
    rw [ofMemory, (Memory.word_of_slot_error hslot).1]
    rfl

/-- The number of cases as a counter, unless it is negative. -/
theorem ofNat_caseCount (hcount : ¬ (m.fetch a).toInt < 0) :
    Cell.ofNat (caseCount m a) = m.fetch a := by
  have hint : ((caseCount m a : Nat) : Int) = (m.fetch a).toInt := by
    unfold caseCount
    omega
  rw [Cell.ofNat, ← BitVec.ofInt_natCast, hint, BitVec.ofInt_toInt]

/-- The scan of a table that lies in the memory ends with the case that is looked up. -/
theorem scanTable_of_inside (h : Inside m a) (v : Cell) :
    scanTable m v a = .ok (((tableAt m a).lookup v).1,
      (tableAt m a).remaining ((tableAt m a).lookup v).2) := by
  obtain ⟨hlow, hhigh⟩ := inside_iff.mp h
  have hcount : m.word a = .ok (m.fetch a) := Memory.word_of_lt hlow (by omega)
  have hfallback : m.word (a + 1) = .ok (m.fetch (a + 1)) :=
    Memory.word_of_lt (by omega) (by omega)
  have hlt := caseCount_lt m a
  rw [scanTable, hcount, hfallback]
  change (if (m.fetch a).toInt < 0 then _ else _) = _
  by_cases hnegative : (m.fetch a).toInt < 0
  · -- Without cases nothing matches.
    have hnone : caseCount m a = 0 := by
      unfold caseCount
      omega
    have htable : tableAt m a = ⟨m.fetch (a + 1), []⟩ := by
      rw [tableAt, hnone]
      rfl
    rw [if_pos hnegative, htable]
    rfl
  · rw [if_neg hnegative, ← ofNat_caseCount hnegative]
    exact scan_of_readCases (readCases_tableAt h) (by omega)

/-- What is looked up is what the value chooses. -/
theorem chosen_lookup (m : Memory) (a : Int) (v : Cell) :
    Chosen m v a ((tableAt m a).lookup v).1
      ((tableAt m a).remaining ((tableAt m a).lookup v).2) := by
  have hlength : (tableAt m a).cases.length = caseCount m a := by
    rw [tableAt, List.length_map, List.length_range]
  have hcase (k : Nat) (hk : k < caseCount m a) :
      (tableAt m a).cases[k]? = some (caseValue m a k, caseTarget m a k) := by
    rw [tableAt, List.getElem?_map, List.getElem?_range hk, Option.map_some]
  rw [lookup]
  cases hfind : (tableAt m a).cases.findIdx? fun c => c.1 = v with
  | none =>
    apply Chosen.fallback
    intro k hk hvalue
    have hmember := List.mem_of_getElem? (hcase k hk)
    have hno := List.findIdx?_eq_none_iff.mp hfind _ hmember
    exact of_decide_eq_false hno hvalue
  | some k =>
    obtain ⟨hk, hmatch, hbefore⟩ := List.findIdx?_eq_some_iff_getElem.mp hfind
    rw [hlength] at hk
    simp only [hcase k hk, Option.map_some, Option.getD_some, remaining, hlength]
    apply Chosen.first k hk
    · simpa [tableAt] using hmatch
    · intro j hj hvalue
      apply hbefore j hj
      simpa [tableAt] using hvalue

end Table

end Switch

namespace Machine

variable (bindings : Bindings) (m : Machine)

/-- A switch reads its table as a whole before it changes anything. -/
theorem execute_switch :
    execute bindings .operate 23 m =
      match Switch.ofMemory m.memory m.pc with
      | .ok t => .ok () { m with
          pc := (t.lookup m.a).1.address
          b := t.remaining (t.lookup m.a).2 }
      | .error e => .error e m := by
  have hoperation : execute bindings .operate 23 = switch := rfl
  rw [hoperation, switch, Action.bind_apply, Action.read_apply]
  cases Switch.ofMemory m.memory m.pc <;> rfl

/-- A switch through a table that the program counter reaches goes on where the scan ends. -/
theorem execute_switch_of_reached {a : Int} (h : Switch.Reached m.memory m.pc a) :
    ∃ target counter, Switch.scanTable m.memory m.a a = .ok (target, counter) ∧
      Switch.Chosen m.memory m.a a target counter ∧
      execute bindings .operate 23 m = .ok () { m with pc := target.address, b := counter } := by
  refine ⟨_, _, Switch.scanTable_of_inside h.2 m.a, Switch.chosen_lookup m.memory a m.a, ?_⟩
  rw [execute_switch, Switch.ofMemory_of_reached h]

/-- The word at the program counter of a decoded instruction is in the memory, so the word after the
instruction is at an address whose double does not wrap around again. -/
theorem exists_next_of_decode {m : Machine} {i : Instruction} {pc : Int64} (hpc : m.pc = pc.toInt)
    (hdecode : m.decode = .ok i) :
    ∃ a, (a = i.next ∨ a = i.next + 0x8000000000000000) ∧ 0 ≤ a ∧ a < 0x3fffffffffff0000 := by
  obtain ⟨w, hword, -⟩ := exists_of_bind_eq_ok hdecode
  have hsize : m.memory.size ≤ 0x800000000000 := m.memory.fits
  have hnext := Instruction.next_bounds hdecode
  rw [hpc] at hword hnext
  obtain ⟨hlow, hlt⟩ | ⟨hlow, hlt⟩ :=
    (m.memory.inside_or_aliased_iff pc).mpr (Memory.exists_word_iff.mp ⟨w, hword⟩)
  · exact ⟨_, .inl rfl, by omega, by omega⟩
  · exact ⟨_, .inr rfl, by omega, by omega⟩

/-- A switch acts as the scan of its table, if the program counter reaches it, that is, if all words
of the table are in the memory: the first case with the accumulator's value wins, and the second
accumulator is left with the number of cases behind it, or with minus one if there is none. The
program counter is any integer of the host, so it may also reach a table from the lowest end of
these integers. If it reaches none, because a word of the table is not in the memory, the switch
fails and changes nothing, even if a case before that word has the value; the failure is an address
outside the memory but at two program counters, where the end of an access wraps around. These two
are not the address after any instruction, so the step that executes a switch is the scan or the
fault that names an address outside the memory. -/
theorem switch_scans_table (pc : Int64) (hpc : m.pc = pc.toInt) :
    (∀ a, Switch.Reached m.memory m.pc a →
      ∃ target counter, Switch.scanTable m.memory m.a a = .ok (target, counter) ∧
        Switch.Chosen m.memory m.a a target counter ∧
        execute bindings .operate 23 m =
          .ok () { m with pc := target.address, b := counter }) ∧
    ((∀ a, ¬ Switch.Reached m.memory m.pc a) →
      ∃ e, execute bindings .operate 23 m = .error e m ∧
        (m.pc ≠ 0x3fffffffffffffff → m.pc ≠ -0x4000000000000001 →
          ∃ w, ¬ m.memory.Inside w ∧ e = .address w)) ∧
    ∀ i, m.decode = .ok i → i.opcode.function = .operate → i.operand = 23 →
      (∀ a, Switch.Reached m.memory i.next a → m.verdict = none →
        ∃ target counter, Switch.scanTable m.memory m.a a = .ok (target, counter) ∧
          Switch.Chosen m.memory m.a a target counter ∧
          step bindings m = (.running, { m.ready i with
            pc := target.address, b := counter, instructions := m.instructions + 1 })) ∧
      ((∀ a, ¬ Switch.Reached m.memory i.next a) →
        ∃ w, ¬ m.memory.Inside w ∧
          step bindings m = (.failed ⟨[addressText w], .fatal .machineFault m.pc⟩,
            { m.ready i with pc := m.pc })) := by
  refine ⟨fun a => execute_switch_of_reached bindings m, fun hnone => ?_,
    fun i hdecode hfunction hoperand => ⟨fun a hreached hverdict => ?_, fun hnone => ?_⟩⟩
  · rw [hpc] at hnone ⊢
    obtain ⟨e, htable, haddress⟩ := Switch.ofMemory_of_not_reached pc hnone
    exact ⟨e, by rw [execute_switch, hpc, htable], haddress⟩
  · obtain ⟨target, counter, hscan, hchosen, hexecute⟩ :=
      execute_switch_of_reached bindings (m.ready i) hreached
    refine ⟨target, counter, hscan, hchosen, step_eq_running_iff.mpr
      ⟨i, { m.ready i with pc := target.address, b := counter }, hdecode, ?_, hverdict, rfl⟩⟩
    rw [hfunction, hoperand, hexecute]
  · obtain ⟨a, hreach, hlow, hhigh⟩ := exists_next_of_decode hpc hdecode
    obtain ⟨w, hw, htable⟩ := Switch.ofMemory_of_cut (m := m.memory) hreach hlow hhigh
      fun hinside => hnone a ⟨hreach, hinside⟩
    have hexecute : execute bindings .operate 23 (m.ready i) = .error (.address w) (m.ready i) := by
      rw [execute_switch]
      change (match Switch.ofMemory m.memory i.next with | .ok _ => _ | .error _ => _) = _
      rw [htable]
    refine ⟨w, hw, ?_⟩
    rw [step_of_ok hdecode, hfunction, hoperand, hexecute]
    rfl

/-- A machine about to execute a switch with three cases, two of which have the accumulator's value.
The whole table takes eight words. -/
def switching (size : Nat) : Machine where
  memory := .ofFn size fun k => [5895, 3, 100, 5, 200, 7, 300, 7, 400].getD k 0
  a := 7
  lomem := 0
  peripherals := default

/-- The first of the two cases wins, with one case behind it; but it is not reached if the last word
of the table is missing. -/
theorem switching_scans_table :
    (Switch.Inside (switching 9).memory 1 ∧
      Switch.scanTable (switching 9).memory 7 1 = .ok (300, 1) ∧
      (step {} (switching 9)).2.pc = 300 ∧ (step {} (switching 9)).2.b = 1) ∧
    (¬ Switch.Inside (switching 8).memory 1 ∧ Switch.caseValue (switching 8).memory 1 1 = 7 ∧
      ∃ w, ¬ (switching 8).memory.Inside w ∧
        (step {} (switching 8)).1 = .failed ⟨[addressText w], .fatal .machineFault 0⟩) := by
  have hinside : Switch.Inside (switching 9).memory 1 := by decide +kernel
  have houtside : ¬ Switch.Inside (switching 8).memory 1 := by decide +kernel
  have hfar : ¬ Switch.Inside (switching 8).memory (1 + 0x8000000000000000) := by decide +kernel
  have hpc : (step {} (switching 9)).2.pc = 300 := by decide +kernel
  have hb : (step {} (switching 9)).2.b = 1 := by decide +kernel
  obtain ⟨target, counter, hscan, -, hstep⟩ :=
    ((switch_scans_table {} (switching 9) 0 rfl).2.2 ⟨⟨.operate, false, false⟩, 5895, 23, 1⟩
      rfl rfl rfl).1 1 ⟨.inl rfl, hinside⟩ rfl
  obtain ⟨w, hw, hfault⟩ :=
    ((switch_scans_table {} (switching 8) 0 rfl).2.2 ⟨⟨.operate, false, false⟩, 5895, 23, 1⟩
      rfl rfl rfl).2 (by rintro a ⟨rfl | rfl, h⟩ <;> contradiction)
  refine ⟨⟨hinside, ?_, hpc, hb⟩, houtside, by decide +kernel, w, hw, by rw [hfault]; rfl⟩
  rw [hstep] at hpc hb
  have htarget : target = 300 := BitVec.eq_of_toNat_eq (Int.ofNat.inj hpc)
  have hcounter : counter = 1 := hb
  rw [← htarget, ← hcounter]
  exact hscan

/-- At a program counter one above the lowest integer of the host no word of a table is in the
memory, and the switch jumps through the table at address one. -/
theorem lowest_switch_jumps :
    ¬ Switch.Inside (switching 9).memory (-0x7fffffffffffffff) ∧
      execute {} .operate 23 { switching 9 with pc := -0x7fffffffffffffff } =
        .ok () { switching 9 with pc := 300, b := 1 } := by
  have hreached : Switch.Reached (switching 9).memory (-0x7fffffffffffffff) 1 :=
    ⟨.inr (by decide), by decide +kernel⟩
  refine ⟨fun hinside => absurd (hinside 0 (by omega)).1 (by decide), ?_⟩
  rw [execute_switch, Switch.ofMemory_of_reached hreached]
  rfl

end Machine

end Intcode
