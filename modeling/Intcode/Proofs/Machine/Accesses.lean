import Intcode.Proofs.Machine.Confined
import Intcode.Proofs.Streams.Supply

/-!
# Memory accesses

The parts of instructions and calls that work on the memory look at it or change it at
addresses that the memory itself says. This file lists these addresses, part by part, and
shows that a part fails exactly when one of its addresses is outside the memory.
-/

namespace Intcode

/-- Bytes at successive byte addresses. -/
structure Span where
  start : Int
  length : Nat
deriving DecidableEq, Repr

namespace Span

/-- The bytes of the word at an address. -/
def word (a : Int) : Span := ⟨2 * a, 2⟩

/-- The byte at a byte address. -/
def byte (b : Int) : Span := ⟨b, 1⟩

/-- The bytes are in a memory with the given number of words. -/
def Inside (size : Nat) (s : Span) : Prop := 0 ≤ s.start ∧ s.start + s.length ≤ 2 * size

instance (size : Nat) (s : Span) : Decidable (s.Inside size) := inferInstanceAs (Decidable (_ ∧ _))

/-- A word is in the memory if its address is. -/
theorem inside_word {a : Int} {size : Nat} : (word a).Inside size ↔ 0 ≤ a ∧ a < size := by
  simp only [word, Inside]
  omega

/-- A byte is in the memory if its address is. -/
theorem inside_byte {b : Int} {size : Nat} : (byte b).Inside size ↔ 0 ≤ b ∧ b < 2 * size := by
  simp only [byte, Inside]
  omega

end Span

/-- What is computed from a result. -/
theorem ok_bind {α β : Type} (a : α) (f : α → Except Failure β) : .ok a >>= f = f a := rfl

/-- Nothing is computed after a failure. -/
theorem error_bind {α β : Type} (e : Failure) (f : α → Except Failure β) :
    .error e >>= f = .error e := rfl

/-- A result of two computations one after the other has a result of the first behind it. -/
theorem exists_of_bind_eq_ok {α β : Type} {x : Except Failure α} {f : α → Except Failure β} {b : β}
    (h : x >>= f = .ok b) : ∃ a, x = .ok a ∧ f a = .ok b := by
  cases x with
  | error e => cases h
  | ok a => exact ⟨a, rfl, h⟩

/-- What is computed to a result gives that result. -/
theorem eq_ok_of_toOption {α : Type} {x : Except Failure α} {a : α} (h : x.toOption = some a) :
    x = .ok a := by
  cases x with
  | error e => cases h
  | ok b =>
    cases h
    rfl

/-- What an outcome says about accesses to a memory with the given number of words. If there is a
result, all of them were inside, if an address is wrong, one of them was not, and all other failures
are among given ones. -/
inductive Meets {α : Type} (size : Nat) (spans : List Span) (other : Failure → Prop) :
    Except Failure α → Prop
  | ok (a : α) (h : ∀ s ∈ spans, s.Inside size) : Meets size spans other (.ok a)
  | address (w : Int) (h : ∃ s ∈ spans, ¬ s.Inside size) :
      Meets size spans other (.error (.address w))
  | other {e : Failure} (h : other e) : Meets size spans other (.error e)

section Meets

variable {σ α β : Type} {size : Nat} {spans later : List Span} {other other' : Failure → Prop}

/-- Without accesses nothing can go wrong. -/
theorem meets_ok (a : α) : Meets size [] other (.ok a) := .ok a (List.forall_mem_nil _)

/-- What gives a result made no access outside the memory. -/
theorem Meets.inside {a : α} (h : Meets size spans other (.ok a)) : ∀ s ∈ spans, s.Inside size := by
  cases h with
  | ok _ hinside => exact hinside

/-- More failures may be allowed. -/
theorem Meets.mono {r : Except Failure α} (h : Meets size spans other r)
    (hother : ∀ e, other e → other' e) : Meets size spans other' r := by
  cases h with
  | ok a h => exact .ok a h
  | address w h => exact .address w h
  | other h => exact .other (hother _ h)

/-- Accesses before other accesses. -/
theorem Meets.bind {r : Except Failure α} {f : α → Except Failure β} (hr : Meets size spans other r)
    (hf : ∀ a, r = .ok a → Meets size later other (f a)) :
    Meets size (spans ++ later) other (r >>= f) := by
  cases hr with
  | ok a hall =>
    have hrest := hf a rfl
    change Meets size (spans ++ later) other (f a)
    generalize f a = r' at hrest ⊢
    cases hrest with
    | ok b hlater =>
      refine .ok b fun s hs => ?_
      rcases List.mem_append.mp hs with hs | hs
      · exact hall s hs
      · exact hlater s hs
    | address w h =>
      obtain ⟨s, hs, houtside⟩ := h
      exact .address w ⟨s, List.mem_append_right _ hs, houtside⟩
    | other h => exact .other h
  | address w h =>
    obtain ⟨s, hs, houtside⟩ := h
    exact .address w ⟨s, List.mem_append_left _ hs, houtside⟩
  | other h => exact .other h

/-- What cannot fail may follow. -/
theorem Meets.bind_ok {r : Except Failure α} {f : α → Except Failure β}
    (hr : Meets size spans other r) (hf : ∀ a, ∃ b, f a = .ok b) :
    Meets size spans other (r >>= f) := by
  rw [← List.append_nil spans]
  refine hr.bind fun a _ => ?_
  obtain ⟨b, hb⟩ := hf a
  rw [hb]
  exact meets_ok b

/-- The outcome of an action. -/
def Action.outcome (x : Action σ α) (s : σ) : Except Failure α :=
  match x s with
  | .ok a _ => .ok a
  | .error e _ => .error e

/-- An action gives its outcome. -/
theorem Action.outcome_eq_ok_iff {x : Action σ α} {s : σ} {a : α} :
    x.outcome s = .ok a ↔ ∃ s', x s = .ok a s' := by
  unfold outcome
  cases x s <;> simp

/-- An action fails with its outcome. -/
theorem Action.outcome_eq_error_iff {x : Action σ α} {s : σ} {e : Failure} :
    x.outcome s = .error e ↔ ∃ s', x s = .error e s' := by
  unfold outcome
  cases x s <;> simp

/-- The outcome of reading is what is read. -/
theorem Action.outcome_read (f : σ → Except Failure α) (s : σ) :
    (Action.read f).outcome s = f s := by
  rw [outcome, read_apply]
  cases f s <;> rfl

/-- What is done after the state has been looked at. -/
theorem Action.outcome_get_bind (f : σ → Action σ α) (s : σ) :
    (get >>= f : Action σ α).outcome s = (f s).outcome s := rfl

/-- Nothing is done after a failure. -/
theorem Action.outcome_bind_of_error {x : Action σ α} {s : σ} {e : Failure}
    (h : x.outcome s = .error e) (f : α → Action σ β) : (x >>= f).outcome s = .error e := by
  obtain ⟨s', hrun⟩ := outcome_eq_error_iff.mp h
  exact outcome_eq_error_iff.mpr ⟨s', by rw [bind_apply, hrun]⟩

/-- Accesses of an action before those of another one. -/
theorem Meets.actions {x : Action σ α} {f : α → Action σ β} {s : σ}
    (hx : Meets size spans other (x.outcome s))
    (hf : ∀ a s', x s = .ok a s' → Meets size later other ((f a).outcome s')) :
    Meets size (spans ++ later) other ((x >>= f).outcome s) := by
  cases hrun : x s with
  | ok a s' =>
    have hsplit : (x >>= f).outcome s = x.outcome s >>= fun _ => (f a).outcome s' := by
      simp only [Action.outcome, Action.bind_apply, hrun]
      rfl
    rw [hsplit]
    exact hx.bind fun _ _ => hf a s' hrun
  | error e s' =>
    have hsplit : (x >>= f).outcome s = x.outcome s >>= fun _ => (.error e : Except Failure β) := by
      simp only [Action.outcome, Action.bind_apply, hrun]
      rfl
    have hfailed : x.outcome s = .error e := by simp only [Action.outcome, hrun]
    rw [hsplit]
    exact hx.bind fun a ha => by rw [hfailed] at ha; cases ha

/-- An action that cannot fail may follow. -/
theorem Meets.actions_ok {x : Action σ α} {f : α → Action σ β} {s : σ}
    (hx : Meets size spans other (x.outcome s)) (hf : ∀ a s', ∃ b s'', f a s' = .ok b s'') :
    Meets size spans other ((x >>= f).outcome s) := by
  rw [← List.append_nil spans]
  refine hx.actions fun a s' _ => ?_
  obtain ⟨b, s'', hb⟩ := hf a s'
  rw [Action.outcome, hb]
  exact meets_ok b

/-- Accesses of reading before those of an action. -/
theorem Meets.read_bind {f : σ → Except Failure α} {g : α → Action σ β} {s : σ}
    (hf : Meets size spans other (f s))
    (hg : ∀ a, f s = .ok a → Meets size later other ((g a).outcome s)) :
    Meets size (spans ++ later) other ((Action.read f >>= g).outcome s) := by
  have hread : Meets size spans other ((Action.read f).outcome s) := by
    rw [Action.outcome_read]
    exact hf
  refine hread.actions fun a s' hrun => ?_
  rw [Action.read_apply] at hrun
  cases hresult : f s with
  | error e =>
    rw [hresult] at hrun
    cases hrun
  | ok b =>
    rw [hresult] at hrun
    cases hrun
    exact hg _ hresult

end Meets

/-- An address so near to the memory that sixty-four bits can hold its double. -/
def Near (a : Int) : Prop := -0x10000000 ≤ a ∧ a ≤ 0x10000000

/-- Cells denote near addresses. -/
theorem Cell.address_bounds (c : Cell) : 0 ≤ c.address ∧ c.address ≤ 65535 := by
  have hlt := c.isLt
  unfold address
  omega

/-- The address of the argument after that of a piece. -/
def FormatPiece.after (v : Int) : FormatPiece → Int
  | .literal _ => v
  | _ => v + 1

namespace Memory

/-- The word at an address inside the memory. -/
def fetch (m : Memory) (a : Int) : Cell := m.cellAt a.toNat

/-- The byte at a byte address inside the memory. -/
def fetchByte (m : Memory) (b : Int) : UInt8 := m.byteAt b.toNat

/-- The accesses to a packed string: its length and its characters. -/
def stringSpans (m : Memory) (a : Int) : List Span :=
  [.byte (2 * a), ⟨2 * a + 1, (m.fetchByte (2 * a)).toNat⟩]

/-- The accesses that packing a string makes. -/
def packSpans (m : Memory) (v s : Int) : List Span :=
  let n := (m.fetch v).low.toNat
  [.word v, .word (s + (n / 2 : Nat))] ++
    (List.range (n + 1)).flatMap fun k => [.word (v + k), .byte (2 * s + k)]

/-- The accesses that unpacking a string makes. -/
def unpackSpans (m : Memory) (s v : Int) : List Span :=
  let n := (m.fetchByte (2 * s)).toNat
  [.byte (2 * s)] ++ (List.range (n + 1)).flatMap fun k => [.byte (2 * s + k), .word (v + k)]

/-- The accesses to the case with a number of a jump table whose cases are at an address. -/
def caseSpans (a : Int) (k : Nat) : List Span := [.word (a + 2 * k), .word (a + 2 * k + 1)]

/-- The accesses to a jump table. -/
def tableSpans (m : Memory) (a : Int) : List Span :=
  [.word a, .word (a + 1)] ++ (List.range (m.fetch a).toInt.toNat).flatMap (caseSpans (a + 2))

/-- The accesses to an instruction and its operand. -/
def instructionSpans (m : Memory) (pc : Int) (sp : Cell) : List Span :=
  let w := m.fetch pc
  let d := if w.isLong then m.fetch (pc + 1) else w >>> 8
  let d := if w.isFramed then d.plus sp else d
  [.word pc] ++ ((if w.isLong then [.word (pc + 1)] else []) ++
    if w.isIndirect then [.word d.address] else [])

/-- The accesses to the argument of a piece of a format. -/
def pieceSpans (m : Memory) (v : Int) : FormatPiece → List Span
  | .literal _ => []
  | .string => .word v :: m.stringSpans (m.fetch v).address
  | .character | .number _ _ => [.word v]

/-- The accesses to the arguments of the pieces of a format. -/
def formatSpans (m : Memory) : List FormatPiece → Int → List Span
  | [], _ => []
  | piece :: pieces, v => m.pieceSpans v piece ++ m.formatSpans pieces (piece.after v)

/-- The packed string at an address, empty if it is not in the memory. -/
def text (m : Memory) (a : Int) : Text := (m.string a).toOption.getD []

section Accesses

variable {size : Nat} {other : Failure → Prop} {m : Memory}

/-- A near address is inside or outside. -/
theorem slot_near {a : Int} (ha : Near a) :
    m.slot a = if 0 ≤ a ∧ a < m.size then .ok a.toNat else .error (.address a) := by
  obtain ⟨hlow, hhigh⟩ := ha
  exact m.slot_of_near (by omega) (by omega)

/-- Looking at a word. -/
theorem meets_word {a : Int} (ha : Near a) : Meets m.size [.word a] other (m.word a) := by
  rw [word, slot_near ha]
  by_cases hinside : 0 ≤ a ∧ a < m.size
  · rw [if_pos hinside]
    exact .ok _ (by simpa using Span.inside_word.mpr hinside)
  · rw [if_neg hinside]
    exact .address a ⟨_, List.mem_singleton_self _, fun h => hinside (Span.inside_word.mp h)⟩

/-- The word that was looked at. -/
theorem word_eq_ok {a : Int} (ha : Near a) {v : Cell} (hword : m.word a = .ok v) :
    v = m.fetch a := by
  rw [word, slot_near ha] at hword
  by_cases hinside : 0 ≤ a ∧ a < m.size
  · rw [if_pos hinside] at hword
    cases hword
    rfl
  · rw [if_neg hinside] at hword
    cases hword

/-- A near byte address is inside or outside. -/
theorem byteSlot_near {b : Int} (hb : Near b) :
    m.byteSlot b =
      if 0 ≤ b ∧ b < 2 * m.size then .ok b.toNat else .error (.address (b.tdiv 2)) := by
  obtain ⟨hlow, hhigh⟩ := hb
  unfold byteSlot
  split
  · rfl
  · rw [if_neg (by omega)]

/-- Looking at a byte. -/
theorem meets_byte {b : Int} (hb : Near b) : Meets m.size [.byte b] other (m.byte b) := by
  rw [byte, byteSlot_near hb]
  by_cases hinside : 0 ≤ b ∧ b < 2 * m.size
  · rw [if_pos hinside]
    exact .ok _ (by simpa using Span.inside_byte.mpr hinside)
  · rw [if_neg hinside]
    exact .address _ ⟨_, List.mem_singleton_self _, fun h => hinside (Span.inside_byte.mp h)⟩

/-- The byte that was looked at. -/
theorem byte_eq_ok {b : Int} (hb : Near b) {c : UInt8} (hbyte : m.byte b = .ok c) :
    c = m.fetchByte b ∧ 0 ≤ b := by
  rw [byte, byteSlot_near hb] at hbyte
  by_cases hinside : 0 ≤ b ∧ b < 2 * m.size
  · rw [if_pos hinside] at hbyte
    cases hbyte
    exact ⟨rfl, hinside.1⟩
  · rw [if_neg hinside] at hbyte
    cases hbyte

/-- Looking at a packed string. -/
theorem meets_string (a : Cell) :
    Meets m.size (m.stringSpans a.address) other (m.string a.address) := by
  have ha := a.address_bounds
  have hwrap : wrap (2 * a.address) = 2 * a.address := wrap_of_lt (by omega) (by omega)
  have hnear : Near (2 * a.address) := ⟨by omega, by omega⟩
  simp only [string, hwrap]
  refine (meets_byte hnear).bind fun c hc => ?_
  obtain ⟨rfl, hnonneg⟩ := byte_eq_ok hnear hc
  by_cases hfits : 2 * a.address + 1 + (m.fetchByte (2 * a.address)).toNat ≤ 2 * m.size
  · rw [if_pos hfits]
    refine .ok _ fun s hs => ?_
    obtain rfl := List.mem_singleton.mp hs
    simp only [Span.Inside]
    omega
  · rw [if_neg hfits]
    refine .address _ ⟨_, List.mem_singleton_self _, fun hinside => hfits ?_⟩
    simp only [Span.Inside] at hinside
    omega

/-- A packed string has at most 255 characters. -/
theorem length_text_le (m : Memory) (a : Int) : (m.text a).length ≤ 255 := by
  unfold text
  cases hstring : m.string a with
  | error e => exact Nat.zero_le _
  | ok t =>
    obtain ⟨c, -, hc⟩ := exists_of_bind_eq_ok hstring
    dsimp only at hc
    split at hc
    · cases hc
      have hlt := c.toNat_lt
      simp only [Except.toOption, Option.getD_some, List.length_map, List.length_range]
      omega
    · cases hc

/-- Looking at an instruction and its operand. -/
theorem meets_decode {pc : Int} (hpc : 0 ≤ pc ∧ pc ≤ 65535) (sp : Cell) :
    Meets m.size (m.instructionSpans pc sp) other (Instruction.decode m pc sp) := by
  have hnear : Near pc := ⟨by omega, by omega⟩
  have hnext : Near (pc + 1) := ⟨by omega, by omega⟩
  unfold Instruction.decode instructionSpans
  refine (meets_word hnear).bind fun w hw => ?_
  obtain rfl := word_eq_ok hnear hw
  refine Meets.bind (r := Instruction.rawOperand m pc (m.fetch pc)) ?_ fun r hr => ?_
  · unfold Instruction.rawOperand
    split
    · exact (meets_word hnext).bind_ok fun _ => ⟨_, rfl⟩
    · exact meets_ok _
  · -- The operand before it is dereferenced.
    have hraw : r.1 = if (m.fetch pc).isLong then m.fetch (pc + 1) else m.fetch pc >>> 8 := by
      unfold Instruction.rawOperand at hr
      by_cases hlong : (m.fetch pc).isLong = true
      · rw [if_pos hlong] at hr ⊢
        obtain ⟨d, hword, hd⟩ := exists_of_bind_eq_ok hr
        cases hd
        exact word_eq_ok hnext hword
      · rw [if_neg hlong] at hr ⊢
        cases hr
        rfl
    obtain ⟨d, next⟩ := r
    simp only at hraw
    subst hraw
    dsimp only
    generalize (if (m.fetch pc).isFramed = true then _ else _ : Cell) = d
    have hd := d.address_bounds
    split
    · exact (meets_word ⟨by omega, by omega⟩).bind_ok fun _ => ⟨_, rfl⟩
    · exact meets_ok _

/-- Looking at the cases of a jump table. -/
theorem meets_readCases {a : Int} {n : Nat} (ha : 0 ≤ a ∧ a + 2 * n ≤ 0x1000000) :
    Meets m.size ((List.range n).flatMap (caseSpans a)) other (Switch.readCases m a n) := by
  induction n generalizing a with
  | zero => exact meets_ok _
  | succ n ih =>
    have hfirst : Near a := ⟨by omega, by omega⟩
    have hsecond : Near (a + 1) := ⟨by omega, by omega⟩
    have hrest := @ih (a + 2) ⟨by omega, by omega⟩
    -- The other cases are those of the table without its first case.
    have hshift : (fun k => caseSpans a (k + 1)) = caseSpans (a + 2) := by
      funext k
      have hk : a + 2 * ((k + 1 : Nat) : Int) = a + 2 + 2 * k := by omega
      simp only [caseSpans, hk]
    have hzero : caseSpans a 0 = [.word a, .word (a + 1)] := by
      simp only [caseSpans, Int.natCast_zero, Int.mul_zero, Int.add_zero]
    rw [List.range_succ_eq_map, List.flatMap_cons, List.flatMap_map, hshift, hzero]
    exact (meets_word hfirst).bind fun _ _ => (meets_word hsecond).bind fun _ _ =>
      hrest.bind_ok fun _ => ⟨_, rfl⟩

/-- Looking at a jump table. -/
theorem meets_switch {a : Int} (ha : 0 ≤ a ∧ a ≤ 0x20000) :
    Meets m.size (m.tableSpans a) other (Switch.ofMemory m a) := by
  have hfirst : Near a := ⟨by omega, by omega⟩
  have hsecond : Near (a + 1) := ⟨by omega, by omega⟩
  have hcount := (m.fetch a).toInt_lt
  refine (meets_word hfirst).bind fun w hw => (meets_word hsecond).bind fun _ _ => ?_
  obtain rfl := word_eq_ok hfirst hw
  have hcases : 0 ≤ a + 2 ∧ a + 2 + 2 * ((m.fetch a).toInt.toNat : Int) ≤ 0x1000000 := by omega
  exact (meets_readCases hcases).bind_ok fun _ => ⟨_, rfl⟩

/-- Storing a word. -/
theorem meets_setWord (hsize : m.size = size) {a : Int} (ha : Near a) (v : Cell) :
    Meets size [.word a] other ((setWord a v).outcome m) := by
  rw [Action.outcome, setWord, slot_near ha, hsize]
  by_cases hinside : 0 ≤ a ∧ a < size
  · rw [if_pos hinside]
    exact .ok _ (by simpa using Span.inside_word.mpr hinside)
  · rw [if_neg hinside]
    exact .address a ⟨_, List.mem_singleton_self _, fun h => hinside (Span.inside_word.mp h)⟩

/-- Storing a byte. -/
theorem meets_setByte (hsize : m.size = size) {b : Int} (hb : Near b) (v : UInt8) :
    Meets size [.byte b] other ((setByte b v).outcome m) := by
  rw [Action.outcome, setByte, byteSlot_near hb, hsize]
  by_cases hinside : 0 ≤ b ∧ b < 2 * size
  · rw [if_pos hinside]
    exact .ok _ (by simpa using Span.inside_byte.mpr hinside)
  · rw [if_neg hinside]
    exact .address _ ⟨_, List.mem_singleton_self _, fun h => hinside (Span.inside_byte.mp h)⟩

/-- An action that succeeds leads to a related state. -/
theorem size_of_ok {α : Type} {x : Action Memory α} (hx : Action.Stays SameSize x) {a : α}
    {m' : Memory} (hrun : x m = .ok a m') (hsize : m.size = size) : m'.size = size := by
  have hsame : SameSize m (x.final m) := hx m
  rw [Action.final, hrun] at hsame
  exact Eq.trans hsame hsize

/-- Repeated accesses. -/
theorem meets_forM {f : Nat → Action Memory PUnit} {spans : Nat → List Span} {ks : List Nat}
    (hstays : ∀ k, Action.Stays SameSize (f k))
    (hf : ∀ k ∈ ks, ∀ m : Memory, m.size = size → Meets size (spans k) other ((f k).outcome m))
    (hsize : m.size = size) : Meets size (ks.flatMap spans) other ((ks.forM f).outcome m) := by
  induction ks generalizing m with
  | nil => exact meets_ok _
  | cons k ks ih =>
    rw [List.flatMap_cons]
    refine (hf k List.mem_cons_self m hsize).actions fun _ m' hrun => ?_
    exact ih (fun j hj => hf j (List.mem_cons_of_mem k hj)) (size_of_ok (hstays k) hrun hsize)

/-- Looking at a word before something else is done. -/
theorem meets_word_bind {σ α : Type} {s : σ} {read : σ → Except Failure Cell} {a : Int}
    (ha : Near a) (hread : read s = m.word a) {spans : List Span} {f : Cell → Action σ α}
    (hf : Meets m.size spans other ((f (m.fetch a)).outcome s)) :
    Meets m.size (.word a :: spans) other ((Action.read read >>= f).outcome s) := by
  have hword : Meets m.size [.word a] other (read s) := by
    rw [hread]
    exact meets_word ha
  refine hword.read_bind fun v hv => ?_
  rw [word_eq_ok ha (hread.symm.trans hv)]
  exact hf

/-- Looking at a byte before something else is done. -/
theorem meets_byte_bind {σ α : Type} {s : σ} {read : σ → Except Failure UInt8} {b : Int}
    (hb : Near b) (hread : read s = m.byte b) {spans : List Span} {f : UInt8 → Action σ α}
    (hf : Meets m.size spans other ((f (m.fetchByte b)).outcome s)) :
    Meets m.size (.byte b :: spans) other ((Action.read read >>= f).outcome s) := by
  have hbyte : Meets m.size [.byte b] other (read s) := by
    rw [hread]
    exact meets_byte hb
  refine hbyte.read_bind fun c hc => ?_
  rw [(byte_eq_ok hb (hread.symm.trans hc)).1]
  exact hf

/-- Packing a string. -/
theorem meets_pack (v s : Cell) :
    Meets m.size (m.packSpans v.address s.address) other
      ((pack v.address s.address).outcome m) := by
  have hv := v.address_bounds
  have hs := s.address_bounds
  have hn := (m.fetch v.address).low.toNat_lt
  have hfirst : Near v.address := ⟨by omega, by omega⟩
  refine meets_word_bind hfirst (by rfl) ?_
  dsimp only
  generalize (m.fetch v.address).low.toNat = n at hn ⊢
  have hlast : wrap (s.address + (n / 2 : Nat)) = s.address + (n / 2 : Nat) :=
    wrap_of_lt (by omega) (by omega)
  rw [hlast]
  refine (meets_setWord rfl ⟨by omega, by omega⟩ 0).actions fun _ m' hrun => ?_
  refine Meets.actions_ok ?_ fun _ m'' => ⟨_, _, rfl⟩
  refine meets_forM (fun k => ?_) (fun k hk m'' hsize => ?_)
    (size_of_ok (sameSize_setWord _ _) hrun rfl)
  · exact (Action.stays_read _).bind fun _ => sameSize_setByte _ _
  · have hlt := List.mem_range.mp hk
    have hword : wrap (v.address + k) = v.address + k := wrap_of_lt (by omega) (by omega)
    have hbyte : wrap (2 * s.address + k) = 2 * s.address + k := wrap_of_lt (by omega) (by omega)
    rw [hword, hbyte, ← hsize]
    exact meets_word_bind ⟨by omega, by omega⟩ (by rfl) (meets_setByte rfl ⟨by omega, by omega⟩ _)

/-- Unpacking a string. -/
theorem meets_unpack (s v : Cell) :
    Meets m.size (m.unpackSpans s.address v.address) other
      ((unpack s.address v.address).outcome m) := by
  have hv := v.address_bounds
  have hs := s.address_bounds
  have hn := (m.fetchByte (2 * s.address)).toNat_lt
  have hstart : wrap (2 * s.address) = 2 * s.address := wrap_of_lt (by omega) (by omega)
  have hfirst : Near (2 * s.address) := ⟨by omega, by omega⟩
  unfold unpack
  rw [hstart]
  refine meets_byte_bind hfirst (by rfl) ?_
  generalize (m.fetchByte (2 * s.address)).toNat = n at hn ⊢
  refine meets_forM (fun k => ?_) (fun k hk m' hsize => ?_) rfl
  · exact (Action.stays_read _).bind fun _ => sameSize_setWord _ _
  · have hlt := List.mem_range.mp hk
    have hword : wrap (v.address + k) = v.address + k := wrap_of_lt (by omega) (by omega)
    have hbyte : wrap (2 * s.address + k) = 2 * s.address + k := wrap_of_lt (by omega) (by omega)
    rw [hword, hbyte, ← hsize]
    exact meets_byte_bind ⟨by omega, by omega⟩ (by rfl) (meets_setWord rfl ⟨by omega, by omega⟩ _)

end Accesses

end Memory

end Intcode
