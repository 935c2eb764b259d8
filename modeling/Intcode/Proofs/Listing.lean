import Intcode.Listing
import Intcode.Proofs.Instruction
import Intcode.Proofs.Assembly.Reading
import Intcode.Proofs.Assembly.Run
import Intcode.Proofs.Printer

/-!
# Listings can be assembled

A listing of code in the assembler's own encoding has one line for each
instruction. Without the addresses in front of its lines it is assembly text,
and assembling it stores the listed words again.

The names of extended operations stand in the listing as comments. A comment
takes the end of its line along, so it is the space before the comment that ends
such an instruction.
-/

namespace Intcode

namespace Memory

/-- The memory holds the given words from a cell on. -/
def Holds (m : Memory) (a : Nat) (ws : List Cell) : Prop :=
  a + ws.length ≤ m.size ∧ ∀ k (hk : k < ws.length), m.cellAt (a + k) = ws[k]

/-- Words in two parts lie one part after the other. -/
theorem holds_append {m : Memory} {a : Nat} {ws ws' : List Cell} :
    m.Holds a (ws ++ ws') ↔ m.Holds a ws ∧ m.Holds (a + ws.length) ws' := by
  simp only [Holds, List.length_append]
  constructor
  · rintro ⟨hle, hcells⟩
    refine ⟨⟨by omega, fun k hk => ?_⟩, ⟨by omega, fun k hk => ?_⟩⟩
    · rw [hcells k (by omega), List.getElem_append_left hk]
    · rw [Nat.add_assoc, hcells (ws.length + k) (by omega),
        List.getElem_append_right (Nat.le_add_right _ _)]
      simp only [Nat.add_sub_cancel_left]
  · rintro ⟨⟨_, hfirst⟩, hle, hsecond⟩
    refine ⟨by omega, fun k hk => ?_⟩
    by_cases hlt : k < ws.length
    · rw [hfirst k hlt, List.getElem_append_left hlt]
    · have hcell := hsecond (k - ws.length) (by omega)
      rw [show a + ws.length + (k - ws.length) = a + k by omega] at hcell
      rw [hcell, List.getElem_append_right (by omega)]

end Memory

namespace Printer

/-- A printer that has not failed, on a device that takes everything. -/
def Unlimited (p : Printer) : Prop := p.failed = none ∧ p.device.room = none

/-- A device that takes everything takes every text. -/
theorem Unlimited.print {p : Printer} (h : p.Unlimited) (t : Text) :
    (p.print t).Unlimited ∧ (p.print t).device.contents = p.device.contents ++ t := by
  obtain ⟨hfailed, hroom⟩ := h
  have hprint : p.print t =
      { device := { taken := t :: p.device.taken, room := none }, failed := none } := by
    simp only [Printer.print, write, hfailed, Device.write, Device.fitting, hroom, List.take_length,
      Nat.lt_irrefl, if_false, Option.map_none]
  rw [hprint]
  exact ⟨⟨rfl, rfl⟩, by simp [Device.contents]⟩

end Printer

/-- An instruction with its operand as it is written. -/
structure CodeLine where
  opcode : Opcode
  operand : Cell
deriving DecidableEq, Repr

namespace CodeLine

/-- The words of an instruction: one if the operand fits into a byte, else two. -/
def words (i : CodeLine) : List Cell :=
  if i.operand.toNat < 256 then [i.opcode.shortWord i.operand] else [i.opcode.longWord, i.operand]

/-- The words of instructions. -/
def encode (code : List CodeLine) : List Cell := code.flatMap words

/-- An instruction in the notation of the assembler, and the name of the operation that it
asks for. -/
def text (i : CodeLine) : Text :=
  i.opcode.letters ++ i.operand.decimal ++ Listing.remark i.opcode i.operand

/-- The directive that an instruction is. -/
def directive (i : CodeLine) : Directive := .instruction i.opcode false (.number i.operand)

/-- An address in front of a line: right justified in ten columns, and a tab. -/
def addressColumn (a : Nat) : Text :=
  (Padded.rightJustified 10 (Text.ofInt a)).toText ++ [9]

/-- The lines of a listing of instructions from an address on. -/
def lines : Nat → List CodeLine → List Text
  | _, [] => []
  | a, i :: code =>
    (addressColumn a ++ i.text ++ [Text.lineFeed]) :: lines (a + i.words.length) code

/-- An instruction has a word. -/
theorem length_words_pos (i : CodeLine) : 0 < i.words.length := by
  unfold words
  split <;> exact Nat.succ_pos _

/-- A listing has one line for each instruction. -/
theorem length_lines (a : Nat) (code : List CodeLine) : (lines a code).length = code.length := by
  induction code generalizing a with
  | nil => rfl
  | cons i code ih => rw [lines, List.length_cons, ih, List.length_cons]

/-- There are at least as many words as instructions. -/
theorem length_le_length_encode (code : List CodeLine) : code.length ≤ (encode code).length := by
  induction code with
  | nil => exact Nat.le_refl _
  | cons i code ih =>
    have hpos := i.length_words_pos
    simp only [encode, List.flatMap_cons, List.length_append, List.length_cons] at ih ⊢
    omega

end CodeLine

namespace Listing

open CodeLine

section Printing

variable {m : Memory}

/-- The word at a cell that is known to hold words. -/
theorem word_of_holds {a : Nat} {ws : List Cell} (h : m.Holds a ws) {k : Nat}
    (hk : k < ws.length) : m.word ((a + k : Nat) : Int) = .ok ws[k] := by
  obtain ⟨hle, hcells⟩ := h
  rw [Memory.word_of_lt (Int.natCast_nonneg _) (by omega), Int.toNat_natCast, hcells k hk]

/-- An instruction in the memory is listed as it is written. -/
theorem instructionText_of_holds {a : Nat} {i : CodeLine} (h : m.Holds a i.words) :
    instructionText m a = .ok (i.text, ((a + i.words.length : Nat) : Int)) := by
  unfold words at h ⊢
  by_cases hshort : i.operand.toNat < 256
  · rw [if_pos hshort] at h
    have hword := word_of_holds h (k := 0) Nat.one_pos
    obtain ⟨hopcode, hlong⟩ := i.opcode.ofWord_shortWord i.operand
    have hoperand := i.opcode.shortWord_ushiftRight hshort
    simp only [Nat.add_zero, List.getElem_cons_zero] at hword
    simp [instructionText, hword, bind, Except.bind, hlong, hopcode, Instruction.rawOperand,
      hoperand, hshort, text, pure, Except.pure]
  · rw [if_neg hshort] at h
    have hword := word_of_holds h (k := 0) Nat.two_pos
    have hnext := word_of_holds h (k := 1) Nat.one_lt_two
    obtain ⟨hopcode, hlong⟩ := i.opcode.ofWord_longWord
    have hinside : ¬ (m.size : Int) ≤ a + 1 := by
      have hle := h.1
      simp only [List.length_cons, List.length_nil] at hle
      omega
    simp only [Nat.add_zero, List.getElem_cons_zero, List.getElem_cons_succ, Int.natCast_add,
      Int.natCast_one] at hword hnext
    simp [instructionText, hword, bind, Except.bind, hlong, hopcode, Instruction.rawOperand,
      hinside, hnext, hshort, text, pure, Except.pure]

/-- The listing of instructions in the memory are their lines. -/
theorem printLines_of_holds {code : List CodeLine} {a n : Nat} {p : Printer}
    (hcode : m.Holds a (encode code)) (hp : p.Unlimited) (hn : code.length ≤ n) :
    ∃ p', printLines m ((a + (encode code).length : Nat) : Int) n a p = .ok () p' ∧
      p'.Unlimited ∧ p'.device.contents = p.device.contents ++ (lines a code).flatten := by
  induction code generalizing a n p with
  | nil =>
    refine ⟨p, ?_, hp, by simp [lines]⟩
    cases n with
    | zero => rfl
    | succ n => simp [printLines, encode]
  | cons i code ih =>
    have hsplit : encode (i :: code) = i.words ++ encode code := rfl
    rw [hsplit] at hcode ⊢
    obtain ⟨hfirst, hrest⟩ := Memory.holds_append.mp hcode
    obtain ⟨n, rfl⟩ : ∃ k, n = k + 1 := ⟨n - 1, by rw [List.length_cons] at hn; omega⟩
    have hbefore : ¬ ((a + (i.words ++ encode code).length : Nat) : Int) ≤ a := by
      have hpos := i.length_words_pos
      rw [List.length_append]
      omega
    obtain ⟨hp₁, hcontents₁⟩ := hp.print (Padded.rightJustified 10 (Text.ofInt a)).toText
    obtain ⟨hp₂, hcontents₂⟩ := hp₁.print [9]
    obtain ⟨hp₃, hcontents₃⟩ := hp₂.print i.text
    obtain ⟨hp₄, hcontents₄⟩ := hp₃.print [Text.lineFeed]
    have hstop : ((a + (i.words ++ encode code).length : Nat) : Int) =
        ((a + i.words.length + (encode code).length : Nat) : Int) := by
      rw [List.length_append, Nat.add_assoc]
    obtain ⟨p', hrun, hp', hcontents⟩ :=
      ih hrest hp₄ (Nat.le_of_succ_le_succ (by simpa only [List.length_cons] using hn))
    have hsize : m.size ≤ 0x800000000000 := m.fits
    have haddress : Printer.printInt a 10 p =
        .ok () (p.print (Padded.rightJustified 10 (Text.ofInt a)).toText) := by
      have hinside := hfirst.1
      exact Printer.printInt_of_le (by omega) (by omega) (by decide) (by decide) p
    refine ⟨p', ?_, hp', ?_⟩
    · rw [printLines, if_neg hbefore, hstop]
      simp only [Action.bind_apply, Action.modify_apply, Action.get_apply, haddress,
        printInstruction, Action.read, instructionText_of_holds hfirst, Action.pure_apply, hp₄.1,
        Option.isSome_none, Bool.false_eq_true, if_false]
      exact hrun
    · rw [hcontents, hcontents₄, hcontents₃, hcontents₂, hcontents₁]
      simp [lines, addressColumn]

end Printing

section Text

/-- What is left of the lines of a text after their first tabs. The flag says whether the tab
of the current line is still to come. -/
def afterTabs : Bool → Text → Text
  | _, [] => []
  | true, c :: t => afterTabs (c ≠ 9) t
  | false, c :: t => c :: afterTabs (c = Text.lineFeed) t

/-- A listing without the addresses in front of its lines. -/
def withoutAddresses (t : Text) : Text := afterTabs true t

/-- The first tab ends the part of a line that is dropped. -/
theorem afterTabs_tab {u : Text} (hu : 9 ∉ u) (t : Text) :
    afterTabs true (u ++ 9 :: t) = afterTabs false t := by
  induction u with
  | nil => simp [afterTabs]
  | cons c u ih =>
    rw [List.mem_cons, not_or] at hu
    simp [afterTabs, Ne.symm hu.1, ih hu.2]

/-- The rest of a line is kept up to its end. -/
theorem afterTabs_line {u : Text} (hu : Text.lineFeed ∉ u) (t : Text) :
    afterTabs false (u ++ Text.lineFeed :: t) = u ++ Text.lineFeed :: afterTabs true t := by
  induction u with
  | nil => simp [afterTabs]
  | cons c u ih =>
    rw [List.mem_cons, not_or] at hu
    simp [afterTabs, Ne.symm hu.1, ih hu.2]

/-- There is no tab in an address. -/
theorem tab_not_mem_address (a : Nat) :
    9 ∉ (Padded.rightJustified 10 (Text.ofInt a)).toText := by
  rw [Padded.toText, List.mem_append, List.mem_replicate, not_or]
  refine ⟨fun hspace => ?_, fun hdigit => ?_⟩
  · have hfill : (9 : UInt8) = Text.space := hspace.2
    exact absurd hfill (by decide)
  · exact absurd ((Text.digitsValue_ofNat a).1 9 hdigit) (by decide)

/-- The remark on an instruction is empty, or it is a comment after a space. -/
theorem remark_eq (o : Opcode) (v : Cell) :
    remark o v = [] ∨ ∃ t, remark o v = Text.space :: Text.slash :: t ∧
      ∀ c ∈ t, c ≠ Text.lineFeed ∧ c ≠ Text.carriageReturn := by
  unfold remark
  split
  · refine .inr ⟨Text.space :: Operation.nameOf v, rfl, ?_⟩
    have hname (op : Operation) : (op.name.all fun c =>
        c ≠ Text.lineFeed ∧ c ≠ Text.carriageReturn) = true := by
      cases op <;> decide
    refine List.forall_mem_cons.mpr ⟨by decide, fun c hc => ?_⟩
    unfold Operation.nameOf at hc
    cases hop : Operation.ofCell? v with
    | none => simp [hop] at hc
    | some op =>
      rw [hop] at hc
      exact of_decide_eq_true (List.all_eq_true.mp (hname op) c hc)
  · exact .inl rfl

end Text

end Listing

namespace CodeLine

open Listing

/-- An instruction without a remark is the text of its directive. -/
theorem text_eq (i : CodeLine) :
    i.text = i.directive.render ++ remark i.opcode i.operand := by
  simp [text, directive, Directive.render, Operand.render]

/-- An instruction is spelled as its directive is written. -/
theorem written_directive (i : CodeLine) : i.directive.Written i.directive.render :=
  Directive.written_render trivial (by simp [directive, Directive.definition?])

/-- The text of an instruction stays on its line. -/
theorem text_inLine (i : CodeLine) {c : UInt8} (hc : c ∈ i.text) :
    c ≠ Text.lineFeed ∧ c ≠ Text.carriageReturn := by
  obtain ⟨⟨f, indirect, framed⟩, v⟩ := i
  simp only [text, List.mem_append] at hc
  rcases hc with (hletter | hdecimal) | hremark
  · have hletters : ((Opcode.letters ⟨f, indirect, framed⟩).all fun c =>
        c ≠ Text.lineFeed ∧ c ≠ Text.carriageReturn) = true := by
      cases f <;> cases indirect <;> cases framed <;> decide
    exact of_decide_eq_true (List.all_eq_true.mp hletters c hletter)
  · have hnumeral := v.isNumeral_decimal.inNumeral_of_mem hdecimal
    refine ⟨?_, ?_⟩ <;> (rintro rfl; exact absurd hnumeral (by decide))
  · rcases remark_eq ⟨f, indirect, framed⟩ v with hnone | ⟨t, hsome, ht⟩
    · simp [hnone] at hremark
    · rw [hsome] at hremark
      exact List.forall_mem_cons.mpr ⟨by decide, List.forall_mem_cons.mpr ⟨by decide, ht⟩⟩ c hremark

/-- What ends an instruction in a listing without its comments. -/
def gap (i : CodeLine) : Text :=
  if remark i.opcode i.operand = [] then [Text.lineFeed] else [Text.space]

/-- The lines of a listing without addresses. -/
def plainLines (code : List CodeLine) : Text := code.flatMap fun i => i.text ++ [Text.lineFeed]

/-- A listing without its addresses is the instructions, one to a line. -/
theorem withoutAddresses_lines (a : Nat) (code : List CodeLine) :
    withoutAddresses (lines a code).flatten = plainLines code := by
  induction code generalizing a with
  | nil => rfl
  | cons i code ih =>
    have hline : Text.lineFeed ∉ i.text := fun hmem => (i.text_inLine hmem).1 rfl
    have hshape : (lines a (i :: code)).flatten =
        (Padded.rightJustified 10 (Text.ofInt a)).toText ++
          9 :: (i.text ++ Text.lineFeed :: (lines (a + i.words.length) code).flatten) := by
      simp [lines, addressColumn]
    rw [hshape, withoutAddresses, afterTabs_tab (tab_not_mem_address a), afterTabs_line hline]
    change _ ++ _ :: withoutAddresses _ = _
    rw [ih]
    simp [plainLines]

/-- The directive of an instruction starts with a letter. -/
theorem head_plainLines (code : List CodeLine) :
    ∀ c ∈ (plainLines code).head?, c ≠ Text.lineFeed := by
  cases code with
  | nil => simp [plainLines]
  | cons i code =>
    obtain ⟨⟨f, indirect, framed⟩, v⟩ := i
    intro c hc
    obtain rfl : f.letter = c := by simpa [plainLines, text, Opcode.letters] using hc
    cases f <;> decide

/-- Without its comment a line is the directive and what ends it. -/
theorem stripComments_line (i : CodeLine) {rest : Text}
    (hrest : ∀ c ∈ rest.head?, c ≠ Text.lineFeed) :
    Text.stripComments .code (i.text ++ Text.lineFeed :: rest) =
      i.directive.render ++ i.gap ++ Text.stripComments .code rest := by
  have hrender : Text.slash ∉ i.directive.render := fun hslash =>
    (i.written_directive.plain _ hslash).2 rfl
  rw [i.text_eq, List.append_assoc, Text.stripComments_append hrender, List.append_assoc]
  congr 1
  rcases remark_eq i.opcode i.operand with hnone | ⟨t, hsome, ht⟩
  · rw [gap, if_pos hnone, hnone]
    rfl
  · have hline : Text.lineFeed ∉ t := fun hmem => (ht _ hmem).1 rfl
    rw [gap, if_neg (by simp [hsome]), hsome]
    change Text.space :: Text.stripComments .comment (t ++ Text.lineFeed :: rest) = _
    rw [Text.stripComments_comment hline, Text.stripComments_lineEnd hrest]
    rfl

/-- Without its comments a listing is its directives and what ends them. -/
theorem stripComments_plainLines (code : List CodeLine) :
    Text.stripComments .code (plainLines code) =
      code.flatMap fun i => i.directive.render ++ i.gap := by
  induction code with
  | nil => rfl
  | cons i code ih =>
    have hcons : plainLines (i :: code) = i.text ++ Text.lineFeed :: plainLines code := by
      simp [plainLines]
    rw [hcons, stripComments_line i (head_plainLines code), ih, List.flatMap_cons]

/-- The significant bytes of a listing are its directives and what ends them. -/
theorem significant_plainLines (code : List CodeLine) :
    (plainLines code).significant = code.flatMap fun i => i.directive.render ++ i.gap := by
  have hfixed : ∀ c ∈ plainLines code, Text.foldReturn c = id c := by
    intro c hc
    obtain ⟨i, -, hmem⟩ := List.mem_flatMap.mp hc
    rcases List.mem_append.mp hmem with htext | hend
    · exact if_neg (i.text_inLine htext).2
    · rw [List.mem_singleton.mp hend]
      rfl
  rw [Text.significant, List.map_congr_left hfixed, List.map_id, stripComments_plainLines]

/-- The directives of a listing are spelled by its significant bytes. -/
theorem writtenAll_directives (code : List CodeLine) :
    Directive.WrittenAll (code.map directive)
      (code.flatMap fun i => i.directive.render ++ i.gap) := by
  induction code with
  | nil => exact .nil
  | cons i code ih =>
    have hgap : i.gap = [Text.lineFeed] ∨ i.gap = [Text.space] := by
      unfold gap
      split
      · exact .inl rfl
      · exact .inr rfl
    refine .cons i.written_directive ?_ ?_ ih
    · rcases hgap with h | h <;> simp [h]
    · intro c hc
      rcases hgap with h | h <;> (rw [h, List.mem_singleton] at hc; rw [hc]; decide)

/-- A listing without its addresses is read as the directives of its instructions. -/
theorem parseAll_plainLines (code : List CodeLine) :
    Directive.parseAll (plainLines code).significant = code.map directive := by
  have hparse := (writtenAll_directives code).parseAll
  rwa [← significant_plainLines, Text.significant_significant] at hparse

end CodeLine

namespace Assembler

open CodeLine

variable {s : Assembler}

/-- The state after words have been appended. -/
def pushAll (s : Assembler) (ws : List Cell) : Assembler := ws.foldl push s

/-- Appended words end where they are said to. -/
theorem lomem_pushAll (s : Assembler) (ws : List Cell) :
    (s.pushAll ws).lomem = s.lomem + ws.length := by
  induction ws generalizing s with
  | nil => simp [pushAll]
  | cons w ws ih =>
    have hrest : (s.pushAll (w :: ws)).lomem = ((s.push w).pushAll ws).lomem := rfl
    have hpush : (s.push w).lomem = s.lomem + 1 := rfl
    rw [hrest, ih, hpush, List.length_cons]
    omega

/-- Appending words keeps the size of the memory. -/
theorem size_pushAll (s : Assembler) (ws : List Cell) :
    (s.pushAll ws).memory.size = s.memory.size := by
  induction ws generalizing s with
  | nil => rfl
  | cons w ws ih => exact (ih (s.push w)).trans (Memory.size_setCell ..)

/-- Appending words changes no other word. -/
theorem cellAt_pushAll_of_outside {a : Nat} (hs : s.lomem = a) {ws : List Cell} {j : Nat}
    (hj : j < a ∨ a + ws.length ≤ j) :
    (s.pushAll ws).memory.cellAt j = s.memory.cellAt j := by
  induction ws generalizing s a with
  | nil => rfl
  | cons w ws ih =>
    have hrest : (s.pushAll (w :: ws)).memory.cellAt j =
        ((s.push w).pushAll ws).memory.cellAt j := rfl
    have hlomem : (s.push w).lomem = ((a + 1 : Nat) : Int) := by
      simp only [push, hs]
      omega
    rw [List.length_cons] at hj
    rw [hrest, ih hlomem (by omega)]
    simp only [push, hs, Int.toNat_natCast]
    exact Memory.cellAt_setCell_of_ne (by omega) ..

/-- Appended words are held by the memory. -/
theorem holds_pushAll {a : Nat} (hs : s.lomem = a) {ws : List Cell}
    (hsize : a + ws.length ≤ s.memory.size) : (s.pushAll ws).memory.Holds a ws := by
  induction ws generalizing s a with
  | nil => exact ⟨hsize, fun k hk => absurd hk (Nat.not_lt_zero k)⟩
  | cons w ws ih =>
    rw [List.length_cons] at hsize
    have hlomem : (s.push w).lomem = ((a + 1 : Nat) : Int) := by
      simp only [push, hs]
      omega
    have hsame : (s.push w).memory.size = s.memory.size := Memory.size_setCell ..
    have hfirst : ((s.push w).pushAll ws).memory.cellAt a = w := by
      rw [cellAt_pushAll_of_outside hlomem (.inl (Nat.lt_succ_self a))]
      simp only [push, hs, Int.toNat_natCast]
      exact Memory.cellAt_setCell_self (by omega) w
    have hone : ((s.push w).pushAll ws).memory.Holds a [w] := by
      refine ⟨by rw [size_pushAll, hsame, List.length_singleton]; omega, fun k hk => ?_⟩
      obtain rfl : k = 0 := by simpa using hk
      exact hfirst
    have hothers : ((s.push w).pushAll ws).memory.Holds (a + 1) ws := ih hlomem (by omega)
    exact Memory.holds_append.mpr ⟨hone, hothers⟩

/-- An instruction is assembled as its words, whether its operand is marked or not. -/
theorem step_codeLine (i : CodeLine) (marked : Bool)
    (hroom : s.lomem + i.words.length + labelCount ≤ s.memory.size) :
    Step s (.instruction i.opcode marked (.number i.operand)) (s.pushAll i.words) := by
  unfold words at hroom ⊢
  by_cases hshort : i.operand.toNat < 256
  · rw [if_pos hshort] at hroom ⊢
    simp only [List.length_singleton] at hroom
    exact .short hshort (by unfold HasRoom; omega)
  · rw [if_neg hshort] at hroom ⊢
    simp only [List.length_cons, List.length_nil] at hroom
    refine .long hshort (by unfold HasRoom; omega) ?_
    simp only [HasRoom, push, Memory.size_setCell]
    omega

/-- Instructions are assembled as their words. -/
theorem emitAll_code (hs : s.Placed) {code : List CodeLine}
    (hroom : s.lomem + (encode code).length + labelCount ≤ s.memory.size) :
    emitAll (code.map directive) s = .ok () (s.pushAll (encode code)) := by
  induction code generalizing s with
  | nil => rfl
  | cons i code ih =>
    have hsplit : encode (i :: code) = i.words ++ encode code := rfl
    rw [hsplit, List.length_append, Int.natCast_add] at hroom
    have hstep : Step s i.directive (s.pushAll i.words) := step_codeLine i false (by omega)
    have hrest := ih (hstep.placed hs) (by rw [lomem_pushAll, size_pushAll]; omega)
    rw [hsplit, List.map_cons, emitAll_cons_eq_ok_iff hs]
    refine ⟨_, hstep, hrest.trans ?_⟩
    simp only [pushAll, List.foldl_append]

end Assembler

namespace Listing

open CodeLine

/-- Code in the assembler's own encoding is listed with one line for each instruction, which
starts with its address. The listing without the addresses is accepted by the assembler, which
stores the listed words again, ends where they end and changes no other word. -/
theorem printRange_assembles_back {m : Memory} {start : Nat} {code : List CodeLine} {p : Printer}
    (hcode : m.Holds start (encode code)) (hp : p.Unlimited) :
    (lines start code).length = code.length ∧
      ∃ p', printRange m start ((start + (encode code).length : Nat) : Int) p = .ok () p' ∧
        p'.error = none ∧
        p'.device.contents = p.device.contents ++ (lines start code).flatten ∧
        ∀ s : Assembler, s.lomem = start →
          start + (encode code).length + labelCount ≤ s.memory.size →
          ∃ s', Assembler.assemble (withoutAddresses (lines start code).flatten) none s =
              .ok () s' ∧
            s'.lomem = ((start + (encode code).length : Nat) : Int) ∧
            s'.memory.Holds start (encode code) ∧
            ∀ j, j < start ∨ start + (encode code).length ≤ j →
              s'.memory.cellAt j = s.memory.cellAt j := by
  obtain ⟨p', hprint, hp', hcontents⟩ :=
    printLines_of_holds (n := (encode code).length) hcode hp (length_le_length_encode code)
  refine ⟨length_lines start code, p', ?_, by rw [Printer.error, hp'.1]; rfl, hcontents, ?_⟩
  · have hcount : (((start + (encode code).length : Nat) : Int) - start).toNat =
        (encode code).length := by omega
    rw [printRange, hcount]
    exact hprint
  · intro s hstart hroom
    have hplaced : s.fresh.Placed := Assembler.placed_fresh (by omega)
    have hrun : Assembler.emitAll (code.map directive) s.fresh =
        .ok () (s.fresh.pushAll (encode code)) :=
      Assembler.emitAll_code hplaced (by simp only [Assembler.fresh]; omega)
    refine ⟨s.fresh.pushAll (encode code), ?_, ?_, ?_, fun j hj => ?_⟩
    · rw [withoutAddresses_lines, Assembler.assemble_eq_ok_iff, parseAll_plainLines]
      exact ⟨rfl, hrun⟩
    · rw [Assembler.lomem_pushAll]
      simp only [Assembler.fresh]
      omega
    · have hsize : start + (encode code).length ≤ s.fresh.memory.size :=
        (Nat.le_add_right _ labelCount).trans hroom
      exact Assembler.holds_pushAll (s := s.fresh) hstart hsize
    · exact Assembler.cellAt_pushAll_of_outside (s := s.fresh) hstart hj

/-- Two named operations, and between them an instruction whose operand has a word of its own. -/
def sampleCode : List CodeLine :=
  [⟨⟨.operate, false, false⟩, 5⟩, ⟨⟨.load, true, true⟩, -3⟩, ⟨⟨.operate, false, false⟩, 22⟩]

/-- A memory that holds the sample code from cell 401 on. -/
def sampleMemory : Memory :=
  (Assembler.pushAll { memory := .blank 1000, lomem := 401 } (encode sampleCode)).memory

/-- The sample code is listed with its comments, and its listing can be assembled. -/
theorem sampleCode_assembles_back :
    sampleMemory.Holds 401 (encode sampleCode) ∧
      (∃ p', printRange sampleMemory 401 405 {} = .ok () p' ∧
        p'.device.contents = Text.ofAscii
          "       401\tX5 / mult\n       402\tLIP-3\n       404\tX22 / finish\n") ∧
      ∃ s', Assembler.assemble (Text.ofAscii "X5 / mult\nLIP-3\nX22 / finish\n") none
          { memory := .blank 1000, lomem := 401 } = .ok () s' ∧
        s'.lomem = 405 ∧ s'.memory.cellAt 401 = 0x0507 ∧ s'.memory.cellAt 403 = -3 := by
  have hsize : (Memory.blank 1000).size = 1000 := Memory.size_blank (by decide)
  have hlength : (encode sampleCode).length = 4 := by decide
  have hholds : sampleMemory.Holds 401 (encode sampleCode) :=
    Assembler.holds_pushAll rfl (by rw [hsize, hlength]; decide)
  obtain ⟨-, p', hprint, -, hcontents, hassemble⟩ :=
    printRange_assembles_back (p := {}) hholds ⟨rfl, rfl⟩
  obtain ⟨s', hrun, hlomem, ⟨-, hcells⟩, -⟩ :=
    hassemble { memory := .blank 1000, lomem := 401 } rfl (by rw [hsize, hlength]; decide)
  have htext : withoutAddresses (lines 401 sampleCode).flatten =
      Text.ofAscii "X5 / mult\nLIP-3\nX22 / finish\n" := by decide +kernel
  have hlisting : (lines 401 sampleCode).flatten = Text.ofAscii
      "       401\tX5 / mult\n       402\tLIP-3\n       404\tX22 / finish\n" := by decide +kernel
  rw [htext] at hrun
  rw [hlisting] at hcontents
  refine ⟨hholds, ⟨p', hprint, hcontents⟩, s', hrun, ?_, hcells 0 (by decide), hcells 2 (by decide)⟩
  rw [hlomem, hlength]
  rfl

end Listing

end Intcode
