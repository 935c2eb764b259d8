import Intcode.Proofs.Assembly.Incremental

/-!
# Sources of assembly text

The assembler that reads byte by byte stands at every moment before a text: the
significant bytes that its source still has. What it reads is what the parser
takes from the front of that text, so both assemblers agree. It follows that
comments and the kind of line ends are not seen by the assembler at all, and that
a source that fails is never taken for one that ends.
-/

namespace Intcode

namespace Text

/-- After a comment all line feeds are skipped. -/
theorem stripComments_lineEnd_eq (t : Text) :
    stripComments .lineEnd t = stripComments .code (t.dropWhile (· = lineFeed)) := by
  induction t with
  | nil => rfl
  | cons c t ih =>
    by_cases hc : c = lineFeed
    · rw [stripComments, if_pos hc, ih, List.dropWhile_cons_of_pos (by simpa using hc)]
    · rw [List.dropWhile_cons_of_neg (by simpa using hc)]
      apply stripComments_lineEnd
      intro d hd
      rwa [← Option.some.inj hd]

/-- A comment is skipped up to the end of its line, and then with all line feeds. -/
theorem stripComments_comment_eq (t : Text) :
    stripComments .comment t =
      stripComments .code ((t.dropWhile (· ≠ lineFeed)).dropWhile (· = lineFeed)) := by
  induction t with
  | nil => rfl
  | cons c t ih =>
    by_cases hc : c = lineFeed
    · rw [stripComments, if_pos hc, stripComments_lineEnd_eq,
        List.dropWhile_cons_of_neg (by simpa using hc),
        List.dropWhile_cons_of_pos (by simpa using hc)]
    · rw [stripComments, if_neg hc, ih, List.dropWhile_cons_of_pos (by simpa using hc)]

/-- A text without its comments. A comment is a slash with everything up to the next line feed and
all line feeds there, or up to the end of the text. -/
def withoutComments : Text → Text
  | [] => []
  | c :: t =>
    if c = slash then withoutComments ((t.dropWhile (· ≠ lineFeed)).dropWhile (· = lineFeed))
    else c :: withoutComments t
termination_by t => t.length
decreasing_by
  · have hline := (List.dropWhile_suffix (· ≠ lineFeed) (l := t)).length_le
    have hfeeds := (List.dropWhile_suffix (· = lineFeed)
      (l := t.dropWhile (· ≠ lineFeed))).length_le
    exact Nat.lt_succ_of_le (Nat.le_trans hfeeds hline)
  · exact Nat.lt_succ_self _

/-- A text with line feeds for carriage returns and without its comments. -/
def normalized (t : Text) : Text := withoutComments (t.map foldReturn)

/-- Comments are removed one after the other or in one pass. -/
theorem withoutComments_eq (t : Text) : t.withoutComments = stripComments .code t := by
  fun_induction withoutComments t with
  | case1 => rfl
  | case2 t ih => rw [ih, stripComments, if_pos rfl, stripComments_comment_eq]
  | case3 c t hc ih => rw [ih, stripComments, if_neg hc]

end Text

namespace Incremental

namespace Reader

/-- The byte in hand and all bytes that the source still gives. -/
def raw (r : Reader) : Text :=
  match r.current with
  | some c => c :: r.rest.map Text.foldReturn
  | none => []

/-- The next byte comes from the source. -/
theorem raw_next (r : Reader) : r.next.raw = r.rest.map Text.foldReturn := by
  unfold next raw
  cases r.rest <;> rfl

/-- Going on leaves the byte in hand behind. -/
theorem raw_of_current {r : Reader} {c : UInt8} (h : r.current = some c) :
    r.raw = c :: r.next.raw := by
  rw [raw_next, raw, h]

/-- Skipping drops the bytes of a class. -/
theorem raw_skipWhile (p : UInt8 → Bool) (r : Reader) :
    (r.skipWhile p).raw = r.raw.dropWhile p := by
  fun_induction skipWhile p r with
  | case1 r c h hp ih => rw [ih, raw_of_current h, List.dropWhile_cons_of_pos hp]
  | case2 r c h hp => rw [raw_of_current h, List.dropWhile_cons_of_neg hp]
  | case3 r h => rw [raw, h, List.dropWhile_nil]

/-- Skipping comments leaves the significant bytes. -/
theorem stripComments_skipComments (r : Reader) :
    Text.stripComments .code r.skipComments.raw = Text.stripComments .code r.raw := by
  fun_induction skipComments r with
  | case1 r h ih =>
    rw [ih, raw_skipWhile, raw_skipWhile, raw_of_current h, Text.stripComments, if_pos rfl,
      Text.stripComments_comment_eq]
  | case2 r h => rfl

/-- No comment starts with the byte in hand once comments have been skipped. -/
theorem current_skipComments (r : Reader) : r.skipComments.current ≠ some Text.slash := by
  fun_induction skipComments r with
  | case1 r h ih => exact ih
  | case2 r h => exact h

/-- A reader of a source that ends in a given way. It has noted how the source ends exactly when it
has come to the end. -/
structure Faithful (ending : Option HostError) (r : Reader) : Prop where
  ending_eq : r.ending = ending
  going : r.current ≠ none → r.noted = none
  ended : r.current = none → r.rest = [] ∧ r.noted = ending

variable {ending : Option HostError} {t : Text} {r : Reader}

/-- Going on is faithful if nothing has been noted before the end. -/
theorem faithful_next (hending : r.ending = ending)
    (hnoted : r.noted = none ∨ r.rest = [] ∧ r.noted = ending) : r.next.Faithful ending := by
  unfold next
  cases hrest : r.rest with
  | cons c rest =>
    refine ⟨hending, fun _ => ?_, fun hnone => by cases hnone⟩
    rcases hnoted with hnone | ⟨hempty, -⟩
    · exact hnone
    · rw [hrest] at hempty
      cases hempty
  | nil =>
    refine ⟨hending, fun hsome => absurd rfl hsome, fun _ => ⟨rfl, ?_⟩⟩
    change r.ending.or r.noted = ending
    rcases hnoted with hnone | ⟨-, hsame⟩
    · rw [hnone, hending, Option.or_none]
    · rw [hsame, hending, Option.or_self]

/-- Going on keeps a reader faithful. -/
theorem Faithful.next (h : r.Faithful ending) : r.next.Faithful ending := by
  apply faithful_next h.ending_eq
  cases hcurrent : r.current with
  | some c => exact .inl (h.going (by simp [hcurrent]))
  | none => exact .inr (h.ended hcurrent)

/-- Skipping keeps a reader faithful. -/
theorem Faithful.skipWhile (h : r.Faithful ending) (p : UInt8 → Bool) :
    (r.skipWhile p).Faithful ending := by
  fun_induction Reader.skipWhile p r with
  | case1 r c hcurrent hp ih => exact ih h.next
  | case2 r c hcurrent hp => exact h
  | case3 r hcurrent => exact h

/-- Skipping comments keeps a reader faithful. -/
theorem Faithful.skipComments (h : r.Faithful ending) : r.skipComments.Faithful ending := by
  fun_induction Reader.skipComments r with
  | case1 r hcurrent ih => exact ih ((h.next.skipWhile _).skipWhile _)
  | case2 r hcurrent => exact h

/-- A reader stands before a text of significant bytes, the first of which is in hand. -/
structure Before (ending : Option HostError) (t : Text) (r : Reader) : Prop extends
    r.Faithful ending where
  current_ne : r.current ≠ some Text.slash
  ahead : Text.stripComments .code r.raw = t

/-- The byte in hand is the first of the text. -/
theorem Before.eq_cons {c : UInt8} (h : r.Before ending t) (hcurrent : r.current = some c) :
    t = c :: Text.stripComments .code r.next.raw := by
  have hc : c ≠ Text.slash := fun hslash => h.current_ne (hslash ▸ hcurrent)
  rw [← h.ahead, raw_of_current hcurrent, Text.stripComments, if_neg hc]

/-- At the end of the source there is no text left. -/
theorem Before.eq_nil (h : r.Before ending t) (hcurrent : r.current = none) : t = [] := by
  rw [← h.ahead, raw, hcurrent]
  rfl

/-- The reader knows how the text begins. -/
theorem Before.current_eq (h : r.Before ending t) : r.current = t.head? := by
  cases hcurrent : r.current with
  | none => rw [h.eq_nil hcurrent, List.head?_nil]
  | some c => rw [h.eq_cons hcurrent, List.head?_cons]

/-- A reader that goes on stands before the rest of the text. -/
theorem Before.advance (h : r.Before ending t) : r.advance.Before ending t.tail := by
  refine ⟨h.next.skipComments, current_skipComments _, ?_⟩
  rw [Reader.advance, stripComments_skipComments]
  cases hcurrent : r.current with
  | none =>
    rw [raw_next, (h.ended hcurrent).1, h.eq_nil hcurrent]
    rfl
  | some c => rw [h.eq_cons hcurrent, List.tail_cons]

/-- A reader starts before the significant bytes of its source. -/
theorem before_start (t : Text) (ending : Option HostError) :
    (Reader.advance { rest := t, ending }).Before ending t.significant := by
  have hnext : (Reader.next { rest := t, ending }).Faithful ending := faithful_next rfl (.inl rfl)
  refine ⟨hnext.skipComments, current_skipComments _, ?_⟩
  rw [Reader.advance, stripComments_skipComments, raw_next, Text.significant]

/-- What is read byte by byte is what a parser takes from the front of the text. -/
def Reads {α : Type} (read : Reader → α × Reader) (parse : Text → α × Text) : Prop :=
  ∀ ending t r, r.Before ending t →
    (read r).1 = (parse t).1 ∧ (read r).2.Before ending (parse t).2

/-- The next byte. -/
theorem reads_advance : Reads (fun r => ((), r.advance)) fun t => ((), t.tail) :=
  fun _ _ _ h => ⟨rfl, h.advance⟩

/-- A byte that may be missing. -/
theorem reads_accept (c : UInt8) : Reads (accept c) (Text.accept c) := by
  intro ending t r h
  have hcurrent := h.current_eq
  unfold accept Text.accept
  cases t with
  | nil => simpa [hcurrent] using h
  | cons d t =>
    by_cases hd : d = c
    · simpa [hcurrent, hd] using h.advance
    · simpa [hcurrent, hd] using h

/-- Digits, each added to the value of those before it. -/
theorem Before.digits (h : r.Before ending t) (sum : Cell) :
    (r.digits sum).1 =
        (t.takeWhile Text.isDigit).foldl (fun sum c => sum * 10 + Cell.ofNat (c.toNat - 48)) sum ∧
      (r.digits sum).2.Before ending (t.dropWhile Text.isDigit) := by
  fun_induction Reader.digits sum r generalizing t with
  | case1 sum r c hcurrent hdigit ih =>
    obtain ⟨t, rfl⟩ : ∃ rest, t = c :: rest := ⟨_, h.eq_cons hcurrent⟩
    rw [List.takeWhile_cons_of_pos hdigit, List.dropWhile_cons_of_pos hdigit, List.foldl_cons]
    exact ih h.advance
  | case2 sum r c hcurrent hdigit =>
    obtain ⟨t, rfl⟩ : ∃ rest, t = c :: rest := ⟨_, h.eq_cons hcurrent⟩
    rw [List.takeWhile_cons_of_neg hdigit, List.dropWhile_cons_of_neg hdigit]
    exact ⟨rfl, h⟩
  | case3 sum r hcurrent =>
    obtain rfl := h.eq_nil hcurrent
    exact ⟨rfl, h⟩

/-- Numbers. -/
theorem reads_number : Reads number Text.numeral := by
  intro ending t r h
  have hcurrent := h.current_eq
  cases t with
  | nil =>
    rw [number, if_neg (by simp [hcurrent])]
    exact h.digits 0
  | cons c t =>
    by_cases hsigned : c = Text.byte '-'
    · obtain ⟨hvalue, hrest⟩ := h.advance.digits 0
      rw [number, if_pos (by simp [hcurrent, hsigned]), Text.numeral, if_pos hsigned]
      exact ⟨congrArg Neg.neg hvalue, hrest⟩
    · rw [number, if_neg (by simp [hcurrent, hsigned]), Text.numeral, if_neg hsigned]
      exact h.digits 0

end Reader

open Reader (Reads reads_advance reads_accept reads_number)

variable {ending : Option HostError} {t : Text}

section Carries

variable {α β : Type}

/-- Outcomes with the same result or failure and the same assembler. After a success the reader
stands before a given text. -/
inductive Matches (ending : Option HostError) (t : Text) :
    EStateM.Result Failure Assembler α → EStateM.Result Failure State α → Prop
  | ok (a : α) {assembler : Assembler} {reader : Reader} (h : reader.Before ending t) :
    Matches ending t (.ok a assembler) (.ok a ⟨assembler, reader⟩)
  | error (e : Failure) (assembler : Assembler) (reader : Reader) :
    Matches ending t (.error e assembler) (.error e ⟨assembler, reader⟩)

/-- A success is one of assembling alone. -/
theorem Matches.of_ok {a : α} {s : State} {outcome : EStateM.Result Failure Assembler α}
    {outcome' : EStateM.Result Failure State α}
    (h : Matches ending t outcome outcome') (hok : outcome' = .ok a s) :
    outcome = .ok a s.assembler ∧ s.reader.Before ending t := by
  cases h with
  | ok b hrest =>
    cases hok
    exact ⟨rfl, hrest⟩
  | error e assembler reader => cases hok

/-- A failure is one of assembling alone. -/
theorem Matches.of_error {e : Failure} {s : State} {outcome : EStateM.Result Failure Assembler α}
    {outcome' : EStateM.Result Failure State α}
    (h : Matches ending t outcome outcome') (herror : outcome' = .error e s) :
    outcome = .error e s.assembler := by
  cases h with
  | ok b hrest => cases herror
  | error e assembler reader =>
    cases herror
    rfl

/-- Reading and assembling in turns does what a parser finds to be done in the text ahead, and
leaves the text that the parser leaves. -/
def Carries (x : Action State α) (parse : Text → Action Assembler α × Text) : Prop :=
  ∀ ending t s, s.reader.Before ending t →
    Matches ending (parse t).2 ((parse t).1 s.assembler) (x s)

/-- Assembling alone leaves the text. -/
theorem carries_assembling (x : Action Assembler α) : Carries (assembling x) fun t => (x, t) := by
  intro ending t s h
  simp only [assembling_apply]
  cases x s.assembler with
  | ok a assembler => exact .ok a h
  | error e assembler => exact .error e assembler s.reader

/-- Assembling before something else. -/
theorem Carries.after_assembling {x : α → Action State β} {f : Text → α → Action Assembler β}
    {rest : Text → Text} (hx : ∀ a, Carries (x a) fun t => (f t a, rest t))
    (y : Action Assembler α) : Carries (assembling y >>= x) fun t => (y >>= f t, rest t) := by
  intro ending t s h
  simp only [Action.bind_apply, assembling_apply]
  cases y s.assembler with
  | ok a assembler => exact hx a ending t ⟨assembler, s.reader⟩ h
  | error e assembler => exact .error e assembler s.reader

/-- Reading before something else. -/
theorem Carries.after_reading {x : α → Action State β} {next : α → Text → Action Assembler β × Text}
    (hx : ∀ a, Carries (x a) (next a)) {read : Reader → α × Reader} {parse : Text → α × Text}
    (hread : Reads read parse) :
    Carries (reading read >>= x) fun t => next (parse t).1 (parse t).2 := by
  intro ending t s h
  obtain ⟨hvalue, hrest⟩ := hread ending t s.reader h
  change Matches ending (next (parse t).1 (parse t).2).2
    ((next (parse t).1 (parse t).2).1 s.assembler)
    (x (read s.reader).1 ⟨s.assembler, (read s.reader).2⟩)
  rw [hvalue]
  exact hx (parse t).1 ending (parse t).2 ⟨s.assembler, (read s.reader).2⟩ hrest

/-- A number before something that is assembled. -/
theorem carries_number (f : Cell → Action Assembler α) :
    Carries (do let v ← reading Reader.number; assembling (f v)) fun t =>
      (f (Text.numeral t).1, (Text.numeral t).2) :=
  Carries.after_reading (fun v => carries_assembling (f v)) reads_number

/-- The number of a label before a word that refers to it. -/
theorem carries_reference : Carries (do
      assembling (Assembler.append 0)
      let n ← reading Reader.number
      assembling (referLast n)) fun t =>
    (Assembler.appendReference (Text.numeral t).1, (Text.numeral t).2) :=
  Carries.after_assembling (fun _ => carries_number referLast) (Assembler.append 0)

/-- Data words. -/
theorem carries_word : Carries word fun t =>
    (Assembler.emit (.word (Operand.parse t.tail).1), (Operand.parse t.tail).2) := by
  have hoperand (isLabel : Bool) : Carries (if isLabel then do
        assembling (Assembler.append 0)
        let n ← reading Reader.number
        assembling (referLast n)
      else do
        let v ← reading Reader.number
        assembling (Assembler.append v)) fun t =>
      (Assembler.emit (.word (if isLabel then .label (Text.numeral t).1
        else .number (Text.numeral t).1)), (Text.numeral t).2) := by
    cases isLabel with
    | true => exact carries_reference
    | false => exact carries_number Assembler.append
  exact Carries.after_reading (fun _ => Carries.after_reading hoperand (reads_accept _))
    reads_advance

/-- Instructions. -/
theorem carries_instruction (f : Function) : Carries (instruction f) fun t =>
    (Assembler.emit (Directive.parseInstruction f t.tail).1,
      (Directive.parseInstruction f t.tail).2) := by
  have hoperand (opcode : Opcode) (marked isLabel : Bool) : Carries (if isLabel then do
        assembling (Assembler.append opcode.longWord)
        assembling (Assembler.append 0)
        let n ← reading Reader.number
        assembling (referLast n)
      else do
        let v ← reading Reader.number
        assembling (Assembler.emit (.instruction opcode marked (.number v)))) fun t =>
      (Assembler.emit (.instruction opcode marked (if isLabel then .label (Text.numeral t).1
        else .number (Text.numeral t).1)), (Text.numeral t).2) := by
    cases isLabel with
    | true => exact Carries.after_assembling (fun _ => carries_reference) _
    | false => exact carries_number fun v => Assembler.emit (.instruction opcode marked (.number v))
  exact Carries.after_reading (fun _ => Carries.after_reading (fun indirect =>
    Carries.after_reading (fun framed => Carries.after_reading (fun marked =>
      Carries.after_reading (hoperand ⟨f, indirect, framed⟩ marked) (reads_accept _))
      (reads_accept _)) (reads_accept _)) (reads_accept _)) reads_advance

/-- A global is made ready before its label is read. -/
theorem clearGlobal_bind (n l : Cell) :
    (do clearGlobal n; Assembler.reference l.toInt n.address) = Assembler.emit (.global n l) := by
  funext a
  simp only [Assembler.emit, clearGlobal, Action.bind_apply, Action.get_apply]
  by_cases hsize : (a.memory.size : Int) ≤ n.address
  · simp only [if_pos hsize]
    rfl
  · simp only [if_neg hsize, Action.bind_apply]

/-- Globals. -/
theorem carries_global : Carries global fun t =>
    (Assembler.emit (Directive.parseGlobal t.tail).1, (Directive.parseGlobal t.tail).2) := by
  have hlabel (n : Cell) (closed : Bool) : Carries (if closed then do
        assembling (clearGlobal n)
        let l ← reading Reader.number
        assembling (Assembler.reference l.toInt n.address)
      else assembling Assembler.failHere) fun t =>
      let (d, t) := if closed then (Directive.global n (Text.numeral t).1, (Text.numeral t).2)
        else (Directive.openGlobal n, t)
      (Assembler.emit d, t) := by
    cases closed with
    | true =>
      simp only [if_true, ← clearGlobal_bind]
      exact Carries.after_assembling (fun _ =>
        carries_number fun l => Assembler.reference l.toInt n.address) (clearGlobal n)
    | false => exact carries_assembling Assembler.failHere
  exact Carries.after_reading (fun _ => Carries.after_reading (fun n =>
    Carries.after_reading (hlabel n) (reads_accept _)) reads_number) reads_advance

end Carries

/-- The directive that starts with the byte in hand is the one that is read from the text. -/
theorem directive_matches {c : UInt8} {s : State} (h : s.reader.Before ending (c :: t)) :
    Matches ending (Directive.parseFrom c t).2
      (Assembler.emit (Directive.parseFrom c t).1 s.assembler) (directive c s) := by
  unfold directive Directive.parseFrom
  split
  · exact carries_number (fun n => Assembler.emit (.label n)) ending (c :: t) s h
  split
  · exact Carries.after_reading (fun _ => carries_number fun v => Assembler.appendByte v.low)
      reads_advance ending (c :: t) s h
  split
  · exact carries_word ending (c :: t) s h
  split
  · exact carries_global ending (c :: t) s h
  split
  · simp only [Action.bind_apply, assembling_apply]
    cases Assembler.emit .segmentEnd s.assembler with
    | ok a assembler => exact .ok () h.advance
    | error e assembler => exact .error e assembler s.reader
  cases Function.ofLetter? c with
  | some f => exact carries_instruction f ending (c :: t) s h
  | none => exact .error _ s.assembler s.reader

/-- The outcome of assembling, given how the source of the text ends. -/
def closing (ending : Option HostError) :
    EStateM.Result Failure Assembler Unit → EStateM.Result Failure Assembler Unit
  | .ok _ a =>
    match ending with
    | some e => .error (.report (.host "read failed" e)) a
    | none => .ok () a
  | .error e a => .error e a

/-- A run carries out the directives of the text ahead and then looks at how its source ends. -/
theorem forget_run {s : State} (h : s.reader.Before ending t) :
    forget (run s) = closing ending (Assembler.emitAll (Directive.parseAll t) s.assembler) := by
  fun_induction run s generalizing t with
  | case1 s e hnoted =>
    have hcurrent : s.reader.current = none := by
      cases hcurrent : s.reader.current with
      | none => rfl
      | some c => simp [h.going (by simp [hcurrent])] at hnoted
    obtain rfl := h.eq_nil hcurrent
    obtain rfl : some e = ending := hnoted.symm.trans (h.ended hcurrent).2
    rfl
  | case2 s hnoted hcurrent =>
    obtain rfl := h.eq_nil hcurrent
    obtain rfl : none = ending := hnoted.symm.trans (h.ended hcurrent).2
    rfl
  | case3 s hnoted c hcurrent hseparator ih =>
    obtain ⟨t, rfl⟩ : ∃ rest, t = c :: rest := ⟨_, h.eq_cons hcurrent⟩
    rw [Directive.parseAll_separator hseparator]
    exact ih h.advance
  | case4 s hnoted c hcurrent hseparator u s' hrun ih =>
    obtain ⟨t, rfl⟩ : ∃ rest, t = c :: rest := ⟨_, h.eq_cons hcurrent⟩
    obtain ⟨hemit, hrest⟩ := (directive_matches h).of_ok hrun
    rw [Directive.parseAll_cons hseparator, Assembler.emitAll, Action.bind_apply, hemit]
    exact ih hrest
  | case5 s hnoted c hcurrent hseparator e s' hrun =>
    obtain ⟨t, rfl⟩ : ∃ rest, t = c :: rest := ⟨_, h.eq_cons hcurrent⟩
    rw [Directive.parseAll_cons hseparator, Assembler.emitAll, Action.bind_apply,
      (directive_matches h).of_error hrun]
    rfl

/-- Reading byte by byte makes no difference to what is assembled. -/
theorem assemble_eq (t : Text) (ending : Option HostError) (a : Assembler) :
    assemble t ending a = Assembler.assemble t ending a := by
  have hrun : forget (run ⟨a.fresh, Reader.advance { rest := t, ending }⟩) =
      closing ending (Assembler.emitAll (Directive.parseAll t.significant) a.fresh) :=
    forget_run (Reader.before_start t ending)
  rw [Assembler.assemble_eq]
  simp only [assemble, Action.restating, hrun]
  cases Assembler.emitAll (Directive.parseAll t.significant) a.fresh with
  | error e a' => rfl
  | ok u a' => cases ending <;> rfl

end Incremental

namespace Assembler

variable (t : Text) (a : Assembler)

/-- Comments and carriage returns are not seen by the assembler. A text that is normalized has none,
and it gives the same memory, end of the code, label table and failure as before, whether the text
is read first or as it is assembled, and however its source ends. -/
theorem assemble_normalized :
    t.normalized.Plain ∧ ∀ ending,
      assemble t.normalized ending a = assemble t ending a ∧
        Incremental.assemble t.normalized ending a = Incremental.assemble t ending a := by
  have hsignificant : t.normalized = t.significant := Text.withoutComments_eq _
  rw [hsignificant]
  refine ⟨Text.plain_significant t, fun ending => ?_⟩
  have hsame : assemble t.significant ending a = assemble t ending a := by
    rw [assemble_eq, assemble_eq, Text.significant_significant]
  exact ⟨hsame, by rw [Incremental.assemble_eq, Incremental.assemble_eq, hsame]⟩

/-- A source that fails is never taken for one that ends. An assembler that takes byte by byte and
goes on as at the end of the text when its source fails still does what the whole text says. If the
text is accepted when its source ends, the failure to read is reported when its source fails. If
the text is rejected, it is rejected for the same reason in both cases. The code is the same. -/
theorem read_failure_reported (e : HostError) :
    (∀ ending, Incremental.assemble t ending a = assemble t ending a) ∧
      ((∃ a', Incremental.assemble t none a = .ok () a' ∧
          Incremental.assemble t (some e) a = .error (.report (.host "read failed" e)) a') ∨
        ∃ f a', Incremental.assemble t none a = .error f a' ∧
          Incremental.assemble t (some e) a = .error f a') := by
  refine ⟨fun ending => Incremental.assemble_eq t ending a, ?_⟩
  simp only [Incremental.assemble_eq, assemble_eq]
  cases emitAll (Directive.parseAll t.significant) a.fresh with
  | ok u a' => exact .inl ⟨a', rfl, rfl⟩
  | error f a' => exact .inr ⟨restateFailure a' f, a', rfl, rfl⟩

end Assembler

end Intcode
