import Intcode.Machine.Load
import Intcode.Proofs.Assembly.Reading
import Intcode.Proofs.Assembly.Run

/-!
# Texts one after the other

The end of a segment cuts a text in two. Nothing that comes before it reaches past
its letter: no comment, no number and no directive, no label and no packed byte. So
assembling a text of two parts is assembling the first part and then the second.
-/

namespace Intcode

namespace Text

/-- A text whose last comment is still open: after some slash no line ends. -/
def EndsInComment (t : Text) : Prop :=
  ∃ before line, t.map foldReturn = before ++ slash :: line ∧ lineFeed ∉ line

/-- A text ends in a comment if there is a slash in its last line. -/
theorem endsInComment_iff (t : Text) :
    t.EndsInComment ↔ slash ∈ (t.map foldReturn).reverse.takeWhile (· ≠ lineFeed) := by
  constructor
  · rintro ⟨before, line, heq, hline⟩
    have hopen : ∀ c ∈ line.reverse, decide (c ≠ lineFeed) = true := by
      intro c hc
      rw [decide_eq_true_eq]
      rintro rfl
      exact hline (List.mem_reverse.mp hc)
    have hslash : decide (slash ≠ lineFeed) = true := by decide
    rw [heq, List.reverse_append, List.reverse_cons, List.append_assoc,
      List.takeWhile_append_of_pos hopen, List.singleton_append, List.takeWhile_cons, if_pos hslash]
    exact List.mem_append_right _ List.mem_cons_self
  · intro hmem
    obtain ⟨line, rest, hsplit⟩ := List.append_of_mem hmem
    have hall := (List.takeWhile_append_dropWhile (p := (· ≠ lineFeed))
      (l := (t.map foldReturn).reverse)).symm
    rw [hsplit] at hall
    generalize (t.map foldReturn).reverse.dropWhile (· ≠ lineFeed) = later at hall
    refine ⟨(rest ++ later).reverse, line.reverse, ?_, ?_⟩
    · rw [← List.reverse_reverse (t.map foldReturn), hall]
      simp
    · intro hline
      have hin : lineFeed ∈ (t.map foldReturn).reverse.takeWhile (· ≠ lineFeed) := by
        rw [hsplit]
        exact List.mem_append_left _ (List.mem_reverse.mp hline)
      have hne := List.all_eq_true.mp List.all_takeWhile lineFeed hin
      rw [decide_eq_true_eq] at hne
      exact hne rfl

instance (t : Text) : Decidable t.EndsInComment := decidable_of_iff _ t.endsInComment_iff.symm

/-- What follows a comment that has been closed, or no comment at all, is stripped by itself. The
letter that comes first neither starts a comment nor ends a line. -/
theorem stripComments_append_cons {z : UInt8} (hslash : z ≠ slash) (hline : z ≠ lineFeed)
    {scan : CommentScan} {t : Text} (hscan : scan = .comment → lineFeed ∈ t)
    (ht : ∀ before line, t = before ++ slash :: line → lineFeed ∈ line) (u : Text) :
    stripComments scan (t ++ z :: u) = stripComments scan t ++ z :: stripComments .code u := by
  induction t generalizing scan with
  | nil =>
    cases scan with
    | code => simp [stripComments, hslash]
    | comment => exact absurd (hscan rfl) List.not_mem_nil
    | lineEnd => simp [stripComments, hslash, hline]
  | cons c t ih =>
    have htail : ∀ before line, t = before ++ slash :: line → lineFeed ∈ line :=
      fun before line heq => ht (c :: before) line (by rw [heq, List.cons_append])
    -- A comment that starts here is closed in the rest.
    have hclosed (hc : c = slash) : lineFeed ∈ t := ht [] t (by rw [hc, List.nil_append])
    have hcode := @ih .code (fun hscan => by cases hscan) htail
    have hend := @ih .lineEnd (fun hscan => by cases hscan) htail
    rw [List.cons_append]
    cases scan with
    | code =>
      simp only [stripComments]
      by_cases hc : c = slash
      · rw [if_pos hc, if_pos hc]
        exact ih (fun _ => hclosed hc) htail
      · rw [if_neg hc, if_neg hc, hcode, List.cons_append]
    | comment =>
      simp only [stripComments]
      by_cases hc : c = lineFeed
      · rw [if_pos hc, if_pos hc]
        exact hend
      · rw [if_neg hc, if_neg hc]
        exact ih (fun _ => (List.mem_cons.mp (hscan rfl)).resolve_left (Ne.symm hc)) htail
    | lineEnd =>
      simp only [stripComments]
      by_cases hfeed : c = lineFeed
      · rw [if_pos hfeed, if_pos hfeed]
        exact hend
      · rw [if_neg hfeed, if_neg hfeed]
        by_cases hc : c = slash
        · rw [if_pos hc, if_pos hc]
          exact ih (fun _ => hclosed hc) htail
        · rw [if_neg hc, if_neg hc, hcode, List.cons_append]

/-- The significant bytes before the letter of a segment end and after it are those of the two
parts. -/
theorem significant_append {t : Text} (ht : ¬ t.EndsInComment) (u : Text) :
    (t ++ byte 'Z' :: u).significant = t.significant ++ byte 'Z' :: u.significant := by
  have hclosed (before line : Text) (heq : t.map foldReturn = before ++ slash :: line) :
      lineFeed ∈ line := by
    by_cases hline : lineFeed ∈ line
    · exact hline
    · exact absurd ⟨before, line, heq, hline⟩ ht
  have hletter : foldReturn (byte 'Z') = byte 'Z' := by decide
  have hslash : byte 'Z' ≠ slash := by decide
  have hline : byte 'Z' ≠ lineFeed := by decide
  rw [significant, List.map_append, List.map_cons, hletter]
  exact stripComments_append_cons hslash hline (fun hscan => by cases hscan) hclosed _

/-- A reader that gives no more back than it gets, and that does not read past the letter of a
segment end. -/
structure Halts {α : Type} (read : Text → α × Text) : Prop where
  length_le : ∀ t, (read t).2.length ≤ t.length
  append : ∀ t u, read (t ++ byte 'Z' :: u) = ((read t).1, (read t).2 ++ byte 'Z' :: u)

section Halts

variable {α β : Type}

/-- Reading nothing. -/
theorem halts_pure (a : α) : Halts fun t => (a, t) := ⟨fun _ => Nat.le_refl _, fun _ _ => rfl⟩

/-- Two readers one after the other. -/
theorem Halts.bind {read : Text → α × Text} {next : α → Text → β × Text} (hread : Halts read)
    (hnext : ∀ a, Halts (next a)) : Halts fun t => next (read t).1 (read t).2 where
  length_le t := Nat.le_trans ((hnext _).length_le _) (hread.length_le t)
  append t u := by
    simp only [hread.append]
    exact (hnext _).append _ u

/-- What has been read may be put into another form. -/
theorem Halts.map {read : Text → α × Text} (hread : Halts read) (f : α → β) :
    Halts fun t => (f (read t).1, (read t).2) :=
  hread.bind fun a => halts_pure (f a)

/-- A byte other than the letter. -/
theorem halts_accept {c : UInt8} (hc : byte 'Z' ≠ c) : Halts (accept c) where
  length_le t := by
    cases t with
    | nil => exact Nat.le_refl _
    | cons d t =>
      simp only [accept]
      split
      · exact Nat.le_succ _
      · exact Nat.le_refl _
  append t u := by
    cases t with
    | nil => exact if_neg hc
    | cons d t =>
      simp only [accept, List.cons_append]
      split <;> rfl

/-- A class of bytes without the letter ends before it. -/
theorem span_append {p : UInt8 → Bool} (hp : p (byte 'Z') = false) (t u : Text) :
    (t ++ byte 'Z' :: u).takeWhile p = t.takeWhile p ∧
      (t ++ byte 'Z' :: u).dropWhile p = t.dropWhile p ++ byte 'Z' :: u := by
  induction t with
  | nil => simp [hp]
  | cons c t ih =>
    simp only [List.cons_append, List.takeWhile_cons, List.dropWhile_cons]
    split
    · exact ⟨by rw [ih.1], ih.2⟩
    · exact ⟨rfl, rfl⟩

/-- Numbers. -/
theorem halts_numeral : Halts numeral where
  length_le t := by
    cases t with
    | nil => exact Nat.le_refl _
    | cons c t =>
      have htail := (List.dropWhile_suffix isDigit (l := t)).length_le
      have hall := (List.dropWhile_suffix isDigit (l := c :: t)).length_le
      simp only [numeral]
      split
      · exact Nat.le_succ_of_le htail
      · exact hall
  append t u := by
    have hdigit : isDigit (byte 'Z') = false := by decide
    cases t with
    | nil => simp [numeral, hdigit, digitsValue, show ¬ byte 'Z' = byte '-' by decide]
    | cons c t =>
      obtain ⟨htake, hdrop⟩ := span_append hdigit t u
      obtain ⟨htake', hdrop'⟩ := span_append hdigit (c :: t) u
      rw [List.cons_append] at htake' hdrop'
      simp only [List.cons_append, numeral, htake, hdrop, htake', hdrop']
      split <;> rfl

/-- Operands. -/
theorem halts_parse : Halts Operand.parse :=
  (halts_accept (by decide)).bind fun isLabel =>
    halts_numeral.map fun v => if isLabel then Operand.label v else Operand.number v

/-- Instructions after their letters. -/
theorem halts_parseInstruction (f : Function) : Halts (Directive.parseInstruction f) :=
  (halts_accept (by decide)).bind fun indirect => (halts_accept (by decide)).bind fun framed =>
    (halts_accept (by decide)).bind fun marked =>
      halts_parse.map fun operand => Directive.instruction ⟨f, indirect, framed⟩ marked operand

/-- One of two readers. -/
theorem Halts.ite {P : Prop} [Decidable P] {read read' : Text → α × Text} (h : P → Halts read)
    (h' : ¬ P → Halts read') : Halts fun t => if P then read t else read' t := by
  by_cases hP : P
  · simp only [if_pos hP]
    exact h hP
  · simp only [if_neg hP]
    exact h' hP

/-- Globals after their letters. -/
theorem halts_parseGlobal : Halts Directive.parseGlobal := by
  have hrest (n : Cell) (closed : Bool) : Halts fun t =>
      if closed then (Directive.global n (numeral t).1, (numeral t).2)
      else (Directive.openGlobal n, t) :=
    Halts.ite (fun _ => halts_numeral.map _) fun _ => halts_pure _
  exact halts_numeral.bind fun n => (halts_accept (by decide)).bind (hrest n)

/-- Labels, which start with a digit. -/
theorem halts_label {c : UInt8} (hc : isDigit c = true) :
    Halts fun t => (Directive.label (numeral (c :: t)).1, (numeral (c :: t)).2) where
  length_le t := by
    have hsigned : ¬ c = byte '-' := by
      rintro rfl
      exact absurd hc (by decide)
    simp only [numeral, if_neg hsigned, List.dropWhile_cons, hc, if_true]
    exact (List.dropWhile_suffix isDigit).length_le
  append t u := by
    rw [← List.cons_append, halts_numeral.append]

/-- Directives after their first bytes. -/
theorem halts_parseFrom (c : UInt8) : Halts (Directive.parseFrom c) := by
  refine Halts.ite halts_label fun _ => ?_
  refine Halts.ite (fun _ => halts_numeral.map Directive.byte) fun _ => ?_
  refine Halts.ite (fun _ => halts_parse.map Directive.word) fun _ => ?_
  refine Halts.ite (fun _ => halts_parseGlobal) fun _ => ?_
  refine Halts.ite (fun _ => halts_pure Directive.segmentEnd) fun _ => ?_
  cases Function.ofLetter? c with
  | some f => exact halts_parseInstruction f
  | none => exact halts_pure (Directive.unknown c)

end Halts

end Text

namespace Directive

/-- The first directive leaves a shorter text, and it stays the first when the letter of a segment
end follows. -/
theorem parseFirst_append {t rest : Text} {d : Directive} (h : parseFirst t = some (d, rest)) :
    rest.length < t.length ∧
      ∀ u, parseFirst (t ++ Text.byte 'Z' :: u) = some (d, rest ++ Text.byte 'Z' :: u) := by
  have hletter : Text.isSeparator (Text.byte 'Z') = false := by decide
  have hlength := (List.dropWhile_suffix Text.isSeparator (l := t)).length_le
  unfold parseFirst at h ⊢
  cases hdrop : t.dropWhile Text.isSeparator with
  | nil =>
    rw [hdrop] at h
    cases h
  | cons c t' =>
    rw [hdrop] at h hlength
    have hread : parseFrom c t' = (d, rest) := Option.some.inj h
    have hle := (Text.halts_parseFrom c).length_le t'
    rw [hread] at hle
    refine ⟨Nat.lt_of_lt_of_le (Nat.lt_succ_of_le hle) hlength, fun u => ?_⟩
    rw [(Text.span_append hletter t u).2, hdrop]
    simp only [List.cons_append, (Text.halts_parseFrom c).append, hread]

/-- A text without directives has none before the letter of a segment end. -/
theorem parseFirst_append_of_none {t : Text} (h : parseFirst t = none) (u : Text) :
    parseFirst (t ++ Text.byte 'Z' :: u) = some (.segmentEnd, u) := by
  have hletter : Text.isSeparator (Text.byte 'Z') = false := by decide
  unfold parseFirst at h ⊢
  cases hdrop : t.dropWhile Text.isSeparator with
  | cons c t' =>
    rw [hdrop] at h
    cases h
  | nil =>
    rw [(Text.span_append hletter t u).2, hdrop]
    rfl

/-- Reading as many directives as there are bytes is reading all of them. -/
theorem parseUpTo_eq {n k : Nat} {t : Text} (hn : t.length ≤ n) (hk : t.length ≤ k) :
    parseUpTo n t = parseUpTo k t := by
  have hempty (k : Nat) : parseUpTo k [] = [] := by cases k <;> rfl
  induction n generalizing k t with
  | zero =>
    rw [List.length_eq_zero_iff.mp (Nat.le_zero.mp hn), hempty, hempty]
  | succ n ih =>
    cases k with
    | zero => rw [List.length_eq_zero_iff.mp (Nat.le_zero.mp hk), hempty, hempty]
    | succ k =>
      rw [parseUpTo, parseUpTo]
      cases hfirst : parseFirst t with
      | none => rfl
      | some r =>
        obtain ⟨d, rest⟩ := r
        have hlt := (parseFirst_append hfirst).1
        simp only
        rw [ih (Nat.le_of_lt_succ (Nat.lt_of_lt_of_le hlt hn))
          (Nat.le_of_lt_succ (Nat.lt_of_lt_of_le hlt hk))]

/-- A text without a first directive has none. -/
theorem parseAll_of_none {t : Text} (h : parseFirst t = none) : parseAll t = [] := by
  unfold parseAll
  cases t.length with
  | zero => rfl
  | succ n => rw [parseUpTo, h]

/-- The directives of a text are its first and those of the rest. -/
theorem parseAll_of_some {t rest : Text} {d : Directive} (h : parseFirst t = some (d, rest)) :
    parseAll t = d :: parseAll rest := by
  have hlt := (parseFirst_append h).1
  have hn : t.length = t.length - 1 + 1 := by omega
  rw [parseAll, hn, parseUpTo, h]
  simp only [List.cons.injEq, true_and]
  exact parseUpTo_eq (by omega) (Nat.le_refl _)

/-- What a text is read as depends on its first directive and on what follows that. -/
theorem parseAll_congr {t u : Text} (h : parseFirst t = parseFirst u) :
    parseAll t = parseAll u := by
  cases hu : parseFirst u with
  | none => rw [parseAll_of_none hu, parseAll_of_none (h.trans hu)]
  | some r =>
    obtain ⟨d, rest⟩ := r
    rw [parseAll_of_some hu, parseAll_of_some (h.trans hu)]

/-- A text is read without the separator that it starts with. -/
theorem parseAll_separator {c : UInt8} (hc : Text.isSeparator c = true) (t : Text) :
    parseAll (c :: t) = parseAll t := by
  apply parseAll_congr
  rw [parseFirst, parseFirst, List.dropWhile_cons_of_pos hc]

/-- A text is read from the directive that it starts with. -/
theorem parseAll_cons {c : UInt8} (hc : ¬ Text.isSeparator c = true) (t : Text) :
    parseAll (c :: t) = (parseFrom c t).1 :: parseAll (parseFrom c t).2 := by
  apply parseAll_of_some
  rw [parseFirst, List.dropWhile_cons_of_neg hc]

/-- Directives that are written with a space between each two have no other bytes than their own and
the spaces. -/
theorem plain_joined {ds : List Directive} (hds : ∀ d ∈ ds, Written d d.render) :
    Text.Plain ([Text.space].intercalate (ds.map render)) := by
  induction ds with
  | nil => exact List.forall_mem_nil _
  | cons d ds ih =>
    obtain ⟨hd, hds⟩ := List.forall_mem_cons.mp hds
    cases ds with
    | nil =>
      rw [List.map_singleton, List.intercalate_singleton]
      exact hd.plain
    | cons d' ds =>
      have hspace : Text.Plain [Text.space] := by
        intro c hc
        rw [List.mem_singleton.mp hc]
        decide
      rw [List.map_cons, List.map_cons, List.intercalate_cons_cons]
      exact List.forall_mem_append.mpr ⟨List.forall_mem_append.mpr ⟨hd.plain, hspace⟩, ih hds⟩

/-- Directives that are written with a space between each two are read again. -/
theorem parseAll_joined {ds : List Directive} (hds : ∀ d ∈ ds, Written d d.render) :
    parseAll (Text.significant ([Text.space].intercalate (ds.map render))) = ds := by
  have hspace : Text.isSeparator Text.space = true := by decide
  have hgap : ∀ c ∈ ([] : Text), Text.isSeparator c = true := List.forall_mem_nil _
  rw [Text.significant_of_plain (plain_joined hds)]
  induction ds with
  | nil => rfl
  | cons d ds ih =>
    obtain ⟨hd, hds⟩ := List.forall_mem_cons.mp hds
    cases ds with
    | nil =>
      have hstop : Text.StopsDirective [] := by simp [Text.StopsDirective]
      have hfirst := hd.parseFirst hgap hstop
      rw [List.nil_append, List.append_nil] at hfirst
      rw [List.map_singleton, List.intercalate_singleton, parseAll_of_some hfirst]
      rfl
    | cons d' ds =>
      have hstop : Text.StopsDirective
          (Text.space :: [Text.space].intercalate ((d' :: ds).map render)) := by
        intro c hc
        rwa [← Option.some.inj hc]
      have hfirst := hd.parseFirst hgap hstop
      rw [List.nil_append] at hfirst
      rw [List.map_cons, List.map_cons, List.intercalate_cons_cons, List.append_assoc,
        List.singleton_append, ← List.map_cons, parseAll_of_some hfirst, parseAll_separator hspace,
        ih hds]

/-- The letter of a segment end cuts the directives of a text in two. -/
theorem parseAll_append (t u : Text) :
    parseAll (t ++ Text.byte 'Z' :: u) = parseAll t ++ .segmentEnd :: parseAll u := by
  induction hn : t.length using Nat.strongRecOn generalizing t with
  | ind n ih =>
    cases hfirst : parseFirst t with
    | none =>
      rw [parseAll_of_some (parseFirst_append_of_none hfirst u), parseAll_of_none hfirst,
        List.nil_append]
    | some r =>
      obtain ⟨d, rest⟩ := r
      obtain ⟨hlt, happend⟩ := parseFirst_append hfirst
      rw [parseAll_of_some (happend u), parseAll_of_some hfirst,
        ih rest.length (hn ▸ hlt) rest rfl, List.cons_append]

end Directive

namespace Assembler

/-- A segment end that is accepted leaves a fresh assembler, and what follows it is carried out by
that. -/
theorem emitAll_segmentEnd {ds : List Directive} {s s' : Assembler}
    (h : emitAll (ds ++ [.segmentEnd]) s = .ok () s') :
    s' = s'.fresh ∧ ∀ later, emitAll (ds ++ .segmentEnd :: later) s = emitAll later s' := by
  obtain ⟨s₁, hfirst, hend⟩ := emitAll_append_eq_ok_iff.mp h
  have hemit : emit .segmentEnd s₁ = .ok () s' := by
    simp only [emitAll, Action.bind_apply] at hend
    cases hstep : emit .segmentEnd s₁ with
    | ok u s₂ =>
      rw [hstep] at hend
      exact hend
    | error e s₂ =>
      rw [hstep] at hend
      cases hend
  constructor
  · rw [emit_segmentEnd_eq] at hemit
    split at hemit
    · cases hemit
    · cases hemit
      rfl
  · intro later
    rw [emitAll_append, Action.bind_apply, hfirst]
    simp only [emitAll, Action.bind_apply, hemit]

/-- Assembling starts with fresh labels and a fresh word. -/
theorem assemble_congr {s s' : Assembler} (hmemory : s.memory = s'.memory)
    (hlomem : s.lomem = s'.lomem) (t : Text) (readError : Option HostError) :
    assemble t readError s = assemble t readError s' := by
  rw [assemble_eq, assemble_eq, fresh, hmemory, hlomem]
  rfl

/-- Segments compose. If a text that does not end inside a comment is accepted with the letter of a
segment end after it, then assembling both it and another text as one gives the same memory, the
same end of the code and the same error as assembling the other text afterwards, be it with the same
assembler or with a new one. Loading the texts into a machine one after the other is loading them as
one. -/
theorem segments_compose {t : Text} (ht : ¬ t.EndsInComment) {s s' : Assembler}
    (haccepts : assemble (t ++ [Text.byte 'Z']) none s = .ok () s') (u : Text)
    (readError : Option HostError) :
    assemble (t ++ Text.byte 'Z' :: u) readError s = assemble u readError s' ∧
      assemble u readError s' =
        assemble u readError { memory := s'.memory, lomem := s'.lomem } ∧
      ∀ (m : Machine) (name : Text), m.memory = s.memory → m.lomem = s.lomem →
        ∃ m', Machine.load name (t ++ [Text.byte 'Z']) none m = .ok () m' ∧
          Machine.load name (t ++ Text.byte 'Z' :: u) readError m =
            Machine.load name u readError m' := by
  have hparse (u : Text) : Directive.parseAll (t ++ Text.byte 'Z' :: u).significant =
      Directive.parseAll t.significant ++ .segmentEnd :: Directive.parseAll u.significant := by
    rw [Text.significant_append ht, Directive.parseAll_append]
  obtain ⟨-, hrun⟩ := (assemble_eq_ok_iff ..).mp haccepts
  rw [hparse] at hrun
  obtain ⟨hfresh, hlater⟩ := emitAll_segmentEnd hrun
  have hboth : assemble (t ++ Text.byte 'Z' :: u) readError s = assemble u readError s' := by
    rw [assemble_eq, assemble_eq, hparse, hlater, ← hfresh]
  have hnew : assemble u readError s' =
      assemble u readError { memory := s'.memory, lomem := s'.lomem } :=
    assemble_congr rfl rfl u readError
  refine ⟨hboth, hnew, fun m name hmemory hlomem => ?_⟩
  have hstart (v : Text) (e : Option HostError) :
      assemble v e { memory := m.memory, lomem := m.lomem } = assemble v e s :=
    assemble_congr hmemory hlomem v e
  refine ⟨{ m with memory := s'.memory, lomem := s'.lomem }, ?_, ?_⟩
  · simp only [Machine.load, hstart, haccepts]
  · simp only [Machine.load, hstart, hboth, hnew]

/-- A label, a byte that waits for its neighbour and a comment stand before the end of a segment.
After it the same label is defined again, the next byte gets a word of its own, and then there is a
global without a label. -/
theorem segments_compose_packed :
    let s : Assembler := { memory := .blank 1000, lomem := 401 }
    ¬ Text.EndsInComment (Text.ofAscii "1 C65/a\n") ∧
      ∃ s', assemble (Text.ofAscii "1 C65/a\nZ") none s = .ok () s' ∧
        assemble (Text.ofAscii "1 C65/a\nZC66 1 G1") none s =
          assemble (Text.ofAscii "C66 1 G1") none s' ∧
        ∃ s'', assemble (Text.ofAscii "1 C65/a\nZC66 1 G1") none s =
          .error (.report (.fatal .badCode 403)) s'' := by
  intro s
  have hcomment : ¬ Text.EndsInComment (Text.ofAscii "1 C65/a\n") := by decide
  have hlomem : (assemble (Text.ofAscii "1 C65/a\nZ") none).after? lomem s = some 402 := by
    decide +kernel
  have hfails : (match assemble (Text.ofAscii "1 C65/a\nZC66 1 G1") none s with
      | .error e _ => some e
      | .ok _ _ => none) = some (.report (.fatal .badCode 403)) := by decide +kernel
  obtain ⟨s', haccepts, -⟩ := Action.after?_eq_some_iff.mp hlomem
  refine ⟨hcomment, s', haccepts,
    (segments_compose hcomment haccepts (Text.ofAscii "C66 1 G1") none).1, ?_⟩
  cases hrun : assemble (Text.ofAscii "1 C65/a\nZC66 1 G1") none s with
  | ok _ s'' =>
    rw [hrun] at hfails
    cases hfails
  | error e s'' =>
    rw [hrun] at hfails
    cases hfails
    exact ⟨s'', rfl⟩

end Assembler

end Intcode
