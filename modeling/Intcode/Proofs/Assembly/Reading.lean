import Intcode.Proofs.Assembly.Segments

/-!
# Spelling of directives

A directive can be spelled in many ways: numbers may have leading zeros or be
larger than a cell, and any run of separators may follow. This file says which
texts spell which directives, without reference to the reader, and proves that
reading a text gives the directives that it spells.
-/

namespace Intcode

namespace Text

/-- The texts that spell a number: digits, of which there may be none, with a minus sign
before them or not. -/
inductive IsNumeral : Cell → Text → Prop
  | digits {t : Text} (ht : ∀ c ∈ t, isDigit c = true) : IsNumeral (digitsValue t) t
  | negated {t : Text} (ht : ∀ c ∈ t, isDigit c = true) :
      IsNumeral (-digitsValue t) (byte '-' :: t)

/-- A byte that goes on with a number. -/
def inNumeral (c : UInt8) : Bool := isDigit c || c = byte '-'

/-- A text that a number ends before. -/
def StopsNumeral (t : Text) : Prop := ∀ c ∈ t.head?, inNumeral c = false

/-- A text that a directive ends before: it is empty, or a separator comes first. -/
def StopsDirective (t : Text) : Prop := ∀ c ∈ t.head?, isSeparator c = true

/-- A separator does not go on with a number. -/
theorem inNumeral_of_isSeparator {c : UInt8} (h : isSeparator c = true) : inNumeral c = false := by
  simp only [isSeparator, Bool.or_eq_true, decide_eq_true_eq] at h
  rcases h with (rfl | rfl) | rfl <;> decide

/-- Where a directive ends a number does. -/
theorem StopsDirective.stopsNumeral {t : Text} (h : StopsDirective t) : StopsNumeral t :=
  fun c hc => inNumeral_of_isSeparator (h c hc)

/-- Digits are read up to the first other byte. -/
theorem span_digits {t rest : Text} (ht : ∀ c ∈ t, isDigit c = true) (hrest : StopsNumeral rest) :
    (t ++ rest).takeWhile isDigit = t ∧ (t ++ rest).dropWhile isDigit = rest := by
  rw [List.takeWhile_append_of_pos ht, List.dropWhile_append_of_pos ht]
  cases rest with
  | nil => simp
  | cons c rest =>
    have hc : isDigit c = false := (Bool.or_eq_false_iff.mp (hrest c rfl)).1
    simp [hc]

/-- The first byte of a number, or what follows it at once, is no letter. -/
theorem IsNumeral.head {v : Cell} {t rest : Text} (ht : IsNumeral v t) {c : UInt8}
    (hc : c ∈ (t ++ rest).head?) : inNumeral c = true ∨ t = [] ∧ c ∈ rest.head? := by
  cases ht with
  | digits ht =>
    cases t with
    | nil => exact .inr ⟨rfl, hc⟩
    | cons d t =>
      obtain rfl : d = c := Option.some.inj hc
      exact .inl (by rw [inNumeral, ht d List.mem_cons_self, Bool.true_or])
  | negated ht =>
    obtain rfl : byte '-' = c := Option.some.inj hc
    exact .inl (by decide)

/-- A number is read up to the first byte that cannot go on with it. -/
theorem numeral_append {v : Cell} {t rest : Text} (ht : IsNumeral v t)
    (hrest : StopsNumeral rest) : numeral (t ++ rest) = (v, rest) := by
  cases ht with
  | digits ht =>
    obtain ⟨htake, hdrop⟩ := span_digits ht hrest
    have hunsigned : ∀ c ∈ (t ++ rest).head?, c ≠ byte '-' := by
      rintro c hc rfl
      cases t with
      | nil => exact absurd (hrest _ hc) (by decide)
      | cons d t =>
        obtain rfl := Option.some.inj hc
        exact absurd (ht _ List.mem_cons_self) (by decide)
    unfold numeral
    cases happend : t ++ rest with
    | cons c u =>
      rw [happend] at htake hdrop hunsigned
      simp only [if_neg (hunsigned c rfl), htake, hdrop]
    | nil =>
      rw [List.append_eq_nil_iff] at happend
      rw [happend.1, happend.2]
      rfl
  | negated ht =>
    obtain ⟨htake, hdrop⟩ := span_digits ht hrest
    simp only [numeral, List.cons_append, if_true, htake, hdrop]

/-- A text without bytes that start a comment or read as others. -/
def Plain (t : Text) : Prop := ∀ c ∈ t, foldReturn c = c ∧ c ≠ slash

/-- The bytes of a number are plain. -/
theorem IsNumeral.plain {v : Cell} {t : Text} (ht : IsNumeral v t) : t.Plain := by
  have hdigit {c : UInt8} (hc : isDigit c = true) : foldReturn c = c ∧ c ≠ slash := by
    refine ⟨if_neg ?_, ?_⟩ <;> (rintro rfl; exact absurd hc (by decide))
  cases ht with
  | digits ht => exact fun c hc => hdigit (ht c hc)
  | negated ht => exact List.forall_mem_cons.mpr ⟨by decide, fun c hc => hdigit (ht c hc)⟩

/-- The bytes of a number go on with it. -/
theorem IsNumeral.inNumeral_of_mem {v : Cell} {t : Text} (ht : IsNumeral v t) {c : UInt8}
    (hc : c ∈ t) : inNumeral c = true := by
  cases ht with
  | digits ht => rw [inNumeral, ht c hc, Bool.true_or]
  | negated ht =>
    rcases List.mem_cons.mp hc with rfl | hc
    · decide
    · rw [inNumeral, ht c hc, Bool.true_or]

/-- Nothing is stripped before the first comment. -/
theorem stripComments_append {t : Text} (h : slash ∉ t) (u : Text) :
    stripComments .code (t ++ u) = t ++ stripComments .code u := by
  induction t with
  | nil => rfl
  | cons c t ih =>
    rw [List.mem_cons, not_or] at h
    rw [List.cons_append, stripComments, if_neg (Ne.symm h.1), ih h.2, List.cons_append]

/-- Nothing is stripped from a text in which no comment starts. -/
theorem stripComments_of_not_mem {t : Text} (h : slash ∉ t) : stripComments .code t = t := by
  simpa [stripComments] using stripComments_append h []

/-- The significant bytes of a plain text are all of them. -/
theorem significant_of_plain {t : Text} (h : t.Plain) : t.significant = t := by
  have hfold : t.map foldReturn = t := by
    rw [List.map_congr_left (g := id) fun c hc => (h c hc).1, List.map_id]
  rw [significant, hfold]
  exact stripComments_of_not_mem fun hslash => (h slash hslash).2 rfl

/-- A comment is stripped up to the end of its line. -/
theorem stripComments_comment {t : Text} (h : lineFeed ∉ t) (u : Text) :
    stripComments .comment (t ++ lineFeed :: u) = stripComments .lineEnd u := by
  induction t with
  | nil => rfl
  | cons c t ih =>
    rw [List.mem_cons, not_or] at h
    rw [List.cons_append, stripComments, if_neg (Ne.symm h.1), ih h.2]

/-- After a comment a line that is not empty is like any other. -/
theorem stripComments_lineEnd {t : Text} (h : ∀ c ∈ t.head?, c ≠ lineFeed) :
    stripComments .lineEnd t = stripComments .code t := by
  cases t with
  | nil => rfl
  | cons c t =>
    have hc : c ≠ lineFeed := h c rfl
    simp only [stripComments, if_neg hc]

/-- What is left of a text without its comments are bytes of the text, and none starts a
comment. -/
theorem mem_stripComments {scan : CommentScan} {t : Text} {c : UInt8}
    (hc : c ∈ stripComments scan t) : c ∈ t ∧ c ≠ slash := by
  fun_induction stripComments scan t with grind

/-- Significant bytes are neither carriage returns nor part of comments. -/
theorem plain_significant (t : Text) : t.significant.Plain := by
  intro c hc
  obtain ⟨hmem, hslash⟩ := mem_stripComments hc
  obtain ⟨d, -, rfl⟩ := List.mem_map.mp hmem
  refine ⟨?_, hslash⟩
  unfold foldReturn
  split <;> rfl

/-- Only significant bytes are left of the significant bytes of a text. -/
theorem significant_significant (t : Text) : t.significant.significant = t.significant :=
  significant_of_plain (plain_significant t)

/-- A byte that a text starts with is accepted. -/
theorem accept_cons (c : UInt8) (t : Text) : accept c (c :: t) = (true, t) := if_pos rfl

/-- A byte that a text does not start with is not accepted. -/
theorem accept_of_ne {c : UInt8} {t : Text} (h : ∀ d ∈ t.head?, d ≠ c) :
    accept c t = (false, t) := by
  cases t with
  | nil => rfl
  | cons d t => exact if_neg (h d rfl)

end Text

/-- The texts that spell an operand. -/
inductive Operand.Written : Operand → Text → Prop
  | number {v t} (ht : Text.IsNumeral v t) : Written (.number v) t
  | label {n t} (ht : Text.IsNumeral n t) : Written (.label n) (Text.byte 'L' :: t)

/-- The texts that spell a directive. Only a label begins with a digit. -/
inductive Directive.Written : Directive → Text → Prop
  | label {n c t} (hc : Text.isDigit c = true) (ht : Text.IsNumeral n (c :: t)) :
      Written (.label n) (c :: t)
  | instruction {opcode marked operand t} (ht : operand.Written t) :
      Written (.instruction opcode marked operand)
        (opcode.letters ++ (if marked then [Text.byte 'G'] else []) ++ t)
  | byte {v t} (ht : Text.IsNumeral v t) : Written (.byte v) (Text.byte 'C' :: t)
  | word {operand t} (ht : operand.Written t) : Written (.word operand) (Text.byte 'D' :: t)
  | global {n l t u} (ht : Text.IsNumeral n t) (hu : Text.IsNumeral l u) :
      Written (.global n l) (Text.byte 'G' :: t ++ Text.byte 'L' :: u)
  | segmentEnd : Written .segmentEnd [Text.byte 'Z']

/-- The texts that spell directives, each followed by one separator or more. A carriage
return counts as a line feed. -/
inductive Directive.WrittenAll : List Directive → Text → Prop
  | nil : WrittenAll [] []
  | cons {d ds t gap u} (ht : Written d t) (hgap : gap ≠ [])
      (hseparators : ∀ c ∈ gap, Text.isSeparator (Text.foldReturn c) = true)
      (hu : WrittenAll ds u) : WrittenAll (d :: ds) (t ++ gap ++ u)

namespace Operand

/-- The first byte of an operand, or what follows it at once, is none of the letters before
an operand. -/
theorem Written.head {operand : Operand} {t rest : Text} (ht : operand.Written t)
    (hrest : Text.StopsDirective rest) {c : UInt8} (hc : c ∈ (t ++ rest).head?) :
    c ≠ Text.byte 'I' ∧ c ≠ Text.byte 'P' ∧ c ≠ Text.byte 'G' := by
  cases ht with
  | label ht =>
    obtain rfl : Text.byte 'L' = c := Option.some.inj hc
    decide
  | number ht =>
    rcases ht.head hc with hnumeral | ⟨-, hc⟩
    · refine ⟨?_, ?_, ?_⟩ <;> (rintro rfl; exact absurd hnumeral (by decide))
    · have hseparator := hrest c hc
      refine ⟨?_, ?_, ?_⟩ <;> (rintro rfl; exact absurd hseparator (by decide))

/-- The bytes of an operand are plain. -/
theorem Written.plain {operand : Operand} {t : Text} (ht : operand.Written t) : t.Plain := by
  cases ht with
  | number ht => exact ht.plain
  | label ht => exact List.forall_mem_cons.mpr ⟨by decide, ht.plain⟩

/-- An operand is read up to the end of its directive. -/
theorem parse_append {operand : Operand} {t rest : Text} (ht : operand.Written t)
    (hrest : Text.StopsDirective rest) : parse (t ++ rest) = (operand, rest) := by
  cases ht with
  | label ht =>
    simp only [parse, List.cons_append, Text.accept_cons,
      Text.numeral_append ht hrest.stopsNumeral, if_true]
  | number ht =>
    have hletter : ∀ c ∈ (t ++ rest).head?, c ≠ Text.byte 'L' := by
      rintro c hc rfl
      rcases ht.head hc with hnumeral | ⟨-, hc⟩
      · exact absurd hnumeral (by decide)
      · exact absurd (hrest _ hc) (by decide)
    simp only [parse, Text.accept_of_ne hletter, Text.numeral_append ht hrest.stopsNumeral,
      Bool.false_eq_true, if_false]

end Operand

namespace Directive

/-- The letter of a function starts an instruction. -/
theorem parseFrom_letter (f : Function) (t : Text) :
    parseFrom f.letter t = parseInstruction f t := by
  cases f <;> rfl

/-- The letters before an operand are told apart from it. -/
theorem parseInstruction_append {f : Function} {indirect framed marked : Bool} {operand : Operand}
    {t rest : Text} (ht : operand.Written t) (hrest : Text.StopsDirective rest) :
    parseInstruction f ((if indirect then [Text.byte 'I'] else []) ++
      ((if framed then [Text.byte 'P'] else []) ++
        ((if marked then [Text.byte 'G'] else []) ++ (t ++ rest)))) =
      (.instruction ⟨f, indirect, framed⟩ marked operand, rest) := by
  have hoperand := Operand.parse_append ht hrest
  have hG : Text.accept (Text.byte 'G') (t ++ rest) = (false, t ++ rest) :=
    Text.accept_of_ne fun c hc => (ht.head hrest hc).2.2
  have hP : Text.accept (Text.byte 'P') (t ++ rest) = (false, t ++ rest) :=
    Text.accept_of_ne fun c hc => (ht.head hrest hc).2.1
  have hI : Text.accept (Text.byte 'I') (t ++ rest) = (false, t ++ rest) :=
    Text.accept_of_ne fun c hc => (ht.head hrest hc).1
  have hother {c d : UInt8} (hne : d ≠ c) (u : Text) : Text.accept c (d :: u) = (false, d :: u) :=
    if_neg hne
  cases indirect <;> cases framed <;> cases marked <;>
    simp [parseInstruction, Text.accept_cons, hG, hP, hI, hoperand,
      hother (show Text.byte 'G' ≠ Text.byte 'I' by decide),
      hother (show Text.byte 'P' ≠ Text.byte 'I' by decide),
      hother (show Text.byte 'G' ≠ Text.byte 'P' by decide)]

/-- A spelled directive is read up to its end. -/
theorem Written.parseFrom {d : Directive} {t rest : Text} (ht : Written d t)
    (hrest : Text.StopsDirective rest) :
    ∃ c u, t = c :: u ∧ Text.isSeparator c = false ∧
      Directive.parseFrom c (u ++ rest) = (d, rest) := by
  have hstop := hrest.stopsNumeral
  cases ht with
  | @label n c u hc ht =>
    refine ⟨c, u, rfl, ?_, ?_⟩
    · cases hseparator : Text.isSeparator c with
      | false => rfl
      | true =>
        have hnumeral := Text.inNumeral_of_isSeparator hseparator
        rw [Text.inNumeral, hc, Bool.true_or] at hnumeral
        cases hnumeral
    · have hread := Text.numeral_append ht hstop
      rw [List.cons_append] at hread
      simp only [Directive.parseFrom, if_pos hc, hread]
  | @instruction opcode marked operand u ht =>
    obtain ⟨f, indirect, framed⟩ := opcode
    refine ⟨f.letter, (if indirect then [Text.byte 'I'] else []) ++
      ((if framed then [Text.byte 'P'] else []) ++
        ((if marked then [Text.byte 'G'] else []) ++ u)), ?_, by cases f <;> decide, ?_⟩
    · simp only [Opcode.letters, List.append_assoc, List.cons_append, List.nil_append]
    · simp only [parseFrom_letter, List.append_assoc]
      exact parseInstruction_append ht hrest
  | byte ht =>
    refine ⟨_, _, rfl, by decide, ?_⟩
    have hread := Text.numeral_append ht hstop
    simp [Directive.parseFrom, hread, show Text.isDigit (Text.byte 'C') = false by decide]
  | word ht =>
    refine ⟨_, _, rfl, by decide, ?_⟩
    have hread := Operand.parse_append ht hrest
    simp [Directive.parseFrom, hread, show Text.isDigit (Text.byte 'D') = false by decide,
      show ¬ Text.byte 'D' = Text.byte 'C' by decide]
  | @global n l u v ht hu =>
    have hletter : Text.StopsNumeral (Text.byte 'L' :: (v ++ rest)) := by
      intro c hc
      obtain rfl := Option.some.inj hc
      decide
    have hread := Text.numeral_append ht hletter
    have hread' := Text.numeral_append hu hstop
    refine ⟨Text.byte 'G', u ++ Text.byte 'L' :: v, rfl, by decide, ?_⟩
    change parseGlobal _ = _
    simp only [parseGlobal, List.append_assoc, List.cons_append, hread, Text.accept_cons, if_true,
      hread']
  | segmentEnd => exact ⟨_, _, rfl, by decide, rfl⟩

/-- A spelled directive is the first of a text that starts with it, after separators. -/
theorem Written.parseFirst {d : Directive} {gap t rest : Text} (ht : Written d t)
    (hgap : ∀ c ∈ gap, Text.isSeparator c = true) (hrest : Text.StopsDirective rest) :
    Directive.parseFirst (gap ++ (t ++ rest)) = some (d, rest) := by
  obtain ⟨c, u, rfl, hc, hparse⟩ := ht.parseFrom hrest
  simp only [Directive.parseFirst, List.dropWhile_append_of_pos hgap, List.cons_append,
    List.dropWhile_cons, hc, Bool.false_eq_true, if_false, hparse]

/-- No byte of a spelled directive starts a comment or reads as another byte. -/
theorem Written.plain {d : Directive} {t : Text} (ht : Written d t) : t.Plain := by
  have hcons {c : UInt8} {u : Text} (hc : Text.foldReturn c = c ∧ c ≠ Text.slash) (hu : u.Plain) :
      Text.Plain (c :: u) := List.forall_mem_cons.mpr ⟨hc, hu⟩
  have happend {u v : Text} (hu : u.Plain) (hv : v.Plain) : Text.Plain (u ++ v) :=
    List.forall_mem_append.mpr ⟨hu, hv⟩
  cases ht with
  | label _ ht => exact ht.plain
  | @instruction opcode marked operand u ht =>
    obtain ⟨f, indirect, framed⟩ := opcode
    have hletters : ((Opcode.letters ⟨f, indirect, framed⟩ ++
        if marked then [Text.byte 'G'] else []).all fun c =>
          Text.foldReturn c = c ∧ c ≠ Text.slash) = true := by
      cases f <;> cases indirect <;> cases framed <;> cases marked <;> decide
    exact happend (fun c hc => of_decide_eq_true (List.all_eq_true.mp hletters c hc)) ht.plain
  | byte ht => exact hcons (by decide) ht.plain
  | word ht => exact hcons (by decide) ht.plain
  | global ht hu => exact happend (hcons (by decide) ht.plain) (hcons (by decide) hu.plain)
  | segmentEnd => exact hcons (by decide) (by simp [Text.Plain])

/-- Only directives that the assembler knows are spelled. -/
theorem Written.isComplete {d : Directive} {t : Text} (ht : Written d t) : d.IsComplete := by
  cases ht <;> trivial

/-- The directives of a spelled text are those that the assembler knows. -/
theorem WrittenAll.isComplete {ds : List Directive} {t : Text} (ht : WrittenAll ds t) :
    ∀ d ∈ ds, d.IsComplete := by
  induction ht with
  | nil => simp
  | cons ht _ _ _ ih => exact List.forall_mem_cons.mpr ⟨ht.isComplete, ih⟩

/-- The significant bytes of a spelled text are all of them. -/
theorem WrittenAll.significant {ds : List Directive} {t : Text} (ht : WrittenAll ds t) :
    t.significant = t.map Text.foldReturn := by
  refine Text.stripComments_of_not_mem ?_
  induction ht with
  | nil => simp
  | @cons d ds t gap u ht hgap hseparators hu ih =>
    simp only [List.map_append, List.mem_append, List.mem_map, not_or, not_exists, not_and]
    refine ⟨⟨fun c hc => ?_, fun c hc hslash => ?_⟩, ?_⟩
    · rw [(ht.plain c hc).1]
      exact (ht.plain c hc).2
    · exact absurd (hslash ▸ hseparators c hc) (by decide)
    · simpa using ih

/-- Reading gives the directives that a text spells, if it may read that many. -/
theorem WrittenAll.parseUpTo {ds : List Directive} {t : Text} (ht : WrittenAll ds t) :
    ∀ (gap : Text) {n : Nat}, (∀ c ∈ gap, Text.isSeparator c = true) → ds.length ≤ n →
      Directive.parseUpTo n (gap ++ t.map Text.foldReturn) = ds := by
  induction ht with
  | nil =>
    intro gap n hgap _
    cases n with
    | zero => rfl
    | succ n =>
      simp only [Directive.parseUpTo, Directive.parseFirst, List.dropWhile_append_of_pos hgap,
        List.map_nil, List.dropWhile_nil]
  | @cons d ds t gap' u ht hgap' hseparators hu ih =>
    intro gap n hgap hn
    have hplain : t.map Text.foldReturn = t := by
      rw [List.map_congr_left (g := id) fun c hc => (ht.plain c hc).1, List.map_id]
    have hseparators' : ∀ c ∈ gap'.map Text.foldReturn, Text.isSeparator c = true := by
      simpa using hseparators
    have hstop : Text.StopsDirective (gap'.map Text.foldReturn ++ u.map Text.foldReturn) := by
      obtain ⟨c, gap', rfl⟩ := List.exists_cons_of_ne_nil hgap'
      intro c' hc'
      obtain rfl := Option.some.inj hc'
      exact hseparators' _ List.mem_cons_self
    cases n with
    | zero => simp at hn
    | succ n =>
      rw [List.map_append, List.map_append, hplain, List.append_assoc, Directive.parseUpTo,
        ht.parseFirst hgap hstop]
      simp only [ih _ hseparators' (Nat.le_of_succ_le_succ hn)]

/-- A text is read as the directives that it spells. -/
theorem WrittenAll.parseAll {ds : List Directive} {t : Text} (ht : WrittenAll ds t) :
    Directive.parseAll t.significant = ds := by
  have hlength : ds.length ≤ t.length := by
    induction ht with
    | nil => simp
    | cons ht hgap _ _ ih =>
      have hpos := List.length_pos_iff.mpr hgap
      simp only [List.length_append, List.length_cons]
      omega
  rw [ht.significant, Directive.parseAll, List.length_map]
  exact ht.parseUpTo [] (by simp) hlength

end Directive

section Rendering

/-- The byte of a decimal digit. -/
theorem Text.byte_digitChar {d : Nat} (hd : d < 10) :
    isDigit (byte d.digitChar) = true ∧ (byte d.digitChar).toNat - 48 = d := by
  revert d
  decide

/-- The decimal digits of a natural number spell it. -/
theorem Text.digitsValue_ofNat (n : Nat) :
    (∀ c ∈ ofNat n, isDigit c = true) ∧ ofNat n ≠ [] ∧ digitsValue (ofNat n) = Cell.ofNat n := by
  induction n using Nat.strongRecOn with
  | ind n ih =>
    unfold ofNat
    rw [Nat.toDigits_eq_if (by omega)]
    by_cases hn : n < 10
    · obtain ⟨hdigit, hvalue⟩ := byte_digitChar hn
      rw [if_pos hn]
      refine ⟨by simpa using hdigit, by simp, ?_⟩
      simp [digitsValue, hvalue]
    · obtain ⟨hdigit, hvalue⟩ := byte_digitChar (Nat.mod_lt n (show 0 < 10 by omega))
      obtain ⟨hdigits, -, hrest⟩ := ih (n / 10) (by omega)
      rw [if_neg hn]
      refine ⟨?_, by simp, ?_⟩
      · rw [List.map_append]
        exact List.forall_mem_append.mpr ⟨hdigits, by simpa using hdigit⟩
      · unfold ofNat digitsValue at hrest
        simp only [List.map_append, List.map_cons, List.map_nil, digitsValue, List.foldl_append,
          List.foldl_cons, List.foldl_nil, hrest, hvalue]
        apply BitVec.eq_of_toNat_eq
        simp [BitVec.toNat_add, BitVec.toNat_mul]
        omega

/-- A cell in decimal spells its value. -/
theorem Cell.isNumeral_decimal (v : Cell) : Text.IsNumeral v v.decimal := by
  have hvalue : BitVec.ofInt 16 v.toInt = v := BitVec.ofInt_toInt
  unfold decimal Text.ofInt
  cases hn : v.toInt with
  | ofNat n =>
    obtain ⟨hdigits, -, hsum⟩ := Text.digitsValue_ofNat n
    have hself : Text.digitsValue (Text.ofNat n) = v := by
      rw [hsum, ← hvalue, hn]
      exact (BitVec.ofInt_natCast 16 n).symm
    exact hself ▸ .digits hdigits
  | negSucc n =>
    obtain ⟨hdigits, -, hsum⟩ := Text.digitsValue_ofNat (n + 1)
    have hself : -Text.digitsValue (Text.ofNat (n + 1)) = v := by
      rw [hsum, ← hvalue, hn, Int.negSucc_eq, BitVec.ofInt_neg]
      exact congrArg _ (BitVec.ofInt_natCast 16 (n + 1)).symm
    exact hself ▸ .negated hdigits

/-- An operand is spelled as it is written. -/
theorem Operand.written_render (operand : Operand) : operand.Written operand.render := by
  cases operand with
  | number v => exact .number v.isNumeral_decimal
  | label n => exact .label n.isNumeral_decimal

/-- A directive is spelled as it is written, unless it defines a label with a negative number. -/
theorem Directive.written_render {d : Directive} (hd : d.IsComplete)
    (hlabel : ∀ n ∈ d.definition?, 0 ≤ n.toInt) : Written d d.render := by
  cases d with
  | label n =>
    obtain ⟨i, hi⟩ := Int.eq_ofNat_of_zero_le (hlabel n rfl)
    obtain ⟨hdigits, hne, -⟩ := Text.digitsValue_ofNat i
    have hdecimal : n.decimal = Text.ofNat i := by
      rw [Cell.decimal, hi]
      rfl
    obtain ⟨c, t, ht⟩ := List.exists_cons_of_ne_nil hne
    have hspelled := n.isNumeral_decimal
    rw [hdecimal, ht] at hspelled
    rw [render, hdecimal, ht]
    exact .label (hdigits c (ht ▸ List.mem_cons_self)) hspelled
  | instruction opcode marked operand => exact .instruction operand.written_render
  | byte v => exact .byte v.isNumeral_decimal
  | word operand => exact .word operand.written_render
  | global n l => exact .global n.isNumeral_decimal l.isNumeral_decimal
  | openGlobal n => exact absurd hd id
  | segmentEnd => exact .segmentEnd
  | unknown c => exact absurd hd id

/-- Directives that are written with a space after each are spelled so. -/
theorem Directive.writtenAll_render {ds : List Directive} (hds : ∀ d ∈ ds, d.IsComplete)
    (hlabels : ∀ n ∈ definitions ds, 0 ≤ n.toInt) :
    WrittenAll ds (ds.flatMap fun d => d.render ++ [Text.space]) := by
  induction ds with
  | nil => exact .nil
  | cons d ds ih =>
    rw [definitions_cons] at hlabels
    obtain ⟨hd, hds⟩ := List.forall_mem_cons.mp hds
    obtain ⟨hlabel, hlabels⟩ := List.forall_mem_append.mp hlabels
    have hwritten := written_render hd fun n hn => hlabel n (Option.mem_toList.mpr hn)
    have hspace : ∀ c ∈ [Text.space], Text.isSeparator (Text.foldReturn c) = true := by
      intro c hc
      rw [List.mem_singleton.mp hc]
      decide
    exact .cons hwritten (by simp) hspace (ih hds hlabels)

end Rendering

end Intcode
