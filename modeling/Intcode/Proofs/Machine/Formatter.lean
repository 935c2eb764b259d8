import Intcode.Proofs.Machine.Accesses
import Intcode.Proofs.Machine.Format

/-!
# Formats written out

A format is taken apart by a reader that remembers what it has just passed, and each piece
is written before the argument of the next one is looked at. Here the language of formats is
a grammar, each directive has its text by the rules for its letter, and the whole
output is put together before any of it is written.

Main statement: writing a format is writing that output byte by byte, and then failing if an
argument, or the string it points to, is not in the memory.
-/

namespace Intcode

/-- The letter of a directive that takes a width. -/
def Conversion.letter : Conversion → UInt8
  | .octal => Text.byte 'o'
  | .hex => Text.byte 'x'
  | .decimal => Text.byte 'i'

/-- The digits of a number at the lowest places, the highest place first. -/
def Text.placeDigits (base places n : Nat) : Text :=
  (List.range places).reverse.map fun i => digit (n / Nat.pow base i % base)

/-- The text of a number in a width. Octal and hexadecimal take at least one place, and decimal is
right justified. -/
def Conversion.spelled (width : Nat) (w : Cell) : Conversion → Text
  | .octal => Text.placeDigits 8 (max width 1) w.toNat
  | .hex => Text.placeDigits 16 (max width 1) w.toNat
  | .decimal => List.replicate (width - w.decimal.length) Text.space ++ w.decimal

namespace FormatPiece

/-- The width that a byte stands for: the value of the digit that it is, and else zero. -/
inductive Width : UInt8 → Nat → Prop
  | digit {d : Nat} (hd : d < 36) : Width (Text.digit d) d
  | other {c : UInt8} (hc : ∀ d < 36, c ≠ Text.digit d) : Width c 0

/-- The pieces of a format. -/
inductive Splits : Text → List FormatPiece → Prop
  | nil : Splits [] []
  /-- A percent sign at the end stands for nothing. -/
  | lone : Splits [Text.byte '%'] []
  | literal {c : UInt8} {t : Text} {pieces : List FormatPiece} (hc : c ≠ Text.byte '%')
      (h : Splits t pieces) : Splits (c :: t) (.literal c :: pieces)
  | string {t : Text} {pieces : List FormatPiece} (h : Splits t pieces) :
      Splits (Text.byte '%' :: Text.byte 's' :: t) (.string :: pieces)
  | character {t : Text} {pieces : List FormatPiece} (h : Splits t pieces) :
      Splits (Text.byte '%' :: Text.byte 'c' :: t) (.character :: pieces)
  | number {t : Text} {pieces : List FormatPiece} (h : Splits t pieces) :
      Splits (Text.byte '%' :: Text.byte 'n' :: t) (.number .decimal 0 :: pieces)
  | width {k : Conversion} {c : UInt8} {n : Nat} {t : Text} {pieces : List FormatPiece}
      (hc : Width c n) (h : Splits t pieces) :
      Splits (Text.byte '%' :: k.letter :: c :: t) (.number k n :: pieces)
  /-- A width that is missing is zero. -/
  | noWidth (k : Conversion) : Splits [Text.byte '%', k.letter] [.number k 0]
  /-- A byte that names no directive stands for itself. -/
  | escaped {c : UInt8} {t : Text} {pieces : List FormatPiece}
      (hc : c ∉ Text.ofAscii "scoxin") (h : Splits t pieces) :
      Splits (Text.byte '%' :: c :: t) (.literal c :: pieces)

/-- The text of a directive with an argument. -/
inductive Spells (m : Memory) (w : Cell) : FormatPiece → Text → Prop
  | string {t : Text} (h : m.string w.address = .ok t) : Spells m w .string t
  | character : Spells m w .character [w.low]
  | number (k : Conversion) (width : Nat) : Spells m w (.number k width) (k.spelled width w)

/-- Whether a piece takes an argument. -/
def isDirective : FormatPiece → Bool
  | .literal _ => false
  | _ => true

/-- The output of the pieces of a format whose arguments are at an address: the text, and the
failure that ends it. -/
inductive Outputs (m : Memory) : List FormatPiece → Int → Text → Option Failure → Prop
  | nil (v : Int) : Outputs m [] v [] none
  | literal {c : UInt8} {pieces : List FormatPiece} {v : Int} {t : Text} {failure : Option Failure}
      (h : Outputs m pieces v t failure) : Outputs m (.literal c :: pieces) v (c :: t) failure
  | directive {piece : FormatPiece} {pieces : List FormatPiece} {v : Int} {w : Cell} {s t : Text}
      {failure : Option Failure} (hword : m.word v = .ok w) (hs : Spells m w piece s)
      (h : Outputs m pieces (v + 1) t failure) : Outputs m (piece :: pieces) v (s ++ t) failure
  /-- The argument is not in the memory. -/
  | noArgument {piece : FormatPiece} {pieces : List FormatPiece} {v : Int} {e : Failure}
      (hpiece : piece.isDirective) (hword : m.word v = .error e) :
      Outputs m (piece :: pieces) v [] (some e)
  /-- The string that the argument points to is not in the memory. -/
  | noString {pieces : List FormatPiece} {v : Int} {w : Cell} {e : Failure}
      (hword : m.word v = .ok w) (hstring : m.string w.address = .error e) :
      Outputs m (.string :: pieces) v [] (some e)

section Splits

/-- The width of a digit is its value. -/
theorem widthOf_digit : ∀ d < 36, widthOf (Text.digit d) = d := by decide

/-- A byte that is no digit has no width. -/
theorem widthOf_of_ne_digit {c : UInt8} (hc : ∀ d < 36, c ≠ Text.digit d) : widthOf c = 0 := by
  unfold widthOf
  by_cases hdecimal : (48 ≤ c && c ≤ 57) = true
  · simp only [Bool.and_eq_true, decide_eq_true_eq, UInt8.le_iff_toNat_le] at hdecimal
    obtain ⟨hlow, hhigh⟩ := hdecimal
    change 48 ≤ c.toNat at hlow
    change c.toNat ≤ 57 at hhigh
    have hplace : 48 + (c.toNat - 48) = c.toNat := by omega
    apply absurd _ (hc (c.toNat - 48) (by omega))
    rw [Text.digit, if_pos (by omega), hplace, UInt8.ofNat_toNat]
  · rw [if_neg hdecimal]
    by_cases hletter : (65 ≤ c && c ≤ 90) = true
    · simp only [Bool.and_eq_true, decide_eq_true_eq, UInt8.le_iff_toNat_le] at hletter
      obtain ⟨hlow, hhigh⟩ := hletter
      change 65 ≤ c.toNat at hlow
      change c.toNat ≤ 90 at hhigh
      have hplace : 55 + (c.toNat - 55) = c.toNat := by omega
      apply absurd _ (hc (c.toNat - 55) (by omega))
      rw [Text.digit, if_neg (by omega), hplace, UInt8.ofNat_toNat]
    · rw [if_neg hletter]

/-- The width of a byte. -/
theorem width_iff {c : UInt8} {n : Nat} : Width c n ↔ widthOf c = n := by
  constructor
  · intro h
    cases h with
    | digit hd => exact widthOf_digit n hd
    | other hc => exact widthOf_of_ne_digit hc
  · rintro rfl
    by_cases hdigit : ∃ d < 36, c = Text.digit d
    · obtain ⟨d, hd, rfl⟩ := hdigit
      rw [widthOf_digit d hd]
      exact .digit hd
    · have hnone : ∀ d < 36, c ≠ Text.digit d := fun d hd hc => hdigit ⟨d, hd, hc⟩
      rw [widthOf_of_ne_digit hnone]
      exact .other hnone

/-- The letter of a directive names its conversion. -/
theorem conversion?_letter (k : Conversion) : conversion? k.letter = some k := by
  cases k <;> decide

/-- Only the letter of a directive names its conversion. -/
theorem eq_letter_of_conversion? {c : UInt8} {k : Conversion} (h : conversion? c = some k) :
    c = k.letter := by
  unfold conversion? at h
  split at h
  · cases h
    assumption
  · split at h
    · cases h
      assumption
    · split at h
      · cases h
        assumption
      · cases h

/-- The letters of the directives. -/
theorem mem_letters_iff {c : UInt8} :
    c ∈ Text.ofAscii "scoxin" ↔
      c = Text.byte 's' ∨ c = Text.byte 'c' ∨ c = Text.byte 'o' ∨ c = Text.byte 'x' ∨
        c = Text.byte 'i' ∨ c = Text.byte 'n' := by
  have hletters : Text.ofAscii "scoxin" =
    [Text.byte 's', Text.byte 'c', Text.byte 'o', Text.byte 'x', Text.byte 'i',
      Text.byte 'n'] := rfl
  rw [hletters]
  simp only [List.mem_cons, List.not_mem_nil, or_false]

/-- A byte that is no letter of a directive stands for itself. -/
theorem ofByte_of_not_mem {c : UInt8} (hc : c ∉ Text.ofAscii "scoxin") :
    conversion? c = none ∧ ofByte c = .literal c := by
  simp only [mem_letters_iff, not_or] at hc
  obtain ⟨hs, hcharacter, ho, hx, hi, hn⟩ := hc
  constructor
  · rw [conversion?, if_neg ho, if_neg hx, if_neg hi]
  · rw [ofByte, if_neg hs, if_neg hcharacter, if_neg hn]

/-- What a reader of formats has passed of the current directive. -/
def passed : FormatScan → Text
  | .plain => []
  | .percent => [Text.byte '%']
  | .width k => [Text.byte '%', k.letter]

/-- The pieces that the reader finds are pieces of the format. -/
theorem splits_scan (s : FormatScan) (t : Text) : Splits (passed s ++ t) (scan s t) := by
  induction t generalizing s with
  | nil =>
    cases s with
    | plain => exact .nil
    | percent => exact .lone
    | width k => exact .noWidth k
  | cons c t ih =>
    cases s with
    | plain =>
      rw [scan]
      by_cases hpercent : c = Text.byte '%'
      · rw [if_pos hpercent, hpercent]
        exact ih .percent
      · rw [if_neg hpercent]
        exact .literal hpercent (ih .plain)
    | percent =>
      rw [scan]
      cases hconversion : conversion? c with
      | some k =>
        rw [eq_letter_of_conversion? hconversion]
        exact ih (.width k)
      | none =>
        change Splits (Text.byte '%' :: c :: t) (ofByte c :: scan .plain t)
        unfold ofByte
        split
        · subst c
          exact .string (ih .plain)
        · split
          · subst c
            exact .character (ih .plain)
          · split
            · subst c
              exact .number (ih .plain)
            · refine .escaped (fun hmember => ?_) (ih .plain)
              rw [mem_letters_iff] at hmember
              unfold conversion? at hconversion
              grind
    | width k => exact .width (width_iff.mpr rfl) (ih .plain)

/-- A format has no other pieces than the reader finds. -/
theorem ofText_of_splits {t : Text} {pieces : List FormatPiece} (h : Splits t pieces) :
    ofText t = pieces := by
  unfold ofText
  induction h with
  | nil => rfl
  | lone => rfl
  | literal hc h ih => rw [scan, if_neg hc, ih]
  | string h ih =>
    rw [← ih]
    rfl
  | character h ih =>
    rw [← ih]
    rfl
  | number h ih =>
    rw [← ih]
    rfl
  | @width k c n t pieces hc h ih =>
    rw [← ih, ← width_iff.mp hc]
    simp only [scan, if_true, conversion?_letter]
  | noWidth k => simp only [scan, if_true, conversion?_letter]
  | @escaped c t pieces hc h ih =>
    obtain ⟨hconversion, hbyte⟩ := ofByte_of_not_mem hc
    simp only [scan, if_true, hconversion, hbyte, ih]

/-- Each piece takes at least one byte of the format. -/
theorem length_le_of_splits {t : Text} {pieces : List FormatPiece} (h : Splits t pieces) :
    pieces.length ≤ t.length := by
  induction h <;> simp only [List.length_cons, List.length_nil] <;> omega

end Splits

end FormatPiece

section Spelled

/-- The digit at the lowest place comes last, after those of the quotient. -/
theorem Text.placeDigits_succ (base k n : Nat) :
    placeDigits base (k + 1) n = placeDigits base k (n / base) ++ [digit (n % base)] := by
  have hplace (i : Nat) : n / base / Nat.pow base i = n / Nat.pow base (i + 1) := by
    have hpow : Nat.pow base (i + 1) = base * Nat.pow base i := Nat.pow_succ'
    rw [Nat.div_div_eq_div_mul, hpow]
  have hlowest : n / Nat.pow base 0 % base = n % base := congrArg (· % base) (Nat.div_one n)
  simp only [placeDigits, hplace, List.range_succ_eq_map, List.reverse_cons, List.map_append,
    ← List.map_reverse, List.map_map, List.map_cons, List.map_nil, hlowest]
  rfl

/-- Digits found from the lowest place on are those of the places. -/
theorem Text.lowDigitsBefore_eq (base k n : Nat) (t : Text) :
    lowDigitsBefore base k n t = placeDigits base k n ++ t := by
  induction k generalizing n t with
  | zero => rfl
  | succ k ih =>
    rw [lowDigitsBefore, ih, placeDigits_succ, List.append_assoc]
    rfl

/-- Octal and hexadecimal numbers are the digits at their places, and have one place at least. -/
theorem Conversion.toText_render_places {k : Conversion} {base : Nat}
    (hk : (k, base) ∈ [(octal, 8), (hex, 16)]) (width : Int) (w : Cell) :
    (k.render width w).toText = Text.placeDigits base (max width 1).toNat w.toNat := by
  have hlt := w.isLt
  simp only [List.mem_cons, Prod.mk.injEq, List.not_mem_nil, or_false] at hk
  rcases hk with ⟨rfl, rfl⟩ | ⟨rfl, rfl⟩
  · rw [render, Padded.toText_lowDigits _ (by change w.toNat < 262144; omega), Text.lowDigits,
      Text.lowDigitsBefore_eq, List.append_nil]
  · rw [render, Padded.toText_lowDigits _ (by change w.toNat < 65536; omega), Text.lowDigits,
      Text.lowDigitsBefore_eq, List.append_nil]

/-- The texts of numbers are those that the conversions give. -/
theorem Conversion.toText_render (k : Conversion) (width : Nat) (w : Cell) :
    (k.render width w).toText = k.spelled width w := by
  have hplaces : (max (width : Int) 1).toNat = max width 1 := by omega
  cases k with
  | octal =>
    rw [toText_render_places (.head _), hplaces]
    rfl
  | hex =>
    rw [toText_render_places (.tail _ (.head _)), hplaces]
    rfl
  | decimal =>
    have hcount : ((width : Int) - w.decimal.length).toNat = width - w.decimal.length := by omega
    rw [render, Padded.rightJustified, Padded.toText, hcount]
    rfl

end Spelled

namespace FormatPiece

open Machine (pieceText formatText)

section Outputs

variable {m : Memory} {pieces : List FormatPiece} {v : Int} {t : Text} {failure : Option Failure}

/-- A directive with its argument has one text. -/
theorem pieceText_of_spells {piece : FormatPiece} {w : Cell} {s : Text} (hword : m.word v = .ok w)
    (hs : Spells m w piece s) : pieceText m v piece = .ok (s, v + 1) := by
  cases hs with
  | string h =>
    rw [pieceText, hword, ok_bind, h]
    rfl
  | character =>
    rw [pieceText, hword]
    rfl
  | number k width =>
    rw [pieceText, hword, ← Conversion.toText_render]
    rfl

/-- The pieces of a format have one output. -/
theorem formatText_of_outputs (h : Outputs m pieces v t failure) :
    formatText m pieces v = (t, failure) := by
  induction h with
  | nil v => rfl
  | literal h ih =>
    rw [formatText, pieceText]
    change (_ :: (formatText m _ _).1, (formatText m _ _).2) = _
    rw [ih]
  | directive hword hs h ih =>
    rw [formatText, pieceText_of_spells hword hs]
    simp only [ih]
  | @noArgument piece pieces v e hpiece hword =>
    have hfails : pieceText m v piece = .error e := by
      cases piece with
      | literal c => cases hpiece
      | string | character | number =>
        rw [pieceText, hword]
        rfl
    rw [formatText, hfails]
  | @noString pieces v w e hword hstring =>
    have hfails : pieceText m v .string = .error e := by
      rw [pieceText, hword, ok_bind, hstring, error_bind]
    rw [formatText, hfails]

/-- The pieces of a format have an output. -/
theorem exists_outputs (m : Memory) (pieces : List FormatPiece) (v : Int) :
    ∃ t failure, Outputs m pieces v t failure := by
  induction pieces generalizing v with
  | nil => exact ⟨_, _, .nil v⟩
  | cons piece pieces ih =>
    -- What a directive writes depends on its argument.
    have hdirective (hpiece : piece.isDirective)
        (hspells : ∀ w, (∃ s, Spells m w piece s) ∨
          piece = .string ∧ ∃ e, m.string w.address = .error e) :
        ∃ t failure, Outputs m (piece :: pieces) v t failure := by
      cases hword : m.word v with
      | error e => exact ⟨_, _, .noArgument hpiece hword⟩
      | ok w =>
        obtain ⟨s, hs⟩ | ⟨rfl, e, hstring⟩ := hspells w
        · obtain ⟨t, failure, h⟩ := ih (v + 1)
          exact ⟨_, _, .directive hword hs h⟩
        · exact ⟨_, _, .noString hword hstring⟩
    cases piece with
    | literal c =>
      obtain ⟨t, failure, h⟩ := ih v
      exact ⟨_, _, .literal h⟩
    | string =>
      refine hdirective rfl fun w => ?_
      cases hstring : m.string w.address with
      | error e => exact .inr ⟨rfl, e, rfl⟩
      | ok s => exact .inl ⟨s, .string hstring⟩
    | character => exact hdirective rfl fun w => .inl ⟨_, .character⟩
    | number k width => exact hdirective rfl fun w => .inl ⟨_, .number k width⟩

/-- A string that a cell points to is in the memory or its address is wrong. -/
theorem address_of_string {w : Cell} {e : Failure} (h : m.string w.address = .error e) :
    ∃ a, e = .address a := by
  have hmeets : Meets m.size (m.stringSpans w.address) (fun _ => False) (m.string w.address) :=
    Memory.meets_string w
  rw [h] at hmeets
  cases hmeets with
  | address a h => exact ⟨a, rfl⟩
  | other h => exact h.elim

/-- A failure is a wrong address, if the arguments are where no byte address wraps around. -/
theorem address_of_outputs {e : Failure} (h : Outputs m pieces v t (some e))
    (hlow : -0x4000000000000000 ≤ v) (hhigh : v + pieces.length ≤ 0x3fffffffffffffff) :
    ∃ a, e = .address a := by
  generalize hfailure : some e = failure at h
  induction h with
  | nil v => cases hfailure
  | literal h ih =>
    rw [List.length_cons] at hhigh
    exact ih hlow (by omega) hfailure
  | directive hword hs h ih =>
    rw [List.length_cons] at hhigh
    exact ih (by omega) (by omega) hfailure
  | @noArgument piece pieces v e hpiece hword =>
    cases hfailure
    rw [List.length_cons] at hhigh
    rw [m.word_of_near hlow (by omega)] at hword
    split at hword
    · cases hword
    · cases hword
      exact ⟨v, rfl⟩
  | noString hword hstring =>
    cases hfailure
    exact address_of_string hstring

end Outputs

end FormatPiece

/-- The format that the word at an address points to. -/
def Memory.formatAt (m : Memory) (args : Int) : Except Failure Text := do
  let w ← m.word args
  m.string w.address

namespace Machine

/-- A text is written byte by byte. -/
theorem writeText_eq_forM (t : Text) :
    Peripherals.writeText t = t.forM Peripherals.writeCharacter := by
  induction t with
  | nil => rfl
  | cons c t ih => rw [Peripherals.writeText, ih, List.forM_eq_forM, List.forM_cons]

/-- Writing a text and failing. -/
theorem writeThen_eq (t : Text) (failure : Option Failure) :
    writeThen t failure = (do
      t.forM Peripherals.writeCharacter
      failure.forM throw) := by
  rw [← writeText_eq_forM]
  cases failure with
  | none => exact (bind_pure_unit).symm
  | some e => rfl

/-- A format is read before anything is written. -/
theorem writeFormat_apply (m : Machine) (args : Int) :
    writeFormat args m = match m.memory.formatAt args with
      | .ok t => writePieces (FormatPiece.ofText t) (args + 1) m
      | .error e => .error e m := by
  have hread : writeFormat args = (do
      let t ← Action.read fun m => m.memory.formatAt args
      writePieces (FormatPiece.ofText t) (args + 1)) := by
    simp only [writeFormat, word, Memory.formatAt, Action.read_bind, bind_assoc]
  rw [hread, Action.bind_apply, Action.read_apply]
  cases m.memory.formatAt args <;> rfl

/-- A format that is not in the memory is a wrong address. -/
theorem address_of_formatAt {m : Memory} {args : Int} {e : Failure} (h : m.formatAt args = .error e)
    (hlow : -0x4000000000000000 ≤ args) (hhigh : args < 0x3fffffffffffffff) :
    ∃ a, e = .address a := by
  rw [Memory.formatAt, m.word_of_near hlow hhigh] at h
  split at h
  · rw [ok_bind] at h
    exact FormatPiece.address_of_string h
  · rw [error_bind] at h
    cases h
    exact ⟨args, rfl⟩

/-- A format has at most 255 bytes. -/
theorem length_of_formatAt {m : Memory} {args : Int} {format : Text}
    (h : m.formatAt args = .ok format) : format.length ≤ 255 := by
  obtain ⟨w, -, hstring⟩ := exists_of_bind_eq_ok h
  have hlength := m.length_text_le w.address
  rw [Memory.text, hstring] at hlength
  exact hlength

/-- Writing a format writes its output byte by byte up to the first byte that cannot be written.
The output is the text of its pieces in order. A directive takes the next argument, and a literal
byte, an escaped byte and a percent sign at the end take none. If an argument or the string it
points to is not in the memory, all that comes before its directive is written, and the failure is
a wrong address as long as no byte address wraps around. -/
theorem writeFormat_writes_output (m : Machine) (args : Int) :
    (∀ e, m.memory.formatAt args = .error e →
      writeFormat args m = .error e m ∧
        (-0x4000000000000000 ≤ args → args < 0x3fffffffffffff00 → ∃ a, e = .address a)) ∧
    ∀ format, m.memory.formatAt args = .ok format →
      (∃ pieces text failure, FormatPiece.Splits format pieces ∧
        FormatPiece.Outputs m.memory pieces (args + 1) text failure) ∧
      ∀ pieces text failure, FormatPiece.Splits format pieces →
        FormatPiece.Outputs m.memory pieces (args + 1) text failure →
        writeFormat args m = onPeripherals (do
          text.forM Peripherals.writeCharacter
          failure.forM throw) m ∧
        (-0x4000000000000000 ≤ args → args < 0x3fffffffffffff00 →
          ∀ e, failure = some e → ∃ a, e = .address a) := by
  refine ⟨fun e hformat => ⟨?_, fun hlow hhigh => address_of_formatAt hformat hlow (by omega)⟩,
    fun format hformat => ⟨?_, fun pieces text failure hsplits houtputs => ⟨?_, ?_⟩⟩⟩
  · rw [writeFormat_apply, hformat]
  · obtain ⟨text, failure, houtputs⟩ :=
      FormatPiece.exists_outputs m.memory (FormatPiece.ofText format) (args + 1)
    exact ⟨_, text, failure, FormatPiece.splits_scan .plain format, houtputs⟩
  · rw [writeFormat_apply, hformat]
    simp only [FormatPiece.ofText_of_splits hsplits]
    rw [writePieces_eq, FormatPiece.formatText_of_outputs houtputs, writeThen_eq]
  · rintro hlow hhigh e rfl
    have hbytes := length_of_formatAt hformat
    have hpieces := FormatPiece.length_le_of_splits hsplits
    exact FormatPiece.address_of_outputs houtputs (by omega) (by omega)

/-- A machine with a format at word 4 and three arguments, the last of which points out of the
memory. -/
def formatting : Machine where
  memory := .ofFn 11 fun k =>
    [4, -5, 0xabcd, 60000, 16653, 26917, 9524, 9509, 12920, 29477, 9538].getD k 0
  lomem := 0
  peripherals := default

/-- What comes before the string is written, with two escaped percent signs as one. The rest of the
format is not looked at. -/
theorem formatting_writes_output :
    formatting.memory.formatAt 0 = .ok (Text.ofAscii "A%i4%%%x2%sB%") ∧
      writeFormat 0 formatting = onPeripherals (do
        (Text.ofAscii "A  -5%CD").forM Peripherals.writeCharacter
        throw (.address 60000)) formatting := by
  have hformat : formatting.memory.formatAt 0 = .ok (Text.ofAscii "A%i4%%%x2%sB%") :=
    eq_ok_of_toOption (by decide +kernel)
  have hsplits := FormatPiece.splits_scan .plain (Text.ofAscii "A%i4%%%x2%sB%")
  have hbytes : formatText formatting.memory
      (FormatPiece.ofText (Text.ofAscii "A%i4%%%x2%sB%")) 1 =
        (Text.ofAscii "A  -5%CD", some (.address 60000)) := by decide +kernel
  obtain ⟨text, failure, houtputs⟩ := FormatPiece.exists_outputs formatting.memory
    (FormatPiece.ofText (Text.ofAscii "A%i4%%%x2%sB%")) 1
  have hpair := (FormatPiece.formatText_of_outputs houtputs).symm.trans hbytes
  simp only [Prod.mk.injEq] at hpair
  obtain ⟨rfl, rfl⟩ := hpair
  refine ⟨hformat, ?_⟩
  exact ((writeFormat_writes_output formatting 0).2 _ hformat).2 _ _ _ hsplits houtputs |>.1

end Machine

end Intcode
