import Intcode.Proofs.Machine.DefaultOutput
import Intcode.Proofs.Machine.Formatter
import Intcode.Proofs.Streams.Unfailing
import Mathlib.Data.Nat.Digits.Defs

/-!
# Numbers in octal and hexadecimal

A cell is written in octal or hexadecimal with as many digits as it is given places,
and with one at least. There may be fewer places than the cell has digits, and
far more. The digits are read back as a number in their base, the most significant
first.

Main statement: on an output that does not fail, exactly these digits are written,
and they are the cell modulo the power of the base that the places leave.
-/

namespace Intcode

namespace Text

/-- The digits of bases up to sixteen, in the order of their values. -/
def digitLetters : Text := ofAscii "0123456789ABCDEF"

/-- The number that digits stand for in a base, the most significant digit first. -/
def valueIn (base : Nat) (t : Text) : Nat :=
  Nat.ofDigits base (t.reverse.map fun c => digitLetters.idxOf c)

/-- A digit stands at the place of its value. -/
theorem digitLetters_digit : ∀ d < 16,
    digitLetters[d]? = some (digit d) ∧ digitLetters.idxOf (digit d) = d := by decide

/-- The digits of a base are the first ones. -/
theorem digit_mem_take {base d : Nat} (hbase : base ≤ 16) (hd : d < base) :
    digit d ∈ digitLetters.take base := by
  apply List.mem_of_getElem? (i := d)
  rw [List.getElem?_take_of_lt hd]
  exact (digitLetters_digit d (by omega)).1

/-- There is a digit for each place. -/
@[simp] theorem length_placeDigits (base places n : Nat) :
    (placeDigits base places n).length = places := by
  simp only [placeDigits, List.length_map, List.length_reverse, List.length_range]

/-- The digits at the places of a number are digits of the base. -/
theorem placeDigits_subset {base : Nat} (hpos : 0 < base) (hbase : base ≤ 16) (places n : Nat) :
    ∀ c ∈ placeDigits base places n, c ∈ digitLetters.take base := by
  intro c hc
  obtain ⟨i, -, rfl⟩ := List.mem_map.mp hc
  exact digit_mem_take hbase (Nat.mod_lt _ hpos)

/-- The digits at the lowest places of a number are read as the number modulo a power of the base.
-/
theorem valueIn_placeDigits {base : Nat} (hpos : 0 < base) (hbase : base ≤ 16) (places n : Nat) :
    valueIn base (placeDigits base places n) = n % Nat.pow base places := by
  induction places generalizing n with
  | zero => exact (Nat.mod_one n).symm
  | succ k ih =>
    have hdigit : digitLetters.idxOf (digit (n % base)) = n % base :=
      (digitLetters_digit _ (Nat.lt_of_lt_of_le (Nat.mod_lt n hpos) hbase)).2
    have hquotient : valueIn base (placeDigits base k (n / base)) = n / base % Nat.pow base k :=
      ih (n / base)
    have hpow : Nat.pow base (k + 1) = base * Nat.pow base k := Nat.pow_succ'
    calc valueIn base (placeDigits base (k + 1) n)
        = n % base + base * valueIn base (placeDigits base k (n / base)) := by
          rw [placeDigits_succ]
          simp only [valueIn, List.reverse_append, List.reverse_cons, List.reverse_nil,
            List.nil_append, List.cons_append, List.map_cons, hdigit, Nat.ofDigits_cons]
      _ = n % base + base * (n / base % Nat.pow base k) := by rw [hquotient]
      _ = n % Nat.pow base (k + 1) := by rw [hpow, Nat.mod_mul]

end Text

namespace Machine

/-- Octal and hexadecimal output is the number. On an output that never fails, a cell is written in
any width, be it zero, negative or greater than the number of its digits. What is written are as
many digits of the base as the width says, and one at least, and they stand for the unsigned value
of the cell modulo the power of the base with that many digits. They are written one after the
other, and the output has taken them and nothing else. -/
theorem digits_spell_number (m : Machine) (n : Cell) (width : Int) {k : Conversion} {base : Nat}
    (hk : (k, base) ∈ [(Conversion.octal, 8), (Conversion.hex, 16)])
    (haccepts : m.peripherals.Accepts) :
    ∃ (t : Text) (q : Peripherals),
      (t.length : Int) = max width 1 ∧ (∀ c ∈ t, c ∈ Text.digitLetters.take base) ∧
      Text.valueIn base t = n.toNat % Nat.pow base t.length ∧
      writeNumber k n width m = .ok () { m with peripherals := q } ∧
      t.forM Peripherals.writeCharacter m.peripherals = .ok ⟨⟩ q ∧
      ∀ file? taken, m.peripherals.Keeps m.peripherals.output file? none taken →
        q.Keeps m.peripherals.output file? none (taken ++ t) := by
  have hpos : 0 < base ∧ base ≤ 16 := by
    simp only [List.mem_cons, Prod.mk.injEq, List.not_mem_nil, or_false] at hk
    omega
  obtain ⟨q, hwrite, houtput, hledger⟩ :=
    haccepts.writeText (Text.placeDigits base (max width 1).toNat n.toNat)
  refine ⟨Text.placeDigits base (max width 1).toNat n.toNat, q, ?_,
    Text.placeDigits_subset hpos.1 hpos.2 _ _, ?_, ?_, ?_, ?_⟩
  · rw [Text.length_placeDigits]
    omega
  · rw [Text.length_placeDigits, Text.valueIn_placeDigits hpos.1 hpos.2]
  · rw [writeNumber_eq, Conversion.toText_render_places hk, onPeripherals_apply, hwrite]
  · rw [← writeText_eq_forM, hwrite]
  · rw [← houtput]
    exact fun file? taken hkeeps => hledger file? taken (houtput ▸ hkeeps)

/-- A machine whose default output is a device without a limit. -/
def typing : Machine where
  memory := default
  lomem := 0
  peripherals := .ofDefaults (.script [] none) (.device {}) default false

/-- A hexadecimal number in six places has two more digits than a cell, and an octal number in no
places has its last digit. -/
theorem typing_spells_number :
    (∃ t q, (t.length : Int) = 6 ∧ Text.valueIn 16 t = 0xabcd ∧
      writeNumber .hex 0xabcd 6 typing = .ok () { typing with peripherals := q } ∧
      q.Keeps defaultOutput none none t) ∧
    ∃ t q, (t.length : Int) = 1 ∧ Text.valueIn 8 t = 5 ∧
      writeNumber .octal 0xabcd 0 typing = .ok () { typing with peripherals := q } ∧
      q.Keeps defaultOutput none none t := by
  have hkeeps : typing.peripherals.Keeps defaultOutput none none [] :=
    Peripherals.keeps_ofDefaults (.script [] none) none default false
  have haccepts : typing.peripherals.Accepts := ⟨{ sink := .device {} }, none, by decide, rfl, rfl⟩
  obtain ⟨t, q, hlength, -, hvalue, hwrite, -, hledger⟩ :=
    digits_spell_number typing 0xabcd 6 (.tail _ (.head _)) haccepts
  obtain ⟨t', q', hlength', -, hvalue', hwrite', -, hledger'⟩ :=
    digits_spell_number typing 0xabcd 0 (.head _) haccepts
  have hsix : t.length = 6 := by omega
  have hone : t'.length = 1 := by omega
  rw [hsix] at hvalue
  rw [hone] at hvalue'
  exact ⟨⟨t, q, hlength, hvalue, hwrite, hledger none [] hkeeps⟩,
    ⟨t', q', hlength', hvalue', hwrite', hledger' none [] hkeeps⟩⟩

end Machine

end Intcode
