import Intcode.Machine.Load
import Intcode.Proofs.Listing

/-!
# Listings on a full device

A listing is printed in many small pieces, and most of them are printed without a look at
what became of the one before. A listing of instructions ends with the line that does not
fit, a dump goes on to its end.

Main statement: on a device with a limit, a listing is cut off at that limit and nowhere
else, and it ends with an error exactly if something was cut off.
-/

namespace Intcode

open Action

namespace Printer

/-- Two printers that have been given the same texts. The device of the first has no limit. That of
the second holds the bytes up to its limit, and the second has failed if there were more. -/
structure Truncates (limit : Nat) (p q : Printer) : Prop where
  unlimited : p.Unlimited
  contents : q.device.contents = p.device.contents.take limit
  room : q.failed = none → q.device.room = some (limit - p.device.contents.length)
  failed : q.failed ≠ none ↔ limit < p.device.contents.length

/-- New printers have been given nothing. -/
theorem truncates_new (limit : Nat) : Truncates limit {} { device := { room := some limit } } where
  unlimited := ⟨rfl, rfl⟩
  contents := (List.take_nil).symm
  room _ := rfl
  failed := ⟨fun h => absurd rfl h, fun h => absurd h (Nat.not_lt_zero limit)⟩

namespace Truncates

variable {limit : Nat} {p q : Printer}

/-- A text that both are given. -/
theorem print (h : Truncates limit p q) (t : Text) : Truncates limit (p.print t) (q.print t) := by
  obtain ⟨hunlimited, hcontents, hroom, hfailed⟩ := h
  obtain ⟨hunlimited', hcontents'⟩ := hunlimited.print t
  cases hq : q.failed with
  | some e =>
    have hlt : limit < p.device.contents.length := hfailed.mp (by simp [hq])
    rw [Printer.print.eq_1 t q, write_of_failed hq]
    refine ⟨hunlimited', ?_, fun hnone => absurd (hq.symm.trans hnone) (by simp), ?_⟩
    · rw [hcontents', List.take_append_of_le_length (Nat.le_of_lt hlt), hcontents]
    · rw [hcontents', List.length_append]
      exact ⟨fun _ => Nat.lt_add_right _ hlt, fun _ => by simp [hq]⟩
  | none =>
    have hle : p.device.contents.length ≤ limit :=
      Nat.le_of_not_lt fun hlt => hfailed.mpr hlt hq
    rw [List.take_of_length_le hle] at hcontents
    rcases q.fits_or_exceeds t with hfits | ⟨r, hr, hexceeds⟩
    · have hroom' := hroom hq
      have hall : p.device.contents.length + t.length ≤ limit := by
        have := hfits _ hroom'
        omega
      rw [Printer.print.eq_1 t q, write_of_fits hq hfits]
      refine ⟨hunlimited', ?_, fun _ => ?_, ?_⟩
      · rw [hcontents', List.take_of_length_le (by rw [List.length_append]; exact hall),
          ← hcontents]
        simp [Device.contents]
      · simp only [hroom', Option.map_some, hcontents', List.length_append, Nat.sub_sub]
      · rw [hcontents', List.length_append]
        exact ⟨fun h => absurd rfl h, fun h => absurd hall (Nat.not_le.mpr h)⟩
    · obtain rfl : limit - p.device.contents.length = r :=
        Option.some.inj ((hroom hq).symm.trans hr)
      rw [Printer.print.eq_1 t q, write_of_exceeds hq hr hexceeds]
      refine ⟨hunlimited', ?_, fun hnone => absurd hnone (by simp), ?_⟩
      · rw [hcontents', List.take_append, List.take_of_length_le hle, ← hcontents]
        simp [Device.contents]
      · rw [hcontents', List.length_append]
        exact ⟨fun _ => by omega, fun _ => by simp⟩

/-- Once the second has failed, the first may be given more. -/
theorem ahead (h : Truncates limit p q) (hq : q.failed ≠ none) {p' : Printer}
    (hunlimited : p'.Unlimited) (hmore : p.device.contents <+: p'.device.contents) :
    Truncates limit p' q := by
  have hlt := h.failed.mp hq
  obtain ⟨t, ht⟩ := hmore
  refine ⟨hunlimited, ?_, fun hnone => absurd hnone hq, ?_⟩
  · rw [← ht, List.take_append_of_le_length (Nat.le_of_lt hlt), h.contents]
  · rw [← ht, List.length_append]
    exact ⟨fun _ => Nat.lt_add_right _ hlt, fun _ => hq⟩

end Truncates

end Printer

namespace Listing

open Printer

variable {m : Memory} {stop : Int}

/-- A printer after the line of an instruction. -/
def printLine (address t : Text) (p : Printer) : Printer :=
  (((p.print address).print [9]).print t).print [Text.lineFeed]

/-- The lines of a listing are printed one after the other, up to the first that fails. -/
theorem printLines_succ_eq_ok_iff {n : Nat} {pc : Int} {p p' : Printer} :
    printLines m stop (n + 1) pc p = .ok () p' ↔
      stop ≤ pc ∧ p' = p ∨
      ¬ stop ≤ pc ∧ ∃ address t next, justify 10 (Text.ofInt pc) = .ok address ∧
        instructionText m pc = .ok (t, next) ∧
        (if (printLine address.toText t p).failed.isSome then pure ()
          else printLines m stop n next) (printLine address.toText t p) = .ok () p' := by
  rw [printLines]
  by_cases hstop : stop ≤ pc
  · rw [if_pos hstop]
    constructor
    · intro hrun
      cases hrun
      exact .inl ⟨hstop, rfl⟩
    · rintro (⟨-, rfl⟩ | ⟨hbefore, -⟩)
      · rfl
      · exact absurd hstop hbefore
  · rw [if_neg hstop]
    simp only [bind_apply, printInt_apply, printInstruction, read_apply]
    constructor
    · intro hrun
      cases haddress : justify 10 (Text.ofInt pc) with
      | error e =>
        rw [haddress] at hrun
        cases hrun
      | ok address =>
        cases htext : instructionText m pc with
        | error e =>
          rw [haddress, htext] at hrun
          cases hrun
        | ok line =>
          rw [haddress, htext] at hrun
          exact .inr ⟨hstop, address, line.1, line.2, rfl, rfl, hrun⟩
    · rintro (⟨hle, -⟩ | ⟨-, address, t, next, haddress, htext, hrun⟩)
      · exact absurd hle hstop
      · rw [haddress, htext]
        exact hrun

/-- Both printers are given the line of an instruction. -/
theorem truncates_printLine {limit : Nat} {p q : Printer} (h : Truncates limit p q)
    (address t : Text) : Truncates limit (printLine address t p) (printLine address t q) :=
  (((h.print address).print [9]).print t).print [Text.lineFeed]

/-- A line comes after what a device without a limit holds. -/
theorem unlimited_printLine {p : Printer} (hp : p.Unlimited) (address t : Text) :
    (printLine address t p).Unlimited ∧
      p.device.contents <+: (printLine address t p).device.contents := by
  obtain ⟨h₁, hcontents₁⟩ := hp.print address
  obtain ⟨h₂, hcontents₂⟩ := h₁.print [9]
  obtain ⟨h₃, hcontents₃⟩ := h₂.print t
  obtain ⟨h₄, hcontents₄⟩ := h₃.print [Text.lineFeed]
  refine ⟨h₄, ?_⟩
  rw [printLine, hcontents₄, hcontents₃, hcontents₂, hcontents₁]
  simp only [List.append_assoc]
  exact List.prefix_append _ _

/-- The lines of a listing come after what a device without a limit holds. -/
theorem unlimited_printLines {n : Nat} {pc : Int} {p p' : Printer} (hp : p.Unlimited)
    (hrun : printLines m stop n pc p = .ok () p') :
    p'.Unlimited ∧ p.device.contents <+: p'.device.contents := by
  induction n generalizing pc p with
  | zero =>
    cases hrun
    exact ⟨hp, List.prefix_rfl⟩
  | succ n ih =>
    obtain ⟨-, rfl⟩ | ⟨-, address, t, next, -, -, hrest⟩ := printLines_succ_eq_ok_iff.mp hrun
    · exact ⟨hp, List.prefix_rfl⟩
    · obtain ⟨hline, hmore⟩ := unlimited_printLine hp address.toText t
      rw [if_neg (by simp [hline.1])] at hrest
      obtain ⟨hlast, hlater⟩ := ih hline hrest
      exact ⟨hlast, hmore.trans hlater⟩

/-- Lines that can be printed without a limit are printed with one as well, up to the line that does
not fit. -/
theorem truncates_printLines {limit n : Nat} {pc : Int} {p q p' : Printer}
    (h : Truncates limit p q) (hrun : printLines m stop n pc p = .ok () p') :
    ∃ q', printLines m stop n pc q = .ok () q' ∧ Truncates limit p' q' := by
  induction n generalizing pc p q with
  | zero =>
    cases hrun
    exact ⟨q, rfl, h⟩
  | succ n ih =>
    simp only [printLines_succ_eq_ok_iff]
    obtain ⟨hstop, rfl⟩ | ⟨hstop, address, t, next, haddress, htext, hrest⟩ :=
      printLines_succ_eq_ok_iff.mp hrun
    · exact ⟨q, .inl ⟨hstop, rfl⟩, h⟩
    · obtain ⟨hline, -⟩ := unlimited_printLine h.unlimited address.toText t
      rw [if_neg (by simp [hline.1])] at hrest
      have hboth := truncates_printLine h address.toText t
      by_cases hfailed : (printLine address.toText t q).failed.isSome
      · -- The listing ends here on the full device, and goes on without it.
        obtain ⟨hunlimited, hmore⟩ := unlimited_printLines hline hrest
        refine ⟨_, .inr ⟨hstop, address, t, next, haddress, htext, ?_⟩,
          hboth.ahead (Option.isSome_iff_ne_none.mp hfailed) hunlimited hmore⟩
        rw [if_pos hfailed]
        rfl
      · obtain ⟨q', hq', h'⟩ := ih hboth hrest
        refine ⟨q', .inr ⟨hstop, address, t, next, haddress, htext, ?_⟩, h'⟩
        rw [if_neg hfailed]
        exact hq'

end Listing

namespace Machine

open Printer

variable {limit : Nat}

/-- A text that both printers are given. -/
theorem respects_print (t : Text) :
    Respects (Truncates limit) (modify (·.print t) : Action Printer Unit) :=
  respects_modify fun _ _ h => h.print t

/-- Both printers are given the same words. -/
theorem respects_printWordsFrom (m : Memory) (separator : Text) (a : Int) (n : Nat) :
    Respects (Truncates limit) (printWordsFrom m separator a n) := by
  induction n generalizing separator a with
  | zero => exact respects_pure ()
  | succ n ih =>
    refine (respects_print separator).bind fun _ => ?_
    refine (respects_read fun _ _ _ => rfl).bind fun w => ?_
    exact (respects_print w.decimal).bind fun _ => ih [Text.space] (a + 1)

/-- Both printers are given the same line of words. -/
theorem respects_printWords (title : String) (m : Memory) (start : Int) (n : Nat) :
    Respects (Truncates limit) (printWords title m start n) :=
  (respects_print _).bind fun _ =>
    (respects_printWordsFrom m [] start n).bind fun _ => respects_print _

/-- Both printers are given the same register. -/
theorem respects_printRegister (title : String) (v : Int) :
    Respects (Truncates limit) (printRegister title v) :=
  (respects_print _).bind fun _ => respects_print _

/-- A dump does not look at what became of its pieces. -/
theorem respects_dump (m : Machine) : Respects (Truncates limit) m.dump := by
  refine (respects_printRegister _ _).bind fun _ => (respects_printRegister _ _).bind fun _ => ?_
  refine (respects_printRegister _ _).bind fun _ => (respects_printRegister _ _).bind fun _ => ?_
  refine (respects_printRegister _ _).bind fun _ => (respects_print _).bind fun _ => ?_
  exact (respects_printWords _ _ _ _).bind fun _ => respects_printWords _ _ _ _

end Machine

/-- What is printed to look at: the instructions in a range of a memory, or a whole machine. -/
inductive IsListing : Action Printer Unit → Prop
  | range (m : Memory) (start stop : Int) (hle : start ≤ stop) :
      IsListing (Listing.printRange m start stop)
  | dump (m : Machine) : IsListing m.dump

namespace IsListing

/-- A listing that can be printed without a limit is printed with one as well. -/
theorem truncates {x : Action Printer Unit} (hx : IsListing x) {limit : Nat} {p q p' : Printer}
    (h : p.Truncates limit q) (hrun : x p = .ok () p') :
    ∃ q', x q = .ok () q' ∧ p'.Truncates limit q' := by
  cases hx with
  | range m start stop _ => exact Listing.truncates_printLines h hrun
  | dump m =>
    have hagree := m.respects_dump p q h
    rw [hrun] at hagree
    generalize m.dump q = r at hagree
    cases hagree with
    | ok _ h' => exact ⟨_, rfl, h'⟩

/-- A machine that has nothing but the entry code. -/
def bare : Machine where
  memory := .ofFn 404 Machine.initialCell
  lomem := codeStart + 3
  peripherals := default

end IsListing

end Intcode
