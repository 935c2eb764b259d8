import Intcode.Host
import Intcode.Printer
import Intcode.Proofs.Action
import Mathlib.Data.Nat.Digits.Defs

/-!
# Printers stop at the first failure

A printer is called again and again, and others may take room from its device or give
it room meanwhile. What the calls write may be laid out in a buffer that all of them
share.

Main statement: the device gets the bytes of all calls before the first one that does
not fit and as many bytes of that one as there is room for. From then on every call
gives the same error, and nothing reaches the device any more. Only an integer in a
width that the host cannot pad to is no call like the others: it breaks off before or
after a failure, and writes nothing.
-/

namespace Intcode

namespace Body

variable {contents t : Text} {offset : Nat}

/-- A text laid over the first bytes is in front of those that it does not cover. -/
theorem overlay_zero (contents t : Text) : overlay contents 0 t = t ++ contents.drop t.length := by
  simp [overlay]

/-- The bytes before a text that is laid over others stay as they are. -/
theorem take_overlay (hle : offset ≤ contents.length) :
    (overlay contents offset t).take offset = contents.take offset := by
  simp [overlay, hle]

/-- A text that is laid over others comes after the bytes before it. -/
theorem drop_overlay (hle : offset ≤ contents.length) :
    (overlay contents offset t).drop offset = t ++ contents.drop (offset + t.length) := by
  simp [overlay, hle]

/-- There is room for a text that is laid over others. -/
theorem le_length_overlay (contents t : Text) (offset : Nat) :
    offset + t.length ≤ (overlay contents offset t).length := by
  simp only [overlay, List.length_append, List.length_take, List.length_replicate, List.length_drop]
  omega

end Body

/-- A number of so many digits is written with no more bytes. -/
theorem Text.length_ofNat_le {n k : Nat} (hk : 0 < k) (hn : n < 10 ^ k) :
    (Text.ofNat n).length ≤ k := by
  rw [Text.ofNat, List.length_map]
  exact Nat.toDigits_length 10 n k hk hn

/-- An integer of the host is written with at most twenty bytes. -/
theorem Text.length_ofInt_le {v : Int} (hlow : -0x8000000000000000 ≤ v)
    (hhigh : v < 0x8000000000000000) : (Text.ofInt v).length ≤ 20 := by
  cases v with
  | ofNat n =>
    have hlt : (n : Int) < 0x8000000000000000 := hhigh
    exact length_ofNat_le (by decide) (by omega)
  | negSucc n =>
    have hdigits : (Text.ofNat (n + 1)).length ≤ 19 := length_ofNat_le (by decide) (by omega)
    exact Nat.succ_le_succ hdigits

namespace Printer

section Integers

variable {width : Int} {t : Text}

/-- The widths to which the host cannot pad a text: from the least ones the length of the text
cannot be subtracted, and for the great ones there is no room. -/
def Unpaddable (width : Int) (t : Text) : Prop :=
  width < -0x8000000000000000 + t.length ∨ textLimit < width

instance (width : Int) (t : Text) : Decidable (Unpaddable width t) :=
  inferInstanceAs (Decidable (_ ∨ _))

/-- A text is right justified in every width to which the host can pad it, and in no other. -/
theorem justify_eq (hlow : -0x8000000000000000 ≤ width) (hhigh : width < 0x8000000000000000)
    (ht : t.length ≤ textLimit) :
    justify width t =
      if Unpaddable width t then .error .overlong else .ok (.rightJustified width t) := by
  unfold textLimit at ht
  have hcount : wrap (width - t.length) =
      if width < -0x8000000000000000 + t.length then width - t.length + 0x10000000000000000
      else width - t.length := by
    unfold wrap
    rw [Int.bmod_def]
    omega
  have hlong : textLimit < t.length + wrap (width - t.length) ↔ Unpaddable width t := by
    unfold Unpaddable textLimit
    omega
  unfold justify
  dsimp only
  by_cases hunpaddable : Unpaddable width t
  · rw [if_pos hunpaddable, if_pos (hlong.mpr hunpaddable)]
  · have hleast : ¬ width < -0x8000000000000000 + t.length := fun h => hunpaddable (.inl h)
    rw [if_neg hunpaddable, if_neg (mt hlong.mp hunpaddable), hcount, if_neg hleast]
    rfl

/-- An integer is laid out before it is written. -/
theorem printInt_apply (v width : Int) (p : Printer) :
    printInt v width p =
      match justify width (Text.ofInt v) with
      | .ok t => .ok () (p.print t.toText)
      | .error e => .error e p := by
  rw [printInt, Action.bind_apply, Action.read_apply]
  cases justify width (Text.ofInt v) with
  | ok t => exact congrArg _ (printPadded_eq t p)
  | error e => rfl

/-- An integer of the host is written in every width for which there is room. -/
theorem printInt_of_le {v : Int} (hlow : -0x8000000000000000 ≤ v) (hhigh : v < 0x8000000000000000)
    (hwidth : 0 ≤ width) (hroom : width ≤ textLimit) (p : Printer) :
    printInt v width p = .ok () (p.print (Padded.rightJustified width (Text.ofInt v)).toText) := by
  have hlength := Text.length_ofInt_le hlow hhigh
  have hpaddable : ¬ Unpaddable width (Text.ofInt v) := by
    unfold Unpaddable
    omega
  unfold textLimit at hroom
  rw [printInt_apply, justify_eq (by omega) (by omega) (hlength.trans (by decide)),
    if_neg hpaddable]

end Integers

/-- What a printer can be asked to write. -/
inductive Call where
  | write (t : Text)
  | writeString (t : Text)
  | writeByte (c : UInt8)
  /-- An integer in decimal, right justified in a width. -/
  | writeInt (v width : Int64)
deriving DecidableEq, Repr

/-- What a call answers. -/
inductive Answer where
  /-- How many bytes were written, if the call tells that, and the error. -/
  | returned (count : Option Nat) (error : Option Report)
  /-- The call broke off. -/
  | broken (e : Failure)
deriving DecidableEq, Repr

namespace Call

/-- The bytes that a call stands for. -/
def bytes : Call → Text
  | write t | writeString t => t
  | writeByte c => [c]
  | writeInt v width =>
    List.replicate (max 0 (width.toInt - (Text.ofInt v.toInt).length)).toNat Text.space ++
      Text.ofInt v.toInt

/-- The calls that break off: integers in a width to which the host cannot pad them. -/
def Breaks : Call → Prop
  | writeInt v width => Unpaddable width.toInt (Text.ofInt v.toInt)
  | _ => False

instance : DecidablePred Breaks
  | write _ | writeString _ | writeByte _ => .isFalse id
  | writeInt v width => inferInstanceAs (Decidable (Unpaddable width.toInt (Text.ofInt v.toInt)))

/-- The bytes that a call gives to the device if there is room: those that it stands for, unless it
breaks off. -/
def output (c : Call) : Text := if c.Breaks then [] else c.bytes

/-- Whether a call tells how many bytes were written. -/
def isCounted : Call → Bool
  | write _ | writeString _ => true
  | writeByte _ | writeInt _ _ => false

/-- The answer of a call of which the given number of bytes were written. -/
def answer (c : Call) (n : Nat) (error : Option Report) : Answer :=
  if c.Breaks then .broken .overlong else .returned (if c.isCounted then some n else none) error

/-- Carries a call out. -/
def perform (p : Printer) : Call → Answer × Printer
  | write t | writeString t =>
    let (n, p) := p.write t
    (.returned (some n) p.error, p)
  | writeByte c =>
    let p := p.print [c]
    (.returned none p.error, p)
  | writeInt v width =>
    match printInt v.toInt width.toInt p with
    | .ok () p => (.returned none p.error, p)
    | .error e p => (.broken e, p)

/-- An integer is written if it can be justified. -/
theorem perform_writeInt (p : Printer) (v width : Int64) :
    perform p (writeInt v width) =
      match justify width.toInt (Text.ofInt v.toInt) with
      | .ok t => (.returned none (p.print t.toText).error, p.print t.toText)
      | .error e => (.broken e, p) := by
  -- The equation of `perform` is not asked for: deriving it lays the integer out.
  change (match printInt v.toInt width.toInt p with
    | .ok () p => (Answer.returned none p.error, p)
    | .error e p => (.broken e, p)) = _
  rw [printInt_apply]
  cases justify width.toInt (Text.ofInt v.toInt) with
  | ok t => rfl
  | error e => rfl

/-- A call that breaks off leaves the printer as it is, and any other writes its bytes. -/
theorem perform_eq (p : Printer) (c : Call) :
    c.perform p =
      if c.Breaks then (c.answer 0 none, p)
      else (c.answer (p.write c.bytes).1 (p.write c.bytes).2.error, (p.write c.bytes).2) := by
  cases c with
  | write t => rfl
  | writeString t => rfl
  | writeByte c => rfl
  | writeInt v width =>
    have hlength := Text.length_ofInt_le v.le_toInt v.toInt_lt
    have hjustify := justify_eq (t := Text.ofInt v.toInt) width.le_toInt width.toInt_lt
      (hlength.trans (by decide))
    rw [perform_writeInt]
    by_cases hbreaks : (writeInt v width).Breaks
    · rw [if_pos hbreaks, hjustify.trans (if_pos hbreaks), answer, if_pos hbreaks]
    · have hbytes : (Padded.rightJustified width.toInt (Text.ofInt v.toInt)).toText =
          (writeInt v width).bytes := by
        simp only [bytes, Padded.rightJustified, Padded.toText]
        congr 2
        omega
      rw [if_neg hbreaks, hjustify.trans (if_neg hbreaks), answer, if_neg hbreaks, ← hbytes]
      rfl

end Call

/-- What happens to a printer. -/
inductive Happening where
  | call (c : Call)
  /-- Others leave the device with the given room. -/
  | resize (room : Option Nat)
deriving DecidableEq, Repr

/-- The calls among the things that happen. -/
def calls : List Happening → List Call
  | [] => []
  | .call c :: hs => c :: calls hs
  | .resize _ :: hs => calls hs

/-- The room of a device after something has happened, if all that was written had room. -/
def Happening.roomAfter (room : Option Nat) : Happening → Option Nat
  | call c => room.map (· - c.output.length)
  | resize room => room

/-- The answers of all calls and the state after them, given what a call and another room make of a
state. -/
def playBy {σ : Type} (perform : σ → Call → Answer × σ) (resized : σ → Option Nat → σ) :
    List Happening → σ → List Answer × σ
  | [], s => ([], s)
  | .call c :: hs, s =>
    let (a, s) := perform s c
    let (as, s) := playBy perform resized hs s
    (a :: as, s)
  | .resize room :: hs, s => playBy perform resized hs (resized s room)

/-- The printer whose device has another room. -/
def resized (p : Printer) (room : Option Nat) : Printer :=
  { p with device := { p.device with room } }

/-- The answers of all calls, and the printer after them. -/
def play : List Happening → Printer → List Answer × Printer := playBy Call.perform resized

section Calls

variable {c : Call}

/-- A call that breaks off has no other answer. -/
theorem Call.answer_of_breaks (hbreaks : c.Breaks) (n : Nat) (error : Option Report) :
    c.answer n error = .broken .overlong := if_pos hbreaks

/-- A call that breaks off writes nothing. -/
theorem Call.output_of_breaks (hbreaks : c.Breaks) : c.output = [] := if_pos hbreaks

/-- A call that does not break off writes its bytes. -/
theorem Call.output_of_not_breaks (hbreaks : ¬ c.Breaks) : c.output = c.bytes := if_neg hbreaks

/-- A call that breaks off takes no room. -/
theorem roomAfter_of_breaks (hbreaks : c.Breaks) (room : Option Nat) :
    Happening.roomAfter room (.call c) = room := by
  simp [Happening.roomAfter, Call.output_of_breaks hbreaks]

/-- After a call that breaks off the other calls are carried out as if it had not been made. -/
theorem play_call_of_breaks (hbreaks : c.Breaks) (hs : List Happening) (p : Printer) :
    play (.call c :: hs) p = (.broken .overlong :: (play hs p).1, (play hs p).2) := by
  simp only [play, playBy, Call.perform_eq, if_pos hbreaks, Call.answer_of_breaks hbreaks]

/-- A call is answered after it has written its bytes, and the other calls come after it. -/
theorem play_call (hbreaks : ¬ c.Breaks) (hs : List Happening) (p : Printer) :
    play (.call c :: hs) p =
      let (n, q) := p.write c.output
      (c.answer n q.error :: (play hs q).1, (play hs q).2) := by
  simp only [play, playBy, Call.perform_eq, if_neg hbreaks, Call.output_of_not_breaks hbreaks]

end Calls

section Write

variable {p : Printer}

/-- A printer that has failed writes nothing. -/
theorem write_of_failed {e : HostError} (hfailed : p.failed = some e) (t : Text) :
    p.write t = (0, p) := by
  simp only [write, hfailed]

/-- A text that fits is written. -/
theorem write_of_fits (hfailed : p.failed = none) {t : Text}
    (hfits : ∀ r ∈ p.device.room, t.length ≤ r) :
    p.write t =
      (t.length, ⟨⟨t :: p.device.taken, p.device.room.map (· - t.length)⟩, none⟩) := by
  have hfitting : p.device.fitting t = t.length := by
    unfold Device.fitting
    cases hroom : p.device.room with
    | none => rfl
    | some r => exact Nat.min_eq_right (hfits r hroom)
  simp only [write, hfailed, Device.write, hfitting, List.take_length, Nat.lt_irrefl, if_false]

/-- Of a text that does not fit as much is written as there is room for, and the printer has
failed. -/
theorem write_of_exceeds (hfailed : p.failed = none) {t : Text} {r : Nat}
    (hroom : p.device.room = some r) (hlt : r < t.length) :
    p.write t = (r, ⟨⟨t.take r :: p.device.taken, some 0⟩, some .deviceFull⟩) := by
  have hfitting : p.device.fitting t = r := by
    simp only [Device.fitting, hroom]
    exact Nat.min_eq_left (Nat.le_of_lt hlt)
  simp only [write, hfailed, Device.write, hfitting, hlt, if_true, hroom, Option.map_some,
    Nat.sub_self]

/-- A text fits, or the device has less room than it needs. -/
theorem fits_or_exceeds (p : Printer) (t : Text) :
    (∀ r ∈ p.device.room, t.length ≤ r) ∨ ∃ r, p.device.room = some r ∧ r < t.length := by
  cases hroom : p.device.room with
  | none => exact .inl fun r hr => by cases hr
  | some r =>
    rcases Nat.lt_or_ge r t.length with hlt | hge
    · exact .inr ⟨r, rfl, hlt⟩
    · exact .inl fun r' hr' => by cases hr'; exact hge

end Write

/-- After a failure every call gives the same error and writes nothing, whatever happens to the
device. -/
theorem play_of_failed {p : Printer} {e : HostError} (hfailed : p.failed = some e)
    (hs : List Happening) :
    (play hs p).1 = (calls hs).map (·.answer 0 p.error) ∧
      (play hs p).2.device.contents = p.device.contents := by
  induction hs generalizing p with
  | nil => exact ⟨rfl, rfl⟩
  | cons h hs ih =>
    cases h with
    | call c =>
      obtain ⟨hanswers, hcontents⟩ := ih hfailed
      by_cases hbreaks : c.Breaks
      · rw [play_call_of_breaks hbreaks, calls, List.map_cons, Call.answer_of_breaks hbreaks]
        exact ⟨congrArg _ hanswers, hcontents⟩
      · rw [play_call hbreaks, write_of_failed hfailed]
        exact ⟨congrArg _ hanswers, hcontents⟩
    | resize room => exact ih (p := p.resized room) hfailed

/-- A printer that has not failed writes all calls, or all before the first that does not fit and
the part of that one that fits. -/
theorem play_of_not_failed {p : Printer} (hfailed : p.failed = none) (hs : List Happening) :
    ((play hs p).1 = (calls hs).map (fun c => c.answer c.output.length none) ∧
      (play hs p).2.device.contents = p.device.contents ++ (calls hs).flatMap Call.output) ∨
    ∃ before c after room, hs = before ++ .call c :: after ∧
      before.foldl Happening.roomAfter p.device.room = some room ∧ room < c.output.length ∧
      (play hs p).1 = (calls before).map (fun c => c.answer c.output.length none) ++
        c.answer room (some (.host "write failed" .deviceFull)) ::
          (calls after).map (·.answer 0 (some (.host "write failed" .deviceFull))) ∧
      (play hs p).2.device.contents =
        p.device.contents ++ (calls before).flatMap Call.output ++ c.output.take room := by
  induction hs generalizing p with
  | nil => exact .inl ⟨rfl, (List.append_nil _).symm⟩
  | cons h hs ih =>
    cases h with
    | call c =>
      by_cases hbreaks : c.Breaks
      · rw [play_call_of_breaks hbreaks]
        rcases ih hfailed with
          ⟨hanswers, htext⟩ | ⟨before, c', after, room, rfl, hroom, hlt, hanswers, htext⟩
        · refine .inl ⟨?_, ?_⟩
          · rw [hanswers, calls, List.map_cons, Call.answer_of_breaks hbreaks]
          · rw [htext, calls, List.flatMap_cons, Call.output_of_breaks hbreaks, List.nil_append]
        · refine .inr ⟨.call c :: before, c', after, room, rfl, ?_, hlt, ?_, ?_⟩
          · rw [List.foldl_cons, roomAfter_of_breaks hbreaks, hroom]
          · rw [hanswers, calls, List.map_cons, Call.answer_of_breaks hbreaks, List.cons_append]
          · rw [htext, calls, List.flatMap_cons, Call.output_of_breaks hbreaks, List.nil_append]
      · rw [play_call hbreaks]
        rcases p.fits_or_exceeds c.output with hfits | ⟨room, hroom, hlt⟩
        · have hcontents : Device.contents ⟨c.output :: p.device.taken,
              p.device.room.map (· - c.output.length)⟩ = p.device.contents ++ c.output := by
            simp [Device.contents]
          rw [write_of_fits hfailed hfits]
          rcases ih
              (p := ⟨⟨c.output :: p.device.taken, p.device.room.map (· - c.output.length)⟩, none⟩)
              rfl with
            ⟨hanswers, htext⟩ | ⟨before, c', after, room, rfl, hroom, hlt, hanswers, htext⟩
          · refine .inl ⟨congrArg _ hanswers, ?_⟩
            rw [htext, hcontents, List.append_assoc]
            rfl
          · refine .inr
              ⟨.call c :: before, c', after, room, rfl, hroom, hlt, congrArg _ hanswers, ?_⟩
            rw [htext, hcontents]
            simp only [calls, List.flatMap_cons, List.append_assoc]
        · obtain ⟨hanswers, htext⟩ := play_of_failed
            (p := ⟨⟨c.output.take room :: p.device.taken, some 0⟩, some .deviceFull⟩) rfl hs
          rw [write_of_exceeds hfailed hroom hlt]
          refine .inr ⟨[], c, hs, room, rfl, hroom, hlt, congrArg _ hanswers, ?_⟩
          rw [htext]
          simp [Device.contents, calls]
    | resize room =>
      rcases ih (p := p.resized room) hfailed with
        hall | ⟨before, c, after, room', rfl, hroom, hrest⟩
      · exact .inl hall
      · exact .inr ⟨.resize room :: before, c, after, room', rfl, hroom, hrest⟩

/-- A printer that lays out what it writes in a buffer. The buffer is never cleared: what a text
does not cover is left from earlier calls. -/
structure Buffered where
  printer : Printer
  buffer : Text

namespace Buffered

/-- Lays a number out in a buffer, right justified in a width: its digits come first, the buffer is
made long enough, the digits are moved to its end and the places before them are filled. If the
buffer cannot be made long enough, it is left with the digits. Beside the buffer comes how much of
it the number takes. -/
def layOut (buffer digits : Text) (width : Int) : Text × Except Failure Nat :=
  let gap := wrap (width - digits.length)
  let buffer := Body.overlay buffer 0 digits
  if textLimit < digits.length + gap then (buffer, .error .overlong)
  else
    let buffer := Body.overlay buffer digits.length (List.replicate gap.toNat 0)
    let buffer := Body.overlay buffer gap.toNat (buffer.take digits.length)
    (Body.overlay buffer 0 (List.replicate gap.toNat Text.space), .ok (gap.toNat + digits.length))

/-- Carries a call out by way of the buffer. -/
def perform (b : Buffered) : Call → Answer × Buffered
  | .write t =>
    let (n, p) := b.printer.write t
    (.returned (some n) p.error, { b with printer := p })
  | .writeString t =>
    let buffer := Body.overlay b.buffer 0 t
    let (n, p) := b.printer.write (buffer.take t.length)
    (.returned (some n) p.error, ⟨p, buffer⟩)
  | .writeByte c =>
    let buffer := Body.overlay b.buffer 0 [c]
    let (_, p) := b.printer.write (buffer.take 1)
    (.returned none p.error, ⟨p, buffer⟩)
  | .writeInt v width =>
    match layOut b.buffer (Text.ofInt v.toInt) width.toInt with
    | (buffer, .ok n) =>
      let (_, p) := b.printer.write (buffer.take n)
      (.returned none p.error, ⟨p, buffer⟩)
    | (buffer, .error e) => (.broken e, { b with buffer })

/-- The answers of all calls, and the printer and its buffer after them. -/
def play : List Happening → Buffered → List Answer × Buffered :=
  playBy perform fun b room => { b with printer := b.printer.resized room }

/-- A number that was moved to the end of a buffer comes after as many spaces as there was a gap,
whatever the buffer held before. -/
theorem take_overlays (buffer digits : Text) (gap : Nat) :
    let long := Body.overlay (Body.overlay buffer 0 digits) digits.length (List.replicate gap 0)
    (Body.overlay (Body.overlay long gap (long.take digits.length)) 0
        (List.replicate gap Text.space)).take (gap + digits.length) =
      List.replicate gap Text.space ++ digits := by
  intro long
  have hfirst : digits.length ≤ (Body.overlay buffer 0 digits).length := by
    simpa using Body.le_length_overlay buffer digits 0
  have hdigits : long.take digits.length = digits := by
    rw [Body.take_overlay hfirst, Body.overlay_zero, List.take_left]
  have hgap : gap ≤ long.length := by
    have hle := Body.le_length_overlay (Body.overlay buffer 0 digits) (List.replicate gap 0)
      digits.length
    rw [List.length_replicate] at hle
    exact (Nat.le_add_left _ _).trans hle
  rw [hdigits, Body.overlay_zero, List.length_replicate, Body.drop_overlay hgap,
    ← List.append_assoc]
  refine List.take_left' ?_
  rw [List.length_append, List.length_replicate]

/-- A number is laid out in a buffer exactly if it can be justified, and then it is the justified
number. -/
theorem layOut_eq (buffer digits : Text) (width : Int) :
    ∃ buffer', match justify width digits with
      | .ok t => ∃ n, layOut buffer digits width = (buffer', .ok n) ∧ buffer'.take n = t.toText
      | .error e => layOut buffer digits width = (buffer', .error e) := by
  unfold justify layOut
  dsimp only
  by_cases hlong : textLimit < digits.length + wrap (width - digits.length)
  · rw [if_pos hlong, if_pos hlong]
    exact ⟨_, rfl⟩
  · rw [if_neg hlong, if_neg hlong]
    exact ⟨_, _, rfl, take_overlays buffer digits _⟩

/-- A call by way of the buffer is the call. -/
theorem perform_eq (b : Buffered) (c : Call) :
    ∃ buffer, b.perform c = ((c.perform b.printer).1, ⟨(c.perform b.printer).2, buffer⟩) := by
  obtain ⟨p, buffer⟩ := b
  cases c with
  | write t => exact ⟨buffer, rfl⟩
  | writeString t =>
    refine ⟨Body.overlay buffer 0 t, ?_⟩
    simp only [perform, Body.overlay_zero, List.take_left]
    rfl
  | writeByte c =>
    refine ⟨Body.overlay buffer 0 [c], ?_⟩
    simp only [perform, Body.overlay_zero]
    rfl
  | writeInt v width =>
    obtain ⟨buffer', hlayOut⟩ := layOut_eq buffer (Text.ofInt v.toInt) width.toInt
    refine ⟨buffer', ?_⟩
    rw [Call.perform_writeInt]
    cases hjustify : justify width.toInt (Text.ofInt v.toInt) with
    | ok t =>
      rw [hjustify] at hlayOut
      obtain ⟨n, hlayOut, htake⟩ := hlayOut
      simp only [perform, hlayOut, htake]
      rfl
    | error e =>
      rw [hjustify] at hlayOut
      simp only [perform, hlayOut]

/-- Calls by way of the buffer give the answers of the calls and leave the same printer. -/
theorem play_eq (b : Buffered) (hs : List Happening) :
    ∃ buffer, play hs b =
      ((Printer.play hs b.printer).1, ⟨(Printer.play hs b.printer).2, buffer⟩) := by
  induction hs generalizing b with
  | nil => exact ⟨b.buffer, rfl⟩
  | cons h hs ih =>
    cases h with
    | call c =>
      obtain ⟨buffer, hperform⟩ := b.perform_eq c
      obtain ⟨buffer', hplay⟩ := ih ⟨(c.perform b.printer).2, buffer⟩
      refine ⟨buffer', ?_⟩
      rw [play] at hplay ⊢
      simp only [playBy, hperform, hplay, Printer.play]
    | resize room => exact ih ⟨b.printer.resized room, b.buffer⟩

end Buffered

/-- A printer stops at the first failure. Whatever it is asked to write and whatever room its device
has meanwhile, either all calls succeed and the device gets all their bytes, or there is a first
call that does not fit. Then the device gets the bytes of all calls before it and as many bytes of
its own as there is room for. That call and all calls after it give the same error, the ones after
it write nothing, and nothing more reaches the device even if it has room again. It makes no
difference that what is written is laid out in a buffer that all calls share. The exception is an
integer in a width to which the host cannot pad it: this call breaks off, before a failure and after
it, and the device and the other calls are as if it had not been made. -/
theorem stops_at_failure (d : Device) (hs : List Happening) :
    let full := Report.host "write failed" .deviceFull
    let r := play hs { device := d }
    ((r.1 = (calls hs).map (fun c => c.answer c.output.length none) ∧
        r.2.device.contents = d.contents ++ (calls hs).flatMap Call.output) ∨
      ∃ before c after room, hs = before ++ .call c :: after ∧
        before.foldl Happening.roomAfter d.room = some room ∧ room < c.output.length ∧
        r.1 = (calls before).map (fun c => c.answer c.output.length none) ++
          c.answer room (some full) :: (calls after).map (·.answer 0 (some full)) ∧
        r.2.device.contents =
          d.contents ++ (calls before).flatMap Call.output ++ c.output.take room) ∧
      ∀ buffer, ∃ buffer', Buffered.play hs ⟨{ device := d }, buffer⟩ = (r.1, ⟨r.2, buffer'⟩) :=
  ⟨play_of_not_failed rfl hs, fun buffer => Buffered.play_eq ⟨{ device := d }, buffer⟩ hs⟩

/-- Zero in the least width of the host stands for one byte, and the call breaks off. -/
theorem least_width_breaks :
    (Call.writeInt 0 Int64.minValue).bytes = [48] ∧
      play [.call (.writeInt 0 Int64.minValue)] {} = ([.broken .overlong], {}) :=
  ⟨by decide, by decide⟩

end Printer

end Intcode
