import Intcode.Proofs.Machine.Course

/-!
# Prompts are visible before input

Reading a character needs the source of the selected stream only if nothing of that
stream is unread. Then the default output is flushed first, so that a program never
waits for an answer to a question that is still held back.

Main statement: whenever a source is read, whatever the machine has been through, the
default output holds nothing back, and all that it has taken is on its device.
-/

namespace Intcode

/-- Reading a byte takes a read of the source exactly if nothing is unread. -/
theorem Input.next_source (i : Input) (h : Host) :
    (i.next h).2.source = if i.unread.isEmpty then (i.source.read h).2 else i.source := by
  obtain ⟨source, unread⟩ := i
  cases unread with
  | cons c t => rfl
  | nil =>
    simp only [next, List.isEmpty_nil, if_true]
    rcases source.read h with ⟨(_ | _) | _ | _, _⟩ <;> rfl

namespace Peripherals

/-- Whether reading a character takes a read of the selected stream's source: the stream can be
read, and nothing of it is unread. -/
def awaits (p : Peripherals) : Bool :=
  match p.streams.get? p.input with
  | some { channel := .input i, .. } => i.unread.isEmpty
  | _ => false

/-- Reads a character from the selected input stream as things stand. -/
def fetch : Action Peripherals Cell := do
  let p ← get
  match p.streams.get? p.input with
  | some { channel := .input i, closer } =>
    let (reading, i) := i.next p.host
    setStream p.input { channel := .input i, closer } p.host
    match reading with
    | .failed e => trace (.readFailed p.input e)
    | _ => pure ()
    return reading.character
  | _ => return endOfStream

section Reading

variable {p : Peripherals}

/-- A character is fetched from the selected stream if that can be read. -/
theorem fetch_apply (p : Peripherals) :
    fetch p = match p.streams.get? p.input with
      | some ⟨.input i, closer⟩ =>
        .ok (i.next p.host).1.character
          ((p.withStream p.input ⟨.input (i.next p.host).2, closer⟩ p.host).afterReading p.input
            (i.next p.host).1)
      | _ => .ok endOfStream p := by
  simp only [fetch, Action.bind_apply, Action.get_apply]
  rcases p.streams.get? p.input with _ | ⟨i | o, closer⟩
  · rfl
  · simp only [setStream, Action.bind_apply, Action.modify_apply]
    rcases i.next p.host with ⟨_ | _ | e, i'⟩ <;> rfl
  · rfl

/-- A reading that needs the source makes visible what has been written, and only then fetches the
character. -/
theorem readCharacter_of_awaits (hawaits : p.awaits = true) :
    readCharacter p = fetch (prompt.final p) := by
  have hprompt : prompt.final p = p.prompted := by
    rw [Action.final, prompt_apply, Action.stateOf_ok]
  unfold awaits at hawaits
  rw [hprompt, readCharacter_apply, fetch_apply, p.prompted_selection.1]
  rcases hstream : p.streams.get? p.input with _ | ⟨i | o, closer⟩
  · simp [hstream] at hawaits
  · simp only [hstream] at hawaits
    have hready : p.readied i = p.prompted := if_pos hawaits
    have hsame := get?_readied i hstream
    rw [hready] at hsame
    simp only [hready, hsame]
  · simp [hstream] at hawaits

/-- A reading that does not need the source fetches the character at once. -/
theorem readCharacter_of_not_awaits (hawaits : p.awaits = false) :
    readCharacter p = fetch p := by
  unfold awaits at hawaits
  rw [readCharacter_apply, fetch_apply]
  rcases hstream : p.streams.get? p.input with _ | ⟨i | o, closer⟩
  · rfl
  · simp only [hstream] at hawaits
    have hready : p.readied i = p := if_neg (by rw [hawaits]; decide)
    simp only [hready]
  · rfl

/-- The source of the input stream with a handle. -/
def source? (p : Peripherals) (k : Cell) : Option Source :=
  match p.streams.get? k with
  | some { channel := .input i, .. } => some i.source
  | _ => none

/-- A character is fetched from the source of the selected stream exactly if nothing of the stream
is unread, and the source is read as the host is at that moment. No other source is touched. -/
theorem source?_fetch (p : Peripherals) (k : Cell) :
    (fetch.final p).source? k =
      if p.awaits = true ∧ k = p.input then (p.source? k).map fun s => (s.read p.host).2
      else p.source? k := by
  rw [Action.final, fetch_apply, source?, source?, awaits]
  rcases hstream : p.streams.get? p.input with _ | ⟨i | o, closer⟩
  · simp [Action.stateOf]
  · simp only [Action.stateOf_ok]
    rw [(afterReading_frame _ _ _).1, get?_withStream]
    by_cases hk : k = p.input
    · subst hk
      simp only [hstream, if_pos, Option.map_some, Input.next_source, and_true]
      split <;> rfl
    · rw [if_neg hk, if_neg fun h => hk h.2]
  · simp [Action.stateOf]

/-- Making visible what has been written touches no source. -/
theorem source?_prompt (p : Peripherals) (k : Cell) : (prompt.final p).source? k = p.source? k := by
  rw [Action.final, prompt_apply, Action.stateOf_ok, source?, source?, prompted_streams,
    get?_flushed]
  by_cases hk : k = defaultOutput
  · rw [if_pos hk]
    rcases p.streams.get? k with _ | ⟨i | o, closer⟩ <;> rfl
  · rw [if_neg hk]

/-- Making visible what has been written reads nothing, so a reading that needed its source still
does. -/
theorem awaits_prompt (p : Peripherals) : (prompt.final p).awaits = p.awaits := by
  rw [Action.final, prompt_apply, Action.stateOf_ok, awaits, awaits, p.prompted_selection.1,
    prompted_streams, get?_flushed]
  by_cases hk : p.input = defaultOutput
  · rw [if_pos hk]
    rcases p.streams.get? p.input with _ | ⟨i | o, closer⟩ <;> rfl
  · rw [if_neg hk]

/-- Once what has been written was made visible, nothing is held back unless a write has failed. -/
theorem heldBack_prompt (hfailed : (prompt.final p).hasFailed = false) :
    (prompt.final p).heldBack = [] := by
  rw [Action.final, prompt_apply, Action.stateOf_ok] at hfailed ⊢
  rw [hasFailed, prompted_streams, get?_flushed, if_pos rfl] at hfailed
  rw [heldBack, prompted_streams, get?_flushed, if_pos rfl]
  generalize p.streams.get? defaultOutput = stream at hfailed ⊢
  rcases stream with _ | ⟨i | o, closer⟩
  · rfl
  · rfl
  · simp only [Option.map_some, Stream.flush] at hfailed ⊢
    rcases o.flush_cases p.host with ⟨e, he, heq⟩ | ⟨-, hempty, heq⟩ | ⟨n, s, h', -, -, heq⟩
    · simp [heq, he] at hfailed
    · rw [heq]
      exact hempty
    · rw [heq] at hfailed ⊢
      by_cases hshort : n < o.backlog.text.length
      · rw [if_pos hshort] at hfailed
        simp at hfailed
      · rw [if_neg hshort]
        rfl

/-- What has been written to a device of its own is kept account of, whatever is made visible. -/
theorem Keeps.prompt {limit : Option Nat} {taken : Text}
    (hp : p.Keeps defaultOutput none limit taken) :
    (prompt.final p).Keeps defaultOutput none limit taken := by
  rw [Action.final, prompt_apply, Action.stateOf_ok]
  exact hp.of_reaches (reaches_prompted {} p) id (.inr rfl) fun _ _ => id

/-- A device without a limit never fails. -/
theorem Keeps.hasFailed_eq {taken : Text} (hp : p.Keeps defaultOutput none none taken) :
    p.hasFailed = false := by
  cases hfailed : p.hasFailed with
  | false => rfl
  | true => cases (hp.onDevice_of_hasFailed hfailed).1

end Reading

end Peripherals

namespace Machine

open Peripherals

/-- In its course a machine keeps account of what its default output takes. -/
theorem Course.ledger {new m : Machine} {t : Text} {limit : Option Nat} (hm : Course new t m)
    (hnew : new.peripherals.Keeps defaultOutput none limit []) :
    m.peripherals.Keeps defaultOutput none limit t :=
  hm.keeps (I := fun t p => p.Keeps defaultOutput none limit t) hnew
    (fun _ _ op hp => hp.final op) fun _ _ _ _ _ _ _ hp => hp.withHost fun _ hf => by cases hf

/-- Prompts are visible before input. Whatever a machine has been through since its creation, and
whatever operations on streams follow, those of a run among them: a reading that does not need a
source reads none, and one that does makes visible what has been written before it reads the source
of the selected stream, and no other. At that moment the default output holds nothing back unless a
write of it has failed. Its device then has all bytes that the default output has taken, in order,
and a device without a limit never fails and takes all bytes. -/
theorem prompts_visible {words : Int} {source : Source} {sink : Sink} {host : Host} {tracing : Bool}
    {new m : Machine} {t : Text}
    (hnew : create words (.ofDefaults source sink host tracing) = .ok new) (hm : Course new t m) :
    (∀ bindings : Bindings, bindings.ActByOperations → ∀ limit, ∃ ops,
      (run bindings limit m).2.peripherals = after ops m.peripherals) ∧
    (∀ limit, (run {} limit m).2.peripherals = after (m.runOperations limit) m.peripherals) ∧
    ∀ ops,
      let p := after ops m.peripherals
      let q := prompt.final p
      (p.awaits = false →
        readCharacter p = fetch p ∧ ∀ k, (fetch.final p).source? k = p.source? k) ∧
      (p.awaits = true →
        readCharacter p = fetch q ∧ (∀ k, q.source? k = p.source? k) ∧
        (∀ k, (fetch.final q).source? k =
          if k = q.input then (q.source? k).map fun s => (s.read q.host).2 else q.source? k) ∧
        (q.hasFailed = false → q.heldBack = [] ∧
          ∀ room, sink = .device { room } → q.onDevice = t ++ accepted ops m.peripherals)) ∧
      (sink = .device {} → q.hasFailed = false ∧ ∀ c, p.taking defaultOutput c = [c]) := by
  refine ⟨fun bindings hbindings limit => exists_run_operations hbindings limit m,
    fun limit => run_peripherals conducts_systemCall limit m, fun ops => ?_⟩
  intro p q
  have hledger {room : Option Nat} (hsink : sink = .device { room }) :
      m.peripherals.Keeps defaultOutput none room t := by
    subst hsink
    refine hm.ledger ?_
    rw [create_peripherals hnew]
    exact keeps_ofDefaults source room host tracing
  refine ⟨fun hawaits => ⟨readCharacter_of_not_awaits hawaits, fun k => ?_⟩, fun hawaits =>
    ⟨readCharacter_of_awaits hawaits, source?_prompt p, fun k => ?_, fun hfailed => ?_⟩,
    fun hsink => ?_⟩
  · rw [source?_fetch, if_neg]
    rw [hawaits]
    exact fun h => Bool.false_ne_true h.1
  · have hq : q.awaits = true := (awaits_prompt p).trans hawaits
    rw [source?_fetch]
    simp only [hq, true_and]
  · refine ⟨heldBack_prompt hfailed, fun room hsink => ?_⟩
    have htext := ((hledger hsink).after ops).prompt.onDevice_append
    rwa [heldBack_prompt hfailed, List.append_nil] at htext
  · have hp := (hledger hsink).after ops
    exact ⟨hp.prompt.hasFailed_eq, hp.taking_eq⟩

/-- The code of a program that writes a question mark and then reads a character. -/
def askingCode : List Cell :=
  [Opcode.shortWord ⟨.load, false, false⟩ 63, Opcode.shortWord ⟨.store, false, true⟩ 4,
    Opcode.shortWord ⟨.load, false, false⟩ 14, Opcode.shortWord ⟨.call, false, false⟩ 2,
    Opcode.shortWord ⟨.load, false, false⟩ 13, Opcode.shortWord ⟨.call, false, false⟩ 2,
    Opcode.shortWord ⟨.operate, false, false⟩ 22]

/-- A machine with a program that asks, and with an answer to come. -/
def asking : Machine :=
  { (default : Machine) with
    memory := .ofFn 430 fun i => if i < 401 then 0 else askingCode.getD (i - 401) 0
    lomem := 408
    peripherals := .ofDefaults (.script [[65]] none) (.device {}) default false }

/-- The question mark is held back when the program comes to read, and is on the device when the
answer is read. -/
theorem prompts_visible_asking :
    let p := after [.write 63] asking.peripherals
    let q := prompt.final p
    (asking.runOperations 20).take 2 = [.write 63, .read] ∧ p.awaits = true ∧ p.onDevice = [] ∧
      readCharacter p = fetch q ∧ q.source? defaultInput = some (.script [[65]] none) ∧
      q.onDevice = [63] := by
  intro p q
  have hawaits : p.awaits = true := by decide +kernel
  let new : Machine := { asking with memory := .ofFn 500 initialCell, lomem := codeStart + 3 }
  have hnew : create 500 (.ofDefaults (.script [[65]] none) (.device {}) default false) = .ok new :=
    rfl
  have hcourse : Course new [] asking := .set (m := new) rfl .new
  obtain ⟨-, hwaiting, hplenty⟩ := (prompts_visible hnew hcourse).2.2 [.write 63]
  obtain ⟨hread, hsource, -, hvisible⟩ := hwaiting hawaits
  obtain ⟨-, hdevice⟩ := hvisible (hplenty rfl).1
  refine ⟨by decide +kernel, hawaits, by decide +kernel, hread, ?_, ?_⟩
  · rw [hsource]
    decide +kernel
  · rw [hdevice none rfl]
    decide +kernel

end Machine

end Intcode
