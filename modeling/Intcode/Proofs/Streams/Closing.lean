import Intcode.Proofs.Streams.Ledger
import Mathlib.Data.List.Nodup

/-!
# Closing the streams in any order

Closing all streams visits them one after the other. Each stream is flushed and its
file is closed, whether other streams fail or not. A stream gets in the way of another
one only if both write to one file and the room of that file is limited.

Main statement: where this does not happen, every stream is closed as it would be if it
were closed first, so that the order of the visits cannot be told from what they do.
-/

namespace Intcode

/-- How a stream is closed. -/
structure Closing where
  /-- The bytes that reached its device or file. -/
  sent : Text
  /-- The error of the flush. -/
  flushError : Option HostError
  /-- The ticket that was handed back, if the stream is that of a file. -/
  ticket : Option Ticket
  /-- The error of closing the file. -/
  closeError : Option HostError
  /-- The stream that is left, without its file. -/
  rest : Stream
deriving DecidableEq, Repr

namespace Closing

/-- The first error. -/
def error (c : Closing) : Option HostError := c.flushError <|> c.closeError

/-- There is an error if a flush or closing a file has failed. -/
theorem error_eq_none_iff (c : Closing) :
    c.error = none ↔ c.flushError = none ∧ c.closeError = none := by
  unfold error
  cases c.flushError <;> simp

end Closing

section Congruence

variable {h h' : Host}

/-- How much a sink takes depends on its room only. -/
theorem Sink.write_congr {s : Sink} (hroom : s.room h' = s.room h) (t : Text) :
    (s.write t h').1 = (s.write t h).1 ∧ (s.write t h').2.1 = (s.write t h).2.1 := by
  cases s with
  | device d => exact ⟨rfl, rfl⟩
  | file k offset =>
    have hcount : ((h'.body k).writeAt offset t).1 = ((h.body k).writeAt offset t).1 := by
      simp only [Body.writeAt, show (h'.body k).room = (h.body k).room from hroom]
    simp only [write, hcount, and_self]

/-- What a write leaves of a file depends on that file only. -/
theorem Sink.body_write_congr {f : Nat} (hbody : h'.body f = h.body f)
    (hsize : h'.bodies.size = h.bodies.size) (s : Sink) (t : Text) :
    (s.write t h').2.2.body f = (s.write t h).2.2.body f := by
  cases s with
  | device d => exact hbody
  | file k offset =>
    simp only [write, Host.body_setBody, hsize]
    by_cases hk : k = f
    · rw [hk, hbody]
    · rw [if_neg fun hc => hk hc.1, if_neg fun hc => hk hc.1, hbody]

/-- A write gives no limit to a file without one. -/
theorem Sink.room_write {f : Nat} (hroom : (h.body f).room = none) (s : Sink) (t : Text) :
    ((s.write t h).2.2.body f).room = none := by
  cases s with
  | device d => exact hroom
  | file k offset =>
    simp only [write, Host.body_setBody]
    by_cases hk : k = f ∧ f < h.bodies.size
    · rw [if_pos hk]
      simp only [hk.1, Body.writeAt, hroom]
      split <;> rfl
    · rw [if_neg hk]
      exact hroom

/-- What a flush does to the host is a write, if anything. -/
theorem Output.flush_host (o : Output) (h : Host) :
    (o.flush h).2.2 = h ∨ (o.flush h).2.2 = (o.sink.write o.backlog.text h).2.2 := by
  rcases o.flush_cases h with ⟨e, -, heq⟩ | ⟨-, -, heq⟩ | ⟨n, s, h', -, hwrite, heq⟩
  · exact .inl (by rw [heq])
  · exact .inl (by rw [heq])
  · refine .inr ?_
    rw [heq, hwrite]
    split <;> rfl

/-- A flush depends on the room of the sink only. -/
theorem Output.flush_congr {o : Output} (hroom : o.sink.room h' = o.sink.room h) :
    (o.flush h').1 = (o.flush h).1 ∧ (o.flush h').2.1 = (o.flush h).2.1 := by
  obtain ⟨hcount, hsink⟩ := Sink.write_congr hroom o.backlog.text
  unfold flush
  cases o.failed with
  | some e => exact ⟨rfl, rfl⟩
  | none =>
    by_cases hempty : o.backlog.newest.isEmpty = true
    · simp only [if_pos hempty, and_self]
    · simp only [if_neg hempty, hcount, hsink]
      split <;> exact ⟨rfl, rfl⟩

end Congruence

namespace Stream

variable {h h' : Host}

/-- The bytes that a stream holds back. -/
def heldBack (s : Stream) : Text :=
  match s.channel with
  | .input _ => []
  | .output o => o.backlog.text

/-- How a stream is closed: what it holds back is sent as far as the device takes it, and the ticket
of its file is handed back. -/
def closing (s : Stream) (h : Host) : Closing where
  sent := s.heldBack.take (s.heldBack.length - (s.flush h).2.1.heldBack.length)
  flushError := (s.flush h).1
  ticket := s.closer.map (·.ticket)
  closeError := s.closer.bind fun c => ((s.flush h).2.2.close c).1
  rest := (s.close h).2.1

/-- Closing a stream gives the first error. -/
theorem close_error (s : Stream) (h : Host) : (s.close h).1 = (s.closing h).error := by
  have hcloser := s.flush_closer h
  simp only [close, closing, Closing.error]
  generalize s.flush h = flushed at hcloser ⊢
  obtain ⟨e, ⟨channel, closer⟩, host⟩ := flushed
  simp only at hcloser
  subst hcloser
  cases s.closer with
  | none => cases e <;> rfl
  | some c => rfl

/-- How a stream is closed depends on the room of its file only. -/
theorem closing_congr {s : Stream}
    (hroom : ∀ f, s.file? = some f → (h'.body f).room = (h.body f).room) :
    s.closing h' = s.closing h := by
  have hflush : (s.flush h').1 = (s.flush h).1 ∧ (s.flush h').2.1 = (s.flush h).2.1 := by
    obtain ⟨i | o, closer⟩ := s
    · exact ⟨rfl, rfl⟩
    · have hsink : o.sink.room h' = o.sink.room h := by
        cases hs : o.sink with
        | device d => rfl
        | file k offset => exact hroom k (congrArg Sink.file? hs)
      obtain ⟨herror, hout⟩ := Output.flush_congr hsink
      exact ⟨herror, congrArg (fun o => (⟨.output o, closer⟩ : Stream)) hout⟩
  have hcloseError : (fun c => ((s.flush h').2.2.close c).1) =
      fun c => ((s.flush h).2.2.close c).1 := rfl
  simp only [closing, (s.close_eq h).1, (s.close_eq h').1, hflush, hcloseError]

/-- Closing a stream leaves of a file what depends on that file only. -/
theorem body_close_congr {f : Nat} (hbody : h'.body f = h.body f)
    (hsize : h'.bodies.size = h.bodies.size) (s : Stream) :
    (s.close h').2.2.body f = (s.close h).2.2.body f := by
  rw [(s.close_eq h).2, (s.close_eq h').2]
  change (s.flush h').2.2.body f = (s.flush h).2.2.body f
  obtain ⟨i | o, closer⟩ := s
  · exact hbody
  · have hwrite := Sink.body_write_congr hbody hsize o.sink o.backlog.text
    change (o.flush h').2.2.body f = (o.flush h).2.2.body f
    unfold Output.flush
    cases o.failed with
    | some e => exact hbody
    | none =>
      by_cases hempty : o.backlog.newest.isEmpty = true
      · simp only [if_pos hempty]
        exact hbody
      · simp only [if_neg hempty, apply_ite Prod.snd, ite_self]
        exact hwrite

/-- Closing a stream gives no limit to a file without one. -/
theorem room_close {f : Nat} (hroom : (h.body f).room = none) (s : Stream) :
    ((s.close h).2.2.body f).room = none := by
  rw [(s.close_eq h).2]
  change ((s.flush h).2.2.body f).room = none
  obtain ⟨i | o, closer⟩ := s
  · exact hroom
  · change ((o.flush h).2.2.body f).room = none
    rcases o.flush_host h with heq | heq
    · rw [heq]
      exact hroom
    · rw [heq]
      exact Sink.room_write hroom o.sink _

end Stream

namespace Peripherals

/-- How the stream with a handle is closed if it is closed at once. -/
def closing? (p : Peripherals) (k : Cell) : Option Closing :=
  (p.streams.get? k).map (·.closing p.host)

/-- How the streams with the given handles are closed one after the other. -/
def closings : List Cell → Peripherals → List (Cell × Closing)
  | [], _ => []
  | k :: ks, p => ((p.closing? k).map (k, ·)).toList ++ closings ks (p.closeOne k)

/-- The state after the streams with the given handles have been closed one after the other. -/
def closedAll (ks : List Cell) (p : Peripherals) : Peripherals := ks.foldl closeOne p

/-- Streams that write to one file write to a file without a limit. -/
def Apart (p : Peripherals) : Prop :=
  ∀ j k f, p.Writes j f → p.Writes k f → j = k ∨ (p.host.body f).room = none

/-- A list of handles that visits every open stream once. -/
structure Visits (p : Peripherals) (order : List Cell) : Prop where
  nodup : order.Nodup
  mem : ∀ k, k ∈ order ↔ p.streams.isOpen k = true

section CloseOne

variable {p : Peripherals} {j k : Cell} {f : Nat}

/-- Closing a stream forgets its handle, unless that is a default one. -/
theorem get?_closeOne (p : Peripherals) (k j : Cell) :
    (p.closeOne k).streams.get? j =
      if j = k then
        if k = defaultInput ∨ k = defaultOutput then (p.closing? k).map (·.rest) else none
      else p.streams.get? j := by
  unfold closeOne closing?
  cases hstream : p.streams.get? k with
  | none =>
    by_cases hj : j = k
    · rw [if_pos hj, hj, hstream]
      split <;> rfl
    · rw [if_neg hj]
  | some s =>
    dsimp only
    split
    · rw [get?_withStream, hstream]
      rfl
    · rw [get?_ended]

/-- What closing a stream does to the host. -/
theorem closeOne_host (p : Peripherals) (k : Cell) :
    (p.closeOne k).host =
      (p.streams.get? k).elim p.host fun s => (s.close p.host).2.2 := by
  unfold closeOne
  cases p.streams.get? k with
  | none => rfl
  | some s =>
    dsimp only
    split <;> rfl

/-- Closing a stream changes no file that it does not write to. -/
theorem body_closeOne (hwrites : ¬ p.Writes k f) :
    (p.closeOne k).host.body f = p.host.body f := by
  rw [closeOne_host]
  cases hstream : p.streams.get? k with
  | none => rfl
  | some s =>
    refine (sameFiles_close s p.host).2.2.2.2 f fun heq => hwrites ⟨s, hstream, heq.symm⟩

/-- Closing a stream adds and removes no files. -/
theorem size_closeOne (p : Peripherals) (k : Cell) :
    (p.closeOne k).host.bodies.size = p.host.bodies.size := by
  rw [closeOne_host]
  cases p.streams.get? k with
  | none => rfl
  | some s => exact (sameFiles_close s p.host).1

/-- Closing a stream gives no limit to a file without one. -/
theorem room_closeOne (hroom : (p.host.body f).room = none) (k : Cell) :
    ((p.closeOne k).host.body f).room = none := by
  rw [closeOne_host]
  cases p.streams.get? k with
  | none => exact hroom
  | some s => exact Stream.room_close hroom s

/-- Closing a stream makes no stream write to a file. -/
theorem writes_of_closeOne (hwrites : (p.closeOne k).Writes j f) : p.Writes j f := by
  obtain ⟨s, hs, hfile⟩ := hwrites
  rw [get?_closeOne] at hs
  by_cases hj : j = k
  · rw [if_pos hj] at hs
    by_cases hdefault : k = defaultInput ∨ k = defaultOutput
    · rw [if_pos hdefault] at hs
      obtain ⟨c, hc, rfl⟩ := Option.map_eq_some_iff.mp hs
      obtain ⟨r, hr, rfl⟩ := Option.map_eq_some_iff.mp hc
      refine ⟨r, hj ▸ hr, ?_⟩
      rw [← hfile, ← (r.flush_frame p.host).1]
      simp only [Stream.closing, (r.close_eq p.host).1]
      rfl
    · rw [if_neg hdefault] at hs
      cases hs
  · rw [if_neg hj] at hs
    exact ⟨s, hs, hfile⟩

/-- Streams that are apart stay so when one is closed. -/
theorem Apart.closeOne (hp : p.Apart) (k : Cell) : (p.closeOne k).Apart := by
  intro i j f hi hj
  rcases hp i j f (writes_of_closeOne hi) (writes_of_closeOne hj) with heq | hroom
  · exact .inl heq
  · exact .inr (room_closeOne hroom k)

/-- Closing a stream makes no difference to how another one is closed. -/
theorem closing?_closeOne (hp : p.Apart) (hne : j ≠ k) :
    (p.closeOne k).closing? j = p.closing? j := by
  unfold closing?
  rw [get?_closeOne, if_neg hne]
  cases hstream : p.streams.get? j with
  | none => rfl
  | some s =>
    refine congrArg some (Stream.closing_congr fun f hfile => ?_)
    by_cases hwrites : p.Writes k f
    · rcases hp j k f ⟨s, hstream, hfile⟩ hwrites with heq | hroom
      · exact absurd heq hne
      · rw [room_closeOne hroom, hroom]
    · rw [body_closeOne hwrites]

end CloseOne

section Order

variable {p : Peripherals} {ks : List Cell} {k : Cell} {f : Nat}

/-- Streams are closed one after the other, whether they fail or not, and the first error is
returned. -/
theorem closeStreams_eq (ks : List Cell) (p : Peripherals) :
    closeStreams ks p = .ok ((closings ks p).findSome? (·.2.error)) (closedAll ks p) := by
  induction ks generalizing p with
  | nil => rfl
  | cons k ks ih =>
    rw [closeStreams_cons_apply, ih, closings, closeError, closing?]
    cases p.streams.get? k with
    | none => rfl
    | some s =>
      simp only [Option.map_some, Option.toList_some, List.singleton_append,
        List.findSome?_cons, ← s.close_error]
      cases (s.close p.host).1 <;> rfl

/-- Closing all streams selects the default ones, and fails if a stream does. -/
theorem closeInOrder_apply (order : List Cell) (p : Peripherals) :
    closeInOrder order p =
      concluded "close failed"
        { closedAll order p with input := defaultInput, output := defaultOutput }
        ((closings order p).findSome? (·.2.error)) := by
  simp only [closeInOrder, Action.bind_apply, closeStreams_eq, selectInput, selectOutput,
    Action.modify_apply, check_apply]

/-- Every stream is closed as it would be if it were closed first. -/
theorem closings_eq (hp : p.Apart) (hnodup : ks.Nodup) :
    closings ks p = ks.filterMap fun k => (p.closing? k).map (k, ·) := by
  induction ks generalizing p with
  | nil => rfl
  | cons k ks ih =>
    obtain ⟨hk, hnodup⟩ := List.nodup_cons.mp hnodup
    have hrest : (ks.filterMap fun j => ((p.closeOne k).closing? j).map (j, ·)) =
        ks.filterMap fun j => (p.closing? j).map (j, ·) := by
      refine List.filterMap_congr fun j hj => ?_
      rw [closing?_closeOne hp (ne_of_mem_of_not_mem hj hk)]
    rw [closings, ih (hp.closeOne k) hnodup, hrest, List.filterMap_cons]
    cases p.closing? k <;> rfl

/-- Only default streams are left, each as if it had been closed first. -/
theorem get?_closedAll (hp : p.Apart) (hnodup : ks.Nodup) (j : Cell) :
    (closedAll ks p).streams.get? j =
      if j ∈ ks then
        if j = defaultInput ∨ j = defaultOutput then (p.closing? j).map (·.rest) else none
      else p.streams.get? j := by
  induction ks generalizing p with
  | nil => simp [closedAll]
  | cons k ks ih =>
    obtain ⟨hk, hnodup⟩ := List.nodup_cons.mp hnodup
    change (closedAll ks (p.closeOne k)).streams.get? j = _
    rw [ih (hp.closeOne k) hnodup, get?_closeOne]
    by_cases hj : j = k
    · subst hj
      rw [if_neg hk, if_pos rfl, if_pos List.mem_cons_self]
    · rw [closing?_closeOne hp hj, if_neg hj]
      simp only [List.mem_cons, hj, false_or]

/-- The tickets of the files are handed back one after the other. -/
theorem closed_closedAll (ks : List Cell) (p : Peripherals) :
    (closedAll ks p).host.closed =
      ((closings ks p).filterMap (·.2.ticket)).reverse ++ p.host.closed := by
  induction ks generalizing p with
  | nil => rfl
  | cons k ks ih =>
    change (closedAll ks (p.closeOne k)).host.closed = _
    rw [ih, closings, closeOne_host, closing?]
    cases p.streams.get? k with
    | none => rfl
    | some s =>
      simp only [Option.elim_some, (s.close_eq p.host).2, (s.flush_frame p.host).2.closed,
        Option.map_some, Option.toList_some, List.singleton_append, List.filterMap_cons,
        Stream.closing]
      cases s.closer with
      | none => rfl
      | some c => simp

/-- A file that no visited stream writes to stays as it is. -/
theorem body_closedAll_of_not_writes (hwrites : ∀ k ∈ ks, ¬ p.Writes k f) :
    (closedAll ks p).host.body f = p.host.body f := by
  induction ks generalizing p with
  | nil => rfl
  | cons k ks ih =>
    change (closedAll ks (p.closeOne k)).host.body f = _
    rw [ih fun j hj hw => hwrites j (List.mem_cons_of_mem k hj) (writes_of_closeOne hw),
      body_closeOne (hwrites k List.mem_cons_self)]

/-- A file that one stream writes to holds what it would hold if that stream were closed first. -/
theorem body_closedAll_of_writes (hnodup : ks.Nodup) (hk : k ∈ ks)
    (hwrites : ∀ j, p.Writes j f → j = k) :
    (closedAll ks p).host.body f = (p.closeOne k).host.body f := by
  induction ks generalizing p with
  | nil => cases hk
  | cons j ks ih =>
    obtain ⟨hj, hnodup⟩ := List.nodup_cons.mp hnodup
    change (closedAll ks (p.closeOne j)).host.body f = _
    by_cases heq : j = k
    · subst heq
      refine body_closedAll_of_not_writes fun i hi hw => hj ?_
      rw [← hwrites i (writes_of_closeOne hw)]
      exact hi
    · have hother : ¬ p.Writes j f := fun hw => heq (hwrites j hw)
      have hmem : k ∈ ks := (List.mem_cons.mp hk).resolve_left (Ne.symm heq)
      rw [ih hnodup hmem fun i hw => hwrites i (writes_of_closeOne hw), closeOne_host,
        closeOne_host p k, get?_closeOne, if_neg (Ne.symm heq)]
      cases p.streams.get? k with
      | none => exact body_closeOne hother
      | some s => exact s.body_close_congr (body_closeOne hother) (p.size_closeOne j)

end Order

/-- The ticket of the open file with a handle. -/
def ticket? (p : Peripherals) (k : Cell) : Option Ticket :=
  (p.streams.get? k).bind fun s => s.closer.map (·.ticket)

namespace Visits

variable {p : Peripherals} {order order' : List Cell}

/-- A handle that is not visited is not open. -/
theorem get?_eq_none (h : p.Visits order) {k : Cell} (hk : k ∉ order) :
    p.streams.get? k = none := by
  rw [h.mem, StreamTable.isOpen] at hk
  simpa using hk

/-- Two visits of all open streams differ in their order only. -/
theorem perm (h : p.Visits order) (h' : p.Visits order') : order.Perm order' :=
  (List.perm_ext_iff_of_nodup h.nodup h'.nodup).mpr fun k => (h.mem k).trans (h'.mem k).symm

/-- Every open stream is closed once, in the order of the visits. -/
theorem closings_handles (h : p.Visits order) (hp : p.Apart) :
    (closings order p).map (·.1) = order := by
  have hhandle : ∀ k ∈ order, ((p.closing? k).map (k, ·)).map (·.1) = some k := by
    intro k hk
    obtain ⟨s, hs⟩ := Option.isSome_iff_exists.mp ((h.mem k).mp hk)
    rw [closing?, hs]
    rfl
  rw [closings_eq hp h.nodup, List.map_filterMap, List.filterMap_congr hhandle,
    List.filterMap_some]

/-- In any order every stream is closed in the same way. -/
theorem closings_perm (h : p.Visits order) (h' : p.Visits order') (hp : p.Apart) :
    (closings order p).Perm (closings order' p) := by
  rw [closings_eq hp h.nodup, closings_eq hp h'.nodup]
  exact (h.perm h').filterMap _

/-- Only the default streams are left. -/
theorem get?_closedAll (h : p.Visits order) (hp : p.Apart) (k : Cell) :
    (closedAll order p).streams.get? k =
      if k = defaultInput ∨ k = defaultOutput then (p.closing? k).map (·.rest) else none := by
  rw [Peripherals.get?_closedAll hp h.nodup]
  by_cases hk : k ∈ order
  · rw [if_pos hk]
  · rw [if_neg hk, closing?, h.get?_eq_none hk]
    split <;> rfl

/-- The tickets of all open files are handed back, and no others. -/
theorem closed_closedAll (h : p.Visits order) (hp : p.Apart) :
    (closedAll order p).host.closed = (order.filterMap p.ticket?).reverse ++ p.host.closed := by
  have hticket : ∀ k, ((p.closing? k).map (k, ·)).bind (·.2.ticket) = p.ticket? k := by
    intro k
    rw [closing?, ticket?]
    cases p.streams.get? k <;> rfl
  rw [Peripherals.closed_closedAll, closings_eq hp h.nodup, List.filterMap_filterMap,
    List.filterMap_congr fun k _ => hticket k]

/-- A file that at most one stream writes to holds the same after any visits. -/
theorem body_closedAll (h : p.Visits order) (h' : p.Visits order') {f : Nat}
    (hsole : ∀ j k, p.Writes j f → p.Writes k f → j = k) :
    (closedAll order p).host.body f = (closedAll order' p).host.body f := by
  by_cases hwrites : ∃ k, p.Writes k f
  · obtain ⟨k, hk⟩ := hwrites
    have hopen : p.streams.isOpen k = true := by
      obtain ⟨s, hs, -⟩ := hk
      rw [StreamTable.isOpen, hs]
      rfl
    have honly (j : Cell) (hj : p.Writes j f) : j = k := hsole j k hj hk
    rw [body_closedAll_of_writes h.nodup ((h.mem k).mpr hopen) honly,
      body_closedAll_of_writes h'.nodup ((h'.mem k).mpr hopen) honly]
  · have hnone (order : List Cell) : ∀ k ∈ order, ¬ p.Writes k f :=
      fun k _ hk => hwrites ⟨k, hk⟩
    rw [body_closedAll_of_not_writes (hnone order), body_closedAll_of_not_writes (hnone order')]

end Visits

/-- Closing all streams succeeds exactly if no flush and no close fails. -/
theorem closeInOrder_eq_ok_iff (order : List Cell) (p : Peripherals) :
    (∃ q, closeInOrder order p = .ok () q) ↔
      ∀ c ∈ closings order p, c.2.flushError = none ∧ c.2.closeError = none := by
  have herror : (closings order p).findSome? (·.2.error) = none ↔
      ∀ c ∈ closings order p, c.2.flushError = none ∧ c.2.closeError = none := by
    simp only [List.findSome?_eq_none_iff, Closing.error_eq_none_iff]
  rw [← herror, closeInOrder_apply]
  cases (closings order p).findSome? (·.2.error) with
  | none => exact ⟨fun _ => rfl, fun _ => ⟨_, rfl⟩⟩
  | some e =>
    refine ⟨?_, fun hnone => by cases hnone⟩
    rintro ⟨q, hq⟩
    cases hq

end Peripherals

end Intcode
