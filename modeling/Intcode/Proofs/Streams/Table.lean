import Intcode.Proofs.Streams.Moves

/-!
# The stream table is always in order

The default streams are opened once and stay open under their handles, whatever is
selected, ended or closed. All other handles are those of files. Each file has the
ticket that the host gave for it, and no two open files have the same ticket, so no
two handles share a stream.

Main statement: every operation on streams keeps the table in order.
-/

namespace Intcode

/-- Sources go on one after the other. -/
theorem Source.Continues.trans {s s' s'' : Source} (h : s.Continues s') (h' : s'.Continues s'') :
    s.Continues s'' := by
  cases h with
  | script chunks _ ending =>
    cases h' with
    | script _ chunks' _ => exact .script chunks chunks' ending
  | file k offset _ =>
    cases h' with
    | file _ _ offset' => exact .file k offset offset'

namespace Sink

/-- The same device with more written to it, or the same file at another offset. -/
inductive Continues : Sink → Sink → Prop
  | device {d d' : Device} (h : d.contents <+: d'.contents) : Continues (.device d) (.device d')
  | file (k offset offset' : Nat) : Continues (.file k offset) (.file k offset')

/-- A sink goes on with itself. -/
theorem Continues.refl (s : Sink) : s.Continues s := by
  cases s with
  | device d => exact .device List.prefix_rfl
  | file k offset => exact .file k offset offset

/-- Sinks go on one after the other. -/
theorem Continues.trans {s s' s'' : Sink} (h : s.Continues s') (h' : s'.Continues s'') :
    s.Continues s'' := by
  cases h with
  | device hbefore =>
    cases h' with
    | device hbefore' => exact .device (hbefore.trans hbefore')
  | file k offset _ =>
    cases h' with
    | file _ _ offset' => exact .file k offset offset'

/-- A sink goes on after a write. -/
theorem continues_write (s : Sink) (t : Text) (h : Host) : s.Continues (s.write t h).2.1 := by
  cases s with
  | device d =>
    apply Continues.device
    change d.contents <+: (d.write t).2.contents
    rw [Device.contents_write]
    exact List.prefix_append _ _
  | file k offset => exact .file k offset _

end Sink

namespace Output

/-- The sink of a stream goes on after a flush. -/
theorem continues_flush (o : Output) (h : Host) : o.sink.Continues (o.flush h).2.1.sink := by
  rcases o.flush_cases h with ⟨e, -, heq⟩ | ⟨-, -, heq⟩ | ⟨n, s, h', -, hwrite, heq⟩
  · rw [heq]
    exact .refl _
  · rw [heq]
    exact .refl _
  · have hsink := o.sink.continues_write o.backlog.text h
    rw [hwrite] at hsink
    rw [heq]
    split <;> exact hsink

/-- The sink of a stream goes on after the stream has been given a byte. -/
theorem continues_put (o : Output) (c : UInt8) (h : Host) :
    o.sink.Continues (o.put c h).2.1.sink := by
  have hflush := o.continues_flush h
  cases hfailed : o.failed with
  | some e =>
    rw [put_of_failed hfailed]
    exact .refl _
  | none =>
    rw [put_of_not_failed hfailed]
    by_cases hroom : o.backlog.room = 0
    · rw [if_pos hroom]
      generalize o.flush h = outcome at hflush ⊢
      obtain ⟨_ | e, o', h'⟩ := outcome <;> exact hflush
    · rw [if_neg hroom]
      exact .refl _

end Output

namespace Stream

/-- The same stream at a later time: it has the same direction, and so far nobody has closed it. -/
inductive Continues : Stream → Stream → Prop
  | input {i i' : Input} (closer : Option Closer) (h : i.source.Continues i'.source) :
      Continues ⟨.input i, closer⟩ ⟨.input i', closer⟩
  | output {o o' : Output} (closer : Option Closer) (h : o.sink.Continues o'.sink) :
      Continues ⟨.output o, closer⟩ ⟨.output o', closer⟩

/-- A stream goes on after a flush. -/
theorem continues_flush (s : Stream) (h : Host) : s.Continues (s.flush h).2.1 := by
  obtain ⟨i | o, closer⟩ := s
  · exact .input closer (.refl _)
  · exact .output closer (o.continues_flush h)

/-- A stream that is no file goes on after it has been closed. -/
theorem continues_close {s : Stream} (hcloser : s.closer = none) (h : Host) :
    s.Continues (s.close h).2.1 := by
  have hsame : ({ (s.flush h).2.1 with closer := none } : Stream) = (s.flush h).2.1 := by
    rw [← hcloser, ← s.flush_closer h]
  rw [(s.close_eq h).1, hsame]
  exact s.continues_flush h

/-- A stream that goes on is closed in the same way. -/
theorem Continues.closer_eq {s s' : Stream} (h : s.Continues s') : s'.closer = s.closer := by
  cases h <;> rfl

end Stream

namespace Host

/-- Opening a file takes the next ticket. -/
theorem openFile_ticket {h host : Host} {name : Text} {source : Source} {closer : Closer}
    (hopen : h.openFile name = .ok (source, closer, host)) :
    closer.ticket = h.next ∧ host.next = h.next + 1 := by
  simp only [openFile, bind, Except.bind, pure, Except.pure] at hopen
  split at hopen
  · split at hopen <;> cases hopen
    exact ⟨rfl, rfl⟩
  · split at hopen <;> cases hopen
    exact ⟨rfl, rfl⟩

/-- Creating a file takes the next ticket. -/
theorem createFile_ticket {h host : Host} {name : Text} {sink : Sink} {closer : Closer}
    (hcreate : h.createFile name = .ok (sink, closer, host)) :
    closer.ticket = h.next ∧ host.next = h.next + 1 := by
  cases createdAs_of_createFile hcreate <;> exact ⟨rfl, rfl⟩

end Host

namespace Peripherals

/-- Opening a file under either of two names takes the next ticket. -/
theorem openEither_ticket {h host : Host} {name : Text} {source : Source} {closer : Closer}
    (hopen : openEither h name = .ok (source, closer, host)) :
    closer.ticket = h.next ∧ host.next = h.next + 1 := by
  obtain ⟨name', hfile⟩ := exists_openFile hopen
  exact Host.openFile_ticket hfile

/-- The stream table is in order, for default streams that were opened with the given source and
sink. -/
structure InOrder (source : Source) (sink : Sink) (p : Peripherals) : Prop where
  /-- The default input can be read, and it still reads from its source. -/
  input : ∃ i, p.streams.get? defaultInput = some ⟨.input i, none⟩ ∧ source.Continues i.source
  /-- The default output can be written, and it still writes to its sink. -/
  output : ∃ o, p.streams.get? defaultOutput = some ⟨.output o, none⟩ ∧ sink.Continues o.sink
  /-- All other handles are positive and belong to files, each with a ticket of the host. -/
  file : ∀ k s, p.streams.get? k = some s → k ≠ defaultInput → k ≠ defaultOutput →
    firstFile.toInt ≤ k.toInt ∧ ∃ c, s.closer = some c ∧ c.ticket < p.host.next
  /-- No two open files have the same ticket. -/
  distinct : ∀ j k s t c d, p.streams.get? j = some s → p.streams.get? k = some t →
    s.closer = some c → t.closer = some d → c.ticket = d.ticket → j = k

/-- New peripherals have the default streams only. -/
theorem get?_ofDefaults (source : Source) (sink : Sink) (host : Host) (tracing : Bool) (k : Cell) :
    (ofDefaults source sink host tracing).streams.get? k =
      if k = defaultOutput then some ⟨.output { sink }, none⟩
      else if k = defaultInput then some ⟨.input { source }, none⟩ else none := by
  simp only [ofDefaults, StreamTable.get?_insert]
  rfl

namespace InOrder

variable {source : Source} {sink : Sink} {p : Peripherals}

/-- New default streams are in order. -/
theorem ofDefaults (source : Source) (sink : Sink) (host : Host) (tracing : Bool) :
    (Peripherals.ofDefaults source sink host tracing).InOrder source sink := by
  have hget := get?_ofDefaults source sink host tracing
  refine ⟨⟨_, hget _, .refl _⟩, ⟨_, hget _, .refl _⟩, ?_, ?_⟩
  · intro k s hs hinput houtput
    rw [hget, if_neg houtput, if_neg hinput] at hs
    cases hs
  · intro j k s t c d hs _ hc
    rw [hget] at hs
    split at hs
    · cases hs
      cases hc
    · split at hs
      · cases hs
        cases hc
      · cases hs

/-- What closes a default stream is nothing. -/
theorem closer_eq_none (hp : p.InOrder source sink) {k : Cell} {s : Stream}
    (hstream : p.streams.get? k = some s) (hdefault : k = defaultInput ∨ k = defaultOutput) :
    s.closer = none := by
  rcases hdefault with rfl | rfl
  · obtain ⟨i, hi, -⟩ := hp.input
    rw [hi] at hstream
    cases hstream
    rfl
  · obtain ⟨o, ho, -⟩ := hp.output
    rw [ho] at hstream
    cases hstream
    rfl

/-- The order depends on the streams, and on how many tickets have been given. -/
theorem congr {q : Peripherals} (hp : p.InOrder source sink) (hstreams : q.streams = p.streams)
    (hnext : p.host.next ≤ q.host.next) : q.InOrder source sink where
  input := by rw [hstreams]; exact hp.input
  output := by rw [hstreams]; exact hp.output
  file k s hs hinput houtput := by
    rw [hstreams] at hs
    obtain ⟨hfirst, c, hc, hlt⟩ := hp.file k s hs hinput houtput
    exact ⟨hfirst, c, hc, Nat.lt_of_lt_of_le hlt hnext⟩
  distinct := by rw [hstreams]; exact hp.distinct

/-- A stream that goes on leaves the table in order. -/
theorem withStream {k : Cell} {s s' : Stream} {host : Host} (hp : p.InOrder source sink)
    (hstream : p.streams.get? k = some s) (hs : s.Continues s') (hnext : host.next = p.host.next) :
    (p.withStream k s' host).InOrder source sink := by
  have hget (j : Cell) : (p.withStream k s' host).streams.get? j =
      if j = k then some s' else p.streams.get? j := by
    rw [get?_withStream, hstream]
    rfl
  -- Every stream of the new table was there before, with the same ticket.
  have hold {j : Cell} {t : Stream} (ht : (p.withStream k s' host).streams.get? j = some t) :
      ∃ t₀, p.streams.get? j = some t₀ ∧ t.closer = t₀.closer := by
    rw [hget] at ht
    by_cases hj : j = k
    · rw [if_pos hj] at ht
      cases ht
      exact ⟨s, hj ▸ hstream, hs.closer_eq⟩
    · rw [if_neg hj] at ht
      exact ⟨t, ht, rfl⟩
  refine ⟨?_, ?_, ?_, ?_⟩
  · obtain ⟨i, hi, hsource⟩ := hp.input
    by_cases hk : defaultInput = k
    · rw [hget, if_pos hk]
      rw [← hk, hi] at hstream
      cases hstream
      cases hs with
      | input _ hcontinues => exact ⟨_, rfl, hsource.trans hcontinues⟩
    · rw [hget, if_neg hk]
      exact ⟨i, hi, hsource⟩
  · obtain ⟨o, ho, hsink⟩ := hp.output
    by_cases hk : defaultOutput = k
    · rw [hget, if_pos hk]
      rw [← hk, ho] at hstream
      cases hstream
      cases hs with
      | output _ hcontinues => exact ⟨_, rfl, hsink.trans hcontinues⟩
    · rw [hget, if_neg hk]
      exact ⟨o, ho, hsink⟩
  · intro j t ht hinput houtput
    obtain ⟨t₀, ht₀, hcloser⟩ := hold ht
    rw [hcloser]
    obtain ⟨hfirst, c, hc, hlt⟩ := hp.file j t₀ ht₀ hinput houtput
    exact ⟨hfirst, c, hc, hnext ▸ hlt⟩
  · intro j l t u c d ht hu hc hd
    obtain ⟨t₀, ht₀, hcloser⟩ := hold ht
    obtain ⟨u₀, hu₀, hcloser'⟩ := hold hu
    exact hp.distinct j l t₀ u₀ c d ht₀ hu₀ (hcloser ▸ hc) (hcloser' ▸ hd)

/-- The end of a file leaves the table in order. -/
theorem ended {k : Cell} {s : Stream} (hp : p.InOrder source sink)
    (hfile : k ≠ defaultInput ∧ k ≠ defaultOutput) : (p.ended k s).InOrder source sink := by
  have hold {j : Cell} {t : Stream} (ht : (p.ended k s).streams.get? j = some t) :
      p.streams.get? j = some t := by
    rw [get?_ended] at ht
    split at ht
    · cases ht
    · exact ht
  have hnext : (p.ended k s).host.next = p.host.next := by
    simp only [Peripherals.ended, (s.close_eq p.host).2]
    exact (s.flush_frame p.host).2.next
  refine ⟨?_, ?_, ?_, ?_⟩
  · rw [get?_ended, if_neg (Ne.symm hfile.1)]
    exact hp.input
  · rw [get?_ended, if_neg (Ne.symm hfile.2)]
    exact hp.output
  · intro j t ht
    rw [hnext]
    exact hp.file j t (hold ht)
  · intro j l t u c d ht hu
    exact hp.distinct j l t u c d (hold ht) (hold hu)

/-- A file under a free handle leaves the table in order. -/
theorem added {k : Cell} {s : Stream} {c : Closer} {host : Host} (hp : p.InOrder source sink)
    (hfree : freeHandle? p.streams handleCount p.nextHandle = some k) (hcloser : s.closer = some c)
    (hticket : c.ticket = p.host.next ∧ host.next = p.host.next + 1) :
    ((p.withHost host).added k s).InOrder source sink := by
  obtain ⟨hinput, houtput⟩ := ne_defaults_of_free hfree
  have hget (j : Cell) : ((p.withHost host).added k s).streams.get? j =
      if j = k then some s else p.streams.get? j := get?_added ..
  -- Every ticket in the old table is older than the new one.
  have holder {j : Cell} {t : Stream} {d : Closer} (ht : p.streams.get? j = some t)
      (hd : t.closer = some d) : d.ticket < p.host.next := by
    by_cases hdefault : j = defaultInput ∨ j = defaultOutput
    · rw [hp.closer_eq_none ht hdefault] at hd
      cases hd
    · rw [not_or] at hdefault
      obtain ⟨-, d', hd', hlt⟩ := hp.file j t ht hdefault.1 hdefault.2
      rw [hd] at hd'
      cases hd'
      exact hlt
  refine ⟨?_, ?_, ?_, ?_⟩
  · rw [hget, if_neg (Ne.symm hinput)]
    exact hp.input
  · rw [hget, if_neg (Ne.symm houtput)]
    exact hp.output
  · intro j t ht hj hj'
    change _ ∧ ∃ c, t.closer = some c ∧ c.ticket < host.next
    rw [hget] at ht
    by_cases heq : j = k
    · rw [if_pos heq] at ht
      cases ht
      refine ⟨heq ▸ (freeHandle?_eq_some hfree).2, c, hcloser, ?_⟩
      rw [hticket.1, hticket.2]
      exact Nat.lt_succ_self _
    · rw [if_neg heq] at ht
      obtain ⟨hfirst, d, hd, hlt⟩ := hp.file j t ht hj hj'
      refine ⟨hfirst, d, hd, ?_⟩
      rw [hticket.2]
      exact Nat.lt_succ_of_lt hlt
  · intro j l t u d e ht hu hd he heq
    rw [hget] at ht hu
    by_cases hj : j = k
    · rw [if_pos hj] at ht
      cases ht
      by_cases hl : l = k
      · rw [hj, hl]
      · rw [if_neg hl] at hu
        rw [hcloser] at hd
        cases hd
        exact absurd heq (Nat.ne_of_gt (hticket.1 ▸ holder hu he))
    · rw [if_neg hj] at ht
      by_cases hl : l = k
      · rw [if_pos hl] at hu
        cases hu
        rw [hcloser] at he
        cases he
        exact absurd heq (Nat.ne_of_lt (hticket.1 ▸ holder ht hd))
      · rw [if_neg hl] at hu
        exact hp.distinct j l t u d e ht hu hd he heq

end InOrder

/-- A move leaves the table in order. -/
theorem Move.inOrder {source : Source} {sink : Sink} {scope : Scope} {p q : Peripherals} {k : Cell}
    (hmove : Move scope p k q) (hp : p.InOrder source sink) : q.InOrder source sink := by
  cases hmove with
  | note k e => exact hp.congr rfl (Nat.le_refl _)
  | select k i o => exact hp.congr rfl (Nat.le_refl _)
  | @flush s hstream =>
    exact hp.withStream hstream (s.continues_flush p.host) (s.flush_frame p.host).2.next
  | @read _ i closer _ hstream =>
    exact hp.withStream hstream (.input closer (i.next_front p.host).2.2) rfl
  | @write _ o closer c _ hstream =>
    exact hp.withStream hstream (.output closer (o.continues_put c p.host))
      (o.put_frame c p.host).2.next
  | finish _ hfile _ => exact hp.ended hfile
  | @settle _ s hdefault hstream =>
    refine hp.withStream hstream (s.continues_close (hp.closer_eq_none hstream hdefault) p.host) ?_
    rw [(s.close_eq p.host).2]
    exact (s.flush_frame p.host).2.next
  | find _ hopen hfree => exact hp.added hfree rfl (openEither_ticket hopen)
  | create _ hcreate hfree => exact hp.added hfree rfl (Host.createFile_ticket hcreate)

/-- Moves leave the table in order. -/
theorem Reaches.inOrder {source : Source} {sink : Sink} {scope : Scope} {p q : Peripherals}
    (hreach : Reaches scope p q) (hp : p.InOrder source sink) : q.InOrder source sink :=
  hreach.preserves (fun _ _ _ hmove => hmove.inOrder) hp

namespace InOrder

variable {source : Source} {sink : Sink} {p : Peripherals}

/-- An entry in the journal leaves the table in order. -/
theorem traced (hp : p.InOrder source sink) (e : Event) : (p.traced e).InOrder source sink :=
  hp.congr (traced_streams ..) (Nat.le_of_eq (by rw [traced_host]))

/-- A file that gets no handle leaves the table in order. -/
theorem acquire {host : Host} (hp : p.InOrder source sink) (hhost : p.host.Acquires host) :
    (p.withHost host).InOrder source sink := by
  have hnext : host.next = p.host.next + 1 := by
    cases hhost with
    | opened hopen => exact (openEither_ticket hopen).2
    | created hcreate => exact (Host.createFile_ticket hcreate).2
  exact hp.congr rfl (hnext ▸ Nat.le_succ _)

/-- Every operation leaves the table in order. -/
theorem final (hp : p.InOrder source sink) (op : StreamOperation) :
    (op.action.final p).InOrder source sink := by
  rcases op.final_reaches p with hreach | ⟨-, host, hhost, hfinal⟩
  · exact hreach.inOrder hp
  · rw [hfinal]
    exact hp.acquire hhost

/-- Operations leave the table in order. -/
theorem after (hp : p.InOrder source sink) (ops : List StreamOperation) :
    (Peripherals.after ops p).InOrder source sink := by
  induction ops generalizing p with
  | nil => exact hp
  | cons op ops ih => exact ih (hp.final op)

/-- A handle is open only if it is one of the default ones or that of a file. -/
theorem range (hp : p.InOrder source sink) {k : Cell} (hopen : p.streams.isOpen k = true) :
    k = defaultInput ∨ k = defaultOutput ∨ (3 ≤ k.toInt ∧ k.toInt ≤ 32767) := by
  obtain ⟨s, hs⟩ := Option.isSome_iff_exists.mp hopen
  by_cases hinput : k = defaultInput
  · exact .inl hinput
  by_cases houtput : k = defaultOutput
  · exact .inr (.inl houtput)
  have hfirst : (3 : Int) ≤ k.toInt := (hp.file k s hs hinput houtput).1
  have hlast : k.toInt < 32768 := k.toInt_lt
  exact .inr (.inr ⟨hfirst, by omega⟩)

/-- No two open handles share a stream. -/
theorem injective (hp : p.InOrder source sink) {j k : Cell} {s : Stream}
    (hj : p.streams.get? j = some s) (hk : p.streams.get? k = some s) : j = k := by
  obtain ⟨i, hi, -⟩ := hp.input
  obtain ⟨o, ho, -⟩ := hp.output
  cases hcloser : s.closer with
  | some c => exact hp.distinct j k s s c c hj hk hcloser hcloser rfl
  | none =>
    -- Only the default streams have no ticket, and they have different directions.
    have hdefault {l : Cell} (hl : p.streams.get? l = some s) :
        l = defaultInput ∨ l = defaultOutput := by
      by_cases hinput : l = defaultInput
      · exact .inl hinput
      by_cases houtput : l = defaultOutput
      · exact .inr houtput
      obtain ⟨-, c, hc, -⟩ := hp.file l s hl hinput houtput
      rw [hcloser] at hc
      cases hc
    rcases hdefault hj with rfl | rfl <;> rcases hdefault hk with rfl | rfl
    · rfl
    · rw [← hj, hi] at hk
      rw [ho] at hk
      cases hk
    · rw [← hj, ho] at hk
      rw [hi] at hk
      cases hk
    · rfl

end InOrder

section Handles

variable {t : StreamTable} {h k : Cell} {n : Nat}

/-- The handles are tried in turn, and the first comes after the last. -/
theorem toInt_handleAfter (h : Cell) :
    (handleAfter h).toInt = if 3 ≤ h.toInt ∧ h.toInt < 32767 then h.toInt + 1 else 3 := by
  have hlow := h.le_toInt
  have hhigh := h.toInt_lt
  have hnext : (h + 1).toInt = if h.toInt < 32767 then h.toInt + 1 else -32768 := by
    rw [BitVec.toInt_add, Int.bmod_def, show (1 : Cell).toInt = 1 from rfl]
    split <;> omega
  have hfirst : firstFile.toInt = 3 := rfl
  unfold handleAfter
  rw [apply_ite BitVec.toInt, hnext, hfirst]
  split <;> split <;> split <;> omega

/-- A search that finds nothing goes on after its first handle, which is open or none of a file. -/
theorem freeHandle?_succ_eq_none :
    freeHandle? t (n + 1) h = none ↔
      (3 ≤ h.toInt → t.isOpen h = true) ∧ freeHandle? t n (handleAfter h) = none := by
  have hfirst : firstFile.toInt = 3 := rfl
  rw [freeHandle?, hfirst]
  by_cases hlt : h.toInt < 3
  · have hcond : (t.isOpen h || decide (h.toInt < 3)) = true := by
      rw [decide_eq_true hlt, Bool.or_true]
    rw [if_pos hcond]
    exact ⟨fun hnone => ⟨fun hle => absurd hlt (Int.not_lt.mpr hle), hnone⟩, fun hand => hand.2⟩
  · have hle := Int.not_lt.mp hlt
    rw [decide_eq_false hlt, Bool.or_false]
    cases hopen : t.isOpen h with
    | true => exact ⟨fun hnone => ⟨fun _ => rfl, hnone⟩, fun hand => hand.2⟩
    | false =>
      constructor
      · intro hnone
        cases hnone
      · rintro ⟨hall, -⟩
        cases hall hle

/-- A search that finds nothing has met open handles only, up to the last one. -/
theorem isOpen_of_freeHandle?_eq_none (hnone : freeHandle? t n h = none) (hfile : 3 ≤ h.toInt)
    (hle : h.toInt ≤ k.toInt) (hlt : k.toInt < h.toInt + n) : t.isOpen k = true := by
  have hhigh := k.toInt_lt
  induction n generalizing h with
  | zero => omega
  | succ n ih =>
    obtain ⟨hopen, hrest⟩ := freeHandle?_succ_eq_none.mp hnone
    by_cases heq : h.toInt = k.toInt
    · rw [← BitVec.eq_of_toInt_eq heq]
      exact hopen hfile
    · have hafter : (handleAfter h).toInt = h.toInt + 1 := by
        rw [toInt_handleAfter, if_pos (by omega)]
      exact ih hrest (by omega) (by omega) (by omega)

/-- A search that finds nothing goes on from the first handle after the last one. -/
theorem freeHandle?_wraps (hnone : freeHandle? t n h = none) (hfile : 3 ≤ h.toInt) {j : Nat}
    (hj : h.toInt + n = 32768 + j) : freeHandle? t j firstFile = none := by
  have hhigh := h.toInt_lt
  induction n generalizing h with
  | zero => omega
  | succ n ih =>
    obtain ⟨-, hrest⟩ := freeHandle?_succ_eq_none.mp hnone
    by_cases hlast : h.toInt < 32767
    · have hafter : (handleAfter h).toInt = h.toInt + 1 := by
        rw [toInt_handleAfter, if_pos ⟨hfile, hlast⟩]
      exact ih hrest (by omega) (by omega) (handleAfter h).toInt_lt
    · have hafter : handleAfter h = firstFile := by
        apply BitVec.eq_of_toInt_eq
        rw [toInt_handleAfter, if_neg fun hand => hlast hand.2]
        rfl
      obtain rfl : n = j := by omega
      rw [hafter] at hrest
      exact hrest

/-- The search for a free handle finds none exactly when all handles of files are open. -/
theorem freeHandle?_eq_none_iff :
    freeHandle? t handleCount h = none ↔ ∀ k : Cell, 3 ≤ k.toInt → t.isOpen k = true := by
  have hcount : handleCount = 32767 + 1 := rfl
  have hlow := h.le_toInt
  have hhigh := h.toInt_lt
  constructor
  · intro hnone k hk
    have hlast := k.toInt_lt
    by_cases hfile : 3 ≤ h.toInt
    · by_cases hle : h.toInt ≤ k.toInt
      · exact isOpen_of_freeHandle?_eq_none hnone hfile hle (by omega)
      · have hwraps := freeHandle?_wraps hnone hfile (j := h.toInt.toNat) (by omega)
        exact isOpen_of_freeHandle?_eq_none hwraps (Int.le_refl _) hk
          (by change k.toInt < 3 + _; omega)
    · rw [hcount] at hnone
      have hrest := (freeHandle?_succ_eq_none.mp hnone).2
      have hafter : (handleAfter h).toInt = 3 := by
        rw [toInt_handleAfter, if_neg fun hand => hfile hand.1]
      exact isOpen_of_freeHandle?_eq_none hrest (by omega) (by omega) (by omega)
  · intro hopen
    generalize handleCount = n
    induction n generalizing h with
    | zero => rfl
    | succ n ih =>
      exact freeHandle?_succ_eq_none.mpr
        ⟨hopen h, ih (handleAfter h).le_toInt (handleAfter h).toInt_lt⟩

end Handles

section Finds

variable (p : Peripherals)

/-- A file that can be opened neither under its name nor under its name in lower case gets no
handle, and the streams stay as they are. -/
theorem findInput_of_refused {name : Text} {e e' : HostError}
    (hname : Text.matchesWord name "SYSIN" = false) (hopen : p.host.openFile name = .error e)
    (hlower : p.host.openFile (Text.lowerCase name) = .error e') :
    ∃ journal, findInput name p = .ok 0 { p with journal } := by
  have hrefused : ∃ e, openEither p.host name = .error e := by
    unfold openEither
    rw [hopen]
    dsimp only
    split
    · exact ⟨e, rfl⟩
    · exact ⟨e', hlower⟩
  obtain ⟨refusal, hrefused⟩ := hrefused
  obtain ⟨journal, hjournal⟩ := p.traced_eq (.findInputFailed name refusal)
  refine ⟨journal, ?_⟩
  rw [findInput_apply, hname, hrefused, ← hjournal]
  rfl

/-- A file that cannot be created gets no handle, and the streams stay as they are. -/
theorem findOutput_of_refused {name : Text} {e : HostError}
    (hname : Text.matchesWord name "SYSPRINT" = false)
    (hcreate : p.host.createFile name = .error e) :
    ∃ journal, findOutput name p = .ok 0 { p with journal } := by
  obtain ⟨journal, hjournal⟩ := p.traced_eq (.findOutputFailed name e)
  refine ⟨journal, ?_⟩
  rw [findOutput_apply, hname, hcreate, ← hjournal]
  rfl

end Finds

section Ends

variable (p : Peripherals)

/-- Ending a stream removes it if it is a file, whether closing it fails or not, and leaves all
other streams and the selection alone. -/
theorem endStream_table (k : Cell) :
    ∃ e q, endStream k p = .ok e q ∧ q.input = p.input ∧ q.output = p.output ∧
      ∀ j, q.streams.get? j =
        if j = k ∧ k ≠ defaultInput ∧ k ≠ defaultOutput then none else p.streams.get? j := by
  rw [endStream_apply]
  by_cases hdefault : k = defaultInput ∨ k = defaultOutput
  · rw [if_pos hdefault]
    refine ⟨none, p, rfl, rfl, rfl, fun j => ?_⟩
    rw [if_neg fun h => hdefault.elim h.2.1 h.2.2]
  · rw [if_neg hdefault]
    have hfile := not_or.mp hdefault
    cases hstream : p.streams.get? k with
    | none =>
      refine ⟨none, p, rfl, rfl, rfl, fun j => ?_⟩
      by_cases hj : j = k ∧ k ≠ defaultInput ∧ k ≠ defaultOutput
      · rw [if_pos hj, hj.1, hstream]
      · rw [if_neg hj]
    | some s =>
      refine ⟨_, _, rfl, rfl, rfl, fun j => ?_⟩
      rw [get?_ended]
      by_cases hj : j = k
      · rw [if_pos hj, if_pos ⟨hj, hfile⟩]
      · rw [if_neg hj, if_neg fun h => hj h.1]

/-- The end of reading removes the selected input stream if it is a file, and nothing else, and
selects the default input. -/
theorem endRead_table :
    (endRead.final p).input = defaultInput ∧ (endRead.final p).output = p.output ∧
      ∀ j, (endRead.final p).streams.get? j =
        if j = p.input ∧ p.input ≠ defaultInput ∧ p.input ≠ defaultOutput then none
        else p.streams.get? j := by
  obtain ⟨e, q, hend, -, houtput, htable⟩ := p.endStream_table p.input
  simp only [Action.final, endRead, Action.bind_apply, Action.get_apply, hend, selectInput,
    Action.modify_apply, check_apply, stateOf_concluded]
  exact ⟨trivial, houtput, htable⟩

/-- The end of writing removes the selected output stream if it is a file, and nothing else, and
selects the default output. -/
theorem endWrite_table :
    (endWrite.final p).output = defaultOutput ∧ (endWrite.final p).input = p.input ∧
      ∀ j, (endWrite.final p).streams.get? j =
        if j = p.output ∧ p.output ≠ defaultInput ∧ p.output ≠ defaultOutput then none
        else p.streams.get? j := by
  obtain ⟨e, q, hend, hinput, -, htable⟩ := p.endStream_table p.output
  simp only [Action.final, endWrite, Action.bind_apply, Action.get_apply, hend, selectOutput,
    Action.modify_apply, check_apply, stateOf_concluded]
  exact ⟨trivial, hinput, htable⟩

end Ends

end Peripherals

end Intcode
