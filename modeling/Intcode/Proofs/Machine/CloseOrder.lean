import Intcode.Proofs.Machine.Course
import Intcode.Proofs.Streams.Closing

/-!
# The order in which streams are closed

A script gives every stream that is created a file of its own, and the files of a
directory have no limits. So the streams of a machine never compete for the room of a
file, whatever the machine has been through.

Main statement: the order in which all streams are closed makes no difference to what is
left open, to what reaches the devices, to which files are closed and to whether there
is an error.
-/

namespace Intcode

namespace Host

/-- A host that a machine may be created on, with the given sink for its default output: every name
denotes a file, the files of a directory have no limits, and the default output writes to a device
of its own or to a file that is there. -/
structure Proper (h : Host) (sink : Sink) : Prop where
  sound : h.Sound
  unlimited : h.custody = .directory → ∀ f, (h.body f).room = none
  present : ∀ f, sink.file? = some f → f < h.bodies.size

/-- A script that has not been followed yet is a proper host. -/
theorem proper_scripted (provisions : List (Text × Provision)) (d : Device) :
    ({ custody := .scripted provisions } : Host).Proper (.device d) where
  sound e he := by cases he
  unlimited hcustody := by cases hcustody
  present f hf := by cases hf

/-- A directory with any files is a proper host. -/
theorem proper_ofDirectory (place : Text → Place) (files : List (Text × Text)) (d : Device) :
    (ofDirectory place files).Proper (.device d) where
  sound e he := by
    obtain ⟨k, hk, rfl⟩ := List.mem_mapIdx.mp he
    simpa only [ofDirectory, List.size_toArray, List.length_map] using hk
  unlimited _ f := by
    simp only [body, ofDirectory, Array.getD_eq_getD_getElem?, List.getElem?_toArray,
      List.getElem?_map]
    cases files[f]? <;> rfl
  present f hf := by cases hf

/-- A directory creates files without limits. -/
theorem room_createFile {h host : Host} {name : Text} {sink : Sink} {closer : Closer}
    (hcreate : h.createFile name = .ok (sink, closer, host)) (hcustody : h.custody = .directory)
    (hroom : ∀ f, (h.body f).room = none) (f : Nat) : (host.body f).room = none := by
  have hadd : ((h.takeTicket.2.addBody {}).2.body f).room = none := by
    rw [body_addBody]
    split
    · rfl
    · exact hroom f
  cases createdAs_of_createFile hcreate with
  | scripted hscripted _ _ => cases hcustody.symm.trans hscripted
  | null _ _ => exact hadd
  | emptied _ _ _ =>
    rw [body_setBody]
    split
    · rfl
    · exact hroom f
  | added _ _ _ => exact hadd

end Host

/-- A byte is taken without a change of the host, or after a flush. -/
theorem Output.put_host (o : Output) (c : UInt8) (h : Host) :
    (o.put c h).2.2 = h ∨ (o.put c h).2.2 = (o.flush h).2.2 := by
  cases hfailed : o.failed with
  | some e => exact .inl (by rw [put_of_failed hfailed])
  | none =>
    rw [put_of_not_failed hfailed]
    by_cases hroom : o.backlog.room = 0
    · rw [if_pos hroom]
      rcases o.flush h with ⟨_ | _, _, _⟩ <;> exact .inr rfl
    · rw [if_neg hroom]
      exact .inl rfl

namespace StreamTable

/-- The number of handles. -/
def capacity : Nat := 65536

/-- A table with a slot for each handle at most stays so when a stream is added. -/
theorem size_insert_le {t : StreamTable} (ht : t.slots.size ≤ capacity) (k : Cell) (s : Stream) :
    (t.insert k s).slots.size ≤ capacity := by
  have hk : k.toNat < capacity := k.isLt
  simp only [insert, put, Array.size_setIfInBounds, reserve]
  split
  · exact ht
  · simp only [Array.size_append, Array.size_replicate]
    omega

/-- Another state of a stream needs no slot. -/
theorem size_set (t : StreamTable) (k : Cell) (s : Stream) :
    (t.set k s).slots.size = t.slots.size := by
  unfold set
  split
  · exact Array.size_setIfInBounds
  · rfl

end StreamTable

namespace Peripherals

variable {p q : Peripherals} {scope : Scope} {k : Cell}

/-- The streams of the peripherals do not compete for room. -/
structure Separate (p : Peripherals) : Prop where
  sound : p.Sound
  /-- The files of a directory have no limits. -/
  unlimited : p.host.custody = .directory → ∀ f, (p.host.body f).room = none
  /-- A script gives every stream a file of its own. -/
  sole : p.host.custody ≠ .directory → ∀ i j f, p.Writes i f → p.Writes j f → i = j
  slots : p.streams.slots.size ≤ StreamTable.capacity

/-- Separate streams are apart. -/
theorem Separate.apart (hp : p.Separate) : p.Apart := by
  intro i j f hi hj
  by_cases hcustody : p.host.custody = .directory
  · exact .inr (hp.unlimited hcustody f)
  · exact .inl (hp.sole hcustody i j f hi hj)

/-- New default streams are separate. -/
theorem separate_ofDefaults {sink : Sink} {host : Host} (source : Source) (tracing : Bool)
    (hhost : host.Proper sink) : (ofDefaults source sink host tracing).Separate := by
  have hwrites {j : Cell} {f : Nat} (hw : (ofDefaults source sink host tracing).Writes j f) :
      j = defaultOutput ∧ sink.file? = some f := by
    obtain ⟨s, hs, hfile⟩ := hw
    rw [get?_ofDefaults] at hs
    by_cases hj : j = defaultOutput
    · rw [if_pos hj] at hs
      cases hs
      exact ⟨hj, hfile⟩
    · rw [if_neg hj] at hs
      split at hs
      · cases hs
        cases hfile
      · cases hs
  refine ⟨⟨hhost.sound, fun j f hw => hhost.present f (hwrites hw).2⟩, hhost.unlimited, ?_, ?_⟩
  · intro _ i j f hi hj
    rw [(hwrites hi).1, (hwrites hj).1]
  · exact StreamTable.size_insert_le (StreamTable.size_insert_le (Nat.zero_le _) _ _) _ _

/-- A file that a move creates is a new one, or the host is a directory. -/
theorem Move.narrow (hmove : Move scope p k q) :
    Move { scope with
      creates := fun f => p.host.custody = .directory ∨ f = p.host.bodies.size } p k q := by
  cases hmove with
  | note k e => exact .note k e
  | select k i o => exact .select k i o
  | flush hstream => exact .flush hstream
  | read hscope hstream => exact .read hscope hstream
  | write c hscope hstream => exact .write c hscope hstream
  | finish hscope hfile hstream => exact .finish hscope hfile hstream
  | settle hdefault hstream => exact .settle hdefault hstream
  | find hscope hopen hfree => exact .find hscope hopen hfree
  | create _ hcreate hfree =>
    obtain ⟨f, heq, hcreates⟩ := Host.createFile_eq_ok hcreate
    cases heq
    exact .create hcreates.fresh hcreate hfree

/-- A move on a directory gives no limit to a file. -/
theorem Move.room (hmove : Move scope p k q) (hcustody : p.host.custody = .directory)
    (hroom : ∀ f, (p.host.body f).room = none) (f : Nat) : (q.host.body f).room = none := by
  have hflush (o : Output) : ((o.flush p.host).2.2.body f).room = none := by
    rcases o.flush_host p.host with heq | heq
    · rw [heq]
      exact hroom f
    · rw [heq]
      exact Sink.room_write (hroom f) o.sink _
  cases hmove with
  | note k e => exact hroom f
  | select k i o => exact hroom f
  | @flush s hstream =>
    obtain ⟨i | o, closer⟩ := s
    · exact hroom f
    · exact hflush o
  | read hscope hstream => exact hroom f
  | @write k o closer c hscope hstream =>
    change ((o.put c p.host).2.2.body f).room = none
    rcases o.put_host c p.host with heq | heq
    · rw [heq]
      exact hroom f
    · rw [heq]
      exact hflush o
  | @finish k s hscope hfile hstream => exact Stream.room_close (hroom f) s
  | @settle k s hdefault hstream => exact Stream.room_close (hroom f) s
  | @find name source closer host k hscope hopen hfree =>
    change (host.body f).room = none
    rw [Host.body, (openEither_eq_ok hopen).1]
    exact hroom f
  | create hscope hcreate hfree => exact Host.room_createFile hcreate hcustody hroom f

/-- A move needs no more slots than there are handles. -/
theorem Move.slots (hmove : Move scope p k q)
    (hp : p.streams.slots.size ≤ StreamTable.capacity) :
    q.streams.slots.size ≤ StreamTable.capacity := by
  cases hmove with
  | note k e => exact hp
  | select k i o => exact hp
  | flush hstream => exact Nat.le_trans (Nat.le_of_eq (StreamTable.size_set ..)) hp
  | read hscope hstream => exact Nat.le_trans (Nat.le_of_eq (StreamTable.size_set ..)) hp
  | write c hscope hstream => exact Nat.le_trans (Nat.le_of_eq (StreamTable.size_set ..)) hp
  | finish hscope hfile hstream => exact Nat.le_trans (Nat.le_of_eq Array.size_setIfInBounds) hp
  | settle hdefault hstream => exact Nat.le_trans (Nat.le_of_eq (StreamTable.size_set ..)) hp
  | find hscope hopen hfree => exact StreamTable.size_insert_le hp _ _
  | create hscope hcreate hfree => exact StreamTable.size_insert_le hp _ _

/-- A move keeps streams separate. -/
theorem Move.separate (hmove : Move scope p k q) (hp : p.Separate) : q.Separate := by
  have htouches := hmove.narrow.touches
  have hcustody := htouches.custody
  refine ⟨hmove.sound hp.sound, fun hdirectory => ?_, fun hscripted => ?_, hmove.slots hp.slots⟩
  · rw [hcustody] at hdirectory
    exact hmove.room hdirectory (hp.unlimited hdirectory)
  · rw [hcustody] at hscripted
    -- Only the stream at the handle of the move can be new, and then its file is new too.
    have hother {j : Cell} {f : Nat} (hj : j ≠ k) (hw : q.Writes j f) : p.Writes j f := by
      rwa [Writes, htouches.table j hj] at hw
    have hnew {j : Cell} {f : Nat} (hj : j ≠ k) (hw : q.Writes j f) (hk : q.Writes k f) :
        j = k := by
      rcases htouches.file f hk with hwrote | ⟨hdirectory | rfl, -⟩
      · exact hp.sole hscripted j k f (hother hj hw) hwrote
      · exact absurd hdirectory hscripted
      · exact absurd (hp.sound.writes j _ (hother hj hw)) (Nat.lt_irrefl _)
    intro i j f hi hj
    by_cases hik : i = k
    · by_cases hjk : j = k
      · rw [hik, hjk]
      · exact absurd (hnew hjk hj (hik ▸ hi)) hjk
    · by_cases hjk : j = k
      · exact absurd (hnew hik hi (hjk ▸ hj)) hik
      · exact hp.sole hscripted i j f (hother hik hi) (hother hjk hj)

/-- Tickets make no difference to how separate streams are. -/
theorem Separate.withHost (hp : p.Separate) {host : Host} (hbodies : host.bodies = p.host.bodies)
    (hnames : host.names = p.host.names) (hcustody : host.custody = p.host.custody) :
    (p.withHost host).Separate := by
  refine ⟨⟨?_, ?_⟩, ?_, ?_, hp.slots⟩
  · intro e he
    change e.2 < host.bodies.size
    rw [hbodies]
    exact hp.sound.host e (hnames ▸ he)
  · intro j f hw
    change f < host.bodies.size
    rw [hbodies]
    exact hp.sound.writes j f hw
  · intro hdirectory f
    change (host.body f).room = none
    rw [Host.body, hbodies]
    exact hp.unlimited (hcustody ▸ hdirectory) f
  · intro hscripted
    exact hp.sole (hcustody ▸ hscripted)

/-- A file that gets no handle keeps streams separate. -/
theorem Separate.acquire (hp : p.Separate) {host : Host} (hhost : p.host.Acquires host) :
    (p.withHost host).Separate := by
  cases hhost with
  | opened hopen =>
    obtain ⟨hbodies, hnames, hcustody, -⟩ := openEither_eq_ok hopen
    exact hp.withHost hbodies hnames hcustody
  | created hcreate =>
    obtain ⟨f, -, hcreates⟩ := Host.createFile_eq_ok hcreate
    refine ⟨⟨hcreates.sound hp.sound.host, ?_⟩, ?_, ?_, hp.slots⟩
    · intro j g hw
      exact Nat.lt_of_lt_of_le (hp.sound.writes j g hw) hcreates.size
    · intro hdirectory
      have hbefore : p.host.custody = .directory := hcreates.custody ▸ hdirectory
      exact Host.room_createFile hcreate hbefore (hp.unlimited hbefore)
    · intro hscripted
      exact hp.sole (hcreates.custody ▸ hscripted)

/-- Operations keep streams separate, also those that never return. -/
theorem Separate.final (hp : p.Separate) (op : StreamOperation) :
    (op.action.final p).Separate := by
  rcases op.final_reaches p with hreach | ⟨-, host, hhost, hfinal⟩
  · exact hreach.preserves (fun _ _ _ hmove => hmove.separate) hp
  · rw [hfinal]
    exact hp.acquire hhost

/-- The open handles in ascending order visit every open stream once. -/
theorem Separate.visits_handles (hp : p.Separate) : p.Visits p.streams.handles where
  nodup := by
    refine List.Nodup.filter _ (List.Nodup.map_on ?_ List.nodup_range)
    intro i hi j hj heq
    have hlt {n : Nat} (hn : n ∈ List.range p.streams.slots.size) : n < StreamTable.capacity :=
      Nat.lt_of_lt_of_le (List.mem_range.mp hn) hp.slots
    have hnat := congrArg BitVec.toNat heq
    rw [Cell.ofNat, Cell.ofNat, BitVec.toNat_ofNat, BitVec.toNat_ofNat] at hnat
    exact (Nat.mod_eq_of_lt (hlt hi)).symm.trans (hnat.trans (Nat.mod_eq_of_lt (hlt hj)))
  mem k := by
    rw [StreamTable.handles, List.mem_filter]
    refine ⟨fun h => h.2, fun hopen => ⟨List.mem_map.mpr ⟨k.toNat, ?_, ?_⟩, hopen⟩⟩
    · exact List.mem_range.mpr (StreamTable.lt_size_of_isOpen hopen)
    · exact BitVec.ofNat_toNat ..

/-- When all streams have been closed, the default streams are open. -/
theorem InOrder.isOpen_closedAll {source : Source} {sink : Sink} {order : List Cell}
    (hp : p.InOrder source sink) (hseparate : p.Separate) (hvisits : p.Visits order) (k : Cell) :
    (closedAll order p).streams.isOpen k = true ↔ k = defaultInput ∨ k = defaultOutput := by
  rw [StreamTable.isOpen, hvisits.get?_closedAll hseparate.apart]
  by_cases hdefault : k = defaultInput ∨ k = defaultOutput
  · obtain ⟨s, hs⟩ : ∃ s, p.streams.get? k = some s := by
      rcases hdefault with rfl | rfl
      · obtain ⟨i, hi, -⟩ := hp.input
        exact ⟨_, hi⟩
      · obtain ⟨o, ho, -⟩ := hp.output
        exact ⟨_, ho⟩
    rw [if_pos hdefault, closing?, hs]
    exact ⟨fun _ => hdefault, fun _ => rfl⟩
  · rw [if_neg hdefault]
    exact ⟨fun hnone => (by cases hnone), fun h => absurd h hdefault⟩

/-- No two open files have the same ticket, so no ticket is handed back twice. -/
theorem InOrder.nodup_tickets {source : Source} {sink : Sink} {order : List Cell}
    (hp : p.InOrder source sink) (hnodup : order.Nodup) : (order.filterMap p.ticket?).Nodup := by
  refine List.Nodup.filterMap ?_ hnodup
  intro j k n hj hk
  obtain ⟨s, hs, hn⟩ := Option.bind_eq_some_iff.mp hj
  obtain ⟨t, ht, hn'⟩ := Option.bind_eq_some_iff.mp hk
  obtain ⟨c, hc, rfl⟩ := Option.map_eq_some_iff.mp hn
  obtain ⟨d, hd, hticket⟩ := Option.map_eq_some_iff.mp hn'
  exact hp.distinct j k s t c d hs ht hc hd hticket.symm

/-- Whatever the order, the file of an open stream is closed once more. -/
theorem InOrder.count_closed {source : Source} {sink : Sink} {order : List Cell} {s : Stream}
    (hp : p.InOrder source sink) (hseparate : p.Separate) (hvisits : p.Visits order)
    (hstream : p.streams.get? k = some s) (hfile : k ≠ defaultInput ∧ k ≠ defaultOutput) :
    ∃ c, s.closer = some c ∧
      (closedAll order p).host.closed.count c.ticket = p.host.closed.count c.ticket + 1 := by
  obtain ⟨-, c, hc, -⟩ := hp.file k s hstream hfile.1 hfile.2
  refine ⟨c, hc, ?_⟩
  have hmem : c.ticket ∈ order.filterMap p.ticket? := by
    refine List.mem_filterMap.mpr ⟨k, (hvisits.mem k).mpr ?_, ?_⟩
    · rw [StreamTable.isOpen, hstream]
      rfl
    · rw [ticket?, hstream, Option.bind_some, hc]
      rfl
  rw [hvisits.closed_closedAll hseparate.apart, List.count_append, List.count_reverse,
    List.count_eq_one_of_mem (hp.nodup_tickets hvisits.nodup) hmem, Nat.add_comm]

end Peripherals

namespace Machine

open Peripherals

/-- The streams of a machine stay separate in its course. -/
theorem Course.separate {new m : Machine} {t : Text} (hm : Course new t m)
    (hnew : new.peripherals.Separate) : m.peripherals.Separate := by
  refine hm.keeps (I := fun _ => Separate) hnew (fun _ _ op hp => hp.final op) ?_
  rintro _ p name source closer host hopen hp
  obtain rfl := Host.openFile_eq_ok hopen
  exact hp.withHost rfl rfl rfl

/-- Closing all streams does not depend on the order in which they are visited. Whatever a machine
has been through since its creation, its open streams in ascending order are one such order. In any
order the default streams are left and selected, every open stream is visited once, the file of each
is closed once whether others fail or not, and there is no error exactly if no flush and no close
has failed. Any two orders leave the same streams, flush and close every stream with the same bytes
and errors, close the same files, and leave the same in each file that at most one stream writes to:
in all files, if the host follows a script. -/
theorem close_order_unobservable {words : Int} {source : Source} {sink : Sink} {host : Host}
    {tracing : Bool} {new m : Machine} {t : Text}
    (hnew : create words (.ofDefaults source sink host tracing) = .ok new)
    (hhost : host.Proper sink) (hm : Course new t m) :
    let p := m.peripherals
    (close p = closeInOrder p.streams.handles p ∧ p.Visits p.streams.handles) ∧
    ∀ order, p.Visits order →
      let q := (closeInOrder order).final p
      ((∀ k, q.streams.isOpen k = true ↔ k = defaultInput ∨ k = defaultOutput) ∧
        q.input = defaultInput ∧ q.output = defaultOutput ∧
        (closings order p).map (·.1) = order ∧
        (∀ k s, p.streams.get? k = some s → k ≠ defaultInput ∧ k ≠ defaultOutput →
          ∃ c, s.closer = some c ∧
            q.host.closed.count c.ticket = p.host.closed.count c.ticket + 1) ∧
        ((∃ r, closeInOrder order p = .ok () r) ↔
          ∀ c ∈ closings order p, c.2.flushError = none ∧ c.2.closeError = none)) ∧
      ∀ order', p.Visits order' →
        let q' := (closeInOrder order').final p
        (∀ k, q.streams.get? k = q'.streams.get? k) ∧
        (closings order p).Perm (closings order' p) ∧
        q.host.closed.Perm q'.host.closed ∧
        (∀ f, (∀ j k, p.Writes j f → p.Writes k f → j = k) → q.host.body f = q'.host.body f) ∧
        (p.host.custody ≠ .directory → ∀ f, q.host.body f = q'.host.body f) ∧
        ((∃ r, closeInOrder order p = .ok () r) ↔ ∃ r, closeInOrder order' p = .ok () r) := by
  intro p
  have hseparate : p.Separate := by
    refine hm.separate ?_
    rw [create_peripherals hnew]
    exact separate_ofDefaults source tracing hhost
  have horder : p.InOrder source sink := (hm.reachable (.create hnew)).inOrder
  have hapart : p.Apart := hseparate.apart
  have hfinal (order : List Cell) : (closeInOrder order).final p =
      { closedAll order p with input := defaultInput, output := defaultOutput } := by
    rw [Action.final, closeInOrder_apply, stateOf_concluded]
  refine ⟨⟨rfl, hseparate.visits_handles⟩, fun order hvisits => ?_⟩
  intro q
  have hq : q = _ := hfinal order
  refine ⟨⟨fun k => ?_, ?_, ?_, hvisits.closings_handles hapart, ?_,
    closeInOrder_eq_ok_iff order p⟩, fun order' hvisits' => ?_⟩
  · rw [hq]
    exact horder.isOpen_closedAll hseparate hvisits k
  · rw [hq]
  · rw [hq]
  · intro k s hstream hfile
    rw [hq]
    exact horder.count_closed hseparate hvisits hstream hfile
  · intro q'
    have hq' : q' = _ := hfinal order'
    have hperm := hvisits.closings_perm hvisits' hapart
    rw [hq, hq']
    refine ⟨fun k => ?_, hperm, ?_, fun f => hvisits.body_closedAll hvisits', ?_, ?_⟩
    · simp only [hvisits.get?_closedAll hapart, hvisits'.get?_closedAll hapart]
    · simp only [hvisits.closed_closedAll hapart, hvisits'.closed_closedAll hapart]
      refine List.Perm.append_right _ ?_
      exact (List.reverse_perm _).trans
        (((hvisits.perm hvisits').filterMap _).trans (List.reverse_perm _).symm)
    · intro hscripted f
      exact hvisits.body_closedAll hvisits' fun j k => hseparate.sole hscripted j k f
    · rw [closeInOrder_eq_ok_iff, closeInOrder_eq_ok_iff]
      exact ⟨fun h c hc => h c (hperm.mem_iff.mpr hc), fun h c hc => h c (hperm.mem_iff.mp hc)⟩

/-- A script with a file that has room for one byte and with one that cannot be closed. -/
def grudging : Host :=
  { custody := .scripted [([97], { room := some 1 }), ([98], { closeFails := true })] }

/-- Writes two bytes to the one file and one byte to the other. -/
def burden : List StreamOperation :=
  [.findOutput [97], .findOutput [98], .selectOutput 3, .write 65, .write 66, .selectOutput 4,
    .write 67]

/-- A new machine on that host. -/
def unburdened : Machine :=
  { memory := .ofFn 500 initialCell
    lomem := codeStart + 3
    peripherals := .ofDefaults (.script [] none) (.device {}) grudging false }

/-- The machine that has written to both files. -/
def burdened : Machine := { unburdened with peripherals := after burden unburdened.peripherals }

/-- One flush and one close fail in either order. The first file gets the byte that it has room for,
the second one gets its byte, and both are closed. -/
theorem close_order_unobservable_burdened :
    let p := burdened.peripherals
    let q := (closeInOrder [1, 2, 3, 4]).final p
    let q' := (closeInOrder [4, 3, 2, 1]).final p
    (p.Visits [1, 2, 3, 4] ∧ p.Visits [4, 3, 2, 1]) ∧
      (((p.closing? 3).map fun c => (c.sent, c.flushError, c.closeError)) =
          some ([65], some .deviceFull, none) ∧
        ((p.closing? 4).map fun c => (c.sent, c.flushError, c.closeError)) =
          some ([67], none, some .badClose)) ∧
      (closings [1, 2, 3, 4] p).Perm (closings [4, 3, 2, 1] p) ∧
      (q.host.closed = [1, 0] ∧ q.host.closed.Perm q'.host.closed) ∧
      ((q.host.body 0).contents = [65] ∧ (q'.host.body 0).contents = [65]) ∧
      ¬ ∃ r, closeInOrder [4, 3, 2, 1] p = .ok () r := by
  have hproper : grudging.Proper (.device {}) := Host.proper_scripted _ {}
  have hnew : create 500 unburdened.peripherals = .ok unburdened := rfl
  have hstart : Course unburdened [] unburdened := .new
  have hcourse : Course unburdened ([] ++ accepted burden unburdened.peripherals) burdened :=
    hstart.operations burden rfl
  obtain ⟨⟨-, hhandles⟩, hsame⟩ := close_order_unobservable hnew hproper hcourse
  have hvisits : burdened.peripherals.Visits [1, 2, 3, 4] := by
    rwa [show burdened.peripherals.streams.handles = [1, 2, 3, 4] by decide +kernel] at hhandles
  have hvisits' : burdened.peripherals.Visits [4, 3, 2, 1] := by
    have hperm : ([4, 3, 2, 1] : List Cell).Perm [1, 2, 3, 4] := List.reverse_perm [1, 2, 3, 4]
    exact ⟨by decide, fun k => hperm.mem_iff.trans (hvisits.mem k)⟩
  obtain ⟨-, htwo⟩ := hsame [1, 2, 3, 4] hvisits
  obtain ⟨-, hclosings, hclosed, -, hbody, hok⟩ := htwo [4, 3, 2, 1] hvisits'
  have hcontents : (((closeInOrder [1, 2, 3, 4]).final burdened.peripherals).host.body 0).contents =
      [65] := by decide +kernel
  have hfails : ¬ ∃ r, closeInOrder [1, 2, 3, 4] burdened.peripherals = .ok () r := by
    rw [closeInOrder_eq_ok_iff]
    decide +kernel
  refine ⟨⟨hvisits, hvisits'⟩, ⟨by decide +kernel, by decide +kernel⟩, hclosings,
    ⟨by decide +kernel, hclosed⟩, ⟨hcontents, ?_⟩, fun h => hfails (hok.mpr h)⟩
  rw [← hbody (by decide +kernel) 0]
  exact hcontents

end Machine

end Intcode
