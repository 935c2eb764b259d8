import Intcode.Stream

/-!
# Buffered streams

A stream hides its buffer. What an input stream still gives is the unread rest of
its last read and what its source still has; reading a byte takes the first of
these bytes, wherever it lies. What an output stream has taken is what reached its
sink and what it holds back; flushing moves bytes from the one to the other, and
only taking a byte adds to them.
-/

namespace Intcode

namespace Source

/-- A source that goes on with the script or the file of another one. -/
inductive Continues : Source → Source → Prop
  | script (chunks chunks' : List Text) (ending : Option HostError) :
      Continues (.script chunks ending) (.script chunks' ending)
  | file (k offset offset' : Nat) : Continues (.file k offset) (.file k offset')

/-- A source goes on with itself. -/
theorem Continues.refl (s : Source) : s.Continues s := by
  cases s with
  | script chunks ending => exact .script chunks chunks ending
  | file k offset => exact .file k offset offset

/-- A script with bytes in it delivers the first of them. -/
theorem readScript_of_ne_nil {chunks : List Text} (ending : Option HostError)
    (hne : chunks.flatten ≠ []) :
    ∃ t chunks', readScript chunks ending = (.bytes t, .script chunks' ending) ∧ t ≠ [] ∧
      t ++ chunks'.flatten = chunks.flatten := by
  induction chunks with
  | nil => exact absurd rfl hne
  | cons t chunks ih =>
    rw [readScript]
    by_cases hempty : t.isEmpty = true
    · rw [if_pos hempty]
      obtain rfl : t = [] := List.isEmpty_iff.mp hempty
      exact ih hne
    · rw [if_neg hempty]
      have htake : t.take bufferSize ≠ [] := by
        have hsize : bufferSize ≠ 0 := by decide
        simpa [hsize] using hempty
      refine ⟨_, _, rfl, htake, ?_⟩
      by_cases hrest : (t.drop bufferSize).isEmpty = true
      · have hdrop : t.drop bufferSize = [] := List.isEmpty_iff.mp hrest
        have hall := List.take_append_drop bufferSize t
        rw [hdrop, List.append_nil] at hall
        rw [if_pos hrest, hall, List.flatten_cons]
      · rw [if_neg hrest, List.flatten_cons, List.flatten_cons, ← List.append_assoc,
          List.take_append_drop]

/-- A script without bytes delivers its ending, and goes on to do so. -/
theorem readScript_of_eq_nil {chunks : List Text} {ending : Option HostError}
    (hnil : chunks.flatten = []) :
    readScript chunks ending =
      ((match ending with | none => .exhausted | some e => .failed e), .script [] ending) := by
  induction chunks with
  | nil => cases ending <;> rfl
  | cons t chunks ih =>
    rw [List.flatten_cons, List.append_eq_nil_iff] at hnil
    obtain ⟨rfl, hrest⟩ := hnil
    exact ih hrest

/-- As long as there are bytes to come, a read delivers the first of them. -/
theorem read_of_ne_nil {s : Source} {h : Host} (hne : (s.drain h).1 ≠ []) :
    ∃ t s', s.read h = (.bytes t, s') ∧ t ≠ [] ∧ t ++ (s'.drain h).1 = (s.drain h).1 ∧
      (s'.drain h).2 = (s.drain h).2 ∧ s.Continues s' := by
  cases s with
  | script chunks ending =>
    obtain ⟨t, chunks', hread, ht, hrest⟩ := readScript_of_ne_nil ending hne
    exact ⟨t, _, hread, ht, hrest, rfl, .script chunks chunks' ending⟩
  | file k offset =>
    have hbytes : ((h.body k).contents.drop offset).take bufferSize ≠ [] := by
      have hsize : bufferSize ≠ 0 := by decide
      rw [ne_eq, List.take_eq_nil_iff, not_or]
      exact ⟨hsize, hne⟩
    refine ⟨_, _, if_neg (by simpa using hbytes), hbytes, ?_, rfl, .file k offset _⟩
    simp only [drain]
    rw [← List.drop_drop]
    generalize (h.body k).contents.drop offset = u
    rw [List.length_take]
    rcases Nat.le_total bufferSize u.length with hle | hle
    · rw [Nat.min_eq_left hle, List.take_append_drop]
    · rw [Nat.min_eq_right hle, List.take_of_length_le hle, List.drop_length, List.append_nil]

/-- When there are no bytes to come, a read delivers the ending. -/
theorem read_of_eq_nil {s : Source} {h : Host} (hnil : (s.drain h).1 = []) :
    ∃ s', s.read h =
        ((match (s.drain h).2 with | none => .exhausted | some e => .failed e), s') ∧
      s'.drain h = s.drain h ∧ s.Continues s' := by
  cases s with
  | script chunks ending =>
    have hdrain : (script chunks ending).drain h = ([], ending) := by
      simpa [drain] using hnil
    exact ⟨_, readScript_of_eq_nil hnil, hdrain.symm, .script chunks [] ending⟩
  | file k offset =>
    simp only [drain] at hnil
    refine ⟨_, ?_, rfl, .refl _⟩
    simp [read, drain, hnil]

end Source

namespace Reading

/-- What reading gives at the end of a stream, which may be a failure. -/
def atEnd : Option HostError → Reading
  | none => .exhausted
  | some e => .failed e

end Reading

namespace Input

/-- The bytes that an input stream still gives, unless a file changes. -/
def upcoming (i : Input) (h : Host) : Text := i.unread ++ (i.source.drain h).1

/-- What comes after the last byte of an input stream. -/
def ending (i : Input) (h : Host) : Option HostError := (i.source.drain h).2

/-- Reading takes the first byte that is to come. -/
theorem next_of_upcoming_cons {i : Input} {h : Host} {c : UInt8} {t : Text}
    (hup : i.upcoming h = c :: t) :
    ∃ i', i.next h = (.byte c, i') ∧ i'.upcoming h = t ∧ i'.ending h = i.ending h ∧
      i.source.Continues i'.source := by
  obtain ⟨source, unread⟩ := i
  cases unread with
  | cons d u =>
    obtain ⟨rfl, rfl⟩ := List.cons_eq_cons.mp hup
    exact ⟨⟨source, u⟩, rfl, rfl, rfl, .refl source⟩
  | nil =>
    have hne : (source.drain h).1 ≠ [] := by
      rw [show (source.drain h).1 = c :: t from hup]
      exact List.cons_ne_nil c t
    obtain ⟨u, source', hread, hu, hrest, hending, hcontinues⟩ := Source.read_of_ne_nil hne
    obtain ⟨d, u, rfl⟩ := List.exists_cons_of_ne_nil hu
    rw [show (source.drain h).1 = c :: t from hup] at hrest
    obtain ⟨rfl, rfl⟩ := List.cons_eq_cons.mp hrest
    refine ⟨⟨source', u⟩, ?_, rfl, hending, hcontinues⟩
    simp only [next, hread]

/-- At the end reading gives the ending, again and again. -/
theorem next_of_upcoming_nil {i : Input} {h : Host} (hup : i.upcoming h = []) :
    ∃ i', i.next h = (.atEnd (i.ending h), i') ∧ i'.upcoming h = [] ∧ i'.ending h = i.ending h ∧
      i.source.Continues i'.source := by
  obtain ⟨source, unread⟩ := i
  obtain ⟨rfl, hnil⟩ := List.append_eq_nil_iff.mp hup
  obtain ⟨source', hread, hdrain, hcontinues⟩ := Source.read_of_eq_nil hnil
  refine ⟨⟨source', []⟩, ?_, ?_, ?_, hcontinues⟩
  · simp only [next, hread, ending]
    cases (source.drain h).2 <;> rfl
  · rw [upcoming, hdrain]
    exact hnil
  · rw [ending, hdrain]
    rfl

end Input

namespace Host

/-- The hosts differ at most in one file. -/
structure SameBut (file? : Option Nat) (h h' : Host) : Prop where
  custody : h'.custody = h.custody
  place : h'.place = h.place
  names : h'.names = h.names
  next : h'.next = h.next
  closed : h'.closed = h.closed
  size : h'.bodies.size = h.bodies.size
  body : ∀ j, some j ≠ file? → h'.body j = h.body j

/-- A host differs in no file from itself. -/
theorem SameBut.refl (file? : Option Nat) (h : Host) : SameBut file? h h :=
  ⟨rfl, rfl, rfl, rfl, rfl, rfl, fun _ _ => rfl⟩

/-- A replaced file has its new contents, and all others keep theirs. -/
theorem body_setBody (h : Host) (k j : Nat) (b : Body) :
    (h.setBody k b).body j = if k = j ∧ j < h.bodies.size then b else h.body j := by
  simp only [body, setBody, Array.getD_eq_getD_getElem?, Array.getElem?_setIfInBounds]
  by_cases hkj : k = j
  · subst hkj
    by_cases hlt : k < h.bodies.size <;> simp [hlt]
  · simp [hkj]

/-- Replacing a file changes nothing else. -/
theorem sameBut_setBody (h : Host) (k : Nat) (b : Body) : SameBut (some k) h (h.setBody k b) where
  custody := rfl
  place := rfl
  names := rfl
  next := rfl
  closed := rfl
  size := Array.size_setIfInBounds
  body j hj := by
    rw [body_setBody, if_neg]
    rintro ⟨rfl, -⟩
    exact hj rfl

end Host

namespace Sink

/-- The file of the host that a sink writes to. -/
def file? : Sink → Option Nat
  | device _ => none
  | file k _ => some k

/-- What has reached the device or the file of a sink. -/
def delivered (s : Sink) (h : Host) : Text :=
  match s with
  | device d => d.contents
  | file k _ => (h.body k).contents

/-- The room that a sink has left. -/
def room (s : Sink) (h : Host) : Option Nat :=
  match s with
  | device d => d.room
  | file k _ => (h.body k).room

/-- A sink that writes after all that its file holds. -/
def AtEnd (s : Sink) (h : Host) : Prop :=
  match s with
  | device _ => True
  | file k offset => k < h.bodies.size ∧ offset = (h.body k).length

/-- A write changes no other file, and goes on with the same one. -/
theorem write_frame (s : Sink) (t : Text) (h : Host) :
    (s.write t h).2.1.file? = s.file? ∧ h.SameBut s.file? (s.write t h).2.2 := by
  cases s with
  | device d => exact ⟨rfl, .refl _ h⟩
  | file k offset => exact ⟨rfl, h.sameBut_setBody k _⟩

/-- A write at the end adds to what has reached the sink as much as there is room for. -/
theorem write_atEnd {s : Sink} {h : Host} (hend : s.AtEnd h) (t : Text) :
    (s.write t h).2.1.AtEnd (s.write t h).2.2 ∧
      (s.write t h).2.1.delivered (s.write t h).2.2 = s.delivered h ++ t.take (s.write t h).1 ∧
      (s.write t h).2.1.room (s.write t h).2.2 = (s.room h).map (· - (s.write t h).1) ∧
      (s.write t h).1 = Device.fitting { room := s.room h } t := by
  cases s with
  | device d => exact ⟨trivial, d.contents_write t, rfl, rfl⟩
  | file k offset =>
    obtain ⟨hlt, rfl⟩ := hend
    have hbody : ((file k (h.body k).length).write t h).2.2.body k =
        ((h.body k).writeAt (h.body k).length t).2 := by
      rw [write, Host.body_setBody, if_pos ⟨rfl, hlt⟩]
    have hcontents := (h.body k).contents_writeAt (h.body k).length t
    have htake : (h.body k).contents.take (h.body k).length = (h.body k).contents :=
      List.take_of_length_le (Nat.le_of_eq (h.body k).length_contents)
    have hdrop (j : Nat) : (h.body k).contents.drop ((h.body k).length + j) = [] :=
      List.drop_of_length_le (by rw [Body.length_contents]; exact Nat.le_add_right _ _)
    rw [Body.overlay, htake, Body.length_contents, Nat.sub_self, hdrop] at hcontents
    simp only [List.replicate_zero, List.append_nil] at hcontents
    have hlength := congrArg List.length hcontents
    rw [Body.length_contents, List.length_append, Body.length_contents, List.length_take] at hlength
    have hfit : ((h.body k).writeAt (h.body k).length t).1 ≤ t.length :=
      Device.write_le { room := (h.body k).room } t
    rw [Nat.min_eq_left hfit] at hlength
    refine ⟨⟨?_, ?_⟩, ?_, ?_, rfl⟩
    · exact Nat.lt_of_lt_of_eq hlt (h.sameBut_setBody k _).size.symm
    · rw [hbody, hlength]
      rfl
    · simp only [delivered]
      change (((file k (h.body k).length).write t h).2.2.body k).contents = _
      rw [hbody, hcontents]
      rfl
    · simp only [room]
      change (((file k (h.body k).length).write t h).2.2.body k).room = _
      rw [hbody]
      simp only [Body.writeAt, write]
      split <;> rfl

end Sink

namespace Output

/-- A flush repeats an error, does nothing, or writes what is held back. -/
theorem flush_cases (o : Output) (h : Host) :
    (∃ e, o.failed = some e ∧ o.flush h = (some e, o, h)) ∨
      (o.failed = none ∧ o.backlog.text = [] ∧ o.flush h = (none, o, h)) ∨
      ∃ n s h', o.failed = none ∧ o.sink.write o.backlog.text h = (n, s, h') ∧
        o.flush h =
          if n < o.backlog.text.length then
            (some .deviceFull, ⟨s, .ofText (o.backlog.text.drop n), some .deviceFull⟩, h')
          else (none, ⟨s, {}, none⟩, h') := by
  cases hfailed : o.failed with
  | some e => exact .inl ⟨e, rfl, by simp only [flush, hfailed]⟩
  | none =>
    refine .inr ?_
    by_cases hempty : o.backlog.newest = []
    · refine .inl ⟨rfl, by simp [Backlog.text, hempty], ?_⟩
      simp only [flush, hfailed, hempty, List.isEmpty_nil, if_true]
    · refine .inr ⟨(o.sink.write o.backlog.text h).1, (o.sink.write o.backlog.text h).2.1,
        (o.sink.write o.backlog.text h).2.2, rfl, rfl, ?_⟩
      have hnot : ¬ o.backlog.newest.isEmpty = true := by simpa using hempty
      simp only [flush, hfailed, if_neg hnot]

/-- A stream that has not failed takes a byte, after a flush that may fail. -/
theorem put_of_not_failed {o : Output} (hfailed : o.failed = none) (c : UInt8) (h : Host) :
    o.put c h = match (if o.backlog.room = 0 then o.flush h else (none, o, h)) with
      | (some e, o', h') => (some e, o', h')
      | (none, o', h') => (none, { o' with backlog := o'.backlog.push c }, h') := by
  simp only [put, hfailed]
  split
  · rcases o.flush h with ⟨_ | _, _, _⟩ <;> rfl
  · simp only [hfailed]

/-- A stream that has failed takes nothing. -/
theorem put_of_failed {o : Output} {e : HostError} (hfailed : o.failed = some e) (c : UInt8)
    (h : Host) : o.put c h = (some e, o, h) := by
  simp only [put, hfailed]

/-- A flush changes no file but that of the stream, which stays the same file. -/
theorem flush_frame (o : Output) (h : Host) :
    (o.flush h).2.1.sink.file? = o.sink.file? ∧ h.SameBut o.sink.file? (o.flush h).2.2 := by
  rcases o.flush_cases h with ⟨e, -, heq⟩ | ⟨-, -, heq⟩ | ⟨n, s, h', -, hwrite, heq⟩
  · rw [heq]
    exact ⟨rfl, .refl _ h⟩
  · rw [heq]
    exact ⟨rfl, .refl _ h⟩
  · have hframe := o.sink.write_frame o.backlog.text h
    rw [hwrite] at hframe
    rw [heq]
    split <;> exact hframe

/-- Taking a byte changes no file but that of the stream, which stays the same file. -/
theorem put_frame (o : Output) (c : UInt8) (h : Host) :
    (o.put c h).2.1.sink.file? = o.sink.file? ∧ h.SameBut o.sink.file? (o.put c h).2.2 := by
  have hflush := o.flush_frame h
  cases hfailed : o.failed with
  | some e =>
    rw [put_of_failed hfailed]
    exact ⟨rfl, .refl _ h⟩
  | none =>
    rw [put_of_not_failed hfailed]
    by_cases hfull : o.backlog.room = 0
    · rw [if_pos hfull]
      generalize o.flush h = outcome at hflush
      obtain ⟨_ | e, o', h'⟩ := outcome
      · exact hflush
      · exact hflush
    · rw [if_neg hfull]
      exact ⟨rfl, .refl _ h⟩

/-- All bytes that an output stream with the given limit has taken have reached its sink or are
held back, in order. The sink holds no more than the limit, and all of it once a write has
failed. -/
structure Accounts (o : Output) (h : Host) (limit : Option Nat) (taken : Text) : Prop where
  atEnd : o.sink.AtEnd h
  text : o.sink.delivered h ++ o.backlog.text = taken
  room : o.sink.room h = limit.map (· - (o.sink.delivered h).length)
  bounded : ∀ l ∈ limit, (o.sink.delivered h).length ≤ l
  full : o.failed ≠ none → limit = some (o.sink.delivered h).length

namespace Accounts

variable {o : Output} {h : Host} {limit : Option Nat} {taken : Text}

/-- A flush takes nothing and loses nothing. If it succeeds, nothing is held back any more. -/
theorem flush (ho : o.Accounts h limit taken) :
    (o.flush h).2.1.Accounts (o.flush h).2.2 limit taken ∧
      ((o.flush h).1 = none → (o.flush h).2.1.backlog.text = [] ∧ (o.flush h).2.1.failed = none) ∧
      ((o.flush h).1 = none ∨ limit ≠ none) := by
  rcases o.flush_cases h with ⟨e, hfailed, heq⟩ | ⟨hfailed, hempty, heq⟩ |
    ⟨n, s, h', hfailed, hwrite, heq⟩
  · rw [heq]
    refine ⟨ho, fun herror => absurd herror (by simp), .inr ?_⟩
    rw [ho.full (by simp [hfailed])]
    simp
  · rw [heq]
    exact ⟨ho, fun _ => ⟨hempty, hfailed⟩, .inl rfl⟩
  · obtain ⟨hend, hdelivered, hroom, hfit⟩ := Sink.write_atEnd ho.atEnd o.backlog.text
    rw [hwrite] at hend hdelivered hroom hfit
    simp only at hend hdelivered hroom hfit
    have hle : n ≤ o.backlog.text.length := by
      rw [hfit]
      exact Device.write_le { room := o.sink.room h } o.backlog.text
    have hlength : (s.delivered h').length = (o.sink.delivered h).length + n := by
      rw [hdelivered, List.length_append, List.length_take, Nat.min_eq_left hle]
    have hroom' : s.room h' = limit.map (· - (s.delivered h').length) := by
      rw [hroom, ho.room, Option.map_map, hlength]
      congr 1
      funext l
      simp only [Function.comp_apply]
      omega
    have hbounded : ∀ l ∈ limit, (s.delivered h').length ≤ l := by
      rintro l rfl
      have hl := ho.bounded l rfl
      rw [ho.room, Option.map_some] at hfit
      simp only [Device.fitting] at hfit
      omega
    rw [heq]
    by_cases hlt : n < o.backlog.text.length
    · rw [if_pos hlt]
      cases limit with
      | none =>
        rw [ho.room] at hfit
        simp only [Device.fitting, Option.map_none] at hfit
        omega
      | some l =>
        have hl := ho.bounded l rfl
        rw [ho.room, Option.map_some] at hfit
        simp only [Device.fitting] at hfit
        refine ⟨⟨hend, ?_, hroom', hbounded, fun _ => ?_⟩, fun herror => absurd herror (by simp),
          .inr (by simp)⟩
        · rw [Backlog.text_ofText, hdelivered, List.append_assoc, List.take_append_drop, ho.text]
        · rw [hlength]
          congr 1
          omega
    · rw [if_neg hlt]
      have hall : o.backlog.text.take n = o.backlog.text :=
        List.take_of_length_le (Nat.le_of_not_lt hlt)
      refine ⟨⟨hend, ?_, hroom', hbounded, fun hne => absurd rfl hne⟩, fun _ => ⟨rfl, rfl⟩,
        .inl rfl⟩
      rw [hdelivered, hall, ho.text]
      exact List.append_nil _

/-- The account stays as it is when the host changes other files only. -/
theorem congr_host {h' : Host} (ho : o.Accounts h limit taken)
    (hbody : ∀ k ∈ o.sink.file?, h'.body k = h.body k ∧ h.bodies.size ≤ h'.bodies.size) :
    o.Accounts h' limit taken := by
  obtain ⟨sink, backlog, failed⟩ := o
  cases sink with
  | device d => exact ⟨trivial, ho.text, ho.room, ho.bounded, ho.full⟩
  | file k offset =>
    obtain ⟨hsame, hsize⟩ := hbody k rfl
    obtain ⟨⟨hlt, hoffset⟩, htext, hroom, hbounded, hfull⟩ := ho
    simp only [Sink.delivered, Sink.room, ← hsame] at hoffset htext hroom hbounded hfull
    exact ⟨⟨Nat.lt_of_lt_of_le hlt hsize, hoffset⟩, htext, hroom, hbounded, hfull⟩

/-- A byte that the stream takes is the last that it has taken. -/
theorem push (ho : o.Accounts h limit taken) (c : UInt8) :
    Accounts { o with backlog := o.backlog.push c } h limit (taken ++ [c]) where
  atEnd := ho.atEnd
  text := by rw [Backlog.text_push, ← List.append_assoc, ho.text]
  room := ho.room
  bounded := ho.bounded
  full := ho.full

/-- A byte is taken exactly when the stream reports no error. -/
theorem put (ho : o.Accounts h limit taken) (c : UInt8) :
    (o.put c h).2.1.Accounts (o.put c h).2.2 limit
        (taken ++ if (o.put c h).1 = none then [c] else []) ∧
      ((o.put c h).1 = none ∨ limit ≠ none) := by
  cases hfailed : o.failed with
  | some e =>
    rw [put_of_failed hfailed, if_neg (by simp), List.append_nil]
    refine ⟨ho, .inr ?_⟩
    rw [ho.full (by simp [hfailed])]
    simp
  | none =>
    rw [put_of_not_failed hfailed]
    by_cases hroom : o.backlog.room = 0
    · rw [if_pos hroom]
      obtain ⟨hflush, -, herror⟩ := ho.flush
      generalize o.flush h = outcome at hflush herror ⊢
      obtain ⟨_ | e, o', h'⟩ := outcome
      · exact ⟨hflush.push c, .inl rfl⟩
      · simp only [reduceCtorEq, if_false, List.append_nil, false_or] at herror ⊢
        exact ⟨hflush, herror⟩
    · rw [if_neg hroom]
      exact ⟨ho.push c, .inl rfl⟩

/-- A flush of a stream without a limit succeeds. -/
theorem flush_eq_none (ho : o.Accounts h none taken) : (o.flush h).1 = none :=
  ho.flush.2.2.resolve_right fun hne => hne rfl

/-- A stream without a limit takes every byte. -/
theorem put_eq_none (ho : o.Accounts h none taken) (c : UInt8) : (o.put c h).1 = none :=
  (ho.put c).2.resolve_right fun hne => hne rfl

end Accounts

end Output

end Intcode
