import Intcode.Proofs.Streams.Numbers

/-!
# Reading a number ends

A file may grow while it is read, because the default output may go into it and is
flushed before the program waits for input. It does not grow beyond what the default
output holds back. So each character that is read brings the end nearer, and the bound
on the characters of a number is never met.
-/

namespace Intcode

/-- Laying a text over contents extends them up to its end. -/
theorem Body.length_overlay (contents : Text) (offset : Nat) (t : Text) :
    (overlay contents offset t).length = max contents.length (offset + t.length) := by
  simp only [overlay, List.length_append, List.length_take, List.length_replicate,
    List.length_drop]
  omega

/-- A write to a file takes no more than it is given, and extends the file at most up to its own
end. -/
theorem Sink.write_file {j offset n : Nat} {t : Text} {s : Sink} {h h' : Host}
    (hwrite : (Sink.file j offset).write t h = (n, s, h')) :
    n ≤ t.length ∧ s = .file j (offset + n) ∧
      ∀ k, (h'.body k).length ≤
        if j = k then max (h.body k).length (offset + n) else (h.body k).length := by
  have hfit : ((h.body j).writeAt offset t).1 ≤ t.length :=
    Device.write_le { room := (h.body j).room } t
  have hbody := congrArg List.length ((h.body j).contents_writeAt offset t)
  rw [Body.length_contents, Body.length_overlay, Body.length_contents, List.length_take,
    Nat.min_eq_left hfit] at hbody
  have hparts : (Sink.file j offset).write t h = (((h.body j).writeAt offset t).1,
      .file j (offset + ((h.body j).writeAt offset t).1),
      h.setBody j ((h.body j).writeAt offset t).2) := rfl
  rw [hparts] at hwrite
  generalize (h.body j).writeAt offset t = w at hfit hbody hwrite
  cases hwrite
  refine ⟨hfit, rfl, fun k => ?_⟩
  rw [Host.body_setBody]
  by_cases hjk : j = k
  · subst hjk
    rw [if_pos rfl]
    split
    · exact Nat.le_of_eq hbody
    · exact Nat.le_max_left _ _
  · exact Nat.le_of_eq (by rw [if_neg fun hand => hjk hand.1, if_neg hjk])

namespace Output

/-- Where the file with a number ends at least, once all that a stream holds back is written. -/
def reach (o : Output) (k : Nat) : Nat :=
  match o.sink with
  | .file j offset => if j = k then offset + o.backlog.text.length else 0
  | .device _ => 0

/-- Where the file with a number ends at most, once all that a stream holds back is written. -/
def extent (o : Output) (h : Host) (k : Nat) : Nat := max (h.body k).length (o.reach k)

/-- A flush extends no file further than that. -/
theorem extent_flush_le (o : Output) (h : Host) (k : Nat) :
    (o.flush h).2.1.extent (o.flush h).2.2 k ≤ o.extent h k := by
  rcases o.flush_cases h with ⟨e, -, heq⟩ | ⟨-, -, heq⟩ | ⟨n, s, h', -, hwrite, heq⟩
  · exact Nat.le_of_eq (by rw [heq])
  · exact Nat.le_of_eq (by rw [heq])
  · rw [heq]
    cases hsink : o.sink with
    | device d =>
      rw [hsink] at hwrite
      cases hwrite
      split <;> simp only [extent, reach, hsink] <;> exact Nat.le_refl _
    | file j offset =>
      rw [hsink] at hwrite
      obtain ⟨hfit, rfl, hlength⟩ := Sink.write_file hwrite
      have hk := hlength k
      have hempty : ({} : Backlog).text.length = 0 := rfl
      by_cases hjk : j = k
      · rw [if_pos hjk] at hk
        split <;> simp only [extent, reach, hsink, if_pos hjk, Backlog.text_ofText,
          List.length_drop, hempty] <;> omega
      · rw [if_neg hjk] at hk
        split <;> simp only [extent, reach, hsink, if_neg hjk] <;> omega

end Output

/-- The bytes that a source still has at most, if files end where they are said to. -/
def Source.left (s : Source) (extent : Nat → Nat) : Nat :=
  match s with
  | .script chunks _ => chunks.flatten.length
  | .file k offset => extent k - offset

/-- The bytes that an input stream still gives at most, if files end where they are said to. -/
def Input.left (i : Input) (extent : Nat → Nat) : Nat := i.unread.length + i.source.left extent

/-- Every byte that is read is one of these. -/
theorem Input.next_left {i : Input} {h : Host} {extent : Nat → Nat}
    (hextent : ∀ k, (h.body k).length ≤ extent k) :
    (i.next h).2.left extent ≤ i.left extent ∧
      ∀ c, (i.next h).1 = .byte c → (i.next h).2.left extent + 1 ≤ i.left extent := by
  obtain ⟨source, unread⟩ := i
  cases unread with
  | cons c t =>
    simp only [next, left, List.length_cons]
    exact ⟨by omega, fun _ _ => by omega⟩
  | nil =>
    cases source with
    | script chunks ending =>
      by_cases hnil : chunks.flatten = []
      · have hread := @Source.readScript_of_eq_nil chunks ending hnil
        simp only [next, Source.read, hread]
        cases ending <;> exact ⟨Nat.zero_le _, fun _ hc => by cases hc⟩
      · obtain ⟨t, chunks', hread, ht, hrest⟩ := Source.readScript_of_ne_nil ending hnil
        obtain ⟨c, t, rfl⟩ := List.exists_cons_of_ne_nil ht
        have hlength := congrArg List.length hrest
        rw [List.length_append, List.length_cons] at hlength
        simp only [next, Source.read, hread, left, Source.left, List.length_nil]
        exact ⟨by omega, fun _ _ => by omega⟩
    | file k offset =>
      have hlength : (((h.body k).contents.drop offset).take bufferSize).length ≤
          (h.body k).length - offset := by
        rw [List.length_take, List.length_drop, Body.length_contents]
        exact Nat.min_le_right _ _
      have hk := hextent k
      simp only [next, Source.read]
      generalize ((h.body k).contents.drop offset).take bufferSize = bytes at hlength
      cases bytes with
      | nil => exact ⟨Nat.le_refl _, fun _ hc => by cases hc⟩
      | cons c t =>
        rw [List.length_cons] at hlength
        simp only [List.isEmpty_cons, Bool.false_eq_true, if_false, left, Source.left,
          List.length_nil, List.length_cons]
        exact ⟨by omega, fun _ _ => by omega⟩

namespace Peripherals

/-- Where the file with a number ends at most when the default output has been flushed. -/
def extent (p : Peripherals) (k : Nat) : Nat :=
  match p.streams.get? defaultOutput with
  | some ⟨.output o, _⟩ => o.extent p.host k
  | _ => (p.host.body k).length

/-- The characters that the selected input stream still gives at most. -/
def stock (p : Peripherals) : Nat :=
  match p.streams.get? p.input with
  | some ⟨.input i, _⟩ => i.left p.extent
  | _ => 0

/-- No file ends beyond where it may end. -/
theorem length_le_extent (p : Peripherals) (k : Nat) : (p.host.body k).length ≤ p.extent k := by
  unfold extent
  rcases p.streams.get? defaultOutput with _ | ⟨i | o, closer⟩
  · exact Nat.le_refl _
  · exact Nat.le_refl _
  · exact Nat.le_max_left _ _

/-- The bound on what the selected input stream gives is large enough. -/
theorem stock_le_supply (p : Peripherals) : p.stock ≤ p.supply := by
  unfold stock supply
  rcases p.streams.get? p.input with _ | ⟨i | o, closer⟩
  · exact Nat.le_refl _
  · simp only [Input.left]
    cases i.source with
    | script chunks ending =>
      simp only [Source.left, Source.drain]
      omega
    | file k offset =>
      simp only [Source.left, Source.drain, List.length_drop, Body.length_contents, extent]
      rcases p.streams.get? defaultOutput with _ | ⟨i' | ⟨sink, backlog, failed⟩, closer'⟩
      · simp only
        omega
      · simp only
        omega
      · simp only [Output.extent, Output.reach]
        cases sink with
        | device d =>
          simp only
          omega
        | file j end' =>
          have htext : backlog.text.length = backlog.newest.length := List.length_reverse
          simp only [htext]
          split <;> omega
  · exact Nat.le_refl _

/-- A flush of the default output lets no file grow beyond where it may end. -/
theorem extent_readied_le (p : Peripherals) (i : Input) (k : Nat) :
    (p.readied i).extent k ≤ p.extent k := by
  have hflushed : p.flushed.extent k ≤ p.extent k := by
    unfold extent
    rw [get?_flushed, if_pos rfl]
    cases hstream : p.streams.get? defaultOutput with
    | none =>
      simp only [flushed, hstream, Option.map_none]
      exact Nat.le_refl _
    | some s =>
      obtain ⟨i' | o, closer⟩ := s
      · simp only [flushed, hstream, Option.map_some, Stream.flush, withStream]
        exact Nat.le_refl _
      · simp only [flushed, hstream, Option.map_some, Stream.flush, withStream]
        exact o.extent_flush_le p.host k
  unfold readied
  split
  · unfold prompted
    cases p.flushError with
    | none => exact hflushed
    | some e =>
      refine Nat.le_trans (Nat.le_of_eq ?_) hflushed
      simp only [extent, traced_streams, traced_host]
  · exact Nat.le_refl _

/-- Reading takes characters from the stock. -/
theorem stock_of_readCharacter {p q : Peripherals} {c : Cell} (hread : readCharacter p = .ok c q)
    (hc : c ≠ endOfStream) : q.stock + 1 ≤ p.stock := by
  rw [readCharacter_apply] at hread
  rcases hstream : p.streams.get? p.input with _ | ⟨i | o, closer⟩
  · rw [hstream] at hread
    cases hread
    exact absurd rfl hc
  · rw [hstream] at hread
    dsimp only at hread
    obtain ⟨hchar, hq⟩ := EStateM.Result.ok.inj hread
    subst hq
    obtain ⟨hstreams, hhost, hinput⟩ := afterReading_frame
      ((p.readied i).withStream p.input ⟨.input (i.next (p.readied i).host).2, closer⟩
        (p.readied i).host) p.input (i.next (p.readied i).host).1
    have hready := get?_readied i hstream
    -- The default output is not the stream that is read.
    have hextent (k : Nat) : (((p.readied i).withStream p.input
        ⟨.input (i.next (p.readied i).host).2, closer⟩ (p.readied i).host).afterReading p.input
          (i.next (p.readied i).host).1).extent k = (p.readied i).extent k := by
      unfold extent
      rw [hstreams, hhost, get?_withStream]
      by_cases hdefault : defaultOutput = p.input
      · rw [if_pos hdefault, hready, hdefault, hready]
        rfl
      · rw [if_neg hdefault]
        rfl
    have hleft := Input.next_left (i := i) (p.readied i).length_le_extent
    have hbyte : ∃ b, (i.next (p.readied i).host).1 = .byte b := by
      cases hnext : (i.next (p.readied i).host).1 with
      | byte b => exact ⟨b, rfl⟩
      | exhausted =>
        rw [hnext] at hchar
        exact absurd hchar.symm hc
      | failed e =>
        rw [hnext] at hchar
        exact absurd hchar.symm hc
    obtain ⟨b, hb⟩ := hbyte
    have htaken := hleft.2 b hb
    have hsource : i.left (p.readied i).extent ≤ i.left p.extent := by
      unfold Input.left Source.left
      cases i.source with
      | script chunks ending => exact Nat.le_refl _
      | file k offset =>
        have hk := p.extent_readied_le i k
        simp only
        omega
    have hstock : (((p.readied i).withStream p.input
        ⟨.input (i.next (p.readied i).host).2, closer⟩ (p.readied i).host).afterReading p.input
          (i.next (p.readied i).host).1).stock =
        (i.next (p.readied i).host).2.left (p.readied i).extent := by
      have hselected : ((p.readied i).withStream p.input
          ⟨.input (i.next (p.readied i).host).2, closer⟩ (p.readied i).host).input = p.input :=
        (p.readied_selection i).1
      unfold stock
      rw [hstreams, hinput, hselected, get?_withStream, if_pos rfl, hready]
      simp only [Option.map_some]
      rw [funext hextent]
    rw [hstock, stock, hstream]
    exact Nat.le_trans htaken hsource
  · rw [hstream] at hread
    cases hread
    exact absurd rfl hc

/-- So many characters are enough to get to the end of a class: there are no more of them, or the
class ends among the unread bytes. -/
def Enough (isMember : Cell → Bool) (n : Nat) (p : Peripherals) : Prop :=
  p.stock < n ∨ ∃ i closer, p.streams.get? p.input = some ⟨.input i, closer⟩ ∧
    (∃ c ∈ i.unread, isMember (.ofByte (Text.foldReturn c)) = false) ∧ i.unread.length < n

/-- The bound on the characters of a class is enough. -/
theorem enough_spanLimit (isMember : Cell → Bool) (p : Peripherals) :
    p.Enough isMember (p.spanLimit isMember + 1) := by
  have hstock := p.stock_le_supply
  unfold spanLimit
  rcases hstream : p.streams.get? p.input with _ | ⟨i | o, closer⟩
  · left
    rw [stock, hstream]
    exact Nat.zero_lt_succ _
  · by_cases hany : (i.unread.any fun c => !isMember (.ofByte (Text.foldReturn c))) = true
    · right
      obtain ⟨c, hc, hnot⟩ := List.any_eq_true.mp hany
      refine ⟨i, closer, hstream, ⟨c, hc, by simpa using hnot⟩, ?_⟩
      simp only [if_pos hany]
      exact Nat.lt_succ_self _
    · left
      simp only [if_neg hany]
      exact Nat.lt_succ_of_le hstock
  · left
    rw [stock, hstream]
    exact Nat.zero_lt_succ _

section Enough

variable {isMember : Cell → Bool} {p q : Peripherals} {c : Cell} {n : Nat}

/-- After a character of the class one less is enough. -/
theorem Enough.step (hend : isMember endOfStream = false) (h : p.Enough isMember (n + 1))
    (hread : readCharacter p = .ok c q) (hc : isMember c = true) : q.Enough isMember n := by
  have hne : c ≠ endOfStream := by
    rintro rfl
    rw [hend] at hc
    cases hc
  rcases h with hstock | ⟨i, closer, hstream, ⟨d, hd, hnot⟩, hlength⟩
  · have htaken := stock_of_readCharacter hread hne
    exact .inl (by omega)
  · -- The character is the first unread one, and the class ends after it.
    obtain ⟨source, unread⟩ := i
    cases unread with
    | nil => exact absurd hd List.not_mem_nil
    | cons b t =>
      rw [readCharacter_apply, hstream] at hread
      obtain ⟨hchar, rfl⟩ := EStateM.Result.ok.inj hread
      refine .inr ⟨⟨source, t⟩, closer, ?_, ⟨d, ?_, hnot⟩, ?_⟩
      · change (p.withStream p.input ⟨.input ⟨source, t⟩, closer⟩ p.host).streams.get? p.input = _
        rw [get?_withStream, if_pos rfl, hstream]
        rfl
      · rcases List.mem_cons.mp hd with rfl | hmem
        · rw [← hchar] at hc
          exact absurd (hnot.symm.trans hc) (by simp)
        · exact hmem
      · exact Nat.lt_of_succ_lt_succ hlength

/-- Nothing is enough if nothing may be read. -/
theorem not_enough_zero : ¬ p.Enough isMember 0 := by
  rintro (hstock | ⟨_, _, -, -, hlength⟩)
  · exact Nat.not_lt_zero _ hstock
  · exact Nat.not_lt_zero _ hlength

/-- Blanks come to an end. -/
theorem skipBlanks_ok (h : p.Enough isBlank n) : ∃ c q, skipBlanks n p = .ok c q := by
  induction n generalizing p with
  | zero => exact absurd h not_enough_zero
  | succ n ih =>
    obtain ⟨c, q, hread⟩ := p.readCharacter_ok
    rw [skipBlanks_succ hread]
    by_cases hblank : isBlank c = true
    · rw [if_pos hblank]
      exact ih (h.step rfl hread hblank)
    · rw [if_neg hblank]
      exact ⟨c, q, rfl⟩

/-- Digits come to an end. -/
theorem readDigits_ok (h : p.Enough isDigit n) (sum c : Cell) :
    ∃ r q, readDigits n sum c p = .ok r q := by
  induction n generalizing p sum c with
  | zero => exact absurd h not_enough_zero
  | succ n ih =>
    by_cases hdigit : isDigit c = true
    · obtain ⟨next, q, hread⟩ := p.readCharacter_ok
      rw [readDigits_succ hread hdigit]
      by_cases hnext : isDigit next = true
      · exact ih (h.step rfl hread hnext) _ next
      · exact ⟨_, _, readDigits_of_not_isDigit hnext ..⟩
    · exact ⟨_, _, readDigits_of_not_isDigit hdigit ..⟩

end Enough

/-- Reading a number always gives one. -/
theorem readNumber_ok (p : Peripherals) : ∃ r q, readNumber p = .ok r q := by
  have hmagnitude (negative : Bool) (c : Cell) (q : Peripherals) :
      ∃ r q', readMagnitude negative c q = .ok r q' := by
    obtain ⟨r, q', hdigits⟩ := readDigits_ok (enough_spanLimit isDigit q) 0 c
    unfold readMagnitude
    rw [hdigits]
    exact ⟨_, _, rfl⟩
  obtain ⟨c, q, hblanks⟩ := skipBlanks_ok (enough_spanLimit isBlank p)
  rw [readNumber_apply, hblanks]
  dsimp only
  split
  · obtain ⟨d, q', hread⟩ := q.readCharacter_ok
    rw [hread]
    exact hmagnitude _ d q'
  · exact hmagnitude false c q

end Peripherals

end Intcode
