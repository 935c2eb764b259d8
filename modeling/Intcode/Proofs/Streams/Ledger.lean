import Intcode.Proofs.Streams.Moves

/-!
# The ledger of a stream

A stream that is written keeps a ledger: what it has taken has reached its sink or
is held back. Moves at other handles leave the ledger alone as long as no other
stream writes to the same file and the file is not created anew; flushes leave it
alone too. When the stream of a file is ended, all that it took is in the file.

Main statements: a move touches one handle, and at most the file that is written
through it; the moves of an operation that does not write a stream keep its ledger.
-/

namespace Intcode

namespace Peripherals

/-- The stream with a handle writes to a file of the host. -/
def Writes (p : Peripherals) (j : Cell) (f : Nat) : Prop :=
  ∃ s, p.streams.get? j = some s ∧ s.file? = some f

/-- What a move at a handle changes: no other handle, and no file but the one that is written
through the handle or was created. -/
structure Touches (created : Nat → Prop) (p : Peripherals) (k : Cell) (q : Peripherals) : Prop where
  table : ∀ j, j ≠ k → q.streams.get? j = p.streams.get? j
  file : ∀ f, q.Writes k f →
    p.Writes k f ∨ (created f ∧ (p.host.Sound → f < q.host.bodies.size))
  body : ∀ f, ¬ p.Writes k f → ¬ created f → q.host.body f = p.host.body f
  size : p.host.bodies.size ≤ q.host.bodies.size
  custody : q.host.custody = p.host.custody
  place : q.host.place = p.host.place
  sound : p.host.Sound → q.host.Sound

section Touches

variable {scope : Scope} {p q : Peripherals} {k : Cell}

/-- Nothing is touched if the streams and the host stay as they are. -/
theorem touches_of_eq {created : Nat → Prop} (k : Cell) (hstreams : q.streams = p.streams)
    (hhost : q.host = p.host) : Touches created p k q where
  table j _ := by rw [hstreams]
  file f hwrites := by
    rw [Writes, hstreams] at hwrites
    exact .inl hwrites
  body f _ _ := by rw [hhost]
  size := Nat.le_of_eq (by rw [hhost])
  custody := by rw [hhost]
  place := by rw [hhost]
  sound := by rw [hhost]; exact id

/-- A stream that goes on with the same file touches that file only. -/
theorem touches_withStream {created : Nat → Prop} {s s' : Stream} {host : Host}
    (hstream : p.streams.get? k = some s) (hfile : s'.file? = s.file?)
    (hsize : host.bodies.size = p.host.bodies.size) (hnames : host.names = p.host.names)
    (hcustody : host.custody = p.host.custody) (hplace : host.place = p.host.place)
    (hbody : ∀ f, some f ≠ s.file? → host.body f = p.host.body f) :
    Touches created p k (p.withStream k s' host) where
  table j hj := by rw [get?_withStream, if_neg hj]
  file f hwrites := by
    obtain ⟨r, hr, hrfile⟩ := hwrites
    rw [get?_withStream, if_pos rfl, hstream] at hr
    obtain rfl := Option.some.inj hr
    exact .inl ⟨s, hstream, hfile ▸ hrfile⟩
  body f hwrites _ := hbody f fun heq => hwrites ⟨s, hstream, heq.symm⟩
  size := Nat.le_of_eq hsize.symm
  custody := hcustody
  place := hplace
  sound hsound e he := by
    have hlt := hsound e (hnames ▸ he)
    exact Nat.lt_of_lt_of_eq hlt hsize.symm

/-- Closing a stream changes no file but its own. -/
theorem sameFiles_close (s : Stream) (h : Host) :
    (s.close h).2.2.bodies.size = h.bodies.size ∧ (s.close h).2.2.names = h.names ∧
      (s.close h).2.2.custody = h.custody ∧ (s.close h).2.2.place = h.place ∧
      ∀ f, some f ≠ s.file? → (s.close h).2.2.body f = h.body f := by
  obtain ⟨-, hframe⟩ := s.flush_frame h
  rw [(s.close_eq h).2]
  exact ⟨hframe.size, hframe.names, hframe.custody, hframe.place, hframe.body⟩

/-- What a new stream touches. -/
theorem touches_added {created : Nat → Prop} {s : Stream} {host : Host}
    (hfile : ∀ f, s.file? = some f → created f ∧ p.host.Creates f host)
    (hnone : s.file? = none → host.bodies = p.host.bodies ∧ host.names = p.host.names ∧
      host.custody = p.host.custody ∧ host.place = p.host.place) :
    Touches created p k ((p.withHost host).added k s) := by
  have htable : ∀ j, j ≠ k → ((p.withHost host).added k s).streams.get? j = p.streams.get? j := by
    intro j hj
    rw [get?_added, if_neg hj]
    rfl
  have hwrites : ∀ f, ((p.withHost host).added k s).Writes k f → s.file? = some f := by
    rintro f ⟨r, hr, hrfile⟩
    rw [get?_added, if_pos rfl] at hr
    obtain rfl := Option.some.inj hr
    exact hrfile
  cases hs : s.file? with
  | none =>
    obtain ⟨hbodies, hnames, hcustody, hplace⟩ := hnone hs
    refine ⟨htable, ?_, ?_, ?_, hcustody, hplace, ?_⟩
    · intro f hf
      exact absurd (hwrites f hf) (by simp [hs])
    · intro f _ _
      simp only [added, withHost, Host.body, hbodies]
    · exact Nat.le_of_eq (by simp only [added, withHost, hbodies])
    · intro hsound e he
      have hlt := hsound e (hnames ▸ he)
      simp only [added, withHost, hbodies]
      exact hlt
  | some f =>
    obtain ⟨hcreated, hcreates⟩ := hfile f hs
    refine ⟨htable, ?_, ?_, hcreates.size, hcreates.custody, hcreates.place, hcreates.sound⟩
    · intro f' hf'
      obtain rfl : f = f' := Option.some.inj (hs.symm.trans (hwrites f' hf'))
      exact .inr ⟨hcreated, fun hsound => (hcreates.empty hsound).1⟩
    · intro f' _ hnot
      exact hcreates.body f' fun heq => hnot (heq ▸ hcreated)

/-- Opening a file under either of two names changes no file. -/
theorem openEither_eq_ok {h host : Host} {name : Text} {source : Source} {closer : Closer}
    (hopen : openEither h name = .ok (source, closer, host)) :
    host.bodies = h.bodies ∧ host.names = h.names ∧ host.custody = h.custody ∧
      host.place = h.place := by
  obtain ⟨name', hfile⟩ := exists_openFile hopen
  obtain rfl := Host.openFile_eq_ok hfile
  exact ⟨rfl, rfl, rfl, rfl⟩

/-- A move touches its handle, and the file that is written through it or created. -/
theorem Move.touches (hmove : Move scope p k q) : Touches scope.creates p k q := by
  cases hmove with
  | note k e => exact touches_of_eq k rfl rfl
  | select k i o => exact touches_of_eq k rfl rfl
  | flush hstream =>
    obtain ⟨hfile, hframe⟩ := Stream.flush_frame _ p.host
    exact touches_withStream hstream hfile hframe.size hframe.names hframe.custody hframe.place
      hframe.body
  | read _ hstream =>
    exact touches_withStream hstream rfl rfl rfl rfl rfl fun _ _ => rfl
  | write c _ hstream =>
    obtain ⟨hfile, hframe⟩ := Output.put_frame _ c p.host
    exact touches_withStream hstream hfile hframe.size hframe.names hframe.custody hframe.place
      hframe.body
  | @finish k s hscope hfile hstream =>
    obtain ⟨hsize, hnames, hcustody, hplace, hbody⟩ := sameFiles_close s p.host
    -- Apart from the table this is what closing the stream of a default handle touches.
    have hsettle : Touches scope.creates p k
        (p.withStream k (s.close p.host).2.1 (s.close p.host).2.2) := by
      refine touches_withStream hstream ?_ hsize hnames hcustody hplace hbody
      rw [(s.close_eq p.host).1]
      exact (s.flush_frame p.host).1
    refine ⟨?_, ?_, hsettle.body, hsettle.size, hsettle.custody, hsettle.place, hsettle.sound⟩
    · intro j hj
      rw [get?_ended, if_neg hj]
    · rintro f ⟨r, hr, -⟩
      rw [get?_ended, if_pos rfl] at hr
      cases hr
  | @settle k s hdefault hstream =>
    obtain ⟨hsize, hnames, hcustody, hplace, hbody⟩ := sameFiles_close s p.host
    refine touches_withStream hstream ?_ hsize hnames hcustody hplace hbody
    rw [(s.close_eq p.host).1]
    exact (s.flush_frame p.host).1
  | find _ hopen _ =>
    refine touches_added ?_ fun _ => openEither_eq_ok hopen
    intro f hf
    cases hf
  | create hscope hcreate _ =>
    refine touches_added ?_ ?_
    · intro f hf
      obtain rfl := Option.some.inj hf
      obtain ⟨f', heq, hcreates⟩ := Host.createFile_eq_ok hcreate
      cases heq
      exact ⟨hscope, hcreates⟩
    · intro hnone
      cases hnone

end Touches

/-- Every name denotes a file, and every stream that writes a file writes one that is there. -/
structure Sound (p : Peripherals) : Prop where
  host : p.host.Sound
  writes : ∀ j f, p.Writes j f → f < p.host.bodies.size

/-- Moves keep names and streams on files that are there. -/
theorem Move.sound {scope : Scope} {p q : Peripherals} {k : Cell} (hmove : Move scope p k q)
    (hp : p.Sound) : q.Sound where
  host := hmove.touches.sound hp.host
  writes j f hwrites := by
    have htouches := hmove.touches
    have hold : p.Writes j f → f < q.host.bodies.size := fun hw =>
      Nat.lt_of_lt_of_le (hp.writes j f hw) htouches.size
    by_cases hj : j = k
    · subst hj
      rcases htouches.file f hwrites with hw | ⟨-, hlt⟩
      · exact hold hw
      · exact hlt hp.host
    · rw [Writes, htouches.table j hj] at hwrites
      exact hold hwrites

/-- The ledger of the stream with a handle, which writes to the given file or to a device of its
own: the stream has taken the given text, and no other stream writes to its file. -/
structure Keeps (p : Peripherals) (h : Cell) (file? : Option Nat) (limit : Option Nat)
    (taken : Text) : Prop where
  stream : ∃ o closer, p.streams.get? h = some ⟨.output o, closer⟩ ∧ o.sink.file? = file? ∧
    o.Accounts p.host limit taken
  sole : ∀ f ∈ file?, ∀ j, p.Writes j f → j = h

/-- A file that no stream writes to holds a text. -/
structure Settled (p : Peripherals) (f : Nat) (t : Text) : Prop where
  idle : ∀ j, ¬ p.Writes j f
  contents : (p.host.body f).contents = t

section Ledger

variable {scope : Scope} {p q : Peripherals} {h k : Cell} {file? limit : Option Nat} {taken : Text}

/-- What is touched at another handle leaves a ledger alone. -/
theorem Keeps.elsewhere {created : Nat → Prop} (hp : p.Keeps h file? limit taken)
    (htouches : Touches created p k q) (hk : k ≠ h) (hcreated : ∀ f ∈ file?, ¬ created f) :
    q.Keeps h file? limit taken := by
  obtain ⟨⟨o, closer, hstream, hfile, haccounts⟩, hsole⟩ := hp
  have hother : ∀ f ∈ file?, ¬ p.Writes k f := fun f hf hw => hk (hsole f hf k hw)
  refine ⟨⟨o, closer, ?_, hfile, haccounts.congr_host ?_⟩, ?_⟩
  · rw [htouches.table h (Ne.symm hk)]
    exact hstream
  · intro f hf
    rw [hfile] at hf
    exact ⟨htouches.body f (hother f hf) (hcreated f hf), htouches.size⟩
  · intro f hf j hwrites
    by_cases hj : j = k
    · subst hj
      rcases htouches.file f hwrites with hw | ⟨hc, -⟩
      · exact absurd hw (hother f hf)
      · exact absurd hc (hcreated f hf)
    · rw [Writes, htouches.table j hj] at hwrites
      exact hsole f hf j hwrites

/-- Another state of the stream itself, with the same file and another account. -/
theorem Keeps.withStream {o o' : Output} {closer closer' : Option Closer} {host : Host} {t : Text}
    (hp : p.Keeps h file? limit taken) (hstream : p.streams.get? h = some ⟨.output o, closer⟩)
    (hfile : o'.sink.file? = o.sink.file?) (haccounts : o'.Accounts host limit t) :
    (p.withStream h ⟨.output o', closer'⟩ host).Keeps h file? limit t := by
  obtain ⟨⟨o₁, closer₁, hstream₁, hfile₁, -⟩, hsole⟩ := hp
  rw [hstream] at hstream₁
  cases hstream₁
  refine ⟨⟨o', closer', ?_, hfile.trans hfile₁, haccounts⟩, ?_⟩
  · rw [get?_withStream, if_pos rfl, hstream]
    rfl
  · rintro f hf j ⟨s, hs, hsfile⟩
    by_cases hj : j = h
    · exact hj
    · rw [get?_withStream, if_neg hj] at hs
      exact hsole f hf j ⟨s, hs, hsfile⟩

/-- A move that does not write a stream leaves its ledger alone, or ends the stream. -/
theorem Move.keeps_or_ends (hmove : Move scope p k q) (hwrites : ¬ scope.writes h)
    (hcreates : ∀ f ∈ file?, ¬ scope.creates f) (hp : p.Keeps h file? limit taken) :
    q.Keeps h file? limit taken ∨
      ((scope.ends h ∧ h ≠ defaultOutput) ∧ ∃ s, p.streams.get? h = some s ∧ q = p.ended h s) := by
  have htouches := hmove.touches
  by_cases hk : k = h
  · subst hk
    obtain ⟨o, closer, hopen, hfile, haccounts⟩ := hp.stream
    -- Of the moves at the handle itself, only flushes and the end of the stream are left.
    cases hmove with
    | note k e => exact .inl ⟨hp.stream, hp.sole⟩
    | select k i o => exact .inl ⟨hp.stream, hp.sole⟩
    | flush hstream =>
      rw [hopen] at hstream
      cases hstream
      exact .inl (hp.withStream hopen (o.flush_frame p.host).1 haccounts.flush.1)
    | read _ hstream =>
      rw [hopen] at hstream
      cases hstream
    | write c hscope _ => exact absurd hscope hwrites
    | finish hscope hne hstream => exact .inr ⟨⟨hscope, hne.2⟩, _, hstream, rfl⟩
    | settle hdefault hstream =>
      rw [hopen] at hstream
      cases hstream
      rw [(Stream.close_eq _ p.host).1, (Stream.close_eq _ p.host).2]
      refine .inl (hp.withStream hopen (o.flush_frame p.host).1 ?_)
      exact haccounts.flush.1.congr_host fun _ _ => ⟨rfl, Nat.le_refl _⟩
    | find _ _ hfree => exact absurd (hopen.symm.trans (freeHandle?_eq_some hfree).1) (by simp)
    | create _ _ hfree => exact absurd (hopen.symm.trans (freeHandle?_eq_some hfree).1) (by simp)
  · exact .inl (hp.elsewhere htouches hk hcreates)

/-- A file that no stream writes to keeps its contents, unless it is created anew. -/
theorem Move.settled {f : Nat} {t : Text} (hmove : Move scope p k q) (hcreates : ¬ scope.creates f)
    (hp : p.Settled f t) : q.Settled f t := by
  have htouches := hmove.touches
  refine ⟨?_, ?_⟩
  · intro j hwrites
    by_cases hj : j = k
    · subst hj
      rcases htouches.file f hwrites with hw | ⟨hc, -⟩
      · exact hp.idle j hw
      · exact hcreates hc
    · rw [Writes, htouches.table j hj] at hwrites
      exact hp.idle j hwrites
  · rw [htouches.body f (hp.idle k) hcreates]
    exact hp.contents

/-- Ending the stream of a file that has no limit leaves in the file what the stream has taken. -/
theorem Keeps.settled {f : Nat} {s : Stream} (hp : p.Keeps h (some f) none taken)
    (hstream : p.streams.get? h = some s) : (p.ended h s).Settled f taken := by
  obtain ⟨⟨o, closer, hopen, hfile, haccounts⟩, hsole⟩ := hp
  rw [hopen] at hstream
  cases hstream
  refine ⟨?_, ?_⟩
  · rintro j ⟨r, hr, hrfile⟩
    rw [get?_ended] at hr
    by_cases hj : j = h
    · rw [if_pos hj] at hr
      cases hr
    · rw [if_neg hj] at hr
      exact hj (hsole f rfl j ⟨r, hr, hrfile⟩)
  · obtain ⟨hflush, hempty, -⟩ := haccounts.flush
    have htext := hflush.text
    rw [(hempty haccounts.flush_eq_none).1, List.append_nil] at htext
    have hsink : (o.flush p.host).2.1.sink.file? = some f := (o.flush_frame p.host).1.trans hfile
    have hdelivered : ((o.flush p.host).2.2.body f).contents = taken := by
      rw [← htext]
      cases hs : (o.flush p.host).2.1.sink with
      | device d => simp [hs, Sink.file?] at hsink
      | file g offset =>
        rw [hs] at hsink
        cases hsink
        rfl
    rw [← hdelivered]
    simp only [ended, (Stream.close_eq _ p.host).2]
    rfl

/-- A byte that is given to the stream with a handle, if the stream takes it. -/
def taking (p : Peripherals) (h : Cell) (c : UInt8) : Text :=
  match p.streams.get? h with
  | some ⟨.output o, _⟩ => if (o.put c p.host).1 = none then [c] else []
  | _ => []

/-- A stream without a limit takes every byte. -/
theorem Keeps.taking_eq (hp : p.Keeps h file? none taken) (c : UInt8) : p.taking h c = [c] := by
  obtain ⟨o, closer, hopen, -, haccounts⟩ := hp.stream
  simp only [taking, hopen, haccounts.put_eq_none, if_true]

/-- Moves that neither write nor end a stream leave its ledger alone. The default output is never
ended. -/
theorem Keeps.of_reaches (hp : p.Keeps h file? limit taken) (hreach : Reaches scope p q)
    (hwrites : ¬ scope.writes h) (hends : ¬ scope.ends h ∨ h = defaultOutput)
    (hcreates : ∀ f ∈ file?, ¬ scope.creates f) : q.Keeps h file? limit taken := by
  refine hreach.preserves (I := fun r => r.Keeps h file? limit taken) ?_ hp
  intro r k r' hmove hr
  rcases hmove.keeps_or_ends hwrites hcreates hr with hkeeps | ⟨⟨hend, hne⟩, -⟩
  · exact hkeeps
  · rcases hends with hnot | heq
    · exact absurd hend hnot
    · exact absurd heq hne

/-- A byte that the selected stream is given and takes comes last in its ledger. -/
theorem Keeps.putByte (hp : p.Keeps p.output file? limit taken) (context : String) (c : UInt8) :
    ((putByte context c).final p).Keeps p.output file? limit (taken ++ p.taking p.output c) := by
  obtain ⟨o, closer, hopen, -, haccounts⟩ := hp.stream
  simp only [Action.final, putByte_apply, taking, hopen, stateOf_concluded]
  exact hp.withStream hopen (o.put_frame c p.host).1 (haccounts.put c).1

/-- The end of a line that the selected stream is given and takes comes last in its ledger. -/
theorem Keeps.newline (hp : p.Keeps p.output file? limit taken) :
    (newline.final p).Keeps p.output file? limit (taken ++ p.taking p.output Text.lineFeed) := by
  have hput := hp.putByte "newline failed" Text.lineFeed
  rw [Action.final] at hput ⊢
  rw [newline_apply]
  cases hbyte : Peripherals.putByte "newline failed" Text.lineFeed p with
  | error e q =>
    rw [hbyte] at hput
    exact hput
  | ok u q =>
    rw [hbyte] at hput
    by_cases hdefault : q.output = defaultOutput
    · simp only [if_pos hdefault, stateOf_concluded]
      exact hput.of_reaches (reaches_flushed {} q) id (.inl id) fun _ _ => id
    · simp only [if_neg hdefault]
      exact hput

/-- A character that the selected stream is given and takes comes last in its ledger. -/
theorem Keeps.writeCharacter (hp : p.Keeps p.output file? limit taken) (c : UInt8) :
    ((writeCharacter c).final p).Keeps p.output file? limit (taken ++ p.taking p.output c) := by
  unfold Peripherals.writeCharacter
  by_cases hc : c = Text.lineFeed
  · rw [if_pos hc, hc]
    exact hp.newline
  · rw [if_neg hc]
    exact hp.putByte "wrch failed" c

end Ledger

end Peripherals

end Intcode
