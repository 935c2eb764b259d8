import Intcode.Proofs.Streams.Buffers

/-!
# Streams and the files of the host

Flushing and closing a stream changes no file but the one that the stream writes
to. Creating a file changes no other file either, and only a directory creates a
file anew that was there before. Opening a file changes none.
-/

namespace Intcode

namespace Stream

/-- The file of the host that a stream writes to. -/
def file? (s : Stream) : Option Nat :=
  match s.channel with
  | .input _ => none
  | .output o => o.sink.file?

/-- A flush changes no file but that of the stream, which stays the same file. -/
theorem flush_frame (s : Stream) (h : Host) :
    (s.flush h).2.1.file? = s.file? ∧ h.SameBut s.file? (s.flush h).2.2 := by
  obtain ⟨i | o, closer⟩ := s
  · exact ⟨rfl, .refl _ h⟩
  · exact o.flush_frame h

/-- A flush leaves the way to close a stream alone. -/
theorem flush_closer (s : Stream) (h : Host) : (s.flush h).2.1.closer = s.closer := by
  obtain ⟨i | o, closer⟩ := s <;> rfl

/-- Closing a stream is a flush, and takes the ticket of its file back. -/
theorem close_eq (s : Stream) (h : Host) :
    (s.close h).2.1 = { (s.flush h).2.1 with closer := none } ∧
      (s.close h).2.2 = { (s.flush h).2.2 with
        closed := (s.closer.map (·.ticket)).toList ++ (s.flush h).2.2.closed } := by
  have hcloser := s.flush_closer h
  simp only [close]
  generalize s.flush h = flushed at hcloser ⊢
  obtain ⟨e, ⟨channel, closer⟩, h'⟩ := flushed
  simp only at hcloser
  subst hcloser
  cases s.closer with
  | none => exact ⟨rfl, rfl⟩
  | some c => exact ⟨rfl, rfl⟩

end Stream

namespace Host

/-- Every name denotes a file. -/
def Sound (h : Host) : Prop := ∀ e ∈ h.names, e.2 < h.bodies.size

/-- What creating a file does to the host. -/
structure Creates (h : Host) (f : Nat) (h' : Host) : Prop where
  custody : h'.custody = h.custody
  place : h'.place = h.place
  size : h.bodies.size ≤ h'.bodies.size
  body : ∀ j, j ≠ f → h'.body j = h.body j
  sound : h.Sound → h'.Sound
  /-- The file is there, and it is empty. -/
  empty : h.Sound → f < h'.bodies.size ∧ (h'.body f).contents = []
  /-- Only a directory creates a file that there was before. -/
  fresh : h.custody = .directory ∨ f = h.bodies.size

/-- A file that is added comes after all others. -/
theorem body_addBody (h : Host) (b : Body) (j : Nat) :
    (h.addBody b).2.body j = if j = h.bodies.size then b else h.body j := by
  simp only [body, addBody, Array.getD_eq_getD_getElem?, Array.getElem?_push]
  split <;> rfl

/-- What names denote, they still denote when one of them gets another file. -/
theorem Sound.bindName {h : Host} (hsound : h.Sound) (name : Text) {k : Nat}
    (hk : k < h.bodies.size) : (h.bindName name k).Sound := by
  intro e he
  rcases List.mem_cons.mp he with rfl | hmem
  · exact hk
  · exact hsound e (List.mem_filter.mp hmem).1

/-- Files may be added. -/
theorem Sound.addBody {h : Host} (hsound : h.Sound) (b : Body) : (h.addBody b).2.Sound := by
  intro e he
  have hlt := hsound e he
  simp only [Host.addBody, Array.size_push]
  omega

/-- A file that is added is a new one. -/
theorem creates_addBody {h : Host} {b : Body} (hb : b.contents = []) :
    h.Creates h.bodies.size (h.addBody b).2 where
  custody := rfl
  place := rfl
  size := by
    simp only [addBody, Array.size_push]
    omega
  body j hj := by rw [body_addBody, if_neg hj]
  sound hsound := hsound.addBody b
  empty _ := by
    rw [body_addBody, if_pos rfl]
    refine ⟨?_, hb⟩
    simp only [addBody, Array.size_push]
    omega
  fresh := .inr rfl

/-- A new file may get a name. -/
theorem Creates.bindName {h h' : Host} {f : Nat} (hcreates : h.Creates f h') (name : Text) :
    h.Creates f (h'.bindName name f) where
  custody := hcreates.custody
  place := hcreates.place
  size := hcreates.size
  body := hcreates.body
  sound hsound := (hcreates.sound hsound).bindName name (hcreates.empty hsound).1
  empty := hcreates.empty
  fresh := hcreates.fresh

/-- A directory may empty a file that it has. -/
theorem creates_setBody {h : Host} (hcustody : h.custody = .directory) {name : Text} {k : Nat}
    (hname : h.names.lookup name = some k) : h.Creates k (h.setBody k {}) where
  custody := rfl
  place := rfl
  size := Nat.le_of_eq (h.sameBut_setBody k _).size.symm
  body j hj := (h.sameBut_setBody k _).body j fun heq => hj (Option.some.inj heq)
  sound hsound e he := Nat.lt_of_lt_of_eq (hsound e he) (h.sameBut_setBody k _).size.symm
  empty hsound := by
    have hlt : k < h.bodies.size := by
      obtain ⟨l₁, l₂, hl, -⟩ := List.lookup_eq_some_iff.mp hname
      exact hsound (name, k) (by rw [hl]; simp)
    rw [body_setBody, if_pos ⟨rfl, hlt⟩]
    exact ⟨Nat.lt_of_lt_of_eq hlt (h.sameBut_setBody k _).size.symm, rfl⟩
  fresh := .inl hcustody

/-- How the host creates a file under a name. -/
inductive CreatedAs (h : Host) (name : Text) : Sink × Closer × Host → Prop
  /-- A script has a new file. -/
  | scripted {provisions : List (Text × Provision)}
      (hcustody : h.custody = .scripted provisions) (fails : Bool) (room : Option Nat) :
      CreatedAs h name (.file h.bodies.size 0, ⟨h.next, fails⟩,
        (h.takeTicket.2.addBody { room, ticket := some h.next }).2.bindName name h.bodies.size)
  /-- The device that takes everything is a new file without a name. -/
  | null (hcustody : h.custody = .directory) (hplace : h.place name = .null) :
      CreatedAs h name (.file h.bodies.size 0, ⟨h.next, false⟩, (h.takeTicket.2.addBody {}).2)
  /-- A directory empties the file that it has. -/
  | emptied {kept : Text} {readable : Bool} {k : Nat} (hcustody : h.custody = .directory)
      (hplace : h.place name = .file kept readable true) (hkept : h.names.lookup kept = some k) :
      CreatedAs h name (.file k 0, ⟨h.next, false⟩, h.takeTicket.2.setBody k {})
  /-- A directory has a new file. -/
  | added {kept : Text} {readable : Bool} (hcustody : h.custody = .directory)
      (hplace : h.place name = .file kept readable true) (hkept : h.names.lookup kept = none) :
      CreatedAs h name (.file h.bodies.size 0, ⟨h.next, false⟩,
        (h.takeTicket.2.addBody {}).2.bindName kept h.bodies.size)

/-- A file that is created is created in one of these ways. -/
theorem createdAs_of_createFile {h : Host} {name : Text} {created : Sink × Closer × Host}
    (hcreate : h.createFile name = .ok created) : h.CreatedAs name created := by
  unfold createFile at hcreate
  cases hcustody : h.custody with
  | scripted provisions =>
    simp only [hcustody] at hcreate
    by_cases huncreatable : (provision provisions name).uncreatable
    · rw [if_pos huncreatable] at hcreate
      cases hcreate
    · rw [if_neg huncreatable] at hcreate
      cases hcreate
      exact .scripted hcustody _ _
  | directory =>
    simp only [hcustody] at hcreate
    cases hplace : h.place name with
    | directory | nowhere =>
      simp only [hplace] at hcreate
      cases hcreate
    | null =>
      simp only [hplace] at hcreate
      cases hcreate
      exact .null hcustody hplace
    | file kept readable writable =>
      cases writable with
      | false =>
        simp only [hplace] at hcreate
        cases hcreate
      | true =>
        cases hkept : h.names.lookup kept with
        | some k =>
          simp only [hplace, hkept] at hcreate
          cases hcreate
          exact .emptied hcustody hplace hkept
        | none =>
          simp only [hplace, hkept] at hcreate
          cases hcreate
          exact .added hcustody hplace hkept

/-- Creating a file gives a sink at the start of a file that is empty. -/
theorem createFile_eq_ok {h host : Host} {name : Text} {sink : Sink} {closer : Closer}
    (hcreate : h.createFile name = .ok (sink, closer, host)) :
    ∃ f, sink = .file f 0 ∧ h.Creates f host := by
  have hticket {f : Nat} {h' : Host} (hc : h.takeTicket.2.Creates f h') : h.Creates f h' :=
    ⟨hc.custody, hc.place, hc.size, hc.body, hc.sound, hc.empty, hc.fresh⟩
  cases createdAs_of_createFile hcreate with
  | scripted _ _ _ => exact ⟨_, rfl, hticket ((creates_addBody rfl).bindName name)⟩
  | null _ _ => exact ⟨_, rfl, hticket (creates_addBody rfl)⟩
  | emptied hcustody _ hkept =>
    exact ⟨_, rfl, hticket (creates_setBody (h := h.takeTicket.2) hcustody hkept)⟩
  | added _ _ _ => exact ⟨_, rfl, hticket ((creates_addBody rfl).bindName _)⟩

/-- Opening a file takes a ticket. -/
theorem openFile_eq_ok {h host : Host} {name : Text} {source : Source} {closer : Closer}
    (hopen : h.openFile name = .ok (source, closer, host)) : host = h.takeTicket.2 := by
  simp only [openFile, bind, Except.bind, pure, Except.pure] at hopen
  split at hopen
  · split at hopen <;> cases hopen
    rfl
  · split at hopen <;> cases hopen
    rfl

end Host

end Intcode
