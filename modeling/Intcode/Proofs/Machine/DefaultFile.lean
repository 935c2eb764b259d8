import Intcode.Proofs.Machine.Course
import Intcode.Proofs.Streams.Closing

/-!
# Default output to a file

The default output may be a file of a directory. Nobody else writes to that file as long
as no file is created under its name, so that the file holds what the default output has
taken, but for what is held back.

Main statement: operations on streams add to the file exactly the bytes that they give
to the default output.
-/

namespace Intcode

namespace Host

/-- A directory in which one name and no other denotes the file with a number. -/
structure Assigns (h : Host) (place : Text → Place) (name : Text) (k : Nat) : Prop where
  custody : h.custody = .directory
  place_eq : h.place = place
  sound : h.Sound
  named : h.names.lookup name = some k
  only : ∀ e ∈ h.names, e.2 = k → e.1 = name

/-- A name that is looked up is one of the names. -/
theorem mem_of_lookup {h : Host} {name : Text} {k : Nat} (hname : h.names.lookup name = some k) :
    (name, k) ∈ h.names := by
  obtain ⟨l₁, l₂, hl, -⟩ := List.lookup_eq_some_iff.mp hname
  rw [hl]
  simp

/-- A name that is bound denotes its file, and all others denote theirs. -/
theorem lookup_bindName (h : Host) (name name' : Text) (k : Nat) :
    (h.bindName name k).names.lookup name' =
      if name' = name then some k else h.names.lookup name' := by
  have hfilter (l : List (Text × Nat)) (hne : name' ≠ name) :
      (l.filter fun e => e.1 != name).lookup name' = l.lookup name' := by
    induction l with
    | nil => rfl
    | cons e l ih =>
      obtain ⟨n, j⟩ := e
      by_cases hn : n = name
      · subst hn
        have hdiffers : (name' == n) = false := beq_eq_false_iff_ne.mpr hne
        simp [List.lookup_cons, hdiffers, ih]
      · simp [List.lookup_cons, hn, ih]
  rw [bindName, List.lookup_cons]
  by_cases hname : name' = name
  · simp [hname]
  · have hdiffers : (name' == name) = false := beq_eq_false_iff_ne.mpr hname
    simp [hname, hdiffers, hfilter h.names hname]

section Assigns

variable {h host : Host} {place : Text → Place} {name name' : Text} {k : Nat}

/-- The file is there. -/
theorem Assigns.lt_size (hh : h.Assigns place name k) : k < h.bodies.size :=
  hh.sound _ (mem_of_lookup hh.named)

/-- The names, what they lead to and the number of files are all that matters. -/
theorem Assigns.congr (hh : h.Assigns place name k) (hcustody : host.custody = h.custody)
    (hplace : host.place = h.place) (hnames : host.names = h.names)
    (hsize : h.bodies.size ≤ host.bodies.size) : host.Assigns place name k where
  custody := hcustody.trans hh.custody
  place_eq := hplace.trans hh.place_eq
  sound e he := Nat.lt_of_lt_of_le (hh.sound e (hnames ▸ he)) hsize
  named := hnames ▸ hh.named
  only e he := hh.only e (hnames ▸ he)

/-- A file that is added under another name. -/
theorem Assigns.addFile (hh : h.Assigns place name k) (hne : name' ≠ name) (b : Body) :
    ((h.addBody b).2.bindName name' h.bodies.size).Assigns place name k where
  custody := hh.custody
  place_eq := hh.place_eq
  sound := (hh.sound.addBody b).bindName name' (by simp [addBody])
  named := by
    rw [lookup_bindName, if_neg (Ne.symm hne)]
    exact hh.named
  only e he hk := by
    rcases List.mem_cons.mp he with rfl | hmem
    · exact absurd hk (Nat.ne_of_gt hh.lt_size)
    · exact hh.only e (List.mem_filter.mp hmem).1 hk

/-- Creating a file under a name that leads elsewhere gives another file. -/
theorem Assigns.createFile {sink : Sink} {closer : Closer} (hh : h.Assigns place name k)
    (hplace : (place name').name? ≠ some name)
    (hcreate : h.createFile name' = .ok (sink, closer, host)) :
    host.Assigns place name k ∧ sink.file? ≠ some k := by
  have hticket : h.takeTicket.2.Assigns place name k := hh.congr rfl rfl rfl (Nat.le_refl _)
  have hnew : ¬ some h.bodies.size = some k := fun heq =>
    Nat.ne_of_gt hh.lt_size (Option.some.inj heq)
  have helse {kept : Text} {readable writable : Bool}
      (hled : h.place name' = .file kept readable writable) : kept ≠ name := by
    rintro rfl
    exact hplace (by rw [← hh.place_eq, hled, Place.name?])
  cases createdAs_of_createFile hcreate with
  | scripted hscripted _ _ => cases hh.custody.symm.trans hscripted
  | null _ _ =>
    refine ⟨hticket.congr rfl rfl rfl ?_, hnew⟩
    simp [addBody]
  | @emptied kept readable j _ hled hkept =>
    refine ⟨hticket.congr rfl rfl rfl ?_, ?_⟩
    · exact Nat.le_of_eq (sameBut_setBody _ j _).size.symm
    · intro heq
      exact helse hled (hh.only _ (mem_of_lookup hkept) (Option.some.inj heq))
  | added _ hled _ => exact ⟨hticket.addFile (helse hled) {}, hnew⟩

/-- Creating a file that can be written on a host on which every file has one name. -/
theorem exists_createFile (hcustody : h.custody = .directory) (hsound : h.Sound)
    (hdistinct : ∀ e ∈ h.names, ∀ e' ∈ h.names, e.2 = e'.2 → e.1 = e'.1) {readable : Bool}
    (hplace : h.place name' = .file name readable true) :
    ∃ k closer host, h.createFile name' = .ok (.file k 0, closer, host) ∧
      host.Assigns h.place name k ∧ host.body k = {} := by
  simp only [Host.createFile, hcustody, hplace]
  cases hname : h.names.lookup name with
  | some k =>
    have hlt : k < h.bodies.size := hsound _ (mem_of_lookup hname)
    have hassigns : h.Assigns h.place name k :=
      ⟨hcustody, rfl, hsound, hname, fun e he hk => hdistinct e he _ (mem_of_lookup hname) hk⟩
    refine ⟨k, _, _, rfl, hassigns.congr rfl rfl rfl ?_, ?_⟩
    · exact Nat.le_of_eq (sameBut_setBody _ k _).size.symm
    · rw [body_setBody, if_pos ⟨rfl, hlt⟩]
  | none =>
    refine ⟨h.bodies.size, _, _, rfl, ⟨hcustody, rfl, ?_, ?_, ?_⟩, ?_⟩
    · exact Sound.bindName (Sound.addBody (h := h.takeTicket.2) hsound {}) name (by simp [addBody])
    · exact (lookup_bindName _ name name _).trans (if_pos rfl)
    · intro e he hk
      rcases List.mem_cons.mp he with rfl | hmem
      · rfl
      · exact absurd hk (Nat.ne_of_lt (hsound e (List.mem_filter.mp hmem).1))
    · exact (body_addBody h.takeTicket.2 {} _).trans (if_pos rfl)

/-- What a listing of the directory gives for the name. -/
theorem Assigns.lookup_files (hh : h.Assigns place name k) :
    h.files.lookup name = some (h.body k).contents := by
  have hmap (l : List (Text × Nat)) :
      (l.map fun e => (e.1, (h.body e.2).contents)).lookup name =
        (l.lookup name).map fun j => (h.body j).contents := by
    induction l with
    | nil => rfl
    | cons e l ih =>
      rw [List.map_cons, List.lookup_cons, List.lookup_cons, ih]
      cases name == e.1 <;> rfl
  exact (hmap h.names).trans (by rw [hh.named, Option.map_some])

end Assigns

/-- In a directory every file has one name. -/
theorem names_ofDirectory (place : Text → Place) (files : List (Text × Text)) :
    ∀ e ∈ (ofDirectory place files).names, ∀ e' ∈ (ofDirectory place files).names,
      e.2 = e'.2 → e.1 = e'.1 := by
  intro e he e' he' heq
  obtain ⟨j, hj, rfl⟩ := List.mem_mapIdx.mp he
  obtain ⟨j', hj', rfl⟩ := List.mem_mapIdx.mp he'
  obtain rfl : j = j' := heq
  rfl

end Host

namespace Peripherals

/-- The default output is the file that a name denotes, and has taken a text. -/
structure SavesTo (p : Peripherals) (place : Text → Place) (name : Text) (k : Nat) (taken : Text) :
    Prop where
  host : p.host.Assigns place name k
  keeps : p.Keeps defaultOutput (some k) none taken

/-- The bytes that an operation gives to the default output. -/
def offering (op : StreamOperation) (p : Peripherals) : Text :=
  if p.output = defaultOutput then op.bytes else []

/-- The bytes that operations give to the default output one after the other. -/
def offered : List StreamOperation → Peripherals → Text
  | [], _ => []
  | op :: ops, p => offering op p ++ offered ops (op.action.final p)

/-- An operation that creates no file where a name leads to the given one, unless the name is the
reserved one. -/
def Spares (place : Text → Place) (name : Text) (op : StreamOperation) : Prop :=
  ∀ t, op = .findOutput t → Text.matchesWord t "SYSPRINT" = true ∨ (place t).name? ≠ some name

section SavesTo

variable {p q : Peripherals} {place : Text → Place} {name : Text} {k : Nat} {taken : Text}

/-- A default output without a limit takes all that it is given. -/
theorem SavesTo.accepting_eq (hp : p.SavesTo place name k taken) (op : StreamOperation) :
    accepting op p = offering op p := by
  have htaking : p.taking defaultOutput = fun c => [c] := funext hp.keeps.taking_eq
  rw [accepting, offering, htaking, List.flatMap_singleton']

/-- The host may change as long as names and files stay. -/
theorem SavesTo.withHost (hp : p.SavesTo place name k taken) {host : Host}
    (hassigns : host.Assigns place name k) (hbody : host.body k = p.host.body k)
    (hsize : p.host.bodies.size ≤ host.bodies.size) :
    (p.withHost host).SavesTo place name k taken where
  host := hassigns
  keeps := hp.keeps.withHost fun f hf => by
    obtain rfl := Option.some.inj hf
    exact ⟨hbody, hsize⟩

/-- Moves that create no file leave the names alone. -/
theorem Move.names {scope : Scope} {j : Cell} (hmove : Move scope p j q)
    (hcreates : ∀ f, ¬ scope.creates f) : q.host.names = p.host.names := by
  cases hmove with
  | note | select | read => rfl
  | flush hstream => exact (Stream.flush_frame _ p.host).2.names
  | write c _ hstream => exact (Output.put_frame _ c p.host).2.names
  | finish _ _ hstream => exact (sameFiles_close _ p.host).2.1
  | settle _ hstream => exact (sameFiles_close _ p.host).2.1
  | find _ hopen _ => exact (openEither_eq_ok hopen).2.1
  | create hscope _ _ => exact absurd hscope (hcreates _)

/-- Moves that create no file leave the file its name. -/
theorem Reaches.assigns {scope : Scope} (hreach : Reaches scope p q)
    (hcreates : ∀ f, ¬ scope.creates f) (hp : p.host.Assigns place name k) :
    q.host.Assigns place name k :=
  hreach.preserves (I := fun r => r.host.Assigns place name k)
    (fun _ _ _ hmove hr => hr.congr hmove.touches.custody hmove.touches.place
      (hmove.names hcreates) hmove.touches.size) hp

/-- Opening a file leaves the default output alone. -/
theorem SavesTo.findInput (hp : p.SavesTo place name k taken) (t : Text) :
    ((findInput t).final p).SavesTo place name k taken := by
  rw [Action.final]
  cases hfind : Peripherals.findInput t p with
  | ok c q =>
    have hreach := p.findInput_reaches t hfind
    exact ⟨hreach.assigns (fun _ => id) hp.host,
      hp.keeps.of_reaches hreach id (.inr rfl) fun _ _ => id⟩
  | error e q =>
    obtain ⟨-, _, _, host, hopen, rfl⟩ := StreamOperation.findInput_eq_error hfind
    obtain ⟨hbodies, hnames, hcustody, hplace⟩ := openEither_eq_ok hopen
    have hsize : p.host.bodies.size ≤ host.bodies.size := Nat.le_of_eq (by rw [hbodies])
    exact hp.withHost (hp.host.congr hcustody hplace hnames hsize)
      (by simp only [Host.body, hbodies]) hsize

/-- Creating a file changes the host at most by that. -/
theorem findOutput_host (t : Text) (p : Peripherals) :
    ((findOutput t).final p).host = p.host ∨
      ∃ sink closer host, p.host.createFile t = .ok (sink, closer, host) ∧
        ((findOutput t).final p).host = host ∧ Text.matchesWord t "SYSPRINT" = false := by
  rw [Action.final, findOutput_apply]
  by_cases hword : Text.matchesWord t "SYSPRINT" = true
  · rw [if_pos hword]
    exact .inl rfl
  · rw [if_neg hword]
    rcases p.host.createFile t with error | ⟨sink, closer, host⟩
    · exact .inl (traced_host ..)
    · refine .inr ⟨sink, closer, host, rfl, ?_, Bool.eq_false_iff.mpr hword⟩
      dsimp only
      rw [addStream_apply]
      split <;> rfl

/-- Creating another file leaves the default output alone. -/
theorem SavesTo.findOutput (hp : p.SavesTo place name k taken) {t : Text}
    (ht : Spares place name (.findOutput t)) :
    ((findOutput t).final p).SavesTo place name k taken := by
  have hother {sink : Sink} {closer : Closer} {host : Host}
      (hword : Text.matchesWord t "SYSPRINT" = false)
      (hcreate : p.host.createFile t = .ok (sink, closer, host)) :
      host.Assigns place name k ∧ sink.file? ≠ some k := by
    refine hp.host.createFile ?_ hcreate
    exact (ht t rfl).resolve_left (by simp [hword])
  have hhost : ((Peripherals.findOutput t).final p).host.Assigns place name k := by
    rcases p.findOutput_host t with hsame | ⟨sink, closer, host, hcreate, heq, hword⟩
    · rw [hsame]
      exact hp.host
    · rw [heq]
      exact (hother hword hcreate).1
  refine ⟨hhost, ?_⟩
  rw [Action.final]
  cases hfind : Peripherals.findOutput t p with
  | ok c q =>
    refine hp.keeps.of_reaches (p.findOutput_reaches t hfind) id (.inr rfl) ?_
    rintro f hf hcreated
    obtain rfl := Option.some.inj hf
    obtain ⟨sink, closer, host, hcreate, hfile, hword⟩ := exists_createFile_of_created? hcreated
    exact (hother hword hcreate).2 hfile
  | error e q =>
    obtain ⟨-, sink, closer, host, hcreate, rfl⟩ := StreamOperation.findOutput_eq_error hfind
    obtain ⟨f, rfl, hcreates⟩ := Host.createFile_eq_ok hcreate
    have hword : Text.matchesWord t "SYSPRINT" = false := by
      cases hmatch : Text.matchesWord t "SYSPRINT" with
      | false => rfl
      | true =>
        rw [findOutput_apply, if_pos hmatch] at hfind
        cases hfind
    have hne : k ≠ f := fun heq => (hother hword hcreate).2 (congrArg some heq.symm)
    exact (hp.withHost (hother hword hcreate).1 (hcreates.body k hne) hcreates.size).keeps

/-- An operation that spares the file adds to it what it gives to the default output. -/
theorem SavesTo.final (hp : p.SavesTo place name k taken) {op : StreamOperation}
    (hop : Spares place name op) :
    (op.action.final p).SavesTo place name k (taken ++ offering op p) := by
  rw [← hp.accepting_eq op]
  cases hfind : op.isFind with
  | false =>
    have hreach := StreamOperation.reaches_of_not_isFind hfind p
    refine ⟨hreach.assigns ?_ hp.host, hp.keeps.final_of_not_isFind hfind⟩
    cases op with
    | findOutput t => cases hfind
    | _ => exact fun _ => id
  | true =>
    rw [accepting_of_isFind hfind, List.append_nil]
    cases op with
    | findInput t => exact hp.findInput t
    | findOutput t => exact hp.findOutput hop
    | _ => cases hfind

/-- Operations that spare the file add to it what they give to the default output. -/
theorem SavesTo.after (hp : p.SavesTo place name k taken) {ops : List StreamOperation}
    (hops : ∀ op ∈ ops, Spares place name op) :
    (after ops p).SavesTo place name k (taken ++ offered ops p) := by
  induction ops generalizing p taken with
  | nil =>
    rw [offered, List.append_nil]
    exact hp
  | cons op ops ih =>
    rw [offered, ← List.append_assoc]
    exact ih (hp.final (hops op List.mem_cons_self)) fun op' hop' =>
      hops op' (List.mem_cons_of_mem op hop')

/-- A flush leaves nothing held back. -/
theorem SavesTo.heldBack_flushed (hp : p.SavesTo place name k taken) : p.flushed.heldBack = [] := by
  obtain ⟨o, closer, hopen, -, haccounts⟩ := hp.keeps.stream
  simp only [heldBack, get?_flushed, hopen, if_pos, Option.map_some, Stream.flush]
  exact (haccounts.flush.2.1 haccounts.flush_eq_none).1

/-- A stream that holds nothing back still does so when it is closed. -/
theorem heldBack_closeOne (hp : p.heldBack = []) (j : Cell) : (p.closeOne j).heldBack = [] := by
  unfold heldBack at hp ⊢
  rw [get?_closeOne]
  by_cases hj : defaultOutput = j
  · subst hj
    rw [if_pos rfl, if_pos (.inr rfl), closing?]
    rcases hopen : p.streams.get? defaultOutput with _ | ⟨i | o, closer⟩
    · rfl
    · simp only [Option.map_some, Stream.closing, (Stream.close_eq _ p.host).1, Stream.flush]
    · simp only [hopen] at hp
      simp only [Option.map_some, Stream.closing, (Stream.close_eq _ p.host).1, Stream.flush]
      rcases o.flush_cases p.host with ⟨e, -, heq⟩ | ⟨-, -, heq⟩ | ⟨n, sink, host, -, -, heq⟩
      · rw [heq]
        exact hp
      · rw [heq]
        exact hp
      · rw [heq]
        split
        · rw [Backlog.text_ofText, hp, List.drop_nil]
        · rfl
  · rw [if_neg hj]
    exact hp

/-- Closing all streams leaves nothing held back if nothing was. -/
theorem heldBack_closeInOrder (hp : p.heldBack = []) (order : List Cell) :
    ((closeInOrder order).final p).heldBack = [] := by
  rw [Action.final, closeInOrder_apply, stateOf_concluded]
  change (closedAll order p).heldBack = []
  induction order generalizing p with
  | nil => exact hp
  | cons j order ih => exact ih (heldBack_closeOne hp j)

/-- The file holds what has been taken if nothing is held back. -/
theorem SavesTo.lookup_files (hp : p.SavesTo place name k taken) (hheld : p.heldBack = []) :
    p.host.files.lookup name = some taken := by
  obtain ⟨o, closer, hopen, hfile, haccounts⟩ := hp.keeps.stream
  have htext := haccounts.text
  simp only [heldBack, hopen] at hheld
  rw [hheld, List.append_nil] at htext
  rw [hp.host.lookup_files, ← htext]
  cases hsink : o.sink with
  | device d => simp [hsink, Sink.file?] at hfile
  | file f offset =>
    rw [hsink] at hfile
    obtain rfl := Option.some.inj hfile
    rfl

end SavesTo

end Peripherals

end Intcode
