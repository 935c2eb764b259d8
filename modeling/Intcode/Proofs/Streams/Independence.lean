import Intcode.Proofs.Streams.Ledger

/-!
# Streams do not interfere

A sequence of operations is a list of turns. The tenure of a handle is the turns
up to the one that ends its stream, if any does. Only two things happen to the
stream of a file during its tenure: it is read or written while it is selected,
and it is ended.

Main statement: what a program reads from a file are its bytes in order and then
the end of the stream, and what is in a file once its stream has been ended are the
bytes that were given to it, in order, whatever is done to other streams meanwhile.
-/

namespace Intcode

/-- An operation with the states before and after it and its result. -/
structure Turn where
  before : Peripherals
  operation : StreamOperation
  result : Cell
  after : Peripherals

namespace Peripherals

/-- The turns that operations take one after the other, as long as they return. -/
def turns : List StreamOperation → Peripherals → List Turn
  | [], _ => []
  | op :: ops, p =>
    match op.turn p with
    | none => []
    | some (c, q) => ⟨p, op, c, q⟩ :: turns ops q

/-- The state that operations lead to one after the other, as long as they return. -/
def reached : List StreamOperation → Peripherals → Peripherals
  | [], p => p
  | op :: ops, p =>
    match op.turn p with
    | none => p
    | some (_, q) => reached ops q

end Peripherals

namespace Turn

/-- The turns that begin with a handle open, up to the one that closes it. -/
def tenure (h : Cell) (ts : List Turn) : List Turn := ts.takeWhile (·.before.streams.isOpen h)

/-- What reading gave while a handle was selected. -/
def readings (h : Cell) (ts : List Turn) : List Cell :=
  (ts.filter fun t => t.operation = .read ∧ t.before.input = h).map (·.result)

/-- What was given to be written while a handle was selected. -/
def written (h : Cell) (ts : List Turn) : Text :=
  (ts.filter fun t => t.before.output = h).flatMap (·.operation.bytes)

/-- The file that a turn creates. -/
def created? (t : Turn) : Option Nat :=
  match t.operation with
  | .findOutput name => t.before.created? name
  | _ => none

end Turn

/-- The characters that the given number of readings get from a stream with the given bytes. -/
def Text.characters : Nat → Text → List Cell
  | 0, _ => []
  | n + 1, [] => endOfStream :: Text.characters n []
  | n + 1, c :: t => .ofByte (Text.foldReturn c) :: Text.characters n t

/-- The first of the characters comes from the first byte. -/
theorem Text.characters_succ (n : Nat) (t : Text) :
    Text.characters (n + 1) t = t.firstCharacter :: Text.characters n t.tail := by
  cases t <;> rfl

/-- A character of a stream is the byte in that place with a return as a line feed, or else the
end of the stream. -/
theorem Text.eq_getD_of_characters {n i : Nat} {t : Text} {c : Cell}
    (hc : (Text.characters n t)[i]? = some c) :
    c = (t.map fun b => Cell.ofByte (Text.foldReturn b)).getD i endOfStream := by
  induction n generalizing t i with
  | zero => cases hc
  | succ n ih =>
    cases t with
    | nil =>
      cases i with
      | zero => exact (Option.some.inj hc).symm
      | succ i => exact ih (t := []) (i := i) hc
    | cons b t =>
      cases i with
      | zero => exact (Option.some.inj hc).symm
      | succ i => exact ih (t := t) (i := i) hc

namespace Source

/-- The file of the host that a source reads. -/
def file? : Source → Option Nat
  | script _ _ => none
  | file k _ => some k

/-- A source goes on with its file. -/
theorem Continues.file?_eq {s s' : Source} (h : s.Continues s') : s'.file? = s.file? := by
  cases h <;> rfl

/-- What is to come from a source depends on its file only. -/
theorem drain_congr {s : Source} {h h' : Host}
    (hbody : ∀ f ∈ s.file?, (h'.body f).contents = (h.body f).contents) :
    s.drain h' = s.drain h := by
  cases s with
  | script chunks ending => rfl
  | file k offset => simp only [drain, hbody k rfl]

end Source

namespace Peripherals

section Reading

variable {scope : Scope} {p q : Peripherals} {h k : Cell} {i : Input} {closer : Option Closer}

/-- A move that does not read an input stream leaves it alone or ends it. -/
theorem Move.input_kept (hmove : Move scope p k q) (hreads : ¬ scope.reads h)
    (hfile : h ≠ defaultInput ∧ h ≠ defaultOutput)
    (hopen : p.streams.get? h = some ⟨.input i, closer⟩) :
    q.streams.get? h = some ⟨.input i, closer⟩ ∨ (scope.ends h ∧ q.streams.get? h = none) := by
  by_cases hk : k = h
  · subst hk
    cases hmove with
    | note k e => exact .inl hopen
    | select k i o => exact .inl hopen
    | flush hstream => exact absurd rfl hfile.2
    | read hscope _ => exact absurd hscope hreads
    | write c _ hstream =>
      rw [hopen] at hstream
      cases hstream
    | finish hscope _ _ =>
      refine .inr ⟨hscope, ?_⟩
      rw [get?_ended, if_pos rfl]
    | settle hdefault _ => exact absurd hdefault (not_or.mpr hfile)
    | find _ _ hfree => exact absurd (hopen.symm.trans (freeHandle?_eq_some hfree).1) (by simp)
    | create _ _ hfree => exact absurd (hopen.symm.trans (freeHandle?_eq_some hfree).1) (by simp)
  · rw [hmove.touches.table h (Ne.symm hk)]
    exact .inl hopen

/-- A handle that is not open stays so until a file is opened or created. -/
theorem Move.closed_kept (hmove : Move scope p k q) (hfinds : ¬ scope.finds)
    (hcreates : ∀ f, ¬ scope.creates f) (hclosed : p.streams.get? h = none) :
    q.streams.get? h = none := by
  by_cases hk : k = h
  · subst hk
    cases hmove with
    | note k e => exact hclosed
    | select k i o => exact hclosed
    | flush hstream | read _ hstream | write _ _ hstream | finish _ _ hstream | settle _ hstream =>
      rw [hclosed] at hstream
      cases hstream
    | find hscope _ _ => exact absurd hscope hfinds
    | create hscope _ _ => exact absurd hscope (hcreates _)
  · rw [hmove.touches.table h (Ne.symm hk)]
    exact hclosed

end Reading

end Peripherals

namespace StreamOperation

/-- An operation that may end streams opens none. -/
theorem not_finds_of_ends {op : StreamOperation} {p : Peripherals} {h : Cell}
    (hends : (op.scope p).ends h) :
    ¬ (op.scope p).finds ∧ ∀ f, ¬ (op.scope p).creates f := by
  cases op with
  | endRead | endWrite | close order => exact ⟨id, fun _ => id⟩
  | _ => exact hends.elim

/-- An operation that does not read an input stream leaves it alone or ends it. -/
theorem input_kept {op : StreamOperation} {p q : Peripherals} {h c : Cell} {i : Input}
    {closer : Option Closer} (hturn : op.turn p = some (c, q))
    (hread : ¬ (op = .read ∧ p.input = h)) (hfile : h ≠ defaultInput ∧ h ≠ defaultOutput)
    (hopen : p.streams.get? h = some ⟨.input i, closer⟩) :
    q.streams.get? h = some ⟨.input i, closer⟩ ∨ q.streams.get? h = none := by
  have hreads : ¬ (op.scope p).reads h := by
    cases op with
    | read => exact fun heq => hread ⟨rfl, heq.symm⟩
    | _ => exact id
  -- Along the moves the stream is as it was, or it has been ended and nothing is opened.
  have hkept := (reaches_of_turn hturn).preserves
    (I := fun r => r.streams.get? h = some ⟨.input i, closer⟩ ∨
      ((op.scope p).ends h ∧ r.streams.get? h = none))
    (fun r k r' hmove hr => by
      rcases hr with hr | ⟨hends, hr⟩
      · exact hmove.input_kept hreads hfile hr
      · obtain ⟨hfinds, hcreates⟩ := not_finds_of_ends hends
        exact .inr ⟨hends, hmove.closed_kept hfinds hcreates hr⟩)
    (.inl hopen)
  exact hkept.imp id And.right

/-- What a turn that reads the selected input stream gives, and the stream that it leaves. -/
theorem turn_read {p q : Peripherals} {c : Cell} {i : Input} {closer : Option Closer}
    (hopen : p.streams.get? p.input = some ⟨.input i, closer⟩)
    (hturn : read.turn p = some (c, q)) :
    c = (i.next q.host).1.character ∧
      q.streams.get? p.input = some ⟨.input (i.next q.host).2, closer⟩ := by
  simp only [turn, action, Peripherals.readCharacter_apply, hopen, Option.some.injEq,
    Prod.mk.injEq] at hturn
  obtain ⟨rfl, rfl⟩ := hturn
  simp only [Peripherals.afterReading_frame]
  refine ⟨rfl, ?_⟩
  rw [Peripherals.get?_withStream, if_pos rfl, Peripherals.get?_readied i hopen]
  rfl

end StreamOperation

namespace Peripherals

/-- The tenure of an open handle starts with the first turn. -/
theorem tenure_turns_cons {op : StreamOperation} {ops : List StreamOperation} {p q : Peripherals}
    {h c : Cell} (hopen : p.streams.isOpen h = true) (hturn : op.turn p = some (c, q)) :
    Turn.tenure h (turns (op :: ops) p) = ⟨p, op, c, q⟩ :: Turn.tenure h (turns ops q) := by
  simp only [turns, hturn]
  exact List.takeWhile_cons_of_pos hopen

/-- A handle that is not open has no tenure. -/
theorem tenure_turns_of_closed {p : Peripherals} {h : Cell} (hclosed : p.streams.get? h = none)
    (ops : List StreamOperation) : Turn.tenure h (turns ops p) = [] := by
  cases ops with
  | nil => rfl
  | cons op ops =>
    rw [turns]
    cases op.turn p with
    | none => rfl
    | some r =>
      refine List.takeWhile_cons_of_neg ?_
      simp [StreamTable.isOpen, hclosed]

/-- During the tenure of an input stream, reading it gives what is to come from it, as long as
its file does not change. -/
theorem readings_eq_characters {ops : List StreamOperation} {p : Peripherals} {h : Cell} {i : Input}
    {closer : Option Closer} (hfile : h ≠ defaultInput ∧ h ≠ defaultOutput)
    (hopen : p.streams.get? h = some ⟨.input i, closer⟩)
    (hsteady : ∀ t ∈ Turn.tenure h (turns ops p), t.after.streams.isOpen h = true →
      ∀ f ∈ i.source.file?, (t.after.host.body f).contents = (p.host.body f).contents) :
    Turn.readings h (Turn.tenure h (turns ops p)) =
      Text.characters (Turn.readings h (Turn.tenure h (turns ops p))).length
        (i.upcoming p.host) := by
  induction ops generalizing p i closer with
  | nil => rfl
  | cons op ops ih =>
    have hisOpen : p.streams.isOpen h = true := by simp [StreamTable.isOpen, hopen]
    cases hturn : op.turn p with
    | none =>
      simp only [turns, hturn]
      rfl
    | some r =>
      obtain ⟨c, q⟩ := r
      rw [tenure_turns_cons hisOpen hturn] at hsteady ⊢
      -- What the rest of the turns sees if the stream is still open after this one.
      have hrest {i' : Input} (hq : q.streams.get? h = some ⟨.input i', closer⟩)
          (hsource : i.source.Continues i'.source) :
          i.source.drain q.host = i.source.drain p.host ∧
            Turn.readings h (Turn.tenure h (turns ops q)) =
              Text.characters (Turn.readings h (Turn.tenure h (turns ops q))).length
                (i'.upcoming q.host) := by
        have hsame := hsteady _ List.mem_cons_self (by simp [StreamTable.isOpen, hq])
        refine ⟨Source.drain_congr hsame, ih hq ?_⟩
        intro t ht hopen' f hf
        rw [hsource.file?_eq] at hf
        rw [hsteady t (List.mem_cons_of_mem _ ht) hopen' f hf, hsame f hf]
      by_cases hread : op = .read ∧ p.input = h
      · obtain ⟨rfl, rfl⟩ := hread
        obtain ⟨rfl, hq⟩ := StreamOperation.turn_read hopen hturn
        rw [Turn.readings, List.filter_cons_of_pos (by simp), List.map_cons, List.length_cons]
        change _ :: Turn.readings p.input _ = _
        obtain ⟨hcharacter, hupcoming, hsource⟩ := i.next_front q.host
        obtain ⟨hdrain, hreadings⟩ := hrest hq hsource
        rw [Text.characters_succ,
          show i.upcoming p.host = i.upcoming q.host by rw [Input.upcoming, ← hdrain]; rfl,
          hcharacter, ← hupcoming]
        exact congrArg _ hreadings
      · have hskip : Turn.readings h (⟨p, op, c, q⟩ :: Turn.tenure h (turns ops q)) =
            Turn.readings h (Turn.tenure h (turns ops q)) := by
          rw [Turn.readings, List.filter_cons_of_neg (by simpa using hread)]
          rfl
        rw [hskip]
        rcases StreamOperation.input_kept hturn hread hfile hopen with hq | hq
        · obtain ⟨hdrain, hreadings⟩ := hrest hq (.refl _)
          rw [show i.upcoming p.host = i.upcoming q.host by rw [Input.upcoming, ← hdrain]; rfl]
          exact hreadings
        · rw [tenure_turns_of_closed hq]
          rfl

/-- A turn that does not create a file has it outside the scope of its operation. -/
theorem not_creates_of_created? {t : Turn} {f : Nat} (hcreated : t.created? ≠ some f) :
    ¬ (t.operation.scope t.before).creates f := by
  obtain ⟨p, op, c, q⟩ := t
  cases op with
  | findOutput name => exact hcreated
  | _ => exact id

section Writing

variable {scope : Scope} {p q : Peripherals} {h k : Cell} {f : Nat} {taken : Text}

/-- A move that does not write the stream of a file leaves its ledger alone, or ends the stream
with all that it took in the file. -/
theorem Move.ledger_kept (hmove : Move scope p k q) (hwrites : ¬ scope.writes h)
    (hcreates : ¬ scope.creates f) (hp : p.Keeps h (some f) none taken) :
    q.Keeps h (some f) none taken ∨
      (scope.ends h ∧ q.streams.get? h = none ∧ q.Settled f taken) := by
  have hnew : ∀ g ∈ some f, ¬ scope.creates g := by
    intro g hg
    obtain rfl := Option.some.inj hg
    exact hcreates
  rcases hmove.keeps_or_ends hwrites hnew hp with hkeeps | ⟨⟨hends, -⟩, s, hstream, rfl⟩
  · exact .inl hkeeps
  · refine .inr ⟨hends, ?_, hp.settled hstream⟩
    rw [get?_ended, if_pos rfl]

/-- An operation that does not write the stream of a file leaves its ledger alone, or ends the
stream with all that it took in the file. -/
theorem ledger_kept {op : StreamOperation} {c : Cell} (hturn : op.turn p = some (c, q))
    (hwrites : ¬ (op.scope p).writes h) (hcreates : ¬ (op.scope p).creates f)
    (hp : p.Keeps h (some f) none taken) :
    q.Keeps h (some f) none taken ∨ (q.streams.get? h = none ∧ q.Settled f taken) := by
  have hkept := (StreamOperation.reaches_of_turn hturn).preserves
    (I := fun r => r.Keeps h (some f) none taken ∨
      ((op.scope p).ends h ∧ r.streams.get? h = none ∧ r.Settled f taken))
    (fun r k r' hmove hr => by
      rcases hr with hr | ⟨hends, hclosed, hsettled⟩
      · exact hmove.ledger_kept hwrites hcreates hr
      · obtain ⟨hfinds, hnew⟩ := StreamOperation.not_finds_of_ends hends
        exact .inr ⟨hends, hmove.closed_kept hfinds hnew hclosed, hmove.settled hcreates hsettled⟩)
    (.inl hp)
  exact hkept.imp id And.right

/-- A turn adds the bytes that it gives to the stream of a file to its ledger if the stream is
selected, unless it ends the stream with all that it took in the file. -/
theorem ledger_turn {op : StreamOperation} {c : Cell} (hturn : op.turn p = some (c, q))
    (hcreates : ¬ (op.scope p).creates f) (hp : p.Keeps h (some f) none taken) :
    q.Keeps h (some f) none (taken ++ if p.output = h then op.bytes else []) ∨
      (q.streams.get? h = none ∧
        q.Settled f (taken ++ if p.output = h then op.bytes else [])) := by
  by_cases hwrites : (op.scope p).writes h
  · have hfinal := StreamOperation.final_of_turn hturn
    cases op with
    | write d =>
      obtain rfl : h = p.output := hwrites
      rw [StreamOperation.action, Action.final_bind_pure] at hfinal
      subst hfinal
      rw [if_pos rfl]
      have hwritten := hp.writeCharacter d
      rw [hp.taking_eq] at hwritten
      exact .inl hwritten
    | newline =>
      obtain rfl : h = p.output := hwrites
      rw [StreamOperation.action, Action.final_bind_pure] at hfinal
      subst hfinal
      rw [if_pos rfl]
      have hwritten := hp.newline
      rw [hp.taking_eq] at hwritten
      exact .inl hwritten
    | _ => exact hwrites.elim
  · have hnone : (if p.output = h then op.bytes else []) = [] := by
      by_cases houtput : p.output = h
      · rw [if_pos houtput]
        cases op with
        | write d => exact absurd houtput.symm hwrites
        | newline => exact absurd houtput.symm hwrites
        | _ => rfl
      · rw [if_neg houtput]
    rw [hnone, List.append_nil]
    exact ledger_kept hturn hwrites hcreates hp

/-- A file that no stream writes to keeps its contents along operations that do not create it. -/
theorem settled_reached {ops : List StreamOperation} {t : Text} (hp : p.Settled f t)
    (hnew : ∀ u ∈ turns ops p, u.created? ≠ some f) : (reached ops p).Settled f t := by
  induction ops generalizing p with
  | nil => exact hp
  | cons op ops ih =>
    rw [reached]
    rw [turns] at hnew
    cases hturn : op.turn p with
    | none => exact hp
    | some r =>
      obtain ⟨c, q⟩ := r
      rw [hturn] at hnew
      have hcreates := not_creates_of_created? (hnew _ List.mem_cons_self)
      refine ih ?_ fun u hu => hnew u (List.mem_cons_of_mem _ hu)
      exact (StreamOperation.reaches_of_turn hturn).preserves
        (fun _ _ _ hmove hr => hmove.settled hcreates hr) hp

/-- Once the stream of a file has been ended, the file holds what the stream had taken and the bytes
that it was given during the rest of its tenure. -/
theorem settled_of_ended {ops : List StreamOperation} (hp : p.Keeps h (some f) none taken)
    (hnew : ∀ t ∈ turns ops p, t.created? ≠ some f)
    (hended : ∃ t ∈ Turn.tenure h (turns ops p), t.after.streams.isOpen h = false) :
    (reached ops p).Settled f (taken ++ Turn.written h (Turn.tenure h (turns ops p))) := by
  induction ops generalizing p taken with
  | nil =>
    obtain ⟨t, ht, -⟩ := hended
    cases ht
  | cons op ops ih =>
    have hopen {r : Peripherals} {t : Text} (hr : r.Keeps h (some f) none t) :
        r.streams.isOpen h = true := by
      obtain ⟨o, closer, hstream, -⟩ := hr.stream
      simp [StreamTable.isOpen, hstream]
    cases hturn : op.turn p with
    | none =>
      simp only [turns, hturn] at hended
      obtain ⟨t, ht, -⟩ := hended
      cases ht
    | some r =>
      obtain ⟨c, q⟩ := r
      rw [tenure_turns_cons (hopen hp) hturn] at hended ⊢
      simp only [turns, hturn, List.forall_mem_cons] at hnew
      simp only [reached, hturn]
      have hwritten : Turn.written h (⟨p, op, c, q⟩ :: Turn.tenure h (turns ops q)) =
          (if p.output = h then op.bytes else []) ++
            Turn.written h (Turn.tenure h (turns ops q)) := by
        by_cases houtput : p.output = h
        · simp [Turn.written, houtput]
        · simp [Turn.written, houtput]
      rw [hwritten, ← List.append_assoc]
      rcases ledger_turn hturn (not_creates_of_created? hnew.1) hp with hq | ⟨hclosed, hsettled⟩
      · refine ih hq hnew.2 ?_
        obtain ⟨t, ht, hend⟩ := hended
        rcases List.mem_cons.mp ht with rfl | ht
        · exact absurd (hopen hq) (by simp [hend])
        · exact ⟨t, ht, hend⟩
      · rw [tenure_turns_of_closed hclosed]
        simp only [Turn.written, List.filter_nil, List.flatMap_nil, List.append_nil]
        exact settled_reached hsettled hnew.2

end Writing

/-- A file is opened for reading under a name and gets a handle. -/
structure OpensInput (p : Peripherals) (name : Text) (source : Source) (h : Cell)
    (q : Peripherals) : Prop where
  unreserved : Text.matchesWord name "SYSIN" = false
  opened : ∃ closer, openEither p.host name = .ok (source, closer, q.host)
  found : findInput name p = .ok h q

/-- A file is created for writing under a name and gets a handle. -/
structure OpensOutput (p : Peripherals) (name : Text) (f : Nat) (h : Cell) (q : Peripherals) :
    Prop where
  unreserved : Text.matchesWord name "SYSPRINT" = false
  created : ∃ closer, p.host.createFile name = .ok (.file f 0, closer, q.host)
  found : findOutput name p = .ok h q

section Opening

variable {p q : Peripherals} {name : Text} {h : Cell}

/-- A file that has been opened is an input stream with nothing read yet. -/
theorem OpensInput.stream {source : Source} (hopens : p.OpensInput name source h q) :
    (h ≠ defaultInput ∧ h ≠ defaultOutput) ∧
      ∃ closer, q.streams.get? h = some ⟨.input { source }, closer⟩ := by
  obtain ⟨closer, hopened⟩ := hopens.opened
  have hfound := hopens.found
  simp only [findInput_apply, hopens.unreserved, hopened, addStream_apply] at hfound
  cases hfree : freeHandle? (p.withHost q.host).streams handleCount
      (p.withHost q.host).nextHandle with
  | none => simp [hfree] at hfound
  | some k =>
    simp only [hfree, Bool.false_eq_true, if_false, EStateM.Result.ok.injEq] at hfound
    obtain ⟨rfl, hq⟩ := hfound
    refine ⟨ne_defaults_of_free hfree, some closer, ?_⟩
    rw [← hq, get?_added, if_pos rfl]

/-- A file that has been created is an output stream that has taken nothing yet, and the only
stream of its file if there was none before. -/
theorem OpensOutput.keeps {f : Nat} (hopens : p.OpensOutput name f h q) (hp : p.host.Sound)
    (hroom : (q.host.body f).room = none) (hsole : ∀ j, ¬ p.Writes j f) :
    q.Keeps h (some f) none [] := by
  obtain ⟨closer, hcreated⟩ := hopens.created
  obtain ⟨f', heq, hcreates⟩ := Host.createFile_eq_ok hcreated
  cases heq
  obtain ⟨hlt, hempty⟩ := hcreates.empty hp
  have hlength : (q.host.body f).length = 0 := by
    rw [← Body.length_contents, hempty]
    rfl
  have hfound := hopens.found
  simp only [findOutput_apply, hopens.unreserved, hcreated, addStream_apply] at hfound
  cases hfree : freeHandle? (p.withHost q.host).streams handleCount
      (p.withHost q.host).nextHandle with
  | none => simp [hfree] at hfound
  | some k =>
    simp only [hfree, Bool.false_eq_true, if_false, EStateM.Result.ok.injEq] at hfound
    obtain ⟨rfl, hq⟩ := hfound
    have htable (j : Cell) : q.streams.get? j =
        if j = k then some ⟨.output { sink := .file f 0 }, some closer⟩ else p.streams.get? j := by
      rw [← hq, get?_added]
      rfl
    refine ⟨⟨{ sink := .file f 0 }, some closer, ?_, rfl, ?_⟩, ?_⟩
    · rw [htable, if_pos rfl]
    · refine ⟨⟨hlt, hlength.symm⟩, ?_, ?_, fun l hl => absurd hl (by simp),
        fun hne => absurd rfl hne⟩
      · simp only [Sink.delivered, hempty]
        rfl
      · simpa [Sink.room] using hroom
    · rintro g hg j ⟨s, hs, hfile⟩
      obtain rfl := Option.some.inj hg
      rw [htable] at hs
      split at hs
      · assumption
      · exact absurd ⟨s, hs, hfile⟩ (hsole j)

end Opening

/-- What every operation keeps from turn to turn, it keeps along all of them. -/
theorem reached_preserves {I : Peripherals → Prop}
    (hturn : ∀ op p c q, StreamOperation.turn op p = some (c, q) → I p → I q)
    (ops : List StreamOperation) {p : Peripherals} (hp : I p) :
    I (reached ops p) ∧ ∀ t ∈ turns ops p, I t.before := by
  induction ops generalizing p with
  | nil => exact ⟨hp, fun t ht => absurd ht List.not_mem_nil⟩
  | cons op ops ih =>
    rw [reached, turns]
    cases hop : op.turn p with
    | none => exact ⟨hp, fun t ht => absurd ht List.not_mem_nil⟩
    | some r =>
      obtain ⟨c, q⟩ := r
      obtain ⟨hlast, hall⟩ := ih (hturn op p c q hop hp)
      exact ⟨hlast, List.forall_mem_cons.mpr ⟨hp, hall⟩⟩

/-- From default streams on, names and streams stay on files that are there. -/
theorem sound_reached {host : Host} (hhost : host.Sound) (source : Source) (d : Device)
    (tracing : Bool) (ops : List StreamOperation) :
    (reached ops (ofDefaults source (.device d) host tracing)).Sound := by
  have hstart : (ofDefaults source (.device d) host tracing).Sound := by
    refine ⟨hhost, ?_⟩
    rintro j f ⟨s, hs, hfile⟩
    simp only [ofDefaults, StreamTable.get?_insert] at hs
    split at hs
    · cases hs
      cases hfile
    · split at hs
      · cases hs
        cases hfile
      · simp [StreamTable.get?] at hs
  refine (reached_preserves (I := Sound) ?_ ops hstart).1
  intro op p c q hturn hp
  exact (StreamOperation.reaches_of_turn hturn).preserves (fun _ _ _ hmove hr => hmove.sound hr) hp

/-- A host that follows a script creates no file twice. -/
theorem created?_ne_of_scripted {ops : List StreamOperation} {q : Peripherals} {f : Nat}
    (hcustody : q.host.custody ≠ .directory) (hlt : f < q.host.bodies.size) :
    ∀ t ∈ turns ops q, t.created? ≠ some f := by
  intro t ht hcreated
  have hkept := (reached_preserves
    (I := fun r => r.host.custody ≠ .directory ∧ f < r.host.bodies.size)
    (fun op p c q hturn hp => (StreamOperation.reaches_of_turn hturn).preserves
      (I := fun r => r.host.custody ≠ .directory ∧ f < r.host.bodies.size)
      (fun r k r' hmove hr => by
        rw [hmove.touches.custody]
        exact ⟨hr.1, Nat.lt_of_lt_of_le hr.2 hmove.touches.size⟩) hp)
    ops ⟨hcustody, hlt⟩).2 t ht
  obtain ⟨p, op, c, r⟩ := t
  cases op with
  | findOutput name =>
    obtain ⟨sink, closer, host, hcreate, hfile, -⟩ := exists_createFile_of_created? hcreated
    obtain ⟨g, rfl, hcreates⟩ := Host.createFile_eq_ok hcreate
    obtain rfl := Option.some.inj hfile
    rcases hcreates.fresh with hdirectory | rfl
    · exact hkept.1 hdirectory
    · exact absurd hkept.2 (Nat.lt_irrefl _)
  | _ => cases hcreated

/-- Default streams, and a host that has one file to read and lets one be created. -/
def sample : Peripherals :=
  ofDefaults (.script [] none) (.device {})
    { custody := .scripted [([105], { contents := [65, 13] }), ([111], {})] } false

/-- A file is read beyond its end while another one is written and ended, which happens through the
input. Then it is still selected. -/
def sampleOperations : List StreamOperation :=
  [.selectInput 3, .findOutput [111], .selectOutput 4, .read, .write 66, .read, .newline, .read,
    .selectInput 4, .endRead, .write 67, .selectInput 3, .read]

end Peripherals

end Intcode
