import Myos.Ipc.Pipes

namespace Myos.Ipc.Pipes
open Lib Myos.Task

namespace Bytes

variable {r : Bytes} {n : Nat}

theorem copyOut_eq (enough : n ≤ r.len) : r.copyOut n = r.contents.take n := by
  have inside := r.inside
  have bounded := r.bounded
  refine List.ext_getElem (by simp [copyOut]; omega) fun i short _ => ?_
  have less : i < n := by simp [copyOut] at short; omega
  simp only [copyOut, List.getElem_append, List.length_map, List.length_range, List.getElem_map, List.getElem_range,
    List.getElem_take, Ring.contents]
  split
  · rw [Nat.mod_eq_of_lt (by omega)]
  · rw [Nat.mod_eq_sub_mod (by omega), Nat.mod_eq_of_lt (by omega)]
    exact congrArg r.buf (by omega)

theorem skip_contents (r : Bytes) (n : Nat) : (r.skip n).contents = r.contents.drop n := Ring.contents_drop rfl rfl rfl

theorem slot_eq (k : Nat) (short : k < PIPE_BUF) : (r.head + (r.len + k)) % PIPE_BUF =
    if (r.head + r.len) % PIPE_BUF + k < PIPE_BUF then (r.head + r.len) % PIPE_BUF + k
    else k - (PIPE_BUF - (r.head + r.len) % PIPE_BUF) := by
  have tail : (r.head + r.len) % PIPE_BUF < PIPE_BUF := Nat.mod_lt _ (by decide)
  rw [← Nat.add_assoc, Nat.add_mod, Nat.mod_eq_of_lt short]
  split
  · rename_i fits
    exact Nat.mod_eq_of_lt fits
  · rw [Nat.mod_eq_sub_mod (by omega), Nat.mod_eq_of_lt (by omega)]
    omega

theorem copyIn_contents (r : Bytes) (data : List UInt8) :
    (r.copyIn data).contents = r.contents ++ data.take (min data.length (PIPE_BUF - r.len)) := by
  refine Ring.contents_append rfl (by simp [copyIn]) (fun i inside => ?_) fun i short => ?_
  · -- a slot that is written holds none of the contents
    have apart (k : Nat) (less : k < min data.length (PIPE_BUF - r.len)) :
        (r.head + i) % PIPE_BUF ≠ (r.head + (r.len + k)) % PIPE_BUF := Ring.slot_ne r.head (by omega) (by omega)
    generalize (r.head + i) % PIPE_BUF = slot at apart ⊢
    simp only [copyIn]
    rw [if_neg, if_neg]
    · rintro ⟨low, high⟩
      apply apart (slot - (r.head + r.len) % PIPE_BUF) (by omega)
      rw [slot_eq _ (by omega), if_pos (by omega)]
      omega
    · intro low
      apply apart (PIPE_BUF - (r.head + r.len) % PIPE_BUF + slot) (by omega)
      rw [slot_eq _ (by omega), if_neg (by omega)]
      omega
  · simp only [List.length_take] at short
    rw [slot_eq i (by omega), List.getElem_take]
    simp only [copyIn]
    split
    · rw [if_neg (by omega), if_pos (by omega), Nat.add_sub_cancel_left, List.getD_eq_getElem?_getD,
        List.getElem?_eq_getElem (by omega), Option.getD_some]
    · rw [if_pos (by omega), List.getD_eq_getElem?_getD, List.getElem?_eq_getElem (by omega), Option.getD_some]
      congr 1
      omega

end Bytes

namespace State

variable {s s' : State} {tid : Nat}

def contents (s : State) : List UInt8 := (s.pipe.map fun p => p.ring.contents).getD []

def Pending (s : State) : Prop := ∃ tid next, s.phase tid = .notify next

def Stuck (s : State) : Job → Prop
  | .read _ => ∃ p, s.pipe = some p ∧ p.ring.len = 0 ∧ p.ends.writers ≠ 0
  | .write _ _ => ∃ p, s.pipe = some p ∧ p.ring.len = PIPE_BUF ∧ p.ends.readers ≠ 0

def Stalled (s : State) (job : Job) : Prop := s.Stuck job ∨ s.Pending

structure Inv (s : State) : Prop where
  bytes : s.accepted = s.consumed.map Prod.fst ++ s.contents
  closed : ∀ p, s.pipe = some p → p.ends.readers ≠ 0 → (p.ends.writeClosed = true ↔ p.ends.writers = 0)
  phases : ∀ tid, (s.phase tid).waiting.Fine s.seq s.Stalled

theorem phase_setPhase (s : State) (tid t : Nat) (phase : Phase) :
    (s.setPhase tid phase).phase t = if t = tid then phase else s.phase t := Function.update_apply ..

variable {left : Fd.Pipe} {phase : Phase} {p : Pipe}

theorem fine_setPhase (fine : ∀ t, (s.phase t).waiting.Fine s.seq s.Stalled) (seq : s'.seq = s.seq)
    (same : s'.phase = s.phase) (stalled : ∀ job, s.Stalled job → (s'.setPhase tid phase).Stalled job)
    (own : phase.waiting.Fine s.seq (s'.setPhase tid phase).Stalled) :
    ∀ t, ((s'.setPhase tid phase).phase t).waiting.Fine (s'.setPhase tid phase).seq (s'.setPhase tid phase).Stalled := by
  intro t
  change Waiting.Fine s'.seq _ _
  rw [phase_setPhase, seq]
  split
  · exact own
  · rw [same]
    exact (fine t).mono le_rfl stalled

theorem Pending.setPhase (pending : s.Pending) (same : s'.phase = s.phase)
    (other : ∀ next, s.phase tid ≠ .notify next) : (s'.setPhase tid phase).Pending := by
  obtain ⟨t, next, isNotify⟩ := pending
  refine ⟨t, next, ?_⟩
  rw [phase_setPhase, if_neg, same, isNotify]
  rintro rfl
  exact other next isNotify

theorem pending_self (s : State) (tid : Nat) (next : Option Job) : (s.setPhase tid (.notify next)).Pending :=
  ⟨tid, next, by rw [phase_setPhase, if_pos rfl]⟩

theorem Inv.setPhase (inv : s.Inv) (other : ∀ next, s.phase tid ≠ .notify next)
    (own : phase.waiting.Fine s.seq (s.setPhase tid phase).Stalled) : (s.setPhase tid phase).Inv :=
  ⟨inv.bytes, inv.closed, fine_setPhase inv.phases rfl rfl
    (fun _ stalled => stalled.imp id fun pending => pending.setPhase rfl other) own⟩

theorem Inv.change (inv : s.Inv) {pipe : Option Pipe} {gone : List (UInt8 × Bool)}
    (bytes : s.contents = gone.map Prod.fst ++ ((pipe.map fun p => p.ring.contents).getD []))
    (closed : ∀ p, pipe = some p → p.ends.readers ≠ 0 → (p.ends.writeClosed = true ↔ p.ends.writers = 0)) :
    ({ s with pipe, consumed := s.consumed ++ gone }.setPhase tid (.notify none)).Inv := by
  refine ⟨?_, closed, fine_setPhase inv.phases rfl rfl (fun _ _ => .inr (pending_self ..)) trivial⟩
  change s.accepted = (s.consumed ++ gone).map Prod.fst ++ _
  rw [inv.bytes, bytes, List.map_append, List.append_assoc]
  rfl

theorem dropEnd_contents (p : Pipe) (ends : Option Fd.Pipe) :
    p.ring.contents = (if (p.dropEnd ends).all fun p =>
    p.ends.readers == 0 && p.ends.writers == 0 then p.ring.contents else []) ++
      ((p.dropEnd ends).map fun p => p.ring.contents).getD [] := by
  cases ends with
  | none => simp [Pipe.dropEnd]
  | some ends =>
    by_cases idle : ends.readers = 0 ∧ ends.writers = 0
    · simp [Pipe.dropEnd, idle, Ring.contents, Bytes.new, Ring.empty]
    · simp [Pipe.dropEnd, idle]

theorem Inv.drop (inv : s.Inv) (isPipe : s.pipe = some p) {ends : Option Fd.Pipe}
    (closed : ∀ left, ends = some left → left.readers ≠ 0 → (left.writeClosed = true ↔ left.writers = 0)) :
    (s.drop tid p (p.dropEnd ends)).Inv := by
  refine inv.change ?_ fun left isLeft => ?_
  · rw [List.map_map, contents, isPipe]
    simpa [Function.comp_def] using dropEnd_contents p ends
  · obtain ⟨ends, isEnds, rfl⟩ := Option.map_eq_some_iff.mp isLeft
    exact closed ends isEnds

theorem release_some {p : Fd.Pipe} (isLeft : p.release = some left) (reader : left.readers ≠ 0) : left = p := by
  unfold Fd.Pipe.release at isLeft
  split at isLeft
  · exact (Option.some.inj isLeft).symm
  · rename_i idle
    split at isLeft <;> cases isLeft
    exact absurd (fun missing => idle (.inl missing)) (fun h => h reader)

theorem closed_dropReader {p : Fd.Pipe} (closed : p.readers ≠ 0 → (p.writeClosed = true ↔ p.writers = 0))
    (isLeft : p.dropReader = some left) (reader : left.readers ≠ 0) : left.writeClosed = true ↔ left.writers = 0 := by
  cases release_some isLeft reader
  have others : p.readers - 1 ≠ 0 := reader
  have open_ : (p.readers - 1 == 0) = false := beq_false_of_ne others
  simpa [open_] using closed (by omega)

theorem closed_dropWriter {p : Fd.Pipe} (closed : p.readers ≠ 0 → (p.writeClosed = true ↔ p.writers = 0))
    (isLeft : p.dropWriter = some left) (reader : left.readers ≠ 0) : left.writeClosed = true ↔ left.writers = 0 := by
  cases release_some isLeft reader
  have before := closed reader
  simp only [Bool.or_eq_true, beq_iff_eq, before]
  omega

variable (inv : s.Inv)
include inv

theorem Inv.move (isPipe : s.pipe = some p) (other : ∀ next, s.phase tid ≠ .notify next) {ring : Bytes}
    {accepted : List UInt8} {consumed : List (UInt8 × Bool)} (away : phase.waiting = .away)
    (bytes : accepted = consumed.map Prod.fst ++ ring.contents)
    (noticed : (∃ next, phase = .notify next) ∨ p.ring.len ≠ 0 ∧ p.ring.len ≠ PIPE_BUF) :
    ({ s with pipe := some { p with ring }, accepted, consumed }.setPhase tid phase).Inv := by
  refine ⟨bytes, fun left isLeft => ?_, fine_setPhase inv.phases rfl rfl (fun job stalled => ?_) (by rw [away]; trivial)⟩
  · cases isLeft
    exact inv.closed p isPipe
  right
  obtain ⟨next, rfl⟩ | ⟨positive, room⟩ := noticed
  · exact pending_self ..
  refine (stalled.resolve_left ?_).setPhase rfl other
  cases job with
  | read size =>
    rintro ⟨q, isQ, empty, _⟩
    cases isPipe.symm.trans isQ
    exact positive empty
  | write first rest =>
    rintro ⟨q, isQ, full, _⟩
    cases isPipe.symm.trans isQ
    exact room full

theorem Inv.lookRead (isPipe : s.pipe = some p) {size seq : Nat}
    (phase : s.phase tid = .look (.read size) seq) (reader : p.ends.readers ≠ 0) : (s.lookRead tid p size seq).Inv := by
  have other (next : Option Job) : s.phase tid ≠ .notify next := by rw [phase]; nofun
  have seen := inv.phases tid
  rw [phase] at seen
  by_cases empty : p.ring.len = 0
  · cases closed : p.ends.writeClosed with
    | true =>
      have answered : s.lookRead tid p size seq = s.setPhase tid .idle := by
        simp [State.lookRead, Pipe.read, empty, closed, ← isPipe, PIPE_BUF]
      rw [answered]
      exact inv.setPhase other trivial
    | false =>
      have waits : s.lookRead tid p size seq = s.setPhase tid (.block (.read size) seq) := by
        simp [State.lookRead, Pipe.read, empty, closed]
      rw [waits]
      have writer : p.ends.writers ≠ 0 := by
        rw [ne_eq, ← inv.closed p isPipe reader, closed]
        exact Bool.false_ne_true
      exact inv.setPhase other ⟨seen, fun _ => .inl ⟨p, isPipe, empty, writer⟩⟩
  · unfold State.lookRead Pipe.read
    rw [if_neg empty]
    refine inv.move isPipe other (by split <;> rfl) ?_ ?_
    · have before := inv.bytes
      rw [contents, isPipe] at before
      rw [before, List.map_append, List.map_map, List.append_assoc, Bytes.copyOut_eq (Nat.min_le_right ..), Bytes.skip_contents]
      simp [Function.comp_def]
    · split
      · exact .inl ⟨none, rfl⟩
      · exact .inr ⟨empty, by omega⟩

theorem Inv.lookWrite (isPipe : s.pipe = some p) {first : UInt8} {rest : List UInt8} {chunk seq : Nat}
    (phase : s.phase tid = .look (.write first rest) seq) : (s.lookWrite tid p first rest chunk seq).Inv := by
  have other (next : Option Job) : s.phase tid ≠ .notify next := by rw [phase]; nofun
  have seen := inv.phases tid
  rw [phase] at seen
  have bounded := p.ring.bounded
  unfold State.lookWrite Pipe.write
  by_cases reader : p.ends.readers = 0
  · rw [if_pos reader]
    exact inv.setPhase other trivial
  rw [if_neg reader]
  simp only
  split
  · rename_i missing
    refine inv.setPhase other ⟨seen, fun _ => .inl ⟨p, isPipe, ?_, reader⟩⟩
    rw [List.length_cons] at missing
    omega
  refine inv.move isPipe other ?_ ?_ ?_
  · split
    · rfl
    · cases Job.ofRest _ <;> rfl
  · have before := inv.bytes
    rw [contents, isPipe] at before
    have short : (first :: rest.take chunk).length ≤ chunk + 1 := by simp
    have cut : first :: rest.take chunk = (first :: rest).take (chunk + 1) := rfl
    have same {n : Nat} (within : n ≤ (first :: rest.take chunk).length) :
        (first :: rest.take chunk).take n = (first :: rest).take n := by
      rw [cut, List.take_take, Nat.min_eq_left (by omega)]
    rw [before, List.append_assoc, Bytes.copyIn_contents, same (Nat.min_le_left ..)]
    rfl
  · split
    · exact .inl ⟨_, rfl⟩
    · rename_i nonempty
      exact .inr ⟨nonempty, by omega⟩

/-- An end is added beside one of its kind, and a read is of some bytes and by an end that is still open. -/
def meets (s : State) : Event → Bool
  | .addReader => s.pipe.all fun p => p.ends.readers != 0
  | .addWriter => s.pipe.all fun p => p.ends.writers != 0
  | .look tid _ => match s.phase tid with
      | .look (.read size) _ => size != 0 && s.pipe.all fun p => p.ends.readers != 0
      | _ => true
  | _ => true

theorem Inv.add (grow : Fd.Pipe → Fd.Pipe) (same : ∀ p, (grow p).writeClosed = p.writeClosed)
    (readers : ∀ p, s.pipe = some p → ((grow p.ends).readers = 0 ↔ p.ends.readers = 0))
    (writers : ∀ p, s.pipe = some p → ((grow p.ends).writers = 0 ↔ p.ends.writers = 0)) :
    Inv { s with pipe := s.pipe.map fun p => { p with ends := grow p.ends } } := by
  refine ⟨?_, fun p isP => ?_, fun t => (inv.phases t).mono le_rfl fun job stalled => stalled.imp ?_ id⟩
  · rw [inv.bytes, contents, contents, Option.map_map]
    rfl
  · obtain ⟨old, isOld, rfl⟩ := Option.map_eq_some_iff.mp isP
    have before := inv.closed old isOld
    simpa only [same, readers old isOld, writers old isOld, ne_eq] using before
  cases job with
  | read size =>
    rintro ⟨p, isP, empty, writer⟩
    exact ⟨_, Option.map_eq_some_iff.mpr ⟨p, isP, rfl⟩, empty, mt (writers p isP).mp writer⟩
  | write first rest =>
    rintro ⟨p, isP, full, reader⟩
    exact ⟨_, Option.map_eq_some_iff.mpr ⟨p, isP, rfl⟩, full, mt (readers p isP).mp reader⟩

theorem Inv.notify {next : Option Job} :
    Inv { s with phase := fun t => woken (Function.update s.phase tid (.next next) t), seq := s.seq + 1 } := by
  refine ⟨inv.bytes, inv.closed, fun t => ?_⟩
  have fine : (Function.update s.phase tid (.next next) t).waiting.Fine s.seq s.Stalled := by
    rw [Function.update_apply]
    split
    · cases next <;> trivial
    · exact inv.phases t
  change (woken (Function.update s.phase tid (.next next) t)).waiting.Fine _ _
  generalize Function.update s.phase tid (.next next) t = phase at fine ⊢
  cases phase with
  | asleep job => trivial
  | _ => exact fine.wake (Nat.lt_succ_self _) nofun

theorem Inv.step {event : Event} (met : s.meets event = true) (stepped : s.step event = some s') : s'.Inv := by
  cases event with
  | addReader =>
    cases stepped
    refine inv.add Fd.Pipe.addReader (fun _ => rfl) (fun p isP => ?_) fun _ _ => Iff.rfl
    have reader : p.ends.readers ≠ 0 := by simpa [meets, isP] using met
    simp only [Fd.Pipe.addReader, Fd.U8_MAX]
    omega
  | addWriter =>
    cases stepped
    refine inv.add Fd.Pipe.addWriter (fun _ => rfl) (fun _ _ => Iff.rfl) fun p isP => ?_
    have writer : p.ends.writers ≠ 0 := by simpa [meets, isP] using met
    simp only [Fd.Pipe.addWriter, Fd.U8_MAX]
    omega
  | dropReader tid =>
    obtain ⟨_, stepped⟩ := Option.ite_none_right_eq_some.mp stepped
    exact mapped stepped fun p isP => inv.drop isP fun left isLeft => closed_dropReader (inv.closed p isP) isLeft
  | dropWriter tid =>
    obtain ⟨_, stepped⟩ := Option.ite_none_right_eq_some.mp stepped
    exact mapped stepped fun p isP => inv.drop isP fun left isLeft => closed_dropWriter (inv.closed p isP) isLeft
  | fifoAttach tid read write =>
    obtain ⟨_, stepped⟩ := Option.ite_none_right_eq_some.mp stepped
    refine mapped stepped fun p isP => ?_
    have changed : ({ s with pipe := some (p.fifoAttach read write), consumed := s.consumed ++ [] }.setPhase tid
      (.notify none)).Inv := by
      refine inv.change ?_ fun left isLeft _ => ?_
      · rw [contents, isP]
        rfl
      · cases isLeft
        exact beq_iff_eq
    rw [List.append_nil] at changed
    exact changed
  | start tid job =>
    exact guarded stepped fun idle => inv.setPhase (by rw [idle]; nofun) trivial
  | wake =>
    cases stepped
    exact ⟨inv.bytes, inv.closed, fun t => (inv.phases t).mono (Nat.le_succ _) fun _ => id⟩
  | seq tid =>
    simp only [State.step] at stepped
    split at stepped <;> cases stepped
    rename_i phase
    exact inv.setPhase (by rw [phase]; nofun) le_rfl
  | look tid chunk =>
    simp only [State.step] at stepped
    split at stepped <;> cases stepped
    · rename_i size seq p phase isP
      have reader : p.ends.readers ≠ 0 := by
        simp only [meets, phase, isP, Bool.and_eq_true] at met
        simpa using met.2
      exact inv.lookRead isP phase reader
    · rename_i phase isP
      exact inv.lookWrite isP phase
    · rename_i phase _
      exact inv.setPhase (by rw [phase]; nofun) trivial
  | check tid =>
    simp only [State.step] at stepped
    split at stepped <;> cases stepped
    rename_i job seq phase
    have other (next : Option Job) : s.phase tid ≠ .notify next := by rw [phase]; nofun
    have seen := inv.phases tid
    rw [phase] at seen
    refine inv.setPhase other ?_
    split
    · exact seen.mono le_rfl fun _ stalled => stalled.imp id fun pending => pending.setPhase rfl other
    · trivial
  | block tid =>
    simp only [State.step] at stepped
    split at stepped <;> cases stepped
    rename_i job seq phase
    have other (next : Option Job) : s.phase tid ≠ .notify next := by rw [phase]; nofun
    have seen := inv.phases tid
    rw [phase] at seen
    refine inv.setPhase other ?_
    split
    · rename_i now
      exact (seen.2 now.symm).imp id fun pending => pending.setPhase rfl other
    · trivial
  | interrupt tid | resume tid =>
    simp only [State.step] at stepped
    split at stepped <;> cases stepped
    rename_i phase
    exact inv.setPhase (by rw [phase]; nofun) trivial
  | notify tid =>
    simp only [State.step] at stepped
    split at stepped <;> cases stepped
    exact inv.notify

/-- A read of some bytes returns 0 just when the pipe is empty with no writer left, and a write fails just when
no reader is left. -/
def Answers (s : State) : Event → Prop
  | .look tid chunk => match s.phase tid, s.pipe with
      | .look (.read size) _, some p => (p.read size).1 = .bytes [] ↔ p.ring.len = 0 ∧ p.ends.writers = 0
      | .look (.write first rest) _, some p => p.write (first :: rest.take chunk) = none ↔ p.ends.readers = 0
      | _, _ => True
  | _ => True

/-- The bytes that writes took are those that left, in order, and those in the ring; and no one sleeps on who
could go on. -/
structure Sound (s : State) : Prop where
  bytes : s.accepted = s.consumed.map Prod.fst ++ s.contents
  woken : ∀ tid job, s.phase tid = .asleep job → ¬ s.Stuck job →
    ∃ waker s', s.step (.notify waker) = some s' ∧ s'.phase tid = .top job

theorem Inv.sound : s.Sound := by
  refine ⟨inv.bytes, fun tid job asleep free => ?_⟩
  have stalled := inv.phases tid
  rw [asleep] at stalled
  obtain ⟨waker, next, phase⟩ := stalled.resolve_left free
  refine ⟨waker, { s with phase := fun t => woken (Function.update s.phase waker (.next next) t), seq := s.seq + 1 },
    by simp only [State.step, phase], ?_⟩
  have other : tid ≠ waker := by
    rintro rfl
    cases asleep.symm.trans phase
  change woken (Function.update s.phase waker _ tid) = _
  rw [Function.update_of_ne other, asleep]
  rfl

theorem Inv.answers {event : Event} (met : s.meets event = true) : s.Answers event := by
  cases event with
  | look tid chunk =>
    simp only [Answers]
    split
    · rename_i size seq p phase isP
      simp only [meets, phase, isP, Bool.and_eq_true, Option.all_some, bne_iff_ne] at met
      have closed := inv.closed p isP met.2
      by_cases empty : p.ring.len = 0
      · cases closing : p.ends.writeClosed <;> simp [Pipe.read, empty, closing, ← closed]
      have bytes : p.ring.copyOut (min size p.ring.len) ≠ [] := by
        rw [Bytes.copyOut_eq (Nat.min_le_right ..), ← List.length_pos_iff, List.length_take, Ring.length_contents]
        omega
      simp [Pipe.read, empty, bytes]
    · simp [Pipe.write]
    · trivial
  | _ => trivial

omit inv

theorem reach_pipesSound (s : State) (reachable : system.Reach (fun s event => s.meets event = true) s) :
    s.Sound ∧ ∀ event s', s.meets event = true → s.step event = some s' → s.Answers event := by
  have inv : s.Inv := by
    refine reachable.invariant (fun s start => ?_) fun _ _ _ inv met stepped => inv.step met stepped
    obtain ⟨pipe, accepted, consumed, idle⟩ := start
    refine ⟨?_, fun p isP reader => ?_, fun tid => by rw [idle]; trivial⟩
    · obtain pipe | pipe := pipe <;> simp [accepted, consumed, contents, pipe, Ring.contents, Bytes.new, Ring.empty]
    · obtain pipe | pipe := pipe <;> cases pipe.symm.trans isP
      · decide
      · exact absurd rfl reader
  exact ⟨inv.sound, fun _ _ met _ => inv.answers met⟩

def opened : State := ⟨some ⟨(Fd.Pipe.new false).addReader.addWriter, .new⟩, [], [], fun _ => .idle, 0⟩

theorem opened_start : opened.Start := ⟨.inl rfl, rfl, rfl, fun _ => rfl⟩

/-- A write wakes the reader, which takes a byte of the two. -/
theorem reach_pipesSound_read : ∃ s : State, s.Sound ∧ s.accepted = [7, 8] ∧ s.consumed = [(7, true)] := by
  have start : system.Reach (fun s event => s.meets event = true) opened := .start opened_start
  have read := start.runMeeting [.start 1 (.read 1), .seq 1, .look 1 0, .block 1, .start 2 (.write 7 [8]), .seq 2, .look 2 5,
    .notify 2, .seq 1, .look 1 0] rfl
  exact ⟨_, (reach_pipesSound _ read).1, rfl, rfl⟩

/-- The reader's end is closed before its `read`, which then takes the pipe for closed by its writers. -/
theorem closed_reader_sees_end : ¬ ∀ s, system.Reach System.Any s →
    s.Sound ∧ ∀ event s', s.step event = some s' → s.Answers event := by
  intro sound
  have reached : system.Reach System.Any _ := (System.Reach.start opened_start).run
    [.start 1 (.read 1), .seq 1, .dropReader 2] rfl
  have answer := (sound _ reached).2 (.look 1 0) _ rfl
  have wrong : ¬ (1 : Nat) = 0 := by decide
  exact wrong (answer.mp rfl).2

end State
end Myos.Ipc.Pipes
