import Myos.Modules.Netfs.UnixTable
import Myos.Modules.Netfs.UnixFlow

namespace Myos.Modules.Netfs.Unix

theorem End.other_other (e : End) : e.other.other = e := by cases e <;> rfl

theorem End.ne_iff {a b : End} : a ≠ b ↔ a = b.other := by cases a <;> cases b <;> decide

theorem End.other_ne (e : End) : e.other ≠ e := End.ne_iff.mpr rfl

theorem Holds.faithful {c : Conv} {f : Flow} {isOver : Bool} (holds : Holds c f)
    (records : c.records = true → HoldsRecords c f)
    (ended : f.ended = true → isOver = true ∧ f.passed c.records = f.taken.length) :
    Pair.Faithful c.records f (some c.rx) isOver := by
  constructor
  case stream =>
    intro mode
    have split : f.taken = f.got ++ c.rx := by rw [holds.stream mode, holds.bytes, List.take_append_drop]
    refine ⟨⟨c.rx, split.symm⟩, ?_⟩
    intro rx same
    cases same
    exact split
  case record =>
    intro mode
    refine ⟨(records mode).fewer, (records mode).each, ?_⟩
    intro rx same
    cases same
    exact holds.rx_records mode
  case rights => exact ⟨c.marks, holds.marks.symm⟩
  case ended => exact ended

theorem Holds.ended {c : Conv} {f : Flow} (holds : Holds c f) (ended : Bool) : Holds c { f with ended } :=
  ⟨holds.base, holds.within, holds.bytes, holds.marks, holds.sorted, holds.ranged, holds.stream⟩

theorem HoldsRecords.ended {c : Conv} {f : Flow} (records : HoldsRecords c f) (ended : Bool) : HoldsRecords c { f with ended } :=
  ⟨records.fewer, records.each, records.nonempty, records.writers, records.marksAt⟩

theorem rx_of_read_nothing {c : Conv} {cap : Nat} (room : 0 < cap) (nothing : (c.readData cap).2.1 = []) : c.rx = [] := by
  by_contra held
  have taken := Conv.readCount_pos room held
  rcases List.take_eq_nil_iff.mp nothing with none | empty
  · omega
  · exact held empty

theorem Holds.read_past {c : Conv} {f : Flow} (holds : Holds c f) (all : f.passed c.records = f.taken.length) (cap : Nat) :
    (c.readData cap).2.1 = [] := by
  have empty : c.rx = [] := by
    rw [holds.bytes, holds.base, all]
    exact List.drop_length
  change c.rx.take _ = []
  rw [empty, List.take_nil]

theorem Flow.passed_read_nothing (f : Flow) (records : Bool) (cap : Nat) (fds : List Nat) {bytes : Bytes} {ended : Bool}
    (nothing : bytes = []) : Flow.passed { f.read records cap bytes fds with ended } records = f.passed records := by
  subst nothing
  rfl

namespace Pair

theorem Faithful.close {records : Bool} {f : Flow} {buffered : Option Bytes} {isOver : Bool}
    (faithful : Faithful records f buffered isOver) {later : Bool} (still : isOver = true → later = true) :
    Faithful records f none later := by
  constructor
  case stream =>
    intro mode
    exact ⟨(faithful.stream mode).1, fun _ mem => by cases mem⟩
  case record =>
    intro mode
    exact ⟨(faithful.record mode).1, (faithful.record mode).2.1, fun _ mem => by cases mem⟩
  case rights => exact faithful.rights
  case ended =>
    intro ended
    exact ⟨still (faithful.ended ended).1, (faithful.ended ended).2⟩

structure Alive (s : State) (e : End) : Prop where
  mode : (s.conv e).records = s.records
  queue : (s.conv e).queue = []
  linked : s.closed e.other = false → (s.conv e).phase = .connected ∧ (s.conv e).peer = some (s.id e.other)
  alone : s.closed e.other = true → (s.conv e).peer = none
  holds : Holds (s.conv e) (s.flow e)
  records : s.records = true → HoldsRecords (s.conv e) (s.flow e)

structure Inv (s : State) : Prop where
  apart : s.id .client ≠ s.id .server
  listener : ∀ e, s.listener ≠ s.id e
  free : ∀ e, s.closed e = true → s.conv e = .FREE
  alive : ∀ e, s.closed e = false → Alive s e
  faithful : ∀ e, Faithful s.records (s.flow e) (s.buffered e) (s.closed e.other)

variable {s : State}

theorem Inv.id_ne (inv : Inv s) {a b : End} (apart : a ≠ b) : s.id a ≠ s.id b := by
  cases a <;> cases b
  · exact absurd rfl apart
  · exact inv.apart
  · exact inv.apart.symm
  · exact absurd rfl apart

theorem Inv.open_of_own (inv : Inv s) {uid : Nat} {e : End} (own : s.table.own uid (s.id e) = true) : s.closed e = false := by
  cases closed : s.closed e with
  | false => rfl
  | true =>
    have free : s.table.conv (s.id e) = .FREE := inv.free e closed
    simp [Table.own, free, Conv.FREE] at own

theorem Inv.same (inv : Inv s) {table : Table} (same : ∀ e, table.conv (s.id e) = s.table.conv (s.id e)) :
    Inv { s with table } := by
  have conv : ∀ e, State.conv { s with table } e = s.conv e := same
  refine ⟨inv.apart, inv.listener, ?_, ?_, ?_⟩
  · intro e closed
    rw [conv e]
    exact inv.free e closed
  · intro e open_
    obtain ⟨mode, queue, linked, alone, holds, records⟩ := inv.alive e open_
    constructor <;> rw [conv e]
    · exact mode
    · exact queue
    · exact linked
    · exact alone
    · exact holds
    · exact records
  · intro e
    have buffered : State.buffered { s with table } e = s.buffered e := by simp only [State.buffered, conv e]
    rw [buffered]
    exact inv.faithful e

theorem Inv.update (inv : Inv s) {who : End} (open_ : s.closed who = false) {c : Conv} {f : Flow}
    (frame : c.records = (s.conv who).records ∧ c.queue = (s.conv who).queue ∧ c.phase = (s.conv who).phase ∧
      c.peer = (s.conv who).peer)
    (holds : Holds c f) (records : s.records = true → HoldsRecords c f)
    (ended : f.ended = true → s.closed who.other = true ∧ f.passed s.records = f.taken.length) :
    Inv (State.setFlow { s with table := s.table.set (s.id who) c } who f) := by
  let after := State.setFlow { s with table := s.table.set (s.id who) c } who f
  have here : after.conv who = c := Table.set_same _ _ _
  have flow_here : after.flow who = f := Function.update_self ..
  have there : ∀ e, e ≠ who → after.conv e = s.conv e := fun e apart => Table.set_ne _ (inv.id_ne apart) _
  have flow_there : ∀ e, e ≠ who → after.flow e = s.flow e := fun e apart => Function.update_of_ne apart ..
  have before := inv.alive who open_
  have mode : c.records = s.records := frame.1.trans before.mode
  refine ⟨inv.apart, inv.listener, ?_, ?_, ?_⟩
  · intro e closed
    have apart : e ≠ who := by
      rintro rfl
      exact absurd (open_.symm.trans closed) (by decide)
    exact (there e apart).trans (inv.free e closed)
  · intro e still
    by_cases same : e = who
    · subst same
      constructor <;> rw [here]
      · exact mode
      · exact frame.2.1.trans before.queue
      · intro other
        rw [frame.2.2.1, frame.2.2.2]
        exact before.linked other
      · intro other
        rw [frame.2.2.2]
        exact before.alone other
      · rw [flow_here]
        exact holds
      · rw [flow_here]
        exact records
    · obtain ⟨mode, queue, linked, alone, holds, records⟩ := inv.alive e still
      constructor <;> rw [there e same]
      · exact mode
      · exact queue
      · exact linked
      · exact alone
      · exact flow_there e same ▸ holds
      · exact flow_there e same ▸ records
  · intro e
    by_cases same : e = who
    · subst same
      have buffered : after.buffered e = some c.rx := by
        change (if s.closed e = true then none else some (after.conv e).rx) = _
        rw [open_, here]
        rfl
      have faithful : Faithful s.records (after.flow e) (some c.rx) (s.closed e.other) := by
        rw [flow_here, ← mode]
        exact holds.faithful (fun record => records (mode ▸ record)) (mode ▸ ended)
      exact buffered ▸ faithful
    · have buffered : after.buffered e = s.buffered e := by
        change (if s.closed e = true then none else some (after.conv e).rx) = _
        rw [there e same]
        rfl
      have faithful : Faithful s.records (after.flow e) (s.buffered e) (s.closed e.other) :=
        (flow_there e same).symm ▸ inv.faithful e
      exact buffered ▸ faithful

theorem Inv.read (inv : Inv s) (who : End) (uid cap : Nat) : Inv (s.read who uid cap) := by
  unfold State.read Table.read
  by_cases own : s.table.own uid (s.id who) = true
  · have open_ := inv.open_of_own own
    have before := inv.alive who open_
    have kept := before.holds.read (fun mode => before.records (before.mode ▸ mode)) cap
    simp only [own, if_true]
    have here : State.conv { s with table := s.table.set (s.id who) ((s.conv who).readData cap).1 } who =
        ((s.conv who).readData cap).1 := Table.set_same _ _ _
    rw [Flow.readFrom, before.mode] at kept
    apply inv.update open_ (Conv.readData_frame _ _)
    · exact here.symm ▸ kept.1.ended _
    · exact fun mode => here.symm ▸ (kept.2 mode).ended _
    intro ended
    have finished : s.closed who.other = true ∧ (s.flow who).passed s.records = (s.flow who).taken.length ∧
        ((s.conv who).readData cap).2.1 = [] := by
      rcases Bool.or_eq_true _ _ |>.mp ended with old | now
      · have found := (inv.faithful who).ended old
        exact ⟨found.1, found.2, before.holds.read_past (before.mode ▸ found.2) cap⟩
      obtain ⟨nothing, room, hangup⟩ := of_decide_eq_true now
      have empty : (s.conv who).rx = [] := rx_of_read_nothing room nothing
      have hangup : ((s.conv who).readData cap).1.phase = .hangup := here ▸ hangup
      refine ⟨?_, ?_, nothing⟩
      · by_contra other
        have linked := (before.linked (by simpa using other)).1
        rw [← ((s.conv who).readData_frame cap).2.2.1, hangup] at linked
        cases linked
      have length := before.holds.length
      have base := before.holds.base
      rw [before.mode] at base
      rw [empty, List.length_nil] at length
      omega
    refine ⟨finished.1, ?_⟩
    exact (Flow.passed_read_nothing _ _ _ _ finished.2.2).trans finished.2.1
  · simp only [own, if_false, Bool.false_eq_true]
    exact inv

theorem Inv.touch (inv : Inv s) {who : End} (open_ : s.closed who = false) (want : Nat) (pending delivered : List Nat) :
    Inv { s with table := s.table.set (s.id who) { s.conv who with want, pending, delivered } } := by
  have before := inv.alive who open_
  have touched := inv.update (c := { s.conv who with want, pending, delivered }) (f := s.flow who) open_ ⟨rfl, rfl, rfl, rfl⟩
    ⟨before.holds.base, before.holds.within, before.holds.bytes, before.holds.marks, before.holds.sorted, before.holds.ranged,
      before.holds.stream⟩
    (fun mode => ⟨(before.records mode).fewer, (before.records mode).each, (before.records mode).nonempty,
      (before.records mode).writers, (before.records mode).marksAt⟩)
    (inv.faithful who).ended
  have flow : Function.update s.flow who (s.flow who) = s.flow := Function.update_eq_self who s.flow
  simp only [State.setFlow, flow] at touched
  exact touched

theorem writeData_cases (c p : Conv) (pid : Nat) (src : Bytes) (heap : Bool) :
    (∃ want result, c.writeData p pid src heap = ({ c with want }, p, result) ∧ (result = none ∨ result = some 0)) ∨
    ∃ n writers, 0 < n ∧ n ≤ src.length ∧
      (c.records = true → writers = p.writers ++ [(p.rxBase + p.rx.length, pid)]) ∧
      c.writeData p pid src heap =
        ({ c with want := 0, pending := [] }, p.put (src.take n) c.pending writers, some n) := by
  unfold Conv.writeData
  dsimp only
  split
  · exact .inl ⟨c.want, none, rfl, .inl rfl⟩
  split
  · exact .inl ⟨src.length, none, rfl, .inl rfl⟩
  split
  · exact .inl ⟨c.want, some 0, rfl, .inr rfl⟩
  split
  · exact .inl ⟨c.want, none, rfl, .inl rfl⟩
  next taken =>
    refine .inr ⟨min src.length (BUF_CAP - p.rx.length), _, by omega, Nat.min_le_left _ _, ?_, rfl⟩
    intro mode
    simp [mode]

theorem Inv.write (inv : Inv s) (who : End) (uid pid : Nat) (src : Bytes) (heap : Bool) : Inv (s.write who uid pid src heap) := by
  unfold State.write Table.write
  by_cases own : s.table.own uid (s.id who) = true
  · have open_ := inv.open_of_own own
    have before := inv.alive who open_
    simp only [own, if_true]
    cases other : s.closed who.other with
    | true =>
      have alone : (s.table.conv (s.id who)).peer = none := before.alone other
      simp only [alone]
      exact inv
    | false =>
      have peer : (s.table.conv (s.id who)).peer = some (s.id who.other) := (before.linked other).2
      have there := inv.alive who.other other
      simp only [peer]
      obtain ⟨want, result, same, refused⟩ | ⟨n, writers, positive, _, entry, same⟩ :=
        writeData_cases (s.conv who) (s.conv who.other) pid src heap
      · change (s.table.conv (s.id who)).writeData (s.table.conv (s.id who.other)) pid src heap = _ at same
        have unchanged : s.table.set (s.id who.other) (s.conv who.other) = s.table := by simp [Table.set, State.conv]
        have kept := inv.touch open_ want (s.conv who).pending (s.conv who).delivered
        rw [same]
        rw [unchanged]
        rcases refused with rfl | rfl <;> exact kept
      · change (s.table.conv (s.id who)).writeData (s.table.conv (s.id who.other)) pid src heap = _ at same
        rw [same]
        obtain ⟨k, rfl⟩ : ∃ k, n = k + 1 := ⟨n - 1, by omega⟩
        have bytes : src.take (k + 1) ≠ [] := by
          rw [← List.length_pos_iff, List.length_take]
          omega
        have mode : (s.conv who.other).records = s.records := there.mode
        let f := (s.flow who.other).wrote (src.take (k + 1)) (s.conv who).pending
        let p := (s.conv who.other).put (src.take (k + 1)) (s.conv who).pending writers
        have sent := inv.update other (c := p) (f := f) ⟨rfl, rfl, rfl, rfl⟩
          (there.holds.wrote bytes (s.conv who).pending writers (fun records => (there.records (mode ▸ records)).fewer))
          (fun records => by
            have last := entry (before.mode.trans records)
            subst last
            exact (there.records records).wrote there.holds (mode.trans records) bytes _ _)
          (fun ended => by
            have isOver := ((inv.faithful who.other).ended ended).1
            rw [End.other_other, open_] at isOver
            cases isOver)
        have touched := @Inv.touch _ sent who open_ 0 [] (s.conv who).delivered
        have here : State.conv (State.setFlow { s with table := s.table.set (s.id who.other) p } who.other f) who = s.conv who :=
          Table.set_ne _ (inv.id_ne (End.other_ne who).symm) _
        rw [here] at touched
        exact touched
  · simp only [own, if_false, Bool.false_eq_true]
    exact inv

theorem release_open (inv : Inv s) {who : End} {uid : Nat} (own : s.table.own uid (s.id who) = true) :
    (s.table.release uid (s.id who)).1 = (s.table.finish (s.id who)).1 := by
  have queue : (s.table.conv (s.id who)).queue = [] := (inv.alive who (inv.open_of_own own)).queue
  simp [Table.release, own, queue, Table.finishAll]

theorem Inv.close (inv : Inv s) (who : End) (uid : Nat) : Inv (s.close who uid) := by
  unfold State.close
  split
  next own =>
    have open_ := inv.open_of_own own
    have before := inv.alive who open_
    rw [release_open inv own]
    let after : State :=
      { s with table := (s.table.finish (s.id who)).1, closed := Function.update s.closed who true }
    have here : after.conv who = .FREE := s.table.finish_same (s.id who)
    have closed_here : after.closed who = true := Function.update_self ..
    have closed_there : after.closed who.other = s.closed who.other := Function.update_of_ne (End.other_ne who) ..
    have there : after.conv who.other =
        if (s.conv who).peer = some (s.id who.other) then (s.conv who.other).hung else s.conv who.other :=
      s.table.finish_ne (inv.id_ne (End.other_ne who))
    have ends : ∀ e, e = who ∨ e = who.other := by
      intro e
      by_cases same : e = who
      · exact .inl same
      · exact .inr (End.ne_iff.mp same)
    refine ⟨inv.apart, inv.listener, ?_, ?_, ?_⟩
    · intro e closed
      rcases ends e with rfl | rfl
      · exact here
      rw [closed_there] at closed
      have free := inv.free who.other closed
      rw [there, if_neg (by rw [before.alone closed]; simp)]
      exact free
    · intro e still
      rcases ends e with rfl | rfl
      · rw [closed_here] at still
        cases still
      rw [closed_there] at still
      have linked := before.linked still
      have other := inv.alive who.other still
      rw [if_pos linked.2] at there
      constructor <;> rw [there]
      · exact other.mode
      · exact other.queue
      · intro back
        rw [End.other_other, closed_here] at back
        cases back
      · exact fun _ => rfl
      · exact ⟨other.holds.base, other.holds.within, other.holds.bytes, other.holds.marks, other.holds.sorted,
          other.holds.ranged, other.holds.stream⟩
      · intro mode
        have records := other.records mode
        exact ⟨records.fewer, records.each, records.nonempty, records.writers, records.marksAt⟩
    · intro e
      rcases ends e with rfl | rfl
      · have buffered : after.buffered e = none := by simp [State.buffered, closed_here]
        have faithful : Faithful s.records (s.flow e) none (after.closed e.other) :=
          (inv.faithful e).close (by rw [closed_there]; exact id)
        exact buffered ▸ faithful
      have isOver : after.closed who.other.other = true := by rw [End.other_other, closed_here]
      have buffered : after.buffered who.other = s.buffered who.other := by
        unfold State.buffered
        rw [closed_there, there]
        split
        · rfl
        · split <;> rfl
      have old := inv.faithful who.other
      refine buffered ▸ ⟨old.stream, old.record, old.rights, ?_⟩
      intro ended
      exact ⟨isOver, (old.ended ended).2⟩
  · exact inv

theorem Inv.step (inv : Inv s) (event : Event) : Inv (s.step event) := by
  cases event with
  | accept uid =>
    simp only [State.step, Table.accept]
    cases own : s.table.own uid s.listener with
    | false => exact inv
    | true =>
      cases queue : (s.table.conv s.listener).queue with
      | nil => simpa [queue] using inv
      | cons first rest =>
        simp only [if_true]
        apply inv.same
        intro e
        exact Table.set_ne _ (inv.listener e).symm _
  | write who uid pid src heap => exact inv.write who uid pid src heap
  | read who uid cap => exact inv.read who uid cap
  | close who uid => exact inv.close who uid
  | rights who uid held =>
    simp only [State.step, Table.rights]
    split
    next own =>
      split
      · exact inv.touch (inv.open_of_own own) _ _ _
      · exact inv
    · exact inv
  | norights who uid | readRights who uid =>
    simp only [State.step, Table.norights, Table.drainDelivered]
    split
    next own => exact inv.touch (inv.open_of_own own) _ _ _
    · exact inv

theorem holds_new {c : Conv} (rx : c.rx = []) (base : c.rxBase = 0) (marks : c.marks = []) (writers : c.writers = []) :
    Holds c {} ∧ HoldsRecords c {} := by
  constructor
  · refine ⟨?_, ?_, ?_, ?_, ?_, ?_, ?_⟩ <;> simp [rx, base, marks, Flow.passed, Flow.taken, Flow.got]
  · refine ⟨Nat.le_refl _, .nil, ?_, ⟨[], ?_, .inl rfl⟩, ?_⟩ <;> simp [writers, marks, starts]

theorem alive_new {e : End} {owner : Nat} (open_ : s.conv e = { Conv.FREE with
      phase := .connected, peer := some (s.id e.other), owner, records := s.records })
    (flow : s.flow e = {}) (other : s.closed e.other = false) : Alive s e := by
  have new := holds_new (c := s.conv e) (by rw [open_]; rfl) (by rw [open_]; rfl) (by rw [open_]; rfl) (by rw [open_]; rfl)
  rw [← flow] at new
  refine ⟨by rw [open_], by rw [open_]; rfl, fun _ => by rw [open_]; exact ⟨rfl, rfl⟩, ?_, new.1, fun _ => new.2⟩
  intro closed
  rw [other] at closed
  cases closed

theorem Connected.alive (made : Connected s) (e : End) : Alive s e := by
  cases made with
  | connect t made uid id server last name heap new below done =>
    obtain ⟨owner, records, new⟩ := new
    have connects := t.connect_spec below done
    have mode : (t.conv id).records = records := by rw [new]
    have client := connects.clientEnd
    rw [new] at client
    cases e with
    | client => exact alive_new (by rw [mode]; exact client) rfl rfl
    | server => exact alive_new connects.serverEnd rfl rfl

theorem Connected.inv (made : Connected s) : Inv s := by
  have alive := made.alive
  cases made with
  | connect t made uid id server last name heap new below done =>
    have connects := t.connect_spec below done
    have apart : id ≠ last := by
      rintro rfl
      have clash := (connects.free below).symm.trans connects.opened
      cases clash
    refine ⟨apart, ?_, fun e closed => (by cases closed), fun e _ => alive e, ?_⟩
    · intro e at_end
      cases e with
      | client =>
        have at_end : server = id := at_end
        have clash := connects.listening.2.1.symm.trans (at_end ▸ connects.opened)
        cases clash
      | server =>
        have at_end : server = last := at_end
        have clash := connects.listening.2.1.symm.trans (connects.free (at_end ▸ connects.listening.1) |> (at_end ▸ ·))
        cases clash
    · intro e
      refine (alive e).mode ▸ (alive e).holds.faithful (fun records => (alive e).records ((alive e).mode ▸ records)) ?_
      intro ended
      cases ended

theorem reach_inv (reached : system.Reach Lib.System.Any s) : Inv s := by
  apply reached.invariant
  · intro state start
    exact Connected.inv start
  · intro state event next inv _ stepped
    cases stepped
    exact inv.step event

/-- Both directions of a connection are what `Faithful` says after every run. -/
theorem reach_faithful (reached : system.Reach Lib.System.Any s) (e : End) :
    Faithful s.records (s.flow e) (s.buffered e) (s.closed e.other) :=
  (reach_inv reached).faithful e

def oneListener : Table where
  len := 2
  conv
    | 0 => { Conv.FREE with phase := .listening, owner := 0, name := [97] }
    | 1 => { Conv.FREE with phase := .opened, owner := 0 }
    | _ => .FREE

def oneConnection : State where
  table := ((oneListener.connect 0 1 [97] true).map (·.2.2)).getD oneListener
  listener := 0
  id
    | .client => 1
    | .server => 2
  records := false
  flow _ := {}
  closed _ := false

theorem oneConnection_reached : system.Reach Lib.System.Any oneConnection :=
  .start (.connect oneListener oneConnection.table 0 1 0 2 [97] true ⟨0, false, rfl⟩ (by decide) rfl)

/-- Three bytes written, the first with an fd; two of them read before the writer closes. -/
theorem reach_faithful_hello : ∃ s : State, (s.flow .server).got = [104, 101] ∧ (s.flow .server).arrived = [(0, [5])] ∧
    s.closed .client = true ∧ Faithful s.records (s.flow .server) (s.buffered .server) (s.closed .client) := by
  refine ⟨_, ?_, ?_, ?_, reach_faithful (oneConnection_reached.run
    [.rights .client 0 [5], .write .client 0 7 [104, 101, 108] true, .accept 0, .read .server 0 2, .close .client 0] rfl) .server⟩
  · rfl
  · rfl
  · rfl

end Pair
end Myos.Modules.Netfs.Unix
