import Myos.Modules.Netfs.UnixFiles

namespace Myos.Modules.Netfs.Unix.Files

structure Queued (s : State) : Prop where
  entries : ∀ l, ∀ e ∈ (s.table.conv l).queue,
    (s.table.conv e).phase ≠ .free ∧ s.via e = some (l, s.birth l) ∧ s.handed e = false
  once : ∀ l, (s.table.conv l).queue.Nodup

/-- `Queued`, and what it is for: an accept hands out a conversation whose other end connected to that listener, and a
release ends only those of its own queue. -/
structure Sound (s : State) : Prop extends Queued s where
  oneQueue : ∀ l m e, e ∈ (s.table.conv l).queue → e ∈ (s.table.conv m).queue → l = m
  accepts : ∀ uid l next after, s.table.accept uid l = some (next, after) → s.via next = some (l, s.birth l)
  resets : ∀ uid l x, (s.table.conv x).phase ≠ .free → ((s.table.release uid l).1.conv x).phase = .free →
    x = l ∨ x ∈ (s.table.conv l).queue

/-- When `release` runs for a conversation's user, at the last close of a spelling of its `data` or after an open of it
that failed, the conversation is not waiting in a queue. -/
def NotWaiting (s : State) : Event → Prop
  | .close uid k => ∀ fd ∈ s.fds[k]?, fd.file = .data → s.files.releases fd (s.fds.eraseIdx k) = true →
      s.table.own uid fd.id = true → ∀ l < s.table.len, fd.id ∉ (s.table.conv l).queue
  | .failedOpen uid id file => file = .data → s.table.own uid id = true → ∀ l < s.table.len, id ∉ (s.table.conv l).queue
  | _ => True

instance (s : State) : (event : Event) → Decidable (NotWaiting s event)
  | .close _ k => inferInstanceAs (Decidable (∀ fd ∈ s.fds[k]?, _))
  | .failedOpen .. => inferInstanceAs (Decidable (_ → _ → _))
  | .clone .. | .openFile .. | .openRef .. | .share .. | .call .. => isTrue trivial

structure Inv (s : State) : Prop extends Queued s where
  wf : s.table.Wf

variable {s : State}

theorem Queued.sound (queued : Queued s) : Sound s where
  toQueued := queued
  oneQueue l m e first second := by
    have same := (queued.entries l e first).2.1.symm.trans (queued.entries m e second).2.1
    exact congrArg Prod.fst (Option.some.inj same)
  accepts uid l next after done := by
    unfold Table.accept at done
    split at done
    · split at done
      · cases done
      next first rest queue =>
        cases done
        exact (queued.entries l next (by rw [queue]; exact List.mem_cons_self)).2.1
    · cases done
  resets uid l x used isOver := by
    by_contra neither
    rw [not_or] at neither
    exact (s.table.release_kept neither.1 neither.2).used used isOver

variable {heap : Bool} {id uid : Nat} {op : Op} {next : State} {table : Table}

variable (inv : Inv s)
include inv

theorem Inv.same (wf : table.Wf)
    (same : ∀ i, (table.conv i).queue = (s.table.conv i).queue ∧
    ((s.table.conv i).phase ≠ .free → (table.conv i).phase ≠ .free)) :
    Inv { s with table } := by
  refine ⟨⟨?_, ?_⟩, wf⟩
  · intro l e mem
    obtain ⟨used, via, handed⟩ := inv.entries l e ((same l).1 ▸ mem)
    exact ⟨(same e).2 used, via, handed⟩
  · intro l
    exact (same l).1.symm ▸ inv.once l

theorem Inv.note (wf : table.Wf) {on : Option Nat} (free : s.table.conv id = .FREE)
    (used : (table.conv id).phase ≠ .free) (empty : (table.conv id).queue = [])
    (queue : ∀ i, i ≠ id → (table.conv i).queue = (s.table.conv i).queue ++ (if on = some i then [id] else []))
    (kept : ∀ i, i ≠ id → (s.table.conv i).phase ≠ .free → (table.conv i).phase ≠ .free) :
    Inv (State.note { s with table } id on) := by
  have absent : ∀ l, id ∉ (s.table.conv l).queue := by
    intro l mem
    apply (inv.entries l id mem).1
    rw [free]
    rfl
  refine ⟨⟨?_, ?_⟩, wf⟩
  · intro l e mem
    have other : l ≠ id := by
      rintro rfl
      have mem : e ∈ (table.conv l).queue := mem
      rw [empty] at mem
      cases mem
    have mem : e ∈ (table.conv l).queue := mem
    rw [queue l other, List.mem_append] at mem
    rcases mem with old | new
    · have not_new : e ≠ id := by
        rintro rfl
        exact absent l old
      obtain ⟨used, via, handed⟩ := inv.entries l e old
      refine ⟨kept e not_new used, ?_, ?_⟩
      · change Function.update s.via id _ e = some (l, Function.update s.birth id _ l)
        rw [Function.update_of_ne not_new, Function.update_of_ne other, via]
      · change Function.update s.handed id false e = false
        rw [Function.update_of_ne not_new, handed]
    · split at new
      next there =>
        rw [List.mem_singleton.mp new]
        refine ⟨used, ?_, Function.update_self ..⟩
        change Function.update s.via id _ id = some (l, Function.update s.birth id _ l)
        rw [Function.update_self, Function.update_of_ne other, there]
        rfl
      · cases new
  · intro l
    change (table.conv l).queue.Nodup
    by_cases other : l = id
    · rw [other, empty]
      exact List.nodup_nil
    rw [queue l other]
    split
    · rw [List.nodup_append]
      refine ⟨inv.once l, by simp, ?_⟩
      intro e old new last
      rw [List.mem_singleton.mp last]
      rintro rfl
      exact absent l old
    · rw [List.append_nil]
      exact inv.once l

theorem Inv.refiled (files : Fs.OpenRefs Fd Path) : Inv { s with files } := ⟨⟨inv.entries, inv.once⟩, inv.wf⟩

theorem Inv.clone (new : s.table.alloc uid heap = some (id, table)) :
    Inv (State.note { s with table } id none) := by
  obtain ⟨_, _, _, _, _, conv⟩ := s.table.alloc_spec new
  have at_id : table.conv id = { Conv.FREE with phase := .opened, owner := uid } := by rw [conv, Function.update_self]
  apply inv.note (inv.wf.alloc new) (inv.wf.alloc_blank new)
  · simp [at_id]
  · rw [at_id]
    rfl
  · intro i apart
    rw [conv, Function.update_of_ne apart]
    simp
  · intro i apart used
    rw [conv, Function.update_of_ne apart]
    exact used

theorem Inv.connect {server last : Nat} {name : Bytes}
    (own : s.table.own uid id = true) (done : s.table.connect uid id name heap = some (server, last, table)) :
    Inv (State.note { s with table } last (some server)) := by
  have below := inv.wf.below (Table.own_used own).1
  have connects := s.table.connect_spec below done
  have free : s.table.conv last = .FREE := by
    by_cases far : last < s.table.len
    · exact inv.wf.blank last (connects.free far)
    · exact inv.wf.beyond last (Nat.le_of_not_lt far)
  apply inv.note (inv.wf.connect done) free
  · simp [connects.serverEnd]
  · rw [connects.serverEnd]
    rfl
  · intro i apart
    by_cases at_server : i = server
    · rw [at_server, connects.queue]
      simp
    rw [if_neg (fun same => at_server (Option.some.inj same).symm), List.append_nil]
    by_cases at_id : i = id
    · rw [at_id, connects.clientEnd]
    · rw [connects.others i at_id apart at_server]
  · intro i apart used
    by_cases at_server : i = server
    · rw [at_server, connects.queue]
      exact at_server ▸ used
    by_cases at_id : i = id
    · simp [at_id, connects.clientEnd]
    · rw [connects.others i at_id apart at_server]
      exact used

theorem Inv.pair {other : Nat} {first : Table} (own : s.table.own uid id = true)
    (done : s.table.pair uid id heap = some table) (new : s.table.alloc uid heap = some (other, first)) :
    Inv (State.note { s with table } other (some id)) := by
  have below := inv.wf.below (Table.own_used own).1
  obtain ⟨made, _, allocated, _, apart, at_id, at_made, elsewhere, _⟩ := s.table.pair_spec below done
  cases new.symm.trans allocated
  apply inv.note (inv.wf.pair done) (inv.wf.alloc_blank new)
  · simp [at_made]
  · rw [at_made]
    rfl
  · intro i not_other
    by_cases is_id : i = id
    · rw [is_id, at_id]
      simp
    · rw [elsewhere i is_id not_other, if_neg (fun same => is_id (Option.some.inj same).symm), List.append_nil]
  intro i not_other used
  by_cases is_id : i = id
  · simp [is_id, at_id]
  · rw [elsewhere i is_id not_other]
    exact used

theorem Inv.accept {next : Nat} (done : s.table.accept uid id = some (next, table)) :
    Inv { s with table, handed := Function.update s.handed next true } := by
  have wf := inv.wf.accept done
  have sound := inv.toQueued.sound
  unfold Table.accept at done
  split at done
  · split at done
    · cases done
    next first rest queue =>
      cases done
      have once := inv.once id
      rw [queue, List.nodup_cons] at once
      have mem_next : next ∈ (s.table.conv id).queue := by
        rw [queue]
        exact .head _
      have at_id := s.table.set_same id { s.table.conv id with queue := rest }
      have phase : ∀ i, ((s.table.set id { s.table.conv id with queue := rest }).conv i).phase = (s.table.conv i).phase := by
        intro i
        by_cases same : i = id
        · rw [same, at_id]
        · rw [Table.set_ne _ same]
      -- The one handed out was in no other place.
      have still : ∀ l, ∀ e ∈ ((s.table.set id { s.table.conv id with queue := rest }).conv l).queue,
          e ∈ (s.table.conv l).queue ∧ e ≠ next := by
        intro l e mem
        by_cases same : l = id
        · rw [same, at_id] at mem
          refine ⟨?_, ?_⟩
          · rw [same, queue]
            exact List.mem_cons_of_mem _ mem
          · rintro rfl
            exact once.1 mem
        · rw [Table.set_ne _ same] at mem
          refine ⟨mem, ?_⟩
          rintro rfl
          exact same (sound.oneQueue l id e mem mem_next)
      refine ⟨⟨?_, ?_⟩, wf⟩
      · intro l e mem
        obtain ⟨old, apart⟩ := still l e mem
        obtain ⟨used, via, handed⟩ := inv.entries l e old
        refine ⟨(phase e).symm ▸ used, via, ?_⟩
        change Function.update s.handed next true e = false
        rw [Function.update_of_ne apart, handed]
      intro l
      by_cases same : l = id
      · rw [same]
        rw [at_id]
        exact once.2
      · rw [Table.set_ne _ same]
        exact inv.once l
  · cases done

theorem Inv.release
    (elsewhere : s.table.own uid id = true → ∀ l < s.table.len, id ∉ (s.table.conv l).queue) : Inv (s.release uid id) := by
  have sound := inv.toQueued.sound
  by_cases own : s.table.own uid id = true
  · have absent : ∀ l, id ∉ (s.table.conv l).queue := by
      intro l mem
      refine elsewhere own l (inv.wf.below ?_) mem
      intro free
      rw [inv.wf.blank l free] at mem
      cases mem
    -- What is in a queue afterwards was in the queue of a conversation the release did not end.
    have queues : ∀ l, ((s.table.release uid id).1.conv l).queue = [] ∨
        (l ≠ id ∧ ((s.table.release uid id).1.conv l).queue = (s.table.conv l).queue) := by
      intro l
      by_cases is_id : l = id
      · left
        rw [is_id, s.table.release_own own, Table.finish_same]
        rfl
      by_cases waiting : l ∈ (s.table.conv id).queue
      · left
        have isOver := Table.finishAll_mem inv.wf waiting
        rw [s.table.release_own own]
        rw [(Table.finish_kept _ is_id).queue, isOver]
        rfl
      · exact .inr ⟨is_id, (s.table.release_kept is_id waiting).queue⟩
    refine ⟨⟨?_, ?_⟩, inv.wf.release uid id⟩
    · intro l e mem
      rcases queues l with ended | ⟨apart, same⟩
      · have mem : e ∈ ((s.table.release uid id).1.conv l).queue := mem
        rw [ended] at mem
        cases mem
      have old : e ∈ (s.table.conv l).queue := same ▸ mem
      obtain ⟨used, via, handed⟩ := inv.entries l e old
      refine ⟨?_, via, handed⟩
      refine (s.table.release_kept ?_ ?_).used used
      · rintro rfl
        exact absent l old
      · intro waiting
        exact apart (sound.oneQueue l id e old waiting)
    · intro l
      change ((s.table.release uid id).1.conv l).queue.Nodup
      rcases queues l with ended | ⟨_, same⟩
      · rw [ended]
        exact List.nodup_nil
      · rw [same]
        exact inv.once l
  · have same : (s.release uid id).table = s.table := s.table.release_other own
    refine ⟨⟨?_, ?_⟩, ?_⟩
    · rw [same]
      exact inv.entries
    · rw [same]
      exact inv.once
    · rw [same]
      exact inv.wf

omit inv

def Unqueued (t after : Table) : Prop :=
  ∀ i, (after.conv i).queue = (t.conv i).queue ∧ ((t.conv i).phase ≠ .free → (after.conv i).phase ≠ .free)

theorem Unqueued.refl (t : Table) : Unqueued t t := fun _ => ⟨rfl, id⟩

theorem Unqueued.trans {a b c : Table} (first : Unqueued a b) (second : Unqueued b c) : Unqueued a c :=
  fun i => ⟨(second i).1.trans (first i).1, fun used => (second i).2 ((first i).2 used)⟩

theorem unqueued_set (t : Table) {c : Conv} (queue : c.queue = (t.conv id).queue)
    (used : (t.conv id).phase ≠ .free → c.phase ≠ .free) : Unqueued t (t.set id c) := by
  intro i
  by_cases same : i = id
  · rw [same, Table.set_same]
    exact ⟨queue, used⟩
  · rw [Table.set_ne _ same]
    exact ⟨rfl, fun used => used⟩

theorem unqueued_disconnect (t : Table) (id : Nat) : Unqueued t (t.disconnect id) := by
  have peer : Unqueued t (t.hangPeer id) := by
    unfold Table.hangPeer
    split
    · exact Unqueued.refl t
    · have alone : Unqueued t (t.set id { t.conv id with peer := none }) := unqueued_set t rfl (fun used => used)
      exact alone.trans (unqueued_set _ rfl (by simp))
  unfold Table.disconnect
  dsimp only
  split
  · exact peer.trans (unqueued_set _ rfl (by simp))
  · exact peer

theorem unqueued_write (t : Table) (uid id pid : Nat) (src : Bytes) (heap : Bool) :
    Unqueued t (t.write uid id pid src heap).1 := by
  unfold Table.write
  split
  · split
    · exact Unqueued.refl t
    next p _ =>
      obtain ⟨first, second⟩ := (t.conv id).writeData_frame (t.conv p) pid src heap
      have put : Unqueued t (t.set p ((t.conv id).writeData (t.conv p) pid src heap).2.1) :=
        unqueued_set t second.2.2 (fun used => second.1 ▸ used)
      by_cases same : p = id
      · subst same
        intro i
        by_cases here : i = p
        · rw [here, Table.set_same]
          exact ⟨first.2.2, fun used => first.1 ▸ used⟩
        · rw [Table.set_ne _ here]
          exact put i
      · refine put.trans (unqueued_set _ ?_ ?_)
        · rw [Table.set_ne _ (Ne.symm same)]
          exact first.2.2
        · rw [Table.set_ne _ (Ne.symm same), first.1]
          exact fun used => used
  · exact Unqueued.refl t

def quiet : Op → Bool
  | .seqpacket _ | .announce _ _ | .hangup _ | .read _ _ | .write _ _ _ _ | .norights _ => true
  | _ => false

theorem unqueued_apply (t : Table) (uid : Nat) (calm : quiet op = true) : Unqueued t (t.apply uid op).1 := by
  cases op with
  | clone | connect | pair | accept | release => cases calm
  | seqpacket id =>
    simp only [Table.apply, Table.seqpacket]
    split
    · split
      · exact unqueued_set t rfl (fun used => used)
      · exact Unqueued.refl t
    · exact Unqueued.refl t
  | announce id name =>
    simp only [Table.apply, Table.announce]
    split
    · split
      · exact Unqueued.refl t
      · exact unqueued_set t rfl (by simp)
    · exact Unqueued.refl t
  | hangup id =>
    simp only [Table.apply]
    split
    · exact unqueued_disconnect t id
    · exact Unqueued.refl t
  | read id cap =>
    simp only [Table.apply, Table.read]
    split
    · have frame := (t.conv id).readData_frame cap
      exact unqueued_set t frame.2.1 (fun used => frame.2.2.1 ▸ used)
    · exact Unqueued.refl t
  | write id pid src heap => exact unqueued_write t uid id pid src heap
  | norights id =>
    simp only [Table.apply]
    split
    · exact unqueued_set t rfl (fun used => used)
    · exact Unqueued.refl t

theorem Inv.apply (inv : Inv s) (uid : Nat) (calm : quiet op = true) :
    Inv { s with table := (s.table.apply uid op).1 } :=
  inv.same (inv.wf.apply uid op) (unqueued_apply s.table uid calm)

theorem Inv.call (inv : Inv s) (stepped : s.call uid op = some next) : Inv next := by
  cases op with
  | clone | release => cases stepped
  | seqpacket | announce | hangup | read | write | norights =>
    cases stepped
    exact inv.apply uid rfl
  | connect id name heap =>
    simp only [State.call, Table.apply] at stepped
    split at stepped
    next server last made done =>
      split at done
      next own =>
        cases stepped
        have connected := inv.connect own done
        simp only [own, if_true, done]
        exact connected
      · cases done
    next done =>
      cases stepped
      split at done
      next own =>
        simp only [own, if_true, done]
        exact inv
      next other =>
        simp only [other]
        exact inv
  | pair id heap =>
    simp only [State.call, Table.apply] at stepped
    split at stepped
    next made first done =>
      split at done
      next own =>
        obtain ⟨table, paired⟩ := Option.isSome_iff_exists.mp own.2
        cases stepped
        have linked := inv.pair own.1 paired done
        simp only [own.1, if_true, paired]
        exact linked
      · cases done
    next done =>
      cases stepped
      by_cases own : s.table.own uid id = true
      · cases paired : s.table.pair uid id heap with
        | none =>
          simp only [own, if_true, Option.getD_none]
          exact inv
        | some table =>
          obtain ⟨_, _, allocated, _⟩ := s.table.pair_spec (inv.wf.below (Table.own_used own).1) paired
          simp [own, paired, allocated] at done
      · simp only [own]
        exact inv
  | accept id =>
    simp only [State.call, Table.apply] at stepped
    split at stepped
    next first table done =>
      cases stepped
      simp only [done, Option.map_some, Option.getD_some]
      exact inv.accept done
    next done =>
      cases stepped
      simp only [done, Option.map_none, Option.getD_none]
      exact inv

theorem Inv.close (inv : Inv s) {k : Nat} (met : NotWaiting s (.close uid k)) (stepped : s.close uid k = some next) :
    Inv next := by
  refine Lib.mapped stepped fun fd found => ?_
  have gone := inv.refiled (s.files.closeRef fd (s.fds.eraseIdx k))
  have after : Inv (s.closed uid fd (s.fds.eraseIdx k)) := by
    unfold State.closed
    dsimp only
    split
    next released =>
      rw [Bool.and_eq_true, beq_iff_eq] at released
      exact gone.release (met fd found released.1 released.2)
    · exact gone
  exact ⟨⟨after.entries, after.once⟩, after.wf⟩

theorem Inv.step (inv : Inv s) {event : Event} (met : NotWaiting s event) (stepped : s.step event = some next) :
    Inv next := by
  cases event with
  | clone uid heap =>
    simp only [State.step] at stepped
    split at stepped
    next id table new =>
      cases stepped
      exact inv.clone new
    · cases stepped
      exact inv
  | openFile uid id zeros file =>
    simp only [State.step] at stepped
    split at stepped
    · cases stepped
      exact inv.refiled _
    · cases stepped
      exact inv
  | openRef j | share k => exact Lib.mapped stepped fun files _ => inv.refiled files
  | failedOpen uid id file =>
    cases stepped
    unfold State.failedOpen
    split
    next undone =>
      rw [Bool.and_eq_true, beq_iff_eq] at undone
      exact inv.release (met undone.2)
    · exact inv
  | close uid k => exact inv.close met stepped
  | call uid op => exact inv.call stepped

theorem blank_inv : Inv blank where
  entries l e mem := by cases mem
  once l := List.nodup_nil
  wf := Table.wf_empty

/-- As long as no conversation ends while it waits, the queues are sound after every run. -/
theorem reach_sound (reached : system.Reach NotWaiting s) : Sound s := by
  have inv : Inv s := by
    apply reached.invariant
    · intro state start
      exact start ▸ blank_inv
    · intro state event next inv met stepped
      exact inv.step met stepped
  exact inv.toQueued.sound

def connecting : List Event :=
  [.clone 0 true, .openFile 0 0 0 .data, .openRef 0, .call 0 (.announce 0 [97]), .clone 5 true, .openFile 5 1 0 .data,
    .openRef 0, .call 5 (.connect 1 [97] true)]

/-- The end that waits is accepted, opened and closed, and its peer with it. -/
theorem reach_sound_accepted : ∃ s : State, s.handed 2 = true ∧ (s.table.conv 2).phase = .free ∧ Sound s := by
  refine ⟨_, ?_, ?_, reach_sound ((blank_reached NotWaiting).runMeeting
    (connecting ++ [.call 0 (.accept 0), .openFile 0 2 0 .data, .openRef 0, .close 0 2, .close 5 1]) rfl)⟩
  · rfl
  · rfl

/-- User 0 opens and closes the end that waits, and user 7 clones the slot: the listener hands out user 7's conversation. -/
theorem reused_while_waiting : ∃ s, system.Reach Lib.System.Any s ∧ ¬Sound s := by
  refine ⟨_, (blank_reached Lib.System.Any).run
    (connecting ++ [.openFile 0 2 0 .data, .openRef 0, .close 0 2, .clone 7 true]) rfl, ?_⟩
  intro sound
  have entry := (sound.entries 0 2 (by decide)).2.1
  cases entry

end Myos.Modules.Netfs.Unix.Files
