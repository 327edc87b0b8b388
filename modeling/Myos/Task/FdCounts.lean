import Myos.Task.FdInv

namespace Myos.Task.Fd.World
open Lib

variable {w : World} {pid : Pid}

theorem refs_alloc {s s' : Objects} {o : Obj} (others : ∀ o', o' ≠ o → s'.refs o' = s.refs o') (before : s.refs o = 0)
    (after : s'.refs o = 1) {e : FdEntry} (isObj : e.obj = some o) (o' : Obj) :
    s'.refs o' = s.refs o' + [e].countP (·.names o') := by
  rw [countP_cons_names, List.countP_nil, Nat.zero_add, FdEntry.names, isObj]
  refine Objects.Moves.up (fun o' => ?_) o'
  split
  · rename_i same
    rw [same, after, before]
  · exact others o' ‹_›

theorem openFileAlloc_some {s objs : Objects} {node id : Nat} {readable writable append : Bool}
    (made : s.openFileAlloc node readable writable append = some (objs, id)) :
    s.files.lookup id = none ∧ objs = { s with files := s.files.insert id ⟨node, readable, writable, append, 1⟩ } := by
  -- The slots are not to be listed one by one.
  generalize List.range MAX_OPEN_FILES = slots at made
  obtain ⟨id, free, same⟩ := Option.map_eq_some_iff.mp made
  cases same
  exact ⟨Table.lookup_free free, rfl⟩

variable (inv : w.Inv [])
include inv

theorem Inv.open_ (node : Nat) (flags : BitVec 32) (hook : OpenHook) :
    (w.open_ pid node flags hook).Inv [] := by
  cases hook with
  | refuse => exact inv
  | pass =>
    unfold World.open_
    dsimp only
    split
    · exact inv
    rename_i objs id made
    obtain ⟨missing, rfl⟩ := openFileAlloc_some made
    apply Inv.putEntry
    apply inv.setObjs
    · refine refs_alloc (fun o apart => ?_) ?_ ?_ rfl
      · cases o with
        | file n =>
          have other : n ≠ id := fun same => apart (congrArg Obj.file same)
          simp [Objects.refs, AList.lookup_insert_ne other]
        | pipeRead n | pipeWrite n | ptyMaster n | ptySlave n | evfd kind n => rfl
      · simp [Objects.refs, missing]
      · simp [Objects.refs]
    · exact ⟨inv.sane.closed, inv.sane.terms⟩
    · intro e member
      rw [List.mem_singleton.mp member]
      trivial

theorem Inv.openPtyMaster : (w.openPtyMaster pid).Inv [] := by
  unfold World.openPtyMaster
  split
  · exact inv
  rename_i objs id made
  obtain ⟨id, free, same⟩ := Option.map_eq_some_iff.mp made
  cases same
  have missing := Table.lookup_free free
  -- The kernel's terminals are never freed, so their ids are never free.
  have above : TERMS ≤ id := by
    by_contra below
    have counted := inv.counted (.ptyMaster id)
    simp only [Objects.refs, missing, kernelHeld, if_pos (Nat.lt_of_not_le below), Option.map_none, Option.getD_none] at counted
    omega
  apply Inv.putEntry
  apply inv.setObjs
  · refine refs_alloc (fun o apart => ?_) ?_ ?_ rfl
    · cases o with
      | ptyMaster n =>
        have other : n ≠ id := fun same => apart (congrArg Obj.ptyMaster same)
        simp [Objects.refs, AList.lookup_insert_ne other]
      | ptySlave n =>
        by_cases same : n = id
        · subst same
          simp [Objects.refs, missing]
        · simp [Objects.refs, AList.lookup_insert_ne same]
      | file n | pipeRead n | pipeWrite n | evfd kind n => rfl
    · simp [Objects.refs, missing]
    · simp [Objects.refs]
  · refine ⟨inv.sane.closed, fun n p found => ?_⟩
    obtain ⟨rfl, rfl⟩ | ⟨_, found⟩ := Table.lookup_insert_some found
    · exact ⟨by simpa using above, fun _ => rfl⟩
    · exact inv.sane.terms n p found
  · intro e member
    rw [List.mem_singleton.mp member]
    exact above

theorem Inv.openPtySlave (id : Nat) : (w.openPtySlave pid id).Inv [] := by
  unfold World.openPtySlave
  split
  · rename_i present
    split
    · exact inv
    rename_i fd free
    have sound : (FdEntry.ptySlave id (w.objs.hangups id)).sound := by
      intro above
      obtain ⟨p, found⟩ := Option.isSome_iff_exists.mp present
      rw [Objects.hangups, found]
      exact (inv.sane.terms id p found).2 above
    have cloned : (w.setObjs (w.objs.fdClone (.ptySlave id (w.objs.hangups id)))).Inv [.ptySlave id (w.objs.hangups id)] := by
      refine inv.fdClone sound (fun o isObj => ?_) (inv.sane.setPtys fun p p' changed => ?_)
      · cases isObj
        exact ⟨present, trivial⟩
      · cases changed
        exact ⟨rfl, fun _ => rfl⟩
    exact cloned.putFree (freeFd_entry free) false
  · exact inv

theorem Inv.openEvfd (kind : Kind) (id : Nat) : (w.openEvfd pid kind id).Inv [] := by
  unfold World.openEvfd
  split
  · rename_i present
    apply Inv.putEntry
    refine inv.fdClone (e := .evfd kind id) trivial (fun o isObj => ?_) ⟨inv.sane.closed, inv.sane.terms⟩
    cases isObj
    exact ⟨present, trivial⟩
  · exact inv

theorem Inv.cloneEvfd (kind : Kind) : (w.cloneEvfd pid kind).Inv [] := by
  unfold World.cloneEvfd
  split
  · exact inv
  rename_i objs id made
  obtain ⟨key, free, same⟩ := Option.map_eq_some_iff.mp made
  cases same
  have missing := Table.lookup_free free
  apply Inv.openEvfd
  refine inv.setObjs (fun o => ?_) ⟨inv.sane.closed, inv.sane.terms⟩ (by simp)
  cases o with
  | evfd kind n =>
    by_cases same : (kind, n) = key
    · subst same
      simp [Objects.refs, missing]
    · simp [Objects.refs, AList.lookup_insert_ne same]
  | file n | pipeRead n | pipeWrite n | ptyMaster n | ptySlave n => rfl

theorem Inv.claimSession (id : Nat) : (w.setObjs (w.objs.hangUp id)).Inv [] := by
  refine inv.setObjs (fun o => ?_) (inv.sane.setPtys fun p p' changed => ?_) (by simp)
  · rw [List.countP_nil, Nat.add_zero]
    cases found : w.objs.ptys.lookup id with
    | none =>
      have same : w.objs.ptys.adjust id (fun p => some (if p.terminal then { p with hangups := p.hangups + 1 } else p)) =
          w.objs.ptys := by
        rw [Table.adjust, found]
      rw [Objects.hangUp, same]
    | some p =>
      rw [Objects.hangUp, Objects.refs_setPtys found]
      split
      · rename_i isMaster
        rw [isMaster, Objects.refs_ptyMaster found]
        cases p.terminal <;> rfl
      split
      · rename_i isSlave
        rw [isSlave, Objects.refs_ptySlave found]
        cases p.terminal <;> rfl
      · rfl
  · cases changed
    cases terminal : p.terminal with
    | true => exact ⟨by simp, fun wrong => nomatch wrong⟩
    | false => exact ⟨by simp [terminal], fun _ => by simp⟩

theorem Inv.setPipes {pipes : Table Nat Pipe}
    (kept : ∀ id, ((pipes.lookup id).map Pipe.readers).getD 0 = w.objs.refs (.pipeRead id) ∧
      ((pipes.lookup id).map Pipe.writers).getD 0 = w.objs.refs (.pipeWrite id))
    (closed : ∀ id p, pipes.lookup id = some p → p.writeClosed = true → p.writers = 0 ∨ p.readers = 0) :
    (w.setObjs (w.objs.setPipes pipes)).Inv [] := by
  refine inv.setObjs (fun o => ?_) ⟨closed, inv.sane.terms⟩ (by simp)
  cases o with
  | pipeRead n => exact (kept n).1
  | pipeWrite n => exact (kept n).2
  | file n | ptyMaster n | ptySlave n | evfd kind n => rfl

theorem Inv.pipeAlloc {low high : Nat} {named : Bool} {objs : Objects} {id : Nat}
    (made : w.objs.pipeAlloc low high named = some (objs, id)) : (w.setObjs objs).Inv [] := by
  obtain ⟨id, free, same⟩ := Option.map_eq_some_iff.mp made
  cases same
  have missing := Table.lookup_free free
  refine inv.setPipes (fun n => ?_) fun n p found isClosed => ?_
  · by_cases same : n = id
    · subst same
      simp [Objects.refs, missing, Pipe.new]
    · simp [Objects.refs, AList.lookup_insert_ne same]
  · obtain ⟨rfl, rfl⟩ | ⟨_, found⟩ := Table.lookup_insert_some found
    · cases isClosed
    · exact inv.sane.closed n p found isClosed

theorem Inv.fifoUnlink (id : Nat) :
    (w.setObjs (w.objs.setPipes (w.objs.pipes.adjust id Pipe.unlink))).Inv [] := by
  refine inv.setPipes (fun n => ?_) fun n p found isClosed => ?_
  · by_cases same : n = id
    · subst same
      rw [Table.lookup_adjust]
      cases found : w.objs.pipes.lookup n with
      | none => simp [Objects.refs, found]
      | some p =>
        rw [Objects.refs_pipeRead found, Objects.refs_pipeWrite found, Option.bind_some, Pipe.unlink]
        split
        · rename_i idle
          rw [idle.1, idle.2]
          exact ⟨rfl, rfl⟩
        · exact ⟨rfl, rfl⟩
    · rw [Table.lookup_adjust_ne same]
      exact ⟨rfl, rfl⟩
  · obtain ⟨rfl, before, was, changed⟩ | ⟨_, found⟩ := Table.lookup_adjust_some found
    · obtain ⟨_, changed⟩ := Option.ite_none_left_eq_some.mp changed
      cases changed
      exact inv.sane.closed n before was isClosed
    · exact inv.sane.closed n p found isClosed

def fifoEnd (write : Bool) (id : Nat) : FdEntry := if write then .pipeWrite id else .pipeRead id

theorem Inv.attach {id : Nat} {p : Pipe} (found : w.objs.pipes.lookup id = some p) (write : Bool)
    (room : ∀ o, (fifoEnd write id).obj = some o → w.objs.room o) :
    (w.setObjs (w.objs.setPipes (w.objs.pipes.adjust id (some <| ·.attach (!write) write)))).Inv [fifoEnd write id] := by
  refine inv.setObjs (fun o => ?_) (inv.sane.setPipes fun before after was changed isClosed => ?_) fun e member => ?_
  · rw [countP_cons_names, List.countP_nil, Nat.zero_add]
    cases write with
    | true =>
      have room := room _ rfl
      rw [Objects.room, Objects.refs_pipeWrite found] at room
      apply Objects.Moves.up
      exact Objects.moves_pipeWrite found (Nat.min_eq_left room) rfl
    | false =>
      have room := room _ rfl
      rw [Objects.room, Objects.refs_pipeRead found] at room
      apply Objects.Moves.up
      exact Objects.moves_pipeRead found (Nat.min_eq_left room) rfl
  · cases changed
    exact Or.inl (beq_iff_eq.mp isClosed)
  · rw [List.mem_singleton.mp member]
    cases write <;> trivial

theorem Inv.openFifo {id : Nat} {flags : BitVec 32}
    (room : ∀ p, w.objs.pipes.lookup id = some p → ∀ o, (fifoEnd (flags &&& 3 == O_WRONLY) id).obj = some o →
      w.objs.room o) : (w.openFifo pid id flags).Inv [] := by
  unfold World.openFifo
  split
  · exact inv
  simp only
  split
  · exact inv
  rename_i p found
  split
  · exact inv
  · exact (inv.attach found _ (room p found)).putEntry

omit inv in
theorem entry_setFd_ne {fd other : Nat} (apart : other ≠ fd) (s : Slot) :
    (w.setFd pid fd s).entry pid other = w.entry pid other := by
  have keys : (pid, other) ≠ (pid, fd) := fun same => apart (Prod.mk.inj same).2
  rw [entry, World.setFd, AList.lookup_insert_ne keys]
  rfl

theorem Inv.pipeEnds {id : Nat} (missing : w.objs.pipes.lookup id = none) :
    (w.setObjs (({ w.objs with pipes := w.objs.pipes.insert id (Pipe.new false) } : Objects).addReader id |>.addWriter
      id)).Inv [.pipeRead id, .pipeWrite id] := by
  have own : (({ w.objs with pipes := w.objs.pipes.insert id (Pipe.new false) } : Objects).addReader id |>.addWriter
      id).pipes.lookup id = some { Pipe.new false with readers := 1, writers := 1 } := by
    simp [Objects.addWriter, Objects.addReader, Objects.setPipes, Pipe.new, Pipe.addReader, Pipe.addWriter, U8_MAX]
  have others {n : Nat} (apart : n ≠ id) : (({ w.objs with pipes := w.objs.pipes.insert id (Pipe.new false) } :
      Objects).addReader id |>.addWriter id).pipes.lookup n = w.objs.pipes.lookup n := by
    simp only [Objects.addWriter, Objects.addReader, Objects.setPipes]
    rw [Table.lookup_adjust_ne apart, Table.lookup_adjust_ne apart, AList.lookup_insert_ne apart]
  refine inv.setObjs (fun o => ?_) ⟨fun n p found isClosed => ?_, inv.sane.terms⟩ fun e member => ?_
  · cases o with
    | pipeRead n | pipeWrite n =>
      by_cases same : n = id
      · subst same
        simp [Objects.refs, own, missing, FdEntry.names, FdEntry.obj]
      · simp [Objects.refs, others same, FdEntry.names, FdEntry.obj, Ne.symm same]
    | file n | ptyMaster n | ptySlave n | evfd kind n => rfl
  · by_cases same : n = id
    · subst same
      rw [own] at found
      cases found
      cases isClosed
    · rw [others same] at found
      exact inv.sane.closed n p found isClosed
  · simp only [List.mem_cons, List.not_mem_nil, or_false] at member
    obtain rfl | rfl := member <;> trivial

theorem Inv.pipeOpen (cloexec : Bool) : (w.pipeOpen pid cloexec).Inv [] := by
  unfold World.pipeOpen
  cases made : w.objs.pipeAlloc 0 ANON_PIPES false with
  | none => exact inv
  | some both =>
    obtain ⟨objs, id⟩ := both
    simp only
    obtain ⟨id', free, same⟩ := Option.map_eq_some_iff.mp made
    cases same
    have missing := Table.lookup_free free
    have undone : (w.setObjs { w.objs with pipes := (w.objs.pipes.insert id (Pipe.new false)).erase id }).Inv [] := by
      refine inv.setPipes (fun n => ?_) fun n p found => ?_
      · by_cases same : n = id
        · subst same
          simp [Objects.refs, missing]
        · simp [Objects.refs, AList.lookup_erase_ne same, AList.lookup_insert_ne same]
      · obtain ⟨same, found⟩ := Table.lookup_erase_some found
        rw [AList.lookup_insert_ne same] at found
        exact inv.sane.closed n p found
    cases freeRead : w.freeFd pid 0 with
    | none => exact undone
    | some read =>
      simp only
      cases freeWrite : w.freeFd pid (read + 1) with
      | none => exact undone
      | some write =>
        have apart : write ≠ read := by
          obtain ⟨key, found, rfl⟩ := Option.map_eq_some_iff.mp freeWrite
          obtain ⟨n, member, rfl⟩ := List.mem_map.mp (List.mem_of_find?_eq_some found)
          have above := (List.mem_range'_1.mp member).1
          exact Nat.ne_of_gt above
        have made := inv.pipeEnds missing
        have put := made.putFree (freeFd_entry freeRead) cloexec
        refine put.putFree ?_ cloexec
        rw [entry_setFd_ne apart]
        exact freeFd_entry freeWrite

theorem Inv.dup2 {oldfd newfd : Nat}
    (room : oldfd ≠ newfd → ∀ e, w.entry pid oldfd = some e → ∀ o, e.obj = some o → w.objs.room o) (cloexec : Bool) :
    (w.dup2 pid oldfd newfd cloexec).Inv [] := by
  unfold World.dup2
  split
  · exact inv
  rename_i inside
  cases found : w.entry pid oldfd with
  | none => exact inv
  | some old =>
    have apart : oldfd ≠ newfd := fun same => inside (Or.inr (Or.inr same))
    have put := (inv.fdClone_entry found (room apart old found)).setFd pid newfd cloexec
    rw [entry_setObjs] at put
    simp only
    cases prev : w.entry pid newfd with
    | none =>
      rw [prev] at put
      exact put
    | some e =>
      rw [prev] at put
      exact put.fdDrop

theorem Inv.dupMin {oldfd minfd : Nat}
    (room : ∀ e, w.entry pid oldfd = some e → ∀ o, e.obj = some o → w.objs.room o) (cloexec : Bool) :
    (w.dupMin pid oldfd minfd cloexec).Inv [] := by
  unfold World.dupMin
  split
  · exact inv
  split
  · rename_i old fd found free
    exact (inv.fdClone_entry found (room old found)).putFree (freeFd_entry free) cloexec
  · exact inv

theorem Inv.setCloexec (fd : Nat) (on_ : Bool) : (w.setCloexec pid fd on_).Inv [] := by
  unfold World.setCloexec
  split
  · exact inv
  rename_i e found
  refine ⟨fun o => ?_, inv.sane, fun key s foundS => ?_, inv.held, fun _ wrong => nomatch wrong⟩
  · have named := names_setFd w pid fd ⟨e, on_⟩ o
    rw [found, Option.toList_some, countP_cons_names, List.countP_nil, Nat.zero_add] at named
    rw [Nat.add_right_cancel named]
    exact inv.counted o
  · obtain ⟨rfl, rfl⟩ | ⟨_, foundS⟩ := Table.lookup_insert_some foundS
    · exact entry_sound inv found
    · exact inv.fds key s foundS

theorem Inv.holdFd {fd : Nat}
    (room : ∀ e, w.entry pid fd = some e → ∀ o, e.obj = some o → w.objs.room o) : (w.hold pid fd).Inv [] := by
  unfold World.hold
  split
  · rename_i e i found free
    exact (inv.fdClone_entry found (room e found)).hold (Table.lookup_free free)
  · exact inv

theorem Inv.install (token : Nat) (cloexec : Bool) : (w.install pid token cloexec).Inv [] := by
  unfold World.install
  split
  · exact inv
  split
  · rename_i e fd found free
    exact (inv.unhold found).putFree (freeFd_entry free) cloexec
  · exact inv

theorem Inv.release (token : Nat) : (w.release token).Inv [] := by
  unfold World.release
  split
  · exact inv
  split
  · rename_i e found
    exact (inv.unhold found).fdDrop
  · exact inv

end Myos.Task.Fd.World
