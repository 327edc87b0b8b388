import Myos.Task.FdRun

namespace Myos.Task.Fd
open Lib

namespace World

variable (w : World)

def names (o : Obj) : Nat := w.fds.count (fun _ s => s.entry.names o) + w.held.count fun _ e => e.names o

def kernelHeld : Obj → Nat
  | .ptyMaster id => if id < TERMS then 1 else 0
  | _ => 0

/-- Counts are right, and an object is freed, or an end of it reported closed, only with no entry left that
names it. -/
structure RefCounts (w : World) : Prop where
  counted : ∀ o, w.objs.refs o = w.names o + kernelHeld o
  freed : ∀ o, w.objs.exists_ o = false → w.names o = 0
  eof : ∀ id, w.names (.pipeRead id) ≠ 0 → w.objs.readClosed id = true → w.names (.pipeWrite id) = 0
  epipe : ∀ id, w.objs.readersGone id = true → w.names (.pipeRead id) = 0
  masterHup : ∀ id, w.objs.masterHup id = true → w.names (.ptySlave id) = 0
  slaveHup : ∀ pid fd id hangups, w.entry pid fd = some (.ptySlave id hangups) → w.objs.slaveHup id hangups = true →
    w.names (.ptyMaster id) = 0

end World

def FdEntry.sound : FdEntry → Prop
  | .ptyMaster id => TERMS ≤ id
  | .ptySlave id hangups => TERMS ≤ id → hangups = 0
  | _ => True

namespace Objects

variable {s : Objects} {e : FdEntry} {o : Obj}

theorem exists_of_refs (counted : s.refs o ≠ 0) : s.exists_ o = true := by
  cases o <;> simp only [refs, exists_] at counted ⊢ <;>
    refine Option.isSome_iff_ne_none.mpr fun missing => counted ?_ <;> rw [missing] <;> rfl

def room (s : Objects) : Obj → Prop
  | .pipeRead id => s.refs (.pipeRead id) < U8_MAX
  | .pipeWrite id => s.refs (.pipeWrite id) < U8_MAX
  | _ => True

variable {id : Nat} {p : Pipe} {change : Pipe → Option Pipe}

theorem refs_setPipes (found : s.pipes.lookup id = some p) (change : Pipe → Option Pipe) (o : Obj) :
    (s.setPipes (s.pipes.adjust id change)).refs o =
      if o = .pipeRead id then ((change p).map Pipe.readers).getD 0
      else if o = .pipeWrite id then ((change p).map Pipe.writers).getD 0
      else s.refs o := by
  cases o with
  | pipeRead n | pipeWrite n =>
    by_cases same : n = id
    · subst same
      simp [refs, setPipes, found]
    · simp [refs, setPipes, Table.lookup_adjust_ne same, same]
  | file n | ptyMaster n | ptySlave n | evfd kind n => simp [refs, setPipes]

theorem refs_setPtys {p : Pty} (found : s.ptys.lookup id = some p) (change : Pty → Option Pty) (o : Obj) :
    ({ s with ptys := s.ptys.adjust id change } : Objects).refs o =
      if o = .ptyMaster id then ((change p).map Pty.masterRefs).getD 0
      else if o = .ptySlave id then ((change p).map Pty.slaveRefs).getD 0
      else s.refs o := by
  cases o with
  | ptyMaster n | ptySlave n =>
    by_cases same : n = id
    · subst same
      simp [refs, found]
    · simp [refs, Table.lookup_adjust_ne same, same]
  | file n | pipeRead n | pipeWrite n | evfd kind n => simp [refs]

theorem refs_setFiles {f : OpenFile} (found : s.files.lookup id = some f)
    (change : OpenFile → Option OpenFile) (o : Obj) :
    ({ s with files := s.files.adjust id change } : Objects).refs o =
      if o = .file id then ((change f).map OpenFile.refs).getD 0 else s.refs o := by
  cases o with
  | file n =>
    by_cases same : n = id
    · subst same
      simp [refs, found]
    · simp [refs, Table.lookup_adjust_ne same, same]
  | pipeRead n | pipeWrite n | ptyMaster n | ptySlave n | evfd kind n => simp [refs]

theorem refs_setEvfds {kind : Kind} {fds : Nat} (found : s.evfds.lookup (kind, id) = some fds)
    (change : Nat → Option Nat) (o : Obj) :
    ({ s with evfds := s.evfds.adjust (kind, id) change } : Objects).refs o =
      if o = .evfd kind id then (change fds).getD 0 else s.refs o := by
  cases o with
  | evfd kind' n =>
    by_cases same : (kind', n) = (kind, id)
    · obtain ⟨rfl, rfl⟩ := Prod.mk.inj same
      simp [refs, found]
    have apart : Obj.evfd kind' n ≠ .evfd kind id := by
      intro equal
      injection equal with sameKind sameId
      exact same (by rw [sameKind, sameId])
    simp [refs, Table.lookup_adjust_ne same, apart]
  | file n | pipeRead n | pipeWrite n | ptyMaster n | ptySlave n => simp [refs]

theorem refs_pipeRead (found : s.pipes.lookup id = some p) : s.refs (.pipeRead id) = p.readers := by
  simp [refs, found]

theorem refs_pipeWrite (found : s.pipes.lookup id = some p) : s.refs (.pipeWrite id) = p.writers := by
  simp [refs, found]

theorem refs_ptyMaster {p : Pty} (found : s.ptys.lookup id = some p) : s.refs (.ptyMaster id) = p.masterRefs := by
  simp [refs, found]

theorem refs_ptySlave {p : Pty} (found : s.ptys.lookup id = some p) : s.refs (.ptySlave id) = p.slaveRefs := by
  simp [refs, found]

def Moves (s s' : Objects) (own : Obj) (move : Nat → Nat) : Prop :=
  ∀ o, s'.refs o = if o = own then move (s.refs own) else s.refs o

theorem Moves.up {s' : Objects} {own : Obj} (moved : s.Moves s' own (· + 1)) (o : Obj) :
    s'.refs o = s.refs o + (some own == some o).toNat := by
  rw [moved o]
  split
  · rename_i same
    simp [same]
  · rename_i apart
    simp [Ne.symm apart]

theorem Moves.down {s' : Objects} {own : Obj} (moved : s.Moves s' own (· - 1)) (o : Obj) :
    s'.refs o = s.refs o - (some own == some o).toNat := by
  rw [moved o]
  split
  · rename_i same
    simp [same]
  · rename_i apart
    simp [beq_false_of_ne (Ne.symm apart)]

variable {move : Nat → Nat}

theorem moves_pipeRead (found : s.pipes.lookup id = some p)
    (own : ((change p).map Pipe.readers).getD 0 = move p.readers)
    (kept : ((change p).map Pipe.writers).getD 0 = p.writers) :
    s.Moves (s.setPipes (s.pipes.adjust id change)) (.pipeRead id) move := by
  intro o
  rw [refs_setPipes found, refs_pipeRead found, own, kept, ← refs_pipeWrite found]
  split
  · rfl
  split
  · rename_i peer
    rw [peer]
  · rfl

theorem moves_pipeWrite (found : s.pipes.lookup id = some p)
    (own : ((change p).map Pipe.writers).getD 0 = move p.writers)
    (kept : ((change p).map Pipe.readers).getD 0 = p.readers) :
    s.Moves (s.setPipes (s.pipes.adjust id change)) (.pipeWrite id) move := by
  intro o
  rw [refs_setPipes found, refs_pipeWrite found, own, kept, ← refs_pipeRead found]
  split
  · rename_i peer
    simp [peer]
  · rfl

theorem moves_ptyMaster {p : Pty} {change : Pty → Option Pty} (found : s.ptys.lookup id = some p)
    (own : ((change p).map Pty.masterRefs).getD 0 = move p.masterRefs)
    (kept : ((change p).map Pty.slaveRefs).getD 0 = p.slaveRefs) :
    s.Moves { s with ptys := s.ptys.adjust id change } (.ptyMaster id) move := by
  intro o
  rw [refs_setPtys found, refs_ptyMaster found, own, kept, ← refs_ptySlave found]
  split
  · rfl
  split
  · rename_i peer
    rw [peer]
  · rfl

theorem moves_ptySlave {p : Pty} {change : Pty → Option Pty} (found : s.ptys.lookup id = some p)
    (own : ((change p).map Pty.slaveRefs).getD 0 = move p.slaveRefs)
    (kept : ((change p).map Pty.masterRefs).getD 0 = p.masterRefs) :
    s.Moves { s with ptys := s.ptys.adjust id change } (.ptySlave id) move := by
  intro o
  rw [refs_setPtys found, refs_ptySlave found, own, kept, ← refs_ptyMaster found]
  split
  · rename_i peer
    simp [peer]
  · rfl

theorem refs_fdClone (live : ∀ o, e.obj = some o → s.exists_ o = true ∧ s.room o) (o : Obj) :
    (s.fdClone e).refs o = s.refs o + (e.names o).toNat := by
  cases e with
  | stdin | console => rfl
  | file id =>
    obtain ⟨f, found⟩ := Option.isSome_iff_exists.mp (live _ rfl).1
    refine Moves.up (fun o => ?_) o
    rw [fdClone, openFileRef, refs_setFiles found]
    simp [refs, found]
  | pipeRead id =>
    obtain ⟨present, room⟩ := live _ rfl
    obtain ⟨p, found⟩ := Option.isSome_iff_exists.mp present
    rw [Objects.room, refs_pipeRead found] at room
    apply Moves.up
    exact moves_pipeRead found (Nat.min_eq_left room) rfl
  | pipeWrite id =>
    obtain ⟨present, room⟩ := live _ rfl
    obtain ⟨p, found⟩ := Option.isSome_iff_exists.mp present
    rw [Objects.room, refs_pipeWrite found] at room
    apply Moves.up
    exact moves_pipeWrite found (Nat.min_eq_left room) rfl
  | ptyMaster id =>
    obtain ⟨p, found⟩ := Option.isSome_iff_exists.mp (live _ rfl).1
    exact (moves_ptyMaster found rfl rfl).up o
  | ptySlave id hangups =>
    obtain ⟨p, found⟩ := Option.isSome_iff_exists.mp (live _ rfl).1
    exact (moves_ptySlave found rfl rfl).up o
  | evfd kind id =>
    obtain ⟨fds, found⟩ := Option.isSome_iff_exists.mp (live _ rfl).1
    refine Moves.up (fun o => ?_) o
    rw [fdClone, evfdRef, refs_setEvfds found]
    simp [refs, found]

theorem Pipe.release_counts (p : Pipe) :
    ((p.release).map Pipe.readers).getD 0 = p.readers ∧ ((p.release).map Pipe.writers).getD 0 = p.writers := by
  unfold Pipe.release
  split
  · exact ⟨rfl, rfl⟩
  rename_i idle
  simp only [ne_eq, not_or, not_not] at idle
  split
  · exact ⟨rfl, rfl⟩
  · rw [idle.1, idle.2]
    exact ⟨rfl, rfl⟩

theorem Pty.orDead_counts (p : Pty) :
    ((Pty.orDead p).map Pty.masterRefs).getD 0 = p.masterRefs ∧
      ((Pty.orDead p).map Pty.slaveRefs).getD 0 = p.slaveRefs := by
  unfold Pty.orDead
  split
  · rename_i dead
    rw [dead.1, dead.2]
    exact ⟨rfl, rfl⟩
  · exact ⟨rfl, rfl⟩

theorem dropMaster_counts (p : Pty) {left : Option Pty} (dropped : (if p.masterRefs = 1 then
    Pty.orDead { p with masterRefs := p.masterRefs - 1 } else some { p with masterRefs := p.masterRefs - 1 }) = left) :
    (left.map Pty.masterRefs).getD 0 = p.masterRefs - 1 ∧ (left.map Pty.slaveRefs).getD 0 = p.slaveRefs := by
  subst dropped
  split
  · exact Pty.orDead_counts { p with masterRefs := p.masterRefs - 1 }
  · exact ⟨rfl, rfl⟩

theorem refs_fdDrop (counted : ∀ o, e.obj = some o → s.refs o ≠ 0) (o : Obj) :
    (s.fdDrop e).refs o = s.refs o - (e.names o).toNat := by
  have live (o : Obj) (isObj : e.obj = some o) : s.exists_ o = true := exists_of_refs (counted o isObj)
  cases e with
  | stdin | console => rfl
  | file id =>
    obtain ⟨f, found⟩ := Option.isSome_iff_exists.mp (live _ rfl)
    refine Moves.down (fun o => ?_) o
    rw [fdDrop, openFileUnref, refs_setFiles found]
    simp only [refs, found, Option.map_some, Option.getD_some]
    congr 1
    split
    · rfl
    · simp only [Option.map_none, Option.getD_none]
      omega
  | pipeRead id =>
    obtain ⟨p, found⟩ := Option.isSome_iff_exists.mp (live _ rfl)
    have left := Pipe.release_counts
      { p with readers := p.readers - 1, writeClosed := p.readers - 1 == 0 || p.writeClosed }
    exact (moves_pipeRead found left.1 left.2).down o
  | pipeWrite id =>
    obtain ⟨p, found⟩ := Option.isSome_iff_exists.mp (live _ rfl)
    have left := Pipe.release_counts
      { p with writers := p.writers - 1, writeClosed := p.writers - 1 == 0 || p.writeClosed }
    exact (moves_pipeWrite found left.2 left.1).down o
  | ptyMaster id =>
    obtain ⟨p, found⟩ := Option.isSome_iff_exists.mp (live _ rfl)
    obtain ⟨own, kept⟩ := dropMaster_counts p rfl
    exact (moves_ptyMaster found own kept).down o
  | ptySlave id hangups =>
    obtain ⟨p, found⟩ := Option.isSome_iff_exists.mp (live _ rfl)
    have left := Pty.orDead_counts { p with slaveRefs := p.slaveRefs - 1 }
    exact (moves_ptySlave found left.2 left.1).down o
  | evfd kind id =>
    obtain ⟨fds, found⟩ := Option.isSome_iff_exists.mp (live _ rfl)
    refine Moves.down (fun o => ?_) o
    rw [fdDrop, evfdDrop, refs_setEvfds found]
    simp only [refs, found, Option.getD_some]
    congr 1
    split
    · rename_i last
      rw [last]
      rfl
    · rfl

structure Sane (s : Objects) : Prop where
  closed : ∀ id p, s.pipes.lookup id = some p → p.writeClosed = true → p.writers = 0 ∨ p.readers = 0
  terms : ∀ id p, s.ptys.lookup id = some p → p.terminal = decide (id < TERMS) ∧ (TERMS ≤ id → p.hangups = 0)

theorem Sane.setPipes (sane : s.Sane)
    (kept : ∀ p p', s.pipes.lookup id = some p → change p = some p' → p'.writeClosed = true →
      p'.writers = 0 ∨ p'.readers = 0) : (s.setPipes (s.pipes.adjust id change)).Sane := by
  refine ⟨fun n p found => ?_, sane.terms⟩
  obtain ⟨rfl, before, was, changed⟩ | ⟨_, found⟩ := Table.lookup_adjust_some found
  · exact kept before p was changed
  · exact sane.closed n p found

theorem Sane.setPtys (sane : s.Sane) {change : Pty → Option Pty}
    (kept : ∀ p p', change p = some p' → p'.terminal = p.terminal ∧ (p.terminal = false → p'.hangups = p.hangups)) :
    ({ s with ptys := s.ptys.adjust id change } : Objects).Sane := by
  refine ⟨sane.closed, fun n p found => ?_⟩
  obtain ⟨rfl, before, was, changed⟩ | ⟨_, found⟩ := Table.lookup_adjust_some found
  · obtain ⟨terminal, hangups⟩ := kept before p changed
    obtain ⟨isTerm, quiet⟩ := sane.terms n before was
    refine ⟨terminal.trans isTerm, fun above => ?_⟩
    rw [hangups (by rw [isTerm]; simpa using above)]
    exact quiet above
  · exact sane.terms n p found

theorem Pipe.release_closed {p' : Pipe} (left : p.release = some p')
    (closed : p.writeClosed = true → p.writers = 0 ∨ p.readers = 0) (isClosed : p'.writeClosed = true) :
    p'.writers = 0 ∨ p'.readers = 0 := by
  unfold Pipe.release at left
  split at left
  · cases left
    exact closed isClosed
  split at left
  · cases left
    cases isClosed
  · cases left

theorem Sane.fdClone (sane : s.Sane) (counted : ∀ o, e.obj = some o → s.refs o ≠ 0) : (s.fdClone e).Sane := by
  cases e with
  | stdin | console => exact sane
  | file id | evfd kind id => exact ⟨sane.closed, sane.terms⟩
  | pipeRead id =>
    refine sane.setPipes fun p p' found changed isClosed => ?_
    cases changed
    have held := counted _ rfl
    rw [refs_pipeRead found] at held
    exact Or.inl ((sane.closed id p found isClosed).resolve_right held)
  | pipeWrite id =>
    refine sane.setPipes fun p p' found changed isClosed => ?_
    cases changed
    have held := counted _ rfl
    rw [refs_pipeWrite found] at held
    exact Or.inr ((sane.closed id p found isClosed).resolve_left held)
  | ptyMaster id | ptySlave id hangups =>
    refine sane.setPtys fun p p' changed => ?_
    cases changed
    exact ⟨rfl, fun _ => rfl⟩

theorem Pty.orDead_some {p p' : Pty} (left : Pty.orDead p = some p') : p' = p := by
  unfold Pty.orDead at left
  split at left
  · cases left
  · exact (Option.some.inj left).symm

theorem Sane.fdDrop (sane : s.Sane) : (s.fdDrop e).Sane := by
  cases e with
  | stdin | console => exact sane
  | file id | evfd kind id => exact ⟨sane.closed, sane.terms⟩
  | pipeRead id =>
    refine sane.setPipes fun p p' found changed isClosed => ?_
    refine Pipe.release_closed changed (fun wasClosed => ?_) isClosed
    simp only [Bool.or_eq_true, beq_iff_eq] at wasClosed
    obtain last | wasClosed := wasClosed
    · exact Or.inr last
    · obtain noWriter | noReader := sane.closed id p found wasClosed
      · exact Or.inl noWriter
      · exact Or.inr (by simp only [noReader])
  | pipeWrite id =>
    refine sane.setPipes fun p p' found changed isClosed => ?_
    refine Pipe.release_closed changed (fun wasClosed => ?_) isClosed
    simp only [Bool.or_eq_true, beq_iff_eq] at wasClosed
    obtain last | wasClosed := wasClosed
    · exact Or.inl last
    · obtain noWriter | noReader := sane.closed id p found wasClosed
      · exact Or.inl (by simp only [noWriter])
      · exact Or.inr noReader
  | ptyMaster id =>
    refine sane.setPtys fun p p' changed => ?_
    split at changed
    · rw [Pty.orDead_some changed]
      exact ⟨rfl, fun _ => rfl⟩
    · cases changed
      exact ⟨rfl, fun _ => rfl⟩
  | ptySlave id hangups =>
    refine sane.setPtys fun p p' changed => ?_
    rw [Pty.orDead_some changed]
    exact ⟨rfl, fun _ => rfl⟩

end Objects
end Myos.Task.Fd
