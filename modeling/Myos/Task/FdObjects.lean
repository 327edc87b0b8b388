import Myos.Lib.Table

namespace Myos.Task.Fd
open Lib

def ANON_PIPES : Nat := 64
def MAX_PIPES : Nat := ANON_PIPES + 24
def U8_MAX : Nat := 255
def MAX_OPEN_FILES : Nat := 2048
def TERMS : Nat := 10

structure Pipe where
  readers : Nat
  writers : Nat
  writeClosed : Bool
  named : Bool
  readOpens : BitVec 32
  writeOpens : BitVec 32
deriving DecidableEq

structure OpenFile where
  node : Nat
  readable : Bool
  writable : Bool
  append : Bool
  refs : Nat
deriving DecidableEq

structure Pty where
  terminal : Bool
  masterRefs : Nat
  slaveRefs : Nat
  hangups : BitVec 32
deriving DecidableEq

inductive Kind
  | event
  | timer
  | wait
  | sig
deriving DecidableEq

inductive FdEntry
  | stdin
  | console
  | file (id : Nat)
  | pipeRead (id : Nat)
  | pipeWrite (id : Nat)
  | ptyMaster (id : Nat)
  | ptySlave (id : Nat) (hangups : BitVec 32)
  | evfd (kind : Kind) (id : Nat)
deriving DecidableEq

inductive Obj
  | file (id : Nat)
  | pipeRead (id : Nat)
  | pipeWrite (id : Nat)
  | ptyMaster (id : Nat)
  | ptySlave (id : Nat)
  | evfd (kind : Kind) (id : Nat)
deriving DecidableEq

def FdEntry.obj : FdEntry → Option Obj
  | .stdin | .console => none
  | .file id => some (.file id)
  | .pipeRead id => some (.pipeRead id)
  | .pipeWrite id => some (.pipeWrite id)
  | .ptyMaster id => some (.ptyMaster id)
  | .ptySlave id _ => some (.ptySlave id)
  | .evfd kind id => some (.evfd kind id)

def FdEntry.names (e : FdEntry) (o : Obj) : Bool := e.obj == some o

structure Objects where
  pipes : Table Nat Pipe
  files : Table Nat OpenFile
  ptys : Table Nat Pty
  evfds : Table (Kind × Nat) Nat

namespace Pipe

variable (p : Pipe)

def new (named : Bool) : Pipe := ⟨0, 0, false, named, 0, 0⟩

def addReader : Pipe := { p with readers := min (p.readers + 1) U8_MAX }

def addWriter : Pipe := { p with writers := min (p.writers + 1) U8_MAX }

def release : Option Pipe :=
  if p.readers ≠ 0 ∨ p.writers ≠ 0 then some p
  else if p.named then some { p with writeClosed := false }
  else none

def dropReader : Option Pipe :=
  let readers := p.readers - 1
  release { p with readers, writeClosed := readers == 0 || p.writeClosed }

def dropWriter : Option Pipe :=
  let writers := p.writers - 1
  release { p with writers, writeClosed := writers == 0 || p.writeClosed }

def unlink : Option Pipe := if p.readers = 0 ∧ p.writers = 0 then none else some { p with named := false }

def attach (read write : Bool) : Pipe :=
  let readers := if read then min (p.readers + 1) U8_MAX else p.readers
  let writers := if write then min (p.writers + 1) U8_MAX else p.writers
  { p with
    readers, writers
    readOpens := if read then p.readOpens + 1 else p.readOpens
    writeOpens := if write then p.writeOpens + 1 else p.writeOpens
    writeClosed := writers == 0 }

end Pipe

namespace Objects

variable (s : Objects)

def setPipes (pipes : Table Nat Pipe) : Objects := { s with pipes }

def pipeAlloc (low high : Nat) (named : Bool) : Option (Objects × Nat) :=
  (s.pipes.free (List.range' low (high - low))).map fun id => ({ s with pipes := s.pipes.insert id (.new named) }, id)

def addReader (id : Nat) : Objects := s.setPipes (s.pipes.adjust id (some ·.addReader))

def addWriter (id : Nat) : Objects := s.setPipes (s.pipes.adjust id (some ·.addWriter))

def openFileAlloc (node : Nat) (readable writable append : Bool) : Option (Objects × Nat) :=
  (s.files.free (List.range MAX_OPEN_FILES)).map fun id =>
    ({ s with files := s.files.insert id ⟨node, readable, writable, append, 1⟩ }, id)

def openFileRef (id : Nat) : Objects := { s with files := s.files.adjust id fun f => some { f with refs := f.refs + 1 } }

def openFileUnref (id : Nat) : Objects :=
  { s with files := s.files.adjust id fun f => if 1 < f.refs then some { f with refs := f.refs - 1 } else none }

def ptyAlloc : Option (Objects × Nat) :=
  (s.ptys.free (List.range (s.ptys.keys.length + 1))).map fun id =>
    ({ s with ptys := s.ptys.insert id ⟨false, 1, 0, 0⟩ }, id)

def masterRef (id : Nat) : Objects :=
  { s with ptys := s.ptys.adjust id fun p => some { p with masterRefs := p.masterRefs + 1 } }

def slaveRef (id : Nat) : Objects :=
  { s with ptys := s.ptys.adjust id fun p => some { p with slaveRefs := p.slaveRefs + 1 } }

def Pty.orDead (p : Pty) : Option Pty := if p.masterRefs = 0 ∧ p.slaveRefs = 0 then none else some p

def dropMaster (id : Nat) : Objects :=
  { s with ptys := s.ptys.adjust id fun p =>
      let left := { p with masterRefs := p.masterRefs - 1 }
      if p.masterRefs = 1 then Pty.orDead left else some left }

def dropSlave (id : Nat) : Objects :=
  { s with ptys := s.ptys.adjust id fun p => Pty.orDead { p with slaveRefs := p.slaveRefs - 1 } }

def evfdAlloc (kind : Kind) : Option (Objects × Nat) :=
  (s.evfds.free ((List.range (s.evfds.keys.length + 1)).map (kind, ·))).map fun key =>
    ({ s with evfds := s.evfds.insert key 0 }, key.2)

def evfdRef (kind : Kind) (id : Nat) : Objects := { s with evfds := s.evfds.adjust (kind, id) fun fds => some (fds + 1) }

def evfdDrop (kind : Kind) (id : Nat) : Objects :=
  { s with evfds := s.evfds.adjust (kind, id) fun fds => if fds = 1 then none else some (fds - 1) }

def fdClone : FdEntry → Objects
  | .stdin | .console => s
  | .file id => s.openFileRef id
  | .pipeRead id => s.addReader id
  | .pipeWrite id => s.addWriter id
  | .ptyMaster id => s.masterRef id
  | .ptySlave id _ => s.slaveRef id
  | .evfd kind id => s.evfdRef kind id

def fdDrop : FdEntry → Objects
  | .stdin | .console => s
  | .file id => s.openFileUnref id
  | .pipeRead id => s.setPipes (s.pipes.adjust id Pipe.dropReader)
  | .pipeWrite id => s.setPipes (s.pipes.adjust id Pipe.dropWriter)
  | .ptyMaster id => s.dropMaster id
  | .ptySlave id _ => s.dropSlave id
  | .evfd kind id => s.evfdDrop kind id

def refs : Obj → Nat
  | .file id => ((s.files.lookup id).map OpenFile.refs).getD 0
  | .pipeRead id => ((s.pipes.lookup id).map Pipe.readers).getD 0
  | .pipeWrite id => ((s.pipes.lookup id).map Pipe.writers).getD 0
  | .ptyMaster id => ((s.ptys.lookup id).map Pty.masterRefs).getD 0
  | .ptySlave id => ((s.ptys.lookup id).map Pty.slaveRefs).getD 0
  | .evfd kind id => (s.evfds.lookup (kind, id)).getD 0

def exists_ : Obj → Bool
  | .file id => (s.files.lookup id).isSome
  | .pipeRead id | .pipeWrite id => (s.pipes.lookup id).isSome
  | .ptyMaster id | .ptySlave id => (s.ptys.lookup id).isSome
  | .evfd kind id => (s.evfds.lookup (kind, id)).isSome

def readClosed (id : Nat) : Bool := (s.pipes.lookup id).any Pipe.writeClosed

def readersGone (id : Nat) : Bool := (s.pipes.lookup id).all fun p => p.readers == 0

def masterHup (id : Nat) : Bool := (s.ptys.lookup id).all fun p => p.slaveRefs == 0

def slaveHup (id : Nat) (hangups : BitVec 32) : Bool :=
  (s.ptys.lookup id).all fun p => p.masterRefs == 0 || p.hangups != hangups

def hangUp (id : Nat) : Objects :=
  { s with ptys := s.ptys.adjust id fun p => some (if p.terminal then { p with hangups := p.hangups + 1 } else p) }

def hangups (id : Nat) : BitVec 32 := ((s.ptys.lookup id).map Pty.hangups).getD 0

end Objects
end Myos.Task.Fd
