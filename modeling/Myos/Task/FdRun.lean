import Myos.Lib.Consts
import Myos.Lib.System
import Myos.Task.FdObjects

namespace Myos.Task.Fd
open Lib

def MAX_FDS : Nat := 256

abbrev Pid := Nat

structure Slot where
  entry : FdEntry
  cloexec : Bool
deriving DecidableEq

structure World where
  objs : Objects
  fds : Table (Pid × Nat) Slot
  held : Table Nat FdEntry

inductive OpenHook
  | pass
  | refuse
deriving DecidableEq

inductive Event
  | spawn (pid : Pid)
  | pipeOpen (pid : Pid) (cloexec : Bool)
  | open_ (pid : Pid) (node : Nat) (flags : BitVec 32) (hook : OpenHook)
  | mkfifo
  | fifoUnlink (id : Nat)
  | openFifo (pid : Pid) (id : Nat) (flags : BitVec 32)
  | openEvfd (pid : Pid) (kind : Kind) (id : Nat)
  | cloneEvfd (pid : Pid) (kind : Kind)
  | openPtyMaster (pid : Pid)
  | openPtySlave (pid : Pid) (id : Nat)
  | claimSession (id : Nat)
  | dup2 (pid : Pid) (oldfd newfd : Nat) (cloexec : Bool)
  | dupMin (pid : Pid) (oldfd minfd : Nat) (cloexec : Bool)
  | setCloexec (pid : Pid) (fd : Nat) (on_ : Bool)
  | fork (parent child : Pid) (fails : Bool)
  | hold (pid : Pid) (fd : Nat)
  | install (pid : Pid) (token : Nat) (cloexec : Bool)
  | release (token : Nat)
  | close (pid : Pid) (fd : Nat)
  | closeOnExec (pid : Pid)
  | exit (pid : Pid)
deriving DecidableEq

namespace World

variable (w : World)

def entry (pid : Pid) (fd : Nat) : Option FdEntry := (w.fds.lookup (pid, fd)).map Slot.entry

def setObjs (objs : Objects) : World := { w with objs }

def setFd (pid : Pid) (fd : Nat) (s : Slot) : World := { w with fds := w.fds.insert (pid, fd) s }

def clearFd (pid : Pid) (fd : Nat) : World := { w with fds := w.fds.erase (pid, fd) }

def freeFd (pid : Pid) (minfd : Nat) : Option Nat :=
  (w.fds.free ((List.range' minfd (MAX_FDS - minfd)).map (pid, ·))).map Prod.snd

def putEntry (pid : Pid) (e : FdEntry) : World :=
  match w.freeFd pid 0 with
  | some fd => w.setFd pid fd ⟨e, false⟩
  | none => w.setObjs (w.objs.fdDrop e)

def pipeOpen (pid : Pid) (cloexec : Bool) : World :=
  match w.objs.pipeAlloc 0 ANON_PIPES false with
  | none => w
  | some (objs, id) =>
    match w.freeFd pid 0 with
    | none => w.setObjs { objs with pipes := objs.pipes.erase id }
    | some read =>
      match w.freeFd pid (read + 1) with
      | none => w.setObjs { objs with pipes := objs.pipes.erase id }
      | some write =>
        ((w.setObjs ((objs.addReader id).addWriter id)).setFd pid read ⟨.pipeRead id, cloexec⟩).setFd pid write
          ⟨.pipeWrite id, cloexec⟩

def O_WRONLY : BitVec 32 := 1
def O_RDWR : BitVec 32 := 2
def O_APPEND : BitVec 32 := 0o2000
def O_NONBLOCK : BitVec 32 := 0o4000

def open_ (pid : Pid) (node : Nat) (flags : BitVec 32) : OpenHook → World
  | .refuse => w
  | .pass =>
    match w.objs.openFileAlloc node (flags &&& 3 != O_WRONLY) (flags &&& 3 == O_WRONLY || flags &&& 3 == O_RDWR)
        (flags &&& O_APPEND != 0) with
    | none => w
    | some (objs, id) => (w.setObjs objs).putEntry pid (.file id)

def openFifo (pid : Pid) (id : Nat) (flags : BitVec 32) : World :=
  if flags &&& 3 = O_RDWR then w
  else
    let write := flags &&& 3 == O_WRONLY
    match w.objs.pipes.lookup id with
    | none => w
    | some p =>
      if write && flags &&& O_NONBLOCK != 0 && p.readers == 0 then w
      else
        (w.setObjs (w.objs.setPipes (w.objs.pipes.adjust id (some <| ·.attach (!write) write)))).putEntry pid
          (if write then .pipeWrite id else .pipeRead id)

def openEvfd (pid : Pid) (kind : Kind) (id : Nat) : World :=
  if (w.objs.evfds.lookup (kind, id)).isSome then (w.setObjs (w.objs.evfdRef kind id)).putEntry pid (.evfd kind id)
  else w

def cloneEvfd (pid : Pid) (kind : Kind) : World :=
  match w.objs.evfdAlloc kind with
  | none => w
  | some (objs, id) => (w.setObjs objs).openEvfd pid kind id

def openPtyMaster (pid : Pid) : World :=
  match w.objs.ptyAlloc with
  | none => w
  | some (objs, id) => (w.setObjs objs).putEntry pid (.ptyMaster id)

def openPtySlave (pid : Pid) (id : Nat) : World :=
  if (w.objs.ptys.lookup id).isSome then
    match w.freeFd pid 0 with
    | none => w
    | some fd => (w.setFd pid fd ⟨.ptySlave id (w.objs.hangups id), false⟩).setObjs (w.objs.slaveRef id)
  else w

def close (pid : Pid) (fd : Nat) : World :=
  match w.entry pid fd with
  | none => w
  | some e => (w.clearFd pid fd).setObjs (w.objs.fdDrop e)

def dup2 (pid : Pid) (oldfd newfd : Nat) (cloexec : Bool) : World :=
  if MAX_FDS ≤ oldfd ∨ MAX_FDS ≤ newfd ∨ oldfd = newfd then w
  else
    match w.entry pid oldfd with
    | none => w
    | some old =>
      let made := (w.setObjs (w.objs.fdClone old)).setFd pid newfd ⟨old, cloexec⟩
      match w.entry pid newfd with
      | none => made
      | some prev => made.setObjs (made.objs.fdDrop prev)

def dupMin (pid : Pid) (oldfd minfd : Nat) (cloexec : Bool) : World :=
  if MAX_FDS ≤ oldfd ∨ MAX_FDS ≤ minfd then w
  else
    match w.entry pid oldfd, w.freeFd pid minfd with
    | some old, some fd => (w.setObjs (w.objs.fdClone old)).setFd pid fd ⟨old, cloexec⟩
    | _, _ => w

def setCloexec (pid : Pid) (fd : Nat) (on_ : Bool) : World :=
  match w.entry pid fd with
  | none => w
  | some e => w.setFd pid fd ⟨e, on_⟩

def forkFd (parent child : Pid) (fd : Nat) : World :=
  match w.fds.lookup (parent, fd) with
  | none => w
  | some s => (w.setObjs (w.objs.fdClone s.entry)).setFd child fd s

def exit (pid : Pid) : World := (List.range MAX_FDS).foldl (fun w fd => w.close pid fd) w

def fork (parent child : Pid) (fails : Bool) : World :=
  let forked := (List.range MAX_FDS).foldl (fun w fd => w.forkFd parent child fd) w
  if fails then forked.exit child else forked

def hold (pid : Pid) (fd : Nat) : World :=
  match w.entry pid fd, w.held.free (List.range (w.held.keys.length + 1)) with
  | some e, some i => { w.setObjs (w.objs.fdClone e) with held := w.held.insert i e }
  | _, _ => w

def install (pid : Pid) (token : Nat) (cloexec : Bool) : World :=
  match token with
  | 0 => w
  | i + 1 =>
    match w.held.lookup i, w.freeFd pid 0 with
    | some e, some fd => { w.setFd pid fd ⟨e, cloexec⟩ with held := w.held.erase i }
    | _, _ => w

def release (token : Nat) : World :=
  match token with
  | 0 => w
  | i + 1 =>
    match w.held.lookup i with
    | some e => { w.setObjs (w.objs.fdDrop e) with held := w.held.erase i }
    | none => w

def marked (pid : Pid) : List Nat := (List.range MAX_FDS).filter fun fd => (w.fds.lookup (pid, fd)).any Slot.cloexec

def closeOnExec (pid : Pid) : World := (w.marked pid).foldl (fun w fd => w.close pid fd) w

def unused (pid : Pid) : Bool := w.fds.keys.all fun key => key.1 != pid

def step : Event → Option World
  | .spawn pid =>
    if pid < MAX_TASKS ∧ w.unused pid then
      some (((w.setFd pid 0 ⟨.stdin, false⟩).setFd pid 1 ⟨.console, false⟩).setFd pid 2 ⟨.console, false⟩)
    else none
  | .pipeOpen pid cloexec => some (w.pipeOpen pid cloexec)
  | .open_ pid node flags hook => some (w.open_ pid node flags hook)
  | .mkfifo => (w.objs.pipeAlloc ANON_PIPES MAX_PIPES true).map fun (objs, _) => w.setObjs objs
  | .fifoUnlink id => some (w.setObjs (w.objs.setPipes (w.objs.pipes.adjust id Pipe.unlink)))
  | .openFifo pid id flags => some (w.openFifo pid id flags)
  | .openEvfd pid kind id => some (w.openEvfd pid kind id)
  | .cloneEvfd pid kind => some (w.cloneEvfd pid kind)
  | .openPtyMaster pid => some (w.openPtyMaster pid)
  | .openPtySlave pid id => some (w.openPtySlave pid id)
  | .claimSession id => some (w.setObjs (w.objs.hangUp id))
  | .dup2 pid oldfd newfd cloexec => some (w.dup2 pid oldfd newfd cloexec)
  | .dupMin pid oldfd minfd cloexec => some (w.dupMin pid oldfd minfd cloexec)
  | .setCloexec pid fd on_ => some (w.setCloexec pid fd on_)
  | .fork parent child fails =>
    if child < MAX_TASKS ∧ parent ≠ child ∧ w.unused child then some (w.fork parent child fails) else none
  | .hold pid fd => some (w.hold pid fd)
  | .install pid token cloexec => some (w.install pid token cloexec)
  | .release token => some (w.release token)
  | .close pid fd => some (w.close pid fd)
  | .closeOnExec pid => some (w.closeOnExec pid)
  | .exit pid => some (w.exit pid)

def Boot (w : World) : Prop :=
  w.objs.pipes = ∅ ∧ w.objs.files = ∅ ∧ w.objs.evfds = ∅ ∧ w.fds = ∅ ∧ w.held = ∅ ∧
    ∀ id, w.objs.ptys.lookup id = if id < TERMS then some ⟨true, 1, 0, 0⟩ else none

def system : System World Event := ⟨Boot, step⟩

end World
end Myos.Task.Fd
