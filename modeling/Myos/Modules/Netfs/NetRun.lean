import Myos.Fs.OpenRefs
import Myos.Lib.System
import Myos.User.Netd

namespace Myos.Modules.Netfs.Net

def Req.isClone : Req → Bool
  | .clone => true
  | _ => false

def Rep.isCloneOk : Rep → Bool
  | .cloneOk _ _ => true
  | _ => false

def Conv.torn (c : Conv) (conn : Nat) : Bool := !c.used || c.closing || c.closePending || c.conn != conn

namespace Run

open Myos.User

inductive File where
  | data | hdata | peek | ctl | status
  deriving DecidableEq

/-- The path of a conversation's file, by the number of zeros before its index: `parse_u16` takes any. -/
structure Path where
  proto : Proto
  id : Nat
  zeros : Nat
  file : File
  deriving DecidableEq

structure Fd where
  desc : Nat
  id : Nat
  zeros : Nat
  proto : Proto
  file : File
  conn : Nat
  deriving DecidableEq

instance : Fs.Described Fd Path := ⟨Fd.desc, fun fd => ⟨fd.proto, fd.id, fd.zeros, fd.file⟩⟩

/-- History: an index was taken for a second connection, bytes went to another connection than their fd's, a tcp byte was
dropped, a credit wrapped, a credit of an earlier occupant counted, a conversation outlived its last fd, or ended under an
open `data` fd. -/
structure Faults where
  clash : Bool
  stray : Bool
  dropped : Bool
  wrapped : Bool
  stale : Bool
  missed : Bool
  cutShort : Bool

structure State where
  fs : Net.State
  netd : Netd.State
  files : Fs.OpenRefs Fd Path
  next : Nat
  faults : Faults

inductive Event where
  | clone (uid : Nat) (p : Proto)
  | openFile (uid id zeros : Nat) (p : Proto) (file : File)
  | openRef (j : Nat)
  | failedOpen (uid id : Nat) (p : Proto) (file : File)
  | share (k : Nat)
  | close (uid k : Nat)
  | read (k room : Nat)
  | readCtl (k : Nat)
  | write (uid k : Nat) (src : List (BitVec 8))
  | writeCtl (uid k : Nat) (cmd : Ctl)
  | look (uid k : Nat)
  | apply
  | serve (answer : Netd.Answer)
  | handOff (l : Nat) (received : List (List (BitVec 8)))
  | pass (pass : Netd.Pass)

def repsAbout (id : Nat) (replies : List Reply) : List Rep :=
  replies.filterMap fun
    | .about i body => if i = id then some body else none
    | _ => none

def reqsAbout (id : Nat) (requests : List Request) : List Request := requests.filter (·.id == id)

namespace State

variable (s : State)

abbrev fds : List Fd := s.files.fds

def taken (id : Nat) : Bool :=
  s.fds.any (·.id == id) || (reqsAbout id s.fs.req).any (Req.isClone ·.body) ||
    (repsAbout id s.netd.rep).any Rep.isCloneOk

/-- `clone_locked`; the fd comes of an open of `N/data` after it. -/
def clone (uid : Nat) (p : Proto) : State :=
  { s with
    fs := (s.fs.cloneLocked uid p s.next).1
    next := s.next + 1
    faults.clash := s.faults.clash || s.fs.allocConv.any s.taken }

def openFile (uid id zeros : Nat) (p : Proto) (file : File) : Option State :=
  if s.fs.convOk uid id p then
    some { s with files := s.files.add fun desc => ⟨desc, id, zeros, p, file, (s.fs.convs id).conn⟩ }
  else none

/-- Whether the step to `fs` ends the conversation at `id`, one of `held` being an open `data` of it. -/
def cuts (fs : Net.State) (id : Nat) (held : List Fd) : Bool :=
  let before := s.fs.convs id
  (held.any fun other => other.id == id && other.file == .data && other.proto == before.proto &&
    other.conn == before.conn) && !before.torn before.conn && (fs.convs id).torn before.conn

/-- An open that got past the module's hook and found no description or no fd free: `open_hook_undo`. -/
def failedOpen (uid id : Nat) (p : Proto) (file : File) : Option State :=
  if s.fs.convOk uid id p then
    let fs := if file == .data then s.fs.netRelease uid id p else s.fs
    some { s with fs, faults.cutShort := s.faults.cutShort || s.cuts fs id s.fds }
  else none

def closed (uid : Nat) (fd : Fd) (left : List Fd) : Net.State :=
  if fd.file == .data && s.files.releases fd left then s.fs.netRelease uid fd.id fd.proto else s.fs

def close (uid k : Nat) : Option State :=
  (s.fds[k]?).map fun fd =>
    let left := s.fds.eraseIdx k
    let fs := s.closed uid fd left
    { s with
      fs
      files := s.files.closeRef fd left
      faults.missed := s.faults.missed ||
        ((!left.any fun other => other.id == fd.id && other.conn == fd.conn) && !(fs.convs fd.id).torn fd.conn)
      faults.cutShort := s.faults.cutShort || s.cuts fs fd.id left }

def read (k room : Nat) : Option State :=
  (s.fds[k]?).bind fun fd =>
    let c := s.fs.convs fd.id
    let (fs, out) := s.fs.readLocked fd.id fd.proto (fd.file == .hdata) (fd.file == .peek) room
    if fd.file = .ctl ∨ fd.file = .status then none
    else some { s with
      fs
      faults.stray := s.faults.stray || (out.getD []).any fun b => b.1 != fd.conn
      faults.wrapped := s.faults.wrapped || (out.isSome && fd.file != .peek &&
        decide (U16 ≤ c.credit + (c.take (fd.file == .hdata) room).2.1)) }

def write (uid k : Nat) (src : List (BitVec 8)) : Option State :=
  (s.fds[k]?).bind fun fd =>
    if fd.file = .data ∨ fd.file = .hdata then
      some { s with fs := (s.fs.writeLocked uid fd.id fd.proto (fd.file == .hdata) fd.conn (src.map fun b => (fd.conn, b))).1 }
    else none

def owns (id conn : Nat) : Bool := decide ((s.netd.convs id).kind = none) || (s.netd.convs id).conn == conn

def apply : Option State :=
  match s.netd.rep with
  | [] => none
  | reply :: rest =>
    let heard (id : Nat) : Bool := (s.fs.convs id).used && !(s.fs.convs id).cloning
    some { s with fs := s.fs.applyReply reply, netd.rep := rest, faults := match reply with
      | .about id (.data bytes) =>
        let c := s.fs.convs id
        { s.faults with dropped := s.faults.dropped ||
            (heard id && decide (c.proto = .tcp) && decide (DATA_CAP < c.dataLen + bytes.length)) }
      | .about id (.txCredit _ conn) =>
        { s.faults with stale := s.faults.stale || (heard id && (s.fs.convs id).conn != conn) }
      | _ => s.faults }

def serve (answer : Netd.Answer) : Option State :=
  match s.fs.req with
  | [] => none
  | r :: rest =>
    some { s with
      fs := { s.fs with req := rest }.retryCloses
      netd := s.netd.handleReq r answer
      faults := match r.body with
        | .send bytes => { s.faults with stray := s.faults.stray ||
            ((s.netd.convs r.id).handle && bytes.any fun b => !s.owns r.id b.1) }
        | .credit _ => { s.faults with stale := s.faults.stale || !s.owns r.id r.conn }
        | _ => s.faults }

def slotFor (l : Nat) : Option Nat := if s.netd.queueFull l then none else s.netd.firstEmpty.or s.netd.victim

def handOff (l : Nat) (received : List (List (BitVec 8))) : Option State :=
  if l < MAX_CONV ∧ s.netd.isListener l then
    some { s with
      netd := s.netd.handOff l s.next received
      next := s.next + 1
      faults.clash := s.faults.clash || (s.slotFor l).any s.taken }
  else none

def step : Event → Option State
  | .clone uid p => some (s.clone uid p)
  | .openFile uid id zeros p file => s.openFile uid id zeros p file
  | .openRef j => (s.files.openRef j).map fun files => { s with files }
  | .failedOpen uid id p file => s.failedOpen uid id p file
  | .share k => (s.files.share k).map fun files => { s with files }
  | .close uid k => s.close uid k
  | .read k room => s.read k room
  | .readCtl k => (s.fds[k]?).map fun fd => if fd.file = .ctl then { s with fs := s.fs.readCtl fd.id fd.proto } else s
  | .write uid k src => s.write uid k src
  | .writeCtl uid k cmd => (s.fds[k]?).map fun fd =>
    if fd.file = .ctl then { s with fs := s.fs.writeCtl uid fd.id fd.proto fd.conn cmd } else s
  | .look uid k => (s.fds[k]?).map fun fd =>
    if s.fs.convOk uid fd.id fd.proto then { s with fs := s.fs.returnCredit fd.id } else s
  | .apply => s.apply
  | .serve answer => s.serve answer
  | .handOff l received => s.handOff l received
  | .pass pass => (s.netd.pass pass).map fun netd => { s with netd }

def calm : Netd.Answer := ⟨true, 0, true, .connected, none, [], []⟩

end State

def blank (ring : Nat) : State where
  fs := ⟨ring, [], fun _ => .EMPTY, fun _ => false, 0, false⟩
  netd := ⟨fun _ => .EMPTY, []⟩
  files := .none
  next := 0
  faults := ⟨false, false, false, false, false, false, false⟩

def system : Myos.Lib.System State Event where
  start s := ∃ ring, s = blank ring
  step := State.step

/-- A conversation with its data and ctl files open, on which the user listens. -/
def listening : List Event :=
  [.clone 0 .tcp, .openFile 0 0 0 .tcp .data, .openRef 0, .openFile 0 0 0 .tcp .ctl, .openRef 0, .serve State.calm, .apply,
    .writeCtl 0 1 .announce, .serve State.calm, .apply]

/-- A first connection to it is handed off and its data file opened. -/
def accepted : List Event :=
  listening ++ [.handOff 0 [], .apply, .apply, .openFile 0 1 0 .tcp .data, .openRef 0]

theorem blank_reached (meets : State → Event → Prop) (ring : Nat) : system.Reach meets (blank ring) := .start ⟨ring, rfl⟩

end Run
end Myos.Modules.Netfs.Net
