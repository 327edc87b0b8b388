import Myos.Fs.OpenRefs
import Myos.Lib.System
import Myos.Modules.Netfs.UnixWf

namespace Myos.Modules.Netfs.Unix.Files

inductive File where
  | ctl | data | status | listen | rights | from_
  deriving DecidableEq

/-- The path of a conversation's file, by the number of zeros before its number: `parse_u16` takes any. -/
structure Path where
  id : Nat
  zeros : Nat
  file : File
  deriving DecidableEq

/-- `birth` says which of the conversations that had the number `id` the fd was opened on. -/
structure Fd where
  desc : Nat
  id : Nat
  zeros : Nat
  file : File
  birth : Nat

instance : Fs.Described Fd Path := ⟨Fd.desc, fun fd => ⟨fd.id, fd.zeros, fd.file⟩⟩

/-- What is not the table or its fds is history: how often a slot was taken, the conversation (its slot, and which time)
whose queue it was put in, and whether it was handed out; and whether a close ever left its conversation there, left its
peer unaware, or took one that another fd held. -/
structure State where
  table : Table
  files : Fs.OpenRefs Fd Path
  birth : Nat → Nat
  via : Nat → Option (Nat × Nat)
  handed : Nat → Bool
  missed : Bool
  silent : Bool
  cutShort : Bool

inductive Event where
  | clone (uid : Nat) (heap : Bool)
  | openFile (uid id zeros : Nat) (file : File)
  | openRef (j : Nat)
  | failedOpen (uid id : Nat) (file : File)
  | share (k : Nat)
  | close (uid k : Nat)
  | call (uid : Nat) (op : Op)

namespace State

variable (s : State)

abbrev fds : List Fd := s.files.fds

def held (fds : List Fd) (id : Nat) : Bool := fds.any fun fd => fd.id == id && fd.birth == s.birth id

def dataHeld (id : Nat) : Bool := s.fds.any fun fd => fd.id == id && fd.birth == s.birth id && fd.file == .data

def note (id : Nat) (on : Option Nat) : State :=
  { s with
    birth := Function.update s.birth id (s.birth id + 1)
    via := Function.update s.via id (on.map fun l => (l, s.birth l))
    handed := Function.update s.handed id false }

def release (uid id : Nat) : State :=
  let before := s.table
  let after := (before.release uid id).1
  let waiting := (before.conv id).queue
  { s with
    table := after
    silent := s.silent || decide ((after.conv id).phase = .free ∧
      ∃ p ∈ (before.conv id).peer, p ∉ waiting ∧ (after.conv p).phase ≠ .hangup)
    cutShort := s.cutShort || (List.range before.len).any fun q =>
      s.dataHeld q && decide ((before.conv q).phase ≠ .free ∧ (after.conv q).phase = .free) }

def closed (uid : Nat) (fd : Fd) (left : List Fd) : State :=
  let gone := { s with files := s.files.closeRef fd left }
  if fd.file == .data && s.files.releases fd left then gone.release uid fd.id else gone

def close (uid k : Nat) : Option State :=
  (s.fds[k]?).map fun fd =>
    let left := s.fds.eraseIdx k
    let after := s.closed uid fd left
    { after with missed := s.missed || (fd.birth == s.birth fd.id && !s.held left fd.id &&
        decide ((after.table.conv fd.id).phase ≠ .free)) }

/-- An open that got past the module's hook and found no description or no fd free: `open_hook_undo`. -/
def failedOpen (uid id : Nat) (file : File) : State :=
  if s.table.own uid id && file == .data then s.release uid id else s

def call (uid : Nat) (op : Op) : Option State :=
  let after := { s with table := (s.table.apply uid op).1 }
  match op with
  | .clone _ | .release _ => none
  | .connect id name heap =>
    match if s.table.own uid id then s.table.connect uid id name heap else none with
    | some (server, last, _) => some (after.note last (some server))
    | none => some after
  | .pair id heap =>
    match if s.table.own uid id ∧ (s.table.pair uid id heap).isSome then s.table.alloc uid heap else none with
    | some (made, _) => some (after.note made (some id))
    | none => some after
  | .accept id =>
    match s.table.accept uid id with
    | some (next, _) => some { after with handed := Function.update s.handed next true }
    | none => some after
  | _ => some after

def step : Event → Option State
  | .clone uid heap =>
    match s.table.alloc uid heap with
    | some (id, table) => some ({ s with table }.note id none)
    | none => some s
  | .openFile uid id zeros file =>
    if s.table.own uid id then
      some { s with files := s.files.add fun desc => ⟨desc, id, zeros, file, s.birth id⟩ }
    else some s
  | .openRef j => (s.files.openRef j).map fun files => { s with files }
  | .failedOpen uid id file => some (s.failedOpen uid id file)
  | .share k => (s.files.share k).map fun files => { s with files }
  | .close uid k => s.close uid k
  | .call uid op => s.call uid op

end State

def blank : State := ⟨⟨0, fun _ => .FREE⟩, .none, fun _ => 0, fun _ => none, fun _ => false, false, false, false⟩

def system : Lib.System State Event where
  start := Eq blank
  step := State.step

theorem blank_reached (meets : State → Event → Prop) : system.Reach meets blank := .start rfl

end Myos.Modules.Netfs.Unix.Files
