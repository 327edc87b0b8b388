import Mathlib.Data.List.Forall2
import Myos.Lib.System
import Myos.Modules.Netfs.Unix

namespace Myos.Modules.Netfs.Unix

/-- One direction of a connection: the writes that were taken, the reads that returned bytes (with the room they had), the
fds sent with the byte at an offset and those that came with it. -/
structure Flow where
  writes : List Bytes := []
  reads : List (Nat × Bytes) := []
  attached : List (Nat × List Nat) := []
  arrived : List (Nat × List Nat) := []
  ended : Bool := false

namespace Flow

variable (f : Flow)

def taken : Bytes := f.writes.flatten
def got : Bytes := (f.reads.map (·.2)).flatten

def passed (records : Bool) : Nat :=
  if records then (f.writes.take f.reads.length).flatten.length else f.got.length

def wrote (bytes : Bytes) (fds : List Nat) : Flow :=
  { f with
    writes := f.writes ++ [bytes]
    attached := if fds = [] then f.attached else f.attached ++ [(f.taken.length, fds)] }

def read (records : Bool) (cap : Nat) (bytes : Bytes) (fds : List Nat) : Flow :=
  { f with
    reads := if bytes = [] then f.reads else f.reads ++ [(cap, bytes)]
    arrived := if fds = [] then f.arrived else f.arrived ++ [(f.passed records, fds)] }

end Flow

inductive End where
  | client | server
  deriving DecidableEq

def End.other : End → End
  | client => server
  | server => client

namespace Pair

structure State where
  table : Table
  listener : Nat
  id : End → Nat
  records : Bool
  flow : End → Flow
  closed : End → Bool

inductive Event where
  | accept (uid : Nat)
  | write (who : End) (uid pid : Nat) (src : Bytes) (heap : Bool)
  | read (who : End) (uid cap : Nat)
  | close (who : End) (uid : Nat)
  | rights (who : End) (uid : Nat) (held : List Nat)
  | norights (who : End) (uid : Nat)
  | readRights (who : End) (uid : Nat)

def New (c : Conv) : Prop := ∃ owner records, c = { Conv.FREE with phase := .opened, owner, records }

inductive Connected : State → Prop
  | connect (t made : Table) (uid id server last : Nat) (name : Bytes) (heap : Bool) :
      New (t.conv id) → id < t.len → t.connect uid id name heap = some (server, last, made) →
      Connected ⟨made, server, fun | .client => id | .server => last, (t.conv id).records, fun _ => {}, fun _ => false⟩

namespace State

variable (s : State)

def conv (e : End) : Conv := s.table.conv (s.id e)

def setFlow (e : End) (f : Flow) : State := { s with flow := Function.update s.flow e f }

def write (who : End) (uid pid : Nat) (src : Bytes) (heap : Bool) : State :=
  let (table, n) := s.table.write uid (s.id who) pid src heap
  let after := { s with table }
  match n with
  | none | some 0 => after
  | some n => after.setFlow who.other ((s.flow who.other).wrote (src.take n) (s.conv who).pending)

def read (who : End) (uid cap : Nat) : State :=
  let (table, bytes, _) := s.table.read uid (s.id who) cap
  let after := { s with table }
  match bytes with
  | none => after
  | some bytes =>
    let f := (s.flow who).read s.records cap bytes (after.conv who).delivered
    let ended := decide (bytes = [] ∧ 0 < cap ∧ (after.conv who).phase = .hangup)
    after.setFlow who { f with ended := f.ended || ended }

def close (who : End) (uid : Nat) : State :=
  if s.table.own uid (s.id who) then
    { s with table := (s.table.release uid (s.id who)).1, closed := Function.update s.closed who true }
  else s

def step : Event → State
  | .accept uid =>
    match s.table.accept uid s.listener with
    | some (_, table) => { s with table }
    | none => s
  | .write who uid pid src heap => s.write who uid pid src heap
  | .read who uid cap => s.read who uid cap
  | .close who uid => s.close who uid
  | .rights who uid held => if s.table.own uid (s.id who) then { s with table := s.table.rights (s.id who) held } else s
  | .norights who uid => if s.table.own uid (s.id who) then { s with table := (s.table.norights (s.id who)).1 } else s
  | .readRights who uid =>
    if s.table.own uid (s.id who) then { s with table := (s.table.drainDelivered (s.id who)).1 } else s

end State

def system : Lib.System State Event where
  start := Connected
  step s event := some (s.step event)

structure Faithful (records : Bool) (f : Flow) (buffered : Option Bytes) (isOver : Bool) : Prop where
  stream : records = false → f.got <+: f.taken ∧ ∀ rx ∈ buffered, f.taken = f.got ++ rx
  record : records = true → f.reads.length ≤ f.writes.length ∧
    List.Forall₂ (fun read write => read.2 = write.take read.1 ∧ read.2 ≠ []) f.reads (f.writes.take f.reads.length) ∧
    ∀ rx ∈ buffered, rx = (f.writes.drop f.reads.length).flatten
  rights : f.arrived <+: f.attached
  ended : f.ended = true → isOver = true ∧ f.passed records = f.taken.length

def State.buffered (s : State) (e : End) : Option Bytes := if s.closed e then none else some (s.conv e).rx

end Pair
end Myos.Modules.Netfs.Unix
