import Mathlib.Algebra.BigOperators.Group.Finset.Basic
import Myos.Lib.System
import Myos.Modules.Netfs.UnixWf

namespace Myos.Modules.Netfs.Unix.Rights

def BLANK : BitVec 8 := 32
def NEWLINE : BitVec 8 := 10

def digits : Nat → Nat → Bytes → Bytes
  | 0, _, text => text
  | room + 1, x, text => if x = 0 then text else digits room (x / 10) (BitVec.ofNat 8 (48 + x % 10) :: text)

def decimal (v : Nat) : Bytes := if v = 0 then [48] else digits 6 v []

def putDec (v : Nat) : Bytes := decimal v ++ [NEWLINE]

/-- One fd's number in the text of a read of `rights` with a buffer of `room` bytes: the blank before it goes to an index,
the number to what is left of the buffer. `none` is an index outside it. -/
def putFd (room : Nat) (text : Bytes) (fd : Nat) : Option Bytes :=
  let blank := if text = [] then some [] else if text.length < room then some (text ++ [BLANK]) else none
  blank.map fun text => text ++ (putDec (fd % 2 ^ 16)).take (room - text.length)

def putEnd (room : Nat) (text : Bytes) : Option Bytes :=
  if text = [] then some [] else if text.length < room then some (text ++ [NEWLINE]) else none

structure Kernel where
  held : List (Option Nat)
  next : Nat
  installed : List Nat
  released : List Nat

namespace Kernel

variable (k : Kernel)

def at_ : Nat → Option Nat
  | 0 => none
  | i + 1 => (k.held[i]?).join

def hold : Nat × Kernel :=
  match k.held.findIdx? Option.isNone with
  | some i => (i + 1, { k with held := k.held.set i (some k.next), next := k.next + 1 })
  | none => (k.held.length + 1, { k with held := k.held ++ [some k.next], next := k.next + 1 })

def clear (token : Nat) : Kernel := { k with held := k.held.set (token - 1) none }

def release (token : Nat) : Kernel :=
  match k.at_ token with
  | some reference => { k.clear token with released := k.released ++ [reference] }
  | none => k

def releaseAll (k : Kernel) : List Nat → Kernel
  | [] => k
  | token :: rest => releaseAll (k.release token) rest

def install (token : Nat) (fd : Option Nat) : Option (Nat × Kernel) :=
  match k.at_ token, fd with
  | some reference, some fd => some (fd, { k.clear token with installed := k.installed ++ [reference] })
  | _, _ => none

/-- The loop of `rights`: for each word whether it names an open fd of the caller. The fds held, or those to let go of. -/
def holdWords (pending : Nat) (k : Kernel) (held : List Nat) : List Bool → Kernel × Bool × List Nat
  | [] => (k, true, held)
  | false :: _ => (k, false, held)
  | true :: rest =>
    let (token, next) := k.hold
    if pending + held.length < RIGHTS_MAX then holdWords pending next (held ++ [token]) rest
    else (next, false, token :: held)

/-- The loop of a read of `rights`: `fds` says which fd a token would get. The text, the fds made and the tokens not
installed. -/
def installAll (room : Nat) (fds : Nat → Option Nat) (k : Kernel) (text : Bytes) :
    List Nat → Option (Kernel × Bytes × List Nat × List Nat)
  | [] => some (k, text, [], [])
  | token :: rest =>
    match k.install token (fds token) with
    | none => (installAll room fds k text rest).map fun (k, text, made, drops) => (k, text, made, token :: drops)
    | some (fd, next) =>
      match putFd room text fd with
      | none => none
      | some text => (installAll room fds next text rest).map fun (k, text, made, drops) => (k, text, fd :: made, drops)

end Kernel

structure State where
  table : Table
  kernel : Kernel

inductive Event where
  | call (uid : Nat) (op : Op)
  | rights (uid id : Nat) (words : List Bool)
  | readRights (uid id room : Nat) (fds : Nat → Option Nat)

/-- How a read of `rights` ends: -1, an index outside the buffer, or the text, with the fds made and those let go of. -/
inductive Answer where
  | refused
  | outside
  | text (bytes : Bytes) (made drops : List Nat)

namespace State

variable (s : State)

def rights (uid id : Nat) (words : List Bool) : State :=
  if s.table.own uid id ∧ (s.table.conv id).phase = .connected then
    match s.kernel.holdWords (s.table.conv id).pending.length [] words with
    | (kernel, true, held) => ⟨s.table.rights id held, kernel⟩
    | (kernel, false, drops) => ⟨s.table, kernel.releaseAll drops⟩
  else s

def readRights (uid id room : Nat) (fds : Nat → Option Nat) : Answer × State :=
  if s.table.own uid id = false ∨ room < 4 * (s.table.conv id).delivered.length + 1 then (.refused, s)
  else
    match s.kernel.installAll room fds [] (s.table.conv id).delivered with
    | none => (.outside, s)
    | some (kernel, text, made, drops) =>
      match putEnd room text with
      | none => (.outside, s)
      | some text => (.text text made drops, ⟨(s.table.drainDelivered id).1, kernel.releaseAll drops⟩)

def step : Event → Option State
  | .call uid op =>
    let (table, drops) := s.table.apply uid op
    some ⟨table, s.kernel.releaseAll drops⟩
  | .rights uid id words => some (s.rights uid id words)
  | .readRights uid id room fds =>
    match s.readRights uid id room fds with
    | (.outside, _) => none
    | (_, after) => some after

def carried (t : Table) (token : Nat) : Nat := ∑ i ∈ Finset.range t.len, (t.conv i).rights.count token

end State

def blank : State := ⟨⟨0, fun _ => .FREE⟩, ⟨[], 0, [], []⟩⟩

def system : Lib.System State Event where
  start := Eq blank
  step := State.step

/-- Each reference taken is held, installed or released, once; and each one held is carried by one conversation, once. -/
structure Conserved (s : State) : Prop where
  once : ∀ reference, s.kernel.held.count (some reference) + s.kernel.installed.count reference +
    s.kernel.released.count reference = if reference < s.kernel.next then 1 else 0
  carried : ∀ token, State.carried s.table token = if (s.kernel.at_ token).isSome then 1 else 0

def documented (fds : List Nat) : Bytes := if fds = [] then [] else [BLANK].intercalate (fds.map decimal) ++ [NEWLINE]

/-- A read of `rights` gives the documented text of all the fds it was to install, or fails with none installed or lost. -/
def Right (s : State) (id : Nat) : Answer × State → Prop
  | (.refused, after) => after = s
  | (.outside, _) => False
  | (.text bytes made drops, _) =>
    drops = [] ∧ made.length = (s.table.conv id).delivered.length ∧ bytes = documented made

end Myos.Modules.Netfs.Unix.Rights
