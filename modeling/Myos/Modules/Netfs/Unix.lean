import Mathlib.Algebra.GroupWithZero.Nat
import Mathlib.Logic.Function.Basic
import Myos.Lib.Consts

/-! The local conversations of `/net/unix`: two linked ends, each with what its peer wrote, and the listeners with the
ends that wait to be accepted. -/

namespace Myos.Modules.Netfs.Unix

def BUF_CAP : Nat := 64 * 1024
def NAME_CAP : Nat := 108
def BACKLOG : Nat := 8
def RIGHTS_MAX : Nat := 253
def RECORD_MAX : Nat := 8 * 1024
def RECORDS_CAP : Nat := 512

inductive Phase where
  | free | opened | listening | connected | hangup
  deriving DecidableEq

structure Conv where
  phase : Phase
  records : Bool
  cut : Bool
  want : Nat
  owner : Nat
  peer : Option Nat
  name : Bytes
  queue : List Nat
  rx : Bytes
  rxBase : Nat
  marks : List (Nat × List Nat)
  pending : List Nat
  delivered : List Nat
  writers : List (Nat × Nat)
  sender : Nat
  deriving DecidableEq

namespace Conv

def FREE : Conv := ⟨.free, false, false, 0, NO_OWNER, none, [], [], [], 0, [], [], [], [], 0⟩

def rights (c : Conv) : List Nat := c.pending ++ c.delivered ++ c.marks.flatMap (·.2)

def recordsHeld (c : Conv) : Nat :=
  c.writers.length - if (c.writers.head?.any fun w => w.1 < c.rxBase) then 1 else 0

def passWriters (start : Nat) : List (Nat × Nat) → List (Nat × Nat)
  | first :: second :: rest => if second.1 ≤ start then passWriters start (second :: rest) else first :: second :: rest
  | short => short

def markLimit (marks : List (Nat × List Nat)) (start n : Nat) : Nat :=
  match marks.find? fun m => start < m.1 with
  | some m => min n (m.1 - start)
  | none => n

def writerLimit (writers : List (Nat × Nat)) (start n : Nat) : Nat :=
  match writers[1]? with
  | some w => min n (w.1 - start)
  | none => n

def recordRest (c : Conv) : Nat :=
  match c.writers[1]? with
  | some w => w.1 - c.rxBase
  | none => c.rx.length

def cutRecord (c : Conv) : Conv :=
  { c with rx := c.rx.drop c.recordRest, rxBase := c.rxBase + c.recordRest, cut := decide (0 < c.recordRest) }

def startsMark (c : Conv) : Bool := c.marks.head?.any fun m => m.1 == c.rxBase

def markCount (c : Conv) (cap : Nat) : Nat := markLimit c.marks c.rxBase (min cap c.rx.length)

def readCount (c : Conv) (cap : Nat) : Nat :=
  writerLimit (passWriters c.rxBase c.writers) c.rxBase (c.markCount cap)

def takesMark (c : Conv) (cap : Nat) : Bool := decide (0 < c.markCount cap) && c.startsMark

def readBytes (c : Conv) (cap : Nat) : Conv :=
  let writers := passWriters c.rxBase c.writers
  let n := c.readCount cap
  { c with
    delivered := if c.takesMark cap then (c.marks.head?.map (·.2)).getD [] else []
    marks := if c.takesMark cap then c.marks.tail else c.marks
    writers
    sender := if 0 < n then (writers.head?.map (·.2)).getD 0 else c.sender
    rx := c.rx.drop n
    rxBase := c.rxBase + n
    cut := false }

def readData (c : Conv) (cap : Nat) : Conv × Bytes × List Nat :=
  let n := c.readCount cap
  let read := c.readBytes cap
  (if c.records && decide (0 < n) then read.cutRecord else read, c.rx.take n, c.delivered)

/-- A write of `src` by process `pid`: the ends after it (the writer's first), and how many bytes went; `heap` says that
the buffers could grow. -/
def writeData (c p : Conv) (pid : Nat) (src : Bytes) (heap : Bool) : Conv × Conv × Option Nat :=
  let room := BUF_CAP - p.rx.length
  if c.records ∧ RECORD_MAX < src.length then (c, p, none)
  else if c.records ∧ (room < src.length ∨ RECORDS_CAP ≤ p.recordsHeld) then ({ c with want := src.length }, p, none)
  else if c.records ∧ src = [] then (c, p, some 0)
  else
    let n := min src.length room
    if n = 0 ∨ heap = false then (c, p, none)
    else
      let start := p.rxBase + p.rx.length
      let writers := if c.records ∨ (p.writers.getLast?.all fun w => w.2 != pid) then p.writers ++ [(start, pid)] else p.writers
      let marks := if c.pending = [] then p.marks else p.marks ++ [(start, c.pending)]
      ({ c with want := 0, pending := [] }, { p with rx := p.rx ++ src.take n, writers, marks }, some n)

end Conv

structure Table where
  len : Nat
  conv : Nat → Conv

namespace Table

variable (t : Table)

def set (id : Nat) (c : Conv) : Table := { t with conv := Function.update t.conv id c }

def own (uid id : Nat) : Bool := decide ((t.conv id).phase ≠ .free) && (t.conv id).owner == uid

def freeSlot : Option Nat := (List.range t.len).find? fun i => (t.conv i).phase == .free

def alloc (uid : Nat) (heap : Bool) : Option (Nat × Table) :=
  let new := { Conv.FREE with phase := .opened, owner := uid }
  match t.freeSlot with
  | some i => some (i, t.set i new)
  | none => if t.len < U16_MAX ∧ heap then some (t.len, { (t.set t.len new) with len := t.len + 1 }) else none

def link (a b : Nat) : Table :=
  let first := t.set a { t.conv a with phase := .connected, peer := some b }
  first.set b { first.conv b with phase := .connected, peer := some a }

def hangPeer (id : Nat) : Table :=
  match (t.conv id).peer with
  | none => t
  | some peer =>
    let alone := t.set id { t.conv id with peer := none }
    alone.set peer { alone.conv peer with peer := none, phase := .hangup }

def disconnect (id : Nat) : Table :=
  let left := t.hangPeer id
  if (left.conv id).phase = .connected then left.set id { left.conv id with phase := .hangup } else left

def listener (name : Bytes) : Option Nat :=
  (List.range t.len).find? fun i => (t.conv i).phase == .listening && (t.conv i).name == name

def enqueue (on id : Nat) : Option Table :=
  if (t.conv on).queue.length = BACKLOG then none
  else some (t.set on { t.conv on with queue := (t.conv on).queue ++ [id] })

def finish (id : Nat) : Table × List Nat :=
  let left := t.disconnect id
  (left.set id .FREE, (left.conv id).rights)

def finishAll (t : Table) : List Nat → Table × List Nat
  | [] => (t, [])
  | q :: rest =>
    let (left, drops) := t.finish q
    let (last, more) := finishAll left rest
    (last, drops ++ more)

def release (uid id : Nat) : Table × List Nat :=
  if t.own uid id then
    let (left, drops) := t.finishAll (t.conv id).queue
    let (last, more) := left.finish id
    (last, drops ++ more)
  else (t, [])

def pair (uid id : Nat) (heap : Bool) : Option Table :=
  if (t.conv id).phase = .opened then do
    let (other, made) ← t.alloc uid heap
    let made := made.set other { made.conv other with records := (t.conv id).records }
    (made.link id other).enqueue id other
  else none

def announce (id : Nat) (name : Bytes) : Option Table :=
  if (t.conv id).phase ≠ .opened ∨ name = [] ∨ NAME_CAP < name.length ∨ (t.listener name).isSome then none
  else some (t.set id { t.conv id with name, phase := .listening })

def connect (uid id : Nat) (name : Bytes) (heap : Bool) : Option (Nat × Nat × Table) := do
  let server ← t.listener name
  if (t.conv id).phase ≠ .opened ∨ (t.conv server).queue.length = BACKLOG ∨
    (t.conv server).records ≠ (t.conv id).records then none
  else
    let (last, made) ← t.alloc uid heap
    let made := made.set last { made.conv last with owner := (t.conv server).owner, records := (t.conv id).records }
    let queued ← (made.link id last).enqueue server last
    return (server, last, queued)

def accept (uid id : Nat) : Option (Nat × Table) :=
  if t.own uid id then
    match (t.conv id).queue with
    | [] => none
    | next :: rest => some (next, t.set id { t.conv id with queue := rest })
  else none

def seqpacket (id : Nat) : Option Table :=
  if (t.conv id).phase = .opened then some (t.set id { t.conv id with records := true }) else none

def read (uid id cap : Nat) : Table × Option Bytes × List Nat :=
  if t.own uid id then
    let (c, bytes, drops) := (t.conv id).readData cap
    (t.set id c, some bytes, drops)
  else (t, none, [])

def write (uid id pid : Nat) (src : Bytes) (heap : Bool) : Table × Option Nat :=
  if t.own uid id then
    match (t.conv id).peer with
    | none => (t, none)
    | some peer =>
      let (c, p, n) := (t.conv id).writeData (t.conv peer) pid src heap
      ((t.set peer p).set id c, n)
  else (t, none)

def rights (id : Nat) (held : List Nat) : Table :=
  if (t.conv id).phase = .connected then t.set id { t.conv id with pending := (t.conv id).pending ++ held } else t

def norights (id : Nat) : Table × List Nat :=
  (t.set id { t.conv id with pending := [] }, (t.conv id).pending)

def drainDelivered (id : Nat) : Table × List Nat :=
  (t.set id { t.conv id with delivered := [] }, (t.conv id).delivered)

end Table

inductive Op where
  | clone (heap : Bool)
  | seqpacket (id : Nat)
  | announce (id : Nat) (name : Bytes)
  | connect (id : Nat) (name : Bytes) (heap : Bool)
  | pair (id : Nat) (heap : Bool)
  | hangup (id : Nat)
  | accept (id : Nat)
  | read (id cap : Nat)
  | write (id pid : Nat) (src : Bytes) (heap : Bool)
  | norights (id : Nat)
  | release (id : Nat)

def Table.apply (t : Table) (uid : Nat) : Op → Table × List Nat
  | .clone heap => (((t.alloc uid heap).map (·.2)).getD t, [])
  | .seqpacket id => (if t.own uid id then (t.seqpacket id).getD t else t, [])
  | .announce id name => (if t.own uid id then (t.announce id name).getD t else t, [])
  | .connect id name heap => (if t.own uid id then ((t.connect uid id name heap).map (·.2.2)).getD t else t, [])
  | .pair id heap => (if t.own uid id then (t.pair uid id heap).getD t else t, [])
  | .hangup id => (if t.own uid id then t.disconnect id else t, [])
  | .accept id => (((t.accept uid id).map (·.2)).getD t, [])
  | .read id cap => ((t.read uid id cap).1, (t.read uid id cap).2.2)
  | .write id pid src heap => ((t.write uid id pid src heap).1, [])
  | .norights id => if t.own uid id then t.norights id else (t, [])
  | .release id => t.release uid id

end Myos.Modules.Netfs.Unix
