import Myos.Lib.Ring
import Myos.Lib.System
import Myos.Lib.Waiting
import Myos.Task.FdObjects

namespace Myos.Ipc.Pipes
open Lib Myos.Task

def PIPE_BUF : Nat := 4096

abbrev Bytes := Ring UInt8 PIPE_BUF

structure Pipe where
  ends : Fd.Pipe
  ring : Bytes

namespace Bytes

def new : Bytes := .empty 0 (by decide)

def copyOut (r : Bytes) (n : Nat) : List UInt8 :=
  let first := min n (PIPE_BUF - r.head)
  (List.range first).map (fun i => r.buf (r.head + i)) ++ (List.range (n - first)).map r.buf

def skip (r : Bytes) (n : Nat) : Bytes :=
  ⟨r.buf, (r.head + n) % PIPE_BUF, r.len - n, Nat.mod_lt _ (by decide), (Nat.sub_le _ _).trans r.bounded⟩

def copyIn (r : Bytes) (data : List UInt8) : Bytes :=
  let n := min data.length (PIPE_BUF - r.len)
  let tail := (r.head + r.len) % PIPE_BUF
  let first := min n (PIPE_BUF - tail)
  let buf (j : Nat) : UInt8 :=
    if j < n - first then data.getD (first + j) 0
    else if tail ≤ j ∧ j < tail + first then data.getD (j - tail) 0
    else r.buf j
  ⟨buf, r.head, r.len + n, r.inside, by have := r.bounded; omega⟩

end Bytes

inductive Read
  | bytes (data : List UInt8)
  | wait
deriving DecidableEq

namespace Pipe

variable (p : Pipe)

def read (size : Nat) : Read × Pipe :=
  if p.ring.len = 0 then (if p.ends.writeClosed then .bytes [] else .wait, p)
  else
    let n := min size p.ring.len
    (.bytes (p.ring.copyOut n), { p with ring := p.ring.skip n })

def write (data : List UInt8) : Option (Nat × Pipe) :=
  if p.ends.readers = 0 then none
  else some (min data.length (PIPE_BUF - p.ring.len), { p with ring := p.ring.copyIn data })

def writeWouldBlock : Bool := decide (PIPE_BUF ≤ p.ring.len) && !p.ends.writeClosed

def dropEnd (ends : Option Fd.Pipe) : Option Pipe :=
  ends.map fun ends => ⟨ends, if ends.readers = 0 ∧ ends.writers = 0 then .new else p.ring⟩

def dropReader : Option Pipe := p.dropEnd p.ends.dropReader

def dropWriter : Option Pipe := p.dropEnd p.ends.dropWriter

def fifoAttach (read write : Bool) : Pipe := { p with ends := p.ends.attach read write }

end Pipe

inductive Job
  | read (size : Nat)
  | write (first : UInt8) (rest : List UInt8)
deriving DecidableEq

def Job.ofRest : List UInt8 → Option Job
  | [] => none
  | first :: rest => some (.write first rest)

/-- Where a task is: before it reads the wait sequence, before the pipe's lock, a writer that was given no
room before `write_would_block`, before `block_until`, blocked, or before the `notify` of what it did. -/
inductive Phase
  | idle
  | top (job : Job)
  | look (job : Job) (seq : Nat)
  | check (job : Job) (seq : Nat)
  | block (job : Job) (seq : Nat)
  | asleep (job : Job)
  | notify (next : Option Job)
deriving DecidableEq

def Phase.waiting : Phase → Waiting Job
  | .look _ seq => .read seq
  | .check job seq | .block job seq => .block job seq
  | .asleep job => .asleep job
  | .idle | .top _ | .notify _ => .away

def Phase.next : Option Job → Phase
  | none => .idle
  | some job => .top job

/-- A pipe in use. `accepted` are the bytes that writes took; `consumed` those that left the ring, in order,
with whether a read took them. -/
structure State where
  pipe : Option Pipe
  accepted : List UInt8
  consumed : List (UInt8 × Bool)
  phase : Nat → Phase
  seq : Nat

inductive Event
  | addReader
  | addWriter
  | dropReader (tid : Nat)
  | dropWriter (tid : Nat)
  | fifoAttach (tid : Nat) (read write : Bool)
  | start (tid : Nat) (job : Job)
  | seq (tid : Nat)
  | look (tid chunk : Nat)
  | check (tid : Nat)
  | block (tid : Nat)
  | interrupt (tid : Nat)
  | resume (tid : Nat)
  | notify (tid : Nat)
  | wake

namespace State

variable (s : State)

def setPhase (tid : Nat) (phase : Phase) : State := { s with phase := Function.update s.phase tid phase }

def drop (tid : Nat) (p : Pipe) (left : Option Pipe) : State :=
  let idle := left.all fun p => p.ends.readers == 0 && p.ends.writers == 0
  let gone := if idle then p.ring.contents else []
  { s with pipe := left, consumed := s.consumed ++ gone.map (·, false) }.setPhase tid (.notify none)

def lookRead (tid : Nat) (p : Pipe) (size seq : Nat) : State :=
  match p.read size with
  | (.wait, _) => s.setPhase tid (.block (.read size) seq)
  | (.bytes data, left) =>
    { s with pipe := some left, consumed := s.consumed ++ data.map (·, true) }.setPhase tid
      (if PIPE_BUF ≤ p.ring.len then .notify none else .idle)

def lookWrite (tid : Nat) (p : Pipe) (first : UInt8) (rest : List UInt8) (chunk seq : Nat) : State :=
  match p.write (first :: rest.take chunk) with
  | none => s.setPhase tid .idle
  | some (n, left) =>
    if n = 0 then s.setPhase tid (.check (.write first rest) seq)
    else
      let next := Job.ofRest ((first :: rest).drop n)
      { s with pipe := some left, accepted := s.accepted ++ (first :: rest).take n }.setPhase tid
        (if p.ring.len = 0 then .notify next else .next next)

def woken : Phase → Phase
  | .asleep job => .top job
  | phase => phase

def step : Event → Option State
  | .addReader => some { s with pipe := s.pipe.map fun p => { p with ends := p.ends.addReader } }
  | .addWriter => some { s with pipe := s.pipe.map fun p => { p with ends := p.ends.addWriter } }
  | .dropReader tid => if s.phase tid = .idle then s.pipe.map fun p => s.drop tid p p.dropReader else none
  | .dropWriter tid => if s.phase tid = .idle then s.pipe.map fun p => s.drop tid p p.dropWriter else none
  | .fifoAttach tid read write =>
    if s.phase tid = .idle then
      s.pipe.map fun p => { s with pipe := some (p.fifoAttach read write) }.setPhase tid (.notify none)
    else none
  | .start tid job => if s.phase tid = .idle then some (s.setPhase tid (.top job)) else none
  | .seq tid => match s.phase tid with
      | .top job => some (s.setPhase tid (.look job s.seq))
      | _ => none
  | .look tid chunk => match s.phase tid, s.pipe with
      | .look (.read size) seq, some p => some (s.lookRead tid p size seq)
      | .look (.write first rest) seq, some p => some (s.lookWrite tid p first rest chunk seq)
      | .look _ _, none => some (s.setPhase tid .idle)
      | _, _ => none
  | .check tid => match s.phase tid with
      | .check job seq => some (s.setPhase tid (if s.pipe.any Pipe.writeWouldBlock then .block job seq else .top job))
      | _ => none
  | .block tid => match s.phase tid with
      | .block job seq => some (s.setPhase tid (if s.seq = seq then .asleep job else .top job))
      | _ => none
  | .interrupt tid => match s.phase tid with
      | .block _ _ => some (s.setPhase tid .idle)
      | _ => none
  | .resume tid => match s.phase tid with
      | .asleep job => some (s.setPhase tid (.top job))
      | _ => none
  | .notify tid => match s.phase tid with
      | .notify next =>
        some { s with phase := fun t => woken (Function.update s.phase tid (.next next) t), seq := s.seq + 1 }
      | _ => none
  | .wake => some { s with seq := s.seq + 1 }

def Start (s : State) : Prop :=
  (s.pipe = some ⟨(Fd.Pipe.new false).addReader.addWriter, .new⟩ ∨ s.pipe = some ⟨.new true, .new⟩) ∧
    s.accepted = [] ∧ s.consumed = [] ∧ ∀ tid, s.phase tid = .idle

def system : System State Event := ⟨Start, step⟩

end State
end Myos.Ipc.Pipes
