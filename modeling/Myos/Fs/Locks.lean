import Mathlib.Data.List.Dedup
import Myos.Lib.System
import Myos.Lib.Table

namespace Myos.Fs.Locks
open Lib

inductive Owner
  | flock (id : Nat)
  | ofd (id : Nat)
  | process (pid : Nat)
deriving DecidableEq

def Owner.family : Owner → Nat
  | .flock _ => 0
  | .ofd _ | .process _ => 1

inductive Kind
  | shared
  | exclusive
deriving DecidableEq

/-- A held lock on bytes `start..stop`. The code's record has no `since`: which life of the description or
process the lock was asked for in, as their numbers are given again. -/
structure Lock where
  node : Nat
  owner : Owner
  kind : Kind
  start : Nat
  stop : Nat
  since : Nat
deriving DecidableEq

def TO_END : Nat := 18446744073709551615

inductive Mode
  | once
  | wait
  | convert
deriving DecidableEq

structure Call where
  node : Nat
  owner : Owner
  kind : Option Kind
  start : Nat
  stop : Nat
  since : Nat
  mode : Mode
  ordered : start ≤ stop
deriving DecidableEq

def conflicting (locks : List Lock) (node : Nat) (owner : Owner) (kind : Kind) (start stop : Nat) : Option Lock :=
  locks.find? fun l =>
    l.node == node && l.owner != owner && l.owner.family == owner.family && decide (l.start < stop) &&
      decide (start < l.stop) && (l.kind == .exclusive || kind == .exclusive)

def Call.busy (c : Call) (locks : List Lock) : Bool :=
  c.kind.any fun kind => (conflicting locks c.node c.owner kind c.start c.stop).isSome

def Call.kept (c : Call) (l : Lock) : List Lock :=
  if l.node ≠ c.node ∨ l.owner ≠ c.owner ∨ l.stop ≤ c.start ∨ c.stop ≤ l.start then [l]
  else
    (if l.start < c.start then [{ l with stop := c.start }] else []) ++
      (if c.stop < l.stop then [{ l with start := c.stop }] else [])

def Call.lock (c : Call) (kind : Kind) : Lock := ⟨c.node, c.owner, kind, c.start, c.stop, c.since⟩

def Call.replace (c : Call) (locks : List Lock) : List Lock := locks.flatMap c.kept ++ (c.kind.map c.lock).toList

def LOCK_SH : BitVec 64 := 1
def LOCK_EX : BitVec 64 := 2
def LOCK_NB : BitVec 64 := 4
def LOCK_UN : BitVec 64 := 8
def LOCKCTL_SET : BitVec 64 := 1
def LOCKCTL_WAIT : BitVec 64 := 2
def LOCKCTL_OFD : BitVec 64 := 0x10

def flock (node desc since : Nat) (op : BitVec 64) : Option Call :=
  let call (kind : Option Kind) (mode : Mode) : Call := ⟨node, .flock desc, kind, 0, TO_END, since, mode, Nat.zero_le _⟩
  let mode : Mode := if op &&& LOCK_NB = 0 then .convert else .once
  if op &&& ~~~LOCK_NB = LOCK_SH then some (call (some .shared) mode)
  else if op &&& ~~~LOCK_NB = LOCK_EX then some (call (some .exclusive) mode)
  else if op &&& ~~~LOCK_NB = LOCK_UN then some (call none .once)
  else none

structure LockRange where
  kind : Nat
  start : UInt64
  len : UInt64
deriving DecidableEq

def LockRange.stop (r : LockRange) : Nat := if r.len = 0 then TO_END else min (r.start.toNat + r.len.toNat) TO_END

theorem LockRange.ordered (r : LockRange) : r.start.toNat ≤ r.stop := by
  have bound : r.start.toNat ≤ TO_END := Nat.le_of_lt_succ r.start.toNat_lt
  unfold stop
  split
  · exact bound
  · exact Nat.le_min.mpr ⟨Nat.le_add_right _ _, bound⟩

def lockctl (node : Nat) (owner : Owner) (since : Nat) (cmd : BitVec 64) (r : LockRange) : Option Call :=
  let call (kind : Option Kind) : Option Call :=
    if cmd &&& ~~~LOCKCTL_OFD = LOCKCTL_SET then some ⟨node, owner, kind, r.start.toNat, r.stop, since, .once, r.ordered⟩
    else if cmd &&& ~~~LOCKCTL_OFD = LOCKCTL_WAIT then some ⟨node, owner, kind, r.start.toNat, r.stop, since, .wait, r.ordered⟩
    else none
  match r.kind with
  | 0 => call (some .shared)
  | 1 => call (some .exclusive)
  | 2 => call none
  | _ => none

inductive Holder
  | fd (pid fd : Nat)
  | held (token : Nat)
deriving DecidableEq

def Holder.isOf (pid : Nat) : Holder → Bool
  | .fd p _ => p == pid
  | .held _ => false

inductive Chore
  | closed (node pid : Nat)
  | release (owner : Owner)
  | wake (node : Nat)
deriving DecidableEq

def Chore.removes : Chore → Lock → Bool
  | .closed node pid, l => l.node == node && l.owner == .process pid
  | .release owner, l => l.owner == owner
  | .wake _, _ => false

/-- Where a task is: at the top of `set`'s loop, before the locked section with the count it has read, before
`block_until`, blocked, or at its chores; `rest` are the calls of `set` that follow. -/
inductive Phase
  | idle
  | top (call : Call) (rest : List Call)
  | look (call : Call) (rest : List Call) (seq : Nat)
  | block (call : Call) (rest : List Call) (seq : Nat)
  | asleep (call : Call) (rest : List Call)
  | tidy (chores : List Chore) (rest : List Call)
deriving DecidableEq

def Phase.after : List Chore → List Call → Phase
  | [], [] => .idle
  | [], call :: rest => .top call rest
  | chore :: chores, rest => .tidy (chore :: chores) rest

def Phase.chores : Phase → List Chore
  | .tidy chores _ => chores
  | _ => []

def Phase.woken (node : Nat) : Phase → Phase
  | .asleep call rest => if call.node = node then .top call rest else .asleep call rest
  | phase => phase

/-- The references to descriptions, each description's file, the living processes, the table of locks and the
tasks; `opens` and `spawns` count the lives of a number. An ended process's number may be given again at once,
though the code keeps its slot until its locks are gone. -/
structure State where
  refs : Table Holder Nat
  node : Nat → Nat
  opens : Nat → Nat
  alive : Nat → Bool
  spawns : Nat → Nat
  locks : List Lock
  phase : Nat → Phase
  seq : Nat

inductive Event
  | spawn (pid : Nat)
  | open_ (pid fd id node : Nat)
  | copy (source target : Holder)
  | close (tid pid fd : Nat)
  | dup2 (tid pid oldfd newfd : Nat)
  | release (tid token : Nat)
  | exit (tid pid : Nat)
  | flock (tid pid fd : Nat) (op : BitVec 64)
  | lockctl (tid pid fd : Nat) (cmd : BitVec 64) (range : LockRange)
  | conflict (tid : Nat)
  | seq (tid : Nat)
  | look (tid : Nat)
  | block (tid : Nat)
  | interrupt (tid : Nat)
  | resume (tid : Nat)
  | chore (tid : Nat)
  | wake

def referenced (refs : Table Holder Nat) (id : Nat) : Bool := refs.keys.any fun h => (refs.lookup h).any (· == id)

def dropped (refs : Table Holder Nat) (id : Nat) : List Chore :=
  if referenced refs id then [] else [.release (.flock id), .release (.ofd id)]

namespace State

variable (s : State)

def setPhase (tid : Nat) (phase : Phase) : State := { s with phase := Function.update s.phase tid phase }

def put (tid : Nat) (h : Holder) (refs : Table Holder Nat) : State :=
  match s.refs.lookup h with
  | none => { s with refs }
  | some old =>
    let records : List Chore := match h with
      | .fd pid _ => [.closed (s.node old) pid]
      | .held _ => []
    { s with refs }.setPhase tid (.after (records ++ dropped refs old) [])

def exit (tid pid : Nat) : State :=
  let refs := s.refs.sift fun h _ => !h.isOf pid
  let ids := ((s.refs.sift fun h _ => h.isOf pid).entries.map Sigma.snd).dedup
  { s with refs, alive := Function.update s.alive pid false }.setPhase tid
    (.after (ids.flatMap (dropped refs) ++ [Chore.release (.process pid)]) [])

def look (tid : Nat) (c : Call) (rest : List Call) (seq : Nat) : State :=
  if c.busy s.locks then
    s.setPhase tid <| match c.mode with
      | .once => .after [] rest
      | .convert => .top { c with kind := none, mode := .once } [{ c with mode := .wait }]
      | .wait => .block c rest seq
  else { s with locks := c.replace s.locks }.setPhase tid (.tidy [.wake c.node] rest)

def released (tid : Nat) (chore : Chore) (chores : List Chore) (rest : List Call) : State :=
  let nodes := ((s.locks.filter chore.removes).map Lock.node).dedup
  { s with locks := s.locks.filter fun l => !chore.removes l }.setPhase tid (.after (nodes.map Chore.wake ++ chores) rest)

def perform (tid : Nat) (chore : Chore) (chores : List Chore) (rest : List Call) : State :=
  let s := s.released tid chore chores rest
  match chore with
  | .wake node => { s with phase := fun t => (s.phase t).woken node, seq := s.seq + 1 }
  | _ => s

def target (tid pid fd : Nat) : Option Nat :=
  if s.phase tid = .idle ∧ s.alive pid then s.refs.lookup (.fd pid fd) else none

def step : Event → Option State
  | .spawn pid =>
    if s.alive pid = false then
      some { s with alive := Function.update s.alive pid true, spawns := Function.update s.spawns pid (s.spawns pid + 1) }
    else none
  | .open_ pid fd id node =>
    if s.alive pid ∧ s.refs.lookup (.fd pid fd) = none ∧ referenced s.refs id = false then
      some { s with
        refs := s.refs.insert (.fd pid fd) id
        node := Function.update s.node id node
        opens := Function.update s.opens id (s.opens id + 1) }
    else none
  | .copy source target =>
    if s.refs.lookup target = none then (s.refs.lookup source).map fun id => { s with refs := s.refs.insert target id }
    else none
  | .close tid pid fd => (s.target tid pid fd).map fun _ => s.put tid (.fd pid fd) (s.refs.erase (.fd pid fd))
  | .dup2 tid pid oldfd newfd =>
    if oldfd = newfd then none
    else (s.target tid pid oldfd).map fun id => s.put tid (.fd pid newfd) (s.refs.insert (.fd pid newfd) id)
  | .release tid token => if s.phase tid = .idle then some (s.put tid (.held token) (s.refs.erase (.held token))) else none
  | .exit tid pid => if s.phase tid = .idle ∧ s.alive pid then some (s.exit tid pid) else none
  | .flock tid pid fd op =>
    (s.target tid pid fd).bind fun id =>
      (flock (s.node id) id (s.opens id) op).map fun c => s.setPhase tid (.top c [])
  | .lockctl tid pid fd cmd range =>
    (s.target tid pid fd).bind fun id =>
      (if cmd &&& LOCKCTL_OFD ≠ 0 then lockctl (s.node id) (.ofd id) (s.opens id) cmd range
        else lockctl (s.node id) (.process pid) (s.spawns pid) cmd range).map fun c => s.setPhase tid (.top c [])
  | .conflict tid => if s.phase tid = .idle then some s else none
  | .seq tid => match s.phase tid with
      | .top c rest => some (s.setPhase tid (.look c rest s.seq))
      | _ => none
  | .look tid => match s.phase tid with
      | .look c rest seq => some (s.look tid c rest seq)
      | _ => none
  | .block tid => match s.phase tid with
      | .block c rest seq => some (s.setPhase tid (if s.seq = seq then .asleep c rest else .top c rest))
      | _ => none
  | .interrupt tid => match s.phase tid with
      | .block _ _ _ => some (s.setPhase tid .idle)
      | _ => none
  | .resume tid => match s.phase tid with
      | .asleep c rest => some (s.setPhase tid (.top c rest))
      | _ => none
  | .chore tid => match s.phase tid with
      | .tidy (chore :: chores) rest => some (s.perform tid chore chores rest)
      | _ => none
  | .wake => some { s with seq := s.seq + 1 }

def Boot (s : State) : Prop := s.refs = ∅ ∧ s.locks = [] ∧ (∀ pid, s.alive pid = false) ∧ ∀ tid, s.phase tid = .idle

def system : System State Event := ⟨Boot, step⟩

end State
end Myos.Fs.Locks
