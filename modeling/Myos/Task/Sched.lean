import Myos.Lib.Table

namespace Myos.Task
open Lib

abbrev Tid := Nat
abbrev Sigset := BitVec 32

inductive State
  | ready
  | running
  | blocked
  | dead
deriving DecidableEq, Repr

inductive WaitKey
  | none
  | any
  | signal
  | timer (id : Nat)
  | object (id : Nat)
deriving DecidableEq, Repr

/-- A task in its slot of the table, `Task` in the source. -/
structure TaskSlot where
  state : State
  userRip : Nat
  tgid : Tid
  sigPending : Sigset
  sigBlocked : Sigset
  suspendMask : Option Sigset
  waitKey : WaitKey
  wakeAt : Nat
  wakePending : Bool
  midSwitch : Bool
deriving DecidableEq, Repr

structure SigAction where
  handler : Nat
  mask : Sigset
  flags : Sigset
deriving DecidableEq, Repr

structure Process where
  groupExit : Bool
  exitCode : Nat
  termSig : Nat
  sigIgnored : Sigset
  act : Nat → SigAction
  tramp : Nat

structure Kernel where
  tasks : Table Tid TaskSlot
  procs : Table Tid Process
  waitSeq : Nat
  anyWaiters : Nat

namespace Kernel

variable (k : Kernel)

def setTask (slot : Tid) (t : TaskSlot) : Kernel := { k with tasks := k.tasks.insert slot t }

def modifyTask (slot : Tid) (f : TaskSlot → TaskSlot) : Kernel :=
  match k.tasks.lookup slot with
  | none => k
  | some t => k.setTask slot (f t)

def bumpSeq : Kernel := { k with waitSeq := k.waitSeq + 1 }

def TaskSlot.woken (t : TaskSlot) : TaskSlot :=
  if t.state = .blocked then
    if t.midSwitch then { t with waitKey := .none, wakeAt := 0, wakePending := true }
    else { t with waitKey := .none, wakeAt := 0, state := .ready }
  else t

def isAnyWaiter (t : TaskSlot) : Bool := t.state == .blocked && t.waitKey == .any

def wakeLocked (slot : Tid) : Kernel :=
  match k.tasks.lookup slot with
  | none => k
  | some t =>
    { k.setTask slot (TaskSlot.woken t) with
      anyWaiters := if isAnyWaiter t then k.anyWaiters - 1 else k.anyWaiters }

def wakesFor (any : Bool) (key : WaitKey) (t : TaskSlot) : Bool :=
  t.state == .blocked && (t.waitKey == key || (any && t.waitKey == .any))

def wakeIf (pick : TaskSlot → Bool) (slot : Tid) : Kernel :=
  if (k.tasks.lookup slot).any pick then k.wakeLocked slot else k

def wakeKeyLocked (key : WaitKey) : Kernel × Bool :=
  let pick := wakesFor (k.anyWaiters != 0) key
  (k.tasks.keys.foldl (wakeIf · pick) k, k.tasks.keys.any fun slot => (k.tasks.lookup slot).any pick)

def wakeTaskLocked (slot : Tid) : Kernel := k.bumpSeq.wakeLocked slot

def wake (key : WaitKey) : Kernel := (k.bumpSeq.wakeKeyLocked key).1

def blocks (seq deadline now : Nat) : Bool := k.waitSeq == seq && (deadline == 0 || now < deadline)

def TaskSlot.asleep (t : TaskSlot) (key : WaitKey) (deadline : Nat) : TaskSlot :=
  { t with state := .blocked, waitKey := key, wakeAt := deadline, wakePending := false }

def blockUntil (me : Tid) (key : WaitKey) (seq deadline now : Nat) : Kernel :=
  if k.blocks seq deadline now then
    { k.modifyTask me (TaskSlot.asleep · key deadline) with
      anyWaiters := if key = .any then k.anyWaiters + 1 else k.anyWaiters }
  else k

def TaskSlot.finishSwitch (t : TaskSlot) : TaskSlot :=
  if t.state = .running then { t with midSwitch := false, state := .ready }
  else if t.state = .blocked ∧ t.wakePending = true then
    { t with midSwitch := false, wakePending := false, state := .ready }
  else { t with midSwitch := false }

end Kernel

/-- What the scheduler does with a task: a CPU takes it up, leaves it, and has left it. -/
inductive Switch
  | dispatch
  | away
  | finish
deriving DecidableEq

def Kernel.switch (k : Kernel) (tid : Tid) : Switch → Option Kernel
  | .dispatch => ((k.tasks.lookup tid).filter fun t => t.state == .ready && !t.midSwitch).map fun t =>
    k.setTask tid { t with state := .running }
  | .away => ((k.tasks.lookup tid).filter fun t => (t.state == .running || t.state == .blocked) && !t.midSwitch).map fun t =>
    k.setTask tid { t with midSwitch := true }
  | .finish => ((k.tasks.lookup tid).filter TaskSlot.midSwitch).map fun t => k.setTask tid (TaskSlot.finishSwitch t)

/-- The kernel's tables with the place each task has come to in its call. -/
structure Placed (Place : Type) where
  kernel : Kernel
  place : Tid → Place

namespace Placed

variable {Place : Type} (w : Placed Place)

def task (tid : Tid) : Option TaskSlot := w.kernel.tasks.lookup tid

def running (tid : Tid) : Option TaskSlot := (w.task tid).filter fun t => t.state == .running && !t.midSwitch

end Placed
end Myos.Task
