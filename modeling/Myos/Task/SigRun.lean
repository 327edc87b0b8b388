import Myos.Lib.System
import Myos.Task.Signals

namespace Myos.Task
open Lib

inductive Call
  | sigprocmask (how : Nat) (mask : Sigset)
  | sigaction (sig handler : Nat) (flags mask : Sigset) (tramp : Nat)
  | sigsuspend (mask : Sigset)
  | sigwait (set : Sigset)
  | sigMask (fd : Nat) (mask : Sigset)
  | sigRead (fd more : Nat)
  | sigreturn (mask : Sigset)
  | fork (child : Tid) (rip : Nat)
  | spawnThread (tid : Tid) (rip : Nat)
  | exec
  | threadExit (code : Nat)
  | exit (code : Nat)
  | other
  | quick

inductive Wait
  | set (set : Sigset)
  | fd (fd more : Nat)
  | suspend
  | other

def Wait.key : Wait → WaitKey
  | .other => .object 0
  | _ => .signal

inductive Alone
  | threadExit
  | exitGroup
  | exec
deriving DecidableEq

/-- Where a thread is. A wait loop reads `wait_seq` (`look`), looks for what it waits for (`try_`), for a
signal that ends it (`check`), and blocks (`block`). -/
inductive Place
  | fresh
  | user
  | start (call : Call)
  | look (wait : Wait)
  | try_ (wait : Wait) (seq : Nat)
  | check (wait : Wait) (seq : Nat)
  | block (wait : Wait) (seq : Nat)
  | asleep (wait : Wait)
  | exit
  | ending (code sig : Nat)
  | image
  | alone (why : Alone)
  | done

/-- What has happened to a thread's `SIGKILL`, which no code reads: posted, taken by a `signal_next` that
ends the process, and returned to user mode in between; `sent` is a `signal_send` to the process. -/
structure Trace where
  process : Nat
  posted : Bool
  sent : Bool
  taken : Bool
  returned : Bool

structure Threads extends Placed Place where
  masks : Nat → Sigset
  trace : Tid → Trace
  born : Nat
  exited : Nat → Bool

/-- `pageIn` is a page fault that is resolved, `interrupt` one of a device or for the TLB: both go back to user mode as
they are. A timer's, which looks at the signals on its way back, is a `quick` call. -/
inductive Act
  | enter (call : Call)
  | pageIn
  | interrupt
  | faultCatch (sig : Nat)
  | giveUp
  | go (yes : Bool)

inductive SigEvent
  | spawn (slot : Tid) (rip : Nat)
  | act (tid : Tid) (act : Act)
  | send (id : Tid) (sig : Nat)
  | wake (key : WaitKey)
  | timeout (tid : Tid)
  | switch (tid : Tid) (how : Switch)
  | recycle (tid : Tid)

namespace Threads

variable (w : Threads)

def killPending (tid : Tid) : Bool := (w.task tid).any fun t => t.sigPending.getLsbD SIGKILL

def pid (tid : Tid) : Tid := ((w.task tid).map TaskSlot.tgid).getD tid

def setPlace (tid : Tid) (place : Place) : Threads := { w with place := Function.update w.place tid place }

def setKernel (kernel : Kernel) : Threads := { w with kernel }

def mark (tid : Tid) (f : Trace → Trace) : Threads := { w with trace := Function.update w.trace tid (f (w.trace tid)) }

def isThreadOf (t : TaskSlot) (pid : Tid) : Bool := t.tgid == pid && signalLive t

def others (me pid : Tid) : List Tid :=
  w.kernel.tasks.keys.filter fun slot => slot != me && (w.task slot).any (isThreadOf · pid)

def postKill (slot : Tid) : Threads :=
  { w.mark slot fun trace => { trace with posted := true } with
    kernel := (w.kernel.modifyTask slot fun t => { t with sigPending := t.sigPending ||| KILL_BIT }).wakeTaskLocked slot }

def killOtherThreads (me pid : Tid) (mark : Process → Process) : Threads :=
  (w.others me pid).foldl postKill (w.setKernel (w.kernel.setProc pid (mark (w.kernel.proc pid))))

def retire (tid : Tid) : Threads :=
  (w.setKernel (w.kernel.modifyTask tid fun t => { t with state := .dead }).bumpSeq).setPlace tid .done

def markExit (code sig : Nat) (p : Process) : Process :=
  if p.groupExit then p else { p with groupExit := true, exitCode := code, termSig := sig }

def exitGroup (tid : Tid) (code sig : Nat) : Threads :=
  let pid := w.pid tid
  let killed := w.killOtherThreads tid pid (markExit code sig)
  let ended := { killed with exited := Function.update killed.exited (w.trace tid).process true }
  if tid = pid then ended.setPlace tid (.alone .exitGroup) else ended.retire tid

def threadExit (tid : Tid) (code : Nat) : Threads :=
  let pid := w.pid tid
  if tid = pid then
    let p := w.kernel.proc pid
    (w.setKernel (w.kernel.setProc pid (if p.groupExit then p else { p with exitCode := code }))).setPlace tid
      (.alone .threadExit)
  else w.retire tid

def execAlone (tid : Tid) : Threads :=
  let pid := w.pid tid
  if w.others tid pid = [] then w.setPlace tid .image
  else if tid ≠ pid then w.setPlace tid .exit
  else (w.killOtherThreads tid pid fun p => { p with groupExit := true }).setPlace tid (.alone .exec)

def newTask (tgid : Tid) (rip : Nat) (blocked : Sigset) : TaskSlot :=
  ⟨.ready, rip, tgid, 0, blocked, none, .none, 0, false, false⟩

def fork (child : Tid) (rip : Nat) (t : TaskSlot) : Threads :=
  { w with
    kernel := (w.kernel.setTask child (newTask child rip t.sigBlocked)).setProc child
      { w.kernel.proc t.tgid with groupExit := false, exitCode := 0, termSig := 0 }
    place := Function.update w.place child .fresh
    trace := Function.update w.trace child ⟨w.born, false, false, false, false⟩
    born := w.born + 1 }

def spawnThread (tid : Tid) (rip : Nat) (t : TaskSlot) (process : Nat) : Threads :=
  { w with
    kernel := w.kernel.setTask tid (newTask t.tgid rip t.sigBlocked)
    place := Function.update w.place tid .fresh
    trace := Function.update w.trace tid ⟨process, false, false, false, false⟩ }

def newMask (how : Nat) (cur mask : Sigset) : Option Sigset :=
  if how = 0 then some mask
  else if how = 1 then some (cur ||| mask)
  else if how = 2 then some (cur &&& ~~~mask)
  else none

def slotFree (slot : Tid) (rip : Nat) : Bool := (w.task slot).isNone && rip != 0

def begin_ (tid : Tid) (t : TaskSlot) (yes : Bool) : Call → Option Threads
  | .sigprocmask how mask =>
    some ((match newMask how t.sigBlocked mask with
      | some mask => w.setKernel (w.kernel.signalSetBlockedMask tid mask)
      | none => w).setPlace tid .exit)
  | .sigaction sig handler flags mask tramp =>
    some ((w.setKernel (w.kernel.signalSetAction tid sig handler flags mask tramp)).setPlace tid .exit)
  | .sigsuspend mask =>
    some ((w.setKernel ((w.kernel.modifyTask tid fun t => { t with suspendMask := some t.sigBlocked }).signalSetBlockedMask
      tid mask)).setPlace tid (.look .suspend))
  | .sigwait set => some (w.setPlace tid (.look (.set set)))
  | .sigMask fd mask => some ({ w with masks := Function.update w.masks fd mask }.setPlace tid .exit)
  | .sigRead fd more => some (w.setPlace tid (.look (.fd fd more)))
  | .sigreturn mask => some ((w.setKernel (w.kernel.signalSetBlockedMask tid mask)).setPlace tid .exit)
  | .fork child rip =>
    if yes then if w.slotFree child rip then some ((w.fork child rip t).setPlace tid .exit) else none
    else some (w.setPlace tid .exit)
  | .spawnThread new rip =>
    if yes then
      if w.slotFree new rip then some ((w.spawnThread new rip t (w.trace tid).process).setPlace tid .exit) else none
    else some (w.setPlace tid .exit)
  | .exec => some (if yes then w.execAlone tid else w.setPlace tid .exit)
  | .threadExit code => some (w.threadExit tid code)
  | .exit code => some (w.exitGroup tid code 0)
  | .other => some (w.setPlace tid (.look .other))
  | .quick => some (w.setPlace tid .exit)

def tryWait (tid : Tid) (seq : Nat) (yes : Bool) : Wait → Threads
  | .set set =>
    match w.kernel.signalTakeFrom tid set with
    | (kernel, some _) => (w.setKernel kernel).setPlace tid .exit
    | (kernel, none) => (w.setKernel kernel).setPlace tid (.check (.set set) seq)
  | .fd fd more =>
    match Kernel.takeSome tid (w.masks fd) (more + 1) w.kernel with
    | (kernel, 0) => (w.setKernel kernel).setPlace tid (.check (.fd fd more) seq)
    | (kernel, _ + 1) => (w.setKernel kernel).setPlace tid .exit
  | .suspend => w.setPlace tid (.check .suspend seq)
  | .other => if yes then w.setPlace tid .exit else w.setPlace tid (.check .other seq)

def toUser (tid : Tid) : Threads :=
  (w.mark tid fun trace => { trace with returned := trace.returned || trace.posted }).setPlace tid .user

def exitCheck (tid : Tid) (t : TaskSlot) (yes : Bool) : Threads :=
  let cleared := w.kernel.modifyTask tid fun t => { t with suspendMask := none }
  match cleared.signalNext tid with
  | (kernel, .none) =>
    (w.setKernel (match t.suspendMask with
      | some mask => kernel.signalSetBlockedMask tid mask
      | none => kernel)).toUser tid
  | (kernel, .terminate sig) =>
    ((w.setKernel kernel).mark tid fun trace => { trace with taken := trace.taken || sig == SIGKILL }).setPlace tid
      (.ending (128 + sig) sig)
  | (kernel, .deliver _ _ _ _) =>
    if yes then (w.setKernel kernel).toUser tid else (w.setKernel kernel).setPlace tid (.ending (128 + 11) 11)

def replaceUser (tid : Tid) : Threads :=
  let p := w.kernel.proc tid
  (w.setKernel ((w.kernel.setProc tid { p with act := fun _ => NO_ACTION, tramp := 0 }).modifyTask tid fun t =>
    { t with suspendMask := none })).toUser tid

def aloneDone (tid : Tid) : Alone → Threads
  | .exec =>
    let p := w.kernel.proc tid
    (w.setKernel (w.kernel.setProc tid { p with groupExit := false })).setPlace tid .image
  | _ => w.retire tid

def go (tid : Tid) (t : TaskSlot) (yes : Bool) : Place → Option Threads
  | .fresh => some (w.toUser tid)
  | .user => none
  | .start call => w.begin_ tid t yes call
  | .look wait => some (w.setPlace tid (.try_ wait w.kernel.waitSeq))
  | .try_ wait seq => some (w.tryWait tid seq yes wait)
  | .check wait seq =>
    some (w.setPlace tid (if w.kernel.signalWakeable t then .exit else .block wait seq))
  | .block wait seq =>
    if w.kernel.waitSeq = seq ∧ yes = true then
      some ((w.setKernel (w.kernel.blockUntil tid wait.key seq 0 0)).setPlace tid (.asleep wait))
    else some (w.setPlace tid (.look wait))
  | .asleep .other => some (w.setPlace tid (if yes then .look .other else .exit))
  | .asleep wait => some (w.setPlace tid (.look wait))
  | .exit => some (w.exitCheck tid t yes)
  | .ending code sig => some (w.exitGroup tid code sig)
  | .image => some (if yes then w.replaceUser tid else w.setPlace tid .exit)
  | .alone why => if w.others tid (w.pid tid) = [] then some (w.aloneDone tid why) else some w
  | .done => none

def act (tid : Tid) (t : TaskSlot) : Act → Option Threads
  | .enter call => match w.place tid with
      | .user => some (w.setPlace tid (.start call))
      | _ => none
  | .pageIn | .interrupt => match w.place tid with
      | .user => some (w.toUser tid)
      | _ => none
  | .faultCatch sig => match w.place tid with
      | .user => match w.kernel.signalCatchFault tid sig with
          | (kernel, true) => some ((w.setKernel kernel).toUser tid)
          | (kernel, false) => some ((w.setKernel kernel).setPlace tid (.ending (128 + sig) sig))
      | _ => none
  | .giveUp => match w.place tid with
      | .image => some (w.setPlace tid (.ending 127 0))
      | _ => none
  | .go yes => w.go tid t yes (w.place tid)

def send (id : Tid) (sig : Nat) : Threads :=
  let live := (w.task id).any signalLive
  let marked := if sig = SIGKILL ∧ live = true then
      w.mark id fun trace => { trace with posted := true, sent := trace.sent || w.pid id == id }
    else w
  marked.setKernel (w.kernel.signalSend id sig)

def spawn (slot : Tid) (rip : Nat) : Threads :=
  { w with
    kernel := (w.kernel.setTask slot (newTask slot rip 0)).setProc slot Process.EMPTY
    place := Function.update w.place slot .fresh
    trace := Function.update w.trace slot ⟨w.born, false, false, false, false⟩
    born := w.born + 1 }

def step : SigEvent → Option Threads
  | .spawn slot rip => if w.slotFree slot rip then some (w.spawn slot rip) else none
  | .act tid act =>
    ((w.task tid).filter fun t => t.state == .running && !t.midSwitch).bind fun t => w.act tid t act
  | .send id sig => some (w.send id sig)
  | .wake key => some (w.setKernel (w.kernel.wake key))
  | .timeout tid => some (w.setKernel (w.kernel.bumpSeq.wakeLocked tid))
  | .switch tid how => (w.kernel.switch tid how).map w.setKernel
  | .recycle tid =>
    ((w.task tid).filter fun t => t.state == .dead).map fun _ =>
      w.setKernel { w.kernel with tasks := w.kernel.tasks.erase tid, procs := w.kernel.procs.erase tid }

def Boot (w : Threads) : Prop := w.kernel.tasks = ∅ ∧ w.kernel.procs = ∅

def system : System Threads SigEvent := ⟨Boot, step⟩

end Threads
end Myos.Task
