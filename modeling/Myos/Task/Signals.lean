import Myos.Task.Sched

namespace Myos.Task
open Lib

def SIGKILL : Nat := 9
def SIGURG : Nat := 16
def SIGSTOP : Nat := 17
def SIGTSTP : Nat := 18
def SIGCONT : Nat := 19
def SIGCHLD : Nat := 20
def SIGTTIN : Nat := 21
def SIGTTOU : Nat := 22
def SIGWINCH : Nat := 28

def HANDLER_DFL : Nat := 0
def HANDLER_IGN : Nat := 1
def SA_NODEFER : Sigset := 0x40000000
def SA_RESETHAND : Sigset := 0x80000000

def bit (sig : Nat) : Sigset := 1#32 <<< sig

def KILL_BIT : Sigset := bit SIGKILL
def UNBLOCKABLE : Sigset := KILL_BIT ||| bit SIGSTOP

def defaultTerminates (sig : Nat) : Bool :=
  !([SIGURG, SIGSTOP, SIGTSTP, SIGCONT, SIGCHLD, SIGTTIN, SIGTTOU, SIGWINCH].contains sig)

def NO_ACTION : SigAction := ⟨0, 0, 0⟩

def Process.EMPTY : Process := ⟨false, 0, 0, 0, fun _ => NO_ACTION, 0⟩

inductive Disposition
  | ignore
  | terminate
  | catch_ (act : SigAction)

inductive SigNext
  | none
  | terminate (sig : Nat)
  | deliver (sig : Nat) (act : SigAction) (tramp : Nat) (oldBlocked : Sigset)

def signalLive (t : TaskSlot) : Bool :=
  t.userRip != 0 && (t.state == .ready || t.state == .running || t.state == .blocked)

def deliverable (t : TaskSlot) : Sigset := t.sigPending &&& (~~~t.sigBlocked ||| KILL_BIT)

def trailingZeros (set : Sigset) : Nat := ((List.range 32).find? fun i => set.getLsbD i).getD 32

namespace Kernel

variable (k : Kernel)

def proc (pid : Tid) : Process := (k.procs.lookup pid).getD Process.EMPTY

def setProc (pid : Tid) (p : Process) : Kernel := { k with procs := k.procs.insert pid p }

def disposition (t : TaskSlot) (sig : Nat) : Disposition :=
  if sig = SIGKILL then .terminate
  else
    let p := k.proc t.tgid
    if p.sigIgnored &&& bit sig ≠ 0 then .ignore
    else
      let act := p.act sig
      if act.handler ≠ 0 ∧ p.tramp ≠ 0 then .catch_ act
      else if defaultTerminates sig then .terminate
      else .ignore

def ignores (t : TaskSlot) (sig : Nat) : Bool :=
  match k.disposition t sig with
  | .ignore => true
  | _ => false

def isBlocked (t : TaskSlot) (sig : Nat) : Bool := t.sigBlocked &&& bit sig != 0 && bit sig &&& UNBLOCKABLE == 0

def sendLocked (id : Tid) (sig : Nat) : Kernel :=
  match k.tasks.lookup id with
  | none => k
  | some t =>
    if !signalLive t || (!isBlocked t sig && k.ignores t sig) then k
    else
      let posted := k.setTask id { t with sigPending := t.sigPending ||| bit sig }
      if !isBlocked t sig then posted.wakeTaskLocked id
      else
        match posted.wakeKeyLocked .signal with
        | (woken, true) => woken.bumpSeq
        | (woken, false) => woken

def signalSend (id : Tid) (sig : Nat) : Kernel := if sig = 0 ∨ 31 < sig then k else k.sendLocked id sig

def signalWakeable (t : TaskSlot) : Bool :=
  (List.range 32).any fun sig => sig != 0 && (deliverable t).getLsbD sig && !k.ignores t sig

def catch_ (id : Tid) (t : TaskSlot) (sig : Nat) (act : SigAction) : Kernel :=
  let add := if act.flags &&& SA_NODEFER = 0 then act.mask ||| bit sig else act.mask
  let caught := k.setTask id { t with sigBlocked := (t.sigBlocked ||| add) &&& ~~~UNBLOCKABLE }
  if act.flags &&& SA_RESETHAND ≠ 0 then
    let p := k.proc t.tgid
    caught.setProc t.tgid { p with act := Function.update p.act sig NO_ACTION }
  else caught

def signalNextLoop (id : Tid) (t : TaskSlot) : Nat → Kernel × SigNext
  | 0 => (k.setTask id t, .none)
  | fuel + 1 =>
    let set := deliverable t
    if set = 0 then (k.setTask id t, .none)
    else
      let sig := if set &&& KILL_BIT ≠ 0 then SIGKILL else trailingZeros set
      let t := { t with sigPending := t.sigPending &&& ~~~bit sig }
      match k.disposition t sig with
      | .ignore => signalNextLoop id t fuel
      | .terminate => (k.setTask id t, .terminate sig)
      | .catch_ act => (k.catch_ id t sig act, .deliver sig act (k.proc t.tgid).tramp t.sigBlocked)

def signalNext (id : Tid) : Kernel × SigNext :=
  match k.tasks.lookup id with
  | none => (k, .none)
  | some t => k.signalNextLoop id t 33

def signalCatchFault (id : Tid) (sig : Nat) : Kernel × Bool :=
  match k.tasks.lookup id with
  | none => (k, false)
  | some t =>
    if t.sigBlocked &&& bit sig ≠ 0 then (k, false)
    else
      match k.disposition t sig with
      | .catch_ act => (k.catch_ id t sig act, true)
      | _ => (k, false)

def discard (pid : Tid) (sig : Nat) : Kernel :=
  k.tasks.keys.foldl (fun k slot => k.modifyTask slot fun t =>
    if t.tgid = pid then { t with sigPending := t.sigPending &&& ~~~bit sig } else t) k

def signalSetAction (id : Tid) (sig handler : Nat) (flags mask : Sigset) (tramp : Nat) : Kernel :=
  if sig = 0 ∨ 31 < sig then k
  else if bit sig &&& UNBLOCKABLE ≠ 0 ∧ handler ≠ HANDLER_DFL then k
  else if HANDLER_IGN < handler ∧ tramp = 0 then k
  else
    match k.tasks.lookup id with
    | none => k
    | some t =>
      let p := k.proc t.tgid
      let plain := Function.update p.act sig { NO_ACTION with flags }
      if handler = HANDLER_IGN then
        (k.setProc t.tgid { p with sigIgnored := p.sigIgnored ||| bit sig, act := plain }).discard t.tgid sig
      else if handler = HANDLER_DFL then
        let reset := k.setProc t.tgid { p with sigIgnored := p.sigIgnored &&& ~~~bit sig, act := plain }
        if defaultTerminates sig then reset else reset.discard t.tgid sig
      else
        k.setProc t.tgid { p with
          sigIgnored := p.sigIgnored &&& ~~~bit sig
          act := Function.update p.act sig ⟨handler, mask &&& ~~~UNBLOCKABLE, flags⟩
          tramp }

def signalSetBlockedMask (id : Tid) (mask : Sigset) : Kernel :=
  k.modifyTask id fun t => { t with sigBlocked := mask &&& ~~~UNBLOCKABLE }

def takeable (t : TaskSlot) (set : Sigset) : Sigset := t.sigPending &&& set &&& ~~~1

def signalTakeFrom (id : Tid) (set : Sigset) : Kernel × Option Nat :=
  match k.tasks.lookup id with
  | none => (k, none)
  | some t =>
    if takeable t set = 0 then (k, none)
    else
      let sig := trailingZeros (takeable t set)
      (k.setTask id { t with sigPending := t.sigPending &&& ~~~bit sig }, some sig)

def takeSome (id : Tid) (set : Sigset) : Nat → Kernel → Kernel × Nat
  | 0, k => (k, 0)
  | records + 1, k =>
    match k.signalTakeFrom id set with
    | (k, none) => (k, 0)
    | (k, some _) =>
      match takeSome id set records k with
      | (k, taken) => (k, taken + 1)

end Kernel
end Myos.Task
