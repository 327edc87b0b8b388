import Myos.Evfd.Timer
import Myos.Lib.System
import Myos.Task.Signals

namespace Myos.Task.Sleep
open Lib Myos.Evfd

inductive Watch
  | signals (set : Sigset)
  | timer (id : Nat)
deriving DecidableEq

/-- `sigwait` and the read of a signal fd take signals of a set, the read of a timer fd its expiries;
`poll` and the read of a wait set look at several objects, until a deadline (0 for none). -/
inductive Wait
  | signals (set : Sigset) (more : Nat)
  | timer (id : Nat)
  | poll (watches : List Watch) (deadline : Nat)
deriving DecidableEq

def Wait.key : Wait → WaitKey
  | .signals _ _ => .signal
  | .timer id => .timer id
  | .poll _ _ => .any

def Wait.watches : Wait → List Watch
  | .signals set _ => [.signals set]
  | .timer id => [.timer id]
  | .poll watches _ => watches

/-- Where a task is in a wait: at its top (`look`), looking at what is left of it (`scan`, with what it has
seen not ready), looking for a signal that ends it, reading its deadline, and blocking; or between the two
halves of a `timer_ctl_write` (`arm`). -/
inductive Place
  | idle
  | look (wait : Wait)
  | scan (wait : Wait) (seq : Nat) (found : Bool) (seen rest : List Watch)
  | check (wait : Wait) (seq : Nat)
  | deadline (wait : Wait) (seq : Nat)
  | block (wait : Wait) (seq deadline : Nat)
  | asleep (wait : Wait)
  | arm (id nextNs : Nat)
deriving DecidableEq

/-- A `timer_tick` that holds `TASKS`: the instant it acts for, the earliest deadline it has seen, whether
it woke a task, and the timers it has still to look at (`none` before it has their table). -/
structure Tick where
  now : Nat
  next : Nat
  woke : Bool
  rest : Option (List Nat)
deriving DecidableEq

/-- `ticking` are the instants of the `timer_tick` calls that found a deadline past and have not come to
`TASKS` yet. -/
structure World extends Placed Place where
  timers : Table Nat TimerState
  nextDeadline : Nat
  now : Nat
  ticking : List Nat
  tick : Option Tick

inductive Event
  | spawn (slot : Tid) (rip : Nat)
  | wait (tid : Tid) (wait : Wait)
  | look (tid : Tid)
  | scan (tid : Tid)
  | check (tid : Tid)
  | deadline (tid : Tid)
  | block (tid : Tid)
  | resume (tid : Tid)
  | sigprocmask (tid : Tid) (mask : Sigset)
  | sigaction (tid : Tid) (sig handler : Nat) (flags mask : Sigset) (tramp : Nat)
  | deliver (tid : Tid)
  | arm (tid : Tid) (id nextNs intervalNs : Nat)
  | publish (tid : Tid)
  | allocTimer (id : Nat)
  | freeTimer (id : Nat)
  | send (id : Tid) (sig : Nat)
  | wake (key : WaitKey)
  | advance (ns : Nat)
  | tickTest (now : Nat)
  | tickGiveUp (now : Nat)
  | tickTasks (now alarms : Nat)
  | tickTable (busy : Bool)
  | tickTimer (busy : Bool)
  | tickStore
  | switch (tid : Tid) (how : Switch)
deriving DecidableEq

namespace World

variable (w : World)

def setPlace (tid : Tid) (place : Place) : World := { w with place := Function.update w.place tid place }

def setKernel (kernel : Kernel) : World := { w with kernel }

def setTimer (id : Nat) (s : TimerState) : World := { w with timers := w.timers.insert id s }

def expirations (id : Nat) : Nat := ((w.timers.lookup id).map TimerState.expirations).getD 0

def holds (pending : Sigset) : Watch → Bool
  | .signals set => pending &&& set &&& ~~~1 != 0
  | .timer id => decide (0 < w.expirations id)

def scan (tid : Tid) (t : TaskSlot) : Place → Option World
  | .scan (.signals set more) seq _ _ _ =>
    if w.tick.isSome then none
    else
      match Kernel.takeSome tid set (more + 1) w.kernel with
      | (kernel, 0) => some ((w.setKernel kernel).setPlace tid (.check (.signals set more) seq))
      | (kernel, _ + 1) => some ((w.setKernel kernel).setPlace tid .idle)
  | .scan (.timer id) seq _ _ _ =>
    match w.timers.lookup id with
    | none => some (w.setPlace tid (.check (.timer id) seq))
    | some s =>
      match s.read w.now with
      | (s, 0) => some ((w.setTimer id s).setPlace tid (.check (.timer id) seq))
      | (s, _ + 1) => some ((w.setTimer id s).setPlace tid .idle)
  | .scan wait seq found seen (.signals set :: rest) =>
    if w.tick.isSome then none
    else
      let ready := w.holds t.sigPending (.signals set)
      some (w.setPlace tid (.scan wait seq (found || ready) (.signals set :: seen) rest))
  | .scan wait seq found seen (.timer id :: rest) =>
    let fired := { w with timers := match w.timers.lookup id with
      | none => w.timers
      | some s => w.timers.insert id (s.fire w.now) }
    let ready := fired.holds t.sigPending (.timer id)
    some (fired.setPlace tid (.scan wait seq (found || ready) (.timer id :: seen) rest))
  | .scan wait seq found _ [] => some (w.setPlace tid (if found then .idle else .check wait seq))
  | _ => none

def check (tid : Tid) (t : TaskSlot) : Place → Option World
  | .check wait seq =>
    if w.tick.isSome then none
    else some (w.setPlace tid (if w.kernel.signalWakeable t then .idle else .deadline wait seq))
  | _ => none

def timerNextNs (id : Nat) : Nat := ((w.timers.lookup id).map TimerState.nextNs).getD 0

def readDeadline (tid : Tid) : Place → Option World
  | .deadline (.timer id) seq => some (w.setPlace tid (.block (.timer id) seq (w.timerNextNs id)))
  | .deadline (.poll watches deadline) seq => some (w.setPlace tid (.block (.poll watches deadline) seq deadline))
  | .deadline wait seq => some (w.setPlace tid (.block wait seq 0))
  | _ => none

def block (tid : Tid) : Place → Option World
  | .block wait seq deadline =>
    if w.tick.isSome then none
    else if w.kernel.blocks seq deadline w.now then
      some ({ w with
        kernel := w.kernel.blockUntil tid wait.key seq deadline w.now
        nextDeadline := if deadline = 0 then w.nextDeadline else min w.nextDeadline deadline }.setPlace tid
          (.asleep wait))
    else some (w.setPlace tid (.look wait))
  | _ => none

def newTask (slot : Tid) (rip : Nat) : TaskSlot := ⟨.ready, rip, slot, 0, 0, none, .none, 0, false, false⟩

def dueTask (now : Nat) (t : TaskSlot) : Bool := t.state == .blocked && t.wakeAt != 0 && decide (t.wakeAt ≤ now)

def tickTasks (now alarms : Nat) : World :=
  let slots := w.kernel.tasks.keys
  let kernel := slots.foldl (Kernel.wakeIf · (dueTask now)) w.kernel
  let left := slots.filterMap fun slot =>
    (w.task slot).bind fun t =>
      if t.state = .blocked ∧ t.wakeAt ≠ 0 ∧ now < t.wakeAt then some t.wakeAt else none
  { w with
    kernel
    ticking := w.ticking.erase now
    tick := some {
      now
      next := left.foldl min (min alarms U64_MAX)
      woke := slots.any fun slot => (w.task slot).any (dueTask now)
      rest := none } }

def tickTimer (tick : Tick) (id : Nat) (rest : List Nat) (busy : Bool) : World :=
  match w.timers.lookup id with
  | none => { w with tick := some { tick with rest := some rest } }
  | some s =>
    if busy then { w with tick := some { tick with next := min tick.next tick.now, rest := some rest } }
    else
      let fired := s.fire tick.now
      let next := if fired.nextNs = 0 then tick.next else min tick.next fired.nextNs
      if s.due tick.now then
        match w.kernel.wakeKeyLocked (.timer id) with
        | (kernel, woke) =>
          { w with
            kernel
            timers := w.timers.insert id fired
            tick := some { tick with next, woke := tick.woke || woke, rest := some rest } }
      else { w with timers := w.timers.insert id fired, tick := some { tick with next, rest := some rest } }

def tableFree : Bool :=
  match w.tick with
  | none => true
  | some tick => tick.rest.all fun rest => rest.isEmpty

def step : Event → Option World
  | .spawn slot rip =>
    if (w.task slot).isNone ∧ w.tick = none then
      some ((w.setKernel (w.kernel.setTask slot (newTask slot rip))).setPlace slot .idle)
    else none
  | .wait tid wait => if (w.running tid).isSome ∧ w.place tid = .idle then some (w.setPlace tid (.look wait)) else none
  | .look tid =>
    match w.running tid, w.place tid with
    | some _, .look wait => some (w.setPlace tid (.scan wait w.kernel.waitSeq false [] wait.watches))
    | _, _ => none
  | .scan tid => (w.running tid).bind fun t => w.scan tid t (w.place tid)
  | .check tid => (w.running tid).bind fun t => w.check tid t (w.place tid)
  | .deadline tid => (w.running tid).bind fun _ => w.readDeadline tid (w.place tid)
  | .block tid => (w.running tid).bind fun _ => w.block tid (w.place tid)
  | .resume tid =>
    match w.running tid, w.place tid with
    | some _, .asleep wait => some (w.setPlace tid (.look wait))
    | _, _ => none
  | .sigprocmask tid mask =>
    if (w.running tid).isSome ∧ w.place tid = .idle ∧ w.tick = none then
      some (w.setKernel (w.kernel.signalSetBlockedMask tid mask))
    else none
  | .sigaction tid sig handler flags mask tramp =>
    if (w.running tid).isSome ∧ w.place tid = .idle ∧ w.tick = none then
      some (w.setKernel (w.kernel.signalSetAction tid sig handler flags mask tramp))
    else none
  | .deliver tid =>
    if (w.running tid).isSome ∧ w.place tid = .idle ∧ w.tick = none then
      some (w.setKernel (w.kernel.signalNext tid).1)
    else none
  | .arm tid id nextNs intervalNs =>
    if (w.running tid).isSome ∧ w.place tid = .idle ∧ (w.timers.lookup id).isSome ∧ nextNs ≤ U64_MAX then
      some ((w.setTimer id (.arm nextNs intervalNs)).setPlace tid (if nextNs = 0 then .idle else .arm id nextNs))
    else none
  | .publish tid =>
    match w.running tid, w.place tid with
    | some _, .arm _ nextNs => some ({ w with nextDeadline := min w.nextDeadline nextNs }.setPlace tid .idle)
    | _, _ => none
  | .allocTimer id =>
    if (w.timers.lookup id).isNone ∧ w.tableFree then some (w.setTimer id ⟨0, 0, 0⟩) else none
  | .freeTimer id => if w.tableFree then some { w with timers := w.timers.erase id } else none
  | .send id sig => if w.tick = none then some (w.setKernel (w.kernel.signalSend id sig)) else none
  | .wake key => if w.tick = none then some (w.setKernel (w.kernel.wake key)) else none
  | .advance ns => some { w with now := w.now + ns }
  | .tickTest now =>
    if now ≤ w.now ∧ w.nextDeadline ≤ now then some { w with ticking := now :: w.ticking } else none
  | .tickGiveUp now => if now ∈ w.ticking then some { w with ticking := w.ticking.erase now } else none
  | .tickTasks now alarms => if now ∈ w.ticking ∧ w.tick = none then some (w.tickTasks now alarms) else none
  | .tickTable busy =>
    match w.tick with
    | some tick =>
      if tick.rest = none then
        some { w with tick := some (if busy then { tick with next := min tick.next tick.now, rest := some [] }
          else { tick with rest := some w.timers.keys }) }
      else none
    | none => none
  | .tickTimer busy =>
    match w.tick with
    | some tick =>
      match tick.rest with
      | some (id :: rest) => some (w.tickTimer tick id rest busy)
      | _ => none
    | none => none
  | .tickStore =>
    match w.tick with
    | some tick =>
      if tick.rest = some [] then
        some { w with
          nextDeadline := tick.next
          kernel := if tick.woke then w.kernel.bumpSeq else w.kernel
          tick := none }
      else none
    | none => none
  | .switch tid how => if w.tick.isSome then none else (w.kernel.switch tid how).map w.setKernel

def Boot (w : World) : Prop :=
  w.kernel.tasks = ∅ ∧ w.kernel.anyWaiters = 0 ∧ w.timers = ∅ ∧ w.nextDeadline = U64_MAX ∧ w.ticking = [] ∧ w.tick = none ∧
    ∀ tid, w.place tid = .idle

def system : System World Event := ⟨Boot, step⟩

end World
end Myos.Task.Sleep
