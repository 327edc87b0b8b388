import Myos.Lib.Checked
import Myos.Lib.Consts

namespace Myos.Task.Alarm
open Lib Checked

structure Timer where
  due : Nat
  every : Nat
  deriving DecidableEq

structure Rearm where
  due : Nat
  every : Nat
  now : Nat
  next : Nat

structure Found where
  live : Bool
  sends : Bool

def toNs (us : Nat) : Nat := min (us * 1000) U64_MAX

def alarmTick (timer : Timer) (found : Found) (now : Nat) : Checked Empty (Timer × Nat × Option Rearm) :=
  if found.live = false then return ({ timer with due := 0 }, U64_MAX, none)
  else if now < timer.due then return (timer, timer.due, none)
  else if found.sends = false then return (timer, timer.due, none)
  else if timer.every = 0 then return ({ timer with due := 0 }, U64_MAX, none)
  else do
    let late ← sub now timer.due
    let next ← add 64 timer.due (← mul 64 timer.every (← add 64 (late / timer.every) 1))
    return ({ timer with due := next }, if next = 0 then U64_MAX else next, some ⟨timer.due, timer.every, now, next⟩)

def tickSlots (found : Nat → Found) (now : Nat) : Nat → List Timer → Checked Empty (List Timer × Nat × List Rearm)
  | _, [] => return ([], U64_MAX, [])
  | i, timer :: rest =>
    if timer.due = 0 then do
      let (timers, next, rearms) ← tickSlots found now (i + 1) rest
      return (timer :: timers, next, rearms)
    else do
      let (timer, due, rearm) ← alarmTick timer (found i) now
      let (timers, next, rearms) ← tickSlots found now (i + 1) rest
      return (timer :: timers, min due next, rearm.toList ++ rearms)

structure Alarms where
  timers : List Timer
  nextDeadline : Nat
  rearms : List Rearm

def timerTick (alarms : Alarms) (found : Nat → Found) (others now : Nat) : Checked Empty Alarms :=
  if now < alarms.nextDeadline then return alarms
  else do
    let (timers, next, rearms) ← tickSlots found now 0 alarms.timers
    return { timers, nextDeadline := min next others, rearms := rearms ++ alarms.rearms }

def itimerSwap (alarms : Alarms) (pid now : Nat) (new : Option (Nat × Nat)) : Alarms × Nat × Nat :=
  match alarms.timers[pid]? with
  | none => (alarms, 0, 0)
  | some timer =>
    let old := (if timer.due = 0 then 0 else max (timer.due - now) 1, timer.every)
    match new with
    | none => (alarms, old)
    | some (value, interval) =>
      let set : Timer := if value = 0 then ⟨0, 0⟩ else ⟨saturatingAdd now value, interval⟩
      ({ alarms with
          timers := alarms.timers.set pid set
          nextDeadline := if set.due = 0 then alarms.nextDeadline else min alarms.nextDeadline set.due }, old)

def sysItimer (alarms : Alarms) (pid now : Nat) (new : Option (Nat × Nat)) : Alarms × Nat × Nat :=
  itimerSwap alarms pid now (new.map fun words => (toNs words.1, toNs words.2))

def Rearm.Least (rearm : Rearm) : Prop :=
  rearm.now < rearm.next ∧ (∃ k, rearm.next = rearm.due + k * rearm.every) ∧
    ∀ k, rearm.now < rearm.due + k * rearm.every → rearm.next ≤ rearm.due + k * rearm.every

def Timer.Expires (timer : Timer) (now : Nat) : Prop :=
  timer.due ≠ 0 → timer.due ≤ now → timer.every ≠ 0 →
    ∃ k, now < timer.due + k * timer.every ∧ timer.due + k * timer.every < 2 ^ 64

theorem after_now {due every now : Nat} (passed : due ≤ now) (positive : every ≠ 0) :
    now < due + every * ((now - due) / every + 1) := by
  have split := Nat.lt_mul_div_succ (now - due) (Nat.pos_of_ne_zero positive)
  omega

theorem least_after {due every now k : Nat} (passed : due ≤ now) (later : now < due + k * every) :
    due + every * ((now - due) / every + 1) ≤ due + k * every := by
  have fewer : (now - due) / every < k := Nat.div_lt_of_lt_mul (by rw [Nat.mul_comm]; omega)
  rw [Nat.mul_comm k]
  exact Nat.add_le_add_left (Nat.mul_le_mul_left every fewer) due

theorem expires_iff (timer : Timer) (now : Nat) :
    timer.Expires now ↔ (timer.due ≠ 0 → timer.due ≤ now → timer.every ≠ 0 →
      timer.due + timer.every * ((now - timer.due) / timer.every + 1) < 2 ^ 64) := by
  constructor
  · intro expires armed passed positive
    obtain ⟨k, later, fits⟩ := expires armed passed positive
    exact Nat.lt_of_le_of_lt (least_after passed later) fits
  intro fits armed passed nonzero
  refine ⟨(now - timer.due) / timer.every + 1, ?_, ?_⟩
  all_goals rw [Nat.mul_comm]
  · exact after_now passed nonzero
  · exact fits armed passed nonzero

instance (timer : Timer) (now : Nat) : Decidable (timer.Expires now) := decidable_of_iff _ (expires_iff timer now).symm

theorem safe_alarmTick {timer : Timer} (found : Found) {now : Nat} (word : now < 2 ^ 64) (armed : timer.due ≠ 0)
    (expires : timer.Expires now) :
    Safe (alarmTick timer found now) fun out => ∀ rearm, out.2.2 = some rearm → rearm.Least := by
  unfold alarmTick
  iterate 4
    split
    · exact fun _ member => by cases member
  rename_i due _ positive
  have passed : timer.due ≤ now := Nat.le_of_not_lt due
  have fits := (expires_iff timer now).mp expires armed passed positive
  have quotient : (now - timer.due) / timer.every + 1 ≤ timer.every * ((now - timer.due) / timer.every + 1) :=
    Nat.le_mul_of_pos_left _ (Nat.pos_of_ne_zero positive)
  refine Safe.sub passed ?_
  refine Safe.add (by omega) ?_
  refine Safe.mul (by omega) ?_
  refine Safe.add fits ?_
  intro rearm made
  cases made
  exact ⟨after_now passed positive, ⟨_, by rw [Nat.mul_comm]⟩, fun k later => least_after passed later⟩

-- a timer set with the longest interval, at its first tick
example : Overflows (alarmTick ⟨1, U64_MAX⟩ ⟨true, true⟩ 1) := by decide +kernel

theorem safe_tickSlots (found : Nat → Found) {now : Nat} (word : now < 2 ^ 64) (i : Nat) (timers : List Timer)
    (expires : ∀ timer ∈ timers, timer.Expires now) :
    Safe (tickSlots found now i timers) fun out => ∀ rearm ∈ out.2.2, rearm.Least := by
  induction timers generalizing i with
  | nil => exact fun rearm missing => absurd missing List.not_mem_nil
  | cons timer rest ih =>
    have later := ih (i + 1) fun timer member => expires timer (.tail _ member)
    unfold tickSlots
    split
    · exact later.bind fun _ least => least
    rename_i armed
    refine (safe_alarmTick (found i) word armed (expires timer (.head _))).bind fun _ first => ?_
    refine later.bind fun _ least rearm member => ?_
    rcases List.mem_append.mp member with member | member
    · exact first rearm (Option.mem_toList.mp member)
    · exact least rearm member

theorem safe_timerTick {alarms : Alarms} (found : Nat → Found) (others : Nat) {now : Nat} (word : now < 2 ^ 64)
    (expires : ∀ timer ∈ alarms.timers, timer.Expires now) (least : ∀ rearm ∈ alarms.rearms, rearm.Least) :
    Safe (timerTick alarms found others now) fun out => ∀ rearm ∈ out.rearms, rearm.Least := by
  unfold timerTick
  split
  · exact least
  refine (safe_tickSlots found word 0 alarms.timers expires).bind fun _ new rearm member => ?_
  rcases List.mem_append.mp member with member | member
  · exact new rearm member
  · exact least rearm member

end Myos.Task.Alarm
