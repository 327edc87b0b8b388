import Myos.Evfd.Timer
import Myos.Lib.System

namespace Myos.Evfd
open Lib

/-- How many of the expiries `first + k * interval` are at or before `now`; without an interval there is one. -/
def dueBy (first interval now : Nat) : Nat :=
  if interval = 0 then if first ≤ now then 1 else 0
  else (List.range (now + 1)).countP fun k => first + k * interval ≤ now

def NextAfter (first interval now next : Nat) : Prop :=
  (next = 0 ∧ ∀ k, first + k * interval ≤ now) ∨
    ∃ k, next = first + k * interval ∧ now < next ∧ ∀ j, now < first + j * interval → next ≤ first + j * interval

theorem dueBy_eq {first interval now n : Nat} (repeats : interval ≠ 0)
    (passed : ∀ k < n, first + k * interval ≤ now) (ahead : now < first + n * interval) :
    dueBy first interval now = n := by
  have short : n ≤ now + 1 := by
    refine Nat.le_of_not_lt fun long => ?_
    have late := passed (now + 1) (by omega)
    have least : now + 1 ≤ (now + 1) * interval := Nat.le_mul_of_pos_right _ (Nat.pos_of_ne_zero repeats)
    omega
  obtain ⟨rest, split⟩ := Nat.exists_eq_add_of_le short
  have first_n : (List.range n).countP (fun k => decide (first + k * interval ≤ now)) = n := by
    rw [List.countP_eq_length.mpr, List.length_range]
    exact fun k member => decide_eq_true (passed k (List.mem_range.mp member))
  have none_later : ((List.range rest).map (n + ·)).countP (fun k => decide (first + k * interval ≤ now)) = 0 := by
    refine List.countP_eq_zero.mpr fun k member => ?_
    obtain ⟨j, _, rfl⟩ := List.mem_map.mp member
    have more : n * interval ≤ (n + j) * interval := Nat.mul_le_mul_right _ (Nat.le_add_right n j)
    simp only [decide_eq_true_eq]
    omega
  rw [dueBy, if_neg repeats, split, List.range_add, List.countP_append, first_n, none_later, Nat.add_zero]

/-- A timer with what was asked of it: how it was armed, the last instant it was looked at since and what reads took
since. Over the whole run, `before` is what the earlier armings had expire, `read` what reads took and `forgot` what
arming forgot. -/
structure Watched where
  timer : TimerState
  first : Nat
  interval : Nat
  looked : Nat
  taken : Nat
  before : Nat
  read : Nat
  forgot : Nat

inductive Event
  | look (now : Nat)
  | read (now : Nat)
  | arm (first interval : Nat)

namespace Watched

variable {w : Watched}

def fresh (first interval : Nat) : Watched := ⟨.arm first interval, first, interval, 0, 0, 0, 0, 0⟩

def step (w : Watched) : Event → Option Watched
  | .look now => if w.looked ≤ now then some { w with timer := w.timer.fire now, looked := now } else none
  | .read now =>
    if w.looked ≤ now then
      let (timer, n) := w.timer.read now
      some { w with timer, looked := now, taken := w.taken + n, read := w.read + n }
    else none
  | .arm first interval =>
    if first = 0 then none
    else some {
      fresh first interval with
      before := w.before + dueBy w.first w.interval w.looked
      read := w.read
      forgot := w.forgot + w.timer.expirations }

def system : System Watched Event where
  start w := ∃ first interval, first ≠ 0 ∧ w = fresh first interval
  step := step

def meets (w : Watched) : Event → Prop
  | .look now | .read now =>
    w.interval ≠ 0 → ∃ k, now < w.first + k * w.interval ∧ w.first + k * w.interval ≤ U64_MAX
  | .arm .. => True

def expired (w : Watched) : Nat := w.taken + w.timer.expirations

structure Right (w : Watched) : Prop where
  armed : w.first ≠ 0
  interval : w.timer.intervalNs = w.interval
  once : w.interval = 0 → w.looked < w.first ∧ w.timer.nextNs = w.first ∧ w.expired = 0 ∨
    w.first ≤ w.looked ∧ w.timer.nextNs = 0 ∧ w.expired = 1
  next : w.interval ≠ 0 → w.timer.nextNs = w.first + w.expired * w.interval
  ahead : w.interval ≠ 0 → w.looked < w.timer.nextNs
  passed : w.interval ≠ 0 → ∀ k < w.expired, w.first + k * w.interval ≤ w.looked
  ledger : w.read + w.forgot = w.before + w.taken

theorem Right.expired_eq (right : w.Right) : w.expired = dueBy w.first w.interval w.looked := by
  by_cases single : w.interval = 0
  · rw [dueBy, if_pos single]
    obtain ⟨early, _, missing⟩ | ⟨late, _, one⟩ := right.once single
    · rw [if_neg (Nat.not_le.mpr early), missing]
    · rw [if_pos late, one]
  · exact (dueBy_eq single (right.passed single) (right.next single ▸ right.ahead single)).symm

theorem Right.nextAfter (right : w.Right) : NextAfter w.first w.interval w.looked w.timer.nextNs := by
  by_cases single : w.interval = 0
  · obtain ⟨early, next, _⟩ | ⟨late, next, _⟩ := right.once single
    · exact .inr ⟨0, by rw [next, Nat.zero_mul, Nat.add_zero], by rwa [next], fun j _ => next ▸ Nat.le_add_right ..⟩
    · exact .inl ⟨next, fun k => by rwa [single, Nat.mul_zero, Nat.add_zero]⟩
  refine .inr ⟨w.expired, right.next single, right.ahead single, fun j later => ?_⟩
  have notPassed : w.expired ≤ j := Nat.le_of_not_lt fun earlier =>
    Nat.not_le.mpr later (right.passed single j earlier)
  rw [right.next single]
  exact Nat.add_le_add_left (Nat.mul_le_mul_right _ notPassed) _

theorem missed_bounds {first interval n now : Nat} (repeats : interval ≠ 0) (due : first + n * interval ≤ now) :
    let all := n + ((now - (first + n * interval)) / interval + 1)
    now < first + all * interval ∧ ∀ k < all, first + k * interval ≤ now := by
  have split (q : Nat) : first + (n + q) * interval = first + n * interval + q * interval := by
    rw [Nat.add_mul, Nat.add_assoc]
  have beyond := Nat.lt_mul_div_succ (now - (first + n * interval)) (Nat.pos_of_ne_zero repeats)
  have within := Nat.div_mul_le_self (now - (first + n * interval)) interval
  rw [Nat.mul_comm interval] at beyond
  refine ⟨?_, fun k earlier => ?_⟩
  · rw [split]
    omega
  have last : k * interval ≤ (n + (now - (first + n * interval)) / interval) * interval :=
    Nat.mul_le_mul_right _ (by omega)
  have sum := split ((now - (first + n * interval)) / interval)
  omega

theorem Right.fire (right : w.Right) {now : Nat} (later : w.looked ≤ now) (met : w.meets (.look now)) :
    Right { w with timer := w.timer.fire now, looked := now } := by
  by_cases due : w.timer.due now = true
  · have isDue := due
    simp only [TimerState.due, Bool.and_eq_true, bne_iff_ne, decide_eq_true_eq] at isDue
    by_cases single : w.interval = 0
    · have fired : w.timer.fire now = { w.timer with expirations := min (w.timer.expirations + 1) U64_MAX, nextNs := 0 } := by
        simp [TimerState.fire, due, right.interval, single]
      obtain ⟨_, next, missing⟩ | ⟨_, next, _⟩ := right.once single
      · have unread : w.taken = 0 ∧ w.timer.expirations = 0 := Nat.add_eq_zero_iff.mp missing
        rw [fired]
        refine ⟨right.armed, right.interval, fun _ => .inr ⟨next ▸ isDue.2, rfl, ?_⟩, fun repeats => absurd single repeats,
          fun repeats => absurd single repeats, fun repeats => absurd single repeats, right.ledger⟩
        rw [expired, unread.1, unread.2]
        rfl
      · exact absurd next isDue.1
    · have next := right.next single
      rw [next] at isDue
      obtain ⟨beyond, passed⟩ := missed_bounds single isDue.2
      obtain ⟨k, after, fits⟩ := met single
      have most : w.expired + ((now - (w.first + w.expired * w.interval)) / w.interval + 1) ≤ k :=
        Nat.le_of_not_lt fun fewer => Nat.not_le.mpr after (passed k fewer)
      generalize isMissed : (now - (w.first + w.expired * w.interval)) / w.interval + 1 = missed at beyond passed most
      have product : (w.expired + missed) * w.interval = w.expired * w.interval + missed * w.interval := Nat.add_mul ..
      have bound := Nat.mul_le_mul_right w.interval most
      have count : w.expired + missed ≤ (w.expired + missed) * w.interval :=
        Nat.le_mul_of_pos_right _ (Nat.pos_of_ne_zero single)
      have total : w.expired = w.taken + w.timer.expirations := rfl
      have fired : w.timer.fire now = ⟨w.first + (w.expired + missed) * w.interval, w.interval,
          w.timer.expirations + missed⟩ := by
        simp only [TimerState.fire, due, right.interval, single, next, isMissed, Bool.not_true, Bool.false_eq_true, if_false]
        rw [Nat.min_eq_left (by omega), Nat.min_eq_left (by omega), Nat.min_eq_left (by omega), product, Nat.add_assoc]
      have sum : w.taken + (w.timer.expirations + missed) = w.expired + missed := by omega
      rw [fired]
      exact ⟨right.armed, rfl, fun once => absurd once single,
        fun _ => congrArg (fun n => w.first + n * w.interval) sum.symm, fun _ => beyond,
        fun _ k earlier => passed k (Nat.lt_of_lt_of_eq earlier sum), right.ledger⟩
  · have quiet : w.timer.due now = false := by simpa using due
    rw [TimerState.fire_expirations_of_not_due quiet]
    have ahead : w.timer.nextNs = 0 ∨ now < w.timer.nextNs := by
      simpa [TimerState.due, Nat.not_le, or_iff_not_imp_left] using due
    refine ⟨right.armed, right.interval, fun single => ?_, right.next, fun repeats => ?_, fun repeats k earlier => ?_,
      right.ledger⟩
    · obtain ⟨_, next, noneLeft⟩ | ⟨late, next, one⟩ := right.once single
      · rw [next] at ahead
        exact .inl ⟨ahead.resolve_left right.armed, next, noneLeft⟩
      · exact .inr ⟨Nat.le_trans late later, next, one⟩
    · exact ahead.resolve_left (Nat.ne_of_gt (Nat.zero_lt_of_lt (right.ahead repeats)))
    · exact Nat.le_trans (right.passed repeats k earlier) later

theorem Right.take (right : w.Right) : Right { w with
    timer := { w.timer with expirations := 0 }, taken := w.expired, read := w.read + w.timer.expirations } := by
  refine ⟨right.armed, right.interval, right.once, right.next, right.ahead, right.passed, ?_⟩
  have ledger := right.ledger
  simp only [expired]
  omega

theorem Right.arm {first interval : Nat} (nonzero : first ≠ 0) {before read forgot : Nat} (ledger : read + forgot = before) :
    Right { fresh first interval with before, read, forgot } := by
  refine ⟨nonzero, rfl, fun _ => .inl ⟨Nat.pos_of_ne_zero nonzero, rfl, rfl⟩, fun _ => ?_,
    fun _ => Nat.pos_of_ne_zero nonzero, fun _ k wrong => absurd wrong (Nat.not_lt_zero k), ledger⟩
  simp [fresh, expired, TimerState.arm]

theorem Right.step (right : w.Right) {event : Event} (met : w.meets event) {next : Watched}
    (stepped : w.step event = some next) : next.Right := by
  cases event with
  | look now =>
    exact guarded stepped fun later => right.fire later met
  | read now =>
    exact guarded stepped fun later => (right.fire later met).take
  | arm first interval =>
    obtain ⟨nonzero, ⟨⟩⟩ := Option.ite_none_left_eq_some.mp stepped
    refine Right.arm nonzero ?_
    have ledger := right.ledger
    rw [← right.expired_eq, expired]
    omega

/-- What reads took since the arming and what is left to take are the expiries up to the last look, and the timer's next
one is the least after it. Over all armings, what was neither read nor is left was forgotten by the next arming. -/
theorem reach_dueBy (reached : system.Reach meets w) :
    w.taken + w.timer.expirations = dueBy w.first w.interval w.looked ∧
      NextAfter w.first w.interval w.looked w.timer.nextNs ∧
      w.read + w.forgot + w.timer.expirations = w.before + dueBy w.first w.interval w.looked := by
  have right : w.Right := by
    refine reached.invariant ?_ fun _ _ _ right met stepped => right.step met stepped
    rintro _ ⟨first, interval, nonzero, rfl⟩
    exact Right.arm nonzero rfl
  have ledger := right.ledger
  rw [← right.expired_eq]
  refine ⟨rfl, right.nextAfter, ?_⟩
  rw [expired]
  omega

theorem reach_dueBy_late : (0 + 3 = dueBy 5 2 10) ∧ NextAfter 5 2 10 11 ∧ 0 + 0 + 3 = 0 + dueBy 5 2 10 := by
  have start : system.Reach meets (fresh 5 2) := .start ⟨5, 2, by decide, rfl⟩
  have looks : (fresh 5 2).meets (.look 10) := fun _ => ⟨3, by decide, by decide⟩
  exact reach_dueBy (start.next looks rfl)

end Watched
end Myos.Evfd
