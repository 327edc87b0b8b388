import Myos.Task.SigKillRun

namespace Myos.Task.Threads
open Lib

variable {w : Threads}

variable {process : Nat} {event : SigEvent} {t : TaskSlot} {w' : Threads} {pid : Tid} {moves : Tid → Prop}

theorem Inv.killed_of_sent (inv : w.Inv) (found : w.task pid = some t)
    (isSent : (w.trace pid).sent = true) (running : w.exited (w.trace pid).process = false) :
    (w.place pid).working = true ∧ ((w.place pid).ends = false → t.killed = true) := by
  have fit := inv pid t found
  obtain ⟨posted, -, works⟩ := fit.sent isSent
  refine ⟨works running, fun goes => ?_⟩
  rcases fit.pending posted with killed | taken
  · exact killed
  · rw [fit.taken taken] at goes
    cases goes

theorem exited_exitGroup (tid : Tid) (code sig : Nat) :
    (w.exitGroup tid code sig).exited (w.trace tid).process = true := by
  have isOver (u : Threads) : ({ u with exited := Function.update u.exited (w.trace tid).process true } : Threads).exited
      (w.trace tid).process = true := Function.update_self ..
  unfold Threads.exitGroup
  simp only
  split
  · exact isOver _
  · exact isOver _

theorem begin_rank (inv : w.Inv) (found : w.task pid = some t) {call : Call}
    (here : w.place pid = .start call) (isSent : (w.trace pid).sent = true)
    (running : w.exited (w.trace pid).process = false) {yes : Bool} (met : w.meets (.act pid (.go yes)) = true)
    (stepped : w.begin_ pid t yes call = some w') :
    w'.exited (w.trace pid).process = true ∨ (w'.place pid).rank < 7 := by
  obtain ⟨works, pending⟩ := inv.killed_of_sent found isSent running
  have killed : t.killed = true := pending (by rw [here]; rfl)
  cases call with
  | exit code =>
    cases stepped
    exact .inl (exited_exitGroup pid code 0)
  | threadExit code =>
    rw [here] at works
    cases works
  | exec =>
    right
    cases yes with
    | false =>
      cases stepped
      simp [Place.rank]
    | true =>
      cases stepped
      have alone : w.others pid (w.pid pid) = [] := by
        simpa [meets, here, killPending_of_task found, killed] using met
      simp only [execAlone, alone, if_true]
      rw [place_setPlace_self]
      decide
  | fork child rip | spawnThread new rip =>
    right
    cases yes with
    | false =>
      cases stepped
      rw [place_setPlace_self]
      decide
    | true =>
      refine guarded stepped fun free => ?_
      rw [place_setPlace_self]
      decide
  | sigprocmask how mask =>
    right
    cases stepped
    rw [place_setPlace_self]
    decide
  | _ =>
    right
    cases stepped
    rw [place_setPlace_self]
    simp [Place.rank]

theorem tryWait_rank (tid : Tid) (seq : Nat) (yes : Bool) (wait : Wait) :
    ((w.tryWait tid seq yes wait).place tid).rank < 4 := by
  cases wait with
  | set set | fd fd more =>
    rw [tryWait]
    split <;> simp [Place.rank]
  | suspend => simp [tryWait, Place.rank]
  | other => cases yes <;> simp [tryWait, Place.rank]

theorem act_rank (inv : w.Inv) (found : w.task pid = some t)
    (isSent : (w.trace pid).sent = true) (running : w.exited (w.trace pid).process = false) {act : Act}
    (met : w.meets (.act pid act) = true) (stepped : w.act pid t act = some w') :
    w'.exited (w.trace pid).process = true ∨ (w'.place pid).rank < (w.place pid).rank := by
  obtain ⟨works, killed⟩ := inv.killed_of_sent found isSent running
  have pending := killPending_of_task found
  cases here : w.place pid with
  | fresh =>
    have killed : t.killed = true := killed (by rw [here]; rfl)
    cases act with
    | go yes => simp [meets, here, pending, killed] at met
    | _ => simp [Threads.act, here] at stepped
  | look wait =>
    cases act <;> simp only [Threads.act, here] at stepped <;> cases stepped
    right
    simp [Place.rank]
  | user =>
    have killed : t.killed = true := killed (by rw [here]; rfl)
    cases act with
    | enter call =>
      simp only [Threads.act, here] at stepped
      cases stepped
      right
      simp [Place.rank]
    | pageIn | interrupt | faultCatch sig => simp [meets, pending, killed] at met
    | giveUp => simp [Threads.act, here] at stepped
    | go yes => simp [Threads.act, here, go] at stepped
  | start call =>
    cases act with
    | go yes =>
      simp only [Threads.act, here] at stepped
      exact begin_rank inv found here isSent running met stepped
    | _ => simp [Threads.act, here] at stepped
  | try_ wait seq =>
    cases act <;> simp only [Threads.act, here] at stepped <;> cases stepped
    right
    exact tryWait_rank ..
  | check wait seq =>
    have killed : t.killed = true := killed (by rw [here]; rfl)
    cases act <;> simp only [Threads.act, here] at stepped <;> cases stepped
    right
    rw [Kernel.signalWakeable_killed killed, place_setPlace_self]
    simp [Place.rank]
  | block wait seq =>
    have killed : t.killed = true := killed (by rw [here]; rfl)
    have late := (inv pid t found).late killed seq (by rw [here]; rfl)
    cases act with
    | go yes =>
      have moved : ¬ (w.kernel.waitSeq = seq ∧ yes = true) := by omega
      simp only [Threads.act, here, go, if_neg moved] at stepped
      cases stepped
      right
      simp [Place.rank]
    | _ => simp [Threads.act, here] at stepped
  | asleep wait =>
    cases act with
    | go yes =>
      simp only [Threads.act, here] at stepped
      right
      cases wait with
      | other =>
        cases yes <;> cases stepped <;> rw [place_setPlace_self] <;> simp [Place.rank]
      | _ =>
        cases stepped
        rw [place_setPlace_self]
        simp [Place.rank]
    | _ => simp [Threads.act, here] at stepped
  | exit =>
    have killed : t.killed = true := killed (by rw [here]; rfl)
    cases act <;> simp only [Threads.act, here] at stepped <;> cases stepped
    right
    rw [exitCheck_killed found killed, place_setPlace_self]
    decide
  | ending code sig =>
    cases act <;> simp only [Threads.act, here] at stepped <;> cases stepped
    exact .inl (exited_exitGroup pid code sig)
  | image =>
    have killed : t.killed = true := killed (by rw [here]; rfl)
    cases act with
    | giveUp =>
      simp only [Threads.act, here] at stepped
      cases stepped
      right
      simp [Place.rank]
    | go yes =>
      have fails : yes = false := by simpa [meets, here, pending, killed] using met
      simp only [Threads.act, here, fails] at stepped
      cases stepped
      right
      simp [Place.rank]
    | _ => simp [Threads.act, here] at stepped
  | alone why | done =>
    rw [here] at works
    cases works

structure Doomed (w : Threads) (pid : Tid) (process : Nat) : Prop where
  lives : (w.task pid).isSome = true
  serial : (w.trace pid).process = process
  sent : (w.trace pid).sent = true
  running : w.exited process = false

theorem Acts.doomed (acts : Acts moves w w') (doomed : Doomed w pid process) :
    w'.exited process = true ∨ Doomed w' pid process := by
  cases isOver : w'.exited process with
  | true => exact .inl rfl
  | false =>
    exact .inr ⟨acts.task pid doomed.lives, (acts.process pid doomed.lives).trans doomed.serial,
      acts.sent pid doomed.lives doomed.sent, isOver⟩

theorem step_rank (inv : w.Inv) (doomed : Doomed w pid process)
    (met : w.meets event = true) (stepped : w.step event = some w') :
    w'.exited process = true ∨
      (Doomed w' pid process ∧ (w'.place pid).rank + (own pid event).toNat ≤ (w.place pid).rank) := by
  obtain ⟨t, found⟩ := Option.isSome_iff_exists.mp doomed.lives
  have running : w.exited (w.trace pid).process = false := doomed.serial ▸ doomed.running
  by_cases kept : ∃ tid, event = .recycle tid
  · obtain ⟨tid, rfl⟩ := kept
    obtain ⟨u, gone, made⟩ := Option.map_eq_some_iff.mp stepped
    obtain ⟨there, dead⟩ := Option.filter_eq_some_iff.mp gone
    cases made
    have other : pid ≠ tid := by
      rintro rfl
      have done := (inv pid u there).dead.mp (beq_iff_eq.mp dead)
      have works := (inv.killed_of_sent found doomed.sent running).1
      rw [done] at works
      cases works
    refine .inr ⟨⟨?_, doomed.serial, doomed.sent, doomed.running⟩, le_rfl⟩
    have lookup : (w.kernel.tasks.erase tid).lookup pid = w.kernel.tasks.lookup pid := AList.lookup_erase_ne other
    change ((w.kernel.tasks.erase tid).lookup pid).isSome = true
    rw [lookup]
    exact doomed.lives
  · have acts := (inv.step met stepped).2 fun tid same => kept ⟨tid, same⟩
    cases isOwn : own pid event with
    | false =>
      refine (acts.doomed doomed).imp_right fun still => ⟨still, ?_⟩
      rw [acts.place pid (by simp [isOwn]) doomed.lives]
      simp
    | true =>
      cases event with
      | act tid act =>
        cases beq_iff_eq.mp isOwn
        obtain ⟨u, there, stepped⟩ := Option.bind_eq_some_iff.mp stepped
        have there := (Option.filter_eq_some_iff.mp there).1
        rcases act_rank inv there doomed.sent running met stepped with isOver | nearer
        · exact .inl (doomed.serial ▸ isOver)
        · refine (acts.doomed doomed).imp_right fun still => ⟨still, ?_⟩
          simp only [Bool.toNat_true]
          omega
      | _ => cases isOwn

theorem step_exited (inv : w.Inv) (met : w.meets event = true) (stepped : w.step event = some w') (process : Nat)
    (isOver : w.exited process = true) : w'.exited process = true := by
  by_cases kept : ∃ tid, event = .recycle tid
  · obtain ⟨tid, rfl⟩ := kept
    exact mapped stepped fun u _ => isOver
  · exact ((inv.step met stepped).2 fun tid same => kept ⟨tid, same⟩).exited process isOver

theorem run_exited (inv : w.Inv) (events : List SigEvent)
    (ran : system.runMeeting (fun w event => w.meets event = true) w events = some w')
    (isOver : w.exited process = true) : w'.exited process = true := by
  induction events generalizing w with
  | nil =>
    cases ran
    exact isOver
  | cons event events ih =>
    simp only [System.runMeeting, Option.ite_none_right_eq_some] at ran
    obtain ⟨met, ran⟩ := ran
    obtain ⟨next, stepped, ran⟩ := Option.bind_eq_some_iff.mp ran
    exact ih (inv.step met stepped).1 ran (step_exited inv met stepped process isOver)

theorem rank_pos {place : Place} (works : place.working = true) : 0 < place.rank := by
  cases place with
  | alone why => cases works
  | done => cases works
  | _ => simp [Place.rank]

theorem run_rank (inv : w.Inv) (doomed : Doomed w pid process)
    (events : List SigEvent) (ran : system.runMeeting (fun w event => w.meets event = true) w events = some w')
    (enough : (w.place pid).rank ≤ events.countP (own pid)) (here : 0 < (w.place pid).rank) :
    w'.exited process = true := by
  induction events generalizing w with
  | nil =>
    rw [List.countP_nil] at enough
    omega
  | cons event events ih =>
    simp only [System.runMeeting, Option.ite_none_right_eq_some] at ran
    obtain ⟨met, ran⟩ := ran
    obtain ⟨next, stepped, ran⟩ := Option.bind_eq_some_iff.mp ran
    have kept := (inv.step met stepped).1
    rcases step_rank inv doomed met stepped with isOver | ⟨still, nearer⟩
    · exact run_exited kept events ran isOver
    have placed : 0 < (next.place pid).rank := by
      obtain ⟨t, found⟩ := Option.isSome_iff_exists.mp still.lives
      exact rank_pos (kept.killed_of_sent found still.sent (still.serial ▸ still.running)).1
    refine ih kept still ran ?_ placed
    rw [List.countP_cons] at enough
    cases isOwn : own pid event with
    | false =>
      simp only [isOwn, Bool.toNat_false] at nearer enough
      simp only [Bool.false_eq_true, if_false] at enough
      omega
    | true =>
      simp only [isOwn, Bool.toNat_true, if_true] at nearer enough
      omega

/-- What `SIGKILL` does to the threads it was posted to, in runs of `allowed` steps: only the `signal_next`
that ends the process takes it, none of them returns to user mode or is left asleep, and the leader of a
process it was sent to has a step to take and is in `exit_group` after nine of its own. -/
structure Kills (allowed : Threads → SigEvent → Bool) (w : Threads) : Prop where
  pending : ∀ tid, (w.task tid).isSome = true → (w.trace tid).posted = true →
    w.killPending tid = true ∨ (w.trace tid).taken = true
  noReturn : ∀ tid, (w.task tid).isSome = true → (w.trace tid).posted = true → (w.trace tid).returned = false
  awake : ∀ tid t, w.task tid = some t → t.killed = true → t.awake
  goes : ∀ pid t, w.task pid = some t → (w.trace pid).sent = true → w.exited (w.trace pid).process = false →
    ∃ act, (w.act pid t act).isSome = true
  ends : ∀ pid, (w.task pid).isSome = true → (w.trace pid).sent = true → ∀ events w',
    system.runMeeting (fun w event => allowed w event = true) w events = some w' →
    9 ≤ events.countP (own pid) → w'.exited (w.trace pid).process = true

theorem exists_act (works : (w.place pid).working = true) :
    ∃ act, (w.act pid t act).isSome = true := by
  cases here : w.place pid with
  | user => exact ⟨.enter .quick, by simp [Threads.act, here]⟩
  | start call =>
    refine ⟨.go false, ?_⟩
    cases call <;> simp [Threads.act, here, go, begin_]
  | asleep wait =>
    refine ⟨.go false, ?_⟩
    cases wait <;> simp [Threads.act, here, go]
  | alone why | done =>
    rw [here] at works
    cases works
  | _ => exact ⟨.go false, by simp [Threads.act, here, go]⟩

theorem rank_le_nine (place : Place) : place.rank ≤ 9 := by
  cases place <;> simp [Place.rank]

theorem reach_kills (w : Threads) (reachable : system.Reach (fun w event => w.meets event = true) w) :
    Kills meets w := by
  have inv := reach_inv reachable
  refine ⟨fun tid lives posted => ?_, fun tid lives _ => ?_, fun tid t found killed => ?_, fun pid t found isSent running => ?_,
    fun pid lives isSent events w' ran enough => ?_⟩
  · obtain ⟨t, found⟩ := Option.isSome_iff_exists.mp lives
    rw [killPending_of_task found]
    exact (inv tid t found).pending posted
  · obtain ⟨t, found⟩ := Option.isSome_iff_exists.mp lives
    exact (inv tid t found).returned
  · exact (inv tid t found).awake killed
  · exact exists_act (inv.killed_of_sent found isSent running).1
  cases isOver : w.exited (w.trace pid).process with
  | true => exact run_exited inv events ran isOver
  | false =>
    obtain ⟨t, found⟩ := Option.isSome_iff_exists.mp lives
    exact run_rank inv ⟨lives, rfl, isSent, isOver⟩ events ran (Nat.le_trans (rank_le_nine _) enough)
      (rank_pos (inv.killed_of_sent found isSent isOver).1)

def boot : Threads := ⟨⟨⟨∅, ∅, 0, 0⟩, fun _ => .done⟩, fun _ => 0, fun _ => ⟨0, false, false, false, false⟩, 0, fun _ => false⟩

/-- A process blocked in a read is sent `SIGKILL`: woken, it leaves the read, takes the signal and ends. -/
theorem reach_kills_reader : ∃ w, system.Reach (fun w event => w.meets event = true) w ∧ Kills meets w ∧
    (w.trace 1).taken = true := by
  have booted : system.Reach (fun w event => w.meets event = true) boot := .start ⟨rfl, rfl⟩
  have reached := booted.runMeeting [.spawn 1 64, .switch 1 .dispatch, .act 1 (.go true), .act 1 (.enter .other),
    .act 1 (.go true), .act 1 (.go true), .act 1 (.go false), .act 1 (.go true), .act 1 (.go true), .send 1 SIGKILL,
    .switch 1 .dispatch, .act 1 (.go true), .act 1 (.go true), .act 1 (.go false), .act 1 (.go true), .act 1 (.go true)] rfl
  exact ⟨_, reached, reach_kills _ reached, rfl⟩

/-- A process waits with `sigwait` for a set with `SIGKILL` in it, is sent one, and goes on. -/
theorem sigwait_takes_kill : ¬ ∀ w, system.Reach System.Any w → Kills (fun _ _ => true) w := by
  intro kills
  have booted : system.Reach System.Any boot := .start ⟨rfl, rfl⟩
  have reached := booted.run [.spawn 1 64, .switch 1 .dispatch, .act 1 (.go true), .act 1 (.enter (.sigwait KILL_BIT)),
    .act 1 (.go true), .act 1 (.go true), .send 1 SIGKILL, .act 1 (.go true), .act 1 (.go true)] rfl
  exact absurd ((kills _ reached).noReturn 1 rfl rfl) (by decide)

end Myos.Task.Threads
