import Myos.Task.SleepSpec

namespace Myos.Task.Sleep
open Lib Myos.Evfd

def Later (s s' : TimerState) : Prop :=
  s.nextNs ≤ U64_MAX → s'.nextNs ≤ U64_MAX ∧ (s'.nextNs ≠ 0 → s.nextNs ≠ 0 ∧ s.nextNs ≤ s'.nextNs)

theorem Later.refl (s : TimerState) : Later s s := fun bound => ⟨bound, fun armed => ⟨armed, le_rfl⟩⟩

theorem fire_later (s : TimerState) (now : Nat) : Later s (s.fire now) :=
  fun bound => ⟨TimerState.fire_nextNs_le now bound, TimerState.le_nextNs_fire bound⟩

theorem read_later (s : TimerState) (now : Nat) : Later s (s.read now).1 := fire_later s now

namespace World

variable {w w' : World}

def Covered (w : World) (id next bound : Nat) : Prop :=
  bound ≤ next ∨ ∃ tid at_, w.place tid = .arm id at_ ∧ at_ ≤ next

structure Armed (w : World) : Prop where
  idle : ∀ tid, w.task tid = none → w.place tid = .idle
  bounded : ∀ id s, w.timers.lookup id = some s → s.nextNs ≤ U64_MAX
  covered : ∀ id s, w.timers.lookup id = some s → s.nextNs ≠ 0 → w.Covered id s.nextNs w.nextDeadline
  ticked : ∀ tick rest, w.tick = some tick → tick.rest = some rest → ∀ id s, id ∉ rest →
    w.timers.lookup id = some s → s.nextNs ≠ 0 → w.Covered id s.nextNs tick.next

structure Ebbs (w w' : World) : Prop where
  place : ∀ tid id at_, w.place tid = .arm id at_ → w'.place tid = .arm id at_
  absent : ∀ tid, w'.task tid = none → w.task tid = none ∧ (w.place tid = .idle → w'.place tid = .idle)
  timers : ∀ id s', w'.timers.lookup id = some s' → s'.nextNs = 0 ∨ ∃ s, w.timers.lookup id = some s ∧ Later s s'
  deadline : w'.nextDeadline ≤ w.nextDeadline
  tick : w'.tick = w.tick

variable {k : Kernel} {id : Nat} {t : TaskSlot} {tid : Tid}

theorem Covered.mono {next next' bound bound' : Nat} (covered : w.Covered id next bound)
    (place : ∀ tid id at_, w.place tid = .arm id at_ → w'.place tid = .arm id at_) (later : next ≤ next')
    (earlier : bound' ≤ bound) : w'.Covered id next' bound' := by
  obtain early | ⟨tid, at_, arms, early⟩ := covered
  · exact Or.inl (Nat.le_trans earlier (Nat.le_trans early later))
  · exact Or.inr ⟨tid, at_, place tid id at_ arms, Nat.le_trans early later⟩

theorem Armed.covers (armed : w.Armed)
    (timers : ∀ id s', w'.timers.lookup id = some s' → s'.nextNs = 0 ∨ ∃ s, w.timers.lookup id = some s ∧ Later s s')
    (place : ∀ tid id at_, w.place tid = .arm id at_ → w'.place tid = .arm id at_) {bound bound' : Nat}
    {s' : TimerState} (covered : ∀ s, w.timers.lookup id = some s → s.nextNs ≠ 0 → w.Covered id s.nextNs bound)
    (found : w'.timers.lookup id = some s') (runs : s'.nextNs ≠ 0) (earlier : bound' ≤ bound) :
    w'.Covered id s'.nextNs bound' := by
  obtain off | ⟨s, found, later⟩ := timers id s' found
  · exact absurd off runs
  · obtain ⟨_, later⟩ := later (armed.bounded id s found)
    obtain ⟨ran, later⟩ := later runs
    exact (covered s found ran).mono place later earlier

theorem Armed.ebbs (armed : w.Armed) (ebbs : Ebbs w w') : w'.Armed where
  idle tid missing := by
    obtain ⟨missing, stays⟩ := ebbs.absent tid missing
    exact stays (armed.idle tid missing)
  bounded id s' found := by
    obtain off | ⟨s, found, later⟩ := ebbs.timers id s' found
    · rw [off]
      exact Nat.zero_le _
    · exact (later (armed.bounded id s found)).1
  covered id s' found runs :=
    armed.covers ebbs.timers ebbs.place (armed.covered id) found runs ebbs.deadline
  ticked tick rest ticking left id s' seen found runs := by
    rw [ebbs.tick] at ticking
    exact armed.covers ebbs.timers ebbs.place (fun s => armed.ticked tick rest ticking left id s seen) found runs
      le_rfl

theorem Ebbs.same (timers : w'.timers = w.timers) (place : w'.place = w.place)
    (absent : ∀ tid, w'.task tid = none → w.task tid = none) (deadline : w'.nextDeadline ≤ w.nextDeadline)
    (tick : w'.tick = w.tick) : Ebbs w w' where
  place _ _ _ arms := by rw [place]; exact arms
  absent tid missing := ⟨absent tid missing, fun idle => by rw [place]; exact idle⟩
  timers id s' found := Or.inr ⟨s', timers ▸ found, Later.refl s'⟩
  deadline := deadline
  tick := tick

theorem Ebbs.refl (w : World) : Ebbs w w := .same rfl rfl (fun _ => id) le_rfl rfl

theorem setKernel_ebbs
    (forth : ∀ tid, (w.kernel.tasks.lookup tid).isSome = true → (k.tasks.lookup tid).isSome = true) :
    Ebbs w (w.setKernel k) := by
  refine .same rfl rfl (fun tid missing => ?_) le_rfl rfl
  by_contra present
  have lives := forth tid (Option.isSome_iff_ne_none.mpr present)
  rw [show k.tasks.lookup tid = none from missing] at lives
  cases lives

theorem calm_ebbs (calm : Kernel.Calm Dozes w.kernel k) : Ebbs w (w.setKernel k) := setKernel_ebbs calm.forth

theorem Ebbs.setPlace (ebbs : Ebbs w w') (lives : (w.task tid).isSome = true)
    (other : ∀ id at_, w.place tid ≠ .arm id at_) (place : Place) : Ebbs w (w'.setPlace tid place) where
  place slot id at_ arms := by
    by_cases same : slot = tid
    · subst same
      exact absurd arms (other id at_)
    · exact (Function.update_of_ne same ..).trans (ebbs.place slot id at_ arms)
  absent slot missing := by
    obtain ⟨before, stays⟩ := ebbs.absent slot missing
    refine ⟨before, fun idle => ?_⟩
    by_cases same : slot = tid
    · subst same
      rw [before] at lives
      cases lives
    · exact (Function.update_of_ne same ..).trans (stays idle)
  timers := ebbs.timers
  deadline := ebbs.deadline
  tick := ebbs.tick

theorem setTimer_ebbs {s s' : TimerState} (found : w.timers.lookup id = some s) (later : Later s s') :
    Ebbs w (w.setTimer id s') where
  place _ _ _ arms := arms
  absent _ missing := ⟨missing, fun idle => idle⟩
  timers other u foundU := by
    obtain ⟨rfl, rfl⟩ | ⟨_, foundU⟩ := Table.lookup_insert_some foundU
    · exact Or.inr ⟨s, found, later⟩
    · exact Or.inr ⟨u, foundU, Later.refl u⟩
  deadline := le_rfl
  tick := rfl

theorem running_task (runs : w.running tid = some t) : w.task tid = some t :=
  (Option.filter_eq_some_iff.mp runs).1

theorem running_isSome (runs : w.running tid = some t) : (w.task tid).isSome = true := by
  rw [running_task runs]
  rfl

theorem not_arm {from_ : Place} (here : w.place tid = from_) (other : ∀ id at_, from_ ≠ .arm id at_)
    (id at_ : Nat) : w.place tid ≠ .arm id at_ := here ▸ other id at_

theorem takeSome_dozes (tid : Tid) (set : Sigset) (records : Nat) :
    Kernel.Calm Dozes k (Kernel.takeSome tid set records k).1 :=
  Kernel.takeSome_calm tid records (fun t _ => clears_dozes t _) (fun _ _ _ _ => trivial) fun _ _ => trivial

variable (lives : (w.task tid).isSome = true)
include lives

theorem scan_ebbs
    (scanned : w.scan tid t (w.place tid) = some w') : Ebbs w w' := by
  have other (id at_ : Nat) : w.place tid ≠ .arm id at_ := by
    intro arms
    rw [arms] at scanned
    cases scanned
  unfold scan at scanned
  split at scanned
  · rename_i set more seq _ _ _ _
    have calm : Kernel.Calm Dozes w.kernel (Kernel.takeSome tid set (more + 1) w.kernel).1 := takeSome_dozes tid set (more + 1)
    split at scanned
    · cases scanned
    split at scanned <;> rename_i taken <;> rw [taken] at calm <;> cases scanned <;>
      exact (calm_ebbs calm).setPlace lives other _
  · split at scanned
    · cases scanned
      exact (Ebbs.refl w).setPlace lives other _
    rename_i s found
    have later := read_later s w.now
    split at scanned <;> rename_i read <;> rw [read] at later <;> cases scanned <;>
      exact (setTimer_ebbs found later).setPlace lives other _
  · split at scanned
    · cases scanned
    · cases scanned
      exact (Ebbs.refl w).setPlace lives other _
  · rename_i id rest _ _ _
    cases scanned
    cases found : w.timers.lookup id with
    | none => exact (Ebbs.refl w).setPlace lives other _
    | some s => exact (setTimer_ebbs found (fire_later s w.now)).setPlace lives other _
  · cases scanned
    exact (Ebbs.refl w).setPlace lives other _
  · cases scanned

theorem block_ebbs (blocked : w.block tid (w.place tid) = some w') :
    Ebbs w w' := by
  unfold block at blocked
  split at blocked
  · rename_i wait seq deadline here
    have other := not_arm here (by simp)
    split at blocked
    · cases blocked
    split at blocked
    · cases blocked
      apply Ebbs.setPlace _ lives other
      refine .same rfl rfl (fun slot missing => ?_) ?_ rfl
      · rename_i goes
        by_contra present
        have forth : ((w.kernel.blockUntil tid wait.key seq deadline w.now).tasks.lookup slot).isSome = true := by
          rw [Kernel.blockUntil, if_pos goes]
          exact Kernel.modifyTask_forth tid _ slot (Option.isSome_iff_ne_none.mpr present)
        rw [show (w.kernel.blockUntil tid wait.key seq deadline w.now).tasks.lookup slot = none from missing] at forth
        cases forth
      · simp only
        split
        · exact le_rfl
        · exact Nat.min_le_left ..
    · cases blocked
      exact (Ebbs.refl w).setPlace lives other _
  · cases blocked

variable (armed : w.Armed)
include armed

theorem Armed.idle_setPlace {place : Place} {slot : Tid} (missing : w.task slot = none) :
    Function.update w.place tid place slot = .idle := by
  have apart : slot ≠ tid := by
    rintro rfl
    rw [missing] at lives
    cases lives
  exact (Function.update_of_ne apart ..).trans (armed.idle slot missing)

theorem Armed.arm {nextNs intervalNs : Nat}
    (idle : w.place tid = .idle) (bound : nextNs ≤ U64_MAX) :
    ((w.setTimer id (.arm nextNs intervalNs)).setPlace tid (if nextNs = 0 then .idle else .arm id nextNs)).Armed := by
  have place (slot : Tid) (other at_ : Nat) (arms : w.place slot = .arm other at_) :
      Function.update w.place tid (if nextNs = 0 then .idle else .arm id nextNs) slot = .arm other at_ := by
    by_cases same : slot = tid
    · subst same
      rw [idle] at arms
      cases arms
    · exact (Function.update_of_ne same ..).trans arms
  -- The timer armed is covered by its own `timer_ctl_write`, the others as before.
  have covers (other : Nat) (s : TimerState) (bound : Nat)
      (found : (w.timers.insert id (TimerState.arm nextNs intervalNs)).lookup other = some s) (runs : s.nextNs ≠ 0)
      (before : ∀ s, w.timers.lookup other = some s → s.nextNs ≠ 0 → w.Covered other s.nextNs bound) :
      ((w.setTimer id (.arm nextNs intervalNs)).setPlace tid (if nextNs = 0 then .idle else .arm id nextNs)).Covered other
        s.nextNs bound := by
    obtain ⟨rfl, rfl⟩ | ⟨_, found⟩ := Table.lookup_insert_some found
    · exact Or.inr ⟨tid, nextNs, (Function.update_self ..).trans (if_neg runs), le_rfl⟩
    · exact (before s found runs).mono place le_rfl le_rfl
  refine ⟨fun slot missing => ?_, fun other s found => ?_, fun other s found runs => ?_,
    fun tick rest ticking left other s seen found runs => ?_⟩
  · exact armed.idle_setPlace lives missing
  · obtain ⟨rfl, rfl⟩ | ⟨_, found⟩ := Table.lookup_insert_some found
    · exact bound
    · exact armed.bounded other s found
  · exact covers other s _ found runs (armed.covered other)
  · exact covers other s _ found runs fun s => armed.ticked tick rest ticking left other s seen

theorem Armed.publish {nextNs : Nat}
    (here : w.place tid = .arm id nextNs)
    (ahead : ∀ tick rest, w.tick = some tick → tick.rest = some rest → id ∈ rest) :
    ({ w with nextDeadline := min w.nextDeadline nextNs }.setPlace tid .idle).Armed := by
  have others {slot : Tid} {other at_ : Nat} (apart : slot ≠ tid) (arms : w.place slot = .arm other at_) :
      Function.update w.place tid .idle slot = .arm other at_ := (Function.update_of_ne apart ..).trans arms
  refine ⟨fun slot missing => ?_, armed.bounded, fun other s found runs => ?_,
    fun tick rest ticking left other s seen found runs => ?_⟩
  · exact armed.idle_setPlace lives missing
  · obtain early | ⟨slot, at_, arms, early⟩ := armed.covered other s found runs
    · exact Or.inl (Nat.le_trans (Nat.min_le_left ..) early)
    by_cases same : slot = tid
    · subst same
      rw [here] at arms
      cases arms
      exact Or.inl (Nat.le_trans (Nat.min_le_right ..) early)
    · exact Or.inr ⟨slot, at_, others same arms, early⟩
  · obtain early | ⟨slot, at_, arms, early⟩ := armed.ticked tick rest ticking left other s seen found runs
    · exact Or.inl early
    by_cases same : slot = tid
    · subst same
      rw [here] at arms
      cases arms
      exact absurd (ahead tick rest ticking left) seen
    · exact Or.inr ⟨slot, at_, others same arms, early⟩

omit lives

theorem Armed.tick (ebbs : Ebbs w { w' with tick := w.tick })
    (ticked : ∀ tick rest, w'.tick = some tick → tick.rest = some rest → ∀ id s, id ∉ rest →
      w'.timers.lookup id = some s → s.nextNs ≠ 0 → w'.Covered id s.nextNs tick.next) : w'.Armed := by
  have after := armed.ebbs ebbs
  exact ⟨after.idle, after.bounded, after.covered, ticked⟩

theorem Armed.past {tick tick' : Tick} {rest : List Nat} (ticking : w.tick = some tick)
    (left : tick.rest = some (id :: rest)) (ebbs : Ebbs w { w' with tick := w.tick }) (ticking' : w'.tick = some tick')
    (left' : tick'.rest = some rest) (place : w'.place = w.place) (earlier : tick'.next ≤ tick.next)
    (others : ∀ other, other ≠ id → w'.timers.lookup other = w.timers.lookup other)
    (gathered : ∀ s, w'.timers.lookup id = some s → s.nextNs ≠ 0 → tick'.next ≤ s.nextNs) : w'.Armed := by
  refine armed.tick ebbs fun last rest' isLast isRest other s seen found runs => ?_
  cases ticking'.symm.trans isLast
  cases left'.symm.trans isRest
  by_cases same : other = id
  · subst same
    exact Or.inl (gathered s found runs)
  rw [others other same] at found
  have past : other ∉ id :: rest := fun member => (List.mem_cons.mp member).elim same seen
  refine (armed.ticked tick _ ticking left other s past found runs).mono ?_ le_rfl earlier
  intro tid id at_ arms
  rw [place]
  exact arms

omit armed in
theorem notBefore_le {now : Nat} {s : TimerState} (ahead : notBefore now s = true) (runs : s.nextNs ≠ 0) :
    now ≤ s.nextNs := by
  simpa [notBefore, runs] using ahead

theorem Armed.tickTimer {tick : Tick} {rest : List Nat} {busy : Bool}
    (ticking : w.tick = some tick) (left : tick.rest = some (id :: rest))
    (ahead : ∀ s, w.timers.lookup id = some s → busy = true → notBefore tick.now s = true) :
    (w.tickTimer tick id rest busy).Armed := by
  unfold World.tickTimer
  cases found : w.timers.lookup id with
  | none =>
    refine armed.past ticking left (.same rfl rfl (fun _ missing => missing) le_rfl rfl) rfl rfl rfl
      le_rfl (fun _ _ => rfl) fun s foundS => ?_
    rw [show w.timers.lookup id = some s from foundS] at found
    cases found
  | some s =>
    cases busy with
    | true =>
      refine armed.past ticking left (.same rfl rfl (fun _ missing => missing) le_rfl rfl) rfl rfl rfl
        (Nat.min_le_left ..) (fun _ _ => rfl) fun u foundU runs => ?_
      exact Nat.le_trans (Nat.min_le_right ..) (notBefore_le (ahead u foundU rfl) runs)
    | false =>
      -- What follows does not depend on whether the timer was due.
      have earlier : (if (s.fire tick.now).nextNs = 0 then tick.next else min tick.next (s.fire tick.now).nextNs) ≤
          tick.next := by
        split
        · exact le_rfl
        · exact Nat.min_le_left ..
      have others (other : Nat) (apart : other ≠ id) :
          (w.timers.insert id (s.fire tick.now)).lookup other = w.timers.lookup other := AList.lookup_insert_ne apart
      have gathered (u : TimerState) (foundU : (w.timers.insert id (s.fire tick.now)).lookup id = some u)
          (runs : u.nextNs ≠ 0) :
          (if (s.fire tick.now).nextNs = 0 then tick.next else min tick.next (s.fire tick.now).nextNs) ≤ u.nextNs := by
        rw [AList.lookup_insert] at foundU
        cases foundU
        rw [if_neg runs]
        exact Nat.min_le_right ..
      have ebbs := setTimer_ebbs found (fire_later s tick.now)
      simp only [Bool.false_eq_true, if_false]
      split
      · have calm : Kernel.Calm Dozes w.kernel (w.kernel.wakeKeyLocked (.timer id)).1 := Kernel.wakeKeyLocked_calm _
        have woken := calm_ebbs (w := w.setTimer id (s.fire tick.now)) calm
        refine armed.past ticking left ?_ rfl rfl rfl earlier others gathered
        refine ⟨ebbs.place, fun tid missing => ⟨(woken.absent tid missing).1, fun idle => idle⟩, ebbs.timers,
          le_rfl, rfl⟩
      · exact armed.past ticking left ⟨ebbs.place, ebbs.absent, ebbs.timers, le_rfl, rfl⟩ rfl rfl rfl earlier
          others gathered

theorem Armed.tickStore {tick : Tick} (ticking : w.tick = some tick) (left : tick.rest = some [])
    (same : k.tasks = w.kernel.tasks) :
    ({ w with nextDeadline := tick.next, kernel := k, tick := none } : World).Armed := by
  refine ⟨fun tid missing => ?_, armed.bounded, fun id s found runs => ?_, fun _ _ wrong => nomatch wrong⟩
  · exact armed.idle tid (by rw [Placed.task, ← same]; exact missing)
  · exact armed.ticked tick [] ticking left id s List.not_mem_nil found runs

theorem Armed.tickTable {tick : Tick} {busy : Bool}
    (ahead : busy = true → ∀ id s, w.timers.lookup id = some s → notBefore tick.now s = true) :
    ({ w with tick := some (if busy then { tick with next := min tick.next tick.now, rest := some [] }
      else { tick with rest := some w.timers.keys }) } : World).Armed := by
  refine armed.tick (.same rfl rfl (fun _ missing => missing) le_rfl rfl) ?_
  intro last rest isLast isRest id s seen found runs
  cases isLast
  cases busy with
  | true => exact Or.inl (Nat.le_trans (Nat.min_le_right ..) (notBefore_le (ahead rfl id s found) runs))
  | false =>
    cases isRest
    exact absurd (AList.mem_keys.mp (AList.lookup_isSome.mp (Option.isSome_of_eq_some found))) seen

theorem Armed.spawn {slot : Tid} (missing : w.task slot = none) (rip : Nat) :
    ((w.setKernel (w.kernel.setTask slot (newTask slot rip))).setPlace slot .idle).Armed := by
  refine armed.ebbs ⟨fun tid id at_ arms => ?_, fun tid gone => ?_, fun _ s found => Or.inr ⟨s, found, Later.refl s⟩,
    le_rfl, rfl⟩
  · by_cases same : tid = slot
    · subst same
      rw [armed.idle tid missing] at arms
      cases arms
    · exact (Function.update_of_ne same ..).trans arms
  · by_cases same : tid = slot
    · subst same
      exact ⟨missing, fun _ => Function.update_self ..⟩
    · exact ⟨(AList.lookup_insert_ne same).symm.trans gone, fun idle => (Function.update_of_ne same ..).trans idle⟩

theorem Armed.setPlace (runs : w.running tid = some t) {from_ : Place} (here : w.place tid = from_)
    (other : ∀ id at_, from_ ≠ .arm id at_) (place : Place) : (w.setPlace tid place).Armed :=
  armed.ebbs ((Ebbs.refl w).setPlace (running_isSome runs) (not_arm here other) place)

theorem Armed.check (runs : w.running tid = some t) (checked : w.check tid t (w.place tid) = some w') :
    w'.Armed := by
  unfold World.check at checked
  split at checked
  · rename_i here
    split at checked
    · cases checked
    · cases checked
      exact armed.setPlace runs here (by simp) _
  · cases checked

theorem Armed.readDeadline (runs : w.running tid = some t)
    (read : w.readDeadline tid (w.place tid) = some w') : w'.Armed := by
  unfold World.readDeadline at read
  split at read <;> cases read <;> rename_i here <;> exact armed.setPlace runs here (by simp) _

theorem Armed.freeTimer (id : Nat) : Armed { w with timers := w.timers.erase id } := by
  refine armed.ebbs ⟨fun _ _ _ arms => arms, fun _ missing => ⟨missing, fun idle => idle⟩, fun other s found => ?_,
    le_rfl, rfl⟩
  exact Or.inr ⟨s, (Table.lookup_erase_some found).2, Later.refl s⟩

theorem Armed.allocTimer (id : Nat) : (w.setTimer id ⟨0, 0, 0⟩).Armed := by
  refine armed.ebbs ⟨fun _ _ _ arms => arms, fun _ missing => ⟨missing, fun idle => idle⟩, fun other s found => ?_,
    le_rfl, rfl⟩
  obtain ⟨rfl, rfl⟩ | ⟨_, found⟩ := Table.lookup_insert_some found
  · exact Or.inl rfl
  · exact Or.inr ⟨s, found, Later.refl s⟩

theorem Armed.tickTasks (now alarms : Nat) : (w.tickTasks now alarms).Armed := by
  have calm : Kernel.Calm Dozes w.kernel (w.tickTasks now alarms).kernel :=
    Kernel.foldl_calm (fun _ slot => Kernel.wakeIf_calm _ slot) _
  refine armed.tick (.same rfl rfl (fun tid missing => ((calm_ebbs calm).absent tid missing).1) le_rfl rfl) ?_
  rintro _ _ ⟨⟩ ⟨⟩

end World
end Myos.Task.Sleep
