import Myos.Task.SleepWait

namespace Myos.Task.Sleep.World
open Lib Myos.Evfd

variable {w w' : World} {tid : Tid} {t t' : TaskSlot}

variable (inv : w.Inv)
include inv

theorem Inv.same (tasks : w'.kernel = w.kernel) (place : w'.place = w.place)
    (bump : w'.bumping = false → w.bumping = false) (unexpired : ∀ id, w.expirations id = 0 → w'.expirations id = 0) :
    w'.Inv := by
  refine ⟨tasks ▸ inv.counted, fun tid t found => ?_⟩
  rw [Placed.task, tasks] at found
  exact (inv.fit tid t found).rest (congrFun place tid) (Dozes.refl t) (by rw [tasks]) (fun _ => bump) unexpired

theorem Inv.tickTasks (idle : w.tick = none) (now alarms : Nat) : (w.tickTasks now alarms).Inv := by
  have calm : Kernel.Calm Dozes w.kernel (w.tickTasks now alarms).kernel :=
    Kernel.foldl_calm (fun _ slot => Kernel.wakeIf_calm _ slot) _
  refine ⟨calm.counted inv.counted, fun tid t' found => ?_⟩
  obtain ⟨t, found, dozes⟩ := calm.back tid t' found
  refine (inv.fit tid t found).rest rfl dozes calm.seq (fun _ _ => ?_) fun _ zero => zero
  rw [bumping, idle]
  rfl

variable {k : Kernel} {sig : Nat} {tick : Tick} {id : Tid}

theorem Inv.tickStore (ticking : w.tick = some tick) :
    ({ w with
      nextDeadline := tick.next
      kernel := if tick.woke then w.kernel.bumpSeq else w.kernel
      tick := none } : World).Inv := by
  cases woke : tick.woke with
  | false =>
    refine inv.same rfl rfl (fun _ => ?_) fun _ zero => zero
    rw [bumping, ticking]
    exact woke
  | true =>
    -- The tick moves `WAIT_SEQ`, so nothing that was tested counts any more.
    have calm : Kernel.Calm Dozes w.kernel w.kernel.bumpSeq := Kernel.bumpSeq_calm
    refine ⟨calm.counted inv.counted, fun tid t found => ?_⟩
    refine (inv.fit tid t found).rest rfl (Dozes.refl t) calm.seq (fun same => ?_) fun _ zero => zero
    exact absurd same (Nat.succ_ne_self _)

theorem Inv.tickDue {id : Nat} {rest : List Nat} {s : TimerState} {next : Nat}
    (ticking : w.tick = some tick)
    (alone : tick.woke = true ∨ w.waited (.timer id) = true ∨
      ∀ other u, w.task other = some u → w.looked (· == .timer id) other = false) :
    ({ w with
      kernel := (w.kernel.wakeKeyLocked (.timer id)).1
      timers := w.timers.insert id s
      tick := some { tick with
        next, woke := tick.woke || (w.kernel.wakeKeyLocked (.timer id)).2, rest := some rest } } : World).Inv := by
  have calm : Kernel.Calm Dozes w.kernel (w.kernel.wakeKeyLocked (.timer id)).1 := Kernel.wakeKeyLocked_calm _
  refine ⟨calm.counted inv.counted, fun tid t' found => ?_⟩
  obtain ⟨t, before, dozes⟩ := calm.back tid t' found
  refine (inv.fit tid t before).stay rfl dozes.dozing calm.seq ?_ ?_
  · intro _ quiet
    rw [bumping, ticking]
    exact (Bool.or_eq_false_iff.mp quiet).1
  intro watch clear
  have kept (other : watch ≠ .timer id) :
      ({ w with timers := w.timers.insert id s } : World).holds t'.sigPending watch = false :=
    holds_mono (w := { w with timers := w.timers.insert id s }) dozes.pending (fun _ zero => zero) (holds_insert s other clear)
  refine ⟨fun dozing _ wait here member => kept ?_, fun _ quiet watches tested member => kept ?_⟩
  · rintro rfl
    obtain ⟨notTimer, notAny⟩ := Kernel.wakeKeyLocked_dozing inv.counted (by simp) found dozing
    obtain ⟨dozed, key, _⟩ := dozes.dozing dozing
    obtain ⟨wait', here', forKey, _⟩ := (inv.fit tid t before).dozing dozed
    cases here.symm.trans here'
    obtain isTimer | isAny := key_of_timer member
    · exact notTimer (key.trans (forKey.trans isTimer))
    · exact notAny (key.trans (forKey.trans isAny))
  · rintro rfl
    obtain ⟨unwoken, nobody⟩ := Bool.or_eq_false_iff.mp quiet
    rw [Kernel.wakeKeyLocked_woke inv.counted] at nobody
    obtain woke | waited | notLooked := alone
    · rw [unwoken] at woke
      cases woke
    · rw [show w.waited (.timer id) = false from nobody] at waited
      cases waited
    · have looking : w.looked (· == .timer id) tid = true := looked_of_tested tested member (beq_self_eq_true _)
      rw [notLooked tid t before] at looking
      cases looking

theorem Inv.tickTimer {id : Nat} {rest : List Nat} {busy : Bool}
    (ticking : w.tick = some tick) (left : tick.rest = some (id :: rest)) (met : w.meets (.tickTimer busy) = true) :
    (w.tickTimer tick id rest busy).Inv := by
  have bump {tick' : Tick} (woke : tick'.woke = tick.woke) (quiet : tick'.woke = false) : w.bumping = false := by
    rw [bumping, ticking]
    exact woke.symm.trans quiet
  unfold World.tickTimer
  cases found : w.timers.lookup id with
  | none => exact inv.same rfl rfl (bump rfl) fun _ zero => zero
  | some s =>
    cases busy with
    | true => exact inv.same rfl rfl (bump rfl) fun _ zero => zero
    | false =>
      simp only [Bool.false_eq_true, if_false]
      cases due : s.due tick.now with
      | true =>
        simp only [if_true]
        refine inv.tickDue ticking ?_
        simp only [meets, ticking, Option.all_some, left, found, Bool.false_eq_true, if_false, due, Bool.not_true,
          Bool.false_or, Bool.or_eq_true, List.all_eq_true] at met
        obtain (woke | waited) | alone := met
        · exact Or.inl woke
        · exact Or.inr (Or.inl waited)
        refine Or.inr (Or.inr fun other u foundU => ?_)
        have listed : other ∈ w.kernel.tasks.keys :=
          AList.mem_keys.mp (AList.lookup_isSome.mp (Option.isSome_of_eq_some foundU))
        simpa using alone other listed
      | false =>
        simp only [Bool.false_eq_true, if_false]
        refine inv.same rfl rfl (bump rfl) (unexpired_insert (w := w) fun zero => ?_)
        rw [TimerState.fire_expirations_of_not_due due]
        simpa [expirations, found] using zero

omit inv in
theorem holds_post {pending set : Sigset} (clear : w.holds pending (.signals set) = false)
    (apart : Watch.hasSignal sig (.signals set) = false) : w.holds (pending ||| bit sig) (.signals set) = false := by
  simp only [holds, Watch.hasSignal, bne_eq_false_iff_eq] at clear apart ⊢
  apply BitVec.eq_of_getLsbD_eq
  intro i inside
  have was := congrArg (·.getLsbD i) clear
  have other := congrArg (·.getLsbD i) apart
  simp only [BitVec.getLsbD_and, BitVec.getLsbD_or, BitVec.ofNat_eq_ofNat, BitVec.getLsbD_zero] at was other ⊢
  cases inSet : set.getLsbD i with
  | false => simp
  | true =>
    rw [inSet, Bool.true_and] at other
    rw [other, Bool.or_false, ← inSet]
    exact was

def posted (k : Kernel) (id : Tid) (t : TaskSlot) (sig : Nat) : Kernel :=
  k.setTask id { t with sigPending := t.sigPending ||| bit sig }

omit inv in
theorem posted_counted (counted : k.Counted) (found : k.tasks.lookup id = some t) (sig : Nat) :
    (posted k id t sig).Counted := counted.setTask found ⟨rfl, rfl, rfl⟩

omit inv in
theorem posted_waited (found : k.tasks.lookup id = some t) (sig : Nat) {pick : TaskSlot → Bool}
    (same : pick { t with sigPending := t.sigPending ||| bit sig } = pick t)
    (waited : (k.tasks.keys.any fun slot => (k.tasks.lookup slot).any pick) = true) :
    ((posted k id t sig).tasks.keys.any fun slot => ((posted k id t sig).tasks.lookup slot).any pick) = true := by
  obtain ⟨slot, u, foundU, picked⟩ := Table.any_keys_iff.mp waited
  refine Table.any_keys_iff.mpr ?_
  by_cases isTarget : slot = id
  · subst isTarget
    cases found.symm.trans foundU
    exact ⟨slot, _, AList.lookup_insert .., same.trans picked⟩
  · exact ⟨slot, u, (AList.lookup_insert_ne isTarget).trans foundU, picked⟩

theorem Fit.sentElse {t : TaskSlot}
    (calm : Kernel.Calm Dozes (posted w.kernel id t sig) k) (apart : tid ≠ id) (foundU : k.tasks.lookup tid = some t') :
    (w.setKernel k).Fit tid t' := by
  obtain ⟨u, before, dozes⟩ := calm.back tid t' foundU
  rw [posted, Kernel.setTask, AList.lookup_insert_ne apart] at before
  exact (inv.fit tid u before).rest rfl dozes calm.seq (fun _ quiet => quiet) fun _ zero => zero

theorem Inv.sendActing (found : w.task id = some t) :
    (w.setKernel ((posted w.kernel id t sig).wakeTaskLocked id)).Inv := by
  have calm : Kernel.Calm Dozes (posted w.kernel id t sig) ((posted w.kernel id t sig).wakeTaskLocked id) :=
    Kernel.wakeTaskLocked_calm id
  refine ⟨calm.counted (posted_counted inv.counted found sig), fun tid t' foundU => ?_⟩
  by_cases same : tid = id
  · subst same
    obtain ⟨lookup, seq⟩ := Kernel.wakeTaskLocked_lookup (k := posted w.kernel tid t sig) (AList.lookup_insert ..)
    cases lookup.symm.trans foundU
    refine (inv.fit tid t found).stay rfl (fun dozing => absurd dozing (woken_not_dozing _)) calm.seq ?_ ?_
    · intro unmoved
      exact absurd (seq.symm.trans unmoved) (Nat.succ_ne_self _)
    · intro watch _
      refine ⟨fun dozing => absurd dozing (woken_not_dozing _), fun unmoved => ?_⟩
      exact absurd (seq.symm.trans unmoved) (Nat.succ_ne_self _)
  · exact Fit.sentElse inv calm same foundU

theorem Inv.sendBlocked (found : w.task id = some t)
    (later : Kernel.Calm Dozes ((posted w.kernel id t sig).wakeKeyLocked .signal).1 k)
    (tasks : k.tasks = ((posted w.kernel id t sig).wakeKeyLocked .signal).1.tasks)
    (moved : k.waitSeq = w.kernel.waitSeq → w.looked (Watch.hasSignal sig) id = false) : (w.setKernel k).Inv := by
  have counted := posted_counted inv.counted found sig
  have woken : Kernel.Calm Dozes (posted w.kernel id t sig) ((posted w.kernel id t sig).wakeKeyLocked .signal).1 :=
    Kernel.wakeKeyLocked_calm _
  have calm := woken.trans later
  refine ⟨calm.counted counted, fun tid t' foundU => ?_⟩
  by_cases same : tid = id
  · subst same
    obtain ⟨u, before, dozes⟩ := calm.back tid t' foundU
    rw [posted, Kernel.setTask, AList.lookup_insert] at before
    cases before
    refine (inv.fit tid t found).stay rfl dozes.dozing calm.seq (fun _ quiet => quiet) fun watch clear => ⟨?_, ?_⟩
    · intro dozing _ wait here member
      have lookup : ((posted w.kernel tid t sig).wakeKeyLocked .signal).1.tasks.lookup tid = some t' := by
        rw [← tasks]
        exact foundU
      obtain ⟨notSignal, notAny⟩ := Kernel.wakeKeyLocked_dozing counted (by simp) lookup dozing
      obtain ⟨dozed, key, _⟩ := dozes.dozing dozing
      obtain ⟨wait', here', forKey, _⟩ := (inv.fit tid t found).dozing dozed
      cases here.symm.trans here'
      cases watch with
      | timer n => exact clear
      | signals set =>
        obtain isSignal | isAny := key_of_signals member
        · exact absurd (key.trans (forKey.trans isSignal)) notSignal
        · exact absurd (key.trans (forKey.trans isAny)) notAny
    · intro unmoved _ watches tested member
      have notLooked := moved unmoved
      cases watch with
      | timer n => exact clear
      | signals set =>
        refine holds_signals (w := w) dozes.pending (holds_post clear ?_)
        by_contra inSet
        have looking : w.looked (Watch.hasSignal sig) tid = true := looked_of_tested tested member (by simpa using inSet)
        rw [notLooked] at looking
        cases looking
  · exact Fit.sentElse inv calm same foundU

theorem Inv.send (met : w.meets (.send id sig) = true) :
    (w.setKernel (w.kernel.signalSend id sig)).Inv := by
  unfold Kernel.signalSend Kernel.sendLocked
  split
  · exact inv.calm (Kernel.Calm.refl _)
  cases found : w.kernel.tasks.lookup id with
  | none => exact inv.calm (Kernel.Calm.refl _)
  | some t =>
    simp only
    split
    · exact inv.calm (Kernel.Calm.refl _)
    cases blocked : Kernel.isBlocked t sig with
    | false => exact inv.sendActing found
    | true =>
      simp only [Bool.not_true, Bool.false_eq_true, if_false]
      have counted := posted_counted inv.counted found sig
      have woke := Kernel.wakeKeyLocked_woke counted .signal
      split
      · rename_i k woken
        have same : k = ((posted w.kernel id t sig).wakeKeyLocked .signal).1 := (congrArg Prod.fst woken).symm
        subst same
        refine inv.sendBlocked found Kernel.bumpSeq_calm rfl fun unmoved => ?_
        have calm : Kernel.Calm Dozes (posted w.kernel id t sig) ((posted w.kernel id t sig).wakeKeyLocked .signal).1 :=
          Kernel.wakeKeyLocked_calm _
        exact absurd (Nat.le_of_eq unmoved) (Nat.not_le.mpr (Nat.lt_succ_of_le calm.seq))
      · rename_i k woken
        have same : k = ((posted w.kernel id t sig).wakeKeyLocked .signal).1 := (congrArg Prod.fst woken).symm
        have nobody : ((posted w.kernel id t sig).wakeKeyLocked .signal).2 = false := congrArg Prod.snd woken
        subst same
        refine inv.sendBlocked found (Kernel.Calm.refl _) rfl fun _ => ?_
        have unwaited : w.waited .signal = false := by
          by_contra waited
          have isWaited : w.waited .signal = true := by simpa using waited
          rw [woke, posted_waited found sig rfl isWaited] at nobody
          cases nobody
        simpa [meets, Placed.task, found, blocked, unwaited] using met

omit inv in
theorem spawn_counted (counted : k.Counted) {slot : Tid} (missing : k.tasks.lookup slot = none) (rip : Nat) :
    (k.setTask slot (newTask slot rip)).Counted := by
  refine ⟨?_, fun tid t found pending => ?_⟩
  · have counts := Table.count_insert k.tasks (fun _ t => Kernel.isAnyWaiter t) slot (newTask slot rip)
    rw [Table.weight_of_none _ missing] at counts
    exact counted.any.trans counts.symm
  · obtain ⟨rfl, rfl⟩ | ⟨_, found⟩ := Table.lookup_insert_some found
    · cases pending
    · exact counted.woken tid t found pending

theorem Inv.spawn {slot : Tid} (missing : w.task slot = none) (rip : Nat) :
    ((w.setKernel (w.kernel.setTask slot (newTask slot rip))).setPlace slot .idle).Inv := by
  refine ⟨spawn_counted inv.counted missing rip, fun tid t found => ?_⟩
  obtain ⟨rfl, rfl⟩ | ⟨same, before⟩ := Table.lookup_insert_some found
  · exact .fresh (fun dozing => nomatch dozing.1) (by rw [place_setPlace]; rfl)
  · exact (inv.fit tid t before).rest (Function.update_of_ne same ..) (Dozes.refl t) le_rfl (fun _ quiet => quiet)
      fun _ zero => zero

theorem Inv.toArm (runs : w.running tid = some t) {id : Nat} {s : TimerState} (zero : s.expirations = 0)
    {place : Place} (unread : place.readSeq = none) : ((w.setTimer id s).setPlace tid place).Inv := by
  refine inv.move (k := w.kernel) (Kernel.Calm.refl _) (unexpired_insert fun _ => zero) fun t' found => ?_
  cases (running_task runs).symm.trans found
  exact .fresh (running_awake runs) (by rw [place_setPlace]; exact unread)

theorem step_calm (armed : w.Armed) (calm : Kernel.Calm Dozes w.kernel k) :
    (w.setKernel k).Inv ∧ (w.setKernel k).Armed := ⟨inv.calm calm, armed.ebbs (calm_ebbs calm)⟩

theorem Inv.freeTimer (id : Nat) : ({ w with timers := w.timers.erase id } : World).Inv := by
  refine inv.same rfl rfl (fun quiet => quiet) fun other zero => ?_
  by_cases same : other = id
  · subst same
    simp only [expirations, AList.lookup_erase]
    rfl
  · simp only [expirations, AList.lookup_erase_ne same]
    exact zero

variable (armed : w.Armed)
include armed

theorem step_publish (met : w.meets (.publish tid) = true) (stepped : w.step (.publish tid) = some w') :
    w'.Inv ∧ w'.Armed := by
  simp only [World.step] at stepped
  split at stepped <;> cases stepped
  rename_i runs here
  have moved : (w.setPlace tid .idle).Inv := inv.toFresh runs rfl
  refine ⟨moved.same rfl rfl (fun quiet => quiet) fun _ zero => zero,
    armed.publish (running_isSome runs) here fun tick rest ticking left => ?_⟩
  simpa [meets, here, ticking, left] using met

theorem step_tickTable {busy : Bool} (met : w.meets (.tickTable busy) = true)
    (stepped : w.step (.tickTable busy) = some w') : w'.Inv ∧ w'.Armed := by
  simp only [World.step] at stepped
  split at stepped
  · rename_i tick ticking
    refine guarded stepped fun _ => ?_
    refine ⟨inv.same rfl rfl (fun quiet => ?_) fun _ zero => zero, armed.tickTable fun isBusy id s found => ?_⟩
    · rw [bumping, ticking]
      cases busy <;> exact quiet
    · have all : ∀ entry ∈ w.timers.entries, notBefore tick.now entry.2 = true := by
        simpa [meets, ticking, isBusy] using met
      exact all ⟨id, s⟩ (AList.mem_lookup_iff.mp found)
  · cases stepped

theorem step_tickTimer {busy : Bool} (met : w.meets (.tickTimer busy) = true)
    (stepped : w.step (.tickTimer busy) = some w') : w'.Inv ∧ w'.Armed := by
  simp only [World.step] at stepped
  split at stepped
  · rename_i tick ticking
    split at stepped <;> cases stepped
    rename_i id rest left
    refine ⟨inv.tickTimer ticking left met, armed.tickTimer ticking left fun s found isBusy => ?_⟩
    simpa [meets, ticking, left, found, isBusy] using met
  · cases stepped

theorem step_tickStore (stepped : w.step .tickStore = some w') : w'.Inv ∧ w'.Armed := by
  simp only [World.step] at stepped
  split at stepped
  · rename_i tick ticking
    refine guarded stepped fun left => ?_
    refine ⟨inv.tickStore ticking, armed.tickStore ticking left ?_⟩
    split <;> rfl
  · cases stepped

theorem step_sound {event : Event} (met : w.meets event = true)
    (stepped : w.step event = some w') : w'.Inv ∧ w'.Armed := by
  cases event with
  | spawn slot rip =>
    refine guarded stepped fun free => ?_
    have missing := Option.isNone_iff_eq_none.mp free.1
    exact ⟨inv.spawn missing rip, armed.spawn missing rip⟩
  | wait tid wait =>
    refine guarded stepped fun ready => ?_
    obtain ⟨t, runs⟩ := Option.isSome_iff_exists.mp ready.1
    exact ⟨inv.toFresh runs rfl, armed.setPlace runs ready.2 (by simp) _⟩
  | look tid =>
    simp only [World.step] at stepped
    split at stepped <;> cases stepped
    rename_i runs here
    exact ⟨inv.look runs _, armed.setPlace runs here (by simp) _⟩
  | scan tid =>
    obtain ⟨t, runs, scanned⟩ := Option.bind_eq_some_iff.mp stepped
    exact ⟨inv.scan runs met scanned, armed.ebbs (scan_ebbs (running_isSome runs) scanned)⟩
  | check tid =>
    obtain ⟨t, runs, checked⟩ := Option.bind_eq_some_iff.mp stepped
    exact ⟨inv.check runs checked, armed.check runs checked⟩
  | deadline tid =>
    obtain ⟨t, runs, read⟩ := Option.bind_eq_some_iff.mp stepped
    exact ⟨inv.readDeadline runs read, armed.readDeadline runs read⟩
  | block tid =>
    obtain ⟨t, runs, blocked⟩ := Option.bind_eq_some_iff.mp stepped
    exact ⟨inv.block runs blocked, armed.ebbs (block_ebbs (running_isSome runs) blocked)⟩
  | resume tid =>
    simp only [World.step] at stepped
    split at stepped <;> cases stepped
    rename_i runs here
    exact ⟨inv.toFresh runs rfl, armed.setPlace runs here (by simp) _⟩
  | sigprocmask tid mask =>
    exact guarded stepped fun _ => step_calm inv armed (Kernel.signalSetBlockedMask_calm ..)
  | sigaction tid sig handler flags mask tramp =>
    exact guarded stepped fun _ => step_calm inv armed (Kernel.signalSetAction_calm ..)
  | deliver tid =>
    exact guarded stepped fun _ => step_calm inv armed (Kernel.signalNext_calm fun _ u _ _ => clears_dozes u _)
  | arm tid id nextNs intervalNs =>
    refine guarded stepped fun ready => ?_
    obtain ⟨t, runs⟩ := Option.isSome_iff_exists.mp ready.1
    refine ⟨inv.toArm runs rfl ?_, armed.arm (running_isSome runs) ready.2.1 ready.2.2.2⟩
    split <;> rfl
  | publish tid => exact step_publish inv armed met stepped
  | allocTimer id =>
    exact guarded stepped fun _ => ⟨inv.same rfl rfl (fun quiet => quiet) (unexpired_insert fun _ => rfl), armed.allocTimer id⟩
  | freeTimer id => exact guarded stepped fun _ => ⟨inv.freeTimer id, armed.freeTimer id⟩
  | send id sig =>
    exact guarded stepped fun _ => ⟨inv.send met, armed.ebbs (setKernel_ebbs (Kernel.signalSend_forth id sig))⟩
  | wake key =>
    exact guarded stepped fun _ => step_calm inv armed (Kernel.wake_calm key)
  | advance ns =>
    cases stepped
    exact ⟨inv.same rfl rfl (fun quiet => quiet) fun _ zero => zero,
      armed.ebbs (.same rfl rfl (fun _ missing => missing) le_rfl rfl)⟩
  | tickTest now | tickGiveUp now =>
    exact guarded stepped fun _ => ⟨inv.same rfl rfl (fun quiet => quiet) fun _ zero => zero,
      armed.ebbs (.same rfl rfl (fun _ missing => missing) le_rfl rfl)⟩
  | tickTasks now alarms =>
    exact guarded stepped fun free => ⟨inv.tickTasks free.2 now alarms, armed.tickTasks now alarms⟩
  | tickTable busy => exact step_tickTable inv armed met stepped
  | tickTimer busy => exact step_tickTimer inv armed met stepped
  | tickStore => exact step_tickStore inv armed stepped
  | switch tid how =>
    obtain ⟨_, made⟩ := Option.ite_none_left_eq_some.mp stepped
    exact mapped made fun _ switched => step_calm inv armed (Kernel.switch_calm switched
      (fun _ _ => ⟨fun _ => id, fun dozing => nomatch dozing.1⟩) (fun _ => ⟨fun _ => id, fun dozing => ⟨dozing, rfl, rfl⟩⟩)
      finishSwitch_dozes)

omit inv armed

/-- No task sleeps with no deadline while something it waits for is there, and `NEXT_DEADLINE` is no later
than any armed timer, once the `timer_ctl_write` that armed it is over. -/
structure NoLostWakeup (w : World) : Prop where
  sleepers : ∀ tid t, w.task tid = some t → t.dozing → t.wakeAt = 0 → ∃ wait, w.place tid = .asleep wait ∧
    ∀ watch ∈ wait.watches, w.holds t.sigPending watch = false
  deadline : ∀ id s, w.timers.lookup id = some s → s.nextNs ≠ 0 → (∀ tid at_, w.place tid ≠ .arm id at_) →
    w.nextDeadline ≤ s.nextNs

theorem boot_inv (booted : w.Boot) : w.Inv := by
  obtain ⟨tasks, any, _⟩ := booted
  refine ⟨⟨?_, fun tid t found => ?_⟩, fun tid t found => ?_⟩
  · rw [any, tasks]
    rfl
  · rw [tasks] at found
    cases found
  · rw [Placed.task, tasks] at found
    cases found

theorem boot_armed (booted : w.Boot) : w.Armed := by
  obtain ⟨_, _, timers, _, _, idle, places⟩ := booted
  refine ⟨fun tid _ => places tid, fun id s found => ?_, fun id s found => ?_, fun tick rest ticking => ?_⟩
  · rw [timers] at found
    cases found
  · rw [timers] at found
    cases found
  · rw [idle] at ticking
    cases ticking

theorem reach_inv_armed (reachable : system.Reach (fun w event => w.meets event = true) w) : w.Inv ∧ w.Armed :=
  reachable.invariant (fun _ booted => ⟨boot_inv booted, boot_armed booted⟩)
    fun _ _ _ sound met stepped => step_sound sound.1 sound.2 met stepped

theorem reach_noLostWakeup (w : World) (reachable : system.Reach (fun w event => w.meets event = true) w) :
    w.NoLostWakeup := by
  obtain ⟨inv, armed⟩ := reach_inv_armed reachable
  refine ⟨fun tid t found dozing forever => ?_, fun id s found runs isOver => ?_⟩
  · obtain ⟨wait, here, _, clear⟩ := (inv.fit tid t found).dozing dozing
    exact ⟨wait, here, clear forever⟩
  · obtain early | ⟨tid, at_, arms, _⟩ := armed.covered id s found runs
    · exact early
    · exact absurd arms (isOver tid at_)

def boot : World := ⟨⟨⟨∅, ∅, 0, 0⟩, fun _ => .idle⟩, ∅, U64_MAX, 0, [], none⟩

/-- One task arms a timer and sleeps in a `poll` for it; the tick at its instant wakes the task. -/
theorem reach_noLostWakeup_poll : ∃ w, system.Reach (fun w event => w.meets event = true) w ∧ w.NoLostWakeup ∧
    w.expirations 7 = 1 ∧ (w.task 1).map TaskSlot.state = some .ready := by
  have booted : system.Reach (fun w event => w.meets event = true) boot :=
    .start ⟨rfl, rfl, rfl, rfl, rfl, rfl, fun _ => rfl⟩
  have reached := booted.runMeeting [.spawn 1 64, .switch 1 .dispatch, .allocTimer 7, .arm 1 7 100 0, .publish 1,
    .wait 1 (.poll [.timer 7] 0), .look 1, .scan 1, .scan 1, .check 1, .deadline 1, .block 1, .advance 100,
    .tickTest 100, .tickTasks 100 U64_MAX, .tickTable false, .tickTimer false, .tickStore] rfl
  exact ⟨_, reached, reach_noLostWakeup _ reached, rfl, rfl⟩

/-- A task looks for a signal it blocks; the signal comes, and then it sleeps for it. -/
theorem sigwait_sleeps_on : ¬ ∀ w, system.Reach System.Any w → w.NoLostWakeup := by
  intro holds
  have booted : system.Reach System.Any boot := .start ⟨rfl, rfl, rfl, rfl, rfl, rfl, fun _ => rfl⟩
  have reached := booted.run [.spawn 1 64, .switch 1 .dispatch, .sigprocmask 1 (bit 10), .wait 1 (.signals (bit 10) 0), .look 1,
    .scan 1, .send 1 10, .check 1, .deadline 1, .block 1] rfl
  obtain ⟨wait, here, clear⟩ := (holds _ reached).sleepers 1 _ rfl ⟨rfl, rfl⟩ rfl
  cases here
  have missed := clear (.signals (bit 10)) (.head _)
  cases missed

end Myos.Task.Sleep.World
