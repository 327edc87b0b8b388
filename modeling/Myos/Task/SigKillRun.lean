import Myos.Task.SigKill

namespace Myos.Task.Threads
open Lib

variable {w : Threads}

variable {k : Kernel} {seq : Nat} {t : TaskSlot} {w' : Threads} {id tid : Tid} {wait : Wait} {moves : Tid → Prop}

theorem Inv.create (inv : w.Inv) {slot group rip process : Nat} {blocked : Sigset}
    (free : w.slotFree slot rip = true)
    (tasks : w'.kernel.tasks = w.kernel.tasks.insert slot (newTask group rip blocked))
    (seq : w'.kernel.waitSeq = w.kernel.waitSeq) (place : w'.place = Function.update w.place slot .fresh)
    (trace : w'.trace = Function.update w.trace slot ⟨process, false, false, false, false⟩)
    (exited : w'.exited = w.exited) : w'.Inv ∧ Acts moves w w' := by
  have other {o : Tid} (lives : (w.task o).isSome = true) : o ≠ slot := by
    rintro rfl
    rw [Option.isNone_iff_eq_none.mp (Bool.and_eq_true_iff.mp free).1] at lives
    cases lives
  have same {o : Tid} (other : o ≠ slot) : w'.task o = w.task o := by
    rw [Placed.task, tasks, AList.lookup_insert_ne other, Placed.task]
  refine ⟨inv.alter slot (fun _ => same) (Nat.le_of_eq seq.symm) exited
    (fun o other => by rw [place, Function.update_of_ne other]) (fun o other => by rw [trace, Function.update_of_ne other])
    fun t found => ?_,
    fun o lives => by rwa [same (other lives)], fun o _ lives => by rw [place, Function.update_of_ne (other lives)],
    fun o lives => by rw [trace, Function.update_of_ne (other lives)],
    fun o lives isSent => by rwa [trace, Function.update_of_ne (other lives)], fun p isOver => by rwa [exited]⟩
  rw [Placed.task, tasks, AList.lookup_insert] at found
  cases found
  rw [place, trace, Function.update_self, Function.update_self]
  exact {
    pending := fun wrong => by cases wrong
    taken := fun wrong => by cases wrong
    returned := rfl
    seq := fun _ wrong => by cases wrong
    late := fun _ _ wrong => by cases wrong
    awake := fun _ wrong => by cases wrong
    dead := by simp [newTask]
    group := fun wrong => by cases wrong
    sent := fun wrong => by cases wrong }

theorem killPending_of_task (found : w.task tid = some t) : w.killPending tid = t.killed := by
  simp [killPending, found, TaskSlot.killed]

theorem ne_of_slotFree {tid slot rip : Nat} (found : w.task tid = some t) (free : w.slotFree slot rip = true) :
    tid ≠ slot := by
  rintro rfl
  simp [slotFree, found] at free

theorem Goes.created {slot rip : Nat} {next : Place} (made : w'.Inv ∧ Acts (· = tid) w w') (found : w.task tid = some t)
    (free : w.slotFree slot rip = true) (place : w'.place = Function.update w.place slot .fresh)
    (goes : (w.place tid).ends = false) (isPlain : plain next = true) : Goes tid w (w'.setPlace tid next) := by
  refine (made.1.goesPlain (Kernel.Calm.refl _) ?_ isPlain).after made.2
  rw [place, Function.update_of_ne (ne_of_slotFree found free)]
  exact goes

theorem Inv.begin_ (inv : w.Inv) (found : w.task tid = some t) {call : Call}
    (here : w.place tid = .start call) {yes : Bool}
    (alone : call = .exec → yes = true → w.others tid (w.pid tid) ≠ [] → t.killed = false)
    (stepped : w.begin_ tid t yes call = some w') : Goes tid w w' := by
  have goes : (w.place tid).ends = false := by rw [here]; rfl
  have same {next : Place} (isPlain : plain next = true) : Goes tid w (w.setPlace tid next) :=
    inv.goesPlain (Kernel.Calm.refl _) goes isPlain
  cases call with
  | sigprocmask how mask =>
    cases stepped
    split
    · exact inv.goesPlain (Kernel.signalSetBlockedMask_calm ..) goes rfl
    · exact same rfl
  | sigaction sig handler flags mask tramp =>
    cases stepped
    exact inv.goesPlain (Kernel.signalSetAction_calm ..) goes rfl
  | sigsuspend mask =>
    cases stepped
    refine inv.goesPlain (Kernel.Calm.trans ?_ (Kernel.signalSetBlockedMask_calm ..)) goes rfl
    exact Kernel.modifyTask_calm tid (fun _ => Keeps.of_same rfl rfl rfl rfl) fun _ => ⟨rfl, rfl, rfl⟩
  | sigwait set | sigRead fd more | other | quick =>
    cases stepped
    exact same rfl
  | sigMask fd mask =>
    cases stepped
    have masked : Inv { w with masks := Function.update w.masks fd mask } := inv
    exact (masked.goesPlain (Kernel.Calm.refl _) goes rfl).after
      ⟨fun _ => id, fun _ _ _ => rfl, fun _ _ => rfl, fun _ _ => id, fun _ => id⟩
  | sigreturn mask =>
    cases stepped
    exact inv.goesPlain (Kernel.signalSetBlockedMask_calm ..) goes rfl
  | fork new rip | spawnThread new rip =>
    cases yes with
    | false =>
      cases stepped
      exact same rfl
    | true =>
      exact guarded stepped fun free => .created (inv.create free rfl rfl rfl rfl rfl) found free rfl goes rfl
  | exec =>
    cases yes with
    | false =>
      cases stepped
      exact same rfl
    | true =>
      cases stepped
      exact inv.execAlone found here (alone rfl rfl)
  | threadExit code =>
    cases stepped
    exact inv.threadExit found code here
  | exit code =>
    cases stepped
    exact inv.exitGroup code 0 (by rw [here]; simp)

theorem Inv.tryWait (inv : w.Inv) (found : w.task tid = some t)
    (here : w.place tid = .try_ wait seq) (yes : Bool)
    (fixed : ∀ set, wait = .set set → t.killed = true → set.getLsbD SIGKILL = false)
    (masked : ∀ fd more, wait = .fd fd more → t.killed = true → (w.masks fd).getLsbD SIGKILL = false) :
    Goes tid w (w.tryWait tid seq yes wait) := by
  have goes : (w.place tid).ends = false := by rw [here]; rfl
  have bound : seq ≤ w.kernel.waitSeq := (inv tid t found).seq seq (by rw [here]; rfl)
  have checks {kernel : Kernel} (calm : Kernel.Calm Keeps w.kernel kernel) (wait : Wait) :
      Goes tid w ((w.setKernel kernel).setPlace tid (.check wait seq)) := by
    refine inv.goes calm goes (by simp) (by simp) ?_ (by simp [Place.blocks]) fun _ _ _ _ => rfl
    intro s same
    cases same
    exact Nat.le_trans bound calm.seq
  cases wait with
  | set set =>
    have took : Kernel.Calm Keeps w.kernel (w.kernel.signalTakeFrom tid set).1 :=
      Kernel.signalTakeFrom_calm tid fun t' found' => by
        cases found.symm.trans found'
        exact Kernel.takes_keeps (fixed set rfl)
    rw [Threads.tryWait]
    split
    · rename_i kernel sig same
      rw [same] at took
      exact inv.goesPlain took goes rfl
    · rename_i kernel same
      rw [same] at took
      exact checks took _
  | fd fd more =>
    have took : Kernel.Calm Keeps w.kernel (Kernel.takeSome tid (w.masks fd) (more + 1) w.kernel).1 :=
      Kernel.takeSome_calm tid (more + 1) (fun _ => Kernel.takes_keeps)
        (fun _ _ apart keeps killed => apart (keeps.killed ▸ killed))
        fun t' found' => by
          cases found.symm.trans found'
          exact masked fd more rfl
    rw [Threads.tryWait]
    split
    · rename_i kernel same
      rw [same] at took
      exact checks took _
    · rename_i kernel taken same
      rw [same] at took
      exact inv.goesPlain took goes rfl
  | suspend => exact checks (Kernel.Calm.refl _) _
  | other =>
    cases yes with
    | false => exact checks (Kernel.Calm.refl _) _
    | true => exact inv.goesPlain (Kernel.Calm.refl _) goes rfl

theorem ending_acts {kernel : Kernel}
    (forth : ∀ o, (w.kernel.tasks.lookup o).isSome = true → (kernel.tasks.lookup o).isSome = true)
    (taken : Trace → Bool) (place : Place) : Acts (· = tid) w
      (((w.setKernel kernel).mark tid fun trace => { trace with taken := taken trace }).setPlace tid place) := by
  have marked : Acts (· = tid) (w.setKernel kernel)
      ((w.setKernel kernel).mark tid fun trace => { trace with taken := taken trace }) :=
    mark_acts tid (fun _ => rfl) (fun _ => id)
  exact (setKernel_acts forth).trans (marked.trans (setPlace_acts place))

theorem Inv.goesEnding (inv : w.Inv) {kernel : Kernel} (calm : Kernel.Calm Keeps w.kernel kernel)
    (goes : (w.place tid).ends = false) (taken : Bool) (code sig : Nat) :
    Goes tid w (((w.setKernel kernel).mark tid fun trace => { trace with taken := trace.taken || taken }).setPlace tid
      (.ending code sig)) := by
  refine ⟨inv.at tid calm (fun _ => id) (fun o other => Function.update_of_ne other ..)
    (fun o other => Function.update_of_ne other ..) fun t t' found keeps => ?_, ending_acts calm.forth _ _⟩
  have fit := (inv tid t found).calm keeps calm.seq fun _ => id
  have moved : Fit kernel.waitSeq w.exited tid t' (.ending code sig) (w.trace tid) := fit.move goes (by simp) (by simp)
    (by simp [Place.seq]) (by simp [Place.blocks]) (fun _ _ => rfl)
  rw [place_setPlace_self, trace_setPlace, trace_mark_self]
  exact { moved with
    pending := fun posted => (moved.pending posted).imp_right fun old => Bool.or_eq_true_iff.mpr (.inl old)
    taken := fun _ => rfl }

theorem killed_take (t : TaskSlot) : ({ t with sigPending := t.sigPending &&& ~~~KILL_BIT } : TaskSlot).killed = false := by
  simp [TaskSlot.killed, KILL_BIT, BitVec.getLsbD_and, BitVec.getLsbD_not, getLsbD_bit]

theorem Inv.takeKill (inv : w.Inv) (found : w.task tid = some t)
    (goes : (w.place tid).ends = false) (mask : Option Sigset) (code sig : Nat) :
    Goes tid w (((w.setKernel (w.kernel.setTask tid
      { t with suspendMask := mask, sigPending := t.sigPending &&& ~~~KILL_BIT })).mark
        tid fun trace => { trace with taken := true }).setPlace tid (.ending code sig)) := by
  refine ⟨inv.alter tid (fun o other => AList.lookup_insert_ne other) le_rfl rfl
    (fun o other => Function.update_of_ne other ..) (fun o other => Function.update_of_ne other ..) fun t' found' => ?_,
    ending_acts (Kernel.setTask_forth tid _) (fun _ => true) _⟩
  cases Option.some.inj ((AList.lookup_insert ..).symm.trans found')
  have fit := inv tid t found
  have alive := killed_take { t with suspendMask := mask }
  rw [place_setPlace_self, trace_setPlace, trace_mark_self]
  exact {
    pending := fun _ => .inr rfl
    taken := fun _ => rfl
    returned := fit.returned
    seq := fun _ wrong => by cases wrong
    late := fun _ _ wrong => by cases wrong
    awake := fun killed => absurd (alive.symm.trans killed) Bool.false_ne_true
    dead := by
      refine ⟨fun dead => ?_, fun wrong => by cases wrong⟩
      rw [fit.dead.mp dead] at goes
      cases goes
    group := fun wrong => by cases wrong
    sent := fun isSent => ⟨(fit.sent isSent).1, (fit.sent isSent).2.1, fun _ => rfl⟩ }

theorem setTask_setTask (k : Kernel) (tid : Tid) (t t' : TaskSlot) : (k.setTask tid t).setTask tid t' = k.setTask tid t' := by
  simp [Kernel.setTask, AList.insert_insert]

theorem exitCheck_killed (found : w.task tid = some t) (killed : t.killed = true) (yes : Bool) :
    w.exitCheck tid t yes =
      ((w.setKernel (w.kernel.setTask tid { t with suspendMask := none, sigPending := t.sigPending &&& ~~~KILL_BIT })).mark
        tid fun trace => { trace with taken := true }).setPlace tid (.ending (128 + SIGKILL) SIGKILL) := by
  have cleared : (w.kernel.modifyTask tid fun t => { t with suspendMask := none }) =
      w.kernel.setTask tid { t with suspendMask := none } := by
    rw [Kernel.modifyTask, show w.kernel.tasks.lookup tid = some t from found]
  have next := Kernel.signalNext_killed (k := w.kernel.setTask tid { t with suspendMask := none })
    (AList.lookup_insert ..) (show ({ t with suspendMask := none } : TaskSlot).killed = true from killed)
  rw [exitCheck]
  simp only [cleared]
  rw [next, setTask_setTask]
  simp only [BEq.rfl, Bool.or_true]

variable (inv : w.Inv) (found : w.task tid = some t)
include inv found

theorem Inv.exitCheck (here : w.place tid = .exit)
    (yes : Bool) : Goes tid w (w.exitCheck tid t yes) := by
  have goes : (w.place tid).ends = false := by rw [here]; rfl
  cases killed : t.killed with
  | true =>
    rw [exitCheck_killed found killed]
    exact inv.takeKill found goes none _ _
  | false =>
    have cleared : Kernel.Calm Keeps w.kernel (w.kernel.modifyTask tid fun t => { t with suspendMask := none }) :=
      Kernel.modifyTask_calm tid (fun _ => Keeps.of_same rfl rfl rfl rfl) fun _ => ⟨rfl, rfl, rfl⟩
    have next := cleared.trans (Kernel.signalNext_calm fun t u found' becomes => by
      obtain ⟨t', there, keeps⟩ := cleared.back tid t found'
      cases found.symm.trans there
      exact Kernel.nextSignal_keeps becomes (keeps.killed.trans killed))
    rw [Threads.exitCheck]
    split
    · rename_i kernel same
      rw [same] at next
      split
      · exact inv.toUser (next.trans (Kernel.signalSetBlockedMask_calm ..)) found goes killed
      · exact inv.toUser next found goes killed
    · rename_i kernel sig same
      rw [same] at next
      exact inv.goesEnding next goes _ _ _
    rename_i kernel sig act tramp blocked same
    rw [same] at next
    cases yes with
    | true => exact inv.toUser next found goes killed
    | false => exact inv.goesPlain next goes rfl

theorem Inv.replaceUser (here : w.place tid = .image)
    (alive : t.killed = false) : Goes tid w (w.replaceUser tid) := by
  refine inv.toUser ((Kernel.setProc_calm ..).trans (Kernel.modifyTask_calm tid (fun _ => ?_) fun _ => ?_)) found
    (by rw [here]; rfl) alive
  · exact Keeps.of_same rfl rfl rfl rfl
  · exact ⟨rfl, rfl, rfl⟩

theorem Inv.aloneDone {why : Alone}
    (here : w.place tid = .alone why) : Goes tid w (w.aloneDone tid why) := by
  have isOver := inv.isOver found (by rw [here]; rfl)
  cases why with
  | exec => exact inv.goesPlain (Kernel.setProc_calm ..) (by rw [here]; rfl) rfl
  | threadExit => exact inv.retire isOver
  | exitGroup => exact inv.retire isOver

theorem Inv.block
    (here : w.place tid = .block wait seq) (unmoved : w.kernel.waitSeq = seq) :
    Goes tid w ((w.setKernel (w.kernel.blockUntil tid wait.key seq 0 0)).setPlace tid (.asleep wait)) := by
  have goes : (w.place tid).ends = false := by rw [here]; rfl
  have alive : t.killed = false := by
    by_contra killed
    rw [Bool.not_eq_false] at killed
    have late := (inv tid t found).late killed seq (by rw [here]; rfl)
    omega
  have kernel : (w.kernel.blockUntil tid wait.key seq 0 0).tasks =
      w.kernel.tasks.insert tid (Kernel.TaskSlot.asleep t wait.key 0) := by
    have found' : w.kernel.tasks.lookup tid = some t := found
    simp [Kernel.blockUntil, Kernel.blocks, unmoved, Kernel.modifyTask, found', Kernel.setTask]
  have seq_ : (w.kernel.blockUntil tid wait.key seq 0 0).waitSeq = w.kernel.waitSeq := by
    unfold Kernel.blockUntil Kernel.modifyTask
    split
    · split <;> rfl
    · rfl
  have forth (o : Tid) (lives : (w.kernel.tasks.lookup o).isSome = true) :
      ((w.kernel.blockUntil tid wait.key seq 0 0).tasks.lookup o).isSome = true := by
    rw [kernel]
    exact Kernel.setTask_forth tid _ o lives
  refine ⟨inv.alter tid (fun o other => ?_) (Nat.le_of_eq seq_.symm) rfl (fun o other => Function.update_of_ne other ..)
    (fun _ _ => rfl) fun t' found' => ?_, (setKernel_acts forth).trans (setPlace_acts _)⟩
  · exact (congrArg (AList.lookup o) kernel).trans (AList.lookup_insert_ne other)
  cases Option.some.inj ((AList.lookup_insert ..).symm.trans ((congrArg (AList.lookup tid) kernel).symm.trans found'))
  have moved : Fit w.kernel.waitSeq w.exited tid t (.asleep wait) (w.trace tid) := (inv tid t found).move goes
    (by simp) (by simp) (by simp [Place.seq]) (by simp [Place.blocks]) (fun _ _ => rfl)
  rw [place_setPlace_self]
  change Fit (w.kernel.blockUntil tid wait.key seq 0 0).waitSeq _ _ _ _ (w.trace tid)
  rw [seq_]
  exact { moved with
    awake := fun killed => absurd (alive.symm.trans killed) Bool.false_ne_true
    dead := by simp [Kernel.TaskSlot.asleep] }

theorem Inv.check
    (here : w.place tid = .check wait seq) :
    Goes tid w (w.setPlace tid (if w.kernel.signalWakeable t then .exit else .block wait seq)) := by
  have goes : (w.place tid).ends = false := by rw [here]; rfl
  split
  · exact inv.goesPlain (Kernel.Calm.refl _) goes rfl
  rename_i sleeps
  refine inv.goes (Kernel.Calm.refl _) goes (by simp) (by simp) ?_ ?_ fun _ _ _ _ => rfl
  · intro s same
    cases same
    exact (inv tid t found).seq _ (by rw [here]; rfl)
  · intro u found' killed
    cases found.symm.trans found'
    exact absurd (Kernel.signalWakeable_killed killed) sleeps

theorem Inv.go {yes : Bool} {place : Place} (here : w.place tid = place)
    (met : w.meets (.act tid (.go yes)) = true) (stepped : w.go tid t yes place = some w') : Goes tid w w' := by
  have pending := killPending_of_task found
  have same {next : Place} (goes : (w.place tid).ends = false) (isPlain : plain next = true) :
      Goes tid w (w.setPlace tid next) := inv.goesPlain (Kernel.Calm.refl _) goes isPlain
  cases place with
  | fresh =>
    cases stepped
    exact inv.toUser (Kernel.Calm.refl _) found (by rw [here]; rfl) (by simpa [meets, here, pending] using met)
  | user =>
    cases stepped
  | start call =>
    refine inv.begin_ found here ?_ stepped
    rintro rfl rfl others
    simp only [meets, here, pending] at met
    cases killed : t.killed with
    | false => rfl
    | true =>
      rw [killed] at met
      simp [others] at met
  | look wait =>
    cases stepped
    refine inv.goes (Kernel.Calm.refl _) (by rw [here]; rfl) (by simp) (by simp) ?_ (by simp [Place.blocks])
      fun _ _ _ _ => rfl
    intro s same
    cases same
    exact le_rfl
  | try_ wait seq =>
    cases stepped
    refine inv.tryWait found here yes ?_ ?_
    · rintro set rfl killed
      simpa [meets, here, pending, killed] using met
    · rintro fd more rfl killed
      simpa [meets, here, pending, killed] using met
  | check wait seq =>
    cases stepped
    exact inv.check found here
  | block wait seq =>
    rw [Threads.go] at stepped
    split at stepped
    · rename_i blocks
      cases stepped
      exact inv.block found here blocks.1
    · cases stepped
      exact same (by rw [here]; rfl) rfl
  | asleep wait =>
    have goes : (w.place tid).ends = false := by rw [here]; rfl
    cases wait with
    | other =>
      cases yes with
      | false | true =>
        cases stepped
        exact same goes rfl
    | _ =>
      cases stepped
      exact same goes rfl
  | exit =>
    cases stepped
    exact inv.exitCheck found here yes
  | ending code sig =>
    cases stepped
    exact inv.exitGroup code sig (by rw [here]; simp)
  | image =>
    cases yes with
    | false =>
      cases stepped
      exact same (by rw [here]; rfl) rfl
    | true =>
      cases stepped
      refine inv.replaceUser found here ?_
      simpa [meets, here, pending] using met
  | alone why =>
    rw [Threads.go] at stepped
    split at stepped
    · cases stepped
      exact inv.aloneDone found here
    · cases stepped
      exact ⟨inv, Acts.refl w⟩
  | done =>
    cases stepped

theorem Inv.act {act : Act}
    (met : w.meets (.act tid act) = true) (stepped : w.act tid t act = some w') : Goes tid w w' := by
  have pending := killPending_of_task found
  cases act with
  | enter call =>
    cases here : w.place tid with
    | user =>
      simp only [Threads.act, here] at stepped
      cases stepped
      have goes : (w.place tid).ends = false := by rw [here]; rfl
      refine inv.goes (Kernel.Calm.refl _) goes (by simp) (by simp) (by simp [Place.seq]) (by simp [Place.blocks]) ?_
      intro u found' isSent running
      cases found.symm.trans found'
      obtain ⟨posted, leader, -⟩ := (inv tid t found).sent isSent
      cases call with
      | threadExit code =>
        have killed : t.killed = true := by
          by_contra alive
          rw [Bool.not_eq_true] at alive
          rw [(inv tid t found).posted_of_goes goes alive] at posted
          cases posted
        simp [meets, pending, killed, pid, found, leader] at met
      | _ => rfl
    | _ => simp [Threads.act, here] at stepped
  | pageIn | interrupt =>
    cases here : w.place tid with
    | user =>
      simp only [Threads.act, here] at stepped
      cases stepped
      exact inv.toUser (Kernel.Calm.refl _) found (by rw [here]; rfl) (by simpa [meets, pending] using met)
    | _ => simp [Threads.act, here] at stepped
  | faultCatch sig =>
    cases here : w.place tid with
    | user =>
      have goes : (w.place tid).ends = false := by rw [here]; rfl
      have caught := Kernel.signalCatchFault_calm (R := Keeps) (k := w.kernel) tid sig
      simp only [Threads.act, here] at stepped
      split at stepped
      · rename_i kernel same
        cases stepped
        rw [same] at caught
        exact inv.toUser caught found goes (by simpa [meets, pending] using met)
      · rename_i kernel same
        cases stepped
        rw [same] at caught
        exact inv.goesPlain caught goes rfl
    | _ => simp [Threads.act, here] at stepped
  | giveUp =>
    cases here : w.place tid with
    | image =>
      simp only [Threads.act, here] at stepped
      cases stepped
      exact inv.goesPlain (Kernel.Calm.refl _) (by rw [here]; rfl) rfl
    | _ => simp [Threads.act, here] at stepped
  | go yes => exact inv.go found rfl met stepped

omit inv found

theorem signalSend_kill (found : k.tasks.lookup id = some t) (live : signalLive t = true) :
    k.signalSend id SIGKILL =
      Kernel.wakeTaskLocked (k.setTask id { t with sigPending := t.sigPending ||| KILL_BIT }) id := by
  have open_ : Kernel.isBlocked t SIGKILL = false := by
    have stuck : (bit SIGKILL &&& UNBLOCKABLE == 0) = false := by decide
    rw [Kernel.isBlocked, stuck, Bool.and_false]
  have acts : k.ignores t SIGKILL = false := by simp [Kernel.ignores, Kernel.disposition]
  have number : ¬(SIGKILL = 0 ∨ 31 < SIGKILL) := by decide
  rw [Kernel.signalSend, if_neg number, Kernel.sendLocked, found]
  simp [live, open_, acts, KILL_BIT]

theorem signalSend_kill_dead (dead : (k.tasks.lookup id).any signalLive = false) :
    k.signalSend id SIGKILL = k := by
  unfold Kernel.signalSend
  split
  · rfl
  unfold Kernel.sendLocked
  split
  · rfl
  · rename_i t found
    rw [found, Option.any_some] at dead
    simp [dead]

theorem Inv.send (inv : w.Inv) {sig : Nat} (met : w.meets (.send id sig) = true) : (w.send id sig).Inv := by
  by_cases kill : sig = SIGKILL
  · subst kill
    cases live : (w.task id).any signalLive with
    | false =>
      have same : w.send id SIGKILL = w.setKernel w.kernel := by
        simp [Threads.send, live, signalSend_kill_dead (k := w.kernel) live]
      rw [same]
      exact inv.calm (Kernel.Calm.refl _)
    | true =>
      obtain ⟨t, found, isLive⟩ := Option.any_eq_true .. |>.mp live
      have posted := inv.post found (w.pid id == id) (by
        intro isLeader
        have leader : t.tgid = id := by simpa [pid, found] using isLeader
        refine ⟨leader, fun running => ?_⟩
        have awaited : (w.place id).waitsForThreads = false := by simpa [meets, isLeader] using met
        have fit := inv id t found
        cases here : w.place id with
        | alone why =>
          rw [here] at awaited
          cases why with
          | exitGroup =>
            rw [fit.group here] at running
            cases running
          | _ => cases awaited
        | done =>
          have dead := fit.dead.mpr here
          simp [signalLive, dead] at isLive
        | start call =>
          rw [here] at awaited
          cases call with
          | threadExit => cases awaited
          | _ => rfl
        | _ => rfl)
      have same : w.send id SIGKILL = (w.mark id fun trace =>
          { trace with posted := true, sent := trace.sent || (w.pid id == id) }).setKernel
          (Kernel.wakeTaskLocked (w.kernel.setTask id { t with sigPending := t.sigPending ||| KILL_BIT }) id) := by
        simp [Threads.send, live, signalSend_kill (k := w.kernel) found isLive]
      rw [same]
      exact posted
  · have same : w.send id sig = w.setKernel (w.kernel.signalSend id sig) := by simp [Threads.send, kill]
    rw [same]
    exact inv.calm (Kernel.signalSend_calm id fun t => Keeps.of_same rfl (killed_set t kill) rfl rfl)

def own (tid : Tid) : SigEvent → Bool
  | .act other _ => other == tid
  | _ => false

theorem send_acts (id : Tid) (sig : Nat) : Acts moves w (w.send id sig) := by
  have sends (u : Threads) (same : u.kernel = w.kernel) : Acts moves u (u.setKernel (w.kernel.signalSend id sig)) :=
    setKernel_acts fun o lives => Kernel.signalSend_forth id sig o (same ▸ lives)
  unfold Threads.send
  simp only
  split
  · have marked : Acts moves w (w.mark id fun trace =>
        { trace with posted := true, sent := trace.sent || w.pid id == id }) :=
      mark_acts id (fun _ => rfl) fun trace isSent => by simp [isSent]
    exact marked.trans (sends _ rfl)
  · exact sends w rfl

theorem Inv.step (inv : w.Inv) {event : SigEvent} (met : w.meets event = true)
    (stepped : w.step event = some w') :
    w'.Inv ∧ ((∀ tid, event ≠ .recycle tid) → Acts (fun o => own o event = true) w w') := by
  have calms {kernel : Kernel} (calm : Kernel.Calm Keeps w.kernel kernel) : (w.setKernel kernel).Inv ∧
      ((∀ tid, event ≠ .recycle tid) → Acts (fun o => own o event = true) w (w.setKernel kernel)) :=
    ⟨inv.calm calm, fun _ => setKernel_acts calm.forth⟩
  cases event with
  | spawn slot rip =>
    refine guarded stepped fun free => ?_
    have made (moves : Tid → Prop) : (w.spawn slot rip).Inv ∧ Acts moves w (w.spawn slot rip) :=
      inv.create free rfl rfl rfl rfl rfl
    exact (made _).imp_right fun acts _ => acts
  | act tid act =>
    obtain ⟨t, found, stepped⟩ := Option.bind_eq_some_iff.mp stepped
    obtain ⟨kept, acts⟩ := inv.act (Option.filter_eq_some_iff.mp found).1 met stepped
    refine ⟨kept, fun _ => { acts with place := fun o still => acts.place o fun same => still ?_ }⟩
    simp [own, same]
  | send id sig =>
    cases stepped
    exact ⟨inv.send met, fun _ => send_acts id sig⟩
  | wake key =>
    cases stepped
    exact calms (Kernel.wake_calm key)
  | timeout tid =>
    cases stepped
    exact calms (Kernel.bumpSeq_calm.trans (Kernel.wakeLocked_calm tid))
  | switch tid how =>
    exact mapped stepped fun _ switched => calms (Kernel.switch_calm switched
      (fun t ready => ⟨rfl, rfl, fun _ wrong => (by cases wrong), by simp [ready]⟩) (fun _ => Keeps.of_same rfl rfl rfl rfl)
      finishSwitch_keeps)
  | recycle tid =>
    exact mapped stepped fun t found => ⟨fun o t' found' => inv o t' (Table.lookup_erase_some found').2, fun kept =>
      absurd rfl (kept tid)⟩

theorem reach_inv (reachable : system.Reach (fun w event => w.meets event = true) w) : w.Inv := by
  refine reachable.invariant ?_ ?_
  · rintro w ⟨tasks, -⟩ tid t found
    rw [Placed.task, tasks] at found
    cases found
  · intro w event next inv met stepped
    exact (inv.step met stepped).1

end Myos.Task.Threads
