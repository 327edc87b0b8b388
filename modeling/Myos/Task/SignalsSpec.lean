import Myos.Task.Signals

namespace Myos.Task
open Lib

def TaskSlot.killed (t : TaskSlot) : Bool := t.sigPending.getLsbD SIGKILL

def TaskSlot.awake (t : TaskSlot) : Prop := t.state = .blocked → t.wakePending = true

structure Keeps (t t' : TaskSlot) : Prop where
  tgid : t'.tgid = t.tgid
  killed : t'.killed = t.killed
  awake : t.awake → t'.awake
  dead : t'.state = .dead ↔ t.state = .dead

theorem Keeps.refl (t : TaskSlot) : Keeps t t := ⟨rfl, rfl, id, Iff.rfl⟩

theorem Keeps.trans {t u v : TaskSlot} (first : Keeps t u) (second : Keeps u v) : Keeps t v :=
  ⟨second.tgid.trans first.tgid, second.killed.trans first.killed, second.awake ∘ first.awake,
    second.dead.trans first.dead⟩

theorem Keeps.of_same {t t' : TaskSlot} (tgid : t'.tgid = t.tgid) (killed : t'.killed = t.killed)
    (state : t'.state = t.state) (wakePending : t'.wakePending = t.wakePending) : Keeps t t' := by
  refine ⟨tgid, killed, fun awake => ?_, by rw [state]⟩
  intro blocked
  rw [wakePending]
  exact awake (state ▸ blocked)

theorem getLsbD_bit (sig : Nat) : (bit sig).getLsbD SIGKILL = decide (sig = SIGKILL) := by
  simp only [bit, SIGKILL, BitVec.getLsbD_shiftLeft, BitVec.getLsbD_one]
  by_cases same : sig = 9
  · subst same
    rfl
  by_cases above : 9 < sig
  · simp [above, same]
  · have apart : 9 - sig ≠ 0 := by omega
    simp [apart, same]

theorem killed_clear (t : TaskSlot) {sig : Nat} (other : sig ≠ SIGKILL) :
    ({ t with sigPending := t.sigPending &&& ~~~bit sig } : TaskSlot).killed = t.killed := by
  simp only [TaskSlot.killed, BitVec.getLsbD_and, BitVec.getLsbD_not, getLsbD_bit, other, decide_false]
  simp [SIGKILL]

theorem killed_set (t : TaskSlot) {sig : Nat} (other : sig ≠ SIGKILL) :
    ({ t with sigPending := t.sigPending ||| bit sig } : TaskSlot).killed = t.killed := by
  simp [TaskSlot.killed, BitVec.getLsbD_or, getLsbD_bit, other]

theorem killed_post (t : TaskSlot) : ({ t with sigPending := t.sigPending ||| KILL_BIT } : TaskSlot).killed = true := by
  simp [TaskSlot.killed, KILL_BIT, BitVec.getLsbD_or, getLsbD_bit]

theorem trailingZeros_ne {set : Sigset} {i : Nat} (inside : i < 32) (clear : set.getLsbD i = false) :
    trailingZeros set ≠ i := by
  unfold trailingZeros
  cases found : (List.range 32).find? fun i => set.getLsbD i with
  | none =>
    simp only [Option.getD_none]
    omega
  | some j =>
    rintro rfl
    have isSet := List.find?_some found
    simp only [Option.getD_some] at clear
    rw [clear] at isSet
    cases isSet

theorem woken_keeps (t : TaskSlot) : Keeps t (Kernel.TaskSlot.woken t) := by
  unfold Kernel.TaskSlot.woken
  split
  · rename_i blocked
    split
    · exact ⟨rfl, rfl, fun _ _ => rfl, Iff.rfl⟩
    · refine ⟨rfl, rfl, fun _ isBlocked => ?_, ?_⟩
      · cases isBlocked
      · simp [blocked]
  · exact Keeps.refl t

theorem woken_awake (t : TaskSlot) : (Kernel.TaskSlot.woken t).awake := by
  unfold Kernel.TaskSlot.woken
  split
  · split
    · exact fun _ => rfl
    · intro isBlocked
      cases isBlocked
  · rename_i running
    exact fun isBlocked => absurd isBlocked running

theorem finishSwitch_keeps (t : TaskSlot) : Keeps t (Kernel.TaskSlot.finishSwitch t) := by
  unfold Kernel.TaskSlot.finishSwitch
  split
  · rename_i running
    refine ⟨rfl, rfl, fun _ isBlocked => ?_, ?_⟩
    · cases isBlocked
    · simp [running]
  split
  · rename_i woken
    refine ⟨rfl, rfl, fun _ isBlocked => ?_, ?_⟩
    · cases isBlocked
    · simp [woken.1]
  · exact Keeps.of_same rfl rfl rfl rfl

class Mild (R : TaskSlot → TaskSlot → Prop) : Prop where
  refl : ∀ t, R t t
  trans : ∀ {t u v}, R t u → R u v → R t v
  woken : ∀ t, R t (Kernel.TaskSlot.woken t)
  masked : ∀ t blocked, R t { t with sigBlocked := blocked }
  cleared : ∀ t sig, sig ≠ SIGKILL → R t { t with sigPending := t.sigPending &&& ~~~bit sig }

instance : Mild Keeps where
  refl := Keeps.refl
  trans := Keeps.trans
  woken := woken_keeps
  masked _ _ := Keeps.of_same rfl rfl rfl rfl
  cleared t _ other := Keeps.of_same rfl (killed_clear t other) rfl rfl

instance : Mild fun _ _ => True where
  refl _ := trivial
  trans _ _ := trivial
  woken _ := trivial
  masked _ _ := trivial
  cleared _ _ _ := trivial

namespace Kernel

variable {R : TaskSlot → TaskSlot → Prop} {k : Kernel}

structure Counted (k : Kernel) : Prop where
  any : k.anyWaiters = k.tasks.count fun _ t => isAnyWaiter t
  woken : ∀ tid t, k.tasks.lookup tid = some t → t.wakePending = true → t.waitKey = .none

structure Steady (t t' : TaskSlot) : Prop where
  wakePending : t'.wakePending = t.wakePending
  waitKey : t'.waitKey = t.waitKey
  any : isAnyWaiter t' = isAnyWaiter t

theorem Steady.refl (t : TaskSlot) : Steady t t := ⟨rfl, rfl, rfl⟩

structure Calm (R : TaskSlot → TaskSlot → Prop) (k k' : Kernel) : Prop where
  seq : k.waitSeq ≤ k'.waitSeq
  counted : Counted k → Counted k'
  back : ∀ tid t', k'.tasks.lookup tid = some t' → ∃ t, k.tasks.lookup tid = some t ∧ R t t'
  forth : ∀ tid, (k.tasks.lookup tid).isSome = true → (k'.tasks.lookup tid).isSome = true

variable [Mild R]

theorem Calm.refl (k : Kernel) : Calm R k k :=
  ⟨le_rfl, id, fun _ t found => ⟨t, found, Mild.refl t⟩, fun _ => id⟩

theorem Calm.trans {k l m : Kernel} (first : Calm R k l) (second : Calm R l m) : Calm R k m := by
  refine ⟨Nat.le_trans first.seq second.seq, second.counted ∘ first.counted, fun tid t' found => ?_,
    fun tid => second.forth tid ∘ first.forth tid⟩
  obtain ⟨u, foundU, becomesU⟩ := second.back tid t' found
  obtain ⟨t, found, becomes⟩ := first.back tid u foundU
  exact ⟨t, found, Mild.trans becomes becomesU⟩

theorem Calm.of_tasks {k k' : Kernel} (same : k'.tasks = k.tasks) (any : k'.anyWaiters = k.anyWaiters)
    (seq : k.waitSeq ≤ k'.waitSeq) : Calm R k k' where
  seq := seq
  counted counted := ⟨by rw [any, same]; exact counted.any, by rw [same]; exact counted.woken⟩
  back _ t found := ⟨t, same ▸ found, Mild.refl t⟩
  forth _ found := by rw [same]; exact found

variable {set : Sigset} {t t' : TaskSlot} {id slot : Tid}

theorem setTask_back (found : k.tasks.lookup slot = some t) (becomes : R t t') (tid : Tid)
    (u : TaskSlot) (foundU : (k.setTask slot t').tasks.lookup tid = some u) :
    ∃ t, k.tasks.lookup tid = some t ∧ R t u := by
  obtain ⟨rfl, rfl⟩ | ⟨_, foundU⟩ := Table.lookup_insert_some foundU
  · exact ⟨t, found, becomes⟩
  · exact ⟨u, foundU, Mild.refl u⟩

omit [Mild R] in
theorem setTask_forth (slot : Tid) (t : TaskSlot) (tid : Tid) (lives : (k.tasks.lookup tid).isSome = true) :
    ((k.setTask slot t).tasks.lookup tid).isSome = true := by
  by_cases same : tid = slot
  · rw [same, setTask, AList.lookup_insert]
    rfl
  · rw [setTask, AList.lookup_insert_ne same]
    exact lives

omit [Mild R] in
theorem lookup_modifyTask (slot : Tid) (f : TaskSlot → TaskSlot) :
    (k.modifyTask slot f).tasks.lookup slot = (k.tasks.lookup slot).map f := by
  unfold modifyTask
  cases found : k.tasks.lookup slot with
  | none => exact found
  | some t => exact AList.lookup_insert ..

omit [Mild R] in
theorem lookup_modifyTask_ne {tid : Tid} (other : tid ≠ slot) (f : TaskSlot → TaskSlot) :
    (k.modifyTask slot f).tasks.lookup tid = k.tasks.lookup tid := by
  unfold modifyTask
  split
  · rfl
  · exact AList.lookup_insert_ne other

omit [Mild R] in
theorem modifyTask_forth (slot : Tid) (f : TaskSlot → TaskSlot) (tid : Tid) (lives : (k.tasks.lookup tid).isSome = true) :
    ((k.modifyTask slot f).tasks.lookup tid).isSome = true := by
  unfold modifyTask
  split
  · exact lives
  · exact setTask_forth slot _ tid lives

omit [Mild R] in
theorem count_setTask (found : k.tasks.lookup slot = some t) (t' : TaskSlot) :
    (k.setTask slot t').tasks.count (fun _ t => isAnyWaiter t) + (isAnyWaiter t).toNat =
      k.tasks.count (fun _ t => isAnyWaiter t) + (isAnyWaiter t').toNat := by
  have counts := Table.count_insert k.tasks (fun _ t => isAnyWaiter t) slot t'
  rw [Table.weight_of_some _ found] at counts
  exact counts

omit [Mild R] in
theorem Counted.setTask (counted : Counted k) (found : k.tasks.lookup slot = some t)
    (steady : Steady t t') : Counted (k.setTask slot t') := by
  refine ⟨?_, fun tid u foundU pending => ?_⟩
  · have counts := count_setTask found t'
    rw [steady.any] at counts
    exact counted.any.trans (Nat.add_right_cancel counts).symm
  obtain ⟨rfl, rfl⟩ | ⟨_, foundU⟩ := Table.lookup_insert_some foundU
  · rw [steady.waitKey]
    exact counted.woken tid t found (steady.wakePending ▸ pending)
  · exact counted.woken tid u foundU pending

theorem setTask_calm (found : k.tasks.lookup slot = some t) (becomes : R t t')
    (steady : Steady t t') : Calm R k (k.setTask slot t') :=
  ⟨le_rfl, fun counted => counted.setTask found steady, setTask_back found becomes, setTask_forth slot t'⟩

theorem modifyTask_calm (slot : Tid) {f : TaskSlot → TaskSlot} (becomes : ∀ t, R t (f t)) (steady : ∀ t, Steady t (f t)) :
    Calm R k (k.modifyTask slot f) := by
  unfold modifyTask
  cases found : k.tasks.lookup slot with
  | none => exact Calm.refl k
  | some t => exact setTask_calm found (becomes t) (steady t)

theorem bumpSeq_calm : Calm R k k.bumpSeq := Calm.of_tasks rfl rfl (Nat.le_succ _)

theorem setProc_calm (pid : Tid) (p : Process) : Calm R k (k.setProc pid p) := Calm.of_tasks rfl rfl le_rfl

omit [Mild R] in
theorem isAnyWaiter_woken (t : TaskSlot) : isAnyWaiter (TaskSlot.woken t) = false := by
  unfold TaskSlot.woken
  split
  · split <;> simp [isAnyWaiter]
  · rename_i runs
    simp [isAnyWaiter, runs]

omit [Mild R] in
theorem Counted.wakeLocked (counted : Counted k) (slot : Tid) : Counted (k.wakeLocked slot) := by
  unfold Kernel.wakeLocked
  cases found : k.tasks.lookup slot with
  | none => exact counted
  | some t =>
    refine ⟨?_, fun tid u foundU pending => ?_⟩
    · have counts := count_setTask found (TaskSlot.woken t)
      have right := counted.any
      rw [isAnyWaiter_woken] at counts
      simp only
      cases waits : isAnyWaiter t
      · simp only [waits, Bool.toNat_false, Bool.false_eq_true, if_false] at counts ⊢
        omega
      · simp only [waits, Bool.toNat_false, Bool.toNat_true, if_true] at counts ⊢
        omega
    · obtain ⟨rfl, rfl⟩ | ⟨_, foundU⟩ := Table.lookup_insert_some foundU
      · unfold TaskSlot.woken at pending ⊢
        split at pending
        · rename_i blocked
          rw [if_pos blocked]
          split <;> rfl
        · rename_i runs
          rw [if_neg runs]
          exact counted.woken tid t found pending
      · exact counted.woken tid u foundU pending

theorem wakeLocked_calm (slot : Tid) : Calm R k (k.wakeLocked slot) := by
  have back : ∀ tid u, (k.wakeLocked slot).tasks.lookup tid = some u → ∃ t, k.tasks.lookup tid = some t ∧ R t u := by
    unfold wakeLocked
    cases found : k.tasks.lookup slot with
    | none => exact fun _ u foundU => ⟨u, foundU, Mild.refl u⟩
    | some t => exact setTask_back found (Mild.woken t)
  have forth : ∀ tid, (k.tasks.lookup tid).isSome = true → ((k.wakeLocked slot).tasks.lookup tid).isSome = true := by
    unfold wakeLocked
    cases found : k.tasks.lookup slot with
    | none => exact fun _ => id
    | some t => exact setTask_forth slot _
  have seq : (k.wakeLocked slot).waitSeq = k.waitSeq := by
    unfold wakeLocked
    split <;> rfl
  exact ⟨Nat.le_of_eq seq.symm, fun counted => counted.wakeLocked slot, back, forth⟩

theorem finishSwitch_calm (found : k.tasks.lookup slot = some t)
    (becomes : R t (TaskSlot.finishSwitch t)) : Calm R k (k.setTask slot (TaskSlot.finishSwitch t)) := by
  refine ⟨le_rfl, fun counted => ?_, setTask_back found becomes, setTask_forth slot _⟩
  have waits : isAnyWaiter (TaskSlot.finishSwitch t) = isAnyWaiter t := by
    unfold TaskSlot.finishSwitch
    split
    · rename_i running
      rw [isAnyWaiter, isAnyWaiter, running]
      rfl
    split
    · rename_i woken
      rw [isAnyWaiter, isAnyWaiter, counted.woken slot t found woken.2, woken.1]
      rfl
    · rfl
  refine ⟨?_, fun tid u foundU pending => ?_⟩
  · have counts := count_setTask found (TaskSlot.finishSwitch t)
    rw [waits] at counts
    exact counted.any.trans (Nat.add_right_cancel counts).symm
  obtain ⟨rfl, rfl⟩ | ⟨_, foundU⟩ := Table.lookup_insert_some foundU
  · unfold TaskSlot.finishSwitch at pending ⊢
    split at pending
    · rename_i running
      rw [if_pos running]
      exact counted.woken tid t found pending
    rename_i runs
    rw [if_neg runs]
    split at pending
    · cases pending
    · rename_i asleep
      rw [if_neg asleep]
      exact counted.woken tid t found pending
  · exact counted.woken tid u foundU pending

theorem switch_calm {how : Switch} {k' : Kernel} (switched : k.switch slot how = some k')
    (dispatched : ∀ t, t.state = .ready → R t { t with state := .running })
    (leaves : ∀ t, R t { t with midSwitch := true }) (finished : ∀ t, R t (TaskSlot.finishSwitch t)) : Calm R k k' := by
  cases how <;> obtain ⟨t, found, rfl⟩ := Option.map_eq_some_iff.mp switched <;>
    obtain ⟨found, fit⟩ := Option.filter_eq_some_iff.mp found
  case dispatch =>
    simp only [Bool.and_eq_true, beq_iff_eq] at fit
    refine setTask_calm found (dispatched t fit.1) ⟨rfl, rfl, ?_⟩
    rw [isAnyWaiter, isAnyWaiter, fit.1]
    rfl
  case away => exact setTask_calm found (leaves t) ⟨rfl, rfl, rfl⟩
  case finish => exact finishSwitch_calm found (finished t)

theorem wakeIf_calm (pick : TaskSlot → Bool) (slot : Tid) : Calm R k (k.wakeIf pick slot) := by
  unfold wakeIf
  split
  · exact wakeLocked_calm slot
  · exact Calm.refl k

theorem foldl_calm {pass : Kernel → Tid → Kernel} (calm : ∀ k slot, Calm R k (pass k slot)) (slots : List Tid) :
    Calm R k (slots.foldl pass k) := by
  induction slots generalizing k with
  | nil => exact Calm.refl k
  | cons slot slots ih => exact (calm k slot).trans ih

theorem wakeKeyLocked_calm (key : WaitKey) : Calm R k (k.wakeKeyLocked key).1 :=
  foldl_calm (fun _ slot => wakeIf_calm _ slot) _

theorem wake_calm (key : WaitKey) : Calm R k (k.wake key) := bumpSeq_calm.trans (wakeKeyLocked_calm key)

theorem wakeTaskLocked_calm (slot : Tid) : Calm R k (k.wakeTaskLocked slot) := bumpSeq_calm.trans (wakeLocked_calm slot)

theorem wakeTaskLocked_lookup (found : k.tasks.lookup slot = some t) :
    (k.wakeTaskLocked slot).tasks.lookup slot = some (TaskSlot.woken t) ∧ (k.wakeTaskLocked slot).waitSeq = k.waitSeq + 1 := by
  unfold wakeTaskLocked wakeLocked
  rw [show k.bumpSeq.tasks = k.tasks from rfl, found]
  exact ⟨AList.lookup_insert .., rfl⟩

theorem signalSend_calm (id : Tid) {sig : Nat}
    (posts : ∀ t, R t { t with sigPending := t.sigPending ||| bit sig }) : Calm R k (k.signalSend id sig) := by
  unfold signalSend
  split
  · exact Calm.refl k
  unfold sendLocked
  split
  · exact Calm.refl k
  rename_i t found
  split
  · exact Calm.refl k
  have post : Calm R k (k.setTask id { t with sigPending := t.sigPending ||| bit sig }) :=
    setTask_calm found (posts t) ⟨rfl, rfl, rfl⟩
  simp only
  split
  · exact post.trans (wakeTaskLocked_calm id)
  split
  · rename_i woken split_
    have woke : Calm R _ _ := wakeKeyLocked_calm (k := k.setTask id { t with sigPending := t.sigPending ||| bit sig }) .signal
    rw [split_] at woke
    exact (post.trans woke).trans bumpSeq_calm
  · rename_i woken split_
    have woke : Calm R _ _ := wakeKeyLocked_calm (k := k.setTask id { t with sigPending := t.sigPending ||| bit sig }) .signal
    rw [split_] at woke
    exact post.trans woke

omit [Mild R] in
theorem signalSend_forth (id : Tid) (sig : Nat) (tid : Tid) (lives : (k.tasks.lookup tid).isSome = true) :
    ((k.signalSend id sig).tasks.lookup tid).isSome = true :=
  (signalSend_calm (R := fun _ _ => True) id fun _ => trivial).forth tid lives

theorem signalSetBlockedMask_calm (id : Tid) (mask : Sigset) : Calm R k (k.signalSetBlockedMask id mask) :=
  modifyTask_calm id (fun t => Mild.masked t _) fun _ => ⟨rfl, rfl, rfl⟩

theorem discard_calm (pid : Tid) {sig : Nat} (other : sig ≠ SIGKILL) : Calm R k (k.discard pid sig) := by
  refine foldl_calm (fun k slot => modifyTask_calm slot (fun t => ?_) fun t => ?_) _
  · split
    · exact Mild.cleared t sig other
    · exact Mild.refl t
  · split
    · exact ⟨rfl, rfl, rfl⟩
    · exact Steady.refl t

theorem signalSetAction_calm (id : Tid) (sig handler : Nat) (flags mask : Sigset) (tramp : Nat) :
    Calm R k (k.signalSetAction id sig handler flags mask tramp) := by
  unfold signalSetAction
  split
  · exact Calm.refl k
  split
  · exact Calm.refl k
  rename_i catchable
  split
  · exact Calm.refl k
  split
  · exact Calm.refl k
  have plain (other : handler ≠ HANDLER_DFL) : sig ≠ SIGKILL := by
    rintro rfl
    exact catchable ⟨by decide, other⟩
  simp only
  split
  · rename_i ignored
    refine (setProc_calm ..).trans (discard_calm _ (plain ?_))
    rw [ignored]
    decide
  split
  · split
    · exact setProc_calm ..
    rename_i kept
    refine (setProc_calm ..).trans (discard_calm _ ?_)
    rintro rfl
    exact kept rfl
  · exact setProc_calm ..

theorem signalTakeFrom_calm (id : Tid)
    (takes : ∀ t, k.tasks.lookup id = some t →
      R t { t with sigPending := t.sigPending &&& ~~~bit (trailingZeros (takeable t set)) }) :
    Calm R k (k.signalTakeFrom id set).1 := by
  unfold signalTakeFrom
  split
  · exact Calm.refl k
  rename_i t found
  split
  · exact Calm.refl k
  · exact setTask_calm found (takes t found) ⟨rfl, rfl, rfl⟩

theorem takeSome_calm {ok : TaskSlot → Prop} (id : Tid) (records : Nat) (takes : ∀ t, ok t →
      R t { t with sigPending := t.sigPending &&& ~~~bit (trailingZeros (takeable t set)) })
    (stays : ∀ t t', ok t → R t t' → ok t') (fits : ∀ t, k.tasks.lookup id = some t → ok t) :
    Calm R k (takeSome id set records k).1 := by
  induction records generalizing k with
  | zero => exact Calm.refl k
  | succ records ih =>
    have took : Calm R k (k.signalTakeFrom id set).1 := signalTakeFrom_calm id fun t found => takes t (fits t found)
    rw [takeSome]
    split
    · rename_i kernel same
      rw [same] at took
      exact took
    rename_i kernel sig same
    rw [same] at took
    refine took.trans (ih fun t' found' => ?_)
    obtain ⟨t, found, becomes⟩ := took.back id t' found'
    exact stays t t' (fits t found) becomes

theorem takes_keeps (apart : t.killed = true → set.getLsbD SIGKILL = false) :
    Keeps t { t with sigPending := t.sigPending &&& ~~~bit (trailingZeros (takeable t set)) } := by
  refine Mild.cleared t _ (trailingZeros_ne (by decide) ?_)
  simp only [takeable, BitVec.getLsbD_and]
  cases killed : t.killed with
  | false =>
    rw [TaskSlot.killed] at killed
    simp [killed]
  | true => simp [apart killed]

theorem catch_calm (found : k.tasks.lookup id = some t) (becomes : R t t')
    (steady : Steady t t') (sig : Nat) (act : SigAction) : Calm R k (k.catch_ id t' sig act) := by
  have caught (blocked : Sigset) : Calm R k (k.setTask id { t' with sigBlocked := blocked }) :=
    setTask_calm found (Mild.trans becomes (Mild.masked t' blocked)) ⟨steady.wakePending, steady.waitKey, steady.any⟩
  unfold catch_
  simp only
  split
  · exact (caught _).trans (setProc_calm ..)
  · exact caught _

theorem signalCatchFault_calm (id : Tid) (sig : Nat) : Calm R k (k.signalCatchFault id sig).1 := by
  unfold signalCatchFault
  split
  · exact Calm.refl k
  rename_i t found
  split
  · exact Calm.refl k
  split
  · exact catch_calm found (Mild.refl t) (Steady.refl t) sig _
  · exact Calm.refl k

theorem deliverable_killed (t : TaskSlot) : (deliverable t).getLsbD SIGKILL = t.killed := by
  have kill : KILL_BIT.getLsbD SIGKILL = true := by decide
  simp [deliverable, TaskSlot.killed, BitVec.getLsbD_and, BitVec.getLsbD_or, kill]

theorem and_kill_ne_zero : set &&& KILL_BIT ≠ 0 ↔ set.getLsbD SIGKILL = true := by
  constructor
  · intro nonzero
    by_contra clear
    apply nonzero
    rw [BitVec.eq_of_getLsbD_eq_iff]
    intro i inside
    rw [BitVec.getLsbD_and]
    by_cases same : i = SIGKILL
    · subst same
      simp [Bool.eq_false_iff.mpr clear]
    have other : KILL_BIT.getLsbD i = false := by
      simp only [KILL_BIT, bit, BitVec.getLsbD_shiftLeft, BitVec.getLsbD_one, SIGKILL] at same ⊢
      by_cases below : i < 9
      · simp [below]
      · have apart : i - 9 ≠ 0 := by omega
        simp [apart]
    simp [other]
  · intro set_ zero
    have bits := congrArg (fun b => b.getLsbD SIGKILL) zero
    have kill : KILL_BIT.getLsbD SIGKILL = true := by decide
    simp [BitVec.getLsbD_and, set_, kill] at bits

def nextSignal (t : TaskSlot) : Nat :=
  if deliverable t &&& KILL_BIT ≠ 0 then SIGKILL else trailingZeros (deliverable t)

theorem signalNextLoop_calm (found : k.tasks.lookup id = some t) (becomes : R t t')
    (steady : Steady t t')
    (takes : ∀ u, R t u → R u { u with sigPending := u.sigPending &&& ~~~bit (nextSignal u) }) (fuel : Nat) :
    Calm R k (k.signalNextLoop id t' fuel).1 := by
  induction fuel generalizing t' with
  | zero => exact setTask_calm found becomes steady
  | succ fuel ih =>
    rw [signalNextLoop]
    simp only
    split
    · exact setTask_calm found becomes steady
    have taken : R t { t' with sigPending := t'.sigPending &&& ~~~bit (nextSignal t') } :=
      Mild.trans becomes (takes t' becomes)
    have still : Steady t { t' with sigPending := t'.sigPending &&& ~~~bit (nextSignal t') } :=
      ⟨steady.wakePending, steady.waitKey, steady.any⟩
    split
    · exact ih taken still
    · exact setTask_calm found taken still
    · exact catch_calm found taken still _ _

theorem signalNext_calm
    (takes : ∀ t u, k.tasks.lookup id = some t → R t u →
      R u { u with sigPending := u.sigPending &&& ~~~bit (nextSignal u) }) : Calm R k (k.signalNext id).1 := by
  unfold signalNext
  split
  · exact Calm.refl k
  · rename_i t found
    exact signalNextLoop_calm found (Mild.refl t) (Steady.refl t) (fun u => takes t u found) 33

theorem nextSignal_keeps {u : TaskSlot} (keeps : Keeps t u) (alive : t.killed = false) :
    Keeps u { u with sigPending := u.sigPending &&& ~~~bit (nextSignal u) } := by
  have clear : (deliverable u).getLsbD SIGKILL = false := by rw [deliverable_killed, keeps.killed, alive]
  have lowest : ¬ deliverable u &&& KILL_BIT ≠ 0 := by
    rw [and_kill_ne_zero, clear]
    exact Bool.false_ne_true
  rw [nextSignal, if_neg lowest]
  exact Mild.cleared u _ (trailingZeros_ne (by decide) clear)

theorem signalNext_killed (found : k.tasks.lookup id = some t) (killed : t.killed = true) :
    k.signalNext id = (k.setTask id { t with sigPending := t.sigPending &&& ~~~KILL_BIT }, .terminate SIGKILL) := by
  have first : deliverable t &&& KILL_BIT ≠ 0 := by rw [and_kill_ne_zero, deliverable_killed, killed]
  have nonzero : deliverable t ≠ 0 := by
    intro zero
    rw [zero] at first
    exact first (by decide)
  rw [signalNext, found]
  simp only
  rw [signalNextLoop]
  simp only [if_neg nonzero, if_pos first]
  have ends : k.disposition { t with sigPending := t.sigPending &&& ~~~bit SIGKILL } SIGKILL = .terminate := by
    simp [disposition]
  rw [ends]
  rfl

theorem signalWakeable_killed (killed : t.killed = true) : k.signalWakeable t = true := by
  unfold signalWakeable
  rw [List.any_eq_true]
  refine ⟨SIGKILL, List.mem_range.mpr (by decide), ?_⟩
  rw [deliverable_killed, killed]
  simp [ignores, disposition, SIGKILL]

end Kernel
end Myos.Task
