import Myos.Task.SignalsSpec
import Myos.Task.SleepRun

namespace Myos.Task
open Lib Myos.Evfd

def TaskSlot.dozing (t : TaskSlot) : Prop := t.state = .blocked ∧ t.wakePending = false

structure Dozes (t t' : TaskSlot) : Prop where
  pending : ∀ i, t'.sigPending.getLsbD i = true → t.sigPending.getLsbD i = true
  dozing : t'.dozing → t.dozing ∧ t'.waitKey = t.waitKey ∧ t'.wakeAt = t.wakeAt

theorem Dozes.refl (t : TaskSlot) : Dozes t t := ⟨fun _ => id, fun dozing => ⟨dozing, rfl, rfl⟩⟩

theorem Dozes.trans {t u v : TaskSlot} (first : Dozes t u) (second : Dozes u v) : Dozes t v := by
  refine ⟨fun i => first.pending i ∘ second.pending i, fun dozing => ?_⟩
  obtain ⟨dozing, key, wakeAt⟩ := second.dozing dozing
  obtain ⟨dozing, firstKey, firstAt⟩ := first.dozing dozing
  exact ⟨dozing, key.trans firstKey, wakeAt.trans firstAt⟩

theorem woken_not_dozing (t : TaskSlot) : ¬(Kernel.TaskSlot.woken t).dozing := by
  intro dozing
  have pending := woken_awake t dozing.1
  rw [dozing.2] at pending
  cases pending

theorem woken_sigPending (t : TaskSlot) : (Kernel.TaskSlot.woken t).sigPending = t.sigPending := by
  unfold Kernel.TaskSlot.woken
  split
  · split <;> rfl
  · rfl

instance : Mild Dozes where
  refl := Dozes.refl
  trans := Dozes.trans
  woken t := ⟨fun i set => woken_sigPending t ▸ set, fun dozing => absurd dozing (woken_not_dozing t)⟩
  masked _ _ := ⟨fun _ => id, fun dozing => ⟨dozing, rfl, rfl⟩⟩
  cleared t sig _ := by
    refine ⟨fun i set => ?_, fun dozing => ⟨dozing, rfl, rfl⟩⟩
    rw [BitVec.getLsbD_and, Bool.and_eq_true] at set
    exact set.1

theorem clears_dozes (t : TaskSlot) (set : Sigset) : Dozes t { t with sigPending := t.sigPending &&& set } := by
  refine ⟨fun i isSet => ?_, fun dozing => ⟨dozing, rfl, rfl⟩⟩
  rw [BitVec.getLsbD_and, Bool.and_eq_true] at isSet
  exact isSet.1

theorem finishSwitch_dozes (t : TaskSlot) : Dozes t (Kernel.TaskSlot.finishSwitch t) := by
  unfold Kernel.TaskSlot.finishSwitch
  split
  · exact ⟨fun _ => id, fun dozing => nomatch dozing.1⟩
  · split
    · exact ⟨fun _ => id, fun dozing => nomatch dozing.1⟩
    · exact ⟨fun _ => id, fun dozing => ⟨dozing, rfl, rfl⟩⟩

namespace Kernel

variable {k : Kernel}

theorem Counted.wakesFor (counted : Counted k) {tid : Tid} {t : TaskSlot} (found : k.tasks.lookup tid = some t)
    (key : WaitKey) : wakesFor (k.anyWaiters != 0) key t = wakesFor true key t := by
  cases waits : isAnyWaiter t with
  | true =>
    have positive : 0 < k.anyWaiters := by
      rw [counted.any]
      exact Table.count_pos_iff.mpr ⟨tid, t, found, waits⟩
    have nonzero : (k.anyWaiters != 0) = true := bne_iff_ne.mpr (Nat.ne_of_gt positive)
    rw [nonzero]
  | false =>
    unfold isAnyWaiter at waits
    unfold Kernel.wakesFor
    cases blocked : t.state == .blocked with
    | false => rfl
    | true =>
      rw [blocked, Bool.true_and] at waits
      rw [waits, Bool.and_false, Bool.and_false]

theorem lookup_wakeIf_ne (pick : TaskSlot → Bool) {slot tid : Tid} (apart : tid ≠ slot) :
    (k.wakeIf pick slot).tasks.lookup tid = k.tasks.lookup tid := by
  unfold wakeIf wakeLocked
  split
  · split
    · rfl
    · exact AList.lookup_insert_ne apart
  · rfl

theorem foldl_wakeIf_pick {pick : TaskSlot → Bool} (done : ∀ t, pick (TaskSlot.woken t) = false) (slots : List Tid) {tid : Tid}
    {t : TaskSlot} (member : tid ∈ slots ∨ (k.tasks.lookup tid).any pick = false)
    (found : (slots.foldl (wakeIf · pick) k).tasks.lookup tid = some t) : pick t = false := by
  induction slots generalizing k with
  | nil =>
    obtain wrong | kept := member
    · cases wrong
    · have lookup : k.tasks.lookup tid = some t := found
      rw [lookup] at kept
      exact kept
  | cons slot slots ih =>
    refine ih ?_ found
    by_cases same : tid = slot
    · refine Or.inr ?_
      subst same
      change ((k.wakeIf pick tid).tasks.lookup tid).any pick = false
      cases picked : (k.tasks.lookup tid).any pick with
      | false =>
        rw [wakeIf, if_neg (by rw [picked]; exact Bool.false_ne_true)]
        exact picked
      | true =>
        rw [wakeIf, if_pos picked, wakeLocked]
        cases lookup : k.tasks.lookup tid with
        | none => simp [lookup]
        | some u =>
          simp only [setTask, AList.lookup_insert]
          exact done u
    · obtain member | kept := member
      · exact Or.inl ((List.mem_cons.mp member).resolve_left same)
      · exact Or.inr (by rw [lookup_wakeIf_ne pick same]; exact kept)

theorem wakesFor_woken {key : WaitKey} (isKey : key ≠ .none) (any : Bool) (t : TaskSlot) :
    wakesFor any key (TaskSlot.woken t) = false := by
  have apart : (WaitKey.none == key) = false := beq_false_of_ne isKey.symm
  unfold TaskSlot.woken
  split
  · split
    · simp only [wakesFor, apart, Bool.false_or]
      simp
    · rfl
  · rename_i runs
    simp [wakesFor, runs]

theorem wakeKeyLocked_dozing (counted : Counted k) {key : WaitKey} (isKey : key ≠ .none) {tid : Tid} {t : TaskSlot}
    (found : (k.wakeKeyLocked key).1.tasks.lookup tid = some t) (dozing : t.dozing) :
    t.waitKey ≠ key ∧ t.waitKey ≠ .any := by
  have calm : Calm Dozes k (k.wakeKeyLocked key).1 := wakeKeyLocked_calm key
  obtain ⟨before, foundBefore, dozes⟩ := calm.back tid t found
  have listed : tid ∈ k.tasks.keys := AList.mem_keys.mp (AList.lookup_isSome.mp (by rw [foundBefore]; rfl))
  have missed : Kernel.wakesFor (k.anyWaiters != 0) key t = false :=
    foldl_wakeIf_pick (wakesFor_woken isKey _) _ (Or.inl listed) found
  have same : Kernel.wakesFor (k.anyWaiters != 0) key t = Kernel.wakesFor true key t := by
    obtain ⟨dozed, waitKey, _⟩ := dozes.dozing dozing
    have stands := counted.wakesFor foundBefore key
    unfold Kernel.wakesFor at stands ⊢
    rw [waitKey, dozing.1]
    rw [dozed.1] at stands
    exact stands
  rw [same] at missed
  unfold Kernel.wakesFor at missed
  rw [dozing.1] at missed
  simpa using missed

theorem wakeKeyLocked_woke (counted : Counted k) (key : WaitKey) :
    (k.wakeKeyLocked key).2 = k.tasks.keys.any fun slot => (k.tasks.lookup slot).any (wakesFor true key) := by
  refine List.any_congr (Eq.refl _) fun slot => ?_
  cases found : k.tasks.lookup slot with
  | none => rfl
  | some t => exact counted.wakesFor found key

end Kernel

namespace Sleep

def Watch.hasSignal (sig : Nat) : Watch → Bool
  | .signals set => set &&& bit sig != 0
  | .timer _ => false

def Wait.timed : Wait → Bool
  | .poll _ deadline => deadline != 0
  | _ => false

def Place.tested : Place → Option (Nat × List Watch)
  | .scan wait seq false seen _ => if wait.timed then none else some (seq, seen)
  | .check wait seq => if wait.timed then none else some (seq, wait.watches)
  | .deadline wait seq => if wait.timed then none else some (seq, wait.watches)
  | .block wait seq 0 => some (seq, wait.watches)
  | _ => none

def Place.readSeq : Place → Option Nat
  | .scan _ seq _ _ _ | .check _ seq | .deadline _ seq | .block _ seq _ => some seq
  | _ => none

namespace World

variable (w : World)

def looked (pick : Watch → Bool) (tid : Tid) : Bool :=
  (w.place tid).tested.any fun (seq, watches) => seq == w.kernel.waitSeq && watches.any pick

def sleeps (pick : Watch → Bool) (tid : Tid) : Bool :=
  (w.task tid).any fun t => t.state == .blocked && !t.wakePending && t.wakeAt == 0 &&
    match w.place tid with
    | .asleep wait => wait.watches.any pick
    | _ => false

def waited (key : WaitKey) : Bool := w.kernel.tasks.keys.any fun slot => (w.task slot).any (Kernel.wakesFor true key)

def notBefore (now : Nat) (s : TimerState) : Bool := s.nextNs == 0 || decide (now ≤ s.nextNs)

/-- The steps that lose no wakeup: a signal that its target blocks, and a timer's expiry in a tick, come
while nobody has looked for them and not blocked yet, unless somebody is woken; a poll's own look at a
due timer comes while nobody else waits for it; a tick that finds the timers' table or a timer's state
held comes while none of them is overdue; and `deadline_soon` comes before a running tick is past the timer. -/
def meets : Event → Bool
  | .send id sig =>
    (w.task id).all fun t => !Kernel.isBlocked t sig || w.waited .signal || !w.looked (Watch.hasSignal sig) id
  | .scan tid =>
    match w.place tid with
    | .scan (.poll _ _) _ _ _ (.timer id :: _) =>
      !(w.timers.lookup id).any (TimerState.due · w.now) ||
        w.kernel.tasks.keys.all fun other =>
          other == tid || !(w.looked (· == .timer id) other || w.sleeps (· == .timer id) other)
    | _ => true
  | .publish tid =>
    match w.place tid with
    | .arm id _ => w.tick.all fun tick => tick.rest.all fun rest => rest.contains id
    | _ => true
  | .tickTable busy => w.tick.all fun tick => !busy || w.timers.entries.all fun entry => notBefore tick.now entry.2
  | .tickTimer busy =>
    w.tick.all fun tick =>
      match tick.rest with
      | some (id :: _) =>
        (w.timers.lookup id).all fun s =>
          if busy then notBefore tick.now s
          else !s.due tick.now || tick.woke || w.waited (.timer id) ||
            w.kernel.tasks.keys.all fun other => !w.looked (· == .timer id) other
      | _ => true
  | _ => true

end World
end Sleep
end Myos.Task
