import Myos.Task.SleepDeadline

namespace Myos.Task.Sleep
open Lib Myos.Evfd

theorem readSeq_of_tested {place : Place} {seq : Nat} {watches : List Watch} (tested : place.tested = some (seq, watches)) :
    place.readSeq = some seq := by
  have untimed {wait : Wait} {at_ : Nat} {seen : List Watch}
      (tested : (if wait.timed then none else some (at_, seen)) = some (seq, watches)) : some at_ = some seq := by
    obtain ⟨_, same⟩ := Option.ite_none_left_eq_some.mp tested
    rw [(Prod.mk.inj (Option.some.inj same)).1]
  unfold Place.tested at tested
  split at tested
  · exact untimed tested
  · exact untimed tested
  · exact untimed tested
  · cases tested
    rfl
  · cases tested

theorem key_of_timer {wait : Wait} {id : Nat} (member : .timer id ∈ wait.watches) :
    wait.key = .timer id ∨ wait.key = .any := by
  cases wait with
  | signals set more => simp [Wait.watches] at member
  | timer other =>
    rw [Wait.watches, List.mem_singleton] at member
    cases member
    exact Or.inl rfl
  | poll watches deadline => exact Or.inr rfl

theorem key_of_signals {wait : Wait} {set : Sigset} (member : .signals set ∈ wait.watches) :
    wait.key = .signal ∨ wait.key = .any := by
  cases wait with
  | signals set more => exact Or.inl rfl
  | timer other => simp [Wait.watches] at member
  | poll watches deadline => exact Or.inr rfl

namespace World

variable {w w' : World} {tid : Tid} {t t' : TaskSlot}

def bumping (w : World) : Bool := w.tick.any Tick.woke

/-- What a wait relies on: a task sleeps for its wait's key, with no deadline only while nothing it
watches is there; and what it has looked at since it read `WAIT_SEQ` was not there, and still is not
unless a wake came or a tick is about to move `WAIT_SEQ`. -/
structure Fit (w : World) (tid : Tid) (t : TaskSlot) : Prop where
  dozing : t.dozing → ∃ wait, w.place tid = .asleep wait ∧ t.waitKey = wait.key ∧
    (t.wakeAt = 0 → ∀ watch ∈ wait.watches, w.holds t.sigPending watch = false)
  past : ∀ seq, (w.place tid).readSeq = some seq → seq ≤ w.kernel.waitSeq
  tested : ∀ watches, (w.place tid).tested = some (w.kernel.waitSeq, watches) → w.bumping = false →
    ∀ watch ∈ watches, w.holds t.sigPending watch = false
  scanned : ∀ wait seq found seen rest, w.place tid = .scan wait seq found seen rest →
    ∀ watch ∈ wait.watches, watch ∈ seen ∨ watch ∈ rest

structure Inv (w : World) : Prop where
  counted : w.kernel.Counted
  fit : ∀ tid t, w.task tid = some t → w.Fit tid t

theorem Fit.stay (fit : w.Fit tid t) (place : w'.place tid = w.place tid)
    (sleeps : t'.dozing → t.dozing ∧ t'.waitKey = t.waitKey ∧ t'.wakeAt = t.wakeAt)
    (seq : w.kernel.waitSeq ≤ w'.kernel.waitSeq)
    (bump : w'.kernel.waitSeq = w.kernel.waitSeq → w'.bumping = false → w.bumping = false)
    (quiet : ∀ watch, w.holds t.sigPending watch = false →
      (t'.dozing → t'.wakeAt = 0 → ∀ wait, w.place tid = .asleep wait → watch ∈ wait.watches →
        w'.holds t'.sigPending watch = false) ∧
      (w'.kernel.waitSeq = w.kernel.waitSeq → w'.bumping = false →
        ∀ watches, (w.place tid).tested = some (w.kernel.waitSeq, watches) → watch ∈ watches →
          w'.holds t'.sigPending watch = false)) : w'.Fit tid t' := by
  refine ⟨fun dozing => ?_, ?_, ?_, ?_⟩
  · obtain ⟨dozed, key, wakeAt⟩ := sleeps dozing
    obtain ⟨wait, here, forKey, clear⟩ := fit.dozing dozed
    refine ⟨wait, place.trans here, key.trans forKey, fun forever watch member => ?_⟩
    exact (quiet watch (clear (wakeAt ▸ forever) watch member)).1 dozing forever wait here member
  · intro at_ read
    rw [place] at read
    exact Nat.le_trans (fit.past at_ read) seq
  · intro watches tested calm watch member
    rw [place] at tested
    have same : w'.kernel.waitSeq = w.kernel.waitSeq := Nat.le_antisymm (fit.past _ (readSeq_of_tested tested)) seq
    rw [same] at tested
    exact (quiet watch (fit.tested watches tested (bump same calm) watch member)).2 same calm watches tested member
  · rw [place]
    exact fit.scanned

variable {found : Bool} {k : Kernel} {seen watches : List Watch} {deadline id now seq : Nat} {place : Place}
    {pending set : Sigset} {timers : Table Nat TimerState} {wait : Wait} {watch : Watch}

theorem holds_signals {pending' : Sigset} (fewer : ∀ i, pending'.getLsbD i = true → pending.getLsbD i = true)
    (clear : w.holds pending (.signals set) = false) : w'.holds pending' (.signals set) = false := by
  simp only [holds, bne_eq_false_iff_eq] at clear ⊢
  apply BitVec.eq_of_getLsbD_eq
  intro i inside
  have was := congrArg (·.getLsbD i) clear
  simp only [BitVec.getLsbD_and] at was ⊢
  cases isSet : pending'.getLsbD i with
  | false => simp
  | true =>
    rw [fewer i isSet] at was
    exact was

theorem holds_timer_iff : w.holds pending (.timer id) = false ↔ w.expirations id = 0 := by
  simp [holds]

theorem holds_mono {pending' : Sigset} (fewer : ∀ i, pending'.getLsbD i = true → pending.getLsbD i = true)
    (unexpired : ∀ id, w.expirations id = 0 → w'.expirations id = 0)
    (clear : w.holds pending watch = false) : w'.holds pending' watch = false := by
  cases watch with
  | signals set => exact holds_signals fewer clear
  | timer id => exact holds_timer_iff.mpr (unexpired id (holds_timer_iff.mp clear))

theorem Fit.rest (fit : w.Fit tid t) (place : w'.place tid = w.place tid) (dozes : Dozes t t')
    (seq : w.kernel.waitSeq ≤ w'.kernel.waitSeq)
    (bump : w'.kernel.waitSeq = w.kernel.waitSeq → w'.bumping = false → w.bumping = false)
    (unexpired : ∀ id, w.expirations id = 0 → w'.expirations id = 0) : w'.Fit tid t' := by
  refine fit.stay place dozes.dozing seq bump fun watch clear => ?_
  have still := holds_mono dozes.pending unexpired clear
  exact ⟨fun _ _ _ _ _ => still, fun _ _ _ _ _ => still⟩

theorem Inv.calm (inv : w.Inv) (calm : Kernel.Calm Dozes w.kernel k) : (w.setKernel k).Inv := by
  refine ⟨calm.counted inv.counted, fun tid t' found => ?_⟩
  obtain ⟨t, found, dozes⟩ := calm.back tid t' found
  exact (inv.fit tid t found).rest rfl dozes calm.seq (fun _ quiet => quiet) fun _ zero => zero

theorem Fit.fresh (awake : ¬t.dozing) (unread : (w.place tid).readSeq = none) : w.Fit tid t where
  dozing dozing := absurd dozing awake
  past _ read := by
    rw [unread] at read
    cases read
  tested _ tested := by
    rw [readSeq_of_tested tested] at unread
    cases unread
  scanned wait seq found seen rest here := by
    rw [here] at unread
    cases unread

theorem Inv.move (inv : w.Inv) (calm : Kernel.Calm Dozes w.kernel k)
    (unexpired : ∀ id, w.expirations id = 0 → ({ w with timers } : World).expirations id = 0)
    (own : ∀ t', k.tasks.lookup tid = some t' →
      (({ w with kernel := k, timers } : World).setPlace tid place).Fit tid t') :
    (({ w with kernel := k, timers } : World).setPlace tid place).Inv := by
  refine ⟨calm.counted inv.counted, fun slot t' found => ?_⟩
  by_cases same : slot = tid
  · subst same
    exact own t' found
  · obtain ⟨t, found, dozes⟩ := calm.back slot t' found
    exact (inv.fit slot t found).rest (Function.update_of_ne same ..) dozes calm.seq (fun _ quiet => quiet) unexpired

theorem running_awake (runs : w.running tid = some t) : ¬t.dozing := by
  intro dozing
  have state := (Option.filter_eq_some_iff.mp runs).2
  rw [dozing.1] at state
  cases state

theorem Inv.own (inv : w.Inv) (runs : w.running tid = some t) : w.Fit tid t := inv.fit tid t (running_task runs)

theorem Inv.setPlace (inv : w.Inv) (runs : w.running tid = some t)
    (own : (w.setPlace tid place).Fit tid t) : (w.setPlace tid place).Inv := by
  refine inv.move (k := w.kernel) (Kernel.Calm.refl _) (fun _ zero => zero) fun t' found => ?_
  cases (running_task runs).symm.trans found
  exact own

theorem place_setPlace (tid : Tid) (place : Place) : (w.setPlace tid place).place tid = place := Function.update_self ..

theorem Inv.toFresh (inv : w.Inv) (runs : w.running tid = some t) (unread : place.readSeq = none) :
    (w.setPlace tid place).Inv :=
  inv.setPlace runs (.fresh (running_awake runs) (by rw [place_setPlace]; exact unread))

theorem Inv.toNext (inv : w.Inv) (runs : w.running tid = some t)
    (read : ∀ seq, place.readSeq = some seq → (w.place tid).readSeq = some seq)
    (tested : ∀ seq watches, place.tested = some (seq, watches) → ∃ more, (w.place tid).tested = some (seq, more) ∧
    watches ⊆ more)
    (elsewhere : ∀ wait seq found seen rest, place ≠ .scan wait seq found seen rest) : (w.setPlace tid place).Inv := by
  refine inv.setPlace runs ⟨fun dozing => absurd dozing (running_awake runs), ?_, ?_, ?_⟩
  · rw [place_setPlace]
    exact fun seq has => (inv.own runs).past seq (read seq has)
  · rw [place_setPlace]
    intro watches has calm watch member
    obtain ⟨more, had, fewer⟩ := tested _ watches has
    exact (inv.own runs).tested more had calm watch (fewer member)
  · rw [place_setPlace]
    exact fun wait seq found seen rest here => absurd here (elsewhere wait seq found seen rest)

theorem Inv.look (inv : w.Inv) (runs : w.running tid = some t) (wait : Wait) :
    (w.setPlace tid (.scan wait w.kernel.waitSeq false [] wait.watches)).Inv := by
  refine inv.setPlace runs ⟨fun dozing => absurd dozing (running_awake runs), ?_, ?_, ?_⟩
  · rw [place_setPlace]
    rintro _ ⟨⟩
    exact le_rfl
  · rw [place_setPlace]
    intro watches tested _ watch member
    obtain ⟨_, same⟩ := Option.ite_none_left_eq_some.mp tested
    cases same
    cases member
  · rw [place_setPlace]
    rintro _ _ _ _ _ ⟨⟩ watch member
    exact Or.inr member

theorem Inv.check (inv : w.Inv) (runs : w.running tid = some t) (checked : w.check tid t (w.place tid) = some w') :
    w'.Inv := by
  unfold World.check at checked
  split at checked
  · rename_i wait seq here
    split at checked
    · cases checked
    cases checked
    split
    · exact inv.toFresh runs rfl
    refine inv.toNext runs (fun _ read => ?_) (fun seq watches tested => ?_) (by simp)
    · rw [here]
      exact read
    · rw [here]
      exact ⟨watches, tested, List.Subset.refl _⟩
  · cases checked

theorem block_tested {at_ : Nat} (timed : wait.timed = true → at_ ≠ 0) {read : Nat}
    (tested : (Place.block wait seq at_).tested = some (read, watches)) :
    at_ = 0 ∧ (Place.deadline wait seq).tested = some (read, watches) := by
  cases at_ with
  | zero =>
    have untimed : ¬wait.timed = true := fun isTimed => timed isTimed rfl
    cases tested
    exact ⟨rfl, if_neg untimed⟩
  | succ at_ => cases tested

theorem Inv.toBlock (inv : w.Inv) (runs : w.running tid = some t) {at_ : Nat}
    (here : w.place tid = .deadline wait seq) (timed : wait.timed = true → at_ ≠ 0) :
    (w.setPlace tid (.block wait seq at_)).Inv := by
  refine inv.toNext runs (fun _ read => ?_) (fun seq watches tested => ?_) (by simp)
  · rw [here]
    exact read
  · rw [here]
    exact ⟨watches, (block_tested timed tested).2, List.Subset.refl _⟩

theorem Inv.readDeadline (inv : w.Inv) (runs : w.running tid = some t)
    (read : w.readDeadline tid (w.place tid) = some w') : w'.Inv := by
  unfold World.readDeadline at read
  split at read
  · rename_i here
    cases read
    exact inv.toBlock runs here (by simp [Wait.timed])
  · rename_i here
    cases read
    exact inv.toBlock runs here (by simp [Wait.timed])
  · rename_i wait seq notTimer notPoll here
    cases read
    refine inv.toBlock runs here ?_
    cases wait with
    | poll watches deadline => exact absurd rfl (notPoll watches deadline)
    | signals set more => simp [Wait.timed]
    | timer id => simp [Wait.timed]
  · cases read

theorem blockUntil_lookup (key : WaitKey) (found : k.tasks.lookup tid = some t)
    (blocks : k.blocks seq deadline now = true) :
    (k.blockUntil tid key seq deadline now).tasks = k.tasks.insert tid (Kernel.TaskSlot.asleep t key deadline) := by
  rw [Kernel.blockUntil, if_pos blocks, Kernel.modifyTask, found]
  rfl

theorem blockUntil_counted (counted : k.Counted) {key : WaitKey}
    (found : k.tasks.lookup tid = some t) (running : t.state = .running) (blocks : k.blocks seq deadline now = true) :
    (k.blockUntil tid key seq deadline now).Counted := by
  have tasks := blockUntil_lookup key found blocks
  refine ⟨?_, fun slot u foundU pending => ?_⟩
  · have counts := Kernel.count_setTask found (Kernel.TaskSlot.asleep t key deadline)
    have before : Kernel.isAnyWaiter t = false := by
      rw [Kernel.isAnyWaiter, running]
      rfl
    have after : Kernel.isAnyWaiter (Kernel.TaskSlot.asleep t key deadline) = (key == .any) := rfl
    have total := counted.any
    rw [tasks]
    rw [before, after] at counts
    rw [Kernel.blockUntil, if_pos blocks]
    change (if key = .any then k.anyWaiters + 1 else k.anyWaiters) =
      (k.setTask tid (Kernel.TaskSlot.asleep t key deadline)).tasks.count _
    by_cases any : key = .any
    · subst any
      simp only [beq_self_eq_true, Bool.toNat_true, Bool.toNat_false] at counts
      rw [if_pos rfl]
      omega
    · rw [beq_false_of_ne any] at counts
      rw [if_neg any]
      omega
  · rw [tasks] at foundU
    obtain ⟨rfl, rfl⟩ | ⟨_, foundU⟩ := Table.lookup_insert_some foundU
    · cases pending
    · exact counted.woken slot u foundU pending

theorem blockUntil_waitSeq {key : WaitKey} :
    (k.blockUntil tid key seq deadline now).waitSeq = k.waitSeq := by
  unfold Kernel.blockUntil Kernel.modifyTask
  split
  · split <;> rfl
  · rfl

theorem Inv.block (inv : w.Inv) (runs : w.running tid = some t) (blocked : w.block tid (w.place tid) = some w') :
    w'.Inv := by
  unfold World.block at blocked
  split at blocked
  · rename_i wait seq deadline here
    obtain ⟨idle, blocked⟩ := Option.ite_none_left_eq_some.mp blocked
    have noTick : w.tick = none := by simpa using idle
    have calm : w.bumping = false := by
      rw [bumping, noTick]
      rfl
    split at blocked
    · rename_i goes
      cases blocked
      have found := running_task runs
      have running : t.state = .running := by
        have state := (Option.filter_eq_some_iff.mp runs).2
        simpa using And.left (by simpa using state)
      have tasks := blockUntil_lookup wait.key found goes
      refine ⟨blockUntil_counted inv.counted found running goes, fun slot u foundU => ?_⟩
      have lookup : (w.kernel.tasks.insert tid (Kernel.TaskSlot.asleep t wait.key deadline)).lookup slot = some u := by
        rw [← tasks]
        exact foundU
      obtain ⟨rfl, rfl⟩ | ⟨same, lookup⟩ := Table.lookup_insert_some lookup
      · refine ⟨fun _ => ⟨wait, place_setPlace .., rfl, fun forever watch member => ?_⟩, ?_, ?_, ?_⟩
        · have zero : deadline = 0 := forever
          have read : seq = w.kernel.waitSeq := by
            simp only [Kernel.blocks, Bool.and_eq_true, beq_iff_eq] at goes
            exact goes.1.symm
          subst zero read
          exact (inv.own runs).tested wait.watches (by rw [here]; rfl) calm watch member
        · rw [place_setPlace]
          rintro _ ⟨⟩
        · rw [place_setPlace]
          rintro _ ⟨⟩
        · rw [place_setPlace]
          rintro _ _ _ _ _ ⟨⟩
      · exact (inv.fit slot u lookup).rest (Function.update_of_ne same ..) (Dozes.refl u)
          (Nat.le_of_eq blockUntil_waitSeq.symm) (fun _ quiet => quiet) fun _ zero => zero
    · cases blocked
      exact inv.toFresh runs rfl
  · cases blocked

theorem takeSome_zero {records : Nat} {k' : Kernel}
    (taken : Kernel.takeSome tid set (records + 1) k = (k', 0)) :
    k' = k ∧ ∀ t, k.tasks.lookup tid = some t → t.sigPending &&& set &&& ~~~1 = 0 := by
  rw [Kernel.takeSome, Kernel.signalTakeFrom] at taken
  cases found : k.tasks.lookup tid with
  | none =>
    rw [found] at taken
    cases taken
    exact ⟨rfl, fun _ wrong => by cases wrong⟩
  | some t =>
    rw [found] at taken
    simp only at taken
    by_cases none : Kernel.takeable t set = 0
    · rw [if_pos none] at taken
      cases taken
      refine ⟨rfl, fun u same => ?_⟩
      cases same
      exact none
    · rw [if_neg none] at taken
      cases taken

theorem check_tested {read : Nat}
    (tested : (Place.check wait seq).tested = some (read, watches)) : watches = wait.watches := by
  obtain ⟨_, same⟩ := Option.ite_none_left_eq_some.mp tested
  exact (Prod.mk.inj (Option.some.inj same)).2.symm

theorem calm_awake (runs : w.running tid = some t) (calm : Kernel.Calm Dozes w.kernel k) {t' : TaskSlot}
    (found : k.tasks.lookup tid = some t') : ¬t'.dozing := by
  obtain ⟨before, foundBefore, dozes⟩ := calm.back tid t' found
  cases (running_task runs).symm.trans foundBefore
  exact fun dozing => running_awake runs (dozes.dozing dozing).1

theorem Inv.toCheck (inv : w.Inv) (runs : w.running tid = some t) (calm : Kernel.Calm Dozes w.kernel k)
    (unexpired : ∀ id, w.expirations id = 0 → ({ w with timers } : World).expirations id = 0)
    (read : (w.place tid).readSeq = some seq)
    (clear : seq = k.waitSeq → w.bumping = false → wait.timed = false → ∀ t', k.tasks.lookup tid = some t' →
      ∀ watch ∈ wait.watches, ({ w with timers } : World).holds t'.sigPending watch = false) :
    (({ w with kernel := k, timers } : World).setPlace tid (.check wait seq)).Inv := by
  refine inv.move calm unexpired fun t' found => ⟨fun dozing => absurd dozing (calm_awake runs calm found), ?_, ?_, ?_⟩
  · rw [place_setPlace]
    rintro _ ⟨⟩
    exact Nat.le_trans ((inv.own runs).past seq read) calm.seq
  · rw [place_setPlace]
    intro watches tested quiet watch member
    obtain ⟨untimed, same⟩ := Option.ite_none_left_eq_some.mp tested
    rw [check_tested tested] at member
    exact clear (Prod.mk.inj (Option.some.inj same)).1 quiet (by simpa using untimed) t' found watch member
  · rw [place_setPlace]
    rintro _ _ _ _ _ ⟨⟩

theorem Inv.toIdle (inv : w.Inv) (runs : w.running tid = some t) (calm : Kernel.Calm Dozes w.kernel k)
    (unexpired : ∀ id, w.expirations id = 0 → ({ w with timers } : World).expirations id = 0) :
    (({ w with kernel := k, timers } : World).setPlace tid .idle).Inv :=
  inv.move calm unexpired fun t' found => .fresh (calm_awake runs calm found) (by rw [place_setPlace]; rfl)

theorem Inv.scanSignals (inv : w.Inv) (runs : w.running tid = some t) {more : Nat}
    {rest : List Watch} (here : w.place tid = .scan (.signals set more) seq found seen rest)
    (scanned : w.scan tid t (.scan (.signals set more) seq found seen rest) = some w') : w'.Inv := by
  obtain ⟨_, scanned⟩ := Option.ite_none_left_eq_some.mp scanned
  have calm := takeSome_dozes (k := w.kernel) tid set (more + 1)
  split at scanned
  · rename_i k taken
    rw [taken] at calm
    cases scanned
    obtain ⟨rfl, missing⟩ := takeSome_zero taken
    refine inv.toCheck runs calm (fun _ zero => zero) (by rw [here]; rfl) fun _ _ _ t' foundT watch member => ?_
    rw [Wait.watches, List.mem_singleton] at member
    subst member
    simp only [holds, bne_eq_false_iff_eq]
    exact missing t' foundT
  · rename_i k _ taken
    rw [taken] at calm
    cases scanned
    exact inv.toIdle runs calm fun _ zero => zero

theorem expirations_insert (id : Nat) (s : TimerState) :
    ({ w with timers := w.timers.insert id s } : World).expirations id = s.expirations := by
  simp only [expirations, AList.lookup_insert]
  rfl

theorem expirations_insert_ne {other : Nat} (apart : other ≠ id) (s : TimerState) :
    ({ w with timers := w.timers.insert id s } : World).expirations other = w.expirations other := by
  simp only [expirations, AList.lookup_insert_ne apart]

theorem unexpired_insert {s : TimerState} (zero : w.expirations id = 0 → s.expirations = 0) (other : Nat)
    (before : w.expirations other = 0) : ({ w with timers := w.timers.insert id s } : World).expirations other = 0 := by
  by_cases same : other = id
  · subst same
    rw [expirations_insert]
    exact zero before
  · rw [expirations_insert_ne same]
    exact before

theorem Inv.scanTimer (inv : w.Inv) (runs : w.running tid = some t)
    {rest : List Watch} (here : w.place tid = .scan (.timer id) seq found seen rest)
    (scanned : w.scan tid t (.scan (.timer id) seq found seen rest) = some w') : w'.Inv := by
  have watched {watch : Watch} (member : watch ∈ (Wait.timer id).watches) : watch = .timer id := by
    rw [Wait.watches, List.mem_singleton] at member
    exact member
  simp only [World.scan] at scanned
  split at scanned
  · rename_i missing
    cases scanned
    refine inv.toCheck runs (Kernel.Calm.refl _) (fun _ zero => zero) (by rw [here]; rfl) fun _ _ _ t' _ watch member => ?_
    rw [watched member, holds_timer_iff]
    simp only [expirations, missing]
    rfl
  rename_i s foundS
  have emptied : (s.read w.now).1.expirations = 0 := rfl
  split at scanned
  · rename_i after read
    rw [read] at emptied
    cases scanned
    refine inv.toCheck runs (Kernel.Calm.refl _) (unexpired_insert fun _ => emptied) (by rw [here]; rfl)
      fun _ _ _ t' _ watch member => ?_
    rw [watched member, holds_timer_iff, expirations_insert]
    exact emptied
  · rename_i after _ read
    rw [read] at emptied
    cases scanned
    exact inv.toIdle runs (Kernel.Calm.refl _) (unexpired_insert fun _ => emptied)

theorem Fit.sees (fit : w.Fit tid t) (awake : ¬t.dozing)
    {ready : Bool} {rest : List Watch}
    (here : w.place tid = .scan wait seq found seen (watch :: rest))
    (clear : ready = false → ({ w with timers } : World).holds t.sigPending watch = false)
    (still : ready = false → ∀ other, w.holds t.sigPending other = false →
      ({ w with timers } : World).holds t.sigPending other = false) :
    (({ w with timers } : World).setPlace tid (.scan wait seq (found || ready) (watch :: seen) rest)).Fit tid t := by
  refine ⟨fun dozing => absurd dozing awake, ?_, ?_, ?_⟩
  · rw [place_setPlace]
    rintro _ ⟨⟩
    exact fit.past seq (by rw [here]; rfl)
  · rw [place_setPlace]
    intro watches tested quiet other member
    cases found with
    | true => cases tested
    | false =>
      cases ready with
      | true => cases tested
      | false =>
        obtain ⟨untimed, same⟩ := Option.ite_none_left_eq_some.mp tested
        obtain ⟨read, rfl⟩ := Prod.mk.inj (Option.some.inj same)
        have before : (w.place tid).tested = some (w.kernel.waitSeq, seen) := by
          rw [here]
          exact (if_neg untimed).trans (congrArg (fun read => some (read, seen)) read)
        obtain rfl | member := List.mem_cons.mp member
        · exact clear rfl
        · exact still rfl other (fit.tested seen before quiet other member)
  · rw [place_setPlace]
    rintro _ _ _ _ _ ⟨⟩ other member
    obtain seen | left := fit.scanned wait seq found seen _ here other member
    · exact Or.inl (.tail _ seen)
    · obtain rfl | left := List.mem_cons.mp left
      · exact Or.inl (.head _)
      · exact Or.inr left

theorem looked_of_tested (tested : (w.place tid).tested = some (w.kernel.waitSeq, watches))
    {pick : Watch → Bool} (member : watch ∈ watches) (picked : pick watch = true) :
    w.looked pick tid = true := by
  rw [looked, tested]
  simp only [Option.any_some, beq_self_eq_true, Bool.true_and]
  exact List.any_eq_true.mpr ⟨watch, member, picked⟩

theorem sleeps_of_dozing (found : w.task tid = some t) (dozing : t.dozing) (forever : t.wakeAt = 0)
    (here : w.place tid = .asleep wait) {pick : Watch → Bool} (member : watch ∈ wait.watches)
    (picked : pick watch = true) : w.sleeps pick tid = true := by
  rw [sleeps, found, here]
  simp only [Option.any_some, dozing.1, dozing.2, forever]
  exact List.any_eq_true.mpr ⟨watch, member, picked⟩

theorem holds_insert (s : TimerState) (other : watch ≠ .timer id)
    (clear : w.holds pending watch = false) :
    ({ w with timers := w.timers.insert id s } : World).holds pending watch = false := by
  cases watch with
  | signals set => exact clear
  | timer n =>
    have apart : n ≠ id := fun same => other (congrArg Watch.timer same)
    rw [holds_timer_iff] at clear ⊢
    rw [expirations_insert_ne apart]
    exact clear

theorem Inv.scanDue (inv : w.Inv) {s : TimerState}
    (alone : ∀ other u, w.task other = some u → other ≠ tid →
      w.looked (· == .timer id) other = false ∧ w.sleeps (· == .timer id) other = false)
    (own : ∀ t, w.task tid = some t →
      (({ w with timers := w.timers.insert id s } : World).setPlace tid place).Fit tid t) :
    (({ w with timers := w.timers.insert id s } : World).setPlace tid place).Inv := by
  refine ⟨inv.counted, fun other u found => ?_⟩
  by_cases same : other = tid
  · subst same
    exact own u found
  obtain ⟨notLooked, notSleeping⟩ := alone other u found same
  refine (inv.fit other u found).stay (Function.update_of_ne same ..) (fun dozing => ⟨dozing, rfl, rfl⟩) le_rfl
    (fun _ quiet => quiet) fun watch clear => ⟨?_, ?_⟩
  · intro dozing forever wait here member
    refine holds_insert s (fun isTimer => ?_) clear
    have sleeping : w.sleeps (· == .timer id) other = true :=
      sleeps_of_dozing (w := w) found dozing forever here member (beq_iff_eq.mpr isTimer)
    rw [notSleeping] at sleeping
    cases sleeping
  · intro _ _ watches tested member
    refine holds_insert s (fun isTimer => ?_) clear
    have looking : w.looked (· == .timer id) other = true :=
      looked_of_tested tested member (beq_iff_eq.mpr isTimer)
    rw [notLooked] at looking
    cases looking

theorem Inv.scanPollTimer (inv : w.Inv) (runs : w.running tid = some t)
    {rest : List Watch}
    (here : w.place tid = .scan (.poll watches deadline) seq found seen (.timer id :: rest))
    (met : w.meets (.scan tid) = true)
    (scanned : w.scan tid t (.scan (.poll watches deadline) seq found seen (.timer id :: rest)) = some w') : w'.Inv := by
  cases scanned
  cases lookup : w.timers.lookup id with
  | none =>
    exact inv.setPlace runs ((inv.own runs).sees (running_awake runs) here (fun clear => clear) fun _ _ clear => clear)
  | some s =>
    -- What this task has seen stays as it was, unless the timer is the one it finds ready.
    have own (t' : TaskSlot) (foundT : w.task tid = some t') :
        (({ w with timers := w.timers.insert id (s.fire w.now) } : World).setPlace tid
          (.scan (.poll watches deadline) seq
            (found || ({ w with timers := w.timers.insert id (s.fire w.now) } : World).holds t.sigPending (.timer id))
            (.timer id :: seen) rest)).Fit tid t' := by
      cases (running_task runs).symm.trans foundT
      refine (inv.own runs).sees (running_awake runs) here (fun clear => clear) fun unready other clear => ?_
      by_cases same : other = .timer id
      · rw [same]
        exact unready
      · exact holds_insert _ same clear
    cases due : s.due w.now with
    | true =>
      refine inv.scanDue (fun other u foundU apart => ?_) own
      have listed : other ∈ w.kernel.tasks.keys :=
        AList.mem_keys.mp (AList.lookup_isSome.mp (Option.isSome_of_eq_some foundU))
      simp only [meets, here, lookup, Option.any_some, due, Bool.not_true, Bool.false_or, List.all_eq_true] at met
      simpa [apart] using met other listed
    | false =>
      refine inv.move (Kernel.Calm.refl _) (unexpired_insert fun zero => ?_) own
      rw [TimerState.fire_expirations_of_not_due due]
      simpa [expirations, lookup] using zero

theorem Inv.scanEnd (inv : w.Inv) (runs : w.running tid = some t)
    (here : w.place tid = .scan wait seq found seen []) :
    (w.setPlace tid (if found then .idle else .check wait seq)).Inv := by
  cases found with
  | true => exact inv.toFresh runs rfl
  | false =>
    refine inv.toNext runs (fun _ read => ?_) (fun read watches tested => ?_) (by simp)
    · rw [here]
      exact read
    obtain ⟨untimed, same⟩ := Option.ite_none_left_eq_some.mp tested
    obtain ⟨rfl, rfl⟩ := Prod.mk.inj (Option.some.inj same)
    refine ⟨seen, ?_, fun watch member => ?_⟩
    · rw [here]
      exact if_neg untimed
    · exact ((inv.own runs).scanned wait seq false seen [] here watch member).resolve_right List.not_mem_nil

theorem Inv.scan (inv : w.Inv) (runs : w.running tid = some t) (met : w.meets (.scan tid) = true)
    (scanned : w.scan tid t (w.place tid) = some w') : w'.Inv := by
  cases here : w.place tid with
  | scan wait seq found seen rest =>
    rw [here] at scanned
    cases wait with
    | signals set more => exact inv.scanSignals runs here scanned
    | timer id => exact inv.scanTimer runs here scanned
    | poll watches deadline =>
      cases rest with
      | nil =>
        cases scanned
        exact inv.scanEnd runs here
      | cons watch rest =>
        cases watch with
        | timer id => exact inv.scanPollTimer runs here met scanned
        | signals set =>
          exact unguarded scanned fun _ => inv.setPlace runs
            ((inv.own runs).sees (running_awake runs) here (fun clear => clear) fun _ _ clear => clear)
  | idle | look | check | deadline | block | asleep | arm =>
    rw [here] at scanned
    cases scanned

end World
end Myos.Task.Sleep
