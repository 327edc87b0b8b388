import Myos.Task.SigRun
import Myos.Task.SignalsSpec

namespace Myos.Task
open Lib

namespace Place

def working : Place → Bool
  | .alone _ => false
  | .done => false
  | .start (.threadExit _) => false
  | _ => true

def waitsForThreads : Place → Bool
  | .alone .exitGroup => false
  | .alone _ => true
  | .start (.threadExit _) => true
  | _ => false

def ends : Place → Bool
  | .ending _ _ => true
  | .alone .exitGroup => true
  | .done => true
  | _ => false

def seq : Place → Option Nat
  | .try_ _ seq => some seq
  | .check _ seq => some seq
  | .block _ seq => some seq
  | _ => none

def blocks : Place → Option Nat
  | .block _ seq => some seq
  | _ => none

def rank : Place → Nat
  | .fresh => 9
  | .user => 8
  | .start _ => 7
  | .asleep _ => 6
  | .block _ _ => 6
  | .look _ => 5
  | .try_ _ _ => 4
  | .check _ _ => 3
  | .image => 3
  | .exit => 2
  | .ending _ _ => 1
  | .alone _ => 0
  | .done => 0

end Place

structure Fit (waitSeq : Nat) (exited : Nat → Bool) (tid : Tid) (t : TaskSlot) (place : Place) (trace : Trace) : Prop where
  pending : trace.posted = true → t.killed = true ∨ trace.taken = true
  taken : trace.taken = true → place.ends = true
  returned : trace.returned = false
  seq : ∀ seq, place.seq = some seq → seq ≤ waitSeq
  late : t.killed = true → ∀ seq, place.blocks = some seq → seq < waitSeq
  awake : t.killed = true → t.awake
  dead : t.state = .dead ↔ place = .done
  group : place = .alone .exitGroup → exited trace.process = true
  sent : trace.sent = true → trace.posted = true ∧ t.tgid = tid ∧ (exited trace.process = false → place.working = true)

variable {waitSeq : Nat} {place : Place} {t : TaskSlot} {tid : Tid} {trace : Trace}

theorem Fit.calm {later : Nat} {exited ended : Nat → Bool} {t' : TaskSlot}
    (fit : Fit waitSeq exited tid t place trace) (keeps : Keeps t t') (seq : waitSeq ≤ later)
    (grows : ∀ p, exited p = true → ended p = true) : Fit later ended tid t' place trace where
  pending posted := keeps.killed ▸ fit.pending posted
  taken := fit.taken
  returned := fit.returned
  seq s same := Nat.le_trans (fit.seq s same) seq
  late killed s same := Nat.lt_of_lt_of_le (fit.late (keeps.killed ▸ killed) s same) seq
  awake killed := keeps.awake (fit.awake (keeps.killed ▸ killed))
  dead := keeps.dead.trans fit.dead
  group same := grows _ (fit.group same)
  sent isSent := by
    obtain ⟨posted, leader, works⟩ := fit.sent isSent
    refine ⟨posted, keeps.tgid.trans leader, fun running => works ?_⟩
    by_contra isOver
    rw [Bool.not_eq_false] at isOver
    rw [grows _ isOver] at running
    cases running

theorem Fit.move {exited : Nat → Bool} {next : Place}
    (fit : Fit waitSeq exited tid t place trace) (goes : place.ends = false) (stays : next ≠ .done)
    (alone : next ≠ .alone .exitGroup) (seq : ∀ s, next.seq = some s → s ≤ waitSeq)
    (late : t.killed = true → ∀ s, next.blocks = some s → s < waitSeq)
    (works : trace.sent = true → exited trace.process = false → next.working = true) :
    Fit waitSeq exited tid t next trace where
  pending := fit.pending
  taken isTaken := by
    rw [fit.taken isTaken] at goes
    cases goes
  returned := fit.returned
  seq := seq
  late := late
  awake := fit.awake
  dead := by
    refine ⟨fun dead => ?_, fun same => absurd same stays⟩
    rw [fit.dead.mp dead] at goes
    cases goes
  group same := absurd same alone
  sent isSent := ⟨(fit.sent isSent).1, (fit.sent isSent).2.1, works isSent⟩

theorem Fit.posted_of_goes {exited : Nat → Bool}
    (fit : Fit waitSeq exited tid t place trace) (goes : place.ends = false) (alive : t.killed = false) :
    trace.posted = false := by
  by_contra posted
  rw [Bool.not_eq_false] at posted
  rcases fit.pending posted with killed | taken
  · rw [alive] at killed
    cases killed
  · rw [fit.taken taken] at goes
    cases goes

theorem Fit.post {exited : Nat → Bool} {t' : TaskSlot}
    (fit : Fit waitSeq exited tid t place trace) (killed : t'.killed = true) (awake : t'.awake)
    (dead : t'.state = .dead ↔ t.state = .dead) (leader : t'.tgid = t.tgid) (sent : Bool)
    (works : sent = true → t.tgid = tid ∧ (exited trace.process = false → place.working = true)) :
    Fit (waitSeq + 1) exited tid t' place { trace with posted := true, sent := trace.sent || sent } where
  pending _ := .inl killed
  taken := fit.taken
  returned := fit.returned
  seq s same := Nat.le_succ_of_le (fit.seq s same)
  late _ s same := by
    have old := fit.seq s (by
      cases place <;> simp_all [Place.blocks, Place.seq])
    exact Nat.lt_succ_of_le old
  awake _ := awake
  dead := dead.trans fit.dead
  group := fit.group
  sent isSent := by
    refine ⟨rfl, ?_⟩
    rw [leader]
    rcases Bool.or_eq_true_iff.mp isSent with old | new
    · exact (fit.sent old).2
    · exact works new

namespace Threads

/-- What a run has to leave alone: no thread takes a pending `SIGKILL` out of its signals itself, none
enters user mode past one without looking, and no leader is sent one, or has one, while it only waits for
its other threads. -/
def meets (w : Threads) : SigEvent → Bool
  | .act tid (.enter (.threadExit _)) => !(w.killPending tid && w.pid tid == tid)
  | .act tid .pageIn | .act tid .interrupt | .act tid (.faultCatch _) => !w.killPending tid
  | .act tid (.go yes) =>
    match w.place tid with
    | .fresh => !w.killPending tid
    | .try_ (.set set) _ => !(w.killPending tid && set.getLsbD SIGKILL)
    | .try_ (.fd fd _) _ => !(w.killPending tid && (w.masks fd).getLsbD SIGKILL)
    | .start .exec => !(yes && w.killPending tid && w.others tid (w.pid tid) != [])
    | .image => !(yes && w.killPending tid)
    | _ => true
  | .send id sig => !(sig == SIGKILL && w.pid id == id && (w.place id).waitsForThreads)
  | _ => true

def Inv (w : Threads) : Prop :=
  ∀ tid t, w.task tid = some t → Fit w.kernel.waitSeq w.exited tid t (w.place tid) (w.trace tid)

variable {w : Threads}

@[simp] theorem place_setPlace_self (tid : Tid) (place : Place) : (w.setPlace tid place).place tid = place :=
  Function.update_self ..

@[simp] theorem trace_setPlace (tid : Tid) (place : Place) : (w.setPlace tid place).trace = w.trace := rfl

@[simp] theorem trace_mark_self (tid : Tid) (f : Trace → Trace) : (w.mark tid f).trace tid = f (w.trace tid) :=
  Function.update_self ..

variable {kernel : Kernel} {tid : Tid}

theorem trace_mark_ne {o : Tid} (other : o ≠ tid) (f : Trace → Trace) : (w.mark tid f).trace o = w.trace o :=
  Function.update_of_ne other ..

structure Acts (moves : Tid → Prop) (w w' : Threads) : Prop where
  task : ∀ o, (w.task o).isSome = true → (w'.task o).isSome = true
  place : ∀ o, ¬ moves o → (w.task o).isSome = true → w'.place o = w.place o
  process : ∀ o, (w.task o).isSome = true → (w'.trace o).process = (w.trace o).process
  sent : ∀ o, (w.task o).isSome = true → (w.trace o).sent = true → (w'.trace o).sent = true
  exited : ∀ p, w.exited p = true → w'.exited p = true

variable {moves : Tid → Prop}

theorem Acts.refl (w : Threads) : Acts moves w w :=
  ⟨fun _ => id, fun _ _ _ => rfl, fun _ _ => rfl, fun _ _ => id, fun _ => id⟩

theorem Acts.trans {u v : Threads} (first : Acts moves w u) (second : Acts moves u v) : Acts moves w v where
  task o lives := second.task o (first.task o lives)
  place o still lives := (second.place o still (first.task o lives)).trans (first.place o still lives)
  process o lives := (second.process o (first.task o lives)).trans (first.process o lives)
  sent o lives isSent := second.sent o (first.task o lives) (first.sent o lives isSent)
  exited p isOver := second.exited p (first.exited p isOver)

theorem setKernel_acts
    (forth : ∀ o, (w.kernel.tasks.lookup o).isSome = true → (kernel.tasks.lookup o).isSome = true) :
    Acts moves w (w.setKernel kernel) :=
  ⟨forth, fun _ _ _ => rfl, fun _ _ => rfl, fun _ _ => id, fun _ => id⟩

theorem setPlace_acts (place : Place) : Acts (· = tid) w (w.setPlace tid place) :=
  ⟨fun _ => id, fun _ other _ => Function.update_of_ne other .., fun _ _ => rfl, fun _ _ => id, fun _ => id⟩

theorem mark_acts (tid : Tid) {f : Trace → Trace} (process : ∀ trace, (f trace).process = trace.process)
    (sent : ∀ trace, trace.sent = true → (f trace).sent = true) : Acts moves w (w.mark tid f) where
  task _ := id
  place _ _ _ := rfl
  process o _ := by
    by_cases same : o = tid
    · subst same
      rw [trace_mark_self]
      exact process _
    · rw [trace_mark_ne same]
  sent o _ isSent := by
    by_cases same : o = tid
    · subst same
      rw [trace_mark_self]
      exact sent _ isSent
    · rw [trace_mark_ne same]
      exact isSent
  exited _ := id

def Goes (tid : Tid) (w w' : Threads) : Prop := w'.Inv ∧ Acts (· = tid) w w'

theorem Goes.after {u v : Threads} (goes : Goes tid u v) (acts : Acts (· = tid) w u) : Goes tid w v :=
  ⟨goes.1, acts.trans goes.2⟩

variable (inv : w.Inv)
include inv

theorem Inv.alter {w' : Threads} (tid : Tid) (tasks : ∀ o, o ≠ tid → w'.task o = w.task o)
    (seq : w.kernel.waitSeq ≤ w'.kernel.waitSeq) (exited : w'.exited = w.exited)
    (places : ∀ o, o ≠ tid → w'.place o = w.place o) (traces : ∀ o, o ≠ tid → w'.trace o = w.trace o)
    (own : ∀ t', w'.task tid = some t' → Fit w'.kernel.waitSeq w.exited tid t' (w'.place tid) (w'.trace tid)) :
    w'.Inv := by
  intro o t' found'
  rw [exited]
  by_cases same : o = tid
  · subst same
    exact own t' found'
  · rw [places o same, traces o same]
    rw [tasks o same] at found'
    exact (inv o t' found').calm (Keeps.refl t') seq fun _ => id

theorem Inv.at {w' : Threads} (tid : Tid) (calm : Kernel.Calm Keeps w.kernel w'.kernel)
    (grows : ∀ p, w.exited p = true → w'.exited p = true) (places : ∀ o, o ≠ tid → w'.place o = w.place o)
    (traces : ∀ o, o ≠ tid → w'.trace o = w.trace o)
    (own : ∀ t t', w.task tid = some t → Keeps t t' →
      Fit w'.kernel.waitSeq w'.exited tid t' (w'.place tid) (w'.trace tid)) : w'.Inv := by
  intro o t' found'
  obtain ⟨t, found, keeps⟩ := calm.back o t' found'
  by_cases same : o = tid
  · subst same
    exact own t t' found keeps
  · rw [places o same, traces o same]
    exact (inv o t found).calm keeps calm.seq grows

theorem Inv.calm (calm : Kernel.Calm Keeps w.kernel kernel) : (w.setKernel kernel).Inv := by
  intro o t' found'
  obtain ⟨t, found, keeps⟩ := calm.back o t' found'
  exact (inv o t found).calm keeps calm.seq fun _ => id

theorem Inv.goes (calm : Kernel.Calm Keeps w.kernel kernel) {next : Place}
    (goes : (w.place tid).ends = false) (stays : next ≠ .done) (alone : next ≠ .alone .exitGroup)
    (seq : ∀ s, next.seq = some s → s ≤ kernel.waitSeq)
    (late : ∀ t, w.task tid = some t → t.killed = true → ∀ s, next.blocks = some s → s < kernel.waitSeq)
    (works : ∀ t, w.task tid = some t → (w.trace tid).sent = true → w.exited (w.trace tid).process = false →
      next.working = true) : Goes tid w ((w.setKernel kernel).setPlace tid next) := by
  refine ⟨inv.at tid calm (fun _ => id) (fun o other => Function.update_of_ne other ..) (fun _ _ => rfl)
    fun t t' found keeps => ?_, (setKernel_acts calm.forth).trans (setPlace_acts next)⟩
  have moved := ((inv tid t found).calm keeps calm.seq fun _ => id).move goes stays alone seq
    (fun killed => late t found (keeps.killed ▸ killed)) (works t found)
  rw [show ((w.setKernel kernel).setPlace tid next).place tid = next from Function.update_self ..]
  exact moved

def plain : Place → Bool
  | .alone _ => false
  | .done => false
  | .try_ _ _ => false
  | .check _ _ => false
  | .block _ _ => false
  | .start (.threadExit _) => false
  | _ => true

theorem Inv.goesPlain (calm : Kernel.Calm Keeps w.kernel kernel) {next : Place}
    (goes : (w.place tid).ends = false) (isPlain : plain next = true) : Goes tid w ((w.setKernel kernel).setPlace tid next) := by
  refine inv.goes calm goes ?_ ?_ ?_ ?_ ?_
  · rintro rfl
    cases isPlain
  · rintro rfl
    cases isPlain
  · intro s same
    cases next <;> simp_all [Place.seq, plain]
  · intro t _ _ s same
    cases next <;> simp_all [Place.blocks, plain]
  intro t _ _ _
  cases next with
  | start call => cases call <;> first | rfl | cases isPlain
  | alone => cases isPlain
  | done => cases isPlain
  | _ => rfl

theorem Inv.toUser {t : TaskSlot} (calm : Kernel.Calm Keeps w.kernel kernel) (there : w.task tid = some t)
    (goes : (w.place tid).ends = false) (alive : t.killed = false) : Goes tid w ((w.setKernel kernel).toUser tid) := by
  have marked : Acts (· = tid) (w.setKernel kernel)
      ((w.setKernel kernel).mark tid fun trace => { trace with returned := trace.returned || trace.posted }) :=
    mark_acts tid (fun _ => rfl) (fun _ => id)
  refine ⟨inv.at tid calm (fun _ => id) (fun o other => Function.update_of_ne other ..)
    (fun o other => Function.update_of_ne other ..) fun t t' found keeps => ?_,
    (setKernel_acts calm.forth).trans (marked.trans (setPlace_acts _))⟩
  cases there.symm.trans found
  have fit := (inv tid t found).calm keeps calm.seq fun _ => id
  have unposted := (inv tid t found).posted_of_goes goes alive
  have moved : Fit kernel.waitSeq w.exited tid t' .user (w.trace tid) := fit.move goes (by simp) (by simp)
    (by simp [Place.seq]) (by simp [Place.blocks]) (fun _ _ => rfl)
  have same : ((w.setKernel kernel).toUser tid).trace tid = w.trace tid := by
    simp only [Threads.toUser, setPlace, mark, setKernel, Function.update_self]
    generalize w.trace tid = trace at unposted
    cases trace
    simp_all
  rw [same, show ((w.setKernel kernel).toUser tid).place tid = .user from Function.update_self ..]
  exact moved

omit inv in
theorem postKill_back {k : Kernel} {slot : Tid} {s : TaskSlot} (found : k.tasks.lookup slot = some s) {o : Tid} {t' : TaskSlot}
    (found' : (Kernel.wakeTaskLocked
      (k.setTask slot { s with sigPending := s.sigPending ||| KILL_BIT }) slot).tasks.lookup o = some t') :
    ∃ t, k.tasks.lookup o = some t ∧ (o ≠ slot → Keeps t t') ∧
      (o = slot → t'.killed = true ∧ t'.awake ∧ (t'.state = .dead ↔ t.state = .dead) ∧ t'.tgid = t.tgid) := by
  by_cases same : o = slot
  · subst same
    rw [(Kernel.wakeTaskLocked_lookup (AList.lookup_insert ..)).1] at found'
    cases found'
    refine ⟨s, found, fun other => absurd rfl other, fun _ => ?_⟩
    have keeps := woken_keeps { s with sigPending := s.sigPending ||| KILL_BIT }
    exact ⟨keeps.killed.trans (killed_post s), woken_awake _, keeps.dead, keeps.tgid⟩
  · obtain ⟨t, there, keeps⟩ := (Kernel.wakeTaskLocked_calm (R := Keeps) slot).back o t' found'
    rw [Kernel.setTask, AList.lookup_insert_ne same] at there
    exact ⟨t, there, fun _ => keeps, fun here => absurd here same⟩

theorem Inv.post {slot : Tid} {s : TaskSlot} (found : w.task slot = some s) (sent : Bool)
    (works : sent = true → s.tgid = slot ∧
      (w.exited (w.trace slot).process = false → (w.place slot).working = true)) :
    ((w.mark slot fun trace => { trace with posted := true, sent := trace.sent || sent }).setKernel
      (Kernel.wakeTaskLocked (w.kernel.setTask slot { s with sigPending := s.sigPending ||| KILL_BIT }) slot)).Inv := by
  intro o t' found'
  obtain ⟨t, there, elsewhere, here⟩ := postKill_back found found'
  have seq := (Kernel.wakeTaskLocked_lookup (k := w.kernel.setTask slot { s with sigPending := s.sigPending ||| KILL_BIT })
    (AList.lookup_insert ..)).2
  have fit := inv o t there
  by_cases same : o = slot
  · subst same
    cases found.symm.trans there
    obtain ⟨killed, awake, dead, leader⟩ := here rfl
    have posted := fit.post killed awake dead leader sent works
    rw [show ((w.mark o fun trace => { trace with posted := true, sent := trace.sent || sent }).setKernel
      (Kernel.wakeTaskLocked (w.kernel.setTask o { s with sigPending := s.sigPending ||| KILL_BIT }) o)).trace o =
        { w.trace o with posted := true, sent := (w.trace o).sent || sent } from Function.update_self ..]
    change Fit (Kernel.wakeTaskLocked _ _).waitSeq w.exited o t' (w.place o) _
    rw [seq]
    exact posted
  · have kept := fit.calm (elsewhere same) (Nat.le_succ _) (fun _ => id : ∀ p, w.exited p = true → w.exited p = true)
    rw [show ((w.mark slot fun trace => { trace with posted := true, sent := trace.sent || sent }).setKernel
      (Kernel.wakeTaskLocked (w.kernel.setTask slot { s with sigPending := s.sigPending ||| KILL_BIT }) slot)).trace o =
        w.trace o from Function.update_of_ne same ..]
    change Fit (Kernel.wakeTaskLocked _ _).waitSeq w.exited o t' (w.place o) _
    rw [seq]
    exact kept

theorem Inv.postKill (slot : Tid) : (w.postKill slot).Inv := by
  cases found : w.kernel.tasks.lookup slot with
  | none =>
    intro o t' found'
    have kernel : (w.postKill slot).kernel = w.kernel.wakeTaskLocked slot := by
      simp [Threads.postKill, Kernel.modifyTask, found]
    rw [Placed.task, kernel] at found'
    have calm := Kernel.wakeTaskLocked_calm (R := Keeps) (k := w.kernel) slot
    obtain ⟨t, there, keeps⟩ := calm.back o t' found'
    have other : o ≠ slot := by
      rintro rfl
      rw [found] at there
      cases there
    rw [kernel, show (w.postKill slot).trace o = w.trace o from Function.update_of_ne other ..]
    exact (inv o t there).calm keeps calm.seq fun _ => id
  | some s =>
    have posted := inv.post found false (fun wrong => by cases wrong)
    have same : w.postKill slot = (w.mark slot fun trace => { trace with posted := true, sent := trace.sent || false }).setKernel
        (Kernel.wakeTaskLocked (w.kernel.setTask slot { s with sigPending := s.sigPending ||| KILL_BIT }) slot) := by
      simp [Threads.postKill, Kernel.modifyTask, found, setKernel, mark]
    rw [same]
    exact posted

structure Spares (w w' : Threads) : Prop where
  place : w'.place = w.place
  exited : w'.exited = w.exited
  forth : ∀ tid, (w.task tid).isSome = true → (w'.task tid).isSome = true
  process : ∀ tid, (w'.trace tid).process = (w.trace tid).process
  sent : ∀ tid, (w'.trace tid).sent = (w.trace tid).sent

omit inv in
theorem Spares.refl (w : Threads) : Spares w w := ⟨rfl, rfl, fun _ => id, fun _ => rfl, fun _ => rfl⟩

omit inv in
theorem Spares.trans {u v : Threads} (first : Spares w u) (second : Spares u v) : Spares w v :=
  ⟨second.place.trans first.place, second.exited.trans first.exited, fun tid => second.forth tid ∘ first.forth tid,
    fun tid => (second.process tid).trans (first.process tid), fun tid => (second.sent tid).trans (first.sent tid)⟩

omit inv in
theorem Spares.acts {w' : Threads} (spares : Spares w w') : Acts moves w w' where
  task := spares.forth
  place o _ _ := by rw [spares.place]
  process o _ := spares.process o
  sent o _ isSent := (spares.sent o).trans isSent
  exited p isOver := by
    rw [spares.exited]
    exact isOver

omit inv in
theorem postKill_spares (slot : Tid) : Spares w (w.postKill slot) := by
  refine ⟨rfl, rfl, fun tid positive => ?_, fun tid => ?_, fun tid => ?_⟩
  · exact (Kernel.wakeTaskLocked_calm (R := Keeps) slot).forth tid (Kernel.modifyTask_forth slot _ tid positive)
  · by_cases same : tid = slot
    · subst same
      simp [Threads.postKill, mark]
    · simp [Threads.postKill, mark, Function.update_of_ne same]
  · by_cases same : tid = slot
    · subst same
      simp [Threads.postKill, mark]
    · simp [Threads.postKill, mark, Function.update_of_ne same]

theorem foldl_postKill (slots : List Tid) :
    (slots.foldl Threads.postKill w).Inv ∧ Spares w (slots.foldl Threads.postKill w) := by
  induction slots generalizing w with
  | nil => exact ⟨inv, Spares.refl w⟩
  | cons slot slots ih =>
    obtain ⟨kept, spares⟩ := ih (inv.postKill slot)
    exact ⟨kept, (postKill_spares slot).trans spares⟩

theorem Inv.killOtherThreads (me pid : Tid) (mark : Process → Process) :
    (w.killOtherThreads me pid mark).Inv ∧ Spares w (w.killOtherThreads me pid mark) := by
  obtain ⟨kept, spares⟩ := foldl_postKill (inv.calm (Kernel.setProc_calm pid (mark (w.kernel.proc pid))))
    (w.others me pid)
  have marked : Spares w (w.setKernel (w.kernel.setProc pid (mark (w.kernel.proc pid)))) :=
    ⟨rfl, rfl, fun _ => id, fun _ => rfl, fun _ => rfl⟩
  exact ⟨kept, marked.trans spares⟩

theorem Inv.retire
    (isOver : (w.trace tid).sent = true → w.exited (w.trace tid).process = true) : Goes tid w (w.retire tid) := by
  have seq : (w.retire tid).kernel.waitSeq = w.kernel.waitSeq + 1 := by
    simp only [Threads.retire, setPlace, setKernel, Kernel.bumpSeq, Kernel.modifyTask]
    split <;> rfl
  have ended : Acts (· = tid) w (w.setKernel (w.kernel.modifyTask tid fun t => { t with state := .dead }).bumpSeq) :=
    setKernel_acts (Kernel.modifyTask_forth tid _)
  refine ⟨inv.alter tid (fun o other => Kernel.lookup_modifyTask_ne other _) (by omega) rfl
    (fun o other => Function.update_of_ne other ..) (fun _ _ => rfl) fun t' found' => ?_,
    ended.trans (setPlace_acts _)⟩
  obtain ⟨t, found, rfl⟩ := Option.map_eq_some_iff.mp ((Kernel.lookup_modifyTask tid _).symm.trans found')
  have fit := inv tid t found
  rw [show (w.retire tid).place tid = .done from Function.update_self ..]
  exact {
    pending := fit.pending
    taken := fun _ => rfl
    returned := fit.returned
    seq := fun _ wrong => by cases wrong
    late := fun _ _ wrong => by cases wrong
    awake := fun _ wrong => by cases wrong
    dead := by simp
    group := fun wrong => by cases wrong
    sent := fun isSent => ⟨(fit.sent isSent).1, (fit.sent isSent).2.1, fun running =>
      absurd (running.symm.trans (isOver isSent)) Bool.false_ne_true⟩ }

theorem Inv.exited (tid : Tid) (process : Nat) :
    Inv { w with exited := Function.update w.exited process true } ∧
      Acts (· = tid) w { w with exited := Function.update w.exited process true } := by
  have grows (p : Nat) (isOver : w.exited p = true) : Function.update w.exited process true p = true := by
    by_cases same : p = process
    · rw [same, Function.update_self]
    · rw [Function.update_of_ne same]
      exact isOver
  exact ⟨fun o t found => (inv o t found).calm (Keeps.refl t) le_rfl grows,
    ⟨fun _ => id, fun _ _ _ => rfl, fun _ _ => rfl, fun _ _ => id, grows⟩⟩

theorem Inv.exitGroup (code sig : Nat) (stays : w.place tid ≠ .done) :
    Goes tid w (w.exitGroup tid code sig) := by
  obtain ⟨kept, spares⟩ := inv.killOtherThreads tid (w.pid tid) (markExit code sig)
  unfold Threads.exitGroup
  simp only
  generalize w.killOtherThreads tid (w.pid tid) (markExit code sig) = killed at kept spares
  obtain ⟨ended, acts⟩ := kept.exited tid (w.trace tid).process
  have isOver : Function.update killed.exited (w.trace tid).process true (killed.trace tid).process = true := by
    rw [spares.process, Function.update_self]
  split
  · refine Goes.after ⟨ended.alter tid (fun _ _ => rfl) le_rfl rfl (fun o other => Function.update_of_ne other ..)
      (fun _ _ => rfl) fun t found => ?_, setPlace_acts _⟩ (spares.acts.trans acts)
    have fit := ended tid t found
    rw [place_setPlace_self]
    exact {
      pending := fit.pending
      taken := fun _ => rfl
      returned := fit.returned
      seq := fun _ wrong => by cases wrong
      late := fun _ _ wrong => by cases wrong
      awake := fit.awake
      dead := ⟨fun dead => absurd (spares.place ▸ fit.dead.mp dead) stays, fun wrong => by cases wrong⟩
      group := fun _ => isOver
      sent := fun isSent => ⟨(fit.sent isSent).1, (fit.sent isSent).2.1, fun running =>
        absurd (running.symm.trans isOver) Bool.false_ne_true⟩ }
  · exact (ended.retire fun _ => isOver).after (spares.acts.trans acts)

theorem Inv.isOver {t : TaskSlot} (found : w.task tid = some t) (idle : (w.place tid).working = false)
    (isSent : (w.trace tid).sent = true) : w.exited (w.trace tid).process = true := by
  by_contra running
  rw [Bool.not_eq_true] at running
  rw [((inv tid t found).sent isSent).2.2 running] at idle
  cases idle

theorem Inv.threadExit {t : TaskSlot} (found : w.task tid = some t) (code : Nat) {call : Nat}
    (here : w.place tid = .start (.threadExit call)) : Goes tid w (w.threadExit tid code) := by
  have isOver := inv.isOver found (by rw [here]; rfl)
  unfold Threads.threadExit
  simp only
  split
  · refine inv.goes (Kernel.setProc_calm ..) (by rw [here]; rfl) (by simp) (by simp) (by simp [Place.seq])
      (by simp [Place.blocks]) fun _ _ isSent running => ?_
    rw [isOver isSent] at running
    cases running
  · exact inv.retire isOver

theorem Inv.execAlone {t : TaskSlot} (found : w.task tid = some t) (here : w.place tid = .start .exec)
    (alive : w.others tid (w.pid tid) ≠ [] → t.killed = false) : Goes tid w (w.execAlone tid) := by
  have goes : (w.place tid).ends = false := by rw [here]; rfl
  have same (next : Place) (isPlain : plain next = true) : Goes tid w (w.setPlace tid next) :=
    inv.goesPlain (Kernel.Calm.refl _) goes isPlain
  unfold Threads.execAlone
  simp only
  split
  · exact same _ rfl
  rename_i others
  split
  · exact same _ rfl
  have unposted := (inv tid t found).posted_of_goes goes (alive others)
  have unsent : (w.trace tid).sent = false := by
    by_contra isSent
    rw [Bool.not_eq_false] at isSent
    rw [((inv tid t found).sent isSent).1] at unposted
    cases unposted
  obtain ⟨kept, spares⟩ := inv.killOtherThreads tid (w.pid tid) fun p => { p with groupExit := true }
  refine Goes.after (kept.goes (Kernel.Calm.refl _) (by rw [spares.place]; exact goes) (by simp) (by simp)
    (by simp [Place.seq]) (by simp [Place.blocks]) fun _ _ isSent _ => ?_) spares.acts
  rw [spares.sent, unsent] at isSent
  cases isSent

end Threads
end Myos.Task
