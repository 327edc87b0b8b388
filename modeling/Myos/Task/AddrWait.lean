import Myos.Task.SleepWait

namespace Myos.Task.AddrWaits
open Lib

inductive AddrWait
  | woken
  | changed
  | timedOut
  | interrupted
  | fault
deriving DecidableEq

structure Call where
  pid : Nat
  addr : Nat
  expected : BitVec 32
  deadline : Nat
deriving DecidableEq

def keyAddr (pid addr : Nat) : WaitKey :=
  .object (1#64 <<< 63 ||| BitVec.ofNat 64 pid <<< 48 |||
    (BitVec.ofNat 64 addr &&& 0xffffffffffff#64)).toNat

theorem keyAddr_ne (pid addr : Nat) : keyAddr pid addr ≠ .none := WaitKey.noConfusion

def Call.key (c : Call) : WaitKey := keyAddr c.pid c.addr

/-- Where a thread is in `wait_addr`: before its read of `WAIT_SEQ` (`top`), of the word (`read`), of its signals
and of the clock, before the locked part of `block_until`, asleep there, before `took_key_wake` and before
the last look at its signals (`acted`). -/
inductive Place
  | idle
  | top (c : Call) (slept : Bool)
  | read (c : Call) (slept : Bool) (seq : Nat)
  | signals (c : Call) (seq : Nat)
  | clock (c : Call) (seq : Nat)
  | block (c : Call) (seq : Nat)
  | asleep (c : Call)
  | took (c : Call)
  | acted (c : Call)
  | done (outcome : AddrWait)
deriving DecidableEq

def Place.waits : Place → Option Call
  | .signals c _ | .clock c _ | .block c _ | .asleep c => some c
  | _ => none

/-- What other threads did since a thread read its word: one stored another value than it expects, and
then a `wake_addr` on its key woke fewer threads than it may. -/
inductive News
  | none
  | stored
  | woken
deriving DecidableEq

/-- `counted` and `news` are what the kernel does not keep: the waits that a `wake_addr` counted, and what
each has missed. -/
structure World extends Placed Place where
  keyWoken : Tid → Bool
  word : Nat → Nat → BitVec 32
  now : Nat
  counted : Tid → Bool
  news : Tid → News

inductive Event
  | wait (tid : Tid) (addr : Nat) (expected : BitVec 32) (deadline : Nat) (bufferOk : Bool)
  | go (tid : Tid) (copied : Bool)
  | store (pid addr : Nat) (value : BitVec 32)
  | wakeAddr (pid addr max : Nat)
  | send (id : Tid) (sig : Nat)
  | sigprocmask (tid : Tid) (mask : Sigset)
  | sigaction (tid : Tid) (sig handler : Nat) (flags mask : Sigset) (tramp : Nat)
  | deliver (tid : Tid)
  | wakeElse
  | advance (ns : Nat)
  | expire (tid : Tid)
  | switch (tid : Tid) (how : Switch)

namespace World

variable (w : World)

def goto (tid : Tid) (place : Place) : World := { w with place := Function.update w.place tid place }

def waitsOn (key : WaitKey) (t : TaskSlot) : Bool := t.state == .blocked && t.waitKey == key

def wakeSlot (slot : Tid) : World :=
  { w with
    kernel := w.kernel.wakeLocked slot
    keyWoken := Function.update w.keyWoken slot true
    counted := Function.update w.counted slot true }

def wakeLoop (key : WaitKey) (max : Nat) : List Tid → World → Nat → World × Nat
  | [], w, n => (w, n)
  | slot :: rest, w, n =>
    if n = max then (w, n)
    else if (w.task slot).any (waitsOn key) then wakeLoop key max rest (w.wakeSlot slot) (n + 1)
    else wakeLoop key max rest w n

def slots : List Tid := List.range (w.kernel.tasks.keys.foldr max 0 + 1)

def wakeN (key : WaitKey) (max : Nat) : World × Nat :=
  wakeLoop key max w.slots { w with kernel := w.kernel.bumpSeq } 0

def wakeAddr (pid addr max : Nat) : World × Nat := w.wakeN (keyAddr pid addr) max

def noteStore (pid addr : Nat) (value : BitVec 32) (tid : Tid) : News :=
  match (w.place tid).waits with
  | some c => if c.pid = pid ∧ c.addr = addr ∧ c.expected ≠ value ∧ w.news tid = .none then .stored else w.news tid
  | none => w.news tid

def noteWake (key : WaitKey) (tid : Tid) : News :=
  if (w.place tid).waits.any (·.key == key) ∧ w.news tid = .stored then .woken else w.news tid

def go (tid : Tid) (t : TaskSlot) (copied : Bool) : Place → Option World
  | .idle => none
  | .top c slept => some (w.goto tid (.read c slept w.kernel.waitSeq))
  | .read c slept seq =>
    if !copied then some (w.goto tid (.done .fault))
    else if w.word c.pid c.addr ≠ c.expected then some (w.goto tid (.done (if slept then .woken else .changed)))
    else some ({ w with news := Function.update w.news tid .none }.goto tid (.signals c seq))
  | .signals c seq => some (w.goto tid (if w.kernel.signalWakeable t then .done .interrupted else .clock c seq))
  | .clock c seq =>
    some (w.goto tid (if c.deadline ≠ 0 ∧ c.deadline ≤ w.now then .done .timedOut else .block c seq))
  | .block c seq =>
    some ({ w with
      kernel := w.kernel.blockUntil tid c.key seq c.deadline w.now
      keyWoken := Function.update w.keyWoken tid false }.goto tid
        (if w.kernel.blocks seq c.deadline w.now then .asleep c else .took c))
  | .asleep c => some (w.goto tid (.took c))
  | .took c => some (w.goto tid (if w.keyWoken tid then .acted c else .top c true))
  | .acted _ => some (w.goto tid (.done (if w.kernel.signalWakeable t then .interrupted else .woken)))
  | .done _ => some (w.goto tid .idle)

def setKernel (kernel : Kernel) : World := { w with kernel }

def due (t : TaskSlot) : Bool := t.state == .blocked && t.wakeAt != 0 && decide (t.wakeAt ≤ w.now)

def step : Event → Option World
  | .wait tid addr expected deadline bufferOk =>
    ((w.running tid).filter fun _ => w.place tid == .idle).map fun t =>
      { w with counted := Function.update w.counted tid false }.goto tid
        (if addr % 4 ≠ 0 ∨ !bufferOk then .done .fault else .top ⟨t.tgid, addr, expected, deadline⟩ false)
  | .go tid copied => (w.running tid).bind fun t => w.go tid t copied (w.place tid)
  | .store pid addr value =>
    some { w with
      word := Function.update w.word pid (Function.update (w.word pid) addr value)
      news := w.noteStore pid addr value }
  | .wakeAddr pid addr max =>
    match w.wakeAddr pid addr max with
    | (w', n) => some (if n < max then { w' with news := w.noteWake (keyAddr pid addr) } else w')
  | .send id sig => some (w.setKernel (w.kernel.signalSend id sig))
  | .sigprocmask tid mask => some (w.setKernel (w.kernel.signalSetBlockedMask tid mask))
  | .sigaction tid sig handler flags mask tramp =>
    some (w.setKernel (w.kernel.signalSetAction tid sig handler flags mask tramp))
  | .deliver tid => some (w.setKernel (w.kernel.signalNext tid).1)
  | .wakeElse => some (w.setKernel w.kernel.bumpSeq)
  | .advance ns => some { w with now := w.now + ns }
  | .expire tid => ((w.task tid).filter w.due).map fun _ => w.setKernel (w.kernel.wakeTaskLocked tid)
  | .switch tid how => (w.kernel.switch tid how).map w.setKernel

def Boot : Prop :=
  w.kernel.anyWaiters = 0 ∧ (∀ tid t, w.task tid = some t → t.state ≠ .blocked ∧ t.wakePending = false) ∧
    ∀ tid, w.place tid = .idle ∧ w.counted tid = false

def system : System World Event := ⟨Boot, step⟩

def sleepers : Nat := w.kernel.tasks.count fun _ t => t.state == .blocked && !t.wakePending

/-- No thread sleeps on after another value was stored and a `wake_addr` after that woke fewer threads than
it may; `wake_addr` returns the number of waits it ended; and every wait it counted returns `Woken`. -/
structure Sound : Prop where
  kept : ∀ tid t, w.task tid = some t → t.dozing → w.news tid ≠ .woken
  returned : ∀ pid addr max, (w.wakeAddr pid addr max).1.sleepers + (w.wakeAddr pid addr max).2 = w.sleepers
  counted : ∀ tid outcome, w.place tid = .done outcome → w.counted tid = true → outcome = .woken

/-- A thread that a `wake_addr` has woken finds no signal that acts when it looks for one. -/
def meets : Event → Bool
  | .go tid _ =>
    match w.place tid with
    | .acted _ => (w.task tid).all fun t => !w.kernel.signalWakeable t
    | _ => true
  | _ => true

end World

def Place.seq : Place → Option Nat
  | .read _ _ seq | .signals _ seq | .clock _ seq | .block _ seq => some seq
  | _ => none

def Place.countable : Place → Bool
  | .asleep _ | .took _ | .acted _ | .done .woken | .idle => true
  | _ => false

def Rests (t t' : TaskSlot) : Prop := t'.dozing → t.dozing ∧ t'.waitKey = t.waitKey

theorem rests_of_dozes {t t' : TaskSlot} (dozes : Dozes t t') : Rests t t' := fun dozing =>
  have ⟨dozed, key, _⟩ := dozes.dozing dozing
  ⟨dozed, key⟩

instance : Mild Rests where
  refl t := rests_of_dozes (Dozes.refl t)
  trans first second dozing :=
    have ⟨dozed, key⟩ := second dozing
    have ⟨dozed, firstKey⟩ := first dozed
    ⟨dozed, key.trans firstKey⟩
  woken t := rests_of_dozes (Mild.woken (R := Dozes) t)
  masked t blocked := rests_of_dozes (Mild.masked (R := Dozes) t blocked)
  cleared t sig other := rests_of_dozes (Mild.cleared (R := Dozes) t sig other)

namespace World

/-- What a wait relies on: nothing is lost on it while it sleeps, nor before that unless `WAIT_SEQ` moved;
and once it is counted `key_woken` says so until it returns. -/
structure Fit (w : World) (tid : Tid) : Prop where
  fresh : ∀ seq, (w.place tid).seq = some seq → seq ≤ w.kernel.waitSeq ∧
    (seq = w.kernel.waitSeq → (w.place tid).waits ≠ none → w.news tid ≠ .woken)
  asleep : ∀ t, w.task tid = some t → t.dozing →
    ∃ c, w.place tid = .asleep c ∧ t.waitKey = c.key ∧ w.news tid ≠ .woken
  counted : w.counted tid = true → w.keyWoken tid = true ∧ (w.place tid).countable = true

structure Inv (w : World) : Prop where
  kernel : w.kernel.Counted
  fit : ∀ tid, w.Fit tid

variable {w w' : World} {tid : Tid} {t : TaskSlot} {key : WaitKey} {max n : Nat} {k : Kernel} {place : Place}

theorem place_goto : (w.goto tid place).place tid = place := Function.update_self ..

theorem Fit.rest (fit : w.Fit tid) (place : w'.place tid = w.place tid) (seq : w.kernel.waitSeq ≤ w'.kernel.waitSeq)
    (task : ∀ t', w'.task tid = some t' → ∃ t, w.task tid = some t ∧ Rests t t')
    (news : w'.news tid = .woken → w.news tid = .woken)
    (counted : w'.counted tid = true → w'.keyWoken tid = true ∧ (w'.place tid).countable = true) : w'.Fit tid := by
  refine ⟨fun n read => ?_, fun t' found dozing => ?_, counted⟩
  · rw [place] at read ⊢
    obtain ⟨past, fresh⟩ := fit.fresh n read
    refine ⟨Nat.le_trans past seq, fun unmoved waits => ?_⟩
    exact mt news (fresh (Nat.le_antisymm past (unmoved ▸ seq)) waits)
  · obtain ⟨t, found, rests⟩ := task t' found
    obtain ⟨dozed, key⟩ := rests dozing
    obtain ⟨c, here, forKey, kept⟩ := fit.asleep t found dozed
    exact ⟨c, place.trans here, key.trans forKey, mt news kept⟩

theorem Inv.same (inv : w.Inv) (kernel : w'.kernel = w.kernel) (place : w'.place = w.place)
    (news : ∀ tid, w'.news tid = .woken → w.news tid = .woken)
    (counted : ∀ tid, w'.counted tid = true → w'.keyWoken tid = true ∧ (w'.place tid).countable = true) : w'.Inv :=
  ⟨kernel ▸ inv.kernel, fun tid => (inv.fit tid).rest (by rw [place]) (by rw [kernel])
    (fun t found => ⟨t, by rwa [Placed.task, ← kernel], Mild.refl t⟩) (news tid) (counted tid)⟩

theorem Inv.calm (inv : w.Inv) (calm : Kernel.Calm Rests w.kernel k) : (w.setKernel k).Inv :=
  ⟨calm.counted inv.kernel, fun tid => (inv.fit tid).rest rfl calm.seq (calm.back tid) id (inv.fit tid).counted⟩

theorem running_task (runs : w.running tid = some t) : w.task tid = some t ∧ t.state = .running := by
  obtain ⟨found, state⟩ := Option.filter_eq_some_iff.mp runs
  simp only [Bool.and_eq_true, beq_iff_eq] at state
  exact ⟨found, state.1⟩

theorem Inv.move (inv : w.Inv) (counted : k.Counted) (seq : k.waitSeq = w.kernel.waitSeq)
    (others : ∀ other, other ≠ tid → k.tasks.lookup other = w.task other)
    (own : ((w.setKernel k).goto tid place).Fit tid) : ((w.setKernel k).goto tid place).Inv := by
  refine ⟨counted, fun other => ?_⟩
  by_cases same : other = tid
  · subst same
    exact own
  have there : ((w.setKernel k).goto tid place).place other = w.place other := Function.update_of_ne same ..
  refine (inv.fit other).rest there (Nat.le_of_eq seq.symm)
    (fun t found => ⟨t, (others other same).symm.trans found, Mild.refl t⟩) id ?_
  rw [there]
  exact (inv.fit other).counted

theorem Inv.goto (inv : w.Inv) (runs : w.running tid = some t)
    (fresh : ∀ seq, place.seq = some seq → seq ≤ w.kernel.waitSeq ∧
      (seq = w.kernel.waitSeq → place.waits ≠ none → w.news tid ≠ .woken))
    (counted : w.counted tid = true → place.countable = true) : (w.goto tid place).Inv := by
  refine inv.move (k := w.kernel) inv.kernel rfl (fun _ _ => rfl) ⟨place_goto.symm ▸ fresh, fun u found dozing => ?_,
    fun was => ⟨((inv.fit tid).counted was).1, place_goto.symm ▸ counted was⟩⟩
  obtain ⟨found', running⟩ := running_task runs
  cases found'.symm.trans found
  cases running.symm.trans dozing.1

structure Woke (w w' : World) (ended : Nat) : Prop where
  calm : Kernel.Calm Rests w.kernel w'.kernel
  place : w'.place = w.place
  news : w'.news = w.news
  keyWoken : ∀ tid, w.keyWoken tid = true → w'.keyWoken tid = true
  marked : ∀ tid, w'.counted tid = true →
    w.counted tid = true ∨ w'.keyWoken tid = true ∧ ∃ t, w.task tid = some t ∧ t.dozing
  sleepers : w'.sleepers + ended = w.sleepers

theorem Woke.trans {v : World} {m : Nat} (first : Woke w w' n) (second : Woke w' v m) : Woke w v (n + m) where
  calm := first.calm.trans second.calm
  place := second.place.trans first.place
  news := second.news.trans first.news
  keyWoken tid := second.keyWoken tid ∘ first.keyWoken tid
  marked tid counted := by
    obtain counted | ⟨woken, t, found, dozing⟩ := second.marked tid counted
    · exact (first.marked tid counted).imp_right fun ⟨woken, slept⟩ => ⟨second.keyWoken tid woken, slept⟩
    · obtain ⟨u, found, rests⟩ := first.calm.back tid t found
      exact Or.inr ⟨woken, u, found, (rests dozing).1⟩
  sleepers := by
    have := first.sleepers
    have := second.sleepers
    omega

theorem dozing_iff : (t.state == .blocked && !t.wakePending) = true ↔ t.dozing := by
  simp [TaskSlot.dozing]

theorem wakeSlot_woke (found : w.task tid = some t) (dozing : t.dozing) : Woke w (w.wakeSlot tid) 1 where
  calm := Kernel.wakeLocked_calm tid
  place := rfl
  news := rfl
  keyWoken other woken := by
    by_cases same : other = tid
    · subst same
      exact Function.update_self ..
    · exact (Function.update_of_ne same ..).trans woken
  marked other counted := by
    by_cases same : other = tid
    · subst same
      exact Or.inr ⟨Function.update_self .., t, found, dozing⟩
    · exact Or.inl ((Function.update_of_ne same ..).symm.trans counted)
  sleepers := by
    have counts := Table.count_insert w.kernel.tasks (fun _ t => t.state == .blocked && !t.wakePending) tid
      (Kernel.TaskSlot.woken t)
    rw [Table.weight_of_some _ found, dozing_iff.mpr dozing,
      Bool.eq_false_iff.mpr (mt dozing_iff.mp (woken_not_dozing t))] at counts
    unfold World.sleepers wakeSlot Kernel.wakeLocked
    rw [show w.kernel.tasks.lookup tid = some t from found]
    exact counts

theorem dozing_of_waitsOn (counted : w.kernel.Counted) (isKey : key ≠ .none) (found : w.task tid = some t)
    (waits : waitsOn key t = true) : t.dozing := by
  simp only [waitsOn, Bool.and_eq_true, beq_iff_eq] at waits
  refine ⟨waits.1, Bool.eq_false_iff.mpr fun pending => isKey ?_⟩
  exact waits.2.symm.trans (counted.woken tid t found pending)

theorem wakeLoop_woke (max : Nat) (isKey : key ≠ .none) (slots : List Tid) (counted : w.kernel.Counted) :
    ∃ ended, (wakeLoop key max slots w n).2 = n + ended ∧ Woke w (wakeLoop key max slots w n).1 ended ∧
      ((wakeLoop key max slots w n).2 < max → ∀ slot ∈ slots, ∀ t,
        (wakeLoop key max slots w n).1.task slot = some t → t.dozing → t.waitKey ≠ key) := by
  have refl (w : World) : Woke w w 0 := ⟨.refl _, rfl, rfl, fun _ => id, fun _ => Or.inl, rfl⟩
  induction slots generalizing w n with
  | nil => exact ⟨0, rfl, refl w, fun _ _ listed => by cases listed⟩
  | cons slot rest ih =>
    unfold wakeLoop
    split
    · rename_i full
      exact ⟨0, rfl, refl w, fun few => absurd full (Nat.ne_of_lt few)⟩
    split
    · rename_i picked
      obtain ⟨t, found, waits⟩ := (Option.any_eq_true ..).mp picked
      have woke := wakeSlot_woke found (dozing_of_waitsOn counted isKey found waits)
      obtain ⟨ended, count, later, all⟩ := ih (n := n + 1) (woke.calm.counted counted)
      refine ⟨1 + ended, by omega, woke.trans later, fun few other listed u foundU dozing => ?_⟩
      obtain rfl | listed := List.mem_cons.mp listed
      · obtain ⟨v, foundV, rests⟩ := later.calm.back other u foundU
        have lookup : (w.wakeSlot other).task other = some (Kernel.TaskSlot.woken t) := by
          unfold Placed.task wakeSlot Kernel.wakeLocked
          rw [show w.kernel.tasks.lookup other = some t from found]
          exact AList.lookup_insert ..
        cases lookup.symm.trans foundV
        exact absurd (rests dozing).1 (woken_not_dozing t)
      · exact all few other listed u foundU dozing
    · rename_i passed
      obtain ⟨ended, count, later, all⟩ := ih (n := n) counted
      refine ⟨ended, count, later, fun few other listed u foundU dozing forKey => ?_⟩
      obtain rfl | listed := List.mem_cons.mp listed
      · obtain ⟨v, foundV, rests⟩ := later.calm.back other u foundU
        obtain ⟨dozed, same⟩ := rests dozing
        refine passed ((Option.any_eq_true ..).mpr ⟨v, foundV, ?_⟩)
        simp [waitsOn, dozed.1, ← same, forKey]
      · exact all few other listed u foundU dozing forKey

theorem mem_slots (found : w.task tid = some t) : tid ∈ w.slots := by
  have listed : tid ∈ w.kernel.tasks.keys :=
    AList.mem_keys.mp (AList.lookup_isSome.mp (Option.isSome_of_eq_some found))
  have below (keys : List Tid) (listed : tid ∈ keys) : tid ≤ keys.foldr max 0 := by
    induction keys with
    | nil => cases listed
    | cons key keys ih =>
      rcases List.mem_cons.mp listed with rfl | listed
      · exact Nat.le_max_left ..
      · exact Nat.le_trans (ih listed) (Nat.le_max_right ..)
  exact List.mem_range.mpr (Nat.lt_succ_of_le (below _ listed))

theorem wakeN_woke (max : Nat) (inv : w.Inv) (isKey : key ≠ .none) : Woke w (w.wakeN key max).1 (w.wakeN key max).2 ∧
    w.kernel.waitSeq < (w.wakeN key max).1.kernel.waitSeq ∧ ((w.wakeN key max).2 < max →
      ∀ tid t, (w.wakeN key max).1.task tid = some t → t.dozing → t.waitKey ≠ key) := by
  have bump : Kernel.Calm Rests w.kernel w.kernel.bumpSeq := Kernel.bumpSeq_calm
  obtain ⟨ended, count, woke, all⟩ := wakeLoop_woke max (n := 0) isKey w.slots
    (w := { w with kernel := w.kernel.bumpSeq }) (bump.counted inv.kernel)
  rw [Nat.zero_add] at count
  refine ⟨?_, woke.calm.seq, fun few tid t found => all few tid ?_ t found⟩
  · unfold wakeN
    rw [count]
    exact ⟨bump.trans woke.calm, woke.place, woke.news, woke.keyWoken, woke.marked, woke.sleepers⟩
  · obtain ⟨u, before, _⟩ := woke.calm.back tid t found
    exact mem_slots (w := w) before

theorem Inv.woke (inv : w.Inv) (woke : Woke w w' n) : w'.Inv := by
  refine ⟨woke.calm.counted inv.kernel, fun tid => ?_⟩
  refine (inv.fit tid).rest (by rw [woke.place]) woke.calm.seq (woke.calm.back tid) (by rw [woke.news]; exact id) ?_
  intro counted
  rw [woke.place]
  obtain counted | ⟨woken, t, found, dozing⟩ := woke.marked tid counted
  · exact ((inv.fit tid).counted counted).imp_left (woke.keyWoken tid)
  · obtain ⟨c, here, _⟩ := (inv.fit tid).asleep t found dozing
    exact ⟨woken, here ▸ rfl⟩

theorem Inv.wakeAddr (inv : w.Inv) {pid addr : Nat} (stepped : w.step (.wakeAddr pid addr max) = some w') : w'.Inv := by
  obtain ⟨woke, moved, all⟩ := wakeN_woke max inv (keyAddr_ne pid addr)
  have after := inv.woke woke
  simp only [step, Option.some.injEq] at stepped
  subst stepped
  split
  · rename_i few
    refine ⟨after.kernel, fun tid => ⟨fun seq read => ?_, fun t found dozing => ?_, (after.fit tid).counted⟩⟩
    · have before : (w.place tid).seq = some seq := woke.place ▸ read
      have past := ((inv.fit tid).fresh seq before).1
      exact ⟨Nat.le_trans past (Nat.le_of_lt moved), fun same => absurd same (Nat.ne_of_lt (Nat.lt_of_le_of_lt past moved))⟩
    obtain ⟨c, here, forKey, kept⟩ := (after.fit tid).asleep t found dozing
    have other := forKey ▸ all few tid t found dozing
    have before : w.place tid = .asleep c := woke.place ▸ here
    refine ⟨c, here, forKey, ?_⟩
    have same : w.noteWake (keyAddr pid addr) tid = w.news tid := by simp [noteWake, before, Place.waits, other]
    change w.noteWake (keyAddr pid addr) tid ≠ .woken
    rw [same, ← woke.news]
    exact kept
  · exact after

theorem Inv.leave (inv : w.Inv) (runs : w.running tid = some t) (unread : place.seq = none)
    (counted : w.counted tid = true → place.countable = true) : (w.goto tid place).Inv := by
  refine inv.goto runs (fun seq read => ?_) counted
  cases unread.symm.trans read

theorem Fit.uncounted (fit : w.Fit tid) (uncountable : (w.place tid).countable = false) {p : Prop}
    (was : w.counted tid = true) : p := by
  cases uncountable.symm.trans (fit.counted was).2

theorem Inv.read (inv : w.Inv) (runs : w.running tid = some t) {c : Call} {slept copied : Bool} {seq : Nat}
    (here : w.place tid = .read c slept seq) (went : w.go tid t copied (.read c slept seq) = some w') : w'.Inv := by
  have fit := inv.fit tid
  have uncounted {p : Prop} : w.counted tid = true → p := fit.uncounted (congrArg _ here)
  simp only [World.go] at went
  split at went
  · cases went
    exact inv.leave runs rfl uncounted
  split at went
  · cases went
    exact inv.leave runs rfl uncounted
  cases went
  have reset : ({ w with news := Function.update w.news tid .none } : World).news tid = .none :=
    Function.update_self ..
  have forgot : ({ w with news := Function.update w.news tid .none } : World).Inv := by
    refine inv.same rfl rfl (fun other lost => ?_) fun other => (inv.fit other).counted
    by_cases same : other = tid
    · subst same
      cases reset.symm.trans lost
    · exact (Function.update_of_ne same ..).symm.trans lost
  refine forgot.goto runs (fun seq read => ⟨(fit.fresh seq (here ▸ read)).1, fun _ _ lost => ?_⟩) uncounted
  cases reset.symm.trans lost

theorem Inv.block (inv : w.Inv) (runs : w.running tid = some t) {c : Call} {seq : Nat} {copied : Bool}
    (here : w.place tid = .block c seq) (went : w.go tid t copied (.block c seq) = some w') : w'.Inv := by
  obtain ⟨found, running⟩ := running_task runs
  have uncounted {p : Prop} : w.counted tid = true → p := (inv.fit tid).uncounted (congrArg _ here)
  have reset : ({ w with keyWoken := Function.update w.keyWoken tid false } : World).Inv := by
    refine inv.same rfl rfl (fun _ => id) fun other was => ?_
    by_cases same : other = tid
    · subst same
      exact uncounted was
    · exact ((inv.fit other).counted was).imp_left ((Function.update_of_ne same ..).trans ·)
  cases went
  cases blocks : w.kernel.blocks seq c.deadline w.now with
  | false =>
    simp only [Kernel.blockUntil, blocks, Bool.false_eq_true, if_false]
    exact reset.leave runs rfl uncounted
  | true =>
    have tasks := Sleep.World.blockUntil_lookup c.key found blocks
    have unmoved : seq = w.kernel.waitSeq := by
      simp only [Kernel.blocks, Bool.and_eq_true, beq_iff_eq] at blocks
      exact blocks.1.symm
    refine reset.move (Sleep.World.blockUntil_counted inv.kernel found running blocks)
      Sleep.World.blockUntil_waitSeq (fun other apart => ?_)
      ⟨fun seq read => ?_, fun u foundU _ => ⟨c, place_goto, ?_, ?_⟩, uncounted⟩
    · rw [tasks, AList.lookup_insert_ne apart]
      rfl
    · rw [place_goto] at read
      cases read
    · have lookup : (w.kernel.blockUntil tid c.key seq c.deadline w.now).tasks.lookup tid = some u := foundU
      rw [tasks, AList.lookup_insert] at lookup
      cases lookup
      rfl
    · exact ((inv.fit tid).fresh seq (by rw [here]; rfl)).2 unmoved (by simp [here, Place.waits])

theorem Inv.go (inv : w.Inv) (runs : w.running tid = some t) {copied : Bool} (met : w.meets (.go tid copied) = true)
    (went : w.go tid t copied (w.place tid) = some w') : w'.Inv := by
  have fit := inv.fit tid
  have fresh := fit.fresh
  cases here : w.place tid with
  | idle =>
    rw [here] at went
    cases went
  | top c slept =>
    rw [here] at went
    cases went
    refine inv.goto runs (fun seq read => ?_) (fit.uncounted (congrArg _ here))
    cases read
    exact ⟨le_rfl, fun _ waits => absurd rfl waits⟩
  | read c slept seq =>
    rw [here] at went
    exact inv.read runs here went
  | signals c seq | clock c seq =>
    rw [here] at went fresh
    cases went
    split
    · exact inv.leave runs rfl (fit.uncounted (congrArg _ here))
    · exact inv.goto runs fresh (fit.uncounted (congrArg _ here))
  | block c seq =>
    rw [here] at went
    exact inv.block runs here went
  | asleep c | done outcome =>
    rw [here] at went
    cases went
    exact inv.leave runs rfl fun _ => rfl
  | took c =>
    rw [here] at went
    cases went
    cases woken : w.keyWoken tid with
    | true => exact inv.leave runs rfl fun _ => rfl
    | false =>
      refine inv.leave runs rfl fun was => ?_
      cases woken.symm.trans (fit.counted was).1
  | acted c =>
    rw [here] at went
    cases went
    simp only [meets, here, show w.task tid = some t from (running_task runs).1, Option.all_some,
      Bool.not_eq_true'] at met
    rw [met]
    exact inv.leave runs rfl fun _ => rfl

theorem Inv.wait (inv : w.Inv) {addr deadline : Nat} {expected : BitVec 32} {bufferOk : Bool}
    (stepped : w.step (.wait tid addr expected deadline bufferOk) = some w') : w'.Inv := by
  refine mapped stepped fun t picked => ?_
  obtain ⟨runs, _⟩ := Option.filter_eq_some_iff.mp picked
  have reset : ({ w with counted := Function.update w.counted tid false } : World).counted tid = false :=
    Function.update_self ..
  have begun : ({ w with counted := Function.update w.counted tid false } : World).Inv := by
    refine inv.same rfl rfl (fun _ => id) fun other was => ?_
    by_cases same : other = tid
    · subst same
      cases reset.symm.trans was
    · exact (inv.fit other).counted ((Function.update_of_ne same ..).symm.trans was)
  refine begun.leave runs ?_ fun was => ?_
  · split <;> rfl
  · cases reset.symm.trans was

theorem Inv.step (inv : w.Inv) {event : Event} (met : w.meets event = true) (stepped : w.step event = some w') :
    w'.Inv := by
  cases event with
  | wait tid addr expected deadline bufferOk => exact inv.wait stepped
  | go tid copied =>
    obtain ⟨t, runs, went⟩ := Option.bind_eq_some_iff.mp stepped
    exact inv.go runs met went
  | store pid addr value =>
    cases stepped
    refine inv.same rfl rfl (fun tid lost => ?_) fun tid => (inv.fit tid).counted
    change w.noteStore pid addr value tid = .woken at lost
    unfold noteStore at lost
    split at lost
    · split at lost
      · cases lost
      · exact lost
    · exact lost
  | wakeAddr pid addr max => exact inv.wakeAddr stepped
  | send id sig =>
    cases stepped
    exact inv.calm (Kernel.signalSend_calm id fun _ dozing => ⟨dozing, rfl⟩)
  | sigprocmask tid mask =>
    cases stepped
    exact inv.calm (Kernel.signalSetBlockedMask_calm ..)
  | sigaction tid sig handler flags mask tramp =>
    cases stepped
    exact inv.calm (Kernel.signalSetAction_calm ..)
  | deliver tid =>
    cases stepped
    exact inv.calm (Kernel.signalNext_calm fun _ _ _ _ dozing => ⟨dozing, rfl⟩)
  | wakeElse =>
    cases stepped
    exact inv.calm Kernel.bumpSeq_calm
  | advance ns =>
    cases stepped
    exact inv.same rfl rfl (fun _ => id) fun tid => (inv.fit tid).counted
  | expire tid =>
    exact mapped stepped fun t _ => inv.calm (Kernel.wakeTaskLocked_calm tid)
  | switch tid how =>
    exact mapped stepped fun _ switched => inv.calm (Kernel.switch_calm switched (fun _ _ dozing => nomatch dozing.1)
      (fun _ dozing => ⟨dozing, rfl⟩) fun t => rests_of_dozes (finishSwitch_dozes t))

theorem boot_inv (booted : w.Boot) : w.Inv := by
  obtain ⟨any, awake, idle⟩ := booted
  refine ⟨⟨?_, fun tid t found pending => ?_⟩, fun tid => ⟨fun seq read => ?_, fun t found dozing => ?_, fun was => ?_⟩⟩
  · refine any.trans (Table.count_eq_zero_iff.mpr fun tid t found => ?_).symm
    simp [Kernel.isAnyWaiter, (awake tid t found).1]
  · cases pending.symm.trans (awake tid t found).2
  · rw [(idle tid).1] at read
    cases read
  · exact absurd dozing.1 (awake tid t found).1
  · cases (idle tid).2.symm.trans was

theorem reach_addrSound (w : World) (reachable : system.Reach (fun w event => w.meets event = true) w) : w.Sound := by
  have inv : w.Inv := reachable.invariant (fun _ => boot_inv) fun _ _ _ inv met stepped => inv.step met stepped
  refine ⟨fun tid t found dozing => ?_, fun pid addr max => ?_, fun tid outcome here counted => ?_⟩
  · obtain ⟨_, _, _, kept⟩ := (inv.fit tid).asleep t found dozing
    exact kept
  · exact (wakeN_woke max inv (keyAddr_ne pid addr)).1.sleepers
  have countable := ((inv.fit tid).counted counted).2
  rw [here] at countable
  cases outcome with
  | woken => rfl
  | changed | timedOut | interrupted | fault => cases countable

def pair : World :=
  ⟨⟨⟨(∅ : Table Tid TaskSlot).insert 1 ⟨.running, 64, 1, 0, 0, none, .none, 0, false, false⟩ |>.insert 2
    ⟨.running, 64, 1, 0, 0, none, .none, 0, false, false⟩, ∅, 0, 0⟩, fun _ => .idle⟩, fun _ => false, fun _ _ => 0, 0,
    fun _ => false, fun _ => .none⟩

theorem pair_boot : pair.Boot := by
  refine ⟨rfl, fun tid t found => ?_, fun _ => ⟨rfl, rfl⟩⟩
  by_cases isSecond : tid = 2
  · subst isSecond
    cases found
    exact ⟨State.noConfusion, rfl⟩
  by_cases isFirst : tid = 1
  · subst isFirst
    cases found
    exact ⟨State.noConfusion, rfl⟩
  · have lookup := (AList.lookup_insert_ne isSecond).symm.trans found
    rw [AList.lookup_insert_ne isFirst] at lookup
    cases lookup

def sleepsOn (tid : Tid) : List Event :=
  .wait tid 4096 0 0 true :: List.replicate 5 (.go tid true)

theorem reach_addrSound_wake : ∃ w, system.Reach (fun w event => w.meets event = true) w ∧ w.Sound ∧
    w.place 1 = .done .woken ∧ w.counted 1 = true := by
  have booted : system.Reach (fun w event => w.meets event = true) pair := .start pair_boot
  have reached := booted.runMeeting
    (sleepsOn 1 ++ [.store 1 4096 1, .wakeAddr 1 4096 1, .switch 1 .dispatch, .go 1 true, .go 1 true, .go 1 true]) rfl
  exact ⟨_, reached, reach_addrSound _ reached, rfl, rfl⟩

/-- Both threads sleep; the wake of one is spent on the first, which a signal then ends. -/
theorem signal_takes_wake : ¬ ∀ w, system.Reach System.Any w → w.Sound := by
  intro sound
  have booted : system.Reach System.Any pair := .start pair_boot
  have reached := booted.run (sleepsOn 1 ++ sleepsOn 2 ++
    [.store 1 4096 1, .wakeAddr 1 4096 1, .send 1 15, .switch 1 .dispatch, .go 1 true, .go 1 true, .go 1 true]) rfl
  have woken := (sound _ reached).counted 1 .interrupted rfl rfl
  cases woken

end World
end Myos.Task.AddrWaits
