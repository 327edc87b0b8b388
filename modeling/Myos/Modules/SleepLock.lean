import Myos.Lib.System
import Myos.Lib.Table

namespace Myos.Modules.SleepLocks
open Lib

inductive Design
  | sleepLock
  | tree
deriving DecidableEq

inductive Kind
  | read
  | write
deriving DecidableEq

/-- Where a request for the lock is; `seen` is the wait sequence, read once the wait is announced and before
the second try. -/
inductive Phase
  | trying (seen : Option Nat)
  -- `try_read` has counted itself and found a writer
  | undoing (seen : Option Nat)
  | announcing
  | announced
  | blocking (seen : Nat)
  | asleep
  | woken
  -- the second try got the lock: the wait is still announced
  | got
  -- `TREE_WRITER` is to be set, or is cleared and the lock is still held
  | owning
  | holding
  | dropping
  -- the lock is released, and the waiters are to be looked at
  | checking
  | waking
deriving DecidableEq

namespace Phase

def holds : Phase → Bool
  | got | owning | holding | dropping => true
  | _ => false

def waits : Phase → Bool
  | trying seen | undoing seen => seen.isSome
  | announced | blocking _ | asleep | woken | got => true
  | _ => false

def seen : Phase → Option Nat
  | trying seen | undoing seen => seen
  | blocking seen => some seen
  | _ => none

def Pledges (p : Phase) : Prop := p.holds = true ∨ p = checking ∨ p = waking

def failed : Option Nat → Phase
  | none => announcing
  | some seen => blocking seen

def roused : Phase → Phase
  | asleep => woken
  | phase => phase

end Phase

structure Request where
  owner : Nat
  kind : Kind
  phase : Phase

namespace Request

variable (r : Request)

def writes : Bool := r.phase.holds && r.kind == .write

def reads : Bool := r.phase.holds && r.kind == .read

def shares : Bool := r.reads || match r.phase with
  | .undoing _ => true
  | _ => false

def roused : Request := { r with phase := r.phase.roused }

end Request

structure State where
  design : Design
  writer : Bool
  readers : Nat
  waiters : Nat
  treeWriter : Option Nat
  seq : Nat
  requests : Table Nat Request

inductive Event
  -- `lock`, `hold_read` or `hold_write`
  | ask (id owner : Nat) (kind : Kind)
  | tryLock (id owner : Nat)
  | next (id : Nat)
  -- `block_until` returns for another reason: a signal, or no preemption yet
  | rouse (id : Nat)
  -- a wake of something else
  | bump

namespace State

variable (s : State)

def put (id : Nat) (r : Option Request) : State := { s with requests := s.requests.put id r }

def go (id : Nat) (r : Request) (phase : Phase) : State := s.put id (some { r with phase })

def asked (id owner : Nat) (kind : Kind) : State := s.put id (some ⟨owner, kind, .trying none⟩)

def won (kind : Kind) : Phase := if s.design = .tree ∧ kind = .write then .owning else .holding

def taken (kind : Kind) (seen : Option Nat) : Phase := if seen.isSome then .got else s.won kind

def attempt (id : Nat) (r : Request) (seen : Option Nat) : State :=
  match r.kind with
  | .write =>
    if s.writer = false ∧ s.readers = 0 then { s with writer := true }.go id r (s.taken .write seen)
    else s.go id r (.failed seen)
  | .read => { s with readers := s.readers + 1 }.go id r (if s.writer then .undoing seen else s.taken .read seen)

def release (id : Nat) (r : Request) : State :=
  match r.kind with
  | .write => { s with writer := false }.go id r .checking
  | .read => { s with readers := s.readers - 1 }.go id r .checking

def wake : State := { s with seq := s.seq + 1, requests := s.requests.mapValues Request.roused }

def next (id : Nat) (r : Request) : Option State :=
  match r.phase with
  | .trying seen => some (s.attempt id r seen)
  | .undoing seen => some ({ s with readers := s.readers - 1 }.go id r (.failed seen))
  | .announcing => some ({ s with waiters := s.waiters + 1 }.go id r .announced)
  | .announced => some (s.go id r (.trying (some s.seq)))
  | .blocking seen => some (s.go id r (if seen = s.seq then .asleep else .woken))
  | .asleep => none
  | .woken => some ({ s with waiters := s.waiters - 1 }.go id r (.trying none))
  | .got => some ({ s with waiters := s.waiters - 1 }.go id r (s.won r.kind))
  | .owning => some ({ s with treeWriter := some r.owner }.go id r .holding)
  | .holding =>
    some (if s.design = .tree ∧ r.kind = .write then { s with treeWriter := none }.go id r .dropping else s.release id r)
  | .dropping => some (s.release id r)
  | .checking => some (if s.waiters ≠ 0 then s.go id r .waking else s.put id none)
  | .waking => some (s.wake.put id none)

def step : Event → Option State
  | .ask id owner kind =>
    if s.requests.lookup id = none ∧ (s.design = .sleepLock → kind = .write) then
      -- the task that writes passes
      some (if s.treeWriter = some owner then s else s.asked id owner kind)
    else none
  | .tryLock id owner =>
    if s.requests.lookup id = none ∧ s.design = .sleepLock then
      some (if s.writer = false ∧ s.readers = 0 then s.asked id owner .write |>.attempt id
        ⟨owner, .write, .trying none⟩ none else s)
    else none
  | .next id => (s.requests.lookup id).bind (s.next id)
  | .rouse id => (s.requests.lookup id).bind fun r =>
    match r.phase with
    | .asleep | .blocking _ => some (s.go id r .woken)
    | _ => none
  | .bump => some { s with seq := s.seq + 1 }

def Start : Prop := s.writer = false ∧ s.readers = 0 ∧ s.waiters = 0 ∧ s.treeWriter = none ∧ s.requests = ∅

def system : System State Event := ⟨Start, step⟩

def Alert (seq : Nat) : Phase → Prop
  | .asleep => False
  | .blocking seen | .undoing (some seen) => seen ≠ seq
  | _ => True

structure Sound (s : State) : Prop where
  exclusive : ∀ id r id' r', s.requests.lookup id = some r → r.writes = true → s.requests.lookup id' = some r' →
    r'.phase.holds = true → id' = id
  nested : s.design = .tree → ∀ owner, s.treeWriter = some owner ↔
    ∃ id r, s.requests.lookup id = some r ∧ r = ⟨owner, .write, .holding⟩
  awake : ∀ id r, s.requests.lookup id = some r → r.phase = .asleep →
    ∃ id' r', s.requests.lookup id' = some r' ∧ Alert s.seq r'.phase ∧ (r'.phase = .checking → s.waiters ≠ 0)

structure Counts (s : State) : Prop where
  readers : s.readers = s.requests.count fun _ r => r.shares
  writer : s.writer.toNat = s.requests.count fun _ r => r.writes
  waiters : s.waiters = s.requests.count fun _ r => r.phase.waits

abbrev Has (s : State) (id : Nat) (r : Request) : Prop := s.requests.lookup id = some r

def Pledged (s : State) : Prop := ∃ id r, s.Has id r ∧ r.phase.Pledges

structure Fits (s : State) (r : Request) : Prop where
  alone : s.writer = true → r.reads = false
  owning : r.phase = .owning → s.design = .tree ∧ r.kind = .write
  past : ∀ seen, r.phase.seen = some seen → seen ≤ s.seq
  pledged : r.phase = .undoing (some s.seq) → s.Pledged

def Nested (s : State) : Prop := ∀ owner, s.treeWriter = some owner ↔ s.design = .tree ∧ ∃ id, s.Has id ⟨owner, .write, .holding⟩

structure Inv (s : State) : Prop where
  counts : s.Counts
  nested : s.Nested
  fits : ∀ id r, s.Has id r → s.Fits r
  alert : ∀ id r, s.Has id r → ∃ id' r', s.Has id' r' ∧ Alert s.seq r'.phase

abbrev words (s : State) (writer : Bool) (readers waiters : Nat) (treeWriter : Option Nat) : State :=
  { s with writer, readers, waiters, treeWriter }

variable {s t : State} {id id' : Nat} {r r' : Request} {phase : Phase} {o : Option Request} {wr : Bool} {rd wt : Nat}
  {tw : Option Nat}

theorem Alert.ofPledge {seq : Nat} (pledges : phase.Pledges) : Alert seq phase := by
  rcases pledges with holds | rfl | rfl
  · cases phase <;> trivial
  · trivial
  · trivial

theorem Alert.ofNotWaiting {seq : Nat} (calm : phase.waits = false) : Alert seq phase := by
  cases phase with
  | undoing seen =>
    cases seen with
    | none => trivial
    | some seen => cases calm
  | blocking | asleep => cases calm
  | _ => trivial

theorem Fits.alert (fits : s.Fits r) (awake : r.phase ≠ .asleep) : Alert (s.seq + 1) r.phase := by
  have early {seen : Nat} (isSeen : r.phase.seen = some seen) : seen ≠ s.seq + 1 :=
    Nat.ne_of_lt (Nat.lt_succ_of_le (fits.past seen isSeen))
  obtain ⟨owner, kind, phase⟩ := r
  cases phase with
  | undoing seen =>
    cases seen with
    | none => trivial
    | some seen => exact early rfl
  | blocking seen => exact early rfl
  | asleep => exact absurd rfl awake
  | _ => trivial

theorem Fits.mono (fits : s.Fits r) (alone : t.writer = true → r.reads = false) (design : t.design = s.design)
    (seq : s.seq ≤ t.seq)
    (pledged : r.phase = .undoing (some t.seq) → t.Pledged) : t.Fits r :=
  ⟨alone, design ▸ fits.owning, fun seen isSeen => Nat.le_trans (fits.past seen isSeen) seq, pledged⟩

def adds (pick : Request → Bool) (o : Option Request) : Nat := (o.map fun r => (pick r).toNat).getD 0

theorem Counts.put (counts : s.Counts) (before : Option Request) (found : s.requests.lookup id = before)
    (readers : rd + adds Request.shares before = s.readers + adds Request.shares o)
    (writer : wr.toNat + adds Request.writes before = s.writer.toNat + adds Request.writes o)
    (waiters : wt + adds (·.phase.waits) before = s.waiters + adds (·.phase.waits) o) :
    ((s.words wr rd wt tw).put id o).Counts := by
  have moved (pick : Request → Bool) {n m : Nat} (count : n = s.requests.count fun _ => pick)
      (moves : m + adds pick before = n + adds pick o) : m = (s.requests.put id o).count fun _ => pick := by
    have put := Table.count_put s.requests (fun _ => pick) id o
    have weight : s.requests.weight (fun _ => pick) id = adds pick before := by rw [Table.weight, found, adds]
    change _ = _ + adds pick o at put
    omega
  exact ⟨moved _ counts.readers readers, moved _ counts.writer writer, moved (·.phase.waits) counts.waiters waiters⟩

theorem Counts.holder (counts : s.Counts) (isWriter : s.writer = true) :
    ∃ id r, s.requests.lookup id = some r ∧ r.writes = true := by
  have positive : 0 < s.requests.count fun _ r => r.writes := by rw [← counts.writer, isWriter]; decide
  exact Table.count_pos_iff.mp positive

theorem Counts.writing (counts : s.Counts) (found : s.Has id r) (writes : r.writes = true) : s.writer = true := by
  have positive : 0 < s.requests.count fun _ r => r.writes := Table.count_pos_iff.mpr ⟨id, r, found, writes⟩
  rw [← counts.writer] at positive
  cases isWriter : s.writer with
  | true => rfl
  | false => simp [isWriter] at positive

theorem Counts.one (counts : s.Counts) (found : s.Has id r) (writes : r.writes = true)
    (found' : s.Has id' r') (writes' : r'.writes = true) : id' = id :=
  Table.eq_of_count_le_one (counts.writer ▸ Bool.toNat_le _) found writes found' writes'

theorem Nested.put (nested : s.Nested) (before : ∀ owner, s.design = .tree → ¬ s.Has id ⟨owner, .write, .holding⟩)
    (after : ∀ owner, s.design = .tree → o ≠ some ⟨owner, .write, .holding⟩) :
    ((s.words wr rd wt s.treeWriter).put id o).Nested := by
  intro owner
  refine (nested owner).trans (and_congr_right fun isTree => exists_congr fun id' => ⟨fun found => ?_, fun found => ?_⟩)
  · refine (Table.lookup_put_ne ?_ o).trans found
    rintro rfl
    exact before owner isTree found
  · rcases Table.lookup_put_some found with ⟨_, held⟩ | ⟨_, old⟩
    · exact absurd held (after owner isTree)
    · exact old

theorem Inv.put (inv : s.Inv) (counts : ((s.words wr rd wt tw).put id o).Counts)
    (nested : ((s.words wr rd wt tw).put id o).Nested)
    (alone : wr = true → ∀ id r, s.Has id r → r.reads = false)
    (pledged : (∃ id' r', id' ≠ id ∧ s.Has id' r' ∧ r'.phase = .undoing (some s.seq)) → ((s.words wr rd wt tw).put id o).Pledged)
    (fits : ∀ r, o = some r → ((s.words wr rd wt tw).put id o).Fits r)
    (alert : ∀ id₁ r₁, ((s.words wr rd wt tw).put id o).Has id₁ r₁ →
      ∃ id' r', ((s.words wr rd wt tw).put id o).Has id' r' ∧ Alert s.seq r'.phase) : ((s.words wr rd wt tw).put id o).Inv := by
  refine ⟨counts, nested, fun id' r' found => ?_, alert⟩
  rcases Table.lookup_put_some found with ⟨_, new⟩ | ⟨apart, old⟩
  · exact fits r' new
  · exact (inv.fits id' r' old).mono (fun isWriter => alone isWriter id' r' old) rfl le_rfl fun undoing =>
      pledged ⟨id', r', apart, old, undoing⟩

theorem Inv.go (inv : s.Inv) (found : s.Has id r) (counts : ((s.words wr rd wt tw).go id r phase).Counts)
    (nested : ((s.words wr rd wt tw).go id r phase).Nested)
    (alone : wr = true → Request.reads { r with phase } = false ∧ ∀ id r, s.Has id r → r.reads = false)
    (owning : phase = .owning → s.design = .tree ∧ r.kind = .write)
    (past : ∀ seen, phase.seen = some seen → seen ≤ s.seq) (keeps : r.phase.Pledges → phase.Pledges)
    (new : phase = .undoing (some s.seq) → s.writer = true)
    (alert : Alert s.seq phase ∨ ∃ id' r', id' ≠ id ∧ s.Has id' r' ∧ Alert s.seq r'.phase) :
    ((s.words wr rd wt tw).go id r phase).Inv := by
  have here : ((s.words wr rd wt tw).go id r phase).Has id { r with phase } := Table.lookup_put ..
  have there {id' : Nat} {r' : Request} (apart : id' ≠ id) (isFound : s.Has id' r') :
      ((s.words wr rd wt tw).go id r phase).Has id' r' := (Table.lookup_put_ne apart _).trans isFound
  have pledge {id' : Nat} {r' : Request} (isFound : s.Has id' r') (pledges : r'.phase.Pledges) :
      ((s.words wr rd wt tw).go id r phase).Pledged := by
    by_cases same : id' = id
    · subst same
      cases found.symm.trans isFound
      exact ⟨id', _, here, keeps pledges⟩
    · exact ⟨id', r', there same isFound, pledges⟩
  refine inv.put counts nested (fun isWriter => (alone isWriter).2) ?_ ?_ ?_
  · rintro ⟨id', r', _, isFound, undoing⟩
    obtain ⟨id₁, r₁, isPledge, pledges⟩ := (inv.fits id' r' isFound).pledged undoing
    exact pledge isPledge pledges
  · rintro _ ⟨⟩
    refine ⟨fun isWriter => (alone isWriter).1, owning, past, fun undoing => ?_⟩
    obtain ⟨id₁, r₁, holder, writes⟩ := inv.counts.holder (new undoing)
    exact pledge holder (.inl ((Bool.and_eq_true ..).mp writes).1)
  · intro _ _ _
    rcases alert with self | ⟨id', r', apart, isFound, isAlert⟩
    · exact ⟨id, _, here, self⟩
    · exact ⟨id', r', there apart isFound, isAlert⟩

theorem Inv.pass (inv : s.Inv) (found : s.Has id r)
    (readers : rd + r.shares.toNat = s.readers + (Request.shares { r with phase }).toNat)
    (waiters : wt + r.phase.waits.toNat = s.waiters + phase.waits.toNat) (before : ¬ r.phase.Pledges)
    (after : phase.holds = false)
    (past : ∀ seen, phase.seen = some seen → seen ≤ s.seq) (new : phase = .undoing (some s.seq) → s.writer = true)
    (alert : Alert s.seq phase ∨ ∃ id' r', id' ≠ id ∧ s.Has id' r' ∧ Alert s.seq r'.phase) :
    ((s.words s.writer rd wt s.treeWriter).go id r phase).Inv := by
  have free : r.phase.holds = false := Bool.eq_false_iff.mpr fun holds => before (.inl holds)
  refine inv.go found (inv.counts.put _ found readers ?_ waiters)
    (inv.nested.put (fun owner _ isFound => ?_) fun owner _ isHeld => ?_)
    (fun isWriter => ⟨?_, fun id' r' isFound => (inv.fits id' r' isFound).alone isWriter⟩) (fun owning => ?_) past
    (fun pledges => absurd pledges before) new alert
  · simp [adds, Request.writes, free, after]
  · cases found.symm.trans isFound
    cases free
  · have held := congrArg Request.phase (Option.some.inj isHeld)
    cases (congrArg Phase.holds held).symm.trans after
  · rw [Request.reads, after, Bool.false_and]
  · rw [owning] at after
    cases after

theorem not_pledges (free : phase.holds = false) (checking : phase ≠ .checking) (waking : phase ≠ .waking) : ¬ phase.Pledges := by
  rintro (holds | rfl | rfl)
  · rw [free] at holds
    cases holds
  · exact checking rfl
  · exact waking rfl

theorem Inv.others (inv : s.Inv) (found : s.Has id r) (still : ¬ Alert s.seq r.phase) :
    ∃ id' r', id' ≠ id ∧ s.Has id' r' ∧ Alert s.seq r'.phase := by
  obtain ⟨id', r', isFound, alert⟩ := inv.alert id r found
  refine ⟨id', r', ?_, isFound, alert⟩
  rintro rfl
  cases found.symm.trans isFound
  exact still alert

theorem pledge_other (found : s.Has id r) (before : ¬ r.phase.Pledges)
    (isFound : s.Has id' r') (pledges : r'.phase.Pledges) :
    ∃ id' r', id' ≠ id ∧ s.Has id' r' ∧ Alert s.seq r'.phase := by
  refine ⟨id', r', ?_, isFound, .ofPledge pledges⟩
  rintro rfl
  cases found.symm.trans isFound
  exact before pledges

theorem Inv.busy (inv : s.Inv) (found : s.Has id r) (before : ¬ r.phase.Pledges) (unshared : r.shares = false)
    (busy : ¬(s.writer = false ∧ s.readers = 0)) :
    ∃ id' r', id' ≠ id ∧ s.Has id' r' ∧ Alert s.seq r'.phase := by
  by_cases isWriter : s.writer = true
  · obtain ⟨id', r', holder, writes⟩ := inv.counts.holder isWriter
    exact pledge_other found before holder (.inl ((Bool.and_eq_true ..).mp writes).1)
  have positive : 0 < s.requests.count fun _ r => r.shares := by
    rw [← inv.counts.readers]
    exact Nat.pos_of_ne_zero fun missing => busy ⟨Bool.eq_false_iff.mpr isWriter, missing⟩
  obtain ⟨id', r', isFound, shares⟩ := Table.count_pos_iff.mp positive
  by_cases alert : Alert s.seq r'.phase
  · refine ⟨id', r', ?_, isFound, alert⟩
    rintro rfl
    cases found.symm.trans isFound
    cases unshared.symm.trans shares
  -- it is about to take its count back, and saw a writer that is to wake
  cases isPhase : r'.phase with
  | undoing seen =>
    cases seen with
    | none =>
      rw [isPhase] at alert
      exact absurd trivial alert
    | some seen =>
      rw [isPhase] at alert
      have current : seen = s.seq := not_not.mp alert
      obtain ⟨id₁, r₁, isPledge, pledges⟩ := (inv.fits id' r' isFound).pledged (current ▸ isPhase)
      exact pledge_other found before isPledge pledges
  | _ =>
    rw [isPhase] at alert
    first
    | exact absurd trivial alert
    | simp [Request.shares, Request.reads, isPhase, Phase.holds] at shares

theorem holds_seen (holds : phase.holds = true) : phase.seen = none := by
  cases phase <;> trivial

theorem reads_of_holds (holds : r.phase.holds = true) : r.reads = (r.kind == .read) := by
  rw [Request.reads, holds, Bool.true_and]

theorem writes_of_holds (holds : r.phase.holds = true) : r.writes = (r.kind == .write) := by
  rw [Request.writes, holds, Bool.true_and]

theorem shares_of_holds (holds : r.phase.holds = true) : r.shares = (r.kind == .read) := by
  rw [Request.shares, reads_of_holds holds]
  cases isPhase : r.phase with
  | undoing seen =>
    rw [isPhase] at holds
    cases holds
  | _ => exact Bool.or_false _

theorem Counts.waited (counts : s.Counts) (found : s.Has id r) (waits : r.phase.waits = true) : 0 < s.waiters := by
  rw [counts.waiters]
  exact Table.count_pos_iff.mpr ⟨id, r, found, waits⟩

theorem Counts.shared (counts : s.Counts) (found : s.Has id r) (shares : r.shares = true) : 0 < s.readers := by
  rw [counts.readers]
  exact Table.count_pos_iff.mpr ⟨id, r, found, shares⟩

theorem taken_spec (s : State) (kind : Kind) (seen : Option Nat) : (s.taken kind seen).holds = true ∧
    (s.taken kind seen).waits = seen.isSome ∧ (s.design = .tree → kind = .write → s.taken kind seen ≠ .holding) ∧
    (s.taken kind seen = .owning → s.design = .tree ∧ kind = .write) := by
  cases seen with
  | some seen => exact ⟨rfl, rfl, fun _ _ => nofun, nofun⟩
  | none =>
    simp only [taken, Option.isSome_none, Bool.false_eq_true, if_false, won]
    split
    next held => exact ⟨rfl, rfl, fun _ _ => nofun, fun _ => held⟩
    next other => exact ⟨rfl, rfl, fun tree write => absurd ⟨tree, write⟩ other, nofun⟩

variable (inv : s.Inv)
include inv

theorem Inv.hold (found : s.Has id r) (counts : ((s.words wr rd wt tw).go id r phase).Counts)
    (nested : ((s.words wr rd wt tw).go id r phase).Nested) (holds : phase.holds = true)
    (alone : wr = true → (r.kind == .read) = false ∧ ∀ id r, s.Has id r → r.reads = false)
    (owning : phase = .owning → s.design = .tree ∧ r.kind = .write) : ((s.words wr rd wt tw).go id r phase).Inv := by
  refine inv.go found counts nested (fun isWriter => ⟨?_, (alone isWriter).2⟩) owning (fun seen isSeen => ?_)
    (fun _ => .inl holds) (fun undoing => ?_) (.inl (.ofPledge (.inl holds)))
  · exact (reads_of_holds (r := { r with phase }) holds).trans (alone isWriter).1
  · rw [holds_seen holds] at isSeen
    cases isSeen
  · rw [undoing] at holds
    cases holds

omit inv in
theorem Nested.go (nested : s.Nested) (found : s.Has id r) (before : s.design = .tree → r.kind = .write → r.phase ≠ .holding)
    (after : s.design = .tree → r.kind = .write → phase ≠ .holding) : ((s.words wr rd wt s.treeWriter).go id r phase).Nested := by
  refine nested.put (fun owner tree isFound => ?_) fun owner tree isHeld => ?_
  · cases found.symm.trans isFound
    exact before tree rfl rfl
  · have held := Option.some.inj isHeld
    exact after tree (congrArg Request.kind held) (congrArg Request.phase held)

theorem Inv.attempt {owner : Nat} {kind : Kind} {seen : Option Nat}
    (found : s.requests.lookup id = some ⟨owner, kind, .trying seen⟩) : (s.attempt id ⟨owner, kind, .trying seen⟩ seen).Inv := by
  obtain ⟨holds, waits, nested, owning⟩ := s.taken_spec kind seen
  have waiters : s.waiters + seen.isSome.toNat = s.waiters + (s.taken kind seen).waits.toNat := by rw [waits]
  have idle : ¬ (Phase.trying seen).Pledges := not_pledges rfl nofun nofun
  have shares : Request.shares ⟨owner, kind, s.taken kind seen⟩ = (kind == .read) := shares_of_holds holds
  have writes : Request.writes ⟨owner, kind, s.taken kind seen⟩ = (kind == .write) := writes_of_holds holds
  unfold State.attempt
  cases kind with
  | write =>
    dsimp only
    split
    next free =>
      refine inv.hold found (inv.counts.put _ found ?_ ?_ waiters)
        (inv.nested.go found (fun _ _ => nofun) nested) holds (fun _ => ⟨rfl, fun id' r' isFound => ?_⟩) owning
      · exact congrArg (s.readers + Bool.toNat ·) shares.symm
      · dsimp only [adds, Option.map_some, Option.getD_some]
        rw [writes, free.1]
        rfl
      · have missing := Table.count_eq_zero_iff.mp (inv.counts.readers.symm.trans free.2) id' r' isFound
        exact ((Bool.or_eq_false_iff ..).mp missing).1
    next busy =>
      have others := inv.busy found idle rfl busy
      cases seen with
      | none => exact inv.pass found rfl rfl idle rfl nofun nofun (.inl trivial)
      | some seen =>
        exact inv.pass found rfl rfl idle rfl (inv.fits id _ found).past nofun
          (.inr others)
  | read =>
    dsimp only
    split
    next isWriter =>
      refine inv.pass found rfl rfl idle rfl (inv.fits id _ found).past (fun _ => isWriter)
        (.inr (inv.busy found idle rfl fun free => ?_))
      rw [isWriter] at free
      cases free.1
    next isFree =>
      refine inv.hold found (inv.counts.put _ found ?_ ?_ waiters)
        (inv.nested.go found (fun _ _ => nofun) nested) holds (fun isWriter => absurd isWriter isFree) owning
      · exact congrArg (s.readers + Bool.toNat ·) shares.symm
      · exact congrArg (s.writer.toNat + Bool.toNat ·) writes.symm

theorem Inv.stay (found : s.Has id r) (before : r.phase.holds = true) (after : phase.holds = true)
    (waiters : wt + r.phase.waits.toNat = s.waiters + phase.waits.toNat)
    (nested : ((s.words s.writer s.readers wt tw).go id r phase).Nested)
    (owning : phase = .owning → s.design = .tree ∧ r.kind = .write) : ((s.words s.writer s.readers wt tw).go id r phase).Inv := by
  refine inv.hold found (inv.counts.put _ found ?_ ?_ waiters) nested after (fun isWriter => ?_) owning
  · dsimp only [adds, Option.map_some, Option.getD_some]
    rw [shares_of_holds before, shares_of_holds (r := { r with phase }) after]
  · dsimp only [adds, Option.map_some, Option.getD_some]
    rw [writes_of_holds before, writes_of_holds (r := { r with phase }) after]
  · have alone (id' : Nat) (r' : Request) (isFound : s.Has id' r') := (inv.fits id' r' isFound).alone isWriter
    exact ⟨(reads_of_holds before).symm.trans (alone id r found), alone⟩

theorem Inv.release (found : s.Has id r) (holds : r.phase.holds = true) (calm : r.phase.waits = false)
    (before : s.design = .tree → r.kind = .write → r.phase ≠ .holding) : (s.release id r).Inv := by
  have waiters : s.waiters + r.phase.waits.toNat = s.waiters + Phase.checking.waits.toNat := by rw [calm]; rfl
  have reads := reads_of_holds holds
  have writes := writes_of_holds holds
  have shares := shares_of_holds holds
  unfold State.release
  cases isKind : r.kind with
  | write =>
    rw [isKind] at writes shares
    have isWriter := inv.counts.writing found writes
    refine inv.go found (inv.counts.put _ found ?_ ?_ waiters) (inv.nested.go found before fun _ _ => nofun)
      nofun nofun nofun (fun _ => .inr (.inl rfl)) nofun (.inl trivial)
    · exact congrArg (s.readers + Bool.toNat ·) shares
    · dsimp only [adds, Option.map_some, Option.getD_some]
      rw [writes, isWriter]
      rfl
  | read =>
    rw [isKind] at reads writes shares
    have positive := inv.counts.shared found shares
    refine inv.go found (inv.counts.put _ found ?_ ?_ waiters) (inv.nested.go found before fun _ _ => nofun)
      (fun isWriter => ?_) nofun nofun (fun _ => .inr (.inl rfl)) nofun (.inl trivial)
    · dsimp only [adds, Option.map_some, Option.getD_some]
      rw [shares]
      exact Nat.sub_add_cancel positive
    · exact congrArg (s.writer.toNat + Bool.toNat ·) writes
    · exact absurd (((inv.fits id r found).alone isWriter).symm.trans reads) nofun

theorem Inv.remove (found : s.Has id r) (free : r.phase.holds = false) (unshared : r.shares = false)
    (calm : r.phase.waits = false) (alert : ∀ id' r', s.Has id' r' → Alert s.seq r'.phase) : (s.put id none).Inv := by
  refine inv.put (inv.counts.put _ found ?_ ?_ ?_) (inv.nested.put (fun owner _ isFound => ?_) nofun)
    (fun isWriter id' r' isFound => (inv.fits id' r' isFound).alone isWriter) ?_ nofun fun id' r' isFound => ?_
  · exact congrArg (s.readers + Bool.toNat ·) unshared
  · simp [adds, Request.writes, free]
  · exact congrArg (s.waiters + Bool.toNat ·) calm
  · cases found.symm.trans isFound
    cases free
  · rintro ⟨id', r', _, isFound, undoing⟩
    have isAlert := alert id' r' isFound
    rw [undoing] at isAlert
    exact absurd rfl isAlert
  · rcases Table.lookup_put_some isFound with ⟨_, ⟨⟩⟩ | ⟨_, old⟩
    exact ⟨id', r', isFound, alert id' r' old⟩

omit inv in
theorem roused_cases (r : Request) : r.roused = r ∧ r.phase ≠ .asleep ∨ r.phase = .asleep ∧
    r.roused = { r with phase := .woken } := by
  obtain ⟨owner, kind, phase⟩ := r
  cases phase with
  | asleep => exact .inr ⟨rfl, rfl⟩
  | _ => exact .inl ⟨rfl, nofun⟩

theorem Inv.wake : s.wake.Inv ∧ ∀ id r, s.wake.Has id r → Alert s.wake.seq r.phase := by
  have old {id : Nat} {r' : Request} (found : s.wake.Has id r') : r'.phase = .woken ∨ r'.phase ≠ .asleep ∧ s.Has id r' := by
    obtain ⟨r, isFound, rfl⟩ := Option.map_eq_some_iff.mp ((Table.lookup_mapValues ..).symm.trans found)
    rcases roused_cases r with ⟨same, awake⟩ | ⟨_, woken⟩
    · rw [same]
      exact .inr ⟨awake, isFound⟩
    · rw [woken]
      exact .inl rfl
  have alert (id : Nat) (r : Request) (found : s.wake.Has id r) : Alert s.wake.seq r.phase := by
    rcases old found with woken | ⟨awake, isFound⟩
    · rw [woken]
      trivial
    · exact (inv.fits id r isFound).alert awake
  have count (pick : Request → Bool) (same : ∀ r : Request, pick r.roused = pick r) :
      s.requests.count (fun _ => pick) = s.wake.requests.count fun _ => pick :=
    (Table.count_mapValues fun _ value => same value).symm
  refine ⟨⟨⟨inv.counts.readers.trans (count _ ?_), inv.counts.writer.trans (count _ ?_),
    inv.counts.waiters.trans (count (·.phase.waits) ?_)⟩, fun owner => ?_, fun id r found => ?_,
    fun id r found => ⟨id, r, found, alert id r found⟩⟩, alert⟩
  iterate 3
    rintro ⟨owner, kind, phase⟩
    cases phase <;> rfl
  · refine (inv.nested owner).trans (and_congr_right fun _ => exists_congr fun id => ⟨fun found => ?_, fun found => ?_⟩)
    · refine (Table.lookup_mapValues ..).trans ?_
      rw [found]
      rfl
    · exact ((old found).resolve_left nofun).2
  rcases old found with woken | ⟨_, isFound⟩
  · obtain ⟨owner, kind, phase⟩ := r
    cases woken
    exact ⟨fun _ => rfl, nofun, nofun, nofun⟩
  refine (inv.fits id r isFound).mono (inv.fits id r isFound).alone rfl (Nat.le_succ _) fun undoing => ?_
  have isAlert := alert id r found
  rw [undoing] at isAlert
  exact absurd rfl isAlert

theorem Inv.bump : Inv { s with seq := s.seq + 1 } := by
  refine ⟨⟨inv.counts.readers, inv.counts.writer, inv.counts.waiters⟩, inv.nested, fun id r found => ?_, fun id r found => ?_⟩
  · have fits := inv.fits id r found
    refine fits.mono fits.alone rfl (Nat.le_succ _) fun undoing => ?_
    exact absurd (fits.past (s.seq + 1) (by rw [undoing]; rfl)) (Nat.not_succ_le_self _)
  obtain ⟨id', r', isFound, alert⟩ := inv.alert id r found
  refine ⟨id', r', isFound, (inv.fits id' r' isFound).alert fun asleep => ?_⟩
  rw [asleep] at alert
  exact alert

theorem Inv.asked (absent : s.requests.lookup id = none) (owner : Nat) (kind : Kind) : (s.asked id owner kind).Inv := by
  refine inv.put (inv.counts.put _ absent rfl rfl rfl) (inv.nested.put (fun owner _ isFound => ?_) nofun)
    (fun isWriter id' r' isFound => (inv.fits id' r' isFound).alone isWriter) ?_ ?_ fun _ _ _ =>
      ⟨id, _, Table.lookup_put .., trivial⟩
  · cases absent.symm.trans isFound
  · rintro ⟨id', r', _, isFound, undoing⟩
    obtain ⟨id₁, r₁, isPledge, pledges⟩ := (inv.fits id' r' isFound).pledged undoing
    refine ⟨id₁, r₁, (Table.lookup_put_ne ?_ _).trans isPledge, pledges⟩
    rintro rfl
    cases absent.symm.trans isPledge
  · rintro _ ⟨⟩
    exact ⟨fun _ => rfl, nofun, nofun, nofun⟩

theorem Inv.next (found : s.Has id r) {s' : State} (stepped : s.next id r = some s') : s'.Inv := by
  obtain ⟨owner, kind, phase⟩ := r
  cases phase with
  | trying seen =>
    cases stepped
    exact inv.attempt found
  | undoing seen =>
    cases stepped
    have idle : ¬ (Phase.undoing seen).Pledges := not_pledges rfl nofun nofun
    have shares : Request.shares ⟨owner, kind, .undoing seen⟩ = true := rfl
    have readers := Nat.sub_add_cancel (inv.counts.shared found shares)
    cases seen with
    | none => exact inv.pass found readers rfl idle rfl nofun nofun (.inl trivial)
    | some seen =>
      refine inv.pass found readers rfl idle rfl (inv.fits id _ found).past nofun ?_
      by_cases current : seen = s.seq
      · obtain ⟨id', r', isPledge, pledges⟩ := (inv.fits id _ found).pledged (by rw [current])
        exact .inr (pledge_other found idle isPledge pledges)
      · exact .inl current
  | announcing =>
    cases stepped
    exact inv.pass found rfl rfl (not_pledges rfl nofun nofun) rfl nofun nofun (.inl trivial)
  | announced =>
    cases stepped
    refine inv.pass found rfl rfl (not_pledges rfl nofun nofun) rfl (fun seen isSeen => ?_) nofun (.inl trivial)
    exact Nat.le_of_eq (Option.some.inj isSeen).symm
  | blocking seen =>
    have idle : ¬ (Phase.blocking seen).Pledges := not_pledges rfl nofun nofun
    obtain rfl := Option.some.inj stepped
    split
    next current =>
      exact inv.pass found rfl rfl idle rfl nofun nofun (.inr (inv.others found fun alert => alert current))
    next => exact inv.pass found rfl rfl idle rfl nofun nofun (.inl trivial)
  | asleep => cases stepped
  | woken =>
    cases stepped
    exact inv.pass found rfl (Nat.sub_add_cancel (inv.counts.waited found rfl)) (not_pledges rfl nofun nofun) rfl
      nofun nofun (.inl trivial)
  | got =>
    cases stepped
    obtain ⟨holds, calm, nested, owning⟩ := s.taken_spec kind none
    have waiters : s.waiters - 1 + 1 = s.waiters + (s.taken kind none).waits.toNat := by
      rw [calm]
      exact Nat.sub_add_cancel (inv.counts.waited found rfl)
    exact inv.stay found rfl holds waiters (inv.nested.go found (fun _ _ => nofun) nested) owning
  | owning =>
    cases stepped
    obtain ⟨tree, rfl⟩ := (inv.fits id _ found).owning rfl
    refine inv.stay found rfl rfl rfl (fun owner' => ?_) nofun
    refine ⟨fun isOwner => ⟨tree, id, ?_⟩, fun ⟨_, id', isFound⟩ => ?_⟩
    · cases isOwner
      exact Table.lookup_put ..
    · rcases Table.lookup_put_some isFound with ⟨_, ⟨⟩⟩ | ⟨apart, old⟩
      · rfl
      · exact absurd (inv.counts.one found rfl old rfl) apart
  | holding =>
    obtain rfl := Option.some.inj stepped
    split
    next both =>
      obtain ⟨tree, rfl⟩ := both
      refine inv.stay found rfl rfl rfl (fun owner' => ?_) nofun
      refine ⟨nofun, fun ⟨_, id', isFound⟩ => ?_⟩
      rcases Table.lookup_put_some isFound with ⟨_, ⟨⟩⟩ | ⟨apart, old⟩
      exact absurd (inv.counts.one found rfl old rfl) apart
    next other => exact inv.release found rfl rfl fun tree write => absurd ⟨tree, write⟩ other
  | dropping =>
    cases stepped
    exact inv.release found rfl rfl fun _ _ => nofun
  | checking =>
    obtain rfl := Option.some.inj stepped
    split
    next =>
      refine inv.go found (inv.counts.put _ found rfl rfl rfl)
        (inv.nested.go found (fun _ _ => nofun) fun _ _ => nofun) (fun isWriter => ⟨rfl, fun id' r' isFound => ?_⟩)
        nofun nofun (fun _ => .inr (.inr rfl)) nofun (.inl trivial)
      exact (inv.fits id' r' isFound).alone isWriter
    next missing =>
      refine inv.remove found rfl rfl rfl fun id' r' isFound => .ofNotWaiting ?_
      exact Table.count_eq_zero_iff.mp (inv.counts.waiters.symm.trans (not_not.mp missing)) id' r' isFound
  | waking =>
    cases stepped
    have roused : s.wake.requests.lookup id = some ⟨owner, kind, .waking⟩ := by
      refine (Table.lookup_mapValues ..).trans ?_
      rw [found]
      rfl
    exact inv.wake.1.remove roused rfl rfl rfl inv.wake.2

theorem Inv.step {event : Event} {s' : State} (stepped : s.step event = some s') : s'.Inv := by
  cases event with
  | ask id owner kind =>
    refine guarded stepped fun ⟨absent, _⟩ => ?_
    split
    · exact inv
    · exact inv.asked absent owner kind
  | tryLock id owner =>
    refine guarded stepped fun ⟨absent, _⟩ => ?_
    split
    · exact (inv.asked absent owner .write).attempt (Table.lookup_put ..)
    · exact inv
  | next id =>
    obtain ⟨r, found, stepped⟩ := Option.bind_eq_some_iff.mp stepped
    exact inv.next found stepped
  | rouse id =>
    obtain ⟨⟨owner, kind, phase⟩, found, stepped⟩ := Option.bind_eq_some_iff.mp stepped
    cases phase with
    | asleep | blocking =>
      cases stepped
      exact inv.pass found rfl rfl (not_pledges rfl nofun nofun) rfl nofun nofun (.inl trivial)
    | _ => cases stepped
  | bump =>
    cases stepped
    exact inv.bump

theorem Inv.sound : s.Sound := by
  refine ⟨fun id r id' r' found writes found' holds => ?_, fun tree owner => ?_, fun id r found asleep => ?_⟩
  · have isWriter := inv.counts.writing found writes
    have unshared := (inv.fits id' r' found').alone isWriter
    refine inv.counts.one found writes found' ?_
    rw [reads_of_holds holds] at unshared
    rw [writes_of_holds holds]
    cases isKind : r'.kind with
    | read =>
      rw [isKind] at unshared
      cases unshared
    | write => rfl
  · refine (inv.nested owner).trans ⟨fun ⟨_, id, found⟩ => ⟨id, _, found, rfl⟩, ?_⟩
    rintro ⟨id, r, found, rfl⟩
    exact ⟨tree, id, found⟩
  · obtain ⟨id', r', isFound, alert⟩ := inv.alert id r found
    refine ⟨id', r', isFound, alert, fun _ => Nat.ne_of_gt (inv.counts.waited found ?_)⟩
    rw [asleep]
    rfl

omit inv

theorem reach_lockSound (s : State) (reachable : system.Reach System.Any s) : s.Sound := by
  refine Inv.sound (reachable.invariant (fun s start => ?_) fun _ _ _ inv _ stepped => inv.step stepped)
  obtain ⟨writer, readers, waiters, treeWriter, requests⟩ := start
  have missing (id : Nat) : s.requests.lookup id = none := by rw [requests]; rfl
  refine ⟨⟨?_, ?_, ?_⟩, fun owner => ?_, fun id r found => ?_, fun id r found => ?_⟩
  · rw [readers, requests]
    rfl
  · rw [writer, requests]
    rfl
  · rw [waiters, requests]
    rfl
  · simp [treeWriter, Has, missing]
  · cases (missing id).symm.trans found
  · cases (missing id).symm.trans found

/-- Task 8 sleeps for a lock that task 7 holds. -/
theorem reach_lockSound_asleep : ∃ s : State, s.Sound ∧ s.requests.lookup 2 = some ⟨8, .write, .asleep⟩ := by
  have start : system.Reach System.Any ⟨.sleepLock, false, 0, 0, none, 0, ∅⟩ := .start ⟨rfl, rfl, rfl, rfl, rfl⟩
  exact ⟨_, reach_lockSound _ (start.run [.ask 1 7 .write, .next 1, .ask 2 8 .write, .next 2, .next 2, .next 2,
    .next 2, .next 2] rfl), rfl⟩

end State
end Myos.Modules.SleepLocks
