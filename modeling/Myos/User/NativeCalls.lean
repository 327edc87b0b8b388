import Myos.Lib.Consts
import Myos.Lib.System
import Myos.Task.Alarm
import Myos.Task.FileIoSafe

namespace Myos.User.NativeCalls
open Lib Checked Myos.Fs.Io Myos.Task.FileIo Myos.Task.Alarm

def FILE_AT : Word := 1

structure Targets where
  pgids : List (Option Nat)
  current : Option Nat
  live : Nat → Bool
  may : Nat → Bool
  sends : Nat → Bool

namespace Targets

variable (targets : Targets)

def anyInGroup (pid : Int) : List (Option Nat) → Nat → Checked Empty Bool
  | [], _ => return false
  | pgid :: rest, id => do
    let group ← neg 64 pid
    if pgid = some group.toNat ∧ targets.may id then return true else anyInGroup pid rest (id + 1)

def sendGroup (pgid : Nat) : Bool :=
  targets.pgids.zipIdx.any fun slot => slot.1 == some pgid && targets.may slot.2 && targets.sends slot.2

def kill (pid : Int) (sig : Nat) : Checked Empty Bool :=
  if 31 < sig then return false
  else if sig = 0 then
    if 0 < pid then return targets.live pid.toNat && targets.may pid.toNat
    else if pid = 0 then return true
    else targets.anyInGroup pid targets.pgids 0
  else if 0 < pid then return targets.may pid.toNat && targets.sends pid.toNat
  else if pid = 0 then return targets.current.any targets.sendGroup
  else do
    let group ← neg 64 pid
    return targets.sendGroup group.toNat

def sysKill (pid sig : Word) : Checked Empty Bool := targets.kill pid.toInt (sig.toNat % 2 ^ 32)

variable {targets} {pid : Int}

theorem safe_anyInGroup (fits : -pid < 2 ^ 63) (pgids : List (Option Nat)) (id : Nat) :
    Safe (targets.anyInGroup pid pgids id) fun _ => True := by
  induction pgids generalizing id with
  | nil => trivial
  | cons pgid rest ih =>
    refine (safe_neg fits).bind fun group _ => ?_
    split
    · trivial
    · exact ih (id + 1)

theorem safe_kill {sig : Nat} (fits : -pid < 2 ^ 63 ∨ 31 < sig) : Safe (targets.kill pid sig) fun _ => True := by
  unfold kill
  split
  · trivial
  rename_i valid
  have fits := fits.resolve_right valid
  split
  · split
    · trivial
    split
    · trivial
    · exact safe_anyInGroup fits _ _
  split
  · trivial
  split
  · trivial
  · exact (safe_neg fits).bind fun _ _ => trivial

end Targets

structure State where
  files : Files
  alarms : Alarms
  overflowed : Bool

inductive Event where
  | kill (targets : Targets) (pid sig : Word)
  | itimer (pid : Nat) (now : Word) (new : Option (Word × Word))
  | tick (found : Nat → Found) (others : Nat) (now : Word)
  | pread (caller : Caller) (fd buf len offset flags : Word)
  | pwrite (caller : Caller) (fd buf len offset flags : Word)
  | lseek (caller : Caller) (fd offset whence : Word)
  | ftruncate (caller : Caller) (fd size : Word)
  | opened (id : Nat) (node : Nat) (readable writable append appendOnly : Bool)
  | closed (id : Nat)
  | made (node : Nat) (file : File)

def isNew : File → Bool
  | .fat cluster len => decide (0 < cluster) && len == 0
  | file => file.size == 0

def offsetOf (offset flags : Word) : Option Nat := if flags &&& FILE_AT ≠ 0 then some offset.toNat else none

namespace State

variable (s : State)

def after {ε α : Type} (ended : Checked ε α) (next : α → State) : State :=
  ended.settle s { s with overflowed := true } next

def withFiles (files : Files) : State := { s with files }

def setOpen (id : Nat) (file : Option Task.FileIo.OpenFile) : State :=
  s.withFiles { s.files with opens := fun i => if i = id then file else s.files.opens i }

def step (event : Event) : Option State :=
  if s.overflowed then none
  else
    match event with
    | .kill targets pid sig => some (s.after (targets.sysKill pid sig) fun _ => s)
    | .itimer pid now new =>
      let words := new.map fun pair => (pair.1.toNat, pair.2.toNat)
      some { s with alarms := (sysItimer s.alarms pid now.toNat words).1 }
    | .tick found others now =>
      some (s.after (timerTick s.alarms found others now.toNat) fun alarms => { s with alarms })
    | .pread caller fd buf len offset flags =>
      let read := caller.fdRead s.files fd.toNat buf.toNat len.toNat (offsetOf offset flags)
      some (s.after read fun out => s.withFiles out.1)
    | .pwrite caller fd buf len offset flags =>
      let write := caller.fdWrite s.files fd.toNat buf.toNat len.toNat (offsetOf offset flags)
      some (s.after write fun out => s.withFiles out.1)
    | .lseek caller fd offset whence =>
      some (s.withFiles (caller.fdLseek s.files fd.toNat offset.toInt whence.toNat).1)
    | .ftruncate caller fd size =>
      some (s.after (caller.fdSetSize s.files fd.toNat size.toNat) fun out => s.withFiles out.1)
    | .opened id node readable writable append appendOnly =>
      if (s.files.opens id).isNone then some (s.setOpen id (some ⟨node, 0, readable, writable, append, appendOnly⟩))
      else none
    | .closed id => some (s.setOpen id none)
    | .made node file => if isNew file then some (s.withFiles (s.files.setNode node file)) else none

structure Boot : Prop where
  nodes : ∀ node, (s.files.nodes node).Wf
  closed : ∀ id, s.files.opens id = none
  rearms : s.alarms.rearms = []
  running : s.overflowed = false

def system : System State Event := ⟨Boot, step⟩

/-- No argument word has overflowed the kernel's arithmetic, and each timer was re-armed at its first expiry to come. -/
structure Fits : Prop where
  arithmetic : s.overflowed = false
  rearms : ∀ rearm ∈ s.alarms.rearms, rearm.Least

/-- `kill` is not given the least `isize` with a valid signal; every timer that goes off has an expiry after now that is
a word; a write at an offset into a FAT file ends at a word. -/
def Meets : Event → Prop
  | .kill _ pid sig => pid ≠ BitVec.intMin 64 ∨ 31 < sig.toNat % 2 ^ 32
  | .tick _ _ now => ∀ timer ∈ s.alarms.timers, timer.Expires now.toNat
  | .pwrite caller fd _ len offset flags => caller.Ready s.files fd.toNat len.toNat (offsetOf offset flags) 0
  | _ => True

instance (event : Event) : Decidable (s.Meets event) :=
  match event with
  | .kill _ pid sig => inferInstanceAs (Decidable (pid ≠ BitVec.intMin 64 ∨ 31 < sig.toNat % 2 ^ 32))
  | .tick _ _ now => inferInstanceAs (Decidable (∀ timer ∈ s.alarms.timers, timer.Expires now.toNat))
  | .pwrite caller fd _ len offset flags =>
    inferInstanceAs (Decidable (caller.Ready s.files fd.toNat len.toNat (offsetOf offset flags) 0))
  | .itimer .. => .isTrue trivial
  | .pread .. => .isTrue trivial
  | .lseek .. => .isTrue trivial
  | .ftruncate .. => .isTrue trivial
  | .opened .. => .isTrue trivial
  | .closed _ => .isTrue trivial
  | .made .. => .isTrue trivial

structure Inv : Prop where
  files : s.files.Wf
  fits : s.Fits

variable {s}

theorem Inv.withFiles {files : Files} (inv : s.Inv) (wf : files.Wf) : (s.withFiles files).Inv :=
  ⟨wf, ⟨inv.fits.arithmetic, inv.fits.rearms⟩⟩

theorem Inv.setOpen {id : Nat} {file : Option Task.FileIo.OpenFile} (inv : s.Inv) (below : ∀ f, file = some f → f.pos < 2 ^ 63) :
    (s.setOpen id file).Inv := by
  refine inv.withFiles ⟨inv.files.nodes, fun i f found => ?_⟩
  change (if i = id then file else s.files.opens i) = some f at found
  split at found
  · exact below f found
  · exact inv.files.opens i f found

theorem wf_of_isNew {file : File} (new : isNew file = true) : file.Wf := by
  cases file with
  | tmpfs data =>
    have empty : data.length = 0 := beq_iff_eq.mp new
    exact Nat.le_trans (Nat.le_of_eq empty) (Nat.zero_le _)
  | ext2 g size =>
    have empty : size = 0 := beq_iff_eq.mp new
    exact empty ▸ Nat.two_pow_pos 64
  | fat cluster len =>
    have parts := Bool.and_eq_true_iff.mp new
    have empty : len = 0 := beq_iff_eq.mp parts.2
    exact ⟨of_decide_eq_true parts.1, empty ▸ Nat.zero_le _⟩

theorem itimerSwap_rearms (alarms : Alarms) (pid now : Nat) (new : Option (Nat × Nat)) :
    (itimerSwap alarms pid now new).1.rearms = alarms.rearms := by
  unfold itimerSwap
  cases alarms.timers[pid]? with
  | none => rfl
  | some timer =>
    cases new with
    | none => rfl
    | some pair => rfl

theorem neg_toInt_lt {pid : Word} (other : pid ≠ BitVec.intMin 64) : -pid.toInt < 2 ^ 63 := by
  have least : -2 ^ 63 ≤ pid.toInt := BitVec.le_toInt pid
  rcases Int.lt_or_eq_of_le least with above | same
  · omega
  · refine absurd (BitVec.toInt_inj.mp ?_) other
    rw [← same]
    decide

theorem Inv.step {event : Event} {next : State} (inv : s.Inv) (met : s.Meets event) (stepped : s.step event = some next) :
    next.Inv := by
  unfold State.step at stepped
  rw [inv.fits.arithmetic, if_neg Bool.false_ne_true] at stepped
  cases event with
  | kill targets pid sig =>
    cases stepped
    exact Safe.settle (Targets.safe_kill (met.imp_left neg_toInt_lt)) inv fun _ _ => inv
  | itimer pid now new =>
    cases stepped
    refine ⟨inv.files, rfl, ?_⟩
    rw [sysItimer, itimerSwap_rearms]
    exact inv.fits.rearms
  | tick found others now =>
    cases stepped
    exact Safe.settle (safe_timerTick found others now.isLt met inv.fits.rearms) inv fun alarms least =>
      ⟨inv.files, rfl, least⟩
  | pread caller fd buf len offset flags =>
    cases stepped
    exact Safe.settle (Caller.safe_fdRead inv.files fd.toNat len.isLt) inv fun _ wf => inv.withFiles wf
  | pwrite caller fd buf len offset flags =>
    cases stepped
    exact Safe.settle (Caller.safe_fdWrite inv.files buf.isLt met) inv fun _ wf => inv.withFiles wf
  | lseek caller fd offset whence =>
    cases stepped
    exact inv.withFiles (Caller.wf_fdLseek inv.files fd.toNat (BitVec.toInt_lt (x := offset)) whence.toNat)
  | ftruncate caller fd size =>
    cases stepped
    exact Safe.settle (Caller.safe_fdSetSize inv.files fd.toNat size.isLt) inv fun _ wf => inv.withFiles wf
  | opened id node readable writable append appendOnly =>
    dsimp only at stepped
    split at stepped
    all_goals cases stepped
    exact inv.setOpen fun f same => by rw [← Option.some.inj same]; exact Nat.two_pow_pos 63
  | closed id =>
    cases stepped
    exact inv.setOpen fun f same => by cases same
  | made node file =>
    dsimp only at stepped
    split at stepped
    all_goals cases stepped
    rename_i new
    exact inv.withFiles (inv.files.setNode (wf_of_isNew new))

theorem Boot.inv (boot : s.Boot) : s.Inv where
  files := ⟨boot.nodes, fun id file found => by rw [boot.closed] at found; cases found⟩
  fits := ⟨boot.running, fun rearm member => by rw [boot.rearms] at member; cases member⟩

end State

theorem reach_fits (s : State) (reachable : State.system.Reach State.Meets s) : s.Fits := by
  have inv : s.Inv := reachable.invariant (fun _ boot => State.Boot.inv boot) fun _ _ _ inv met stepped => inv.step met stepped
  exact inv.fits

def roomy : Caller where
  fds := fun fd => if fd = 3 then some 0 else none
  mapped := fun _ _ => true
  copies := fun _ _ => true
  byte := fun _ => 0
  env := fun _ => ⟨fun _ => true, fun g => ⟨fun _ => none, fun _ => List.replicate g.ptrs 0, fun _ => List.length_replicate⟩,
    fun _ => 0, fun _ => true, 0, false⟩

def fresh : State := ⟨⟨fun _ => none, fun _ => .fat 4096 0⟩, ⟨[⟨0, 0⟩], U64_MAX, []⟩, false⟩

theorem fresh_boot : fresh.Boot where
  nodes := fun _ => ⟨by decide, by decide⟩
  closed := fun _ => rfl
  rearms := rfl
  running := rfl

def lateRun : List Event :=
  [.opened 0 0 true true false false, .pwrite roomy 3 4096 3 5 1, .itimer 0 0 (some (1000000, 1000000)),
    .tick (fun _ => ⟨true, true⟩) U64_MAX 3500000000,
    .kill ⟨[some 7], some 7, fun _ => true, fun _ => true, fun _ => true⟩ (-7) 15]

theorem lateRun_ends : (State.system.runMeeting State.Meets fresh lateRun).isSome := by decide +kernel

theorem reach_fits_late : ∃ s, State.system.Reach State.Meets s ∧ s.Fits ∧ (s.files.nodes 0).size = 8 ∧
    s.alarms.timers = [⟨4000000000, 1000000000⟩] := by
  have booted : State.system.Reach State.Meets fresh := .start fresh_boot
  have reached := booted.runMeeting lateRun (Option.some_get lateRun_ends).symm
  exact ⟨_, reached, reach_fits _ reached, by decide +kernel, by decide +kernel⟩

/-- `kill` of the process group that the least `isize` names. -/
theorem least_pid_overflows : ¬ ∀ s, State.system.Reach System.Any s → s.Fits := by
  intro holds
  have booted : State.system.Reach System.Any fresh := .start fresh_boot
  have reached := booted.run
    [.kill ⟨[some 7], some 7, fun _ => true, fun _ => true, fun _ => true⟩ (BitVec.intMin 64) 15] rfl
  exact absurd (holds _ reached).arithmetic (by decide)

end Myos.User.NativeCalls
