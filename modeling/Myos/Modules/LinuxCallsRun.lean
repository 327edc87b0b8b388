import Myos.Lib.Consts
import Myos.Modules.LinuxCallsSafe

namespace Myos.Modules.Linux
open Lib Checked

inductive Event where
  | mremap (maps : Maps) (old oldSize newSize : Word)
  | recordLock (mem : Mem) (env : LockEnv) (arg : Word) (get : Bool)
  | poll (now : Nat) (fds nfds : Word) (ms : BitVec 32) (look : Look) (later : List Look)
  | ppoll (mem : Mem) (now : Nat) (fds nfds ts : Word) (look : Look) (later : List Look)
  | select (mem : Mem) (now : Nat) (nfds rfds wfds efds tv : Word) (look : Look) (later : List Look)
  | pselect6 (mem : Mem) (now : Nat) (nfds rfds wfds efds ts : Word) (look : Look) (later : List Look)
  | epollWait (mem : Mem) (isWait : Bool) (found : Look → Option Nat) (now : Nat) (events maxevents ms : Word)
      (look : Look) (later : List Look)
  | epollPwait2 (mem : Mem) (isWait : Bool) (found : Look → Option Nat) (now : Nat) (events maxevents ts : Word)
      (look : Look) (later : List Look)
  | sigaltstack (thread : Nat) (mem : Mem) (ss oss sp : Word)
  | deliver (thread : Nat) (mem : Mem) (flags : BitVec 32) (sp : Word)
  | reset (thread : Nat)
  | fork (parent child : Nat)

structure State where
  alt : Nat → AltStack
  panicked : Bool

namespace State

variable (s : State)

def after {α : Type} (ended : R α) (next : α → State) : State := ended.settle s { s with panicked := true } next

def setAlt (thread : Nat) (alt : AltStack) : State :=
  { s with alt := fun t => if t = thread then alt else s.alt t }

def step (arch : Arch) (event : Event) : Option State :=
  if s.panicked then none
  else some <| match event with
    | .mremap maps old oldSize newSize => s.after (Linux.mremap maps old.toNat oldSize.toNat newSize.toNat) fun _ => s
    | .recordLock mem env arg get => s.after (Linux.recordLock mem env arg.toNat get) fun _ => s
    | .poll now fds nfds ms look later => s.after (Linux.poll now fds.toNat nfds.toNat ms.toInt look later) fun _ => s
    | .ppoll mem now fds nfds ts look later =>
      s.after (Linux.ppoll mem now fds.toNat nfds.toNat ts.toNat look later) fun _ => s
    | .select mem now nfds rfds wfds efds tv look later =>
      s.after (Linux.select mem now nfds.toNat rfds.toNat wfds.toNat efds.toNat tv.toNat look later) fun _ => s
    | .pselect6 mem now nfds rfds wfds efds ts look later =>
      s.after (Linux.pselect6 mem now nfds.toNat rfds.toNat wfds.toNat efds.toNat ts.toNat look later) fun _ => s
    | .epollWait mem isWait found now events maxevents ms look later =>
      s.after (Linux.epollWait arch mem isWait found now events.toNat maxevents.toInt ms.toInt look later) fun _ => s
    | .epollPwait2 mem isWait found now events maxevents ts look later =>
      s.after (Linux.epollPwait2 arch mem isWait found now events.toNat maxevents.toInt ts.toNat look later) fun _ => s
    | .sigaltstack thread mem ss oss sp =>
      s.after (Linux.sigaltstack mem (s.alt thread) ss.toNat oss.toNat sp.toNat) fun new => s.setAlt thread new
    | .deliver thread mem flags sp => s.after (Linux.deliver arch mem (s.alt thread) flags sp.toNat) fun _ => s
    -- exec, and a new thread
    | .reset thread => s.setAlt thread .NONE
    | .fork parent child => s.setAlt child (s.alt parent)

def Boot : Prop := (∀ thread, s.alt thread = .NONE) ∧ s.panicked = false

def system (arch : Arch) : System State Event := ⟨Boot, fun s event => s.step arch event⟩

def Meets (arch : Arch) : Event → Prop
  | .mremap _ old oldSize newSize =>
    old.toNat % PAGE ≠ 0 ∨ newSize.toNat = 0 ∨ oldSize.toNat ≤ 2 ^ 64 - PAGE ∧ newSize.toNat ≤ 2 ^ 64 - PAGE
  | .recordLock mem env arg _ => RecordFits mem env arg.toNat
  | .ppoll mem _ _ _ ts _ _ => TimespecFits mem ts.toNat
  | .epollWait _ _ _ _ _ _ ms _ _ => ms.toInt ≤ 18446744073709551
  | .epollPwait2 mem _ _ _ _ _ ts _ _ => TimespecFits mem ts.toNat
  | .deliver thread _ flags sp => DeliverFits arch (s.alt thread) flags sp.toNat
  | _ => True

instance (arch : Arch) (event : Event) : Decidable (s.Meets arch event) := by
  cases event with
  | mremap maps old oldSize newSize => exact inferInstanceAs (Decidable (_ ∨ _))
  | recordLock mem env arg get => exact inferInstanceAs (Decidable (RecordFits _ _ _))
  | ppoll mem now fds nfds ts look later => exact inferInstanceAs (Decidable (TimespecFits _ _))
  | epollWait mem isWait found now events maxevents ms look later => exact inferInstanceAs (Decidable (_ ≤ _))
  | epollPwait2 mem isWait found now events maxevents ts look later => exact inferInstanceAs (Decidable (TimespecFits _ _))
  | deliver thread mem flags sp => exact inferInstanceAs (Decidable (DeliverFits _ _ _ _))
  | poll => exact .isTrue trivial
  | select => exact .isTrue trivial
  | pselect6 => exact .isTrue trivial
  | sigaltstack => exact .isTrue trivial
  | reset => exact .isTrue trivial
  | fork => exact .isTrue trivial

structure Inv : Prop where
  alt : ∀ thread, (s.alt thread).Wf
  running : s.panicked = false

variable {s}

theorem Inv.setAlt {alt : AltStack} (inv : s.Inv) (thread : Nat) (wf : alt.Wf) : (s.setAlt thread alt).Inv := by
  refine ⟨fun t => ?_, inv.running⟩
  show (if t = thread then alt else s.alt t).Wf
  split
  · exact wf
  · exact inv.alt t

theorem sets_words (rfds wfds efds : Word) : ∀ ptr ∈ [rfds.toNat, wfds.toNat, efds.toNat], ptr < 2 ^ 64 := by
  intro ptr member
  rcases List.mem_cons.mp member with rfl | member
  · exact rfds.isLt
  rcases List.mem_cons.mp member with rfl | member
  · exact wfds.isLt
  · rw [List.mem_singleton.mp member]
    exact efds.isLt

theorem Inv.step {arch : Arch} {event : Event} {next : State} (inv : s.Inv) (met : s.Meets arch event)
    (stepped : s.step arch event = some next) : next.Inv := by
  unfold State.step at stepped
  rw [inv.running, if_neg Bool.false_ne_true] at stepped
  cases stepped
  have stays : ∀ (_ : True), s.Inv := fun _ => inv
  cases event with
  | mremap maps old oldSize newSize => exact Safe.settle (safe_mremap met) inv fun _ => stays
  | recordLock mem env arg get => exact Safe.settle (safe_recordLock get met) inv fun _ => stays
  | poll now fds nfds ms look later =>
    have short : ms.toInt < 2 ^ 31 := BitVec.toInt_lt
    exact Safe.settle (safe_poll fds.isLt (by omega)) inv fun _ => stays
  | ppoll mem now fds nfds ts look later => exact Safe.settle (safe_ppoll fds.isLt met) inv fun _ => stays
  | select mem now nfds rfds wfds efds tv look later =>
    have safe : Safe (Linux.select mem now nfds.toNat rfds.toNat wfds.toNat efds.toNat tv.toNat look later) fun _ => True :=
      (safe_timevalUs tv.toNat).bind fun timeout _ => safe_selectSets (sets_words rfds wfds efds) timeout
    exact safe.settle inv fun _ => stays
  | pselect6 mem now nfds rfds wfds efds ts look later =>
    have safe : Safe (Linux.pselect6 mem now nfds.toNat rfds.toNat wfds.toNat efds.toNat ts.toNat look later)
        fun _ => True :=
      (safe_timespecUs ts.toNat).bind fun timeout _ => safe_selectSets (sets_words rfds wfds efds) timeout
    exact safe.settle inv fun _ => stays
  | epollWait mem isWait found now events maxevents ms look later =>
    exact Safe.settle (safe_epollWait arch isWait found events.toNat maxevents.toInt met) inv fun _ => stays
  | epollPwait2 mem isWait found now events maxevents ts look later =>
    have safe : Safe (Linux.epollPwait2 arch mem isWait found now events.toNat maxevents.toInt ts.toNat look later)
        fun _ => True :=
      (safe_timespecMs met).bind fun _ small => safe_epollWait arch isWait found events.toNat maxevents.toInt small
    exact safe.settle inv fun _ => stays
  | sigaltstack thread mem ss oss sp =>
    exact Safe.settle (safe_sigaltstack (inv.alt thread) ss.toNat oss.toNat sp.toNat) inv fun _ wf => inv.setAlt thread wf
  | deliver thread mem flags sp => exact Safe.settle (safe_deliver (inv.alt thread) sp.isLt met) inv fun _ => stays
  | reset thread => exact inv.setAlt thread (.inl rfl)
  | fork parent child => exact inv.setAlt child (inv.alt parent)

end State

theorem reach_running (arch : Arch) (s : State)
    (reachable : (State.system arch).Reach (fun s event => s.Meets arch event) s) : s.panicked = false := by
  have inv : s.Inv := reachable.invariant (fun _ boot => ⟨fun t => .inl (by rw [boot.1 t]; rfl), boot.2⟩)
    fun _ _ _ inv met stepped => inv.step met stepped
  exact inv.running

def fresh : State := ⟨fun _ => .NONE, false⟩

def holding (words : List Nat) : Mem where
  mapped := fun _ _ => true
  byte := fun ptr => BitVec.ofNat 8 (words.getD ((ptr - 4096) / 8) 0 / 256 ^ ((ptr - 4096) % 8))

def quietRun : List Event :=
  [.sigaltstack 1 (holding [0x20000, 0, 8192]) 4096 0 0x7000, .deliver 1 (holding []) SA_ONSTACK 0x7000,
    .ppoll (holding [1, 500000000]) 0 4096 0 4096 ⟨holding [], fun _ _ => 0, false, false, 2000000000, 0⟩ [],
    .mremap ⟨fun _ => true, fun _ _ => true⟩ 0x10000 8192 4096]

theorem quietRun_ends :
    ((State.system .x86_64).runMeeting (fun s event => s.Meets .x86_64 event) fresh quietRun).isSome := by decide +kernel

theorem reach_running_quiet : ∃ s, (State.system .x86_64).Reach (fun s event => s.Meets .x86_64 event) s ∧
    s.panicked = false ∧ s.alt 1 = ⟨0x20000, 8192⟩ := by
  have booted : (State.system .x86_64).Reach (fun s event => s.Meets .x86_64 event) fresh := .start ⟨fun _ => rfl, rfl⟩
  have reached := booted.runMeeting quietRun (Option.some_get quietRun_ends).symm
  exact ⟨_, reached, reach_running .x86_64 _ reached, by decide +kernel⟩

/-- `mremap` with the largest word as the old size. -/
theorem largest_size_panics : ¬ ∀ arch s, (State.system arch).Reach System.Any s → s.panicked = false := by
  intro holds
  have booted : (State.system .x86_64).Reach System.Any fresh := .start ⟨fun _ => rfl, rfl⟩
  have reached := booted.run [.mremap ⟨fun _ => true, fun _ _ => true⟩ 0x10000 (-1) 4096] rfl
  exact absurd (holds _ _ reached) (by decide +kernel)

end Myos.Modules.Linux
