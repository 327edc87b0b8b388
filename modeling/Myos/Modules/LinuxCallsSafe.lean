import Myos.Modules.LinuxCalls

namespace Myos.Modules.Linux
open Lib Checked

theorem divCeil_mul_le {a : Nat} (fits : a ≤ 2 ^ 64 - PAGE) : divCeil a PAGE * PAGE ≤ 2 ^ 64 - PAGE := by
  have page : PAGE = 4096 := rfl
  unfold divCeil
  rw [page] at fits ⊢
  split
  all_goals omega

namespace Mem

variable {mem : Mem}

theorem takes_fits {ptr len : Nat} (taken : mem.takes ptr len = true) : ptr + len < 2 ^ 64 :=
  of_decide_eq_true (Bool.and_eq_true_iff.mp (Bool.and_eq_true_iff.mp taken).2).1

theorem safe_get (ptr len : Nat) : Safe (mem.get ptr len) fun _ => ptr + len < 2 ^ 64 := by
  unfold get
  split
  · rename_i taken
    exact takes_fits taken
  · trivial

theorem safe_put (ptr len : Nat) : Safe (mem.put ptr len) fun _ => True := by
  unfold put
  split
  all_goals trivial

theorem safe_putIf (wanted : Bool) (ptr len : Nat) : Safe (mem.putIf wanted ptr len) fun _ => True := by
  unfold putIf
  split
  · exact safe_put ptr len
  · trivial

theorem signed_ge (mem : Mem) (ptr : Nat) : -2 ^ 63 ≤ mem.signed ptr 8 := BitVec.le_toInt _

theorem safe_getU64 (ptr : Nat) : Safe (mem.getU64 ptr) fun n => n = mem.leNat ptr 8 ∧ ptr + 8 < 2 ^ 64 :=
  (safe_get ptr 8).bind fun _ fits => ⟨rfl, fits⟩

end Mem

theorem safe_userMapped {maps : Maps} {addr len : Nat} (aligned : addr % PAGE = 0) (word : len < 2 ^ 64) :
    Safe (maps.userMapped addr len) fun mapped => mapped = true → ∀ i, i < divCeil len PAGE → addr + i * PAGE < 2 ^ 64 := by
  unfold Maps.userMapped
  rw [aligned]
  refine Safe.add (by omega) ?_
  dsimp only
  split
  · intro mapped
    cases mapped
  · intro mapped i below
    have page := List.all_eq_true.mp mapped i (List.mem_range.mpr (by rw [Nat.zero_add]; exact below))
    exact of_decide_eq_true (Bool.and_eq_true_iff.mp page).1

theorem safe_mremap {maps : Maps} {old oldSize newSize : Nat}
    (fits : old % PAGE ≠ 0 ∨ newSize = 0 ∨ oldSize ≤ 2 ^ 64 - PAGE ∧ newSize ≤ 2 ^ 64 - PAGE) :
    Safe (mremap maps old oldSize newSize) fun _ => True := by
  have page : PAGE = 4096 := rfl
  unfold mremap
  split
  · trivial
  rename_i asked
  rw [not_or, not_not] at asked
  have small := (fits.resolve_left (not_not_intro asked.1)).resolve_left asked.2
  have oldFits := divCeil_mul_le small.1
  have newFits := divCeil_mul_le small.2
  refine (safe_mul (by omega)).bind fun oldEnd oldSame => (safe_mul (by omega)).bind fun newEnd newSame => ?_
  refine (safe_userMapped asked.1 (by omega)).bind fun mapped covers => ?_
  split
  · trivial
  rename_i isMapped
  split
  · trivial
  split
  · rename_i shrinks
    -- the first page let go was found mapped, so its address is a word
    have within : newEnd / PAGE < divCeil oldEnd PAGE := by
      unfold divCeil
      rw [oldSame, newSame, page] at *
      split
      all_goals omega
    have known := covers (Bool.not_eq_false _ ▸ isMapped) (newEnd / PAGE) within
    have whole : newEnd / PAGE * PAGE = newEnd := by
      rw [newSame, page]
      omega
    rw [whole] at known
    refine Safe.add known <| Safe.sub shrinks.le ?_
    split
    all_goals trivial
  · trivial

def InI64 (n : Int) : Prop := -2 ^ 63 ≤ n ∧ n < 2 ^ 63

instance (n : Int) : Decidable (InI64 n) := inferInstanceAs (Decidable (_ ∧ _))

def LockFits (base start len : Int) : Prop :=
  InI64 (base + start) ∧ (len < 0 → InI64 (base + start + len) ∧ len ≠ -2 ^ 63)

instance (base start len : Int) : Decidable (LockFits base start len) := inferInstanceAs (Decidable (_ ∧ _))

theorem safe_addI64 {a b : Int} (fits : InI64 (a + b)) : Safe (addInt 64 a b : R Int) (· = a + b) := safe_addInt fits

theorem safe_lockRange {base start len : Int} (word : -2 ^ 63 ≤ len) (fits : LockFits base start len) :
    Safe (lockRange base start len) fun _ => True := by
  unfold lockRange
  split
  · rename_i negative
    obtain ⟨first, other⟩ := fits.2 negative
    refine (safe_addI64 fits.1).bind fun start same => ?_
    subst same
    exact (safe_addI64 first).bind fun _ _ => (safe_neg (by omega)).bind fun _ _ => trivial
  · exact (safe_addI64 fits.1).bind fun _ _ => trivial

example : Overflows (lockRange 0 0 (-2 ^ 63)) := by decide +kernel

def RecordFits (mem : Mem) (env : LockEnv) (arg : Nat) : Prop :=
  match env.base (mem.signed (arg + 2) 2) with
  | .ok base => LockFits base (mem.signed (arg + 8) 8) (mem.signed (arg + 16) 8)
  | .error _ => True

instance (mem : Mem) (env : LockEnv) (arg : Nat) : Decidable (RecordFits mem env arg) := by
  unfold RecordFits
  cases env.base (mem.signed (arg + 2) 2) with
  | ok base => exact inferInstanceAs (Decidable (LockFits _ _ _))
  | error fault => exact .isTrue trivial

theorem safe_base (env : LockEnv) (whence : Int) : Safe (env.base whence) fun base => env.base whence = .ok base := by
  unfold LockEnv.base
  split
  · cases env.pos with
    | none => trivial
    | some pos => rfl
  split
  · cases env.size with
    | none => trivial
    | some size => rfl
  · rfl

theorem safe_recordLock {mem : Mem} {env : LockEnv} {arg : Nat} (get : Bool) (fits : RecordFits mem env arg) :
    Safe (recordLock mem env arg get) fun _ => True := by
  unfold RecordFits at fits
  unfold recordLock
  have least := mem.signed_ge (arg + 16)
  generalize mem.signed (arg + 2) 2 = whence at fits ⊢
  generalize mem.signed (arg + 8) 8 = start at fits ⊢
  generalize mem.signed (arg + 16) 8 = len at fits least ⊢
  generalize mem.signed arg 2 = kind
  refine (Mem.safe_get arg 32).bind fun _ _ => (safe_base env whence).bind fun base known => ?_
  rw [known] at fits
  refine (safe_lockRange least fits).bind fun range _ => ?_
  dsimp only
  split
  · trivial
  split
  · trivial
  · exact (Mem.safe_putIf get arg 32).bind fun _ _ => trivial

section Waits

variable {fds nfds : Nat} {mem : Mem} {look : Look} {later : List Look} {now : Nat}

theorem safe_lookOnce (deadline : Option Nat) {scan : Look → R Nat} {post : Nat → Prop}
    (safe : ∀ look, Safe (scan look) post) (look : Look) :
    Safe (lookOnce deadline scan look) fun ready => ∀ n, ready = some n → post n := by
  refine (safe look).bind fun ready good => ?_
  split
  · intro n same
    cases same
    exact good
  split
  · trivial
  · intro n same
    cases same

theorem safe_waitReady (deadline : Option Nat) {scan : Look → R Nat} {post : Nat → Prop}
    (safe : ∀ look, Safe (scan look) post) (look : Look) (later : List Look) :
    Safe (waitReady deadline scan look later) fun waited => ∀ n, waited = .ready n → post n := by
  induction later generalizing look with
  | nil =>
    refine (safe_lookOnce deadline safe look).bind fun ended good => ?_
    cases ended with
    | none => exact fun n same => by cases same
    | some ready => exact fun n same => by cases same; exact good ready rfl
  | cons next later ih =>
    refine (safe_lookOnce deadline safe look).bind fun ended good => ?_
    cases ended with
    | none => exact ih next
    | some ready => exact fun n same => by cases same; exact good ready rfl

theorem counts_le (rev : BitVec 16) : counts rev ≤ 1 := by
  unfold counts
  split
  all_goals decide

theorem safe_pollScan (left i ready : Nat) (few : i + left ≤ 64) (counted : ready ≤ i)
    (reached : fds + i * 8 < 2 ^ 64) : Safe (pollScan fds look left i ready) fun _ => True := by
  induction left generalizing i ready with
  | zero => trivial
  | succ left ih =>
    refine Safe.mul (by omega) ?_
    refine Safe.add reached ?_
    refine (Mem.safe_get _ 8).bind fun _ copied => ?_
    refine Safe.mul (by omega) ?_
    refine Safe.add reached <| (Mem.safe_put _ 8).bind fun _ _ => ?_
    have once := counts_le (if look.mem.signed (fds + i * 8) 4 < 0 then 0 else
      look.events (look.mem.signed (fds + i * 8) 4).toNat (BitVec.ofNat 16 (look.mem.leNat (fds + i * 8 + 4) 2)))
    refine (safe_add (by omega)).bind fun next same => ?_
    exact ih (i + 1) next (by omega) (by omega) (by omega)

theorem safe_timeoutUs {ms : Int} (fits : ms ≤ 18446744073709551) : Safe (timeoutUs ms) fun _ => True := by
  unfold timeoutUs
  split
  · exact Safe.mul (by omega) trivial
  · trivial

theorem safe_poll {ms : Int} (word : fds < 2 ^ 64) (fits : ms ≤ 18446744073709551) :
    Safe (poll now fds nfds ms look later) fun _ => True := by
  unfold poll
  split
  · trivial
  refine (safe_timeoutUs fits).bind fun timeout _ => ?_
  have scans : ∀ look, Safe (pollScan fds look nfds 0 0) fun _ => True := fun look =>
    safe_pollScan nfds 0 0 (by omega) (Nat.le_refl 0) (by omega)
  exact (safe_waitReady _ scans look later).mono fun _ _ => trivial

def timespecAt (mem : Mem) (ts : Nat) : Nat := mem.leNat ts 8 * 1000000 + divCeil (mem.leNat (ts + 8) 8) 1000

theorem safe_timespecUs (ts : Nat) :
    Safe (timespecUs mem ts) fun timeout => ∀ us, timeout = some us → us ≤ timespecAt mem ts ∧ ts ≠ 0 := by
  unfold timespecUs
  split
  · exact fun _ member => by cases member
  rename_i given
  refine (Mem.safe_getU64 ts).bind fun sec read => ?_
  refine Safe.add read.2 ?_
  refine (Mem.safe_getU64 (ts + 8)).bind fun nsec last us same => ⟨?_, given⟩
  rw [← Option.some.inj same, read.1, last.1]
  unfold saturatingAdd saturatingMul timespecAt
  omega

theorem timeoutMs_le {timeout : Option Nat} (fits : ∀ us, timeout = some us → us ≤ 18446744073709551000) :
    timeoutMs timeout ≤ 18446744073709551 := by
  cases timeout with
  | none => decide
  | some us =>
    have bound := fits us rfl
    have rounded : divCeil us 1000 ≤ 18446744073709551 := by
      unfold divCeil
      split
      all_goals omega
    exact Int.ofNat_le.mpr ((Nat.min_le_left _ _).trans rounded)

-- the longest `timespec` of `ppoll`, and the largest timeout of `epoll_wait`
example : Overflows (timeoutUs (timeoutMs (some U64_MAX))) ∧ Overflows (timeoutUs (2 ^ 63 - 1)) := by decide +kernel

def TimespecFits (mem : Mem) (ts : Nat) : Prop := ts = 0 ∨ timespecAt mem ts ≤ 18446744073709551000

instance (mem : Mem) (ts : Nat) : Decidable (TimespecFits mem ts) := inferInstanceAs (Decidable (_ ∨ _))

theorem safe_timespecMs {ts : Nat} (fits : TimespecFits mem ts) :
    Safe (timespecUs mem ts) fun timeout => timeoutMs timeout ≤ 18446744073709551 :=
  (safe_timespecUs ts).mono fun _ read => timeoutMs_le fun us same =>
    (read us same).1.trans (fits.resolve_left (read us same).2)

theorem safe_ppoll {ts : Nat} (word : fds < 2 ^ 64) (fits : TimespecFits mem ts) :
    Safe (ppoll mem now fds nfds ts look later) fun _ => True :=
  (safe_timespecMs fits).bind fun _ small => safe_poll word small

theorem safe_getSet {ptr : Nat} (left w : Nat) (few : w + left ≤ 16) (reached : ptr + w * 8 < 2 ^ 64) :
    Safe (getSet mem ptr left w) fun _ => ptr + (w + left) * 8 < 2 ^ 64 := by
  induction left generalizing w with
  | zero => exact reached
  | succ left ih =>
    refine Safe.mul (by omega) ?_
    refine Safe.add reached ?_
    refine (Mem.safe_getU64 _).bind fun word read => ?_
    refine (ih (w + 1) (by omega) (by omega)).bind fun _ last => ?_
    show ptr + (w + (left + 1)) * 8 < 2 ^ 64
    omega

theorem safe_putSet {ptr : Nat} (left w : Nat) (few : w + left ≤ 16) (reached : ptr + (w + left) * 8 < 2 ^ 64) :
    Safe (putSet mem ptr left w) fun _ => True := by
  induction left generalizing w with
  | zero => trivial
  | succ left ih =>
    refine Safe.mul (by omega) ?_
    refine Safe.add (by omega) <| (Mem.safe_put _ 8).bind fun _ _ => ?_
    exact ih (w + 1) (by omega) (by omega)

def SetFits (words ptr : Nat) : Prop := ptr + (if ptr = 0 then 0 else words) * 8 < 2 ^ 64

theorem safe_getSets {words : Nat} (few : words ≤ 16) (sets : List Nat) (word : ∀ ptr ∈ sets, ptr < 2 ^ 64) :
    Safe (getSets mem words sets) fun _ => ∀ ptr ∈ sets, SetFits words ptr := by
  induction sets with
  | nil => exact fun ptr missing => absurd missing List.not_mem_nil
  | cons ptr rest ih =>
    have first := word ptr (.head _)
    have size : (if ptr = 0 then 0 else words) ≤ 16 := by
      split
      all_goals omega
    refine (safe_getSet _ 0 (by omega) (by omega)).bind fun _ fits => ?_
    refine (ih fun p member => word p (.tail _ member)).bind fun _ others p member => ?_
    rcases List.mem_cons.mp member with rfl | member
    · rw [Nat.zero_add] at fits
      exact fits
    · exact others p member

theorem safe_putSets {words : Nat} (few : words ≤ 16) (sets : List Nat) (fits : ∀ ptr ∈ sets, SetFits words ptr) :
    Safe (putSets mem words sets) fun _ => True := by
  induction sets with
  | nil => trivial
  | cons ptr rest ih =>
    have first := fits ptr (.head _)
    have size : (if ptr = 0 then 0 else words) ≤ 16 := by
      split
      all_goals omega
    refine (safe_putSet _ 0 (by omega) (by rw [Nat.zero_add]; exact first)).bind fun _ _ => ?_
    exact ih fun p member => fits p (.tail _ member)

theorem safe_selectOne (want : List (List Nat)) (look : Look) (fd : Nat) :
    Safe (selectOne want look fd) fun n => n ≤ 2 := by
  unfold selectOne
  dsimp only
  split
  · exact Nat.zero_le _
  split
  · trivial
  show (if _ then 1 else 0) + (if _ then 1 else 0) ≤ 2
  split
  all_goals split
  all_goals decide

theorem safe_selectScan (want : List (List Nat)) (look : Look) (left fd ready : Nat) (few : fd + left ≤ 1024)
    (counted : ready ≤ 2 * fd) : Safe (selectScan want look left fd ready) fun _ => True := by
  induction left generalizing fd ready with
  | zero => trivial
  | succ left ih =>
    refine (safe_selectOne want look fd).bind fun here most => (safe_add (by omega)).bind fun next same => ?_
    exact ih (fd + 1) next (by omega) (by omega)

theorem safe_selectSets {sets : List Nat} (word : ∀ ptr ∈ sets, ptr < 2 ^ 64) (timeout : Option Nat) :
    Safe (selectSets mem now nfds sets timeout look later) fun _ => True := by
  have size : FD_SETSIZE = 1024 := rfl
  unfold selectSets
  split
  · trivial
  have few : divCeil nfds 64 ≤ 16 := by
    unfold divCeil
    split
    all_goals omega
  refine (safe_getSets few sets word).bind fun want fits => ?_
  have scans : ∀ look, Safe (selectScan want look nfds 0 0) fun _ => True := fun look =>
    safe_selectScan want look nfds 0 0 (by omega) (Nat.le_refl 0)
  refine (safe_waitReady _ scans look later).bind fun waited _ => ?_
  cases waited with
  | ready n => exact (safe_putSets few sets fits).bind fun _ _ => trivial
  | asleep limit => trivial

theorem safe_timevalUs (tv : Nat) : Safe (timevalUs mem tv) fun _ => True := by
  unfold timevalUs
  split
  · trivial
  · refine (Mem.safe_getU64 tv).bind fun sec read => ?_
    exact Safe.add read.2 <| (Mem.safe_getU64 _).bind fun _ _ => trivial

theorem eventSize_le (arch : Arch) : arch.EPOLL_EVENT_SIZE ≤ 16 := by
  cases arch with
  | x86_64 => decide
  | aarch64 => decide
  | riscv64 => decide

theorem safe_epollWait (arch : Arch) (isWait : Bool) (found : Look → Option Nat) (events : Nat) (maxevents : Int)
    {ms : Int} (fits : ms ≤ 18446744073709551) :
    Safe (epollWait arch mem isWait found now events maxevents ms look later) fun _ => True := by
  have most : EPOLL_MAX_EVENTS = 64 := rfl
  have size := eventSize_le arch
  -- at most 64 events of at most 16 bytes
  have span : ∀ n, n ≤ 64 → n * arch.EPOLL_EVENT_SIZE < 2 ^ 64 := fun n few =>
    (Nat.mul_le_mul few size).trans_lt (by decide)
  unfold epollWait
  split
  · trivial
  split
  · trivial
  refine Safe.mul (span _ (by omega)) ?_
  split
  · trivial
  refine (safe_timeoutUs fits).bind fun timeout _ => ?_
  refine (safe_waitReady _ (fun look => ?_) look later).bind
    fun waited (few : ∀ n, waited = .ready n → n ≤ 64) => ?_
  · cases found look with
    | none => trivial
    | some n =>
      show min n (min maxevents.toNat EPOLL_MAX_EVENTS) ≤ 64
      omega
  cases waited with
  | ready taken =>
    refine Safe.mul (span taken (few taken rfl)) ?_
    exact (Mem.safe_putIf _ _ _).bind fun _ _ => trivial
  | asleep limit => trivial

end Waits

section Signals

variable {mem : Mem} {alt : AltStack} {sp : Nat}

def AltStack.Wf (alt : AltStack) : Prop := alt.size = 0 ∨ MINSIGSTKSZ ≤ alt.size

theorem safe_holds (alt : AltStack) (sp : Nat) :
    Safe (alt.holds sp) fun held => held = decide (alt.size ≠ 0 ∧ alt.sp < sp ∧ sp ≤ alt.sp + alt.size) := by
  unfold AltStack.holds
  split
  · rename_i above
    refine (safe_sub above.2.le).bind fun off same => ?_
    exact decide_eq_decide.mpr ⟨fun within => ⟨above.1, above.2, by omega⟩, fun within => by omega⟩
  · rename_i outside
    exact (decide_eq_false fun held => outside ⟨held.1, held.2.1⟩).symm

theorem safe_stackT (alt : AltStack) (sp : Nat) : Safe (alt.stackT sp) fun _ => True := by
  unfold AltStack.stackT
  split
  · trivial
  · exact (safe_holds alt sp).bind fun _ _ => trivial

theorem safe_newStack (old : AltStack) (ss sp : Nat) : Safe (newStack mem old ss sp) fun new => new.Wf := by
  refine (Mem.safe_getU64 ss).bind fun base first => (safe_add first.2).bind fun second same => ?_
  subst same
  refine (Mem.safe_getU64 (ss + 8)).bind fun flags next => (safe_add (by omega)).bind fun third same => ?_
  refine (Mem.safe_getU64 third).bind fun size _ => (safe_holds old sp).bind fun held _ => ?_
  dsimp only
  split
  · trivial
  split
  · exact .inl rfl
  split
  · split
    · trivial
    · rename_i enough
      exact .inr (Nat.le_of_not_lt enough)
  · trivial

theorem safe_reportStack (old : AltStack) (oss sp : Nat) : Safe (reportStack mem old oss sp) fun _ => True := by
  unfold reportStack
  split
  · trivial
  · exact (safe_stackT old sp).bind fun _ _ => Mem.safe_put oss 24

theorem safe_sigaltstack {old : AltStack} (wf : old.Wf) (ss oss sp : Nat) :
    Safe (sigaltstack mem old ss oss sp) fun new => new.Wf := by
  unfold sigaltstack
  split
  · exact (safe_reportStack old oss sp).bind fun _ _ => wf
  · exact (safe_newStack old ss sp).bind fun _ good => (safe_reportStack old oss sp).bind fun _ _ => good

theorem safe_archDeliver {arch : Arch} (word : sp < 2 ^ 64) (fits : arch = .x86_64 → sp < 1088 ∨ 1408 ≤ sp) :
    Safe (arch.deliver mem sp) fun _ => True := by
  -- the sizes of the frame's parts stay names, known to omega only
  cases arch with
  | x86_64 =>
    have fits := fits rfl
    have below : RED_ZONE + Arch.FP_BYTES .x86_64 = 960 := rfl
    have known : Arch.UC_BYTES .x86_64 = 304 := rfl
    dsimp only [Arch.deliver, Arch.alignDown]
    generalize RED_ZONE + Arch.FP_BYTES .x86_64 = head at below ⊢
    generalize Arch.UC_BYTES .x86_64 = context at known ⊢
    split
    · trivial
    split
    · trivial
    · exact Safe.sub (by omega) <| Safe.sub (by omega) trivial
  | aarch64 =>
    have info : SIGINFO_BYTES = 128 := rfl
    have known : Arch.UC_BYTES .aarch64 = 4560 := rfl
    dsimp only [Arch.deliver, Arch.alignDown]
    generalize SIGINFO_BYTES = head at info ⊢
    generalize Arch.UC_BYTES .aarch64 = context at known ⊢
    split
    · trivial
    · exact Safe.add (by omega) <| Safe.add (by omega) trivial
  | riscv64 =>
    have info : SIGINFO_BYTES = 128 := rfl
    have known : Arch.UC_BYTES .riscv64 = 960 := rfl
    dsimp only [Arch.deliver, Arch.alignDown]
    generalize SIGINFO_BYTES = head at info ⊢
    generalize Arch.UC_BYTES .riscv64 = context at known ⊢
    split
    · trivial
    · exact Safe.add (by omega) trivial

/-- The frame's stack has a top that is a word, and on x86_64 a user stack pointer is not in the 320 bytes where the
frame fits only in part. -/
def DeliverFits (arch : Arch) (alt : AltStack) (flags : BitVec 32) (sp : Nat) : Prop :=
  if flags &&& SA_ONSTACK ≠ 0 ∧ alt.size ≠ 0 ∧ ¬ (alt.sp < sp ∧ sp ≤ alt.sp + alt.size) then alt.sp + alt.size < 2 ^ 64
  else arch = .x86_64 → sp < 1088 ∨ 1408 ≤ sp

instance (arch : Arch) (alt : AltStack) (flags : BitVec 32) (sp : Nat) : Decidable (DeliverFits arch alt flags sp) :=
  inferInstanceAs (Decidable (ite _ _ _))

theorem safe_frameTop {arch : Arch} {flags : BitVec 32} {held : Bool} (wf : alt.Wf) (word : sp < 2 ^ 64)
    (fits : DeliverFits arch alt flags sp)
    (known : held = decide (alt.size ≠ 0 ∧ alt.sp < sp ∧ sp ≤ alt.sp + alt.size)) :
    Safe (frameTop alt flags sp held) fun top => top < 2 ^ 64 ∧ (arch = .x86_64 → top < 1088 ∨ 1408 ≤ top) := by
  have least : MINSIGSTKSZ = 5120 := rfl
  unfold DeliverFits at fits
  unfold frameTop
  split
  · rename_i onAlt
    have off : ¬ (alt.sp < sp ∧ sp ≤ alt.sp + alt.size) := fun on => by
      rw [decide_eq_true ⟨onAlt.2.1, on⟩] at known
      exact Bool.false_ne_true (onAlt.2.2.symm.trans known)
    rw [if_pos ⟨onAlt.1, onAlt.2.1, off⟩] at fits
    refine (safe_add fits).mono fun top same => ⟨by omega, fun _ => .inr ?_⟩
    have size := wf.resolve_left onAlt.2.1
    omega
  · rename_i user
    refine ⟨word, ?_⟩
    rw [if_neg fun onAlt => user ⟨onAlt.1, onAlt.2.1, known.trans (decide_eq_false fun on => onAlt.2.2 on.2)⟩] at fits
    exact fits

theorem safe_deliver {arch : Arch} {flags : BitVec 32} (wf : alt.Wf) (word : sp < 2 ^ 64)
    (fits : DeliverFits arch alt flags sp) : Safe (deliver arch mem alt flags sp) fun _ => True := by
  refine (safe_holds alt sp).bind fun held known => (safe_frameTop wf word fits known).bind fun top fits => ?_
  exact (safe_stackT alt sp).bind fun _ _ => safe_archDeliver fits.1 fits.2

example : Overflows (deliver .aarch64 ⟨fun _ _ => true, fun _ => 0⟩ ⟨U64_MAX, 8192⟩ SA_ONSTACK 0x7000) ∧
    Overflows (deliver .x86_64 ⟨fun _ _ => true, fun _ => 0⟩ .NONE 0 1088) := by decide +kernel

end Signals

end Myos.Modules.Linux
