import Myos.Lib.Checked
import Myos.Lib.Consts
import Myos.User.Mmap

/-! The calls of the Linux personality that compute with words of the program's: `mremap`, the record locks of `fcntl`,
the waits of `poll`, `select` and `epoll`, and the alternate signal stack with the frames put on it. -/

namespace Myos.Modules.Linux
open Lib Checked

inductive Errno where
  | EINVAL | EFAULT | ENOMEM | EINTR | EBADF | EPERM | ESPIPE | ELOCK
  deriving DecidableEq

abbrev R := Checked Errno

def ISIZE_MAX : Nat := 2 ^ 63 - 1

def saturatingMul (a b : Nat) : Nat := min (a * b) U64_MAX
def divCeil (a b : Nat) : Nat := a / b + if a % b = 0 then 0 else 1

structure Mem where
  mapped : Nat → Nat → Bool
  byte : Nat → BitVec 8

namespace Mem

variable (mem : Mem)

def bufferOk (ptr len : Nat) : Bool := decide (ptr + len < 2 ^ 64) && mem.mapped ptr len

def takes (ptr len : Nat) : Bool := decide (ptr ≠ 0) && mem.bufferOk ptr len

def put (ptr len : Nat) : R Unit := if mem.takes ptr len then return () else fail .EFAULT

def putIf (wanted : Bool) (ptr len : Nat) : R Unit := if wanted then mem.put ptr len else return ()

def leNat (ptr : Nat) : Nat → Nat
  | 0 => 0
  | len + 1 => (mem.byte ptr).toNat + 256 * leNat (ptr + 1) len

def get (ptr len : Nat) : R Unit := if mem.takes ptr len then return () else fail .EFAULT

def getU64 (ptr : Nat) : R Nat := do
  mem.get ptr 8
  return mem.leNat ptr 8

def signed (ptr len : Nat) : Int := (BitVec.ofNat (8 * len) (mem.leNat ptr len)).toInt

end Mem

structure Maps where
  page : Nat → Bool
  munmap : Nat → Nat → Bool

def Maps.userMapped (maps : Maps) (addr len : Nat) : R Bool := do
  let pages := divCeil (← add 64 (addr % PAGE) len) PAGE
  if User.MMAP_AREA_PAGES < pages then return false
  else
    let first := addr - addr % PAGE
    return (List.range pages).all fun i => decide (first + i * PAGE < 2 ^ 64) && maps.page (first + i * PAGE)

def mremap (maps : Maps) (old oldSize newSize : Nat) : R Nat :=
  if old % PAGE ≠ 0 ∨ newSize = 0 then fail .EINVAL
  else do
    let oldEnd ← mul 64 (divCeil oldSize PAGE) PAGE
    let newEnd ← mul 64 (divCeil newSize PAGE) PAGE
    let mapped ← maps.userMapped old oldEnd
    if mapped = false then fail .EFAULT
    else if oldEnd < newEnd then fail .ENOMEM
    else if newEnd < oldEnd then
      let start ← add 64 old newEnd
      let len ← sub oldEnd newEnd
      if maps.munmap start len then return old else fail .EFAULT
    else return old

structure LockEnv where
  pos : Option (BitVec 64)
  size : Option (BitVec 64)
  lockctl : Nat → BitVec 64 → BitVec 64 → Bool

def SEEK_CUR : Int := 1
def SEEK_END : Int := 2

def LockEnv.base (env : LockEnv) (whence : Int) : R Int :=
  if whence = SEEK_CUR then
    match env.pos with
    | some pos => return pos.toInt
    | none => fail .ESPIPE
  else if whence = SEEK_END then
    match env.size with
    | some size => return size.toInt
    | none => fail .EINVAL
  else return 0

def lockRange (base start len : Int) : R (Int × Int) :=
  if len < 0 then do
    let first ← addInt 64 (← addInt 64 base start) len
    return (first, ← neg 64 len)
  else do return (← addInt 64 base start, len)

def recordLock (mem : Mem) (env : LockEnv) (arg : Nat) (get : Bool) : R Nat := do
  mem.get arg 32
  let base ← env.base (mem.signed (arg + 2) 2)
  let (start, len) ← lockRange base (mem.signed (arg + 8) 8) (mem.signed (arg + 16) 8)
  let kind := mem.signed arg 2
  if start < 0 ∨ kind < 0 ∨ 2 < kind then fail .EINVAL
  else if env.lockctl kind.toNat (BitVec.ofInt 64 start) (BitVec.ofInt 64 len) = false then fail .ELOCK
  else do
    mem.putIf get arg 32
    return 0

/-- One look of a waiting call: the memory, the events each descriptor has and whether to look again soon, whether a
signal came, and the clock after the look and before the sleep. -/
structure Look where
  mem : Mem
  events : Nat → BitVec 16 → BitVec 16
  recheck : Bool
  signalled : Bool
  checked : Nat
  slept : Nat

inductive Waited where
  | ready (n : Nat)
  | asleep (limit : Nat)

def deadlineOf (timeout : Option Nat) (now : Nat) : Option Nat :=
  timeout.map fun t => max (saturatingAdd now (saturatingMul t 1000)) 1

def sleepUntil (deadline : Option Nat) (look : Look) : Nat :=
  let limit := deadline.getD 0
  if look.recheck then
    let soon := saturatingAdd look.slept 10000000
    if limit = 0 then soon else min limit soon
  else limit

def lookOnce (deadline : Option Nat) (scan : Look → R Nat) (look : Look) : R (Option Nat) := do
  let ready ← scan look
  if 0 < ready ∨ deadline.any (· ≤ look.checked) then return some ready
  else if look.signalled then fail .EINTR
  else return none

def waitReady (deadline : Option Nat) (scan : Look → R Nat) (look : Look) : List Look → R Waited
  | [] => do
    match ← lookOnce deadline scan look with
    | some ready => return .ready ready
    | none => return .asleep (sleepUntil deadline look)
  | next :: later => do
    match ← lookOnce deadline scan look with
    | some ready => return .ready ready
    | none => waitReady deadline scan next later

def counts (rev : BitVec 16) : Nat := if rev = 0 then 0 else 1

def pollScan (fds : Nat) (look : Look) : Nat → Nat → Nat → R Nat
  | 0, _, ready => return ready
  | left + 1, i, ready => do
    let entry ← add 64 fds (← mul 64 i 8)
    look.mem.get entry 8
    let fd := look.mem.signed entry 4
    let rev := if fd < 0 then 0 else look.events fd.toNat (BitVec.ofNat 16 (look.mem.leNat (entry + 4) 2))
    look.mem.put (← add 64 fds (← mul 64 i 8)) 8
    let ready ← add 64 ready (counts rev)
    pollScan fds look left (i + 1) ready

def timeoutUs (ms : Int) : R (Option Nat) :=
  if 0 ≤ ms then do return some (← mul 64 ms.toNat 1000) else return none

def poll (now : Nat) (fds nfds : Nat) (ms : Int) (look : Look) (later : List Look) : R Waited :=
  if 64 < nfds then fail .EINVAL
  else do
    let timeout ← timeoutUs ms
    waitReady (deadlineOf timeout now) (fun look => pollScan fds look nfds 0 0) look later

def timespecUs (mem : Mem) (ts : Nat) : R (Option Nat) :=
  if ts = 0 then return none
  else do
    let sec ← mem.getU64 ts
    let nsec ← mem.getU64 (← add 64 ts 8)
    return some (saturatingAdd (saturatingMul sec 1000000) (divCeil nsec 1000))

def timeoutMs (timeout : Option Nat) : Int :=
  match timeout with
  | none => -1
  | some us => (min (divCeil us 1000) ISIZE_MAX : Nat)

def ppoll (mem : Mem) (now : Nat) (fds nfds ts : Nat) (look : Look) (later : List Look) : R Waited := do
  let timeout ← timespecUs mem ts
  poll now fds nfds (timeoutMs timeout) look later

def FD_SETSIZE : Nat := 1024

def getSet (mem : Mem) (ptr : Nat) : Nat → Nat → R (List Nat)
  | 0, _ => return []
  | left + 1, w => do
    let word ← mem.getU64 (← add 64 ptr (← mul 64 w 8))
    return word :: (← getSet mem ptr left (w + 1))

def putSet (mem : Mem) (ptr : Nat) : Nat → Nat → R Unit
  | 0, _ => return ()
  | left + 1, w => do
    mem.put (← add 64 ptr (← mul 64 w 8)) 8
    putSet mem ptr left (w + 1)

def getSets (mem : Mem) (words : Nat) : List Nat → R (List (List Nat))
  | [] => return []
  | ptr :: rest => do
    let set ← getSet mem ptr (if ptr = 0 then 0 else words) 0
    return set :: (← getSets mem words rest)

def putSets (mem : Mem) (words : Nat) : List Nat → R Unit
  | [] => return ()
  | ptr :: rest => do
    putSet mem ptr (if ptr = 0 then 0 else words) 0
    putSets mem words rest

def wanted (set : List Nat) (fd : Nat) : Bool := (set.getD (fd / 64) 0).testBit (fd % 64)

def POLLIN : BitVec 16 := 1
def POLLPRI : BitVec 16 := 2
def POLLOUT : BitVec 16 := 4
def POLLERR : BitVec 16 := 8
def POLLHUP : BitVec 16 := 0x10
def POLLNVAL : BitVec 16 := 0x20

def selectOne (want : List (List Nat)) (look : Look) (fd : Nat) : R Nat :=
  let has := fun i => wanted (want.getD i []) fd
  if (has 0 || has 1 || has 2) = false then return 0
  else
    let rev := look.events fd (POLLIN ||| POLLOUT ||| POLLPRI)
    if rev &&& POLLNVAL ≠ 0 then fail .EBADF
    else
      let r := if has 0 && rev &&& (POLLIN ||| POLLHUP ||| POLLERR) != 0 then 1 else 0
      return r + if has 1 && rev &&& (POLLOUT ||| POLLERR) != 0 then 1 else 0

def selectScan (want : List (List Nat)) (look : Look) : Nat → Nat → Nat → R Nat
  | 0, _, ready => return ready
  | left + 1, fd, ready => do
    let here ← selectOne want look fd
    selectScan want look left (fd + 1) (← add 64 ready here)

def selectSets (mem : Mem) (now : Nat) (nfds : Nat) (sets : List Nat) (timeout : Option Nat) (look : Look)
    (later : List Look) : R Waited :=
  if FD_SETSIZE < nfds then fail .EINVAL
  else do
    let words := divCeil nfds 64
    let want ← getSets mem words sets
    match ← waitReady (deadlineOf timeout now) (fun look => selectScan want look nfds 0 0) look later with
    | .ready n =>
      putSets mem words sets
      return .ready n
    | .asleep limit => return .asleep limit

def timevalUs (mem : Mem) (tv : Nat) : R (Option Nat) :=
  if tv = 0 then return none
  else do
    let sec ← mem.getU64 tv
    let usec ← mem.getU64 (← add 64 tv 8)
    return some (saturatingAdd (saturatingMul sec 1000000) usec)

def select (mem : Mem) (now : Nat) (nfds rfds wfds efds tv : Nat) (look : Look) (later : List Look) : R Waited := do
  let timeout ← timevalUs mem tv
  selectSets mem now nfds [rfds, wfds, efds] timeout look later

def pselect6 (mem : Mem) (now : Nat) (nfds rfds wfds efds ts : Nat) (look : Look) (later : List Look) : R Waited := do
  let timeout ← timespecUs mem ts
  selectSets mem now nfds [rfds, wfds, efds] timeout look later

inductive Arch where
  | x86_64 | aarch64 | riscv64
  deriving DecidableEq

def EPOLL_MAX_EVENTS : Nat := 64

def Arch.EPOLL_EVENT_SIZE : Arch → Nat
  | x86_64 => 12
  | _ => 16

def epollWait (arch : Arch) (mem : Mem) (isWait : Bool) (found : Look → Option Nat) (now : Nat) (events : Nat)
    (maxevents ms : Int) (look : Look) (later : List Look) : R Waited :=
  if maxevents ≤ 0 then fail .EINVAL
  else if isWait = false then fail .EINVAL
  else do
    let most := min maxevents.toNat EPOLL_MAX_EVENTS
    let span ← mul 64 most arch.EPOLL_EVENT_SIZE
    if mem.bufferOk events span = false then fail .EFAULT
    else
      let timeout ← timeoutUs ms
      let scan : Look → R Nat := fun look =>
        match found look with
        | none => fail .EINVAL
        | some n => return min n most
      match ← waitReady (deadlineOf timeout now) scan look later with
      | .ready taken =>
        let bytes ← mul 64 taken arch.EPOLL_EVENT_SIZE
        mem.putIf (decide (bytes ≠ 0)) events bytes
        return .ready taken
      | .asleep limit => return .asleep limit

def epollPwait2 (arch : Arch) (mem : Mem) (isWait : Bool) (found : Look → Option Nat) (now : Nat) (events : Nat)
    (maxevents : Int) (ts : Nat) (look : Look) (later : List Look) : R Waited := do
  let timeout ← timespecUs mem ts
  epollWait arch mem isWait found now events maxevents (timeoutMs timeout) look later

structure AltStack where
  sp : Nat
  size : Nat
  deriving DecidableEq

namespace AltStack

def NONE : AltStack := ⟨0, 0⟩

def holds (alt : AltStack) (sp : Nat) : R Bool :=
  if alt.size ≠ 0 ∧ alt.sp < sp then do return decide ((← sub sp alt.sp) ≤ alt.size) else return false

def stackT (alt : AltStack) (sp : Nat) : R Nat :=
  if alt.size = 0 then return 2
  else do
    let held ← alt.holds sp
    return if held then 1 else 0

end AltStack

def SS_ONSTACK : BitVec 32 := 1
def SS_DISABLE : BitVec 32 := 2
def SS_AUTODISARM : BitVec 32 := 1 <<< 31
def MINSIGSTKSZ : Nat := 5120
def SA_ONSTACK : BitVec 32 := 0x08000000

def newStack (mem : Mem) (old : AltStack) (ss sp : Nat) : R AltStack := do
  let base ← mem.getU64 ss
  let flags ← mem.getU64 (← add 64 ss 8)
  let size ← mem.getU64 (← add 64 ss 16)
  let held ← old.holds sp
  let flags := BitVec.ofNat 32 flags &&& ~~~SS_AUTODISARM
  if held then fail .EPERM
  else if flags = SS_DISABLE then return .NONE
  else if flags = 0 ∨ flags = SS_ONSTACK then
    if size < MINSIGSTKSZ then fail .ENOMEM else return ⟨base, size⟩
  else fail .EINVAL

def reportStack (mem : Mem) (old : AltStack) (oss sp : Nat) : R Unit :=
  if oss = 0 then return ()
  else do
    let _ ← old.stackT sp
    mem.put oss 24

def sigaltstack (mem : Mem) (old : AltStack) (ss oss sp : Nat) : R AltStack :=
  if ss = 0 then do
    reportStack mem old oss sp
    return old
  else do
    let new ← newStack mem old ss sp
    reportStack mem old oss sp
    return new

def RED_ZONE : Nat := 128
def SIGINFO_BYTES : Nat := 128
def UC_MCONTEXT : Nat := 176

namespace Arch

def FP_BYTES : Arch → Nat
  | x86_64 => 832
  | aarch64 => 528
  | riscv64 => 264

def UC_BYTES : Arch → Nat
  | x86_64 => 304
  | aarch64 => UC_MCONTEXT + 288 + 4096
  | riscv64 => UC_MCONTEXT + 256 + 528

def alignDown (n unit : Nat) : Nat := n - n % unit

/-- The frame of a handler below `sp`: the handler's stack pointer, or `none` where it does not fit and the kernel kills
the task. -/
def deliver (mem : Mem) (sp : Nat) : Arch → R (Option Nat)
  | x86_64 =>
    if sp < RED_ZONE + FP_BYTES x86_64 then return none
    else
      let fpVa := alignDown (sp - (RED_ZONE + FP_BYTES x86_64)) 64
      if fpVa < 128 then return none
      else do
        let infoVa := alignDown (fpVa - 128) 16
        let ucVa ← sub infoVa (UC_BYTES x86_64)
        let frameVa ← sub ucVa 8
        return if mem.takes fpVa (FP_BYTES x86_64) && mem.takes infoVa 128 &&
          mem.takes ucVa (UC_BYTES x86_64) && mem.takes frameVa 8 then some frameVa else none
  | aarch64 =>
    if sp < SIGINFO_BYTES + UC_BYTES aarch64 + 16 then return none
    else do
      let frameVa := alignDown (sp - (SIGINFO_BYTES + UC_BYTES aarch64 + 16)) 16
      let ucVa ← add 64 frameVa SIGINFO_BYTES
      let recVa ← add 64 ucVa (UC_BYTES aarch64)
      return if mem.takes frameVa SIGINFO_BYTES && mem.takes ucVa (UC_BYTES aarch64) &&
        mem.takes recVa 16 then some frameVa else none
  | riscv64 =>
    if sp < SIGINFO_BYTES + UC_BYTES riscv64 then return none
    else do
      let frameVa := alignDown (sp - (SIGINFO_BYTES + UC_BYTES riscv64)) 16
      let ucVa ← add 64 frameVa SIGINFO_BYTES
      return if mem.takes frameVa SIGINFO_BYTES && mem.takes ucVa (UC_BYTES riscv64) then some frameVa else none

end Arch

def frameTop (alt : AltStack) (flags : BitVec 32) (sp : Nat) (held : Bool) : R Nat :=
  if flags &&& SA_ONSTACK ≠ 0 ∧ alt.size ≠ 0 ∧ held = false then add 64 alt.sp alt.size else return sp

def deliver (arch : Arch) (mem : Mem) (alt : AltStack) (flags : BitVec 32) (sp : Nat) : R (Option Nat) := do
  let held ← alt.holds sp
  let top ← frameTop alt flags sp held
  let _ ← alt.stackT sp
  arch.deliver mem top

end Myos.Modules.Linux
