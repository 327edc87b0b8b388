import Myos.Task.VmMachineSpec
import Myos.User.MappedProgramSpec
import Myos.User.Mmap

namespace Myos.User.MmapTable
open Lib Checked Myos.Task
open Machine (Arith)
open MappedProgram (USER_WINDOW)

abbrev PageMap := Nat → Option (Prot × Option (Node × Nat))

namespace PageMap

variable (ref : PageMap)

def add (va pages : Nat) (prot : Prot) (file : Option (Node × Nat)) : PageMap := fun n =>
  if va / PAGE ≤ n ∧ n < va / PAGE + pages then
    some (prot, file.map fun back => (back.1, back.2 / PAGE + (n - va / PAGE)))
  else ref n

def remove (va pages : Nat) : PageMap := fun n => if va / PAGE ≤ n ∧ n < va / PAGE + pages then none else ref n

def withProt (prot old : Prot) : Prot := (prot &&& ~~~kernelBits) ||| (old &&& kernelBits)

def setProt (va pages : Nat) (prot : Prot) : PageMap := fun n =>
  if va / PAGE ≤ n ∧ n < va / PAGE + pages then (ref n).map fun page => (withProt prot page.1, page.2) else ref n

end PageMap

inductive Op where
  | add (va pages : Nat) (prot : Prot) (file : Option (Node × Nat))
  | addFree (areaLo areaHi pages : Nat) (prot : Prot) (file : Option (Node × Nat))
  | remove (va pages : Nat)
  | setProt (va pages : Nat) (prot : Prot)

namespace Op

def run (vm : Vm) : Op → Arith (Vm × Option Nat)
  | add va pages prot file => do
    let (vm, added) ← Machine.addRegion vm va pages prot file
    return (vm, if added then some va else none)
  | addFree areaLo areaHi pages prot file => Machine.mmapAddFree vm areaLo areaHi pages prot file
  | remove va pages => do
    let (vm, removed) ← Machine.mmapRemove vm va pages
    return (vm, if removed then some va else none)
  | setProt va pages prot => do
    let (vm, recorded) ← Machine.mmapSetProt vm va pages prot
    return (vm, if recorded then some va else none)

def meaning (ref : PageMap) : Op → Option Nat → PageMap
  | _, none => ref
  | add va pages prot file, some _ => ref.add va pages prot file
  | addFree _ _ pages prot file, some va => ref.add va pages prot file
  | remove va pages, some _ => ref.remove va pages
  | setProt va pages prot, some _ => ref.setProt va pages prot

end Op

structure Call where
  op : Op
  before : Vm
  after : Vm
  result : Option Nat

/-- What a thread inside a call has still to do to the table. Each of them takes the process's lock for itself, so
other threads' calls come between. -/
inductive Todo where
  | remove (va pages : Nat)
  | setProt (va pages : Nat) (prot : Prot)
  | replace (hint : Nat) (req : Request)
  | record (fixed : Option Nat) (req : Request)
  | readIn (fixed : Option Nat) (req : Request)

structure State where
  p : Process
  base : Nat
  ref : PageMap
  pending : Table Nat Todo
  calls : List Call
  overflowed : Bool

inductive Event where
  | openFile (fd : Nat) (file : OpenFile)
  | closeFd (fd : Nat)
  | mmap (tid : Nat) (hint len prot flags fd offset : Word) (anonNode : Option Node)
  | munmap (tid : Nat) (addr len : Word)
  | mprotect (tid : Nat) (addr len prot : Word)
  | turn (tid : Nat)

def mmapRangeFrom (mmap : List MmapRegion) (last : Nat) : Nat → Nat → Bool
  | 0, _ => false
  | fuel + 1, cur =>
    if last ≤ cur then true
    else
      match regionAt mmap cur with
      | some r => mmapRangeFrom mmap last fuel (regionEnd r)
      | none => false

namespace State

variable (device : Node → Nat → Option DeviceFrame) (s : State)

def call (op : Op) : Arith (State × Option Nat) := do
  let (vm, result) ← op.run s.p.vm
  return ({ s with
    p := { s.p with vm }
    ref := op.meaning s.ref result
    calls := ⟨op, s.p.vm, vm, result⟩ :: s.calls }, result)

def record (fixed : Option Nat) (pages : Nat) (prot : Prot) (file : Option (Node × Nat)) : Arith (State × Option Nat) :=
  s.call (match fixed with
    | some hint => .add hint pages prot file
    | none => .addFree s.p.areaLo s.p.areaHi pages prot file)

/-- `do_mmap` up to its first operation on the table. -/
def doMmap (hint len prot flags fd offset : Word) (anonNode : Option Node) : Option Todo :=
  match mmapRequest device s.p len prot flags fd offset anonNode with
  | none => none
  | some req =>
    if hasBit flags MAP_FIXED then
      if hint = 0 ∨ hint.toNat % PAGE ≠ 0 ∨ hint.toNat < s.p.areaLo ∨
          s.p.areaHi < min (hint.toNat + req.pages * PAGE) USIZE_MAX then none
      else some (.replace hint.toNat req)
    else some (.record none req)

def mappedBelowImage (addr len : Nat) : Bool :=
  addr + len ≤ USIZE_MAX && addr + len ≤ s.base &&
    mmapRangeFrom s.p.vm.mmap (addr + len) (s.p.vm.mmap.length + 1) addr

def pageRange (lo : Nat) (addr len : Word) : Option (Nat × Nat) :=
  let pages := (len.toNat + PAGE - 1) / PAGE
  if addr.toNat % PAGE ≠ 0 ∨ len = 0 ∨ MMAP_AREA_PAGES < pages then none
  else if (addr.toNat < lo ∨ s.p.areaHi < min (addr.toNat + pages * PAGE) USIZE_MAX) ∧
      s.mappedBelowImage addr.toNat (pages * PAGE) = false then none
  else some (addr.toNat, pages)

/-- One operation on the table, and what its call does to the table next. -/
def perform : Todo → Arith (State × Option Todo)
  | .remove va pages => do return ((← s.call (.remove va pages)).1, none)
  | .setProt va pages prot => do return ((← s.call (.setProt va pages prot)).1, none)
  | .replace hint req => do
    let (s, removed) ← s.call (.remove hint req.pages)
    return (s, if removed.isSome then some (.record (some hint) req) else none)
  | .record fixed req =>
    match req.kind with
    | some kind => do return ((← s.record fixed req.pages (req.prot ||| kind) none).1, none)
    | none => do
      let (s, va) ← s.record fixed req.pages (req.prot ||| req.shared) req.backing
      return (s, if va.isNone ∧ req.backing.isSome ∧ req.shared = 0 then some (.readIn fixed req) else none)
  | .readIn fixed req => do return ((← s.record fixed req.pages req.prot none).1, none)

/-- Thread `tid` has `todo` left, nothing when its call is over. -/
def leave (tid : Nat) : Option Todo → State
  | some todo => { s with pending := s.pending.insert tid todo }
  | none => { s with pending := s.pending.erase tid }

def enter (tid : Nat) (todo : Option Todo) : Option (Arith State) :=
  if (s.pending.lookup tid).isSome then none else some (.ok (s.leave tid todo))

/-- What an event does; `none` when it cannot happen, since a thread makes one call at a time. -/
def syscall : Event → Option (Arith State)
  | .openFile fd file => some (.ok { s with p := { s.p with fds := s.p.fds.insert fd file } })
  | .closeFd fd => some (.ok { s with p := { s.p with fds := s.p.fds.erase fd } })
  | .mmap tid hint len prot flags fd offset anonNode =>
    s.enter tid (s.doMmap device hint len prot flags fd offset anonNode)
  | .munmap tid addr len => s.enter tid ((s.pageRange s.p.areaLo addr len).map fun (va, pages) => .remove va pages)
  | .mprotect tid addr len prot =>
    s.enter tid ((s.pageRange s.base addr len).map fun (va, pages) => .setProt va pages (prot.truncate 32))
  | .turn tid => (s.pending.lookup tid).map fun todo => do
    let (s, rest) ← s.perform todo
    return s.leave tid rest

def step (event : Event) : Option State :=
  if s.overflowed then none
  else
    (s.syscall device event).map fun
      | .ok next => next
      | .error _ => { s with overflowed := true }

structure Boot (s : State) : Prop where
  ok : s.p.vm.Ok
  agrees : ∀ va prot file, s.p.vm.Maps va prot file ↔ s.ref (va / PAGE) = some (prot, file)
  narrow : ∀ n prot file, s.ref n = some (prot, file) →
    (n + 1) * PAGE ≤ USER_WINDOW ∧ ∀ back, file = some back → back.2 < U32_MAX
  areaLo : PAGE ∣ s.p.areaLo
  areaHi : s.p.areaHi ≤ USER_WINDOW
  base : s.base ≤ USER_WINDOW
  pending : s.pending = ∅
  calls : s.calls = []
  running : s.overflowed = false

def system : System State Event := ⟨Boot, step device⟩

end State
end Myos.User.MmapTable
