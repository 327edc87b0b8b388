import Myos.Blk.Gpt

/-! The table of block devices: disks and the partitions found on them, and the requests that go through it. The table's lock, the
cache's and a device's answer are a step each. -/

namespace Myos.Blk.Registry
open Lib

def MAX_DEVS : Nat := 64
def NAME_MAX : Nat := 15

inductive Scan where
  | pending
  | running
  | done
  deriving DecidableEq

structure Part where
  disk : Nat
  number : Nat
  first : Nat
  sectors : Nat
  typeGuid : Bytes
  uuid : Bytes
  label : List Nat
  source : List Nat

inductive Kind where
  | disk (serial : Nat) (scan : Scan)
  | part (p : Part)

structure BlkDev where
  name : List Char
  kind : Kind

abbrev Devs := Nat → Option BlkDev

namespace Devs

variable (devs : Devs)

def get (dev : Nat) : Option BlkDev := if dev < MAX_DEVS then devs dev else none

def free : Option Nat := (List.range MAX_DEVS).find? fun i => (devs i).isNone

def put (slot : Nat) (d : Option BlkDev) : Devs := Function.update devs slot d

def taken (name : List Char) : Bool :=
  (List.range MAX_DEVS).any fun i =>
    match devs i with
    | some ⟨other, .disk _ _⟩ => other == name
    | _ => false

def letters : List Char := (List.range 26).map fun i => Char.ofNat ('a'.toNat + i)

def settle (name : List Char) : Option (List Char) :=
  if name.getLast? = some '?' then (letters.map fun c => name.dropLast ++ [c]).find? fun n => !devs.taken n else some name

def place (name : List Char) : Option (Nat × List Char) :=
  (devs.settle name).bind fun name =>
    if name = [] ∨ NAME_MAX < name.length ∨ ¬name.all Char.isAlphanum then none
    else if devs.taken name then none
    else devs.free.map fun slot => (slot, name)

def partOf (disk : Nat) : Option BlkDev → Bool
  | some ⟨_, .part p⟩ => p.disk == disk
  | _ => false

def dropParts (disk : Nat) : Devs := fun i => if partOf disk (devs i) then none else devs i

def setScan (disk : Nat) (scan : Scan) : Devs :=
  match devs.get disk with
  | some ⟨name, .disk serial _⟩ => devs.put disk (some ⟨name, .disk serial scan⟩)
  | _ => devs

def pending : Option (Nat × Nat) :=
  (List.range MAX_DEVS).findSome? fun i =>
    match devs i with
    | some ⟨_, .disk serial .pending⟩ => some (i, serial)
    | _ => none

def addAll (name : List Char) (disk : Nat) (source : List Nat) : List Gpt.Entry → Devs → Devs
  | [], devs => devs
  | e :: rest, devs =>
    match devs.free with
    | none => devs
    | some slot =>
      addAll name disk source rest
        (devs.put slot (some ⟨name, .part ⟨disk, e.number, e.first, e.last - e.first + 1, e.typeGuid, e.uuid, e.label, source⟩⟩))

def addParts (disk serial : Nat) (seen : List Nat) (entries : List Gpt.Entry) : Devs :=
  match devs.get disk with
  | some ⟨name, .disk current .running⟩ =>
    if current = serial then addAll name disk (serial :: seen) entries (devs.setScan disk .done) else devs
  | _ => devs

end Devs

inductive Stage where
  | lookup (dev : Nat)
  | parent (p : Part)
  | target (disk serial : Nat)
  | look (disk serial whole chunk : Nat)
  | keep (disk serial whole first last : Nat)
  | wrote (disk : Nat)

structure Request where
  write : Bool
  via : Option Part
  lba : Nat
  len : Nat
  stage : Stage

structure Touch where
  via : Option Part
  serial : Nat
  lba : Nat
  n : Nat

namespace Request

variable (r : Request)

def n : Nat := r.len / SECTOR
def first : Nat := r.lba / CHUNK_SECTORS
def last : Nat := Gpt.divCeil (r.lba + r.n) CHUNK_SECTORS

def on (stage : Stage) : Request := { r with stage := stage }

def touch (serial first last : Nat) : Touch :=
  let low := max (first * CHUNK_SECTORS) r.lba
  ⟨r.via, serial, low, min (last * CHUNK_SECTORS) (r.lba + r.n) - low⟩

def touchAll (serial : Nat) : Touch := ⟨r.via, serial, r.lba, r.n⟩

end Request

structure Answer where
  ok : Bool
  sectors : Nat
  keep : Bool
  busy : Bool
  more : Option (Nat × Nat)
  sources : Nat → Gpt.Source

inductive Task where
  | io (r : Request)
  | scan (disk serial : Nat) (sectors : Option (Option Nat)) (seen : List Nat) (reading : Option Request)
  | leave (disk : Nat)
  | forget (disk : Nat)
  | rescan (disks : List Nat)

def Task.request : Task → Option Request
  | .io r => some r
  | .scan _ _ _ _ reading => reading
  | _ => none

abbrev Kept := Nat → Nat → Option Nat

structure State where
  devs : Devs
  serial : Nat
  kept : Kept
  tasks : Nat → Option Task
  touched : List Touch

namespace State

variable (s : State)

def capacity (dev answer : Nat) : Option Nat :=
  match s.devs.get dev with
  | none => none
  | some ⟨_, .disk _ _⟩ => if answer = 0 then none else some answer
  | some ⟨_, .part p⟩ => if p.sectors = 0 then none else some p.sectors

def wroteChunks (r : Request) (disk : Nat) : List Touch :=
  (List.range r.last).filterMap fun chunk =>
    if r.first ≤ chunk then (s.kept disk chunk).map fun serial => r.touch serial chunk (chunk + 1) else none

def advance (r : Request) (a : Answer) : Kept × Option Request × List Touch :=
  match r.stage with
  | .lookup dev =>
    match s.devs.get dev with
    | none => (s.kept, none, [])
    | some ⟨_, .disk serial _⟩ => (s.kept, some (r.on (.target dev serial)), [])
    | some ⟨_, .part p⟩ =>
      if 2 ^ 64 ≤ r.lba + r.n ∨ p.sectors < r.lba + r.n then (s.kept, none, [])
      else (s.kept, some { r with via := some p, stage := .parent p }, [])
  | .parent p =>
    match s.devs.get p.disk with
    | some ⟨_, .disk serial _⟩ => (s.kept, some { r with lba := p.first + r.lba, stage := .target p.disk serial }, [])
    | _ => (s.kept, none, [])
  | .target disk serial =>
    if r.write then (s.kept, some (r.on (.wrote disk)), [r.touchAll serial])
    else
      match s.capacity disk a.sectors with
      | some sectors => (s.kept, some (r.on (.look disk serial (min r.last (sectors / CHUNK_SECTORS)) r.first)), [])
      | none => (s.kept, none, [r.touchAll serial])
  | .look disk serial whole chunk =>
    if r.last ≤ chunk then (s.kept, none, [])
    else
      match s.kept disk chunk with
      | some source => (s.kept, some (r.on (.look disk serial whole (chunk + 1))), [r.touch source chunk (chunk + 1)])
      | none =>
        if a.ok = false then (s.kept, none, [])
        else if whole ≤ chunk then
          (s.kept, some (r.on (.look disk serial whole (chunk + 1))), [r.touch serial chunk (chunk + 1)])
        else
          let run := Gpt.runEnd (fun e => (s.kept disk e).isSome) whole (MAX_RUN - 1) (chunk + 1)
          (s.kept, some (r.on (.keep disk serial whole chunk run)), [r.touch serial chunk run])
  | .keep disk serial whole first last =>
    if last ≤ first then (s.kept, some (r.on (.look disk serial whole last)), [])
    else
      (if a.keep then Function.update s.kept disk (Function.update (s.kept disk) first (some serial)) else s.kept,
        some (r.on (.keep disk serial whole (first + 1) last)), [])
  | .wrote disk => (s.kept, none, s.wroteChunks r disk)

def setTask (task : Nat) (t : Option Task) : State := { s with tasks := Function.update s.tasks task t }

def serve (task : Nat) (r : Request) (a : Answer) (back : Option Request → List Touch → Option Task) : State :=
  match s.advance r a with
  | (kept, r, touches) => { s.setTask task (back r touches) with kept := kept, touched := touches ++ s.touched }

def next (task : Nat) (a : Answer) : Task → Option State
  | .io r => some (s.serve task r a fun r _ => r.map .io)
  | .scan disk serial none seen _ => some (s.setTask task (some (.scan disk serial (some (s.capacity disk a.sectors)) seen none)))
  | .scan disk serial (some sectors) seen (some r) =>
    some (s.serve task r a fun r touches => some (.scan disk serial (some sectors) (touches.map Touch.serial ++ seen) r))
  | .scan disk serial (some sectors) seen none =>
    match a.more with
    | some (lba, len) => some (s.setTask task (some
      (.scan disk serial (some sectors) seen (some ⟨false, none, lba, len, .lookup disk⟩))))
    | none =>
      match sectors with
      | none => some { s.setTask task none with devs := s.devs.addParts disk serial seen [] }
      | some sectors =>
        match Gpt.read a.sources sectors with
        | .ok entries => some { s.setTask task none with devs := s.devs.addParts disk serial seen entries }
        | .error _ => none
  | .leave disk =>
    match (s.devs.dropParts disk).get disk with
    | some _ => some { s.setTask task (some (.forget disk)) with devs := (s.devs.dropParts disk).put disk none }
    | none => some { s.setTask task none with devs := s.devs.dropParts disk }
  | .forget disk => some { s.setTask task none with kept := Function.update s.kept disk fun _ => none }
  | .rescan [] => some (s.setTask task none)
  | .rescan (disk :: rest) =>
    if a.busy then some (s.setTask task (some (.rescan rest)))
    else some { s.setTask task (some (.rescan rest)) with devs := (s.devs.dropParts disk).setScan disk .pending }

end State

inductive Event where
  | register (name : List Char)
  | scan (task : Nat)
  | unregister (task disk : Nat) (busy : Bool)
  | rescan (task : Nat)
  | io (task : Nat) (write : Bool) (dev lba len : Nat)
  | next (task : Nat) (answer : Answer)
  | evict (gone : Nat → Nat → Bool)

namespace State

def isDisk : Option BlkDev → Bool
  | some ⟨_, .disk _ _⟩ => true
  | _ => false

def isDone : Option BlkDev → Bool
  | some ⟨_, .disk _ .done⟩ => true
  | _ => false

def begin (s : State) (task : Nat) (t : Task) : Option State :=
  if (s.tasks task).isNone then some (s.setTask task (some t)) else none

def step (s : State) : Event → Option State
  | .register name =>
    match s.devs.place name with
    | none => some s
    | some (slot, name) =>
      some { s with devs := s.devs.put slot (some ⟨name, .disk s.serial .pending⟩), serial := s.serial + 1 }
  | .scan task =>
    match s.devs.pending with
    | none => some s
    | some (disk, serial) =>
      ({ s with devs := s.devs.setScan disk .running } : State).begin task (.scan disk serial none [] none)
  | .unregister task disk busy =>
    if isDisk (s.devs.get disk) = false ∨ busy then some s else s.begin task (.leave disk)
  | .rescan task => s.begin task (.rescan ((List.range MAX_DEVS).filter fun i => isDone (s.devs i)))
  | .io task write dev lba len =>
    if len % SECTOR ≠ 0 ∨ len = 0 then some s else s.begin task (.io ⟨write, none, lba, len, .lookup dev⟩)
  | .next task answer => (s.tasks task).bind (s.next task answer)
  | .evict gone => some { s with kept := fun disk chunk => if gone disk chunk then none else s.kept disk chunk }

end State

def system : System State Event where
  start s := (∀ i, s.devs i = none) ∧ (∀ disk chunk, s.kept disk chunk = none) ∧ (∀ task, s.tasks task = none) ∧ s.touched = []
  step := State.step

/-- What a request through a partition was at is in the partition's range, on the one disk its table was read from. -/
def Touch.Confined (t : Touch) : Prop :=
  ∀ p, t.via = some p → (∀ source ∈ p.source, source = t.serial) ∧ p.first ≤ t.lba ∧ t.lba + t.n ≤ p.first + p.sectors

def Stage.slot : Stage → Option Nat
  | .lookup _ => none
  | .parent p => some p.disk
  | .target disk _ => some disk
  | .look disk _ _ _ => some disk
  | .keep disk _ _ _ _ => some disk
  | .wrote disk => some disk

def State.Quiet (s : State) (slot : Nat) : Prop :=
  (∀ task t r, s.tasks task = some t → t.request = some r → r.stage.slot ≠ some slot) ∧ ∀ chunk, s.kept slot chunk = none

def KeepsIds (s : State) : Event → Prop
  | .register name => ∀ slot settled, s.devs.place name = some (slot, settled) → s.Quiet slot
  | _ => True

end Myos.Blk.Registry
