import Myos.User.Cow

namespace Myos.User
open Lib Myos.Task

inductive CowEvent
  | allocFrame (frame : Frame)
  | cacheMap (frame : Frame) (page : Node × Nat)
  | giveBack (frame : Frame)
  | mapUserPage (aspace : Aspace) (va : Va) (frame : Frame) (write exec : Bool)
  | mapDevicePage (aspace : Aspace) (va : Va) (frame : Frame) (write : Bool)
  | faultInLocked (aspace : Aspace) (va : Va) (store file shared write exec elsewhere : Bool)
      (fresh alloc : Option Frame)
  | faultAround (aspace : Aspace) (va : Va) (frame : Frame) (exec : Bool)
  | storeFault (aspace : Aspace) (va : Va)
  | mprotectPage (aspace : Aspace) (va : Va) (write exec sharedFile elsewhere : Bool) (alloc : Option Frame)
  | sharePage (src dst : Aspace) (va : Va)
  | shareMmapPage (src dst : Aspace) (va : Va) (device shared : Bool)
  | ownFrame (aspace : Aspace) (va : Va)
  | finishCopy (aspace : Aspace) (va : Va) (alloc : Option Frame)
  | freeMappedPage (aspace : Aspace) (va : Va) (elsewhere : Bool)
  | releaseMmapPage (aspace : Aspace) (va : Va) (device elsewhere : Bool)
  | takeUnmapped (aspace : Aspace)
  | releaseTaken (frame : Frame)
  | dropPage (frame : Frame)
  | evict (frame : Frame)
  | freeUserPageTables (aspace : Aspace)
deriving DecidableEq, Repr

namespace CowEvent

def takesFaultLock : CowEvent → Bool
  | .faultInLocked .. | .faultAround .. | .storeFault .. | .mprotectPage .. | .sharePage .. | .shareMmapPage ..
  | .freeMappedPage .. => true
  | .releaseMmapPage _ _ device _ => !device
  | _ => false

def entries : CowEvent → List (Aspace × Va)
  | .mapUserPage aspace va .. | .mapDevicePage aspace va .. | .faultInLocked aspace va .. | .faultAround aspace va ..
  | .storeFault aspace va | .mprotectPage aspace va .. | .ownFrame aspace va | .freeMappedPage aspace va _
  | .releaseMmapPage aspace va .. => [(aspace, va)]
  | .sharePage src dst va | .shareMmapPage src dst va .. => [(src, va), (dst, va)]
  | _ => []

end CowEvent

namespace Memory

def allocatable (m : Memory) (alloc : Option Frame) : Bool := alloc.all fun frame => m.free.contains frame

def perform (m : Memory) : CowEvent → Option Memory
  | .allocFrame frame =>
    if frame ∈ m.free then some { m.takeFrame frame with hand := frame :: m.hand } else none
  | .cacheMap frame page =>
    match m.cache.lookup frame with
    | some entry =>
      if entry.page = some page then some { Pagecache.addMap m frame entry with hand := frame :: m.hand }
      else none
    | none =>
      if frame ∈ m.free ∧ Pagecache.holds m page = false then
        some { m.takeFrame frame with
          cache := m.cache.insert frame ⟨1, some page⟩
          hand := frame :: m.hand }
      else none
  | .giveBack frame =>
    if frame ∈ m.hand then some (releaseFrame { m with hand := m.hand.erase frame } frame) else none
  | .mapUserPage aspace va frame write exec =>
    if frame ∈ m.free ∧ m.leaf aspace va = none then
      some ((m.takeFrame frame).setLeaf aspace va ⟨frame, write, exec, false, false, none⟩)
    else none
  | .mapDevicePage aspace va frame write =>
    if frame ∈ m.device ∧ m.leaf aspace va = none then
      some (m.setLeaf aspace va ⟨frame, write, false, false, false, none⟩)
    else none
  | .faultInLocked aspace va store file shared write exec elsewhere fresh alloc =>
    if (fresh.all fun frame => m.hand.contains frame) && m.allocatable alloc then
      some (m.faultInLocked aspace va store file shared write exec elsewhere fresh alloc)
    else none
  | .faultAround aspace va frame exec =>
    match m.cache.lookup frame with
    | some entry =>
      if entry.page.isSome ∧ m.leaf aspace va = none then
        some ((Pagecache.addMap m frame entry).setLeaf aspace va ⟨frame, false, exec, false, false, none⟩)
      else none
    | none => none
  | .storeFault aspace va => some (m.storeFault aspace va)
  | .mprotectPage aspace va write exec sharedFile elsewhere alloc =>
    if m.allocatable alloc then m.mprotectPage aspace va write exec sharedFile elsewhere alloc else none
  | .sharePage src dst va => some (m.sharePage src dst va)
  | .shareMmapPage src dst va device shared => some (m.shareMmapPage src dst va device shared)
  | .ownFrame aspace va => some (m.ownFrame aspace va)
  | .finishCopy aspace va alloc =>
    match m.leaf aspace va with
    | some leaf =>
      match leaf.copy with
      | some copy => if m.allocatable alloc then m.finishCopy aspace va leaf copy alloc else none
      | none => none
    | none => none
  | .freeMappedPage aspace va elsewhere => some (m.freeMappedPageLocked aspace va elsewhere)
  | .releaseMmapPage aspace va device elsewhere => some (m.releaseMmapPage aspace va device elsewhere)
  | .takeUnmapped aspace => some (m.takeUnmapped aspace)
  | .releaseTaken frame =>
    if frame ∈ m.taken then some (releaseFrame { m with taken := m.taken.erase frame } frame) else none
  | .dropPage frame =>
    match m.cache.lookup frame with
    | some entry => if entry.page.isSome then some (Pagecache.dropPage m frame entry) else none
    | none => none
  | .evict frame =>
    match m.cache.lookup frame with
    | some entry =>
      if entry.page.isSome ∧ entry.maps = 0 then
        some (freeFrame { m with cache := m.cache.erase frame } frame)
      else none
    | none => none
  | .freeUserPageTables aspace =>
    -- No CPU has the address space loaded, so none makes a copy in it.
    if m.leaves.entries.all fun entry => entry.1.1 != aspace || entry.2.copy.isNone then some
      (m.freeUserPageTables aspace) else none

def copies (m : Memory) (pick : Leaf → Copy → Bool) : Bool :=
  m.leaves.entries.any fun entry => entry.2.copy.any (pick entry.2)

/-- While a copy is made under `FAULT_LOCK` nothing else that takes it runs; and no one else changes the entry of an
unfinished copy (`own_frame` runs in an exec, with one thread). -/
def step (m : Memory) (event : CowEvent) : Option Memory :=
  if event.takesFaultLock && m.copies (fun _ copy => copy.locked) ||
      event.entries.any fun (aspace, va) => (m.leaf aspace va).any fun leaf => leaf.copy.isSome then none
  else m.perform event

def Boot (m : Memory) : Prop :=
  m.leaves = ∅ ∧ m.shared = ∅ ∧ m.unmapped = [] ∧ m.taken = [] ∧ m.hand = [] ∧ m.cache = ∅ ∧
    m.free.Nodup ∧ m.free.Disjoint m.device

def system : System Memory CowEvent := ⟨Boot, step⟩

/-- A release of the frame does not free it, or no unfinished copy has it mapped still. -/
def spares (m : Memory) (frame : Frame) : Bool :=
  decide (1 < (m.shared.lookup frame).getD 1) || !m.copies fun leaf _ => leaf.phys == frame

/-- No copy finds memory exhausted, no frame is released for the last time while an unfinished copy has it mapped,
a fork maps each page of the child once, the regions marked as a device's are those that map a device, and no
page table goes with pages still mapped. -/
def meets (m : Memory) : CowEvent → Bool
  | .finishCopy _ _ alloc => alloc.isSome
  | .releaseTaken frame => m.spares frame
  | .sharePage src dst va =>
    (m.leaf dst va).isNone && (m.leaf src va).all fun leaf => !m.device.contains leaf.phys
  | .shareMmapPage src dst va device _ =>
    (m.leaf dst va).isNone && (m.leaf src va).all fun leaf => m.device.contains leaf.phys == device
  | .freeMappedPage aspace va elsewhere =>
    (m.leaf aspace va).all fun leaf => !m.device.contains leaf.phys && (elsewhere || m.spares leaf.phys)
  | .releaseMmapPage aspace va device elsewhere => (m.leaf aspace va).all fun leaf =>
    m.device.contains leaf.phys == device && (device || elsewhere || m.spares leaf.phys)
  | .freeUserPageTables aspace => m.leaves.entries.all fun entry => entry.1.1 != aspace
  | _ => true

end Memory
end Myos.User
