import Myos.Lib.System
import Myos.Lib.Table
import Myos.Task.Vm

namespace Myos.User
open Lib Myos.Task

abbrev Frame := Nat
abbrev Aspace := Nat
abbrev Va := Nat

/-- A copy of a page that forks share, begun and not written yet: what the entry will allow, and whether
`FAULT_LOCK` is held meanwhile. -/
structure Copy where
  write : Bool
  exec : Bool
  locked : Bool
deriving DecidableEq, Repr

/-- A page-table entry; `copy` is no bit of it but says that `cow::claim` has counted it out of its frame's share. -/
structure Leaf where
  phys : Frame
  write : Bool
  exec : Bool
  cow : Bool
  cowWrite : Bool
  copy : Option Copy
deriving DecidableEq, Repr

structure CacheFrame where
  maps : Nat
  page : Option (Node × Nat)
deriving DecidableEq, Repr

/-- The frames as `cow.rs`, `aspace.rs`, `pagecache.rs` and `mm.rs` account for them. `taken` are the
frames a flush moved out of `UNMAPPED` and has not released yet, `hand` the ones a fault holds
between getting them and taking `FAULT_LOCK`, `device` the ones that are no memory of `mm`. -/
structure Memory where
  leaves : Table (Aspace × Va) Leaf
  shared : Table Frame Nat
  unmapped : List (Aspace × Frame)
  taken : List Frame
  hand : List Frame
  cache : Table Frame CacheFrame
  free : List Frame
  device : List Frame

namespace Memory

variable (m : Memory)

def leaf (aspace : Aspace) (va : Va) : Option Leaf := m.leaves.lookup (aspace, va)

def setLeaf (aspace : Aspace) (va : Va) (leaf : Leaf) : Memory :=
  { m with leaves := m.leaves.insert (aspace, va) leaf }

def unmapUserPage (aspace : Aspace) (va : Va) : Memory :=
  { m with leaves := m.leaves.erase (aspace, va) }

def freeFrame (frame : Frame) : Memory := { m with free := frame :: m.free }

def takeFrame (frame : Frame) : Memory := { m with free := m.free.erase frame }

namespace Cow

def share (frame : Frame) : Memory :=
  { m with shared := m.shared.insert frame ((m.shared.lookup frame).getD 1 + 1) }

def release (frame : Frame) : Option Memory :=
  match m.shared.lookup frame with
  | none => none
  | some n =>
    if n - 1 = 0 then some (freeFrame { m with shared := m.shared.erase frame } frame)
    else some { m with shared := m.shared.insert frame (n - 1) }

def claim (frame : Frame) : Bool × Memory :=
  match m.shared.lookup frame with
  | none => (true, m)
  | some n =>
    if n ≤ 1 then (true, { m with shared := m.shared.erase frame })
    else (false, { m with shared := m.shared.insert frame (n - 1) })

end Cow

namespace Pagecache

def isCached (frame : Frame) : Bool := (m.cache.lookup frame).isSome

def holds (page : Node × Nat) : Bool := m.cache.entries.any fun entry => entry.2.page == some page

def addMap (frame : Frame) (entry : CacheFrame) : Memory :=
  { m with cache := m.cache.insert frame { entry with maps := entry.maps + 1 } }

def share (frame : Frame) : Option Memory := (m.cache.lookup frame).map (addMap m frame)

def release (frame : Frame) : Option Memory :=
  match m.cache.lookup frame with
  | none => none
  | some entry =>
    if entry.maps - 1 = 0 ∧ entry.page = none then
      some (freeFrame { m with cache := m.cache.erase frame } frame)
    else some { m with cache := m.cache.insert frame { entry with maps := entry.maps - 1 } }

def dropPage (frame : Frame) (entry : CacheFrame) : Memory :=
  if entry.maps = 0 then freeFrame { m with cache := m.cache.erase frame } frame
  else { m with cache := m.cache.insert frame { entry with page := none } }

end Pagecache

def releaseFrame (frame : Frame) : Memory :=
  match Pagecache.release m frame with
  | some m' => m'
  | none =>
    match Cow.release m frame with
    | some m' => m'
    | none => m.freeFrame frame

def freeMappedPageLocked (aspace : Aspace) (va : Va) (elsewhere : Bool) : Memory :=
  match m.leaf aspace va with
  | none => m
  | some leaf =>
    let m := m.unmapUserPage aspace va
    if elsewhere then { m with unmapped := m.unmapped ++ [(aspace, leaf.phys)] }
    else m.releaseFrame leaf.phys

def releaseMmapPage (aspace : Aspace) (va : Va) (device elsewhere : Bool) : Memory :=
  if device then m.unmapUserPage aspace va else m.freeMappedPageLocked aspace va elsewhere

def takeUnmapped (aspace : Aspace) : Memory :=
  { m with
    unmapped := m.unmapped.filter fun entry => entry.1 != aspace
    taken := m.taken ++ (m.unmapped.filter fun entry => entry.1 == aspace).map Prod.snd }

def sharePage (src dst : Aspace) (va : Va) : Memory :=
  match m.leaf src va with
  | none => m
  | some leaf =>
    match Pagecache.share m leaf.phys with
    | some m => m.setLeaf dst va leaf
    | none =>
      let shared : Leaf := { leaf with write := false, cow := true, cowWrite := leaf.cowWrite || leaf.write }
      ((Cow.share m leaf.phys).setLeaf src va shared).setLeaf dst va shared

def shareMmapPage (src dst : Aspace) (va : Va) (device shared : Bool) : Memory :=
  if device || shared then
    match m.leaf src va with
    | none => m
    | some leaf =>
      if device then m.setLeaf dst va leaf
      else
        match Pagecache.share m leaf.phys with
        | some m => m.setLeaf dst va leaf
        | none => m.sharePage src dst va
  else m.sharePage src dst va

/-- Up to the allocation of `cow_break` or `own_frame`; `copy` is what they write then. -/
def cowBreak (aspace : Aspace) (va : Va) (leaf : Leaf) (copy : Copy) : Memory :=
  match Cow.claim m leaf.phys with
  | (true, m) => m.setLeaf aspace va ⟨leaf.phys, copy.write, copy.exec, false, false, none⟩
  | (false, m) => m.setLeaf aspace va { leaf with copy := some copy }

/-- The rest of them, with what the allocator answers: without a frame `cow_break` leaves the entry as it is, and
`own_frame`, which asks `alloc_frame_site`, never returns. -/
def finishCopy (aspace : Aspace) (va : Va) (leaf : Leaf) (copy : Copy) : Option Frame → Option Memory
  | some own => some ((m.takeFrame own).setLeaf aspace va ⟨own, copy.write, copy.exec, false, false, none⟩)
  | none => if copy.locked then some (m.setLeaf aspace va { leaf with copy := none }) else none

def storeFault (aspace : Aspace) (va : Va) : Memory :=
  match m.leaf aspace va with
  | none => m
  | some leaf =>
    if leaf.cow && leaf.cowWrite then
      m.cowBreak aspace va leaf ⟨leaf.cowWrite, leaf.exec, true⟩
    else m

def ownFrame (aspace : Aspace) (va : Va) : Memory :=
  match m.leaf aspace va with
  | none => m
  | some leaf =>
    if leaf.cow then m.cowBreak aspace va leaf ⟨true, leaf.exec, false⟩ else m

/-- One page of `sys_mprotect`'s walk, up to `cow_break`'s allocation when a fork shares the page; `alloc` answers
`alloc_frame_site` for a private cached one. -/
def mprotectPage (aspace : Aspace) (va : Va) (write exec sharedFile elsewhere : Bool)
    (alloc : Option Frame) : Option Memory :=
  match m.leaf aspace va with
  | none => some m
  | some leaf =>
    match (if leaf.cow && write then Cow.claim m leaf.phys else (true, m)) with
    -- The copy's frame is none of the cache's, so nothing more is done to the page after it.
    | (false, m) => some (m.setLeaf aspace va { leaf with copy := some ⟨write, exec, true⟩ })
    | (true, m) =>
      let keepCow := leaf.cow && !write
      if write && Pagecache.isCached m leaf.phys && !sharedFile then
        alloc.map fun own => ((m.takeFrame own).freeMappedPageLocked aspace va elsewhere).setLeaf aspace va
          ⟨own, write, exec, keepCow, false, none⟩
      else some (m.setLeaf aspace va ⟨leaf.phys, write, exec, keepCow, false, none⟩)

def dropFresh : Option Frame → Memory
  | none => m
  | some frame => ({ m with hand := m.hand.erase frame }).releaseFrame frame

-- The end of `fault_in`: the page takes the region's protection and keeps its share bits.
def placePage (aspace : Aspace) (va : Va) (file shared write exec : Bool) (frame : Frame) : Memory :=
  let cow := (m.leaf aspace va).any Leaf.cow
  let cowWrite := (m.leaf aspace va).any Leaf.cowWrite
  let writable := write && !cow && (shared || !file || !Pagecache.isCached m frame)
  m.setLeaf aspace va ⟨frame, writable, exec, cow, cowWrite, none⟩

/-- What `fault_in` does under `FAULT_LOCK` for a region with backing `file` and protection
`shared`, `write`, `exec`: `fresh` is the frame it holds, `alloc` answers `try_alloc_frame_user`. -/
def faultInLocked (aspace : Aspace) (va : Va) (store file shared write exec elsewhere : Bool)
    (fresh : Option Frame) (alloc : Option Frame) : Memory :=
  match m.leaf aspace va with
  | some leaf =>
    let m := m.dropFresh fresh
    if store && Pagecache.isCached m leaf.phys && file && !shared then
      match alloc with
      | none => m
      | some own => ((m.takeFrame own).freeMappedPageLocked aspace va elsewhere).placePage aspace va
          file shared write exec own
    else m.placePage aspace va file shared write exec leaf.phys
  | none =>
    match fresh with
    | none => m
    | some frame => placePage { m with hand := m.hand.erase frame } aspace va file shared write exec frame

def freeUserPageTables (aspace : Aspace) : Memory :=
  let orphans := m.leaves.entries.filter fun entry => entry.1.1 == aspace
  { m with
    leaves := orphans.foldl (fun leaves entry => leaves.erase entry.1) m.leaves
    free := orphans.map (fun entry => entry.2.phys) ++ m.free }

end Memory
end Myos.User
