import Myos.Lib.Consts
import Myos.User.CowRun

namespace Myos.User
open Lib Myos.Task

def MAP_SHARED : Word := 0x01
def MAP_PRIVATE : Word := 0x02
def MAP_FIXED : Word := 0x10
def MAP_ANON : Word := 0x20
def MMAP_AREA_PAGES : Nat := 2 ^ 24

structure OpenFile where
  node : Node
  readable : Bool
  writable : Bool
deriving DecidableEq, Repr

structure DeviceFrame where
  phys : Frame
  uncached : Bool
  nocache : Bool
  writeCombine : Bool

structure Process where
  vm : Vm
  fds : Table Nat OpenFile
  areaLo : Nat
  areaHi : Nat

def mmapFile (p : Process) (flags fd offset : Word) : Option (Option OpenFile) :=
  if hasBit flags MAP_ANON then some none
  else if offset.toNat % PAGE ≠ 0 || fd.msb then none
  else ((p.fds.lookup fd.toNat).filter OpenFile.readable).map some

def mmapShared (file : Option OpenFile) (device : Bool) (prot flags : Word) : Option Prot :=
  if hasBit flags MAP_ANON && hasBit flags MAP_SHARED then some MMAP_SHARED
  else if file.isSome && !device && hasBit flags MAP_SHARED then
    if file.any OpenFile.writable then some MMAP_SHARED
    else if hasBit prot PROT_WRITE then none
    else some 0
  else if !device && !hasBit flags MAP_PRIVATE && !hasBit flags MAP_FIXED then none
  else some 0

structure Request where
  pages : Nat
  prot : Prot
  shared : Prot
  backing : Option (Node × Nat)
  kind : Option Prot

def deviceKind (first : Option DeviceFrame) : Prot :=
  MMAP_DEVICE ||| (if first.any DeviceFrame.uncached then MMAP_UNCACHED else 0) |||
    (if first.any DeviceFrame.nocache then MMAP_NOCACHE else 0) |||
    (if first.any DeviceFrame.writeCombine then MMAP_WRITE_COMBINE else 0)

def mmapFileBacking (file : Option OpenFile) (flags offset : Word) (anonNode : Option Node) :
    Option (Option (Node × Nat)) :=
  if hasBit flags MAP_ANON && hasBit flags MAP_SHARED then anonNode.map fun node => some (node, 0)
  else some (file.map fun f => (f.node, offset.toNat))

def mmapRequest (device : Node → Nat → Option DeviceFrame) (p : Process) (len prot flags fd offset : Word)
    (anonNode : Option Node) : Option Request := do
  guard (len ≠ 0)
  let file ← mmapFile p flags fd offset
  let isDevice := hasBit flags MAP_SHARED && file.any fun f => (device f.node offset.toNat).isSome
  let shared ← mmapShared file isDevice prot flags
  guard !(hasBit flags MAP_SHARED && hasBit flags MAP_PRIVATE)
  let pages := (len.toNat + PAGE - 1) / PAGE
  guard (pages ≠ 0 ∧ pages ≤ MMAP_AREA_PAGES)
  let backing ← mmapFileBacking file flags offset anonNode
  guard (backing.all fun back => back.2 + pages * PAGE ≤ USIZE_MAX && back.2 / PAGE ≤ U32_MAX)
  guard (!isDevice || file.all fun f =>
    (List.range pages).all fun i => (device f.node (offset.toNat + i * PAGE)).isSome)
  return {
    pages
    prot := prot.truncate 32
    shared
    backing
    kind := if isDevice then some (deviceKind (file.bind fun f => device f.node offset.toNat)) else none }

end Myos.User
