import Mathlib.Algebra.GroupWithZero.Nat
import Mathlib.Data.List.Basic
import Mathlib.Data.List.TakeWhile
import Myos.Lib.Consts

namespace Myos.Task

abbrev Node := Nat
abbrev Prot := BitVec 32

def MAX_MMAP_REGIONS : Nat := 4096
def MAX_MAPPED_FILES : Nat := 1024

def PROT_WRITE {w : Nat} : BitVec w := 2
def MMAP_DEVICE : Prot := 1 <<< 31
def MMAP_SHARED : Prot := 1 <<< 30
def MMAP_UNCACHED : Prot := 1 <<< 29
def MMAP_NOCACHE : Prot := 1 <<< 28
def MMAP_WRITE_COMBINE : Prot := 1 <<< 27

def kernelBits : Prot := MMAP_DEVICE ||| MMAP_SHARED ||| MMAP_UNCACHED ||| MMAP_NOCACHE ||| MMAP_WRITE_COMBINE

def hasBit {w : Nat} (word mask : BitVec w) : Bool := word &&& mask != 0

structure MmapRegion where
  va : Nat
  pages : Nat
  prot : Prot
  file : Nat
  fpage : Nat
deriving DecidableEq, Repr

structure Vm where
  mmap : List MmapRegion
  files : List (Option Node)
deriving DecidableEq, Repr

def regionEnd (r : MmapRegion) : Nat := min (r.va + r.pages * PAGE) USIZE_MAX

def partitionPoint {α : Type*} (p : α → Bool) (l : List α) : Nat := (l.takeWhile p).length

def regionAt (mmap : List MmapRegion) (va : Nat) : Option MmapRegion :=
  mmap[partitionPoint (fun r => regionEnd r ≤ va) mmap]?.filter fun r => r.va ≤ va

def piece (r : MmapRegion) (a b : Nat) : MmapRegion :=
  { r with
    va := a
    pages := (b - a) / PAGE
    fpage := if r.file ≠ 0 then r.fpage + (a - r.va) / PAGE else 0 }

def leftovers (lo hi : Nat) (r : MmapRegion) : List MmapRegion :=
  (if r.va < lo then [piece r r.va lo] else []) ++
    if hi < regionEnd r then [piece r hi (regionEnd r)] else []

def carve (mmap : List MmapRegion) (lo hi : Nat) : Option (List MmapRegion × List MmapRegion) :=
  let first := partitionPoint (fun r => regionEnd r ≤ lo) mmap
  let last := first + partitionPoint (fun r => r.va < hi) (mmap.drop first)
  let cut := (mmap.drop first).take (last - first)
  let removed := cut.map fun r => piece r (max r.va lo) (min (regionEnd r) hi)
  let kept := cut.flatMap (leftovers lo hi)
  if MAX_MMAP_REGIONS < mmap.length - (last - first) + kept.length then none
  else some (mmap.take first ++ kept ++ mmap.drop last, removed)

def joinable (a b : MmapRegion) : Bool :=
  a.prot == b.prot && a.file == b.file && (a.file == 0 || a.fpage + a.pages == b.fpage) &&
    a.va + a.pages * PAGE == b.va

def coalesceFrom (a : MmapRegion) : List MmapRegion → List MmapRegion
  | [] => [a]
  | b :: rest =>
    if joinable a b then coalesceFrom { a with pages := a.pages + b.pages } rest
    else a :: coalesceFrom b rest

def coalesce : List MmapRegion → List MmapRegion
  | [] => []
  | a :: rest => coalesceFrom a rest

def freeGapFrom (areaHi len : Nat) : Nat → List MmapRegion → Option Nat
  | cand, [] => if cand + len ≤ USIZE_MAX ∧ cand + len ≤ areaHi then some cand else none
  | cand, r :: rest =>
    if regionEnd r ≤ cand then freeGapFrom areaHi len cand rest
    else if cand + len ≤ USIZE_MAX then
      if cand + len ≤ r.va then (if cand + len ≤ areaHi then some cand else none)
      else freeGapFrom areaHi len (regionEnd r) rest
    else none

def freeGap (mmap : List MmapRegion) (areaLo areaHi len : Nat) : Option Nat :=
  freeGapFrom areaHi len areaLo mmap

namespace Vm

def named (vm : Vm) (slot : Nat) : Bool := vm.mmap.any fun r => r.file == slot + 1

def dropTrailing (files : List (Option Node)) : List (Option Node) :=
  (files.reverse.dropWhile Option.isNone).reverse

def pruneFiles (vm : Vm) : Vm :=
  { vm with files := dropTrailing (vm.files.mapIdx fun slot file => if vm.named slot then file else none) }

def mappedFileSlot (vm : Vm) (node : Node) : Vm × Option Nat :=
  match vm.files.findIdx? (fun file => file == some node) with
  | some slot => (vm, some slot)
  | none =>
    let vm := if MAX_MAPPED_FILES ≤ vm.files.length then vm.pruneFiles else vm
    match vm.files.findIdx? Option.isNone with
    | some slot => ({ vm with files := vm.files.set slot (some node) }, some slot)
    | none =>
      if vm.files.length < MAX_MAPPED_FILES then
        ({ vm with files := vm.files ++ [some node] }, some vm.files.length)
      else (vm, none)

def insertRegion (vm : Vm) (region : MmapRegion) : Vm × Bool :=
  let i := partitionPoint (fun r => r.va < region.va) vm.mmap
  let mmap := coalesce (vm.mmap.insertIdx i region)
  if MAX_MMAP_REGIONS < mmap.length then ({ vm with mmap := mmap.eraseIdx i }, false)
  else ({ vm with mmap }, true)

def addRegion (vm : Vm) (va pages : Nat) (prot : Prot) (file : Option (Node × Nat)) : Vm × Bool :=
  match file with
  | none => vm.insertRegion ⟨va, pages, prot, 0, 0⟩
  | some (node, off) =>
    match vm.mappedFileSlot node with
    | (vm, some slot) => vm.insertRegion ⟨va, pages, prot, slot + 1, off / PAGE⟩
    | (vm, none) => (vm, false)

def mmapAdd (vm : Vm) (va pages : Nat) (prot : Prot) (file : Option (Node × Nat)) : Vm × Bool :=
  vm.addRegion va pages prot file

def mmapAddFree (vm : Vm) (areaLo areaHi pages : Nat) (prot : Prot) (file : Option (Node × Nat)) :
    Vm × Option Nat :=
  match freeGap vm.mmap areaLo areaHi (pages * PAGE) with
  | none => (vm, none)
  | some va =>
    match vm.addRegion va pages prot file with
    | (vm, true) => (vm, some va)
    | (vm, false) => (vm, none)

def mmapRemove (vm : Vm) (va pages : Nat) : Vm × Bool :=
  match carve vm.mmap va (va + pages * PAGE) with
  | none => (vm.pruneFiles, false)
  | some (mmap, _) => (pruneFiles { vm with mmap }, true)

def mmapSetProt (vm : Vm) (va pages : Nat) (prot : Prot) : Vm × Bool :=
  match carve vm.mmap va (va + pages * PAGE) with
  | none => (vm, false)
  | some (mmap, parts) =>
    let start := partitionPoint (fun r => r.va < va) mmap
    let reprotected := parts.map fun part => { part with prot := prot ||| (part.prot &&& kernelBits) }
    let mmap := coalesce (mmap.take start ++ reprotected ++ mmap.drop start)
    if MAX_MMAP_REGIONS < mmap.length then (vm, false) else ({ vm with mmap }, true)

def backingFile (vm : Vm) (r : MmapRegion) (va : Nat) : Option (Node × Nat) :=
  if r.file = 0 then none
  else (vm.files[r.file - 1]?.join).map fun node => (node, r.fpage + (va - r.va) / PAGE)

def mmapBacking (vm : Vm) (va : Nat) : Option (Prot × Option (Node × Nat) × Nat) :=
  (regionAt vm.mmap va).map fun r => (r.prot, vm.backingFile r va, (regionEnd r - (va - va % PAGE)) / PAGE)

end Vm
end Myos.Task
