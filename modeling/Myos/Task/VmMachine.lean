import Myos.Lib.Checked
import Myos.Task.VmSpec

/-! The region table's operations with the machine's integers: a sum, difference or product that leaves its type
ends the call. -/

namespace Myos.Task.Machine
open Lib Checked

abbrev Arith := Checked Empty

def regionEnd (r : MmapRegion) : Arith Nat := do return min (r.va + (← mul 64 r.pages PAGE)) USIZE_MAX

def movedPage (r : MmapRegion) (skip : Nat) : Arith Nat := if r.file ≠ 0 then add 32 r.fpage skip else return 0

def piece (r : MmapRegion) (a b : Nat) : Arith MmapRegion := do
  let skip := (← sub a r.va) / PAGE % 2 ^ 32
  let pages := (← sub b a) / PAGE % 2 ^ 32
  return { r with va := a, pages, fpage := ← movedPage r skip }

def pieceIf (r : MmapRegion) (a b : Nat) : Arith (List MmapRegion) :=
  if a < b then do return [← piece r a b] else return []

def partitionPoint {α : Type} (p : α → Arith Bool) : List α → Arith Nat
  | [] => return 0
  | a :: l => do if ← p a then return (← partitionPoint p l) + 1 else return 0

def cutRegion (lo hi : Nat) (r : MmapRegion) : Arith (MmapRegion × List MmapRegion) := do
  let rhi ← regionEnd r
  let removed ← piece r (max r.va lo) (min rhi hi)
  let below ← pieceIf r r.va lo
  let above ← pieceIf r hi rhi
  return (removed, below ++ above)

def endsBy (lo : Nat) (r : MmapRegion) : Arith Bool := do return decide ((← regionEnd r) ≤ lo)

def carve (mmap : List MmapRegion) (lo hi : Nat) : Arith (Option (List MmapRegion × List MmapRegion)) := do
  let first ← partitionPoint (endsBy lo) mmap
  let last := first + Task.partitionPoint (fun r => r.va < hi) (mmap.drop first)
  let cut ← ((mmap.drop first).take (last - first)).mapM (cutRegion lo hi)
  let removed := cut.map Prod.fst
  let kept := cut.flatMap Prod.snd
  if MAX_MMAP_REGIONS < mmap.length - (last - first) + kept.length then return none
  else return some (mmap.take first ++ kept ++ mmap.drop last, removed)

def continues (a b : MmapRegion) : Arith Bool :=
  if a.file = 0 then return true else do return (← add 32 a.fpage a.pages) == b.fpage

def joinable (a b : MmapRegion) : Arith Bool :=
  if a.prot = b.prot ∧ a.file = b.file then do
    if ← continues a b then return (← add 64 a.va (← mul 64 a.pages PAGE)) == b.va else return false
  else return false

def coalesceFrom (a : MmapRegion) : List MmapRegion → Arith (List MmapRegion)
  | [] => return [a]
  | b :: rest => do
    if ← joinable a b then coalesceFrom { a with pages := ← add 32 a.pages b.pages } rest
    else return a :: (← coalesceFrom b rest)

def coalesce : List MmapRegion → Arith (List MmapRegion)
  | [] => return []
  | a :: rest => coalesceFrom a rest

def freeGapFrom (areaHi len : Nat) : Nat → List MmapRegion → Arith (Option Nat)
  | cand, [] => return if cand + len ≤ USIZE_MAX ∧ cand + len ≤ areaHi then some cand else none
  | cand, r :: rest => do
    let hi ← regionEnd r
    if hi ≤ cand then freeGapFrom areaHi len cand rest
    else if cand + len ≤ USIZE_MAX then
      if cand + len ≤ r.va then return if cand + len ≤ areaHi then some cand else none
      else freeGapFrom areaHi len hi rest
    else return none

def insertRegion (vm : Vm) (region : MmapRegion) : Arith (Vm × Bool) := do
  let i := Task.partitionPoint (fun r => r.va < region.va) vm.mmap
  let mmap ← coalesce (vm.mmap.insertIdx i region)
  if MAX_MMAP_REGIONS < mmap.length then return ({ vm with mmap := mmap.eraseIdx i }, false)
  else return ({ vm with mmap }, true)

def addRegion (vm : Vm) (va pages : Nat) (prot : Prot) (file : Option (Node × Nat)) : Arith (Vm × Bool) :=
  match file with
  | none => insertRegion vm ⟨va, pages, prot, 0, 0⟩
  | some (node, off) =>
    match vm.mappedFileSlot node with
    | (vm, some slot) => insertRegion vm ⟨va, pages, prot, slot + 1, off / PAGE % 2 ^ 32⟩
    | (vm, none) => return (vm, false)

def mmapAddFree (vm : Vm) (areaLo areaHi pages : Nat) (prot : Prot) (file : Option (Node × Nat)) :
    Arith (Vm × Option Nat) := do
  match ← freeGapFrom areaHi (← mul 64 pages PAGE) areaLo vm.mmap with
  | none => return (vm, none)
  | some va =>
    match ← addRegion vm va pages prot file with
    | (vm, true) => return (vm, some va)
    | (vm, false) => return (vm, none)

def mmapRemove (vm : Vm) (va pages : Nat) : Arith (Vm × Bool) := do
  let hi ← add 64 va (← mul 64 pages PAGE)
  match ← carve vm.mmap va hi with
  | none => return (vm.pruneFiles, false)
  | some (mmap, _) => return (Vm.pruneFiles { vm with mmap }, true)

def mmapSetProt (vm : Vm) (va pages : Nat) (prot : Prot) : Arith (Vm × Bool) := do
  let hi ← add 64 va (← mul 64 pages PAGE)
  match ← carve vm.mmap va hi with
  | none => return (vm, false)
  | some (mmap, parts) =>
    let start := Task.partitionPoint (fun r => r.va < va) mmap
    let reprotected := parts.map fun part => { part with prot := prot ||| (part.prot &&& kernelBits) }
    let mmap ← coalesce (mmap.take start ++ reprotected ++ mmap.drop start)
    if MAX_MMAP_REGIONS < mmap.length then return (vm, false) else return ({ vm with mmap }, true)

def regionAt (mmap : List MmapRegion) (va : Nat) : Arith (Option MmapRegion) := do
  return mmap[← partitionPoint (endsBy va) mmap]?.filter fun r => r.va ≤ va

def backingFile (vm : Vm) (r : MmapRegion) (va : Nat) : Arith (Option (Node × Nat)) :=
  match if r.file = 0 then none else vm.files[r.file - 1]?.join with
  | none => return none
  | some node => do
    let page ← add 64 r.fpage ((← sub va r.va) / PAGE)
    return some (node, ← mul 64 page PAGE)

def mmapBacking (vm : Vm) (va : Nat) : Arith (Option (Prot × Option (Node × Nat) × Nat)) := do
  match ← regionAt vm.mmap va with
  | none => return none
  | some r =>
    let file ← backingFile vm r va
    let left ← sub (← regionEnd r) (va - va % PAGE)
    return some (r.prot, file, left / PAGE)

end Myos.Task.Machine
