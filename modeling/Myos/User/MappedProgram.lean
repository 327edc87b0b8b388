import Myos.Modules.ElfRelocsSafe
import Myos.Task.VmMachine

namespace Myos.User.MappedProgram
open Lib Checked Myos.Task
open Modules.Elf hiding Node

structure Fill where
  va : Nat
  src : Nat
  len : Nat

structure Mapped where
  vm : Vm
  fills : List Fill
  ok : Bool

def Mapped.record (m : Mapped) (va pages : Nat) (prot : Prot) (file : Option (Node × Nat)) : Result Mapped := do
  let (vm, added) ← lift (Machine.addRegion m.vm va pages prot file)
  return { m with vm, ok := m.ok && added }

def pages (a b : Nat) : Result Nat := do return (← sub b a) / PAGE % 2 ^ 32

def mapWhole (node : Node) (bias lo wholeEnd fileOff : Nat) (prot : Prot) (m : Mapped) : Result Mapped :=
  if lo < wholeEnd then do
    let va ← add 64 bias lo
    m.record va (← pages lo wholeEnd) prot (some (node, fileOff))
  else return m

def mapTail (bias lo wholeEnd fileEnd fileOff : Nat) (prot : Prot) (m : Mapped) : Result (Mapped × Nat) :=
  if wholeEnd < fileEnd then do
    let src ← add 64 fileOff (← sub wholeEnd lo)
    let va ← add 64 bias wholeEnd
    let m := { m with fills := ⟨va, src, fileEnd - wholeEnd⟩ :: m.fills }
    return (← m.record va 1 prot none, ← add 64 wholeEnd PAGE)
  else return (m, wholeEnd)

def mapRest (bias next memEnd : Nat) (prot : Prot) (m : Mapped) : Result Mapped :=
  if next < memEnd then do
    let va ← add 64 bias next
    m.record va (← pages next memEnd) prot none
  else return m

def dataEnd (seg : LoadSegment) (lo : Nat) : Result Nat :=
  if seg.filesz = 0 then return lo else add 64 seg.vaddr seg.filesz

def mapSegment (node : Node) (bias : Nat) (m : Mapped) (seg : LoadSegment) : Result Mapped := do
  let prot := pfToProt seg.flags
  let lo := pageDown seg.vaddr
  let fileOff ← sub seg.offset (← sub seg.vaddr lo)
  let fileEnd ← dataEnd seg lo
  let wholeEnd := pageDown fileEnd
  let memEnd ← mul 64 (((← add 64 seg.vaddr seg.memsz) + (PAGE - 1)) / PAGE) PAGE
  let m ← mapWhole node bias lo wholeEnd fileOff prot m
  let (m, next) ← mapTail bias lo wholeEnd fileEnd fileOff prot m
  mapRest bias next memEnd prot m

def empty : Mapped := ⟨⟨[], []⟩, [], true⟩

def map (arch : Arch) (head : Bytes) (node : Node) (at_ : Nat) : Result Mapped :=
  match imageSpan arch head with
  | .error .overflow => .error .overflow
  | .error (.error _) => return { empty with ok := false }
  | .ok span =>
    if at_ < pageDown span.minVaddr then return { empty with ok := false }
    else
      match loadSegments arch head with
      | .error .overflow => .error .overflow
      | .error (.error _) => return empty
      | .ok segs => segs.foldlM (mapSegment node (at_ - pageDown span.minVaddr)) empty

def Mapped.backing (m : Mapped) (va : Nat) : Option Nat :=
  match m.fills.find? fun fill => fill.va ≤ va && va < fill.va + PAGE with
  | some fill => if va - fill.va < fill.len then some (fill.src + (va - fill.va)) else none
  | none => (m.vm.mmapBacking va).bind fun backed => backed.2.1.map fun file => file.2 * PAGE + va % PAGE

end Myos.User.MappedProgram
