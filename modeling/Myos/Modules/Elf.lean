import Myos.Lib.Checked
import Myos.Lib.Consts

namespace Myos.Modules.Elf
open Lib Checked

def ELFMAG : Bytes := [0x7f, 0x45, 0x4c, 0x46]
def ELFCLASS64 : Byte := 2
def ELFDATA2LSB : Byte := 1
def ET_EXEC : Nat := 2
def ET_DYN : Nat := 3
def PT_LOAD : Nat := 1
def PF_X : BitVec 32 := 1
def PF_W : BitVec 32 := 2
def PF_R : BitVec 32 := 4
def SHT_SYMTAB : Nat := 2
def SHT_RELA : Nat := 4
def SHT_REL : Nat := 9
def SHT_DYNSYM : Nat := 11
def SHN_UNDEF : Nat := 0
def R_NONE : Nat := 0
def IMAGE_VADDR_MAX : Nat := 2 ^ 46
def RELOCS_PER_READ : Nat := 4096

structure Arch where
  expectMachine : Nat
  rAbs64 : Nat
  rGlobDat : Nat
  rJumpSlot : Nat
  rRelative : Nat

inductive LoadError where
  | truncated
  | notElf
  | unsupported
  | badMachine
  | noLoad
  | alloc
  | badReloc (type : Nat)
  deriving DecidableEq

abbrev Result := Checked LoadError

def slice (b : Bytes) (o n : Nat) : Result Bytes :=
  if o + n < 2 ^ 64 ∧ o + n ≤ b.length then .ok ((b.drop o).take n) else fail .truncated

def u16At (b : Bytes) (o : Nat) : Result Nat := do return fromLe (← slice b o 2)
def u32At (b : Bytes) (o : Nat) : Result Nat := do return fromLe (← slice b o 4)
def u64At (b : Bytes) (o : Nat) : Result Nat := do return fromLe (← slice b o 8)

structure Ehdr where
  eType : Nat
  eEntry : Nat
  ePhoff : Nat
  eShoff : Nat
  ePhentsize : Nat
  ePhnum : Nat
  eShentsize : Nat
  eShnum : Nat
  deriving DecidableEq

def parseEhdr (arch : Arch) (b : Bytes) : Result Ehdr := do
  if b.length < 64 then fail .truncated
  else if b.take 4 ≠ ELFMAG then fail .notElf
  else if b[4]? ≠ some ELFCLASS64 ∨ b[5]? ≠ some ELFDATA2LSB ∨ b[6]? ≠ some 1 then fail .unsupported
  else
    let eType ← u16At b 16
    let eMachine ← u16At b 18
    if eType ≠ ET_DYN ∧ eType ≠ ET_EXEC then fail .unsupported
    else if eMachine ≠ arch.expectMachine then fail .badMachine
    else
      let ePhentsize ← u16At b 54
      let eShentsize ← u16At b 58
      if ePhentsize < 56 ∨ eShentsize < 64 then fail .unsupported
      else
        return ⟨eType, ← u64At b 24, ← u64At b 32, ← u64At b 40, ePhentsize, ← u16At b 56, eShentsize, ← u16At b 60⟩

structure LoadSegment where
  vaddr : Nat
  memsz : Nat
  flags : BitVec 32
  offset : Nat
  filesz : Nat
  deriving DecidableEq

def phdrAt (hdr : Ehdr) (i : Nat) : Result Nat := do
  addOr 64 .truncated hdr.ePhoff (← mulOr 64 .truncated i hdr.ePhentsize)

def segmentsFrom (hdr : Ehdr) (b : Bytes) : Nat → Nat → Result (List LoadSegment)
  | 0, _ => return []
  | left + 1, i => do
    let p ← phdrAt hdr i
    if (← u32At b p) ≠ PT_LOAD then segmentsFrom hdr b left (i + 1)
    else
      let flags ← u32At b (← add 64 p 4)
      let offset ← u64At b (← add 64 p 8)
      let vaddr ← u64At b (← add 64 p 16)
      let filesz ← u64At b (← add 64 p 32)
      let memsz ← u64At b (← add 64 p 40)
      return ⟨vaddr, memsz, BitVec.ofNat 32 flags, offset, filesz⟩ :: (← segmentsFrom hdr b left (i + 1))

def loadSegments (arch : Arch) (b : Bytes) : Result (List LoadSegment) := do
  let hdr ← parseEhdr arch b
  segmentsFrom hdr b hdr.ePhnum 0

def pfToProt (flags : BitVec 32) : BitVec 32 :=
  let prot := (if flags &&& PF_R ≠ 0 then 1 else 0) ||| (if flags &&& PF_W ≠ 0 then 2 else 0) |||
    (if flags &&& PF_X ≠ 0 then 4 else 0)
  if prot = 0 then 1 else prot

structure ImageSpan where
  minVaddr : Nat
  span : Nat
  entry : Nat
  deriving DecidableEq

structure Extent where
  min : Nat
  max : Nat
  nload : Nat

def extentFrom (hdr : Ehdr) (b : Bytes) : Nat → Nat → Extent → Result Extent
  | 0, _, e => return e
  | left + 1, i, e => do
    let p ← phdrAt hdr i
    if (← u32At b p) ≠ PT_LOAD then extentFrom hdr b left (i + 1) e
    else
      let vaddr ← u64At b (← add 64 p 16)
      let filesz ← u64At b (← add 64 p 32)
      let memsz ← u64At b (← add 64 p 40)
      if memsz < filesz then fail .unsupported
      else
        let top ← addOr 64 .unsupported vaddr memsz
        if IMAGE_VADDR_MAX < top then fail .unsupported
        else extentFrom hdr b left (i + 1) ⟨min e.min vaddr, max e.max top, e.nload + 1⟩

def pageDown (a : Nat) : Nat := a / PAGE * PAGE

def spanFrom (hdr : Ehdr) (b : Bytes) : Result ImageSpan := do
  let e ← extentFrom hdr b hdr.ePhnum 0 ⟨2 ^ 64 - 1, 0, 0⟩
  if e.nload = 0 ∨ e.max ≤ e.min then fail .noLoad
  else return ⟨pageDown e.min, ← sub e.max (pageDown e.min), hdr.eEntry⟩

def imageSpan (arch : Arch) (b : Bytes) : Result ImageSpan := do spanFrom (← parseEhdr arch b) b

end Myos.Modules.Elf
