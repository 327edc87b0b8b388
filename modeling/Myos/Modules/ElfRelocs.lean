import Myos.Modules.Elf

namespace Myos.Modules.Elf
open Lib Checked

abbrev Src := Nat → Nat → Result Bytes

def memSrc (b : Bytes) : Src := fun off len => do
  let _ ← addOr 64 .truncated off len
  slice b off len

/-- A file read piecewise: `gives pos want` is how much a read of `want` bytes at `pos` returns of what
there is, `heap` the largest buffer there is memory for. -/
structure Node where
  bytes : Bytes
  gives : Nat → Nat → Nat
  heap : Nat

def Node.read (node : Node) (pos want : Nat) : Bytes :=
  (node.bytes.drop pos).take (min (node.gives pos want) want)

def Node.fill (node : Node) (off len : Nat) : Nat → Bytes → Result Bytes
  | 0, v => return v
  | fuel + 1, v =>
    if v.length < len then do
      let pos ← add 64 off v.length
      let more := node.read pos (len - v.length)
      if more.length = 0 then fail .truncated else node.fill off len fuel (v ++ more)
    else return v

def nodeSrc (node : Node) : Src := fun off len =>
  if node.heap < len then fail .alloc else node.fill off len len []

def symbolValue (src : Src) (shdrs : Bytes) (symtabSh : Option Nat) (index loadBias : Nat) : Result Nat :=
  match symtabSh with
  | none => fail (.badReloc 0)
  | some sh => do
    let shOffset ← u64At shdrs (← add 64 sh 24)
    let shEntsize ← u64At shdrs (← add 64 sh 56)
    if shEntsize < 24 then fail .unsupported
    else
      let s ← addOr 64 .truncated shOffset (← mulOr 64 .truncated index shEntsize)
      let sym ← src s 24
      let stShndx ← u16At sym 6
      let stValue ← u64At sym 8
      if stShndx = SHN_UNDEF then fail (.badReloc 0)
      else return (loadBias + stValue) % 2 ^ 64

def addendAt (relocs : Bytes) (rela : Bool) (r : Nat) : Result (Option Nat) :=
  if rela then do return some (← u64At relocs (← add 64 r 16))
  else return none

def isDynamic (shdrs : Bytes) (shentsize shnum shFlags shLink : Nat) : Result Bool :=
  if shFlags / 2 % 2 ≠ 0 then return true
  else if shLink < shnum then do
    return (← u32At shdrs (← add 64 (← mul 64 shLink shentsize) 4)) == SHT_DYNSYM
  else return false

def symtabAt (shentsize shnum shLink : Nat) : Result (Option Nat) :=
  if shLink < shnum then do return some (← mul 64 shLink shentsize)
  else return none

section Relocs

variable {σ : Type} (arch : Arch) (src : Src) (span minV loadBias : Nat) (store : σ → Nat → (Nat → Nat) → Option σ)

def storeReloc (shdrs : Bytes) (symtabSh : Option Nat) (rType rSym off : Nat) (addend : Option Nat) (s : σ) :
    Result (Option σ) :=
  if rType = R_NONE then return some s
  else if rType = arch.rRelative then return store s off fun w => (loadBias + addend.getD w) % 2 ^ 64
  else if rType = arch.rAbs64 ∨ rType = arch.rGlobDat ∨ rType = arch.rJumpSlot then do
    let v ← symbolValue src shdrs symtabSh rSym loadBias
    return store s off fun w => if rType = arch.rAbs64 then (v + addend.getD w) % 2 ^ 64 else v
  else fail (.badReloc rType)

def applyReloc (shdrs : Bytes) (rela : Bool) (symtabSh : Option Nat) (relocs : Bytes) (r : Nat) (s : σ) : Result σ := do
  let rOffset ← u64At relocs r
  let rInfo ← u64At relocs (← add 64 r 8)
  let rType := rInfo % 2 ^ 32
  let rSym := rInfo / 2 ^ 32
  let addend ← addendAt relocs rela r
  let off := (rOffset + 2 ^ 64 - minV) % 2 ^ 64
  if rOffset < minV ∨ span < min (off + 8) (2 ^ 64 - 1) then fail (.badReloc rType)
  else
    match ← storeReloc arch src loadBias store shdrs symtabSh rType rSym off addend s with
    | some s => return s
    | none => fail (.badReloc rType)

def applyEntries (shdrs : Bytes) (rela : Bool) (symtabSh : Option Nat) (relocs : Bytes) (entsize : Nat) :
    Nat → Nat → σ → Result σ
  | 0, _, s => return s
  | left + 1, i, s => do
    let r ← mul 64 i entsize
    let s ← applyReloc arch src span minV loadBias store shdrs rela symtabSh relocs r s
    applyEntries shdrs rela symtabSh relocs entsize left (i + 1) s

def applyChunks (shdrs : Bytes) (rela : Bool) (symtabSh : Option Nat) (shOffset entsize n : Nat) :
    Nat → Nat → σ → Result σ
  | 0, _, s => return s
  | fuel + 1, j, s =>
    if j < n then do
      let k := min (n - j) RELOCS_PER_READ
      let at_ ← addOr 64 .truncated shOffset (← mulOr 64 .truncated j entsize)
      let relocs ← src at_ (← mul 64 k entsize)
      let s ← applyEntries arch src span minV loadBias store shdrs rela symtabSh relocs entsize k 0 s
      applyChunks shdrs rela symtabSh shOffset entsize n fuel (← add 64 j k) s
    else return s

def applySections (shdrs : Bytes) (shentsize shnum : Nat) : Nat → Nat → σ → Result σ
  | 0, _, s => return s
  | left + 1, i, s => do
    let sh ← mul 64 i shentsize
    let shType ← u32At shdrs (← add 64 sh 4)
    if shType ≠ SHT_RELA ∧ shType ≠ SHT_REL then applySections shdrs shentsize shnum left (i + 1) s
    else
      let shFlags ← u64At shdrs (← add 64 sh 8)
      let shLink ← u32At shdrs (← add 64 sh 40)
      let dynamic ← isDynamic shdrs shentsize shnum shFlags shLink
      if dynamic = false then applySections shdrs shentsize shnum left (i + 1) s
      else
        let shOffset ← u64At shdrs (← add 64 sh 24)
        let shSize ← u64At shdrs (← add 64 sh 32)
        let shEntsize ← u64At shdrs (← add 64 sh 56)
        if shEntsize = 0 ∨ shSize = 0 then applySections shdrs shentsize shnum left (i + 1) s
        else
          let symtabSh ← symtabAt shentsize shnum shLink
          let n := shSize / shEntsize
          let s ← applyChunks arch src span minV loadBias store shdrs (shType == SHT_RELA) symtabSh shOffset
            shEntsize n n 0 s
          applySections shdrs shentsize shnum left (i + 1) s

def applyRelocs (shoff shentsize shnum : Nat) (s : σ) : Result σ := do
  let shdrs ← src shoff (← mulOr 64 .truncated shnum shentsize)
  applySections arch src span minV loadBias store shdrs shentsize shnum shnum 0 s

end Relocs

abbrev Image := Nat → Byte

def Image.put (img : Image) (at_ : Nat) (src : Bytes) : Image :=
  fun i => if at_ ≤ i ∧ i < at_ + src.length then src.getD (i - at_) 0 else img i

def toLe : Nat → Nat → Bytes
  | 0, _ => []
  | n + 1, v => BitVec.ofNat 8 v :: toLe n (v / 256)

def Image.store (img : Image) (off : Nat) (f : Nat → Nat) : Option Image :=
  some (img.put off (toLe 8 (f (fromLe ((List.range 8).map fun i => img (off + i))))))

def copySegments (hdr : Ehdr) (b : Bytes) (minVaddr : Nat) : Nat → Nat → Image → Result Image
  | 0, _, img => return img
  | left + 1, i, img => do
    let p ← add 64 hdr.ePhoff (← mul 64 i hdr.ePhentsize)
    if (← u32At b p) ≠ PT_LOAD then copySegments hdr b minVaddr left (i + 1) img
    else
      let off ← u64At b (← add 64 p 8)
      let vaddr ← u64At b (← add 64 p 16)
      let filesz ← u64At b (← add 64 p 32)
      let _ ← addOr 64 .truncated off filesz
      let src ← slice b off filesz
      copySegments hdr b minVaddr left (i + 1) (img.put (← sub vaddr minVaddr) src)

def realizeInto (arch : Arch) (b : Bytes) (hdr : Ehdr) (info : ImageSpan) (loadBias : Nat) (relocate : Bool) :
    Result Image := do
  let img ← copySegments hdr b info.minVaddr hdr.ePhnum 0 fun _ => 0
  if relocate then
    applyRelocs arch (memSrc b) info.span info.minVaddr loadBias Image.store hdr.eShoff hdr.eShentsize hdr.eShnum img
  else return img

def realizeAs (arch : Arch) (b : Bytes) (loadBias : Nat) (relocate : Bool) : Result (Image × Nat) := do
  let hdr ← parseEhdr arch b
  let info ← spanFrom hdr b
  let img ← realizeInto arch b hdr info loadBias relocate
  return (img, (info.entry + loadBias) % 2 ^ 64)

def relocate {σ : Type} (arch : Arch) (src : Src) (loadBias : Nat) (store : σ → Nat → (Nat → Nat) → Option σ) (s : σ) :
    Result σ := do
  let head ← src 0 64
  let hdr ← parseEhdr arch head
  let phdrs ← src 0 (min (hdr.ePhoff + min (hdr.ePhnum * hdr.ePhentsize) (2 ^ 64 - 1)) (2 ^ 64 - 1))
  let info ← spanFrom hdr phdrs
  applyRelocs arch src info.span info.minVaddr loadBias store hdr.eShoff hdr.eShentsize hdr.eShnum s

structure EntryPoints where
  init : Option Nat
  exit : Option Nat
  rescan : Option Nat

def ascii (s : String) : Bytes := s.toList.map fun c => BitVec.ofNat 8 c.toNat

def cstrAt (b : Bytes) (off : Nat) : Option Bytes :=
  if off ≤ b.length then
    let rest := b.drop off
    (rest.findIdx? (· == 0)).map fun n => rest.take n
  else none

def EntryPoints.note (points : EntryPoints) (name : Option Bytes) (addr : Nat) : EntryPoints :=
  if name = some (ascii "module_init") then { points with init := some addr }
  else if name = some (ascii "module_exit") then { points with exit := some addr }
  else if name = some (ascii "module_rescan") then { points with rescan := some addr }
  else points

def lookupSymbols (b strs : Bytes) (shOffset entsize loadBias : Nat) : Nat → Nat → EntryPoints → Result EntryPoints
  | 0, _, points => return points
  | left + 1, j, points => do
    let s ← add 64 shOffset (← mul 64 j entsize)
    let stName ← u32At b s
    let stValue ← u64At b (← add 64 s 8)
    if stName = 0 then lookupSymbols b strs shOffset entsize loadBias left (j + 1) points
    else
      let addr ← add 64 loadBias stValue
      lookupSymbols b strs shOffset entsize loadBias left (j + 1) (points.note (cstrAt strs stName) addr)

def strings (b : Bytes) (off size : Nat) : Bytes :=
  if min (off + size) (2 ^ 64 - 1) ≤ b.length then (b.drop off).take (min (off + size) (2 ^ 64 - 1) - off) else []

structure SymbolTable where
  offset : Nat
  entsize : Nat
  count : Nat
  strs : Bytes

def symbolTable (b : Bytes) (shoff shentsize shnum i : Nat) : Result (Option SymbolTable) := do
  let sh ← add 64 shoff (← mul 64 i shentsize)
  let shType ← u32At b (← add 64 sh 4)
  if shType ≠ SHT_SYMTAB ∧ shType ≠ SHT_DYNSYM then return none
  else
    let shOffset ← u64At b (← add 64 sh 24)
    let shSize ← u64At b (← add 64 sh 32)
    let shLink ← u32At b (← add 64 sh 40)
    let shEntsize ← u64At b (← add 64 sh 56)
    if shEntsize < 24 ∨ shnum ≤ shLink then return none
    else
      let strSh ← add 64 shoff (← mul 64 shLink shentsize)
      let strOff ← u64At b (← add 64 strSh 24)
      let strSize ← u64At b (← add 64 strSh 32)
      return some ⟨shOffset, shEntsize, shSize / shEntsize, strings b strOff strSize⟩

def lookupSections (b : Bytes) (shoff shentsize shnum loadBias : Nat) : Nat → Nat → EntryPoints → Result EntryPoints
  | 0, _, points => return points
  | left + 1, i, points => do
    match ← symbolTable b shoff shentsize shnum i with
    | none => lookupSections b shoff shentsize shnum loadBias left (i + 1) points
    | some t =>
      let points ← lookupSymbols b t.strs t.offset t.entsize loadBias t.count 0 points
      lookupSections b shoff shentsize shnum loadBias left (i + 1) points

def lookupEntryPoints (b : Bytes) (shoff shentsize shnum loadBias : Nat) : Result EntryPoints :=
  lookupSections b shoff shentsize shnum loadBias shnum 0 ⟨none, none, none⟩

def load (arch : Arch) (b : Bytes) (loadBias : Nat) : Result (Image × EntryPoints) := do
  let hdr ← parseEhdr arch b
  let info ← spanFrom hdr b
  let img ← realizeInto arch b hdr info loadBias true
  let points ← lookupEntryPoints b hdr.eShoff hdr.eShentsize hdr.eShnum loadBias
  return (img, points)

end Myos.Modules.Elf
