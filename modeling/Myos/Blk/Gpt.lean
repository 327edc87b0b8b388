import Mathlib.Logic.Function.Iterate
import Myos.Lib.Checked
import Myos.Blk.Cache
import Myos.Lib.Consts

namespace Myos.Blk.Gpt
open Lib Lib.Checked

def LABEL_MAX : Nat := 36
def MAX_ARRAY : Nat := 256 * 1024

inductive Panic where
  | range
  deriving DecidableEq

abbrev M := Checked Panic

def slice (b : Bytes) (first last : Nat) : M Bytes :=
  if first ≤ last ∧ last ≤ b.length then .ok ((b.take last).drop first) else fail .range

def copy (b : Bytes) (range : Nat × Nat) (bytes : Bytes) : M Bytes :=
  if range.1 ≤ range.2 ∧ range.2 ≤ b.length ∧ bytes.length = range.2 - range.1 then
    .ok (b.take range.1 ++ bytes ++ b.drop range.2)
  else fail .range

def index (b : Bytes) (i : Nat) : M Byte :=
  match b[i]? with
  | some byte => .ok byte
  | none => fail .range

def u32At (b : Bytes) (at_ : Nat) : M Nat := do return fromLe (← slice b at_ (at_ + 4))

def u64At (b : Bytes) (at_ : Nat) : M Nat := do return fromLe (← slice b at_ (at_ + 8))

def divCeil (a b : Nat) : Nat := (a + (b - 1)) / b

def filled (n : Nat) (bytes : Nat → Byte) : Bytes := (List.range n).map bytes

/-- How a call of `blk::read` on a disk goes: whether the disk is there, how many sectors the driver says it has, which chunks are
kept when they are looked for (`later`, when the run that starts at one is cut), and what the device answers. -/
structure Source where
  found : Bool
  sectors : Option Nat
  kept : Nat → Option (Nat → Byte)
  later : Nat → Nat → Bool
  device : Nat → Nat → Option (Nat → Byte)

def Source.disk (sectors : Nat) (content : Nat → Byte) : Source where
  found := true
  sectors := some sectors
  kept _ := none
  later _ _ := false
  device lba _ := some fun i => content (lba * SECTOR + i)

def overlap (chunk lba len : Nat) : M ((Nat × Nat) × (Nat × Nat)) := do
  let base ← mul 64 chunk CHUNK
  let low ← mul 64 lba SECTOR
  let next ← mul 64 (← add 64 chunk 1) CHUNK
  let high ← add 64 low len
  return ((← sub (max base low) base, ← sub (min next high) base), (← sub (max base low) low, ← sub (min next high) low))

def copyChunk (lba chunk : Nat) (bytes : Nat → Byte) (buf : Bytes) : M Bytes := do
  let (inChunk, inBuf) ← overlap chunk lba buf.length
  copy buf inBuf (← slice (filled CHUNK bytes) inChunk.1 inChunk.2)

def copyRun (lba first : Nat) (data : Nat → Byte) : Nat → Nat → Bytes → M Bytes
  | 0, _, buf => .ok buf
  | n + 1, chunk, buf => do
    copyRun lba first data n (chunk + 1) (← copyChunk lba chunk (fun i => data ((chunk - first) * CHUNK + i)) buf)

def runEnd (kept : Nat → Bool) (whole : Nat) : Nat → Nat → Nat
  | 0, last => last
  | fuel + 1, last => if last < whole ∧ kept last = false then runEnd kept whole fuel (last + 1) else last

def readChunks (source : Source) (lba whole last : Nat) : Nat → Nat → Bytes → M (Option Bytes)
  | 0, _, buf => .ok (some buf)
  | fuel + 1, chunk, buf =>
    if last ≤ chunk then .ok (some buf)
    else
      match source.kept chunk with
      | some bytes => do readChunks source lba whole last fuel (← add 64 chunk 1) (← copyChunk lba chunk bytes buf)
      | none =>
        if whole ≤ chunk then do
          let (_, range) ← overlap chunk lba buf.length
          let at_ ← add 64 lba (range.1 / SECTOR)
          match source.device at_ (range.2 - range.1) with
          | none => return none
          | some bytes =>
            readChunks source lba whole last fuel (← add 64 chunk 1) (← copy buf range (filled (range.2 - range.1) bytes))
        else do
          let run := runEnd (source.later chunk) whole (MAX_RUN - 1) (chunk + 1)
          match source.device (← mul 64 chunk CHUNK_SECTORS) (← mul 64 (run - chunk) CHUNK) with
          | none => return none
          | some data => readChunks source lba whole last fuel run (← copyRun lba chunk data (run - chunk) chunk buf)

def cacheRead (source : Source) (sectors lba : Nat) (buf : Bytes) : M (Option Bytes) := do
  let first := lba / CHUNK_SECTORS
  let last := divCeil (← add 64 lba (buf.length / SECTOR)) CHUNK_SECTORS
  readChunks source lba (min last (sectors / CHUNK_SECTORS)) last (last - first) first buf

def blkRead (source : Source) (lba len : Nat) : M (Option Bytes) :=
  if len % SECTOR ≠ 0 then .ok none
  else if len = 0 then .ok (some [])
  else if source.found = false then .ok none
  else
    match source.sectors with
    | some sectors => cacheRead source sectors lba (List.replicate len 0)
    | none => .ok ((source.device lba len).map (filled len))

def crcBit (crc : BitVec 32) : BitVec 32 := (crc >>> 1) ^^^ (0xEDB88320#32 &&& -(crc &&& 1#32))

def crc32 (data : Bytes) : BitVec 32 :=
  ~~~data.foldl (fun crc byte => crcBit^[8] (crc ^^^ byte.setWidth 32)) 0xFFFFFFFF#32

structure Header where
  firstUsable : Nat
  lastUsable : Nat
  entriesLba : Nat
  entries : Nat
  entrySize : Nat
  entriesCrc : Nat

structure Entry where
  number : Nat
  first : Nat
  last : Nat
  typeGuid : Bytes
  uuid : Bytes
  label : List Nat

def protective (mbr : Bytes) : M Bool := do
  if (← slice mbr 510 512) ≠ [0x55, 0xAA] then return false
  return (← [0, 1, 2, 3].mapM fun i => index mbr (446 + 16 * i + 4)).any (· == 0xEE)

def SIGNATURE : Bytes := [0x45, 0x46, 0x49, 0x20, 0x50, 0x41, 0x52, 0x54]

def Header.Fits (h : Header) (sectors bytes arrayEnd : Nat) : Prop :=
  h.firstUsable ≤ h.lastUsable ∧ h.lastUsable < sectors ∧ 128 ≤ h.entrySize ∧ h.entrySize % 8 = 0 ∧ bytes ≤ MAX_ARRAY ∧
    2 ≤ h.entriesLba ∧ arrayEnd ≤ sectors

instance (h : Header) (sectors bytes arrayEnd : Nat) : Decidable (h.Fits sectors bytes arrayEnd) :=
  inferInstanceAs (Decidable (_ ∧ _))

def header (source : Source) (lba sectors : Nat) : M (Option Header) := do
  match ← blkRead source lba SECTOR with
  | none => return none
  | some sec =>
    let size ← u32At sec 12
    if (← slice sec 0 8) ≠ SIGNATURE ∨ ¬(92 ≤ size ∧ size ≤ SECTOR) then return none
    let crc ← u32At sec 16
    let sec ← copy sec (16, 20) [0, 0, 0, 0]
    if (crc32 (← slice sec 0 size)).toNat ≠ crc ∨ (← u64At sec 24) ≠ lba then return none
    let h : Header :=
      ⟨← u64At sec 40, ← u64At sec 48, ← u64At sec 72, ← u32At sec 80, ← u32At sec 84, ← u32At sec 88⟩
    let bytes ← mul 64 h.entries h.entrySize
    let arrayEnd := h.entriesLba + divCeil bytes SECTOR
    -- `checked_add`
    if 2 ^ 64 ≤ arrayEnd then return none
    return if h.Fits sectors bytes arrayEnd then some h else none

def entryAt (h : Header) (i : Nat) (e : Bytes) : M (Option Entry) := do
  let typeGuid ← slice e 0 16
  if typeGuid = List.replicate 16 0 then return none
  let first ← u64At e 32
  let last ← u64At e 40
  if last < first ∨ first < h.firstUsable ∨ h.lastUsable < last then return none
  let label ← (List.range LABEL_MAX).mapM fun k => do return fromLe [← index e (56 + 2 * k), ← index e (57 + 2 * k)]
  let number ← add 32 (i % 2 ^ 32) 1
  return some ⟨number, first, last, typeGuid, ← slice e 16 32, label⟩

def entriesFrom (h : Header) (array : Bytes) : Nat → Nat → M (List Entry)
  | 0, _ => .ok []
  | n + 1, i => do
    let entry ← entryAt h i (← slice array (i * h.entrySize) (min ((i + 1) * h.entrySize) array.length))
    return entry.toList ++ (← entriesFrom h array n (i + 1))

def entries (source : Source) (h : Header) : M (Option (List Entry)) := do
  let bytes ← mul 64 h.entries h.entrySize
  match ← blkRead source h.entriesLba (← mul 64 (divCeil bytes SECTOR) SECTOR) with
  | none => return none
  | some array =>
    let array ← slice array 0 bytes
    if (crc32 array).toNat ≠ h.entriesCrc then return none
    -- pieces of no bytes
    if h.entrySize = 0 then fail .range
    return some (← entriesFrom h array (divCeil array.length h.entrySize) 0)

def table (source array : Source) (lba sectors : Nat) : M (Option (List Entry)) := do
  match ← header source lba sectors with
  | none => return none
  | some h => entries array h

def read (sources : Nat → Source) (sectors : Nat) : M (List Entry) := do
  if sectors < 3 then return []
  match ← blkRead (sources 0) 0 SECTOR with
  | none => return []
  | some mbr =>
    if (← protective mbr) = false then return []
    match ← table (sources 1) (sources 2) 1 sectors with
    | some entries => return entries
    | none =>
      match ← table (sources 3) (sources 4) (← sub sectors 1) sectors with
      | some entries => return entries
      | none => return []

end Myos.Blk.Gpt
