import Myos.Lib.Checked
import Myos.Lib.Consts

/-! What reads, writes and new sizes of tmpfs, ext2 and FAT files compute, with the machine's integers. -/

namespace Myos.Fs.Io
open Lib Checked

inductive WriteError where
  | failed
  | noSpace
  | tooBig
  deriving DecidableEq

abbrev Result := Checked WriteError

namespace Tmpfs

def FILE_CAP : Nat := 128 * 1024 * 1024

def readAt (data : Bytes) (pos len : Nat) : Result Bytes := do
  let n := min len (data.length - pos)
  if n = 0 then return []
  else return (data.take (← add 64 pos n)).drop pos

def grown (reserve : Nat → Bool) (data : Bytes) (last : Nat) : Result Bytes :=
  if data.length < last then do
    let extra ← sub last data.length
    let ahead := max (min data.length (2 ^ 20)) extra
    let room ← sub FILE_CAP data.length
    if reserve (min ahead room) || reserve extra then return data ++ List.replicate extra 0 else fail .noSpace
  else return data

def writeAt (reserve : Nat → Bool) (data : Bytes) (pos : Nat) (buf : Bytes) : Result Bytes := do
  let last ← addOr 64 .tooBig pos buf.length
  if FILE_CAP < last then fail .tooBig
  else
    let data ← grown reserve data last
    return data.take pos ++ buf ++ data.drop last

def setSizeAt (reserve : Nat → Bool) (data : Bytes) (size : Nat) : Result Bytes :=
  if FILE_CAP < size then fail .tooBig
  else if data.length < size then do
    let extra ← sub size data.length
    if reserve extra then return data ++ List.replicate extra 0 else fail .noSpace
  else return data.take size

end Tmpfs

namespace Ext2

def NDIRECT : Nat := 12
def IND : Nat := 12

structure Geometry where
  log : Fin 3
  largeFile : Bool

def Geometry.blockSize (g : Geometry) : Nat := 1024 * 2 ^ g.log.val

def Geometry.ptrs (g : Geometry) : Nat := g.blockSize / 4

/-- What the disk answers: the block of a logical block, if it can be read or there is one to allocate, and the
pointers an indirect block holds. -/
structure Disk (g : Geometry) where
  block : Nat → Option Nat
  ptrs : Nat → List Nat
  whole : ∀ b, (ptrs b).length = g.ptrs

def indexes (p rest : Nat) : Nat → Nat → List Nat
  | 0, _ => []
  | left + 1, div => rest / div % p :: indexes p rest left (div / p)

def mapLevels (p : Nat) : Nat → Nat → Nat → Nat → Result (Nat × List Nat)
  | 0, _, _, _ => fail .tooBig
  | left + 1, level, rest, span =>
    if rest < span then return (IND + level, indexes p rest (level + 1) (span / p))
    else do mapLevels p left (level + 1) (← sub rest span) (← mul 64 span p)

def mapPath (g : Geometry) (n : Nat) : Result (Nat × List Nat) :=
  if n < NDIRECT then return (n, []) else do mapLevels g.ptrs 3 0 (← sub n NDIRECT) g.ptrs

variable {g : Geometry} (disk : Disk g)

def bmap (n : Nat) : Result Nat := do
  let _ ← mapPath g n
  match disk.block n with
  | some b => return b
  | none => fail .noSpace

def readLoop (pos want : Nat) : Nat → Nat → Result Nat
  | 0, done => return done
  | fuel + 1, done =>
    if done < want then do
      let at_ ← add 64 pos done
      let left ← sub want done
      let take := min (g.blockSize - at_ % g.blockSize) left
      let _ ← bmap disk (at_ / g.blockSize)
      readLoop pos want fuel (← add 64 done take)
    else return done

def readData (size pos len : Nat) : Result Nat :=
  if size ≤ pos then return 0
  else do
    let want := min len (← sub size pos)
    readLoop disk pos want want 0

def writeLoop (pos len : Nat) : Nat → Nat → Nat → Result (Nat × Nat)
  | 0, done, size => return (done, size)
  | fuel + 1, done, size =>
    if done < len then do
      let at_ ← add 64 pos done
      let left ← sub len done
      let take := min (g.blockSize - at_ % g.blockSize) left
      match bmap disk (at_ / g.blockSize) with
      | .error .overflow => .error .overflow
      | .error (.error e) => if done = 0 then fail e else return (done, size)
      | .ok _ =>
        let done ← add 64 done take
        writeLoop pos len fuel done (max size (← add 64 pos done))
    else return (done, size)

def writeData (size pos len : Nat) : Result (Nat × Nat) := do
  let last ← addOr 64 .tooBig pos len
  if U32_MAX < last ∧ g.largeFile = false then fail .tooBig
  else writeLoop disk pos len len 0 size

def trimPtrs (below : Nat → Nat → Nat → Result Bool) (keep first child : Nat) : List Nat → Nat → Result Bool
  | [], _ => return false
  | ptr :: rest, i => do
    let at_ ← add 64 first (← mul 64 i child)
    if ptr = 0 then trimPtrs below keep first child rest (i + 1)
    else if (← add 64 at_ child) ≤ keep then trimPtrs below keep first child rest (i + 1)
    else
      let _ ← below ptr at_ child
      trimPtrs below keep first child rest (i + 1)

def trimTree (keep : Nat) : Nat → Nat → Nat → Nat → Result Bool
  | 0, _, _, _ => return true
  | depth + 1, b, first, span => do
    if (← add 64 first span) ≤ keep then return false
    else if keep ≤ first then return true
    else trimPtrs (trimTree keep depth) keep first (span / g.ptrs) (disk.ptrs b) 0

def trimLevels (slots : Nat → Nat) (keep : Nat) : Nat → Nat → Nat → Nat → Result Unit
  | 0, _, _, _ => return ()
  | left + 1, level, first, span => do
    if slots (IND + level) ≠ 0 then
      let _ ← trimTree disk keep (level + 1) (slots (IND + level)) first span
      trimLevels slots keep left (level + 1) (← add 64 first span) (← mul 64 span g.ptrs)
    else trimLevels slots keep left (level + 1) (← add 64 first span) (← mul 64 span g.ptrs)

def endBlock (size : Nat) : Result Unit :=
  if size % g.blockSize ≠ 0 then do
    let _ ← bmap disk (size / g.blockSize)
  else return ()

def resizeData (slots : Nat → Nat) (old size : Nat) : Result Nat :=
  if U32_MAX < size ∧ g.largeFile = false then fail .tooBig
  else if size < old then do
    endBlock disk size
    trimLevels disk slots ((size + g.blockSize - 1) / g.blockSize) 3 0 NDIRECT g.ptrs
    return size
  else return size

end Ext2

namespace Fat

/-- The length of the file after writing `count` bytes at `pos` from the `done`th on, at most a cluster at a time,
and whether all were; `takes` says which pieces the volume takes. -/
def put (cluster : Nat) (takes : Nat → Bool) (pos count : Nat) : Nat → Nat → Nat → Result (Nat × Bool)
  | 0, _, len => return (len, true)
  | fuel + 1, done, len =>
    if done < count then do
      let at_ ← add 32 pos (done % 2 ^ 32)
      let left ← sub count done
      let n := min left (← sub cluster (at_ % cluster))
      if takes at_ then put cluster takes pos count fuel (← add 64 done n) (max len (at_ + n))
      else return (len, false)
    else return (len, true)

def growTo (cluster : Nat) (takes : Nat → Bool) (size : Nat) : Nat → Nat → Result (Nat × Bool)
  | 0, len => return (len, true)
  | fuel + 1, len =>
    if len < size then do
      let n := min (← sub size len) 4096
      let (len, ok) ← put cluster takes len n n 0 len
      if ok then growTo cluster takes size fuel len else return (len, false)
    else return (len, true)

def putIf (cluster : Nat) (takes : Nat → Bool) (pos count len : Nat) (grown : Bool) : Result (Nat × Bool) :=
  if grown then put cluster takes pos count count 0 len else return (len, false)

def write (cluster : Nat) (takes : Nat → Bool) (len pos count : Nat) : Result (Nat × Option Nat) := do
  if U32_MAX < (← add 64 pos count) then fail .tooBig
  else
    let (len, grown) ← growTo cluster takes pos pos len
    let (len, ok) ← putIf cluster takes pos count len grown
    let written := min (len - pos) count
    return (len, if ok then some count else if 0 < written then some written else none)

def setSize (cluster : Nat) (takes : Nat → Bool) (len size : Nat) : Result (Nat × Bool) :=
  if U32_MAX < size then fail .tooBig
  else if len < size then growTo cluster takes size size len
  else return (size, true)

end Fat

inductive File where
  | tmpfs (data : Bytes)
  | ext2 (g : Ext2.Geometry) (size : Nat)
  | fat (cluster len : Nat)

def File.size : File → Nat
  | tmpfs data => data.length
  | ext2 _ size => size
  | fat _ len => len

structure Env where
  reserve : Nat → Bool
  disk : (g : Ext2.Geometry) → Ext2.Disk g
  slots : Nat → Nat
  takes : Nat → Bool
  gives : Nat
  dirty : Bool

def dirtyPages (pos last : Nat) : Nat → Nat → Result Unit
  | 0, _ => return ()
  | left + 1, index => do
    let base ← mul 64 index PAGE
    let lo := max pos base
    let hi := min last (← add 64 base PAGE)
    let _ ← sub lo base
    let _ ← sub hi base
    let _ ← sub lo pos
    let _ ← sub hi pos
    dirtyPages pos last left (index + 1)

def eachDirtyPage (dirty : Bool) (pos len : Nat) : Result Unit :=
  if 2 ^ 64 ≤ pos + len ∨ len = 0 ∨ dirty = false then return ()
  else dirtyPages pos (pos + len) ((pos + len - 1) / PAGE + 1 - pos / PAGE) (pos / PAGE)

def orNone (read : Result Nat) : Result Nat :=
  match read with
  | .error (.error _) => return 0
  | other => other

namespace File

variable (env : Env)

def read (pos len : Nat) : File → Result Nat
  | tmpfs data => do return (← Tmpfs.readAt data pos len).length
  | ext2 g size => orNone (Ext2.readData (env.disk g) size pos len)
  | fat _ flen => return if flen ≤ pos then 0 else min env.gives len

def vfsRead (pos len : Nat) (file : File) : Result Nat := do
  let n ← file.read env pos len
  eachDirtyPage env.dirty pos n
  return n

def readOrWait (pos len : Nat) (file : File) : Result Nat :=
  match file with
  | fat .. => file.read env pos len
  | _ => file.vfsRead env pos len

def readsWhole : File → Bool
  | fat .. => false
  | _ => true

def writeThrough (pos : Nat) (buf : Bytes) (file : File) : Result (File × Except WriteError Nat) :=
  match file with
  | tmpfs data =>
    match Tmpfs.writeAt env.reserve data pos buf with
    | .ok data => return (tmpfs data, .ok buf.length)
    | .error (.error e) => return (file, .error e)
    | .error .overflow => .error .overflow
  | ext2 g size =>
    match Ext2.writeData (env.disk g) size pos buf.length with
    | .ok (n, size) => return (ext2 g size, .ok n)
    | .error (.error e) => return (file, .error e)
    | .error .overflow => .error .overflow
  | fat cluster len =>
    match Fat.write cluster env.takes len pos buf.length with
    | .ok (len, some n) => return (fat cluster len, .ok n)
    | .ok (len, none) => return (fat cluster len, .error .noSpace)
    | .error (.error e) => return (file, .error e)
    | .error .overflow => .error .overflow

def write (pos : Nat) (buf : Bytes) (file : File) : Result (File × Except WriteError Nat) := do
  let (file, written) ← file.writeThrough env pos buf
  match written with
  | .ok n => eachDirtyPage env.dirty pos (min n buf.length)
  | .error _ => eachDirtyPage env.dirty pos 0
  return (file, written)

def setSize (size : Nat) (file : File) : Result (File × Bool) :=
  match file with
  | tmpfs data => do return (tmpfs (← Tmpfs.setSizeAt env.reserve data size), true)
  | ext2 g old => do return (ext2 g (← Ext2.resizeData (env.disk g) env.slots old size), true)
  | fat cluster len => do
    let (len, done) ← Fat.setSize cluster env.takes len size
    return (fat cluster len, done)

end File
end Myos.Fs.Io
