import Myos.Fs.IoSafe

namespace Myos.Task.FileIo
open Lib Checked Fs.Io

def FILE_IO_TMP : Nat := 8192
def FILE_READ_TMP : Nat := 16384
def SYSERR : Nat := 2 ^ 64 - 1
def SYSERR_ENOSPC : Nat := SYSERR - 10
def SYSERR_EFBIG : Nat := SYSERR - 11

structure OpenFile where
  node : Nat
  pos : Nat
  readable : Bool
  writable : Bool
  append : Bool
  appendOnly : Bool

structure Files where
  opens : Nat → Option OpenFile
  nodes : Nat → File

namespace Files

def setNode (files : Files) (node : Nat) (file : File) : Files :=
  { files with nodes := fun n => if n = node then file else files.nodes n }

def setPos (files : Files) (id pos : Nat) : Files :=
  { files with opens := fun i => if i = id then (files.opens id).map ({ · with pos }) else files.opens i }

end Files

structure Caller where
  fds : Nat → Option Nat
  mapped : Nat → Nat → Bool
  copies : Nat → Nat → Bool
  byte : Nat → BitVec 8
  env : Nat → Env

namespace Caller

variable (caller : Caller)

def bufferOk (buf len : Nat) : Bool := decide (buf + len < 2 ^ 64) && caller.mapped buf len

def userBufOk (buf len : Nat) : Bool := len == 0 || caller.bufferOk buf len

def bytes (buf len : Nat) : Bytes := (List.range len).map fun i => caller.byte (buf + i)

def openFile (files : Files) (fd : Nat) : Option (Nat × OpenFile) :=
  (caller.fds fd).bind fun id => (files.opens id).map fun file => (id, file)

def readRest (file : File) (pos buf len : Nat) : Nat → Nat → Result Nat
  | 0, total => return total
  | fuel + 1, total =>
    if len ≤ total then return total
    else do
      let want := min (← sub len total) FILE_READ_TMP
      let n ← file.vfsRead (caller.env total) (← add 64 pos total) want
      if n = 0 then return total
      else
        let start ← add 64 buf total
        if !caller.bufferOk start n || !caller.copies start n then return total
        else
          let total ← add 64 total n
          if n < want then return total else readRest file pos buf len fuel total

def readMore (file : File) (pos buf len n : Nat) : Result Nat :=
  if n = min len FILE_READ_TMP ∧ n < len ∧ file.readsWhole then caller.readRest file pos buf len len n else return n

def fdRead (files : Files) (fd buf len : Nat) (off : Option Nat) : Result (Files × Nat) :=
  if len = 0 then return (files, 0)
  else if caller.userBufOk buf (min len FILE_READ_TMP) = false then return (files, SYSERR)
  else
    match caller.openFile files fd with
    | none => return (files, SYSERR)
    | some (id, file) =>
      if file.readable = false then return (files, SYSERR)
      else do
        let node := files.nodes file.node
        let pos := off.getD file.pos
        let want := min len FILE_READ_TMP
        let n ← node.readOrWait (caller.env 0) pos want
        if n ≠ 0 ∧ caller.copies buf n = false then return (files, SYSERR)
        else
          let total ← caller.readMore node pos buf len n
          match off with
          | some _ => return (files, total)
          | none => return (files.setPos id (← add 64 file.pos total), total)

def soFar (total : Nat) : Nat := if total = 0 then SYSERR else total

def errorOf (total : Nat) : WriteError → Nat
  | .noSpace => if total = 0 then SYSERR_ENOSPC else total
  | .tooBig => if total = 0 then SYSERR_EFBIG else total
  | .failed => soFar total

def writePos (file : OpenFile) (size total : Nat) : Option Nat → Option Nat
  | some base => if file.append then some size else if base + total < 2 ^ 64 then some (base + total) else none
  | none => if file.append then some size else some file.pos

def movedTo (off : Option Nat) (old pos n : Nat) : Result Nat :=
  match off with
  | some _ => return old
  | none => add 64 pos n

def writeChunks (fd buf len : Nat) (off : Option Nat) : Nat → Nat → Files → Result (Files × Nat)
  | 0, total, files => return (files, total)
  | fuel + 1, total, files =>
    if len ≤ total then return (files, total)
    else do
      let chunk := min (← sub len total) FILE_IO_TMP
      let start ← add 64 buf total
      if caller.userBufOk start chunk = false || caller.copies start chunk = false then return (files, soFar total)
      else
        match caller.openFile files fd with
        | none => return (files, soFar total)
        | some (id, file) =>
          match if file.writable then writePos file (files.nodes file.node).size total off else none with
          | none => return (files, soFar total)
          | some pos =>
            let (after, written) ← (files.nodes file.node).write (caller.env total) pos (caller.bytes start chunk)
            let files := files.setNode file.node after
            match written with
            | .error e => return (files, errorOf total e)
            | .ok n =>
              if n = 0 then return (files, soFar total)
              else
                let last ← movedTo off file.pos pos n
                writeChunks fd buf len off fuel (← add 64 total n) (files.setPos id last)

def fdWrite (files : Files) (fd buf len : Nat) (off : Option Nat) : Result (Files × Nat) :=
  caller.writeChunks fd buf len off len 0 files

def fdSetSize (files : Files) (fd size : Nat) : Result (Files × Nat) :=
  match caller.openFile files fd with
  | none => return (files, SYSERR)
  | some (_, file) =>
    if file.writable = false ∨ file.appendOnly then return (files, SYSERR)
    else
      match (files.nodes file.node).setSize (caller.env 0) size with
      | .ok (after, done) => return (files.setNode file.node after, if done then 0 else SYSERR)
      | .error (.error e) => return (files, errorOf 0 e)
      | .error .overflow => .error .overflow

def asI64 (n : Nat) : Int := (BitVec.ofNat 64 n).toInt

def saturatingAdd (a b : Int) : Int := max (-2 ^ 63) (min (2 ^ 63 - 1) (a + b))

def seekTo (pos size : Nat) (offset : Int) : Nat → Int
  | 0 => offset
  | 1 => saturatingAdd (asI64 pos) offset
  | 2 => saturatingAdd (asI64 size) offset
  | _ => -1

def fdLseek (files : Files) (fd : Nat) (offset : Int) (whence : Nat) : Files × Nat :=
  match caller.openFile files fd with
  | none => (files, SYSERR)
  | some (id, file) =>
    let next := seekTo file.pos (files.nodes file.node).size offset whence
    if next < 0 then (files, SYSERR) else (files.setPos id next.toNat, next.toNat)

end Caller
end Myos.Task.FileIo
