import Mathlib.Algebra.GroupWithZero.Nat
import Mathlib.Data.List.Basic
import Myos.Lib.Consts
import Myos.Lib.System

/-! The paths that the Linux personality keeps for a process's descriptors, and the positional writes made through
them. -/

namespace Myos.Modules.LinuxFiles

inductive Errno where
  | ESPIPE | ENOENT | EFAULT | EBADF | EIO | ENOSPC | EFBIG | EINVAL | ENOMEM
  deriving DecidableEq

structure FdPath where
  fd : Nat
  path : Nat
  dir : Bool
  sock : Bool
  deriving DecidableEq

structure Tree where
  names : Nat → Option Nat
  data : Nat → Bytes

def splice (data : Bytes) (pos : Nat) (bytes : Bytes) : Bytes :=
  (data ++ List.replicate (pos - data.length) 0).take pos ++ bytes ++ data.drop (pos + bytes.length)

def slice (data : Bytes) (pos n : Nat) : Bytes := (data.drop pos).take n

def Tree.setData (tree : Tree) (node : Nat) (bytes : Bytes) : Tree :=
  { tree with data := fun n => if n = node then bytes else tree.data n }

structure Env where
  real : Nat → Option Nat
  may : Nat → Bool
  accepts : Nat → Nat → Except Errno Nat

section Write

variable (env : Env)

def writeErrno (tree : Tree) (real pos : Nat) (src : Bytes) : Tree × Except Errno Nat :=
  if env.may real = false then (tree, .error Errno.EIO)
  else
    match tree.names real with
    | none => (tree, .error Errno.EIO)
    | some node =>
      match env.accepts pos src.length with
      | .error e => (tree, .error e)
      | .ok n => (tree.setData node (splice (tree.data node) pos (src.take n)), .ok (min n src.length))

def zeroFill (real off : Nat) : Nat → Nat → Tree → Tree × Option Errno
  | 0, _, tree => (tree, none)
  | fuel + 1, last, tree =>
    if off ≤ last then (tree, none)
    else
      match writeErrno env tree real last (List.replicate (min (off - last) 4096) 0) with
      | (tree, .error e) => (tree, some e)
      | (tree, .ok 0) => (tree, some Errno.EIO)
      | (tree, .ok w) => zeroFill real off fuel (last + w) tree

def writeAt (tree : Tree) (real off : Nat) (bytes : Bytes) : Tree × Except Errno Nat :=
  match tree.names real with
  | none => (tree, .error .EBADF)
  | some node =>
    match zeroFill env real off (off - (tree.data node).length) (tree.data node).length tree with
    | (tree, some e) => (tree, .error e)
    | (tree, none) => writeErrno env tree real off bytes

def recorded (paths : List FdPath) (fd : Nat) : Option FdPath :=
  (paths.find? fun e => e.fd == fd).filter fun e => !e.dir && !e.sock

def pwrite (tree : Tree) (paths : List FdPath) (fd : Nat) (bytes : Option Bytes) (off : Nat) :
    Tree × Except Errno Nat :=
  match recorded paths fd with
  | none => (tree, .error .ESPIPE)
  | some e =>
    match env.real e.path, bytes with
    | none, _ => (tree, .error .ENOENT)
    | some _, none => (tree, .error .EFAULT)
    | some real, some bytes => writeAt env tree real off (bytes.take (2 ^ 20))

def pwritevLoop (paths : List FdPath) (fd off : Nat) : List (Nat × Option Bytes) → Nat → Tree → Tree × Except Errno Nat
  | [], total, tree => (tree, .ok total)
  | (len, bytes) :: rest, total, tree =>
    match pwrite env tree paths fd bytes (off + total) with
    | (tree, .error e) => (tree, .error e)
    | (tree, .ok n) => if n < len then (tree, .ok (total + n)) else pwritevLoop paths fd off rest (total + n) tree

def pwritev (tree : Tree) (paths : List FdPath) (fd off : Nat) (buffers : List (Nat × Option Bytes)) :
    Tree × Except Errno Nat :=
  if 1024 < buffers.length then (tree, .error .EINVAL) else pwritevLoop env paths fd off buffers 0 tree

def copyChunk (paths : List FdPath) (fd off : Nat) (chunk : Bytes) : Nat → Nat → Tree → Tree × Nat × Option Errno
  | 0, done, tree => (tree, done, none)
  | fuel + 1, done, tree =>
    if chunk.length ≤ done then (tree, done, none)
    else
      match pwrite env tree paths fd (some (chunk.drop done)) (off + done) with
      | (tree, .error e) => (tree, done, some e)
      | (tree, .ok 0) => (tree, done, none)
      | (tree, .ok n) => copyChunk paths fd off chunk fuel (done + n) tree

def CHUNK : Nat := 64 * 1024

def copyResult (total : Nat) : Option Errno → Except Errno Nat
  | some e => if total = 0 then .error e else .ok total
  | none => .ok total

def copyLoop (paths : List FdPath) (fd len : Nat) : List (Except Errno Bytes) → Nat → Nat → Tree → Tree × Except Errno Nat
  | [], total, _, tree => (tree, .ok total)
  | got :: rest, total, off, tree =>
    if len ≤ total then (tree, .ok total)
    else
      match got with
      | .error e => (tree, copyResult total (some e))
      | .ok [] => (tree, .ok total)
      | .ok (b :: bytes) =>
        let want := min (len - total) CHUNK
        let chunk := (b :: bytes).take want
        match copyChunk env paths fd off chunk chunk.length 0 tree with
        | (tree, done, failed) =>
          if failed.isSome ∨ done < chunk.length ∨ chunk.length < want then (tree, copyResult (total + done) failed)
          else copyLoop paths fd len rest (total + done) (off + done) tree

def copyFileRange (tree : Tree) (paths : List FdPath) (fd off len : Nat) (flags : Nat) (scratch : Bool)
    (reads : List (Except Errno Bytes)) : Tree × Except Errno Nat :=
  if flags ≠ 0 then (tree, .error .EINVAL)
  else if len = 0 then (tree, .ok 0)
  else if scratch = false then (tree, .error .ENOMEM)
  else copyLoop env paths fd len reads 0 off tree

end Write

def putPath (paths : List FdPath) (e : FdPath) : List FdPath := paths.filter (fun x => x.fd != e.fd) ++ [e]

def dupPath (paths : List FdPath) (old new : Nat) : List FdPath :=
  match paths.find? fun e => e.fd == old with
  | some e => putPath paths { e with fd := new }
  | none => paths.filter fun x => x.fd != new

structure Open where
  node : Nat
  readable : Bool
  writable : Bool
  deriving DecidableEq

def pread (data : Nat → Bytes) (file : Open) (off n : Nat) : Option Bytes :=
  if file.readable then some (slice (data file.node) off n) else none

structure Call where
  file : Option Open
  before : Nat → Bytes
  after : Nat → Bytes
  answer : Except Errno Nat
  single : Option (Bytes × Nat)

structure State where
  tree : Tree
  opens : Nat → Option Open
  fds : Nat → Nat → Option Nat
  paths : Nat → List FdPath
  calls : List Call

namespace State

variable (s : State)

def fileOf (pid fd : Nat) : Option Open := (s.fds pid fd).bind s.opens

def setFd (pid fd : Nat) (id : Option Nat) : State :=
  { s with fds := fun p f => if p = pid ∧ f = fd then id else s.fds p f }

def setPaths (pid : Nat) (paths : List FdPath) : State :=
  { s with paths := fun p => if p = pid then paths else s.paths p }

def setName (name : Nat) (node : Option Nat) : State :=
  { s with tree := { s.tree with names := fun n => if n = name then node else s.tree.names n } }

def install (pid fd id path : Nat) (file : Open) : State :=
  let opened := { s with opens := fun i => if i = id then some file else s.opens i }
  (opened.setFd pid fd (some id)).setPaths pid (putPath (s.paths pid) ⟨fd, path, false, false⟩)

def record (pid fd : Nat) (single : Option (Bytes × Nat)) (made : Tree × Except Errno Nat) : State :=
  { s with tree := made.1
           calls := ⟨s.fileOf pid fd, s.tree.data, made.1.data, made.2, single⟩ :: s.calls }

end State

inductive Event where
  | openat (pid path fd id : Nat) (real : Nat → Option Nat) (readable writable : Bool) (new : Option Nat)
  | other (pid : Nat) (e : FdPath)
  | close (pid fd : Nat)
  | dup (pid old new : Nat)
  | fork (parent child : Nat)
  | spawn (pid : Nat)
  | native (pid fd : Nat) (id : Option Nat)
  | rename (old new : Nat)
  | unlink (name : Nat)
  | create (name node : Nat)
  | changed (node : Nat) (bytes : Bytes)
  | pwrite (pid fd : Nat) (bytes : Option Bytes) (off : Nat) (env : Env)
  | pwritev (pid fd : Nat) (buffers : List (Nat × Option Bytes)) (off : Nat) (env : Env)
  | copyFileRange (pid fd off len flags : Nat) (scratch : Bool) (reads : List (Except Errno Bytes)) (env : Env)

namespace State

def step (s : State) : Event → Option State
  | .openat pid path fd id real readable writable new =>
    if (s.fds pid fd).isSome ∨ (s.opens id).isSome then none
    else
      match real path with
      | none => none
      | some name =>
        match s.tree.names name, new with
        | some node, _ => some (s.install pid fd id path ⟨node, readable, writable⟩)
        | none, some node => some ((s.setName name (some node)).install pid fd id path ⟨node, readable, writable⟩)
        | none, none => none
  | .other pid e => if e.dir ∨ e.sock then some (s.setPaths pid (putPath (s.paths pid) e)) else none
  | .close pid fd => some ((s.setFd pid fd none).setPaths pid ((s.paths pid).filter fun x => x.fd != fd))
  | .dup pid old new => some ((s.setFd pid new (s.fds pid old)).setPaths pid (dupPath (s.paths pid) old new))
  | .fork parent child =>
    let inherited := { s with fds := fun p => if p = child then s.fds parent else s.fds p }
    some (inherited.setPaths child (s.paths parent))
  | .spawn pid => some (s.setPaths pid [])
  | .native pid fd id => some (s.setFd pid fd id)
  | .rename old new => some ((s.setName new (s.tree.names old)).setName old none)
  | .unlink name => some (s.setName name none)
  | .create name node => some (s.setName name (some node))
  | .changed node bytes => some { s with tree := s.tree.setData node bytes }
  | .pwrite pid fd bytes off env =>
    some (s.record pid fd (bytes.map fun b => (b, off)) (LinuxFiles.pwrite env s.tree (s.paths pid) fd bytes off))
  | .pwritev pid fd buffers off env =>
    some (s.record pid fd none (LinuxFiles.pwritev env s.tree (s.paths pid) fd off buffers))
  | .copyFileRange pid fd off len flags scratch reads env =>
    some (s.record pid fd none (LinuxFiles.copyFileRange env s.tree (s.paths pid) fd off len flags scratch reads))

def Boot (s : State) : Prop := (∀ pid, s.paths pid = []) ∧ s.calls = []

def system : Lib.System State Event := ⟨Boot, step⟩

end State
end Myos.Modules.LinuxFiles
