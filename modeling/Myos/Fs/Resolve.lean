import Myos.Task.Ns

namespace Myos.Fs
open Myos.Sec Myos.Task.Ns

def PATH_MAX : Nat := 256
def MAX_SYMLINKS : Nat := 40
def SLASH : UInt8 := 47
def DOT : Name := [46]
def DOTDOT : Name := [46, 46]

def pathText (path : Path) : List UInt8 := if path = [] then [SLASH] else path.flatMap (SLASH :: ·)

def pushComponent (stack : Path) (comp : Name) : Option Path :=
  if comp = [] ∨ comp = DOT then some stack
  else if comp = DOTDOT then some stack.dropLast
  else if 64 ≤ stack.length ∨ PATH_MAX < (stack.map List.length).sum + comp.length then none
  else some (stack ++ [comp])

def canonicalizeAbsolute (path : List UInt8) : Option Path := do
  let stack ← (path.splitOn SLASH).foldlM pushComponent []
  if PATH_MAX < pathLen stack then none else some stack

def resolveAgainstCwd (cwd : Path) (path : List UInt8) : Option Path :=
  let raw :=
    if path = [] ∨ path = DOT then pathText cwd
    else if path.head? = some SLASH then path
    else if cwd = [] then SLASH :: path
    else pathText cwd ++ SLASH :: path
  if PATH_MAX < raw.length then none else canonicalizeAbsolute raw

structure View where
  ns : Option Namespace
  cwd : Option Path
  symlinksPossible : Bool
  readlink : RealPath → Option (List UInt8)
  stat : RealPath → Option Bool

namespace View

variable (v : View)

def resolveUserPathVirtual (path : List UInt8) : Option Path :=
  if path.head? = some SLASH then resolveAgainstCwd [] path else v.cwd.bind (resolveAgainstCwd · path)

def virtualToReal (virt : Path) : Option RealPath :=
  match v.ns with
  | none => if PATH_MAX < pathLen virt then none else some ⟨false, virt⟩
  | some n =>
    match n.map virt with
    | none => none
    | some (.real r) => if PATH_MAX < pathLen r then none else some ⟨false, r⟩
    | some .synthetic => if PATH_MAX < pathLen virt + 1 then none else some ⟨true, virt⟩

def followSymlinks (followLast : Bool) (hops : Nat) (virt : Path) (i : Nat) : Option Path :=
  if i < virt.length then
    if i + 1 < virt.length ∨ followLast = true then
      match v.virtualToReal (virt.take (i + 1)) with
      | none => none
      | some real =>
        match v.readlink real with
        | none => followSymlinks followLast hops virt (i + 1)
        | some target =>
          match hops with
          | 0 => none
          | hops + 1 =>
            let joined := target ++ (virt.drop (i + 1)).flatMap (SLASH :: ·)
            if target = [] ∨ PATH_MAX < joined.length ∨ isUtf8 joined = false then none
            else
              match resolveAgainstCwd (virt.take i) joined with
              | none => none
              | some next => followSymlinks followLast hops next 0
    else followSymlinks followLast hops virt (i + 1)
  else some virt
termination_by (hops, virt.length - i)

def PROC_SELF : Path := [[112, 114, 111, 99], [115, 101, 108, 102]]

def inProcSelf (virt : Path) : Bool := decide (PROC_SELF <+: virt) && decide (PROC_SELF.length < virt.length)

def resolveUserPathWalk (path : List UInt8) (followLast : Bool) : Option RealPath :=
  if v.ns.isNone ∧ v.symlinksPossible = false then do
    let virt ← v.resolveUserPathVirtual path
    if inProcSelf virt then (v.followSymlinks followLast MAX_SYMLINKS virt 0).map (⟨false, ·⟩)
    else some ⟨false, virt⟩
  else do
    let virt ← v.resolveUserPathVirtual path
    let virt ← if v.symlinksPossible || inProcSelf virt then v.followSymlinks followLast MAX_SYMLINKS virt 0 else some virt
    v.virtualToReal virt

def trailingSlash (path : List UInt8) : Bool :=
  path.getLast? == some SLASH && path.any fun b => b != SLASH

def resolveUserPath (path : List UInt8) : Option RealPath := do
  let real ← v.resolveUserPathWalk path true
  if trailingSlash path && v.stat real == some false then none else some real

end View
end Myos.Fs
