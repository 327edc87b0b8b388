import Myos.Fs.Listing
import Myos.Lib.MaxByKey

namespace Myos.Task.Ns
open Lib Myos.Sec

abbrev Path := List Name

def pathLen (path : Path) : Nat := if path = [] then 1 else (path.map fun name => name.length + 1).sum

structure Binding where
  target : Path
  source : Path
  rights : Rights
deriving DecidableEq

structure Namespace where
  binds : List Binding
deriving DecidableEq

inductive Mapped
  | real (path : Path)
  | synthetic
deriving DecidableEq

def below (path above : Path) : Option Path := if above <+: path then some (path.drop above.length) else none

def join (base rest : Path) : Path := base ++ rest

namespace Namespace

variable (n : Namespace)

def candidates (virt : Path) : List (Binding × Path) :=
  n.binds.filterMap fun b => (below virt b.target).map fun rest => (b, rest)

def map (virt : Path) : Option Mapped :=
  match maxByKey (fun entry => pathLen entry.1.target) (n.candidates virt) with
  | some (b, rest) => some (.real (join b.source rest))
  | none => if n.binds.any fun b => (below b.target virt).isSome then some .synthetic else none

def rights (real : Path) : Rights :=
  (n.binds.filter fun b => (below real b.source).isSome).foldl (fun r b => r ||| b.rights) Rights.NONE

def children (virt : Path) : List Name :=
  n.binds.foldl (fun out b =>
    match below b.target virt with
    | some (name :: _) => if name ∈ out then out else out ++ [name]
    | _ => out) []

end Namespace

def nsRights (n : Option Namespace) (real : Path) : Rights := (n.map fun n => n.rights real).getD Rights.ALL

end Myos.Task.Ns
