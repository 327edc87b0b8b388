import Mathlib.Algebra.Order.BigOperators.Group.List
import Mathlib.Algebra.Order.Group.Nat
import Myos.Fs.Binds
import Myos.Fs.ListingSpec

namespace Myos.Fs
open Lib
open Myos.Sec (Name)
open Binds (MAX_BIND_HOPS)

mutual
inductive Tree
  | file
  | dir (entries : Forest)
inductive Forest
  | nil
  | cons (name : Name) (tree : Tree) (rest : Forest)
end

namespace Forest

def names : Forest → List Name
  | .nil => []
  | .cons name _ rest => name :: rest.names

def find (name : Name) : Forest → Option Tree
  | .nil => none
  | .cons other tree rest => if other = name ∧ name ≠ [] then some tree else rest.find name

end Forest

namespace Tree

def at_ : Tree → List Name → Option Tree
  | t, [] => some t
  | .file, _ :: _ => none
  | .dir f, name :: rest => (f.find name).bind (at_ · rest)

def isDir : Tree → Bool
  | .file => false
  | .dir _ => true

def namesAt (t : Tree) (rel : List Name) : List Name :=
  match t.at_ rel with
  | some (.dir f) => f.names
  | _ => []

end Tree

/-- An entry of the mount table; one that was unmounted stays in it without a place. -/
structure Mount where
  point : Option (List Name)
  root : Tree

structure Bind where
  target : List Name
  source : List Name
  below : target ≠ []

structure Vfs where
  mounts : List Mount
  binds : List Bind

def textLen (path : List Name) : Nat := (path.map fun name => name.length + 1).sum - 1

namespace Vfs

variable (v : Vfs)

def rewrite (path : List Name) : Option (List Name) :=
  (maxByKey (fun b => textLen b.target) (v.binds.filter fun b => b.target <+: path)).map fun b =>
    b.source ++ path.drop b.target.length

def unbindFrom : Nat → List Name → Option (List Name)
  | 0, _ => none
  | hops + 1, path =>
    match v.rewrite path with
    | none => some path
    | some next => unbindFrom hops next

def unbind (path : List Name) : Option (List Name) := v.unbindFrom MAX_BIND_HOPS path

def boundNames (real : List Name) : List (List Name) :=
  v.binds.filterMap fun b =>
    if b.source <+: real then some (b.target ++ real.drop b.source.length) else none

def holders (path : List Name) : List (Mount × List Name) :=
  v.mounts.filterMap fun m => m.point.bind fun point => if point <+: path then some (m, point) else none

/-- The mount a path lives on, its place and the path from there. -/
def resolveIndex (path : List Name) : Option (Mount × List Name × List Name) :=
  if path.any (0 ∈ ·) then none
  else
    (v.unbind path).bind fun path =>
      -- Of two mounts at one place the first is taken: the last of the reversed list.
      (maxByKey (fun entry => textLen entry.2) (v.holders path).reverse).map fun (m, point) =>
        (m, point, path.drop point.length)

def stat (path : List Name) : Option Tree := (v.resolveIndex path).bind fun (m, _, rel) => m.root.at_ rel

def statDir (path : List Name) : Bool := (v.stat path).any Tree.isDir

def mountNames (dir : List Name) : List Name :=
  v.mounts.filterMap fun m => m.point.bind fun point => if dir <+: point then point[dir.length]? else none

def bindNames (path : List Name) : List Name :=
  v.binds.filterMap fun b => if b.target.dropLast = path then b.target.getLast? else none

def listdir (cap : Nat) (path : List Name) : List UInt8 :=
  match v.resolveIndex path with
  | none => []
  | some (m, point, rel) =>
    let out := withoutHidden (writeNames cap [] (m.root.namesAt rel))
    let out := addNames cap out ((v.mountNames (point ++ rel)).filter fun child => child ≠ [] ∧ NL ∉ child)
    addNames cap out ((v.bindNames path).filter fun child => child ≠ [])

end Vfs

mutual
def Tree.depth : Tree → Nat
  | .file => 0
  | .dir f => f.depth + 1
def Forest.depth : Forest → Nat
  | .nil => 0
  | .cons _ tree rest => max tree.depth rest.depth
end

theorem Forest.depth_find {name : Name} {t : Tree} : ∀ {f : Forest}, f.find name = some t → t.depth ≤ f.depth
  | .cons other tree rest, found => by
    rw [Forest.find] at found
    rw [Forest.depth]
    split at found
    · cases found
      exact Nat.le_max_left ..
    · exact Nat.le_trans (depth_find found) (Nat.le_max_right ..)

theorem Tree.length_le_depth {t u : Tree} {path : List Name} (found : t.at_ path = some u) :
    path.length ≤ t.depth := by
  induction path generalizing t with
  | nil => exact Nat.zero_le _
  | cons name path ih =>
    cases t with
    | file => cases found
    | dir f =>
      obtain ⟨child, isChild, found⟩ := Option.bind_eq_some_iff.mp found
      rw [Tree.depth]
      have := ih found
      have := Forest.depth_find isChild
      rw [List.length_cons]
      omega

namespace Vfs

variable {v : Vfs} {path : List Name}

/-- No path that leads to a file is longer. -/
def depth (v : Vfs) : Nat :=
  (v.mounts.map fun m => (m.point.getD []).length + m.root.depth).sum +
    MAX_BIND_HOPS * (v.binds.map fun b => b.target.length).sum

theorem length_rewrite {next : List Name} (rewritten : v.rewrite path = some next) :
    path.length ≤ next.length + (v.binds.map fun b => b.target.length).sum := by
  obtain ⟨b, best, rfl⟩ := Option.map_eq_some_iff.mp rewritten
  have member := (List.mem_filter.mp (maxByKey_some best).1).1
  have : b.target.length ≤ _ := List.le_sum_of_mem (List.mem_map_of_mem (f := fun b => b.target.length) member)
  simp only [List.length_append, List.length_drop]
  omega

theorem length_unbindFrom {hops : Nat} {final : List Name} (found : v.unbindFrom hops path = some final) :
    path.length ≤ final.length + hops * (v.binds.map fun b => b.target.length).sum := by
  induction hops generalizing path with
  | zero => cases found
  | succ hops ih =>
    rw [unbindFrom] at found
    rw [Nat.succ_mul]
    split at found
    · cases found
      omega
    · have := length_rewrite ‹_›
      have := ih found
      omega

theorem mem_holders {m : Mount} {point : List Name} :
    (m, point) ∈ v.holders path ↔ m ∈ v.mounts ∧ m.point = some point ∧ point <+: path := by
  simp only [holders, List.mem_filterMap, Option.bind_eq_some_iff, Option.ite_none_right_eq_some, Option.some.injEq,
    Prod.mk.injEq]
  constructor
  · rintro ⟨_, member, _, placed, above, rfl, rfl⟩
    exact ⟨member, placed, above⟩
  · rintro ⟨member, placed, above⟩
    exact ⟨m, member, point, placed, above, rfl, rfl⟩

theorem length_le_depth {t : Tree} (found : v.stat path = some t) : path.length ≤ v.depth := by
  obtain ⟨⟨m, point, rel⟩, resolved, there⟩ := Option.bind_eq_some_iff.mp found
  obtain ⟨-, resolved⟩ := Option.ite_none_left_eq_some.mp resolved
  obtain ⟨final, unbound, resolved⟩ := Option.bind_eq_some_iff.mp resolved
  obtain ⟨⟨m', point'⟩, best, same⟩ := Option.map_eq_some_iff.mp resolved
  cases same
  obtain ⟨member, placed, above⟩ := mem_holders.mp (List.mem_reverse.mp (maxByKey_some best).1)
  have rewritten := length_unbindFrom unbound
  have deep := Tree.length_le_depth there
  have : (m.point.getD []).length + m.root.depth ≤ _ :=
    List.le_sum_of_mem (List.mem_map_of_mem (f := fun m => (m.point.getD []).length + m.root.depth) member)
  rw [placed, Option.getD_some] at this
  have := above.length_le
  rw [List.length_drop] at deep
  unfold depth
  omega

/-- A tree with one filesystem and no binds. -/
def rooted (root : Tree) : Vfs := ⟨[⟨some [], root⟩], []⟩

variable {root : Tree}

theorem unbind_rooted (root : Tree) (path : List Name) : (rooted root).unbind path = some path := rfl

theorem resolveIndex_rooted (shown : path.any (0 ∈ ·) = false) :
    (rooted root).resolveIndex path = some (⟨some [], root⟩, [], path) := by
  have held : (rooted root).holders path = [(⟨some [], root⟩, [])] := by simp [holders, rooted]
  rw [resolveIndex, shown, unbind_rooted, Option.bind_some, held]
  rfl

theorem stat_rooted (shown : path.any (0 ∈ ·) = false) : (rooted root).stat path = root.at_ path := by
  rw [stat, resolveIndex_rooted shown]
  rfl

theorem listdir_rooted (cap : Nat) (shown : path.any (0 ∈ ·) = false) :
    (rooted root).listdir cap path = withoutHidden (writeNames cap [] (root.namesAt path)) := by
  have mounts : (rooted root).mountNames path = [] := by simp [mountNames, rooted]
  rw [listdir, resolveIndex_rooted shown]
  dsimp only
  rw [List.nil_append, mounts]
  rfl

theorem listdir_length_le (v : Vfs) (cap : Nat) (path : List Name) : (v.listdir cap path).length ≤ cap := by
  unfold listdir
  split
  · exact Nat.zero_le _
  refine mergeNames_length_le true cap _ (mergeNames_length_le true cap _ (Nat.le_trans (withoutHidden_length_le _) ?_))
  exact writeNames_length_le cap _ (Nat.zero_le _)

end Vfs
end Myos.Fs
