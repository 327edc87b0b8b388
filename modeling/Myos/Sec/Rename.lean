import Myos.Fs.Vfs

namespace Myos.Sec
open Myos.Fs

def canonical (v : Vfs) (real : List Name) : List Name := (v.unbind real).getD real

/-- The process that asks: the policy with its user and domain (none in the kernel itself), whose terminal a path
is, and its namespace. -/
structure Caller where
  current : Option (Policy × Nat × Nat)
  terminalUser : List Name → Option Nat
  view : Option Task.Ns.Namespace

namespace Caller

variable (c : Caller) (v : Vfs)

def nsRights (real : RealPath) : Rights := Task.Ns.nsRights c.view real.comps

def labelAt (p : Policy) (real : RealPath) : Label :=
  let path := canonical v real.comps
  let label := p.labelOf path
  match label.param with
  | some _ => label
  | none => { label with param := ((c.terminalUser path).bind fun u => p.users[u]?).map User.name }

def rightsIn (real : RealPath) (ns : Rights) : Rights :=
  if real.synthetic then Rights.READ
  else match c.current with
    | none => ns
    | some (p, u, d) => p.rights u d (c.labelAt v p real) &&& ns

def refused (p : Policy) : Bool := !p.enforcing

def allowedIn (real : RealPath) (need ns : Rights) : Bool :=
  if real.synthetic then Rights.contains Rights.READ need
  else if !Rights.contains ns need then false
  else match c.current with
    | none => true
    | some (p, u, d) => Rights.contains (p.rights u d (c.labelAt v p real)) need || refused p

end Caller

def RENAME_LIST_MAX : Nat := 256 * 1024

def listed (v : Vfs) (path : List Name) : List Name := readNames (v.listdir RENAME_LIST_MAX path)

structure RenameCall where
  old : RealPath
  oldNs : Option Rights
  new : RealPath
  newNs : Option Rights
  replaced : Bool

namespace RenameCall

variable (c : Caller) (v : Vfs) (r : RenameCall)

def ns (real : RealPath) (fixed : Option Rights) : Rights := fixed.getD (c.nsRights real)

def mayRemove (sub : List Name) : Bool :=
  c.allowedIn v (r.old.join sub) Rights.REMOVE (ns c (r.old.join sub) r.oldNs)

def mayCreate (sub : List Name) : Bool :=
  c.allowedIn v (r.new.join sub) Rights.CREATE (ns c (r.new.join sub) r.newNs)

def statDir (rel : List Name) : Bool := v.statDir (r.old.comps ++ rel)

def checkNames (rel : List Name) : List Name → Option (List (List Name))
  | [] => some []
  | name :: rest =>
    if isUtf8 name && r.mayRemove c v (rel ++ [name]) && r.mayCreate c v (rel ++ [name]) then
      (checkNames rel rest).map fun subs => if r.statDir v (rel ++ [name]) then (rel ++ [name]) :: subs else subs
    else none

def cutOff (out : List UInt8) : Bool :=
  out.length == RENAME_LIST_MAX || (decide (0 < out.length) && out.getLast? != some NL)

-- A listing has at most `RENAME_LIST_MAX + 1` names and no path to a directory is longer than `v.depth`.
def weight (rel : List Name) : Nat := (RENAME_LIST_MAX + 2) ^ (v.depth + 1 - (r.old.comps.length + rel.length))

variable {c v r}

theorem weight_pos (rel : List Name) : 0 < r.weight v rel := Nat.pow_pos (Nat.succ_pos _)

theorem weight_sub {rel : List Name} {name : Name} (isDir : r.statDir v (rel ++ [name]) = true) :
    r.weight v rel = (RENAME_LIST_MAX + 2) * r.weight v (rel ++ [name]) := by
  obtain ⟨t, found, -⟩ := Option.any_eq_true _ _ |>.mp isDir
  have short := Vfs.length_le_depth found
  simp only [List.length_append, List.length_singleton] at short
  rw [weight, weight, ← Nat.pow_succ']
  congr 1
  simp only [List.length_append, List.length_singleton]
  omega

theorem weight_checkNames {rel names : List Name} {subs : List (List Name)}
    (checked : r.checkNames c v rel names = some subs) :
    (RENAME_LIST_MAX + 2) * (subs.map (r.weight v)).sum ≤ names.length * r.weight v rel := by
  induction names generalizing subs with
  | nil =>
    cases checked
    exact Nat.zero_le _
  | cons name rest ih =>
    rw [checkNames] at checked
    split at checked
    · obtain ⟨others, done, rfl⟩ := Option.map_eq_some_iff.mp checked
      have bound := ih done
      rw [List.length_cons, Nat.succ_mul rest.length]
      split
      · rw [List.map_cons, List.sum_cons, Nat.mul_add, ← weight_sub ‹_›]
        omega
      · omega
    · cases checked

theorem weight_step {rel : List Name} {rest subs : List (List Name)}
    (checked : r.checkNames c v rel (listed v (r.old.comps ++ rel)) = some subs) :
    ((subs.reverse ++ rest).map (r.weight v)).sum < ((rel :: rest).map (r.weight v)).sum := by
  have pushed := weight_checkNames checked
  have few : (listed v (r.old.comps ++ rel)).length ≤ RENAME_LIST_MAX + 1 :=
    Nat.le_trans (readNames_length_le _) (Nat.succ_le_succ (Vfs.listdir_length_le v _ _))
  have less : (RENAME_LIST_MAX + 2) * (subs.map (r.weight v)).sum < (RENAME_LIST_MAX + 2) * r.weight v rel :=
    calc _ ≤ _ := pushed
      _ ≤ (RENAME_LIST_MAX + 1) * r.weight v rel := Nat.mul_le_mul_right _ few
      _ < _ := Nat.mul_lt_mul_of_pos_right (Nat.lt_succ_self _) (weight_pos rel)
  have := Nat.lt_of_mul_lt_mul_left less
  rw [List.map_append, List.map_reverse, List.sum_append, List.sum_reverse, List.map_cons, List.sum_cons]
  omega

variable (c v r)

def walk (todo : List (List Name)) : Bool :=
  match todo with
  | [] => true
  | rel :: rest =>
    if cutOff (v.listdir RENAME_LIST_MAX (r.old.comps ++ rel)) then false
    else
      match _checked : r.checkNames c v rel (listed v (r.old.comps ++ rel)) with
      | none => false
      | some subs => walk (subs.reverse ++ rest)
termination_by (todo.map (r.weight v)).sum
decreasing_by exact weight_step _checked

def mayRename : Bool :=
  let needNew := if r.replaced then Rights.CREATE ||| Rights.REMOVE else Rights.CREATE
  if !c.allowedIn v r.old Rights.REMOVE (ns c r.old r.oldNs) || !c.allowedIn v r.new needNew (ns c r.new r.newNs) then false
  else if !r.statDir v [] then true
  else r.walk c v [[]]

end RenameCall
end Myos.Sec
