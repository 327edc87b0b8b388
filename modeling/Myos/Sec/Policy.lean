import Mathlib.Algebra.GroupWithZero.Nat
import Mathlib.Data.List.Basic
import Myos.Lib.Consts

namespace Myos.Sec

abbrev Name := List UInt8

abbrev Rights := BitVec 16

namespace Rights

def NONE : Rights := 0
def READ : Rights := 1
def WRITE : Rights := 2
def APPEND : Rights := 4
def CREATE : Rights := 8
def REMOVE : Rights := 16
def EXEC : Rights := 32
def ALL : Rights := 0x1ff

def contains (self other : Rights) : Bool := self &&& other == other

def widened (self : Rights) : Rights := if contains self WRITE then self ||| APPEND else self

theorem contains_iff_bits (r need : Rights) :
    contains r need = true ↔ ∀ i (inside : i < 16), need[i] = true → r[i] = true := by
  simp only [contains, beq_iff_eq, BitVec.eq_of_getElem_eq_iff, BitVec.getElem_and]
  constructor
  · intro same i inside set
    simp_all
  intro subset i inside
  cases set : need[i]
  · simp
  · simp [subset i inside set]

theorem contains_and (a b need : Rights) : contains (a &&& b) need = (contains a need && contains b need) := by
  rw [Bool.eq_iff_iff, Bool.and_eq_true, contains_iff_bits, contains_iff_bits, contains_iff_bits]
  simp only [BitVec.getElem_and, Bool.and_eq_true]
  constructor
  · intro both
    exact ⟨fun i inside set => (both i inside set).1, fun i inside set => (both i inside set).2⟩
  · rintro ⟨left, right⟩ i inside set
    exact ⟨left i inside set, right i inside set⟩

theorem contains_or (r a b : Rights) : contains r (a ||| b) = (contains r a && contains r b) := by
  rw [Bool.eq_iff_iff, Bool.and_eq_true, contains_iff_bits, contains_iff_bits, contains_iff_bits]
  simp only [BitVec.getElem_or, Bool.or_eq_true]
  constructor
  · intro both
    exact ⟨fun i inside set => both i inside (.inl set), fun i inside set => both i inside (.inr set)⟩
  · rintro ⟨left, right⟩ i inside (set | set)
    · exact left i inside set
    · exact right i inside set

end Rights

inductive Seg
  | lit (name : Name)
  | star
  | rest
  | var (name : Name)
deriving DecidableEq

abbrev Pattern := List Seg

def Pattern.captures : Pattern → List Name → Option (List (Name × Name))
  | [], [] => some []
  | [], _ :: _ => none
  | .rest :: _, _ => some []
  | .star :: segs, _ :: comps => captures segs comps
  | .lit l :: segs, c :: comps => if c = l then captures segs comps else none
  | .var v :: segs, c :: comps => (captures segs comps).map ((v, c) :: ·)
  | _ :: _, [] => none

inductive LabelParam
  | none
  | var (name : Name)
  | lit (name : Name)

structure LabelRule where
  pattern : Pattern
  kind : Nat
  param : LabelParam

structure Label where
  kind : Nat
  param : Option Name

inductive KindSel
  | any
  | kind (k : Nat)

inductive ParamSel
  | none
  | selfUser
  | group
  | any
  | name (n : Name)

structure Rule where
  kind : KindSel
  param : ParamSel
  rights : Rights

structure Domain where
  name : Name
  rules : List Rule

structure User where
  name : Name
  groups : List Nat
  domains : List Nat
  login : Option Nat
  nologin : Bool
  password : Option (Name × List UInt8)

structure ExecRule where
  pattern : Pattern
  domain : Nat

structure Policy where
  enforcing : Bool
  users : List User
  groups : List Name
  domains : List Domain
  kinds : List Name
  labels : List LabelRule
  execs : List ExecRule
  login : Option Nat
  boot : Nat × Nat

def word (w : String) : Name := w.toList.map fun c => UInt8.ofNat c.toNat

def UNLABELED : Name := word "unlabeled"

def position (names : List Name) (name : Name) : Option Nat := (names.findIdx? (· == name)).map (· % 2 ^ 16)

namespace Policy

variable (p : Policy)

def userId (name : Name) : Option Nat := position (p.users.map User.name) name

def domainId (name : Name) : Option Nat := position (p.domains.map Domain.name) name

def kindId (name : Name) : Option Nat := position p.kinds name

def objectLabel (kind : Name) (param : Option Name) : Label := ⟨(p.kindId kind).getD U16_MAX, param⟩

def paramOf (rule : LabelRule) (caps : List (Name × Name)) : Option Name :=
  match rule.param with
  | .none => none
  | .lit l => some l
  | .var v => (caps.find? fun cap => cap.1 == v).map Prod.snd

def labelOf (path : List Name) : Label :=
  match p.labels.reverse.findSome? fun rule => (rule.pattern.captures path).map fun caps => (rule, caps) with
  | some (rule, caps) => ⟨rule.kind, paramOf rule caps⟩
  | none => ⟨(p.kindId UNLABELED).getD U16_MAX, none⟩

def kindOk (rule : Rule) (label : Label) : Bool :=
  match rule.kind with
  | .any => true
  | .kind k => k == label.kind

def paramOk (user : Option User) (rule : Rule) (label : Label) : Bool :=
  match rule.param, label.param with
  | .any, _ => true
  | .none, none => true
  | .selfUser, some owner => user.any fun u => u.name == owner
  | .group, some owner => user.any fun u => u.groups.any fun g => p.groups[g]? == some owner
  | .name n, some owner => n == owner
  | _, _ => false

def rights (user domain : Nat) (label : Label) : Rights :=
  match p.domains[domain]? with
  | none => Rights.NONE
  | some d => Rights.widened <| d.rules.foldl (fun r rule =>
    if kindOk rule label && p.paramOk p.users[user]? rule label then r ||| rule.rights else r) Rights.NONE

def execDomain (user : Nat) (path : List Name) : Option Nat := do
  let rule ← p.execs.reverse.find? fun e => (e.pattern.captures path).isSome
  let u ← p.users[user]?
  if u.domains.contains rule.domain then some rule.domain else none

def loginDomain (user : Nat) : Option Nat := do
  let u ← p.users[user]?
  if u.nologin then none else u.login.or p.login

end Policy

structure RealPath where
  made : Bool
  comps : List Name
deriving DecidableEq

namespace RealPath

def synthetic (real : RealPath) : Bool := real.made

def join (real : RealPath) (sub : List Name) : RealPath := { real with comps := real.comps ++ sub }

end RealPath

end Myos.Sec
