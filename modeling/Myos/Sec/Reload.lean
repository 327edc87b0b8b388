import Myos.Lib.System
import Myos.Sec.Policy

namespace Myos.Sec

structure Ctx where
  user : Nat
  domain : Nat
  deriving DecidableEq

def Ctx.BOOT : Ctx := ⟨U16_MAX, U16_MAX⟩

def Ctx.GONE : Ctx := ⟨U16_MAX - 1, U16_MAX - 1⟩

/-- What `parse` makes sure of: the names are distinct, and an index is one of the table it points into. -/
structure Policy.Wf (p : Policy) : Prop where
  users : (p.users.map User.name).Nodup
  domains : (p.domains.map Domain.name).Nodup
  boot : p.boot.1 < p.users.length ∧ p.boot.2 < p.domains.length
  enters : ∀ u ∈ p.users, ∀ d ∈ u.domains, d < p.domains.length
  logins : ∀ u ∈ p.users, ∀ d ∈ u.login, d < p.domains.length
  login : ∀ d ∈ p.login, d < p.domains.length

inductive Object where
  | file (path : List Name) (terminalUser : Option Nat)
  | kernel (kind : Name) (param : Option Name)

namespace Policy

variable (p : Policy)

def current (c : Ctx) : Nat × Nat := if c = .BOOT then p.boot else (c.user, c.domain)

def labelFor : Object → Label
  | .kernel kind param => p.objectLabel kind param
  | .file path terminalUser =>
    let label := p.labelOf path
    match label.param with
    | some _ => label
    | none => { label with param := (terminalUser.bind fun u => p.users[u]?).map User.name }

def allows (r need : Rights) : Bool := Rights.contains r need || !p.enforcing

def allowed (c : Ctx) (o : Object) (need : Rights) : Bool :=
  p.allows (p.rights (p.current c).1 (p.current c).2 (p.labelFor o)) need

def execCtx (c : Ctx) (path : List Name) : Option Ctx :=
  let user := if c = .BOOT then p.boot.1 else c.user
  (p.execDomain user path).map fun domain => ⟨user, domain⟩

def userName (i : Nat) : Option Name := p.users[i]?.map User.name

def domainName (i : Nat) : Option Name := p.domains[i]?.map Domain.name

end Policy

def remapped (old new : Policy) (c : Ctx) : Ctx :=
  if c = .BOOT then c
  else
    match (old.userName c.user).bind new.userId, (old.domainName c.domain).bind new.domainId with
    | some user, some domain => ⟨user, domain⟩
    | _, _ => .GONE

inductive Given where
  | boot
  | names (user domain : Name)
  | gone
  deriving DecidableEq

namespace Policy

variable (p : Policy)

def hasUser (name : Name) : Bool := (p.users.map User.name).contains name

def hasDomain (name : Name) : Bool := (p.domains.map Domain.name).contains name

def rightsFor (g : Given) (label : Label) : Rights :=
  match g with
  | .boot => p.rights p.boot.1 p.boot.2 label
  | .names u d =>
    if p.hasUser u && p.hasDomain d then
      p.rights ((p.users.map User.name).idxOf u) ((p.domains.map Domain.name).idxOf d) label
    else Rights.NONE
  | .gone => Rights.NONE

def decides (g : Given) (o : Object) (need : Rights) : Bool := p.allows (p.rightsFor g (p.labelFor o)) need

def given (c : Ctx) : Given :=
  match p.userName c.user, p.domainName c.domain with
  | some u, some d => .names u d
  | _, _ => .gone

def execGiven (g : Given) (c : Ctx) : Given :=
  match g, p.domainName c.domain with
  | .names u _, some d => .names u d
  | _, _ => p.given c

end Policy

def Given.under (new : Policy) : Given → Given
  | .names u d => if new.hasUser u && new.hasDomain d then .names u d else .gone
  | g => g

namespace Reload

abbrev Parsed := { p : Policy // p.Wf }

inductive Goal where
  | access
  | enter (p : Parsed) (uid : Nat)
  | load (new : Parsed)

inductive Op where
  | ask (goal : Goal) (o : Object) (need : Rights)
  | check (goal : Goal) (o : Object) (need : Rights) (c : Ctx) (g : Given) (before : Parsed)
  | store (c : Ctx) (g : Given)
  | exec (path : List Name) (c : Ctx) (g : Given)
  | load (new : Parsed)
  | remap (old new : Parsed)
  | publish (new : Parsed)
  | fork (child : Nat) (c : Ctx) (g : Given)

inductive Call where
  | check (o : Object) (need : Rights)
  | setuser (name : Name) (hash : Name → List UInt8)
  | exec (path : List Name)
  | load (new : Parsed)
  | fork (child : Nat)

structure State where
  policy : Parsed
  ctx : Nat → Option Ctx
  given : Nat → Given
  ops : List (Nat × Op)
  odd : Bool

inductive Event where
  | start (pid : Nat) (call : Call)
  | go (k : Nat)
  | abandon (k : Nat)

namespace State

variable (s : State)

def KERNEL_USERS : Object := .kernel (word "kernel.users") none

def KERNEL_POLICY : Object := .kernel (word "kernel.policy") none

def setuser (name : Name) (hash : Name → List UInt8) : Option Op := do
  let p := s.policy
  let uid ← p.1.userId name
  let u ← p.1.users[uid]?
  match u.password with
  | some (salt, want) =>
    if hash salt = want then (p.1.loginDomain uid).map fun domain => .store ⟨uid, domain⟩ (p.1.given ⟨uid, domain⟩)
    else none
  | none => some (.ask (.enter p uid) KERNEL_USERS Rights.WRITE)

def begun (pid : Nat) (c : Ctx) : Call → Option Op
  | .check o need => some (.check .access o need c (s.given pid) s.policy)
  | .setuser name hash => s.setuser name hash
  | .exec path => some (.exec path c (s.given pid))
  | .load new => some (.check (.load new) KERNEL_POLICY Rights.WRITE c (s.given pid) s.policy)
  | .fork child => some (.fork child c (s.given pid))

def tables : List Policy :=
  s.policy.1 :: s.ops.filterMap fun
    | (_, .publish new) => some new.1
    | _ => none

def after (allowed : Bool) : Goal → Option Op
  | .access => none
  | .enter p uid =>
    if allowed then (p.1.loginDomain uid).map fun domain => .store ⟨uid, domain⟩ (p.1.given ⟨uid, domain⟩) else none
  | .load new => if allowed then some (.load new) else none

def next (k pid : Nat) (op : Option Op) : State :=
  match op with
  | some op => { s with ops := s.ops.set k (pid, op) }
  | none => { s with ops := s.ops.eraseIdx k }

def give (pid : Nat) (c : Ctx) (g : Given) : State :=
  { s with ctx := Function.update s.ctx pid (some c), given := Function.update s.given pid g }

def goOn (k pid : Nat) : Op → Option State
  | .ask goal o need => (s.ctx pid).map fun c => s.next k pid (some (.check goal o need c (s.given pid) s.policy))
  | .check goal o need c g before =>
    let verdict := s.policy.1.allowed c o need
    some { s.next k pid (after verdict goal) with
      odd := s.odd || !(before.1 :: s.tables).any fun q => q.decides g o need == verdict }
  | .store c g => some ((s.give pid c g).next k pid none)
  | .exec path c g => some (s.next k pid ((s.policy.1.execCtx c path).map fun c' => .store c' (s.policy.1.execGiven g c')))
  | .load new => some (s.next k pid (some (.remap s.policy new)))
  | .remap old new =>
    some ({ s with
      ctx := fun pid => (s.ctx pid).map (remapped old.1 new.1)
      given := fun pid => (s.given pid).under new.1 }.next k pid (some (.publish new)))
  | .publish new => some ({ s with policy := new }.next k pid none)
  | .fork child c g => if s.ctx child = none then some ((s.give child c g).next k pid none) else none

def step : Event → Option State
  | .start pid call => (s.ctx pid).map fun c =>
    match s.begun pid c call with
    | some op => { s with ops := s.ops ++ [(pid, op)] }
    | none => s
  | .go k => (s.ops[k]?).bind fun (pid, op) => s.goOn k pid op
  | .abandon k =>
    match s.ops[k]? with
    | some (_, .exec ..) | some (_, .store ..) | some (_, .fork ..) => some { s with ops := s.ops.eraseIdx k }
    | _ => none

end State

def boot (p : Parsed) : State where
  policy := p
  ctx := fun pid => if pid = 1 then some .BOOT else none
  given := fun _ => .boot
  ops := []
  odd := false

def system : Lib.System State Event where
  start s := ∃ p, s = boot p
  step := State.step

theorem boot_reached (meets : State → Event → Prop) (p : Parsed) : system.Reach meets (boot p) := .start ⟨p, rfl⟩

end Reload
end Myos.Sec
